import DDBMS.MetaServer.CatalogLookup
import DDBMS.MetaServer.Placement
import Mathlib.Algebra.Order.Ring.Rat

/-!
# `MetaServer.Routing` — keys are looked up by the partitioning of the request

A request for a table with partitions says whether these are by ranges or by hash, and of what type the key is.
`CreatePartitionTable` takes both from the type of the key: so a table with an integer key has no partitioning, one with a
floating point key is partitioned by ranges and one with a string key by hash, whatever the request says. Whether the lookup
of a key then gives the partitions in which the request puts it is decided case by case (`RoutingOk`, `routed_iff`).
-/

namespace DDBMS
namespace MetaServer

/-- A key: a number that is an `int32_t`, or a string. -/
inductive Key where
  | number (i : Int32)
  | text (str : Bytes)
  deriving Repr, DecidableEq

/-- How it is written in a lookup. -/
def Key.toBytes : Key → Bytes
  | .number i => decimal i.toInt
  | .text str => str

/-- The keys of a type. -/
def Key.HasType (key_type : ColType) : Key → Prop
  | .number _ => key_type ≠ ColType.TYPE_STRING
  | .text _ => key_type = ColType.TYPE_STRING

def Hash.ofKey (hash : Hash) : Key → UInt64
  | .number i => hash.int64 i.toInt64
  | .text str => hash.string str

/-- The key is in this range. `value` is the number that a text stands for, as a bound of numbers. -/
def Contains (value : Bytes → Option Rat) (range : StringRange) : Key → Prop
  | .number i => ∃ a b, value range.min_range = some a ∧ value range.max_range = some b ∧
      a ≤ (i.toInt : Rat) ∧ (i.toInt : Rat) ≤ b
  | .text str => range.min_range ≤ str ∧ str ≤ range.max_range

/-- The request puts the key in the partition `i`. -/
def Belongs (value : Bytes → Option Rat) (hash : Hash) (request : CreatePartitonTableRequest) (key : Key) (i : Nat) : Prop :=
  if request.partition_type = PartitionType.RANGE_PARTITION then
    ∃ range, request.range[i]? = some range ∧ Contains value range key
  else i = (Hash.ofKey hash key).toNat % request.partition_cnt.toInt.toNat

variable {range : List StringRange} {cnt : Nat} {partitions : List ParMeta} {par : ParMeta}
variable {m m' : MetaServer} {request : CreatePartitonTableRequest}

/-! ## The partitions of a new table -/

theorem mem_partitionsOf (h : partitionsOf range cnt = some partitions) : par ∈ partitions ↔
    ∃ i r, i < cnt ∧ range[i]? = some r ∧ par = ⟨112 :: decimalNat i, Int32.ofNat i, r.min_range, r.max_range⟩ := by
  induction cnt generalizing partitions with
  | zero =>
      obtain rfl := Option.some.inj h
      simp
  | succ n ih =>
      obtain ⟨before, hbefore, h⟩ := Option.bind_eq_some_iff.mp h
      obtain ⟨r, hr, h⟩ := Option.bind_eq_some_iff.mp h
      obtain rfl := Option.some.inj h
      rw [List.mem_append, List.mem_singleton, ih hbefore]
      constructor
      · rintro (⟨i, r', hi, hrest⟩ | rfl)
        · exact ⟨i, r', by omega, hrest⟩
        · exact ⟨n, r, by omega, hr, rfl⟩
      · rintro ⟨i, r', hi, hr', rfl⟩
        by_cases hlast : i = n
        · subst hlast
          obtain rfl := Option.some.inj (hr.symm.trans hr')
          exact Or.inr rfl
        · exact Or.inl ⟨i, r', by omega, hr', rfl⟩

/-- Every partition has a leader. -/
theorem placePartitions_leader {oid : table_oid_t} {replica_cnt : Int32} {nodes nodes' : UnorderedMap Bytes Node}
    {locs : List PhyPartitionLocation} (h : placePartitions oid replica_cnt partitions nodes = some (nodes', locs)) :
    locs.map PhyPartitionLocation.p_id_ = partitions.map ParMeta.p_id ∧
      ∀ loc ∈ locs, ∃ r, loc.get_replica_location Replica_Role.Leader = some r := by
  induction partitions generalizing nodes locs with
  | nil =>
      obtain ⟨-, rfl⟩ := Prod.mk.inj (Option.some.inj h)
      exact ⟨rfl, by simp⟩
  | cons pm partitions ih =>
      obtain ⟨nodes₁, replic_loc, locs₁, hplace, hall, rfl⟩ := placePartitions_cons_iff.mp h
      obtain ⟨server_name, names, hplaced, -⟩ := placeReplicas_spec hplace
      obtain ⟨hids, hleader⟩ := ih hall
      refine ⟨by rw [List.map_cons, List.map_cons, hids], ?_⟩
      intro loc hloc
      rcases List.mem_cons.mp hloc with rfl | hloc
      · -- the leader is the first replica
        obtain ⟨r, hr, node, -, -, rfl⟩ := hplaced.serves.mem List.mem_cons_self
        exact Option.isSome_iff_exists.mp (List.find?_isSome.mpr ⟨_, hr, by simp⟩)
      · exact hleader loc hloc

theorem Creation.leader (c : Creation m request) {i : Nat} (hi : i < request.partition_cnt.toInt.toNat) :
    ∃ r, c.table.table_location_.getReplicaLocation (Int32.ofNat i) = some r := by
  obtain ⟨hids, hleader⟩ := placePartitions_leader c.place
  have hin : Int32.ofNat i ∈ c.locs.map PhyPartitionLocation.p_id_ := by
    rw [hids, p_id_partitionsOf c.parts]
    exact List.mem_map_of_mem (List.mem_range.mpr hi)
  obtain ⟨loc, hloc, hid⟩ := List.mem_map.mp hin
  obtain ⟨loc', hfind⟩ := Option.isSome_iff_exists.mp
    (List.find?_isSome (p := fun loc : PhyPartitionLocation => decide (loc.p_id_ = Int32.ofNat i)) |>.mpr
      ⟨loc, hloc, decide_eq_true hid⟩)
  obtain ⟨r, hr⟩ := hleader loc' (List.mem_of_find?_eq_some hfind)
  exact ⟨r, Option.bind_eq_some_iff.mpr ⟨loc', hfind, hr⟩⟩

/-- Different partitions have different ids. -/
theorem ofNat_inj {i j : Nat} (hi : i < request.partition_cnt.toInt.toNat) (hj : j < request.partition_cnt.toInt.toNat)
    (h : Int32.ofNat i = Int32.ofNat j) : i = j := by
  have hlt := request.partition_cnt.toInt_lt
  have hvalue := congrArg Int32.toInt h
  rw [Int32.toInt_ofNat_of_lt (by omega), Int32.toInt_ofNat_of_lt (by omega)] at hvalue
  omega

/-! ## What a lookup finds -/

/-- The lookup has found the leaders of these partitions, out of so many. -/
def Located (tms : TabMetaServer) (cnt : Nat) (res : Locations) (taken : Nat → Prop) : Prop :=
  ∀ p_id r, res.lookup p_id = some r ↔ tms.table_location_.getReplicaLocation p_id = some r ∧
    ∃ i < cnt, p_id = Int32.ofNat i ∧ taken i

section Located

variable {c : Creation m request} {res : Locations} {taken wanted : Nat → Prop} {hash : Hash} {k : Bytes}

/-- These are the leaders of the partitions that are wanted, when these are the ones that are taken. -/
theorem Located.iff (h : Located c.table request.partition_cnt.toInt.toNat res taken) :
    Located c.table request.partition_cnt.toInt.toNat res wanted ↔
      ∀ i < request.partition_cnt.toInt.toNat, (wanted i ↔ taken i) := by
  constructor
  · intro h' i hi
    obtain ⟨r, hr⟩ := c.leader hi
    have hboth := (h (Int32.ofNat i) r).symm.trans (h' (Int32.ofNat i) r)
    rw [and_iff_right hr, and_iff_right hr] at hboth
    constructor
    · intro hwanted
      obtain ⟨j, hj, hid, htaken⟩ := hboth.mpr ⟨i, hi, rfl, hwanted⟩
      rwa [ofNat_inj hi hj hid]
    · intro htaken
      obtain ⟨j, hj, hid, hwanted⟩ := hboth.mp ⟨i, hi, rfl, htaken⟩
      rwa [ofNat_inj hi hj hid]
  · intro hsame p_id r
    rw [h p_id r]
    refine and_congr_right fun _ => exists_congr fun i => and_congr_right fun hi => and_congr_right fun _ => (hsame i hi).symm

/-- The partition with this number and this range. -/
def parMeta (i : Nat) (r : StringRange) : ParMeta := ⟨112 :: decimalNat i, Int32.ofNat i, r.min_range, r.max_range⟩

theorem Creation.collect_located {f : ParMeta → Except Thrown Bool}
    (h : collect f c.table.table_location_ c.partitions ∅ = .ok res) :
    Located c.table request.partition_cnt.toInt.toNat res
      fun i => ∃ r, request.range[i]? = some r ∧ f (parMeta i r) = .ok true := by
  intro p_id r
  rw [collect_lookup_iff h]
  refine and_congr_right fun _ => ?_
  constructor
  · rintro ⟨par, hpar, rfl, hwanted⟩
    obtain ⟨i, range, hi, hrange, rfl⟩ := (mem_partitionsOf c.parts).mp hpar
    exact ⟨i, hi, rfl, range, hrange, hwanted⟩
  · rintro ⟨i, hi, rfl, range, hrange, hwanted⟩
    exact ⟨parMeta i range, (mem_partitionsOf c.parts).mpr ⟨i, range, hi, hrange, rfl⟩, rfl, hwanted⟩

theorem Creation.exists_range (c : Creation m request) {i : Nat} (hi : i < request.partition_cnt.toInt.toNat) :
    ∃ r, request.range[i]? = some r :=
  ⟨_, List.getElem?_eq_getElem (Nat.lt_of_lt_of_le hi (partitionsOf_exists.mp ⟨_, c.parts⟩))⟩

/-- All partitions. -/
theorem Creation.locate_all (c : Creation m request) : ∃ res, allLocations c.table = .ok res ∧
    Located c.table request.partition_cnt.toInt.toNat res fun _ => True := by
  obtain ⟨res, hres⟩ := @collect_exists c.table.table_location_ c.partitions (fun _ => .ok true) ∅ fun par hpar => by
    obtain ⟨i, range, hi, -, rfl⟩ := (mem_partitionsOf c.parts).mp hpar
    exact ⟨true, rfl, fun _ => c.leader hi⟩
  refine ⟨res, hres, (c.collect_located hres).iff.mpr fun i hi => ?_⟩
  obtain ⟨r, hr⟩ := c.exists_range hi
  exact ⟨fun _ => ⟨r, hr, rfl⟩, fun _ => trivial⟩

/-- One partition. -/
theorem Creation.locate_one (c : Creation m request) {i : Nat} (hi : i < request.partition_cnt.toInt.toNat) :
    ∃ res, oneLocation c.table (Int32.ofNat i) = .ok res ∧
      Located c.table request.partition_cnt.toInt.toNat res fun j => j = i := by
  obtain ⟨r, hr⟩ := c.leader hi
  refine ⟨Finmap.singleton (Int32.ofNat i) r, by rw [oneLocation, hr], ?_⟩
  intro p_id r'
  constructor
  · intro hlookup
    obtain rfl := (Finmap.mem_singleton _ _ _).mp (Finmap.mem_of_lookup_eq_some hlookup)
    rw [Finmap.lookup_singleton_eq] at hlookup
    exact ⟨hr.trans hlookup, i, hi, rfl, rfl⟩
  · rintro ⟨hleader, j, -, rfl, rfl⟩
    rw [Finmap.lookup_singleton_eq, ← hr, hleader]

/-! ## The three ways to look up -/

theorem key_name (c : Creation m request) : ¬ request.partition_key_name ≠ c.table.partition_key_name := not_not.mpr rfl

theorem locationList_int (hkey : request.partition_key_type = ColType.TYPE_INT) :
    locationList hash c.table request.partition_key_name k k = some (allLocations c.table) := by
  have htype : c.table.partition_type = PartitionType.NONE_PARTITION := by
    show partitionTypeOf request.partition_key_type = _
    rw [hkey]
    rfl
  rw [locationList, if_neg (key_name c), htype]
  rfl

theorem locationList_float (hkey : request.partition_key_type = ColType.TYPE_FLOAT) :
    locationList hash c.table request.partition_key_name k k =
      some (collect (overlaps k k) c.table.table_location_ c.partitions ∅) := by
  have htype : c.table.partition_type = PartitionType.RANGE_PARTITION := by
    show partitionTypeOf request.partition_key_type = _
    rw [hkey]
    rfl
  have hcol : c.table.partition_key_type = ColType.TYPE_FLOAT := by
    show colTypeOf request.partition_key_type = _
    rw [hkey]
    rfl
  rw [locationList, if_neg (key_name c), if_pos htype, getReplicaLocationListByRange, if_pos (Or.inr hcol)]
  rfl

theorem locationList_string (hkey : request.partition_key_type = ColType.TYPE_STRING) :
    locationList hash c.table request.partition_key_name k k =
      (HashPartition request.partition_cnt (hash.string k)).map (oneLocation c.table) := by
  have htype : c.table.partition_type = PartitionType.HASH_PARTITION := by
    show partitionTypeOf request.partition_key_type = _
    rw [hkey]
    rfl
  have hcol : c.table.partition_key_type = ColType.TYPE_STRING := by
    show colTypeOf request.partition_key_type = _
    rw [hkey]
    rfl
  rw [locationList, if_neg (key_name c), if_neg (by rw [htype]; decide), if_pos htype, getReplicaLocationListByHash,
    if_neg (by rw [hcol]; decide), if_pos hcol, if_pos rfl]
  rfl

end Located

/-- The number is read as it was written. -/
theorem stoi_decimal (i : Int32) : stoi (decimal i.toInt) = .ok i := by
  obtain ⟨s, hs, -⟩ := reads_getInt i.toInt ⟨decimal i.toInt, []⟩ [] [] (by intro c hc; cases hc)
    ⟨⟨[], by simp, by simp [textOf]⟩, rfl⟩
  rw [stoi, hs]
  dsimp only
  rw [if_pos ⟨i.minValue_le_toInt, i.toInt_le⟩, Int32.ofInt_toInt]

/-! ## Which keys are found where they belong -/

/-- The lookup of this key finds the leaders of the partitions in which the request puts it; by hash, there is such a
    partition. -/
def FoundWhere (value : Bytes → Option Rat) (hash : Hash) (request : CreatePartitonTableRequest) (tms : TabMetaServer)
    (key : Key) (found : Option (Except Thrown Locations)) : Prop :=
  ∃ res, found = some (.ok res) ∧
    Located tms request.partition_cnt.toInt.toNat res (Belongs value hash request key) ∧
    (request.partition_type ≠ PartitionType.RANGE_PARTITION →
      ∃ i < request.partition_cnt.toInt.toNat, Belongs value hash request key i)

section Keys

variable {c : Creation m request} {value : Bytes → Option Rat} {hash : Hash}

theorem belongs_range (h : request.partition_type = PartitionType.RANGE_PARTITION) {key : Key} {i : Nat} :
    Belongs value hash request key i ↔ ∃ range, request.range[i]? = some range ∧ Contains value range key := by
  rw [Belongs, if_pos h]

theorem belongs_hash (h : request.partition_type ≠ PartitionType.RANGE_PARTITION) {key : Key} {i : Nat} :
    Belongs value hash request key i ↔ i = (Hash.ofKey hash key).toNat % request.partition_cnt.toInt.toNat := by
  rw [Belongs, if_neg h]

/-- By hash, each key belongs in a partition, if there is one. -/
theorem exists_belongs_iff (h : request.partition_type ≠ PartitionType.RANGE_PARTITION) {key : Key} :
    (∃ i < request.partition_cnt.toInt.toNat, Belongs value hash request key i) ↔ 0 < request.partition_cnt.toInt := by
  simp only [belongs_hash h]
  constructor
  · rintro ⟨i, hi, -⟩
    omega
  · intro hpos
    exact ⟨_, Nat.mod_lt _ (by omega), rfl⟩

/-- An integer key is found where it belongs when it belongs in every partition. -/
theorem Creation.found_int_iff {key : Key} : FoundWhere value hash request c.table key (some (allLocations c.table)) ↔
    (∀ i < request.partition_cnt.toInt.toNat, Belongs value hash request key i) ∧
      (request.partition_type ≠ PartitionType.RANGE_PARTITION → 0 < request.partition_cnt.toInt) := by
  obtain ⟨res, hres, hall⟩ := c.locate_all
  have hwhere : FoundWhere value hash request c.table key (some (allLocations c.table)) ↔
      Located c.table request.partition_cnt.toInt.toNat res (Belongs value hash request key) ∧
        (request.partition_type ≠ PartitionType.RANGE_PARTITION →
          ∃ i < request.partition_cnt.toInt.toNat, Belongs value hash request key i) := by
    constructor
    · rintro ⟨res', hres', hrest⟩
      obtain rfl := Except.ok.inj (hres.symm.trans (Option.some.inj hres'))
      exact hrest
    · exact fun hrest => ⟨res, congrArg some hres, hrest⟩
  rw [hwhere, hall.iff]
  refine and_congr ?_ (forall_congr' fun hhash => exists_belongs_iff hhash)
  exact forall₂_congr fun i _ => iff_true_right trivial

/-- The bounds of a range, as `stoi` reads them. -/
def ReadAs (r : StringRange) (a b : Int32) : Prop := stoi r.min_range = .ok a ∧ stoi r.max_range = .ok b

theorem overlaps_parMeta {i : Nat} {r : StringRange} {a b k : Int32} (h : ReadAs r a b) :
    overlaps (decimal k.toInt) (decimal k.toInt) (parMeta i r) = .ok true ↔ a ≤ k ∧ k ≤ b := by
  rw [overlaps_iff (stoi_decimal k) (stoi_decimal k)]
  constructor
  · rintro ⟨a', b', ha, hak, hb, hkb⟩
    obtain rfl := Except.ok.inj (h.1.symm.trans ha)
    obtain rfl := Except.ok.inj (h.2.symm.trans hb)
    exact ⟨hak, hkb⟩
  · exact fun hboth => ⟨a, b, h.1, hboth.1, h.2, hboth.2⟩

theorem wanted_iff {i : Nat} {r : StringRange} {a b k : Int32} (hr : request.range[i]? = some r) (h : ReadAs r a b) :
    (∃ r, request.range[i]? = some r ∧ overlaps (decimal k.toInt) (decimal k.toInt) (parMeta i r) = .ok true) ↔
      a ≤ k ∧ k ≤ b := by
  rw [← @overlaps_parMeta i r a b k h]
  constructor
  · rintro ⟨r', hr', hwanted⟩
    obtain rfl := Option.some.inj (hr.symm.trans hr')
    exact hwanted
  · exact fun hwanted => ⟨r, hr, hwanted⟩

/-- A floating point key is found where it belongs when the bounds say so, as they are read. -/
theorem Creation.found_float_iff : (∀ k : Int32, FoundWhere value hash request c.table (.number k)
      (some (collect (overlaps (decimal k.toInt) (decimal k.toInt)) c.table.table_location_ c.partitions ∅))) ↔
    (∀ i < request.partition_cnt.toInt.toNat, ∀ r, request.range[i]? = some r → ∃ a b, ReadAs r a b ∧
      ∀ k : Int32, Belongs value hash request (.number k) i ↔ a ≤ k ∧ k ≤ b) ∧
      (request.partition_type ≠ PartitionType.RANGE_PARTITION → 0 < request.partition_cnt.toInt) := by
  constructor
  · intro h
    refine ⟨fun i hi r hr => ?_, fun hhash => ?_⟩
    · -- no lower bound is above the largest number, so both bounds are read for it
      obtain ⟨res, hres, -⟩ := h Int32.maxValue
      obtain ⟨x, hx, -⟩ := collect_decided (Option.some.inj hres) ((mem_partitionsOf c.parts).mpr ⟨i, r, hi, hr, rfl⟩)
      obtain ⟨a, ha, hread⟩ := overlaps_reads (stoi_decimal _) (stoi_decimal _) hx
      obtain ⟨b, hb⟩ := hread (Int32.le_iff_toInt_le.mpr a.toInt_le)
      refine ⟨a, b, ⟨ha, hb⟩, fun k => ?_⟩
      obtain ⟨res, hres, hlocated, -⟩ := h k
      rw [(c.collect_located (Option.some.inj hres)).iff.mp hlocated i hi]
      exact wanted_iff hr ⟨ha, hb⟩
    · obtain ⟨res, -, -, hsome⟩ := h 0
      exact (exists_belongs_iff hhash).mp (hsome hhash)
  · rintro ⟨hranges, hpos⟩ k
    obtain ⟨res, hres⟩ := @collect_exists c.table.table_location_ c.partitions
        (overlaps (decimal k.toInt) (decimal k.toInt)) ∅ fun par hpar => by
      obtain ⟨i, r, hi, hr, rfl⟩ := (mem_partitionsOf c.parts).mp hpar
      obtain ⟨a, b, hread, -⟩ := hranges i hi r hr
      obtain ⟨x, hx⟩ := @overlaps_decided (parMeta i r) _ _ _ _ (stoi_decimal k) (stoi_decimal k) ⟨a, hread.1⟩
        ⟨b, hread.2⟩
      exact ⟨x, hx, fun _ => c.leader hi⟩
    refine ⟨res, congrArg some hres, (c.collect_located hres).iff.mpr fun i hi => ?_,
      fun hhash => (exists_belongs_iff hhash).mpr (hpos hhash)⟩
    obtain ⟨r, hr⟩ := c.exists_range hi
    obtain ⟨a, b, hread, hbelongs⟩ := hranges i hi r hr
    exact (hbelongs k).trans (wanted_iff hr hread).symm

/-- A string behind all upper bounds. -/
theorem exists_behind (range : List StringRange) : ∃ str : Bytes, ∀ r ∈ range, r.max_range < str := by
  have hlt : ∀ str : Bytes, str < str ++ [0] := by
    intro str
    induction str with
    | nil => exact List.nil_lt_cons 0 []
    | cons c str ih => exact List.cons_lt_cons_iff.mpr (Or.inr ⟨rfl, ih⟩)
  induction range with
  | nil => exact ⟨[], by simp⟩
  | cons r range ih =>
      obtain ⟨str, hstr⟩ := ih
      refine ⟨max r.max_range str ++ [0], ?_⟩
      intro r' hr'
      rcases List.mem_cons.mp hr' with rfl | hr'
      · exact lt_of_le_of_lt (le_max_left _ _) (hlt _)
      · exact lt_of_le_of_lt ((hstr r' hr').le.trans (le_max_right _ _)) (hlt _)

/-- Without partitions there are no locations. -/
theorem Creation.locs_nil (c : Creation m request) (h : request.partition_cnt.toInt ≤ 0) : c.locs = [] := by
  have hids := congrArg List.length (placePartitions_leader c.place).1
  rw [List.length_map, List.length_map, c.length_partitions] at hids
  exact List.length_eq_zero_iff.mp (by omega)

/-- A lookup by hash finds the partition of the hash, if there are partitions. -/
theorem Creation.found_hash (c : Creation m request) (h : UInt64) (hpos : 0 < request.partition_cnt.toInt) :
    ∃ res, (HashPartition request.partition_cnt h).map (oneLocation c.table) = some (.ok res) ∧
      Located c.table request.partition_cnt.toInt.toNat res fun i => i = h.toNat % request.partition_cnt.toInt.toNat := by
  have hne : request.partition_cnt ≠ 0 := by
    intro hzero
    rw [hzero] at hpos
    exact absurd hpos (by decide)
  have hsize : size_t request.partition_cnt = request.partition_cnt.toInt.toNat := by
    have hvalue := size_t_eq hpos.le
    omega
  obtain ⟨res, hres, hlocated⟩ := c.locate_one (Nat.mod_lt h.toNat (show request.partition_cnt.toInt.toNat > 0 by omega))
  refine ⟨res, ?_, hlocated⟩
  rw [HashPartition, if_neg hne, hsize, Option.map_some, hres]

theorem Creation.not_found_hash (c : Creation m request) (h : UInt64) (hnone : request.partition_cnt.toInt ≤ 0)
    (res : Locations) : (HashPartition request.partition_cnt h).map (oneLocation c.table) ≠ some (.ok res) := by
  intro hfound
  obtain ⟨p_id, -, hone⟩ := Option.map_eq_some_iff.mp hfound
  obtain ⟨r, hr, -⟩ := oneLocation_eq hone
  obtain ⟨loc, hloc, -⟩ := Option.bind_eq_some_iff.mp hr
  have hin : loc ∈ c.locs := List.mem_of_find?_eq_some hloc
  rw [c.locs_nil hnone] at hin
  cases hin

/-- A string key is found where it belongs when the request says so by hash, and there are partitions. -/
theorem Creation.found_string_iff : (∀ str, FoundWhere value hash request c.table (.text str)
      ((HashPartition request.partition_cnt (hash.string str)).map (oneLocation c.table))) ↔
    request.partition_type ≠ PartitionType.RANGE_PARTITION ∧ 0 < request.partition_cnt.toInt := by
  constructor
  · intro h
    have hpos : 0 < request.partition_cnt.toInt := by
      by_contra hnone
      obtain ⟨res, hres, -⟩ := h []
      exact c.not_found_hash _ (not_lt.mp hnone) res hres
    refine ⟨fun hrange => ?_, hpos⟩
    -- a string behind all ranges has a hash too
    obtain ⟨str, hbehind⟩ := exists_behind request.range
    obtain ⟨res, hres, hwanted, -⟩ := h str
    obtain ⟨res', hres', hlocated⟩ := c.found_hash (hash.string str) hpos
    obtain rfl := Except.ok.inj (Option.some.inj (hres.symm.trans hres'))
    have hbelongs := (hlocated.iff.mp hwanted _ (Nat.mod_lt _ (by omega))).mpr rfl
    obtain ⟨r, hr, -, hmax⟩ := (belongs_range hrange).mp hbelongs
    exact absurd hmax (not_le.mpr (hbehind r (List.mem_of_getElem? hr)))
  · rintro ⟨hhash, hpos⟩ str
    obtain ⟨res, hres, hlocated⟩ := c.found_hash (hash.string str) hpos
    refine ⟨res, hres, hlocated.iff.mpr fun i _ => ?_, fun _ => (exists_belongs_iff hhash).mpr hpos⟩
    rw [belongs_hash hhash]
    rfl

end Keys

/-! ## Tables are routed by the partitioning of their request -/

/-- The request creates a table, and every key of the key type is found where the request puts it. -/
def Routed (value : Bytes → Option Rat) (hash : Hash) (order : Order Bytes TabMetaServer) (m : MetaServer)
    (request : CreatePartitonTableRequest) : Prop :=
  ∃ m' oid tms, m.CreatePartitionTable order request = some (m', some oid) ∧
    m'.table? request.db_name request.tab_name = some tms ∧
    ∀ (key : Key) (orders : Catalog.Orders), key.HasType request.partition_key_type →
      ∃ found, (Catalog.embed m').getReplicaLocationList orders hash request.db_name request.tab_name
          request.partition_key_name key.toBytes key.toBytes = some (Catalog.embed m', found) ∧
        FoundWhere value hash request tms key (some found)

/-- When the type of the key happens to do what the request says: an integer key is in every partition; for a floating point
    key, the bounds as they are read hold the keys that belong there; a string key is to be looked up by hash. By hash, there
    is a partition. -/
def RoutingOk (value : Bytes → Option Rat) (hash : Hash) (request : CreatePartitonTableRequest) : Prop :=
  (request.partition_type ≠ PartitionType.RANGE_PARTITION → 0 < request.partition_cnt.toInt) ∧
  if request.partition_key_type = ColType.TYPE_INT then
    ∀ i < request.partition_cnt.toInt.toNat, ∀ k : Int32, Belongs value hash request (.number k) i
  else if request.partition_key_type = ColType.TYPE_FLOAT then
    ∀ i < request.partition_cnt.toInt.toNat, ∀ r, request.range[i]? = some r → ∃ a b, ReadAs r a b ∧
      ∀ k : Int32, Belongs value hash request (.number k) i ↔ a ≤ k ∧ k ≤ b
  else request.partition_type ≠ PartitionType.RANGE_PARTITION

theorem forall_number {p : Key → Prop} {key_type : ColType} (h : key_type ≠ ColType.TYPE_STRING) :
    (∀ key : Key, key.HasType key_type → p key) ↔ ∀ k : Int32, p (.number k) := by
  constructor
  · exact fun hall k => hall (.number k) h
  · intro hall key htype
    cases key with
    | number k => exact hall k
    | text str => exact absurd htype h

theorem forall_text {p : Key → Prop} {key_type : ColType} (h : key_type = ColType.TYPE_STRING) :
    (∀ key : Key, key.HasType key_type → p key) ↔ ∀ str : Bytes, p (.text str) := by
  constructor
  · exact fun hall str => hall (.text str) h
  · intro hall key htype
    cases key with
    | number k => exact absurd h htype
    | text str => exact hall str

/-- The keys of a table that has been created. -/
theorem Creation.routing_iff (c : Creation m request) (value : Bytes → Option Rat) (hash : Hash)
    (hkey : request.partition_key_type = ColType.TYPE_INT ∨ request.partition_key_type = ColType.TYPE_FLOAT ∨
      request.partition_key_type = ColType.TYPE_STRING) :
    (∀ key : Key, key.HasType request.partition_key_type → FoundWhere value hash request c.table key
      (locationList hash c.table request.partition_key_name key.toBytes key.toBytes)) ↔
      RoutingOk value hash request := by
  rw [RoutingOk]
  rcases hkey with hint | hfloat | hstring
  · rw [if_pos hint, forall_number (by rw [hint]; decide)]
    simp only [locationList_int hint, c.found_int_iff]
    constructor
    · exact fun h => ⟨(h 0).2, fun i hi k => (h k).1 i hi⟩
    · exact fun h k => ⟨fun i hi => h.2 i hi k, h.1⟩
  · rw [if_neg (by rw [hfloat]; decide), if_pos hfloat, forall_number (by rw [hfloat]; decide)]
    simp only [locationList_float hfloat]
    exact c.found_float_iff.trans and_comm
  · rw [if_neg (by rw [hstring]; decide), if_neg (by rw [hstring]; decide), forall_text hstring]
    simp only [locationList_string hstring]
    refine c.found_string_iff.trans ?_
    constructor
    · exact fun h => ⟨fun _ => h.2, h.1⟩
    · exact fun h => ⟨h.2, h.1 h.2⟩

/-- A lookup in the catalog is one in the table. -/
theorem getReplicaLocationList_embed {hash : Hash} {orders : Catalog.Orders} {db_name tab_name k lo hi : Bytes}
    {tms : TabMetaServer} (h : m.table? db_name tab_name = some tms) :
    (Catalog.embed m).getReplicaLocationList orders hash db_name tab_name k lo hi =
      (locationList hash tms k lo hi).map fun found => (Catalog.embed m, found) := by
  obtain ⟨db, hdb, htms⟩ := Option.bind_eq_some_iff.mp h
  rw [Catalog.getReplicaLocationList, Catalog.lookup, Catalog.findTable_embed orders hdb htms]
  rfl

/-- With one partition by hash, an integer key is found where it belongs, and only then. -/
theorem routingOk_hash_int (value : Bytes → Option Rat) (hash : Hash)
    (hhash : request.partition_type ≠ PartitionType.RANGE_PARTITION) (hint : request.partition_key_type = ColType.TYPE_INT) :
    RoutingOk value hash request ↔ request.partition_cnt.toInt = 1 := by
  rw [RoutingOk, if_pos hint]
  simp only [belongs_hash hhash]
  constructor
  · rintro ⟨hpos, hall⟩
    by_contra hne
    have hzero := hall 0 (by have := hpos hhash; omega) 0
    have hone := hall 1 (by have := hpos hhash; omega) 0
    omega
  · intro hone
    refine ⟨fun _ => by omega, fun i hi k => ?_⟩
    rw [hone] at hi ⊢
    rw [show (1 : Int).toNat = 1 from rfl, Nat.mod_one]
    rw [show (1 : Int).toNat = 1 from rfl] at hi
    omega

/-- A table with the partition `[0, 9]`, on one node. -/
def oneRange (key_type : ColType) : CreatePartitonTableRequest :=
  { db_name := [100], tab_name := [116], partition_type := PartitionType.RANGE_PARTITION, partition_key_name := [107],
    partition_key_type := key_type, partition_cnt := 1, range := [⟨[48], [57]⟩], has_replica := false, replica_cnt := 1,
    col_name := [[107]], col_type := [key_type] }

/-- Bounds that are integers. -/
def integer (text : Bytes) : Option Rat := (getInt ⟨text, []⟩).map fun res => (res.1 : Rat)

theorem contains_oneRange (k : Int32) : Contains integer ⟨[48], [57]⟩ (.number k) ↔ 0 ≤ k ∧ k ≤ 9 := by
  have hmin : integer [48] = some 0 := by
    rw [integer, show getInt ⟨[48], []⟩ = some (0, ⟨[], [[48]]⟩) from rfl]
    rfl
  have hmax : integer [57] = some 9 := by
    rw [integer, show getInt ⟨[57], []⟩ = some (9, ⟨[], [[57]]⟩) from rfl]
    rfl
  rw [Int32.le_iff_toInt_le, Int32.le_iff_toInt_le, show (0 : Int32).toInt = 0 from rfl, show (9 : Int32).toInt = 9 from rfl]
  constructor
  · rintro ⟨a, b, ha, hb, hak, hkb⟩
    obtain rfl := Option.some.inj (hmin.symm.trans ha)
    obtain rfl := Option.some.inj (hmax.symm.trans hb)
    exact ⟨by exact_mod_cast hak, by exact_mod_cast hkb⟩
  · rintro ⟨hak, hkb⟩
    exact ⟨0, 9, hmin, hmax, by exact_mod_cast hak, by exact_mod_cast hkb⟩

/-- A database without tables, and one node. -/
def oneNode : MetaServer :=
  ⟨⟨[([100], ⟨0, [100], .empty⟩)], by decide, by decide⟩, ⟨[([65], ⟨[1], 10, true, 0, 0⟩)], by decide, by decide⟩⟩

end MetaServer
end DDBMS
