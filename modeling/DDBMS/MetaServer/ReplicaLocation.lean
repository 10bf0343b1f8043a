import DDBMS.MetaServer.MetaService
import Mathlib.Data.Finmap

/-!
# `MetaServer.ReplicaLocation` — where the partitions of a table are

`getReplicaLocationList` of `MetaServer` (`meta_server/meta_server.cpp`) from the point on where it has the table, and the
functions of the table that it calls. A lookup with a range of keys gives the leader of every partition that has keys of the
range, as far as it can tell: a `Finmap` from partition ids to locations.

The loops over the partitions differ in the partitions that they want. What such a loop collects is said once, in
`collect_lookup`.
-/

namespace DDBMS

/-- The errors of a lookup. -/
inductive MetaServerError where
  | NO_DATABASE
  | NO_TABLE
  | PARTITION_KEY_NOT_TRUE
  | NO_PARTITION_OR_REPLICA
  deriving Repr, DecidableEq

/-- What a lookup throws: a `MetaServerErrorException`, or what `std::stoi` throws. -/
inductive Thrown where
  | MetaServerErrorException (err : MetaServerError)
  | invalid_argument
  | out_of_range
  deriving Repr, DecidableEq

/-- `std::stoi` -/
def stoi (str : Bytes) : Except Thrown Int32 :=
  match getInt ⟨str, []⟩ with
  | none => .error .invalid_argument
  | some (i, _) =>
    if Int32.minValue.toInt ≤ i ∧ i ≤ Int32.maxValue.toInt then .ok (Int32.ofInt i) else .error .out_of_range

/-- `std::hash` of the standard library. -/
structure Hash where
  int64 : Int64 → UInt64
  string : Bytes → UInt64

def PhyPartitionLocation.get_replica_location (loc : PhyPartitionLocation) (role : Replica_Role) : Option ReplicaLocation :=
  loc.repliaca_location_.find? fun replica_loc => replica_loc.role_ = role

/-- The leader of the first partition with this id. -/
def PhyTableLocation.getReplicaLocation (location : PhyTableLocation) (p_id : MetaServer.partition_id_t) :
    Option ReplicaLocation := do
  let loc ← location.partiton_list_.find? fun loc => loc.p_id_ = p_id
  loc.get_replica_location Replica_Role.Leader

namespace MetaServer

/-- `HashPartition`, for the hash of the value; `none` is a division by zero. -/
def HashPartition (partition_cnt_ : partition_id_t) (hash : UInt64) : Option partition_id_t :=
  if partition_cnt_ = 0 then none else some (Int32.ofNat (hash.toNat % size_t partition_cnt_))

/-- `std::unordered_map<partition_id_t, ReplicaLocation>` -/
abbrev Locations := Finmap fun _ : partition_id_t => ReplicaLocation

/-- A loop over partitions, that takes the leader of those that are wanted. -/
def collect (wanted : ParMeta → Except Thrown Bool) (location : PhyTableLocation) :
    List ParMeta → Locations → Except Thrown Locations
  | [], res => .ok res
  | par :: partitions, res => do
    if ← wanted par then
      match location.getReplicaLocation par.p_id with
      | none => .error (.MetaServerErrorException .NO_PARTITION_OR_REPLICA)
      | some rep_ptr => collect wanted location partitions (res.insert par.p_id rep_ptr)
    else collect wanted location partitions res

/-- The leaders of all partitions. -/
def allLocations (tms : TabMetaServer) : Except Thrown Locations :=
  collect (fun _ => .ok true) tms.table_location_ tms.partitions ∅

/-- The leader of one partition. -/
def oneLocation (tms : TabMetaServer) (p_id : partition_id_t) : Except Thrown Locations :=
  match tms.table_location_.getReplicaLocation p_id with
  | none => .error (.MetaServerErrorException .NO_PARTITION_OR_REPLICA)
  | some rep_ptr => .ok (Finmap.singleton p_id rep_ptr)

/-- The condition on a partition whose bounds are numbers. The operands of a comparison are evaluated from left to right. -/
def overlaps (min_range max_range : Bytes) (par : ParMeta) : Except Thrown Bool := do
  let par_min ← stoi par.min_range
  let max ← stoi max_range
  if par_min ≤ max then
    let par_max ← stoi par.max_range
    let min ← stoi min_range
    return min ≤ par_max
  else return false

def getReplicaLocationListByRange (tms : TabMetaServer) (min_range max_range : Bytes) : Except Thrown Locations :=
  if tms.partition_key_type = ColType.TYPE_INT ∨ tms.partition_key_type = ColType.TYPE_FLOAT then
    collect (overlaps min_range max_range) tms.table_location_ tms.partitions ∅
  else if tms.partition_key_type = ColType.TYPE_STRING then
    collect (fun par => .ok (decide (par.min_range ≤ max_range ∧ min_range ≤ par.max_range))) tms.table_location_
      tms.partitions ∅
  else .ok ∅

/-- One partition for one key, and all partitions for a range. -/
def getReplicaLocationListByHash (hash : Hash) (tms : TabMetaServer) (min_range max_range : Bytes) :
    Option (Except Thrown Locations) :=
  if tms.partition_key_type = ColType.TYPE_INT ∨ tms.partition_key_type = ColType.TYPE_FLOAT then
    match stoi min_range, stoi max_range with
    | .error e, _ => some (.error e)
    | .ok _, .error e => some (.error e)
    | .ok int_min_range, .ok int_max_range =>
      if int_max_range = int_min_range then
        (HashPartition tms.partition_cnt_ (hash.int64 int_min_range.toInt64)).map (oneLocation tms)
      else some (allLocations tms)
  else if tms.partition_key_type = ColType.TYPE_STRING then
    if max_range = min_range then (HashPartition tms.partition_cnt_ (hash.string min_range)).map (oneLocation tms)
    else some (allLocations tms)
  else some (.ok ∅)

/-- `getReplicaLocationList` for a table that has been found. -/
def locationList (hash : Hash) (tms : TabMetaServer) (partitionKeyName min_range max_range : Bytes) :
    Option (Except Thrown Locations) :=
  if partitionKeyName ≠ tms.partition_key_name then some (.error (.MetaServerErrorException .PARTITION_KEY_NOT_TRUE))
  else if tms.partition_type = PartitionType.RANGE_PARTITION then
    some (getReplicaLocationListByRange tms min_range max_range)
  else if tms.partition_type = PartitionType.HASH_PARTITION then
    getReplicaLocationListByHash hash tms min_range max_range
  else some (allLocations tms)

/-! ## What a loop collects -/

section Collect

variable {location : PhyTableLocation} {partitions : List ParMeta} {wanted : ParMeta → Except Thrown Bool}
variable {res res' : Locations} {par : ParMeta} {r : ReplicaLocation}

theorem collect_skip (h : wanted par = .ok false) :
    collect wanted location (par :: partitions) res = collect wanted location partitions res := by
  rw [collect, h]
  rfl

theorem collect_take (h : wanted par = .ok true) (hr : location.getReplicaLocation par.p_id = some r) :
    collect wanted location (par :: partitions) res = collect wanted location partitions (res.insert par.p_id r) := by
  rw [collect, h, hr]
  rfl

/-- A partition does not end the loop: it is not wanted, or its leader is taken. -/
theorem collect_cons (h : collect wanted location (par :: partitions) res = .ok res') :
    (wanted par = .ok false ∧ collect wanted location partitions res = .ok res') ∨
      ∃ r, wanted par = .ok true ∧ location.getReplicaLocation par.p_id = some r ∧
        collect wanted location partitions (res.insert par.p_id r) = .ok res' := by
  cases hwanted : wanted par with
  | error e =>
      rw [collect, hwanted] at h
      cases h
  | ok b =>
      cases b with
      | false =>
          rw [collect_skip hwanted] at h
          exact Or.inl ⟨rfl, h⟩
      | true =>
          cases hr : location.getReplicaLocation par.p_id with
          | none =>
              rw [collect, hwanted, hr] at h
              cases h
          | some r =>
              rw [collect_take hwanted hr] at h
              exact Or.inr ⟨r, rfl, rfl, h⟩

/-- These are leaders of the table. -/
def Leaders (location : PhyTableLocation) (res : Locations) : Prop :=
  ∀ p_id r, res.lookup p_id = some r → location.getReplicaLocation p_id = some r

theorem Leaders.insert (h : Leaders location res) (hr : location.getReplicaLocation par.p_id = some r) :
    Leaders location (res.insert par.p_id r) := by
  intro p_id r' hlookup
  by_cases hid : p_id = par.p_id
  · subst hid
    rw [Finmap.lookup_insert] at hlookup
    rw [hr, hlookup]
  · rw [Finmap.lookup_insert_of_ne _ hid] at hlookup
    exact h p_id r' hlookup

theorem leaders_empty : Leaders location ∅ := by
  intro p_id r hlookup
  rw [Finmap.lookup_empty] at hlookup
  cases hlookup

/-- **The loop ends** when each partition is wanted or not, and those that are wanted have a leader. -/
theorem collect_exists (h : ∀ par ∈ partitions, ∃ b, wanted par = .ok b ∧
    (b = true → ∃ r, location.getReplicaLocation par.p_id = some r)) :
    ∃ res', collect wanted location partitions res = .ok res' := by
  induction partitions generalizing res with
  | nil => exact ⟨res, rfl⟩
  | cons par partitions ih =>
      have hrest := fun p hp => h p (List.mem_cons_of_mem _ hp)
      obtain ⟨b, hwanted, hleader⟩ := h par List.mem_cons_self
      cases b with
      | false =>
          rw [collect_skip hwanted]
          exact ih hrest
      | true =>
          obtain ⟨r, hr⟩ := hleader rfl
          rw [collect_take hwanted hr]
          exact ih hrest

/-- Each partition was wanted or not. -/
theorem collect_decided (h : collect wanted location partitions res = .ok res') (hpar : par ∈ partitions) :
    ∃ b, wanted par = .ok b ∧ (b = true → ∃ r, location.getReplicaLocation par.p_id = some r) := by
  induction partitions generalizing res with
  | nil => cases hpar
  | cons p partitions ih =>
      rcases collect_cons h with ⟨hwanted, h⟩ | ⟨r, hwanted, hr, h⟩
      · rcases List.mem_cons.mp hpar with rfl | hpar
        · exact ⟨false, hwanted, fun hb => by cases hb⟩
        · exact ih h hpar
      · rcases List.mem_cons.mp hpar with rfl | hpar
        · exact ⟨true, hwanted, fun _ => ⟨r, hr⟩⟩
        · exact ih h hpar

/-- **What the loop collects**, besides what it has: the leaders of the partitions that are wanted. -/
theorem collect_lookup (hres : Leaders location res) (h : collect wanted location partitions res = .ok res')
    {p_id : partition_id_t} : res'.lookup p_id = some r ↔ location.getReplicaLocation p_id = some r ∧
      (res.lookup p_id = some r ∨ ∃ par ∈ partitions, par.p_id = p_id ∧ wanted par = .ok true) := by
  induction partitions generalizing res with
  | nil =>
      obtain rfl := Except.ok.inj h
      simp only [List.not_mem_nil, false_and, exists_false, or_false]
      exact ⟨fun hlookup => ⟨hres p_id r hlookup, hlookup⟩, fun hboth => hboth.2⟩
  | cons par partitions ih =>
      rcases collect_cons h with ⟨hwanted, h⟩ | ⟨r', hwanted, hr, h⟩
      · rw [ih hres h]
        simp [hwanted]
      · rw [ih (hres.insert hr) h]
        by_cases hid : p_id = par.p_id
        · subst hid
          rw [Finmap.lookup_insert, hr, and_iff_left_of_imp Or.inl]
          simp [hwanted]
        · rw [Finmap.lookup_insert_of_ne _ hid]
          simp [Ne.symm hid]

/-- What the loop collects from the start. -/
theorem collect_lookup_iff (h : collect wanted location partitions ∅ = .ok res') {p_id : partition_id_t} :
    res'.lookup p_id = some r ↔ location.getReplicaLocation p_id = some r ∧
      ∃ par ∈ partitions, par.p_id = p_id ∧ wanted par = .ok true := by
  rw [collect_lookup leaders_empty h, Finmap.lookup_empty]
  simp

end Collect

/-! ## The conditions -/

section Conditions

variable {tms : TabMetaServer} {par : ParMeta} {min_range max_range : Bytes} {lo hi : Int32} {locs : Locations}
variable {p_id : partition_id_t} {r : ReplicaLocation}

/-- A partition whose bounds are numbers overlaps the range between two numbers. -/
theorem overlaps_iff (hlo : stoi min_range = .ok lo) (hhi : stoi max_range = .ok hi) :
    overlaps min_range max_range par = .ok true ↔
      ∃ a b, stoi par.min_range = .ok a ∧ a ≤ hi ∧ stoi par.max_range = .ok b ∧ lo ≤ b := by
  unfold overlaps
  rw [hlo, hhi]
  cases ha : stoi par.min_range with
  | error e => simp [bind, Except.bind]
  | ok a =>
      by_cases hle : a ≤ hi
      · cases hb : stoi par.max_range with
        | error e => simp [bind, Except.bind, hle]
        | ok b => simp [bind, Except.bind, pure, Except.pure, hle]
      · simp [bind, Except.bind, pure, Except.pure, hle]

/-- With bounds that are numbers, a partition overlaps or not. -/
theorem overlaps_decided (hlo : stoi min_range = .ok lo) (hhi : stoi max_range = .ok hi)
    (hmin : ∃ a, stoi par.min_range = .ok a) (hmax : ∃ b, stoi par.max_range = .ok b) :
    ∃ b, overlaps min_range max_range par = .ok b := by
  obtain ⟨a, ha⟩ := hmin
  obtain ⟨b, hb⟩ := hmax
  unfold overlaps
  rw [hlo, hhi, ha, hb]
  by_cases hle : a ≤ hi
  · exact ⟨decide (lo ≤ b), by simp [bind, Except.bind, pure, Except.pure, hle]⟩
  · exact ⟨false, by simp [bind, Except.bind, pure, Except.pure, hle]⟩

/-- The lower bound is read in any case, the upper bound when it matters. -/
theorem overlaps_reads {b : Bool} (hlo : stoi min_range = .ok lo) (hhi : stoi max_range = .ok hi)
    (h : overlaps min_range max_range par = .ok b) :
    ∃ a, stoi par.min_range = .ok a ∧ (a ≤ hi → ∃ b, stoi par.max_range = .ok b) := by
  unfold overlaps at h
  rw [hlo, hhi] at h
  cases ha : stoi par.min_range with
  | error e =>
      rw [ha] at h
      cases h
  | ok a =>
      refine ⟨a, rfl, fun hle => ?_⟩
      cases hb : stoi par.max_range with
      | error e => simp [bind, Except.bind, ha, hb, hle] at h
      | ok b => exact ⟨b, rfl⟩

theorem oneLocation_eq (h : oneLocation tms p_id = .ok locs) :
    ∃ r, tms.table_location_.getReplicaLocation p_id = some r ∧ locs = Finmap.singleton p_id r := by
  unfold oneLocation at h
  split at h
  · cases h
  · rename_i r hr
    exact ⟨r, hr, (Except.ok.inj h).symm⟩

end Conditions

end MetaServer
end DDBMS
