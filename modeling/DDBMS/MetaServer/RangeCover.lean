import DDBMS.MetaServer.ReplicaLocation

/-!
# `MetaServer.RangeCover` — a range of keys has the partitions of its keys

A lookup of one key and a lookup of a range go different ways: hash partitions are found by the hash of the key or taken
all, range partitions are compared with the range. Where both have an answer, that for the range has every location of that
for a key in it (`range_covers`). The lookup of the range reads more bounds, though: it throws when one of them is not a
number, and the lookup of the key need not (`bound_not_read`).
-/

namespace DDBMS
namespace MetaServer

/-- The partitions are numbered from 0 on, and each has a leader. -/
structure Numbered (tms : TabMetaServer) : Prop where
  cnt : (tms.partitions.length : Int) = tms.partition_cnt_.toInt
  p_ids : tms.partitions.map ParMeta.p_id = (List.range tms.partitions.length).map Int32.ofNat
  leader : ∀ par ∈ tms.partitions, ∃ r, tms.table_location_.getReplicaLocation par.p_id = some r

/-- The partition key is a number. -/
def Numeric (tms : TabMetaServer) : Prop :=
  tms.partition_key_type = ColType.TYPE_INT ∨ tms.partition_key_type = ColType.TYPE_FLOAT

/-- The order of the keys of a table: as numbers, which `stoi` reads, or as strings. -/
def KeyLe (tms : TabMetaServer) (x y : Bytes) : Prop :=
  (Numeric tms → ∃ a b, stoi x = .ok a ∧ stoi y = .ok b ∧ a ≤ b) ∧ (¬ Numeric tms → x ≤ y)

/-- The second lookup has all locations that the first one has. -/
def Covers (found found' : Option (Except Thrown Locations)) : Prop :=
  ∀ res, found = some (.ok res) → ∃ res', found' = some (.ok res') ∧
    ∀ p_id r, res.lookup p_id = some r → res'.lookup p_id = some r

/-- A bound of a range partition that is not a number. -/
def UnreadBound (tms : TabMetaServer) : Prop :=
  tms.partition_type = PartitionType.RANGE_PARTITION ∧ Numeric tms ∧ ∃ par ∈ tms.partitions,
    (∀ a, stoi par.min_range ≠ .ok a) ∨ ∀ b, stoi par.max_range ≠ .ok b

variable {tms : TabMetaServer} {hash : Hash} {lo k hi : Bytes} {res : Locations} {p_id : partition_id_t}

/-- The ids of the partitions. -/
theorem Numbered.mem_p_ids (h : Numbered tms) {i : Nat} (hi : (i : Int) < tms.partition_cnt_.toInt) :
    ∃ par ∈ tms.partitions, par.p_id = Int32.ofNat i := by
  rw [← List.mem_map, h.p_ids]
  have hcnt := h.cnt
  exact List.mem_map.mpr ⟨i, List.mem_range.mpr (by omega), rfl⟩

theorem Numbered.allLocations (h : Numbered tms) : ∃ res, MetaServer.allLocations tms = .ok res :=
  collect_exists fun par hpar => ⟨true, rfl, fun _ => h.leader par hpar⟩

/-- All partitions cover one. -/
theorem Numbered.covers_one (h : Numbered tms) (hash : UInt64) :
    Covers ((HashPartition tms.partition_cnt_ hash).map (oneLocation tms)) (some (MetaServer.allLocations tms)) := by
  intro res hres
  obtain ⟨p_id, hp_id, hone⟩ := Option.map_eq_some_iff.mp hres
  obtain ⟨r, hr, rfl⟩ := oneLocation_eq hone
  obtain ⟨res', hall⟩ := h.allLocations
  refine ⟨res', congrArg some hall, ?_⟩
  intro p_id' r' hlookup
  obtain rfl : p_id' = p_id := (Finmap.mem_singleton _ _ _).mp (Finmap.mem_of_lookup_eq_some hlookup)
  rw [Finmap.lookup_singleton_eq] at hlookup
  obtain rfl := Option.some.inj hlookup
  -- the id is the remainder of a division by the number of partitions
  unfold HashPartition at hp_id
  split at hp_id
  · cases hp_id
  · rename_i hne
    obtain rfl := Option.some.inj hp_id
    have hcnt := h.cnt
    have hpos : 0 < tms.partition_cnt_.toInt := by
      have hzero : tms.partition_cnt_.toInt ≠ 0 := fun h0 => hne (Int32.toInt_inj.mp h0)
      omega
    have hsize := size_t_eq (show 0 ≤ tms.partition_cnt_.toInt by omega)
    have hlt : hash.toNat % size_t tms.partition_cnt_ < size_t tms.partition_cnt_ := Nat.mod_lt _ (by omega)
    obtain ⟨par, hpar, heq⟩ := h.mem_p_ids (i := hash.toNat % size_t tms.partition_cnt_) (by omega)
    exact (collect_lookup_iff hall).mpr ⟨hr, par, hpar, heq, rfl⟩

/-- Two loops, the second of which wants whatever the first one wants. -/
theorem covers_collect {wanted wanted' : ParMeta → Except Thrown Bool} {res res' : Locations}
    (h : collect wanted tms.table_location_ tms.partitions ∅ = .ok res)
    (h' : collect wanted' tms.table_location_ tms.partitions ∅ = .ok res')
    (himp : ∀ par, wanted par = .ok true → ∀ b, wanted' par = .ok b → b = true) :
    ∀ p_id r, res.lookup p_id = some r → res'.lookup p_id = some r := by
  intro p_id r hlookup
  obtain ⟨hr, par, hpar, hid, hwanted⟩ := (collect_lookup_iff h).mp hlookup
  obtain ⟨b, hb, -⟩ := collect_decided h' hpar
  obtain rfl := himp par hwanted b hb
  exact (collect_lookup_iff h').mpr ⟨hr, par, hpar, hid, hb⟩

theorem covers_refl (found : Option (Except Thrown Locations)) : Covers found found :=
  fun res hres => ⟨res, hres, fun _ _ hlookup => hlookup⟩

/-- The second loop covers the first one, or some partition is not decided. -/
theorem Numbered.covers_collect_or (h : Numbered tms) {wanted wanted' : ParMeta → Except Thrown Bool}
    (himp : ∀ par, wanted par = .ok true → ∀ b, wanted' par = .ok b → b = true) :
    Covers (some (collect wanted tms.table_location_ tms.partitions ∅))
      (some (collect wanted' tms.table_location_ tms.partitions ∅)) ∨
    ((∃ par ∈ tms.partitions, ∀ b, wanted' par ≠ .ok b) ∧
      ∃ e, collect wanted' tms.table_location_ tms.partitions ∅ = .error e) := by
  cases h' : collect wanted' tms.table_location_ tms.partitions ∅ with
  | ok res' =>
      left
      intro res hres
      exact ⟨res', rfl, covers_collect (Option.some.inj hres) h' himp⟩
  | error e =>
      refine Or.inr ⟨?_, e, rfl⟩
      by_contra hdecided
      push Not at hdecided
      obtain ⟨res', hok⟩ := @collect_exists tms.table_location_ tms.partitions wanted' ∅ fun par hpar => by
        obtain ⟨b, hb⟩ := hdecided par hpar
        exact ⟨b, hb, fun _ => h.leader par hpar⟩
      rw [h'] at hok
      cases hok

/-- The bounds of a range of numbers, and a key in it. -/
theorem KeyLe.ints (hlo : KeyLe tms lo k) (hhi : KeyLe tms k hi)
    (hnum : tms.partition_key_type = ColType.TYPE_INT ∨ tms.partition_key_type = ColType.TYPE_FLOAT) :
    ∃ a b c, stoi lo = .ok a ∧ stoi k = .ok b ∧ stoi hi = .ok c ∧ a ≤ b ∧ b ≤ c := by
  obtain ⟨a, b, ha, hb, hab⟩ := hlo.1 hnum
  obtain ⟨b', c, hb', hc, hbc⟩ := hhi.1 hnum
  obtain rfl := Except.ok.inj (hb.symm.trans hb')
  exact ⟨a, b, c, ha, hb, hc, hab, hbc⟩

/-- A range of numbers wants the partitions that its keys want. -/
theorem overlaps_mono {a b c : Int32} (hlo : stoi lo = .ok a) (hk : stoi k = .ok b) (hhi : stoi hi = .ok c) (hab : a ≤ b)
    (hbc : b ≤ c) {par : ParMeta} (h : overlaps k k par = .ok true) : overlaps lo hi par = .ok true := by
  obtain ⟨x, y, hx, hxb, hy, hby⟩ := (overlaps_iff hk hk).mp h
  exact (overlaps_iff hlo hhi).mpr ⟨x, y, hx, Int32.le_trans hxb hbc, hy, Int32.le_trans hab hby⟩

theorem Numbered.covers_range (h : Numbered tms) (htype : tms.partition_type = PartitionType.RANGE_PARTITION)
    (hlo : KeyLe tms lo k) (hhi : KeyLe tms k hi) :
    Covers (some (getReplicaLocationListByRange tms k k)) (some (getReplicaLocationListByRange tms lo hi)) ∨
      (UnreadBound tms ∧ ∃ e, getReplicaLocationListByRange tms lo hi = .error e) := by
  unfold getReplicaLocationListByRange
  by_cases hnum : tms.partition_key_type = ColType.TYPE_INT ∨ tms.partition_key_type = ColType.TYPE_FLOAT
  · rw [if_pos hnum, if_pos hnum]
    obtain ⟨a, b, c, ha, hb, hc, hab, hbc⟩ := hlo.ints hhi hnum
    have himp : ∀ par, overlaps k k par = .ok true → ∀ x, overlaps lo hi par = .ok x → x = true := by
      intro par hwanted x hx
      rw [overlaps_mono ha hb hc hab hbc hwanted] at hx
      exact (Except.ok.inj hx).symm
    rcases h.covers_collect_or himp with hcovers | ⟨⟨par, hpar, hundecided⟩, herror⟩
    · exact Or.inl hcovers
    · refine Or.inr ⟨⟨htype, hnum, par, hpar, ?_⟩, herror⟩
      by_contra hread
      push Not at hread
      obtain ⟨x, hx⟩ := overlaps_decided ha hc hread.1 hread.2
      exact hundecided x hx
  · rw [if_neg hnum, if_neg hnum]
    split
    · have hlk := hlo.2 hnum
      have hkh := hhi.2 hnum
      refine (h.covers_collect_or ?_).imp_right ?_
      · intro par hwanted b hb
        rw [← Except.ok.inj hb]
        obtain ⟨hmin, hmax⟩ := of_decide_eq_true (Except.ok.inj hwanted)
        exact decide_eq_true ⟨le_trans hmin hkh, le_trans hlk hmax⟩
      · rintro ⟨⟨par, -, hundecided⟩, -⟩
        exact absurd rfl (hundecided _)
    · exact Or.inl (covers_refl _)

theorem Numbered.covers_hash (h : Numbered tms) (hlo : KeyLe tms lo k) (hhi : KeyLe tms k hi) :
    Covers (getReplicaLocationListByHash hash tms k k) (getReplicaLocationListByHash hash tms lo hi) := by
  unfold getReplicaLocationListByHash
  by_cases hnum : tms.partition_key_type = ColType.TYPE_INT ∨ tms.partition_key_type = ColType.TYPE_FLOAT
  · rw [if_pos hnum, if_pos hnum]
    obtain ⟨a, b, c, ha, hb, hc, hab, hbc⟩ := hlo.ints hhi hnum
    rw [ha, hb, hc]
    dsimp only
    rw [if_pos rfl]
    split
    · rename_i heq
      -- the range is this key
      subst heq
      obtain rfl := Int32.le_antisymm hab hbc
      exact covers_refl _
    · exact h.covers_one _
  · rw [if_neg hnum, if_neg hnum]
    split
    · rw [if_pos rfl]
      split
      · rename_i heq
        subst heq
        obtain rfl := le_antisymm (hlo.2 hnum) (hhi.2 hnum)
        exact covers_refl _
      · exact h.covers_one _
    · exact covers_refl _

/-- **A range has the partitions of its keys**, or one of its bounds cannot be read. -/
theorem range_covers (h : Numbered tms) (hlo : KeyLe tms lo k) (hhi : KeyLe tms k hi) (partitionKeyName : Bytes) :
    Covers (locationList hash tms partitionKeyName k k) (locationList hash tms partitionKeyName lo hi) ∨
      (UnreadBound tms ∧ ∃ e, locationList hash tms partitionKeyName lo hi = some (.error e)) := by
  unfold locationList
  split
  · exact Or.inl (covers_refl _)
  · split
    · rename_i htype
      refine (h.covers_range htype hlo hhi).imp_right ?_
      rintro ⟨hunread, e, he⟩
      exact ⟨hunread, e, congrArg some he⟩
    · split
      · exact Or.inl (h.covers_hash hlo hhi)
      · exact Or.inl (covers_refl _)

/-- A table with the partitions `[0, 9]` and `[20, max_range]`, on one node. Its key is a `TYPE_FLOAT`, as of each range table
    that `CreatePartitionTable` makes: the type of the partition comes from the type of the key. -/
def twoRanges (max_range : Bytes) : TabMetaServer :=
  { oid := 0, name := [116], col_info := ⟨[[107]], [ColType.TYPE_FLOAT]⟩, partition_type := PartitionType.RANGE_PARTITION,
    partition_key_name := [107], partition_key_type := ColType.TYPE_FLOAT, partition_cnt_ := 2,
    partitions := [⟨[112, 48], 0, [48], [57]⟩, ⟨[112, 49], 1, [50, 48], max_range⟩],
    table_location_ := ⟨0, DuplicateType.NOT_DUPLICATE,
      [⟨0, 0, 1, [⟨[1], 10, Replica_Role.Leader⟩]⟩, ⟨0, 1, 1, [⟨[1], 10, Replica_Role.Leader⟩]⟩]⟩ }

theorem numbered_twoRanges (max_range : Bytes) : Numbered (twoRanges max_range) := by
  refine ⟨rfl, rfl, ?_⟩
  intro par hpar
  simp only [twoRanges, List.mem_cons, List.not_mem_nil, or_false] at hpar
  rcases hpar with rfl | rfl
  · exact ⟨⟨[1], 10, Replica_Role.Leader⟩, rfl⟩
  · exact ⟨⟨[1], 10, Replica_Role.Leader⟩, rfl⟩

/-- `5 ≤ 7 ≤ 30` -/
theorem range_covers_twoRanges :
    Covers (locationList ⟨fun _ => 0, fun _ => 0⟩ (twoRanges [51, 48]) [107] [55] [55])
      (locationList ⟨fun _ => 0, fun _ => 0⟩ (twoRanges [51, 48]) [107] [53] [51, 48]) ∨
    (UnreadBound (twoRanges [51, 48]) ∧
      ∃ e, locationList ⟨fun _ => 0, fun _ => 0⟩ (twoRanges [51, 48]) [107] [53] [51, 48] = some (.error e)) := by
  have hnum : Numeric (twoRanges [51, 48]) := Or.inr rfl
  exact range_covers (numbered_twoRanges _) ⟨fun _ => ⟨5, 7, rfl, rfl, by decide⟩, fun hnot => absurd hnum hnot⟩
    ⟨fun _ => ⟨7, 30, rfl, rfl, by decide⟩, fun hnot => absurd hnum hnot⟩ [107]

/-- The upper bound `x` is read for `[5, 30]`, and not for `[5, 5]`. -/
theorem bound_not_read : ¬ ∀ (hash : Hash) (tms : TabMetaServer) (lo k hi partitionKeyName : Bytes), Numbered tms →
    KeyLe tms lo k → KeyLe tms k hi →
      Covers (locationList hash tms partitionKeyName k k) (locationList hash tms partitionKeyName lo hi) := by
  intro hall
  have hnum : Numeric (twoRanges [120]) := Or.inr rfl
  obtain ⟨res', hres', -⟩ := hall ⟨fun _ => 0, fun _ => 0⟩ (twoRanges [120]) [53] [53] [51, 48] [107] (numbered_twoRanges _)
    ⟨fun _ => ⟨5, 5, rfl, rfl, by decide⟩, fun hnot => absurd hnum hnot⟩
    ⟨fun _ => ⟨5, 30, rfl, rfl, by decide⟩, fun hnot => absurd hnum hnot⟩
    (Finmap.singleton 0 ⟨[1], 10, Replica_Role.Leader⟩) rfl
  have herror : locationList ⟨fun _ => 0, fun _ => 0⟩ (twoRanges [120]) [107] [53] [51, 48] =
      some (.error .invalid_argument) := rfl
  rw [herror] at hres'
  cases hres'

end MetaServer
end DDBMS
