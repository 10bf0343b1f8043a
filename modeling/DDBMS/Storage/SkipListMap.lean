import DDBMS.Storage.SkipListOps
import DDBMS.Lib.SortedFinmap

/-!
# `Storage.SkipListMap` — the memtable is a finite map

What the operations of the skip list return is what a finite map returns (`skipList_is_map`): the sorted association list
that the pointers represent (`holds_run`) has the entries of the map.

`SkipList` counts its entries and bytes in `Nat`. The code has two `size_t`s for this, and takes the length of an
overwritten value off before it adds the new one; `Counters` does the same in machine words.
-/

namespace DDBMS
namespace SkipList

open SortedAssoc

/-! ## The counters as machine words -/

/-- `key.size()`. -/
def sizeT (b : Bytes) : UInt64 := UInt64.ofNat b.length

/-- `num_entries_` and `num_bytes_`. -/
structure Counters where
  num_entries_ : UInt64 := 0
  num_bytes_ : UInt64 := 0
  deriving DecidableEq

/-- The assignments of `put`, when the key has the value `old`. -/
def Counters.put (c : Counters) (old : Option Bytes) (key value : Bytes) : Counters :=
  match old with
  | some old => { c with num_bytes_ := c.num_bytes_ - sizeT old + sizeT value }
  | none => ⟨c.num_entries_ + 1, c.num_bytes_ + sizeT key + sizeT value⟩

/-- The assignments of `del`. -/
def Counters.del (c : Counters) (old : Option Bytes) (key : Bytes) : Counters :=
  match old with
  | some old => ⟨c.num_entries_ - 1, c.num_bytes_ - sizeT key - sizeT old⟩
  | none => c

/-- A skip list with its counters. -/
structure Counted where
  list : SkipList
  counters : Counters

/-- The value that the search finds for a key. -/
def found (s : SkipList) (key : Bytes) : Option (Option Bytes) :=
  (s.get key).map fun result => if result.1 then some result.2 else none

def Counted.step (w : Counted) (e : Event) : Option Counted := do
  let list ← w.list.step e
  match e with
  | .put key value _ => do
    let old ← w.list.found key
    some ⟨list, w.counters.put old key value⟩
  | .del key => do
    let old ← w.list.found key
    some ⟨list, w.counters.del old key⟩
  | .clear => some ⟨list, {}⟩

/-! ## The map -/

/-- What an operation does to a map. -/
def mapStep (m : Finmap fun _ : Bytes => Bytes) : Event → Finmap fun _ : Bytes => Bytes
  | .put key value _ => m.insert key value
  | .del key => m.erase key
  | .clear => ∅

/-- The map that a sequence of operations makes. -/
def mapOf (es : List Event) : Finmap fun _ : Bytes => Bytes := es.foldl mapStep ∅

/-- The sorted list that the operations make has the entries of this map. -/
theorem denotes_entries (es : List Event) : Denotes (es.foldl entriesStep []) (mapOf es) := by
  induction es using List.reverseRecOn with
  | nil => exact .nil
  | append_singleton es e ih =>
      rw [mapOf, List.foldl_append, List.foldl_append]
      cases e with
      | put key value ones => exact ih.put key value
      | del key => exact ih.erase key
      | clear => exact .nil

/-- The lengths of the keys and the values. -/
def mapBytes (m : Finmap fun _ : Bytes => Bytes) : Nat := total (fun key value => key.length + value.length) m

/-- The machine words are the number of entries and the number of bytes of the map. -/
structure Counters.Counts (c : Counters) (m : Finmap fun _ : Bytes => Bytes) : Prop where
  num_entries : c.num_entries_ = UInt64.ofNat m.keys.card
  num_bytes : c.num_bytes_ = UInt64.ofNat (mapBytes m)

/-- The skip list returns what the map returns. -/
structure Counted.IsMap (w : Counted) (m : Finmap fun _ : Bytes => Bytes) : Prop where
  get : ∀ key, w.list.get key = some (lookupResult (m.lookup key))
  contains : ∀ key, w.list.contains key = some (decide (key ∈ m))
  del : ∀ key, (w.list.del key).map Prod.snd = some (decide (key ∈ m))
  size : w.list.size = m.keys.card
  empty : w.list.empty = true ↔ m = ∅
  space : w.list.space = mapBytes m
  counts : w.counters.Counts m

/-- What holds between the operations. -/
structure Counted.Stands (w : Counted) (m : Finmap fun _ : Bytes => Bytes) : Prop where
  denotes : ∃ es, w.list.Holds es ∧ Denotes es m
  counts : w.counters.Counts m

variable {w : Counted} {c : Counters} {m : Finmap fun _ : Bytes => Bytes}

theorem Counted.Stands.isMap (h : w.Stands m) : w.IsMap m := by
  obtain ⟨es, hholds, hden⟩ := h.denotes
  constructor
  · intro key
    rw [hholds.get, hden.lookup]
  · intro key
    rw [hholds.contains, hden.isSome_lookup]
  · intro key
    obtain ⟨t, ht, -⟩ := hholds.del key
    rw [ht, Option.map_some, hden.isSome_lookup]
  · rw [hholds.size, hden.card]
  · rw [hholds.empty, hden.isEmpty_iff]
  · rw [hholds.space, mapBytes, hden.total]
    rfl
  · exact h.counts

/-! ## Words -/

theorem ofNat_sub_ofNat (b c : Nat) : UInt64.ofNat (b + c) - UInt64.ofNat b = UInt64.ofNat c := by
  apply UInt64.toNat_inj.mp
  rw [UInt64.toNat_sub]
  simp only [UInt64.toNat_ofNat']
  omega

theorem ofNat_update {a b c d : Nat} (h : d + b = a + c) :
    UInt64.ofNat a - UInt64.ofNat b + UInt64.ofNat c = UInt64.ofNat d := by
  apply UInt64.toNat_inj.mp
  rw [UInt64.toNat_add, UInt64.toNat_sub]
  simp only [UInt64.toNat_ofNat']
  omega

/-- The words of `put`. -/
theorem Counters.Counts.put (h : c.Counts m) (key value : Bytes) :
    (c.put (m.lookup key) key value).Counts (m.insert key value) := by
  cases hold : m.lookup key with
  | some old =>
      -- the key stays one entry, and the length of its value changes
      have hcard := total_update (f := fun _ _ => 1) (w := value) hold
      have hbytes := total_update (f := fun key value => key.length + value.length) (w := value) hold
      rw [← card_keys, ← card_keys] at hcard
      constructor
      · show c.num_entries_ = _
        rw [h.num_entries, Nat.add_right_cancel hcard]
      · show c.num_bytes_ - _ + _ = _
        rw [h.num_bytes, sizeT, sizeT]
        exact ofNat_update (by simp only [mapBytes]; omega)
  | none =>
      have hmem := Finmap.lookup_eq_none.mp hold
      constructor
      · show c.num_entries_ + 1 = _
        rw [h.num_entries, card_keys, card_keys, total_insert hmem, Nat.add_comm, UInt64.ofNat_add]
        rfl
      · show c.num_bytes_ + _ + _ = _
        rw [h.num_bytes, mapBytes, mapBytes, total_insert hmem, sizeT, sizeT, ← UInt64.ofNat_add, ← UInt64.ofNat_add,
          Nat.add_assoc, Nat.add_comm]

/-- The words of `del`. -/
theorem Counters.Counts.del (h : c.Counts m) (key : Bytes) : (c.del (m.lookup key) key).Counts (m.erase key) := by
  cases hold : m.lookup key with
  | some old =>
      have hcard := total_erase (f := fun _ _ => 1) hold
      have hbytes := total_erase (f := fun key value => key.length + value.length) hold
      constructor
      · show c.num_entries_ - 1 = _
        rw [h.num_entries, card_keys, card_keys, ← hcard]
        exact ofNat_sub_ofNat 1 _
      · show c.num_bytes_ - _ - _ = _
        rw [h.num_bytes, mapBytes, mapBytes, ← hbytes, Nat.add_assoc, sizeT, sizeT, ofNat_sub_ofNat, ofNat_sub_ofNat]
  | none =>
      rw [erase_of_notMem (Finmap.lookup_eq_none.mp hold)]
      exact h

/-! ## Steps and runs -/

theorem Counted.Stands.found (h : w.Stands m) (key : Bytes) : w.list.found key = some (m.lookup key) := by
  rw [SkipList.found, h.isMap.get, Option.map_some]
  cases m.lookup key <;> rfl

/-- **Step lemma.** -/
theorem Counted.Stands.step (h : w.Stands m) (e : Event) : ∃ w', w.step e = some w' ∧ w'.Stands (mapStep m e) := by
  obtain ⟨es, hholds, hden⟩ := h.denotes
  obtain ⟨t, ht, hes⟩ := hholds.step e
  cases e with
  | put key value ones =>
      refine ⟨⟨t, w.counters.put (m.lookup key) key value⟩, ?_, ⟨_, hes, hden.put key value⟩, h.counts.put key value⟩
      simp only [Counted.step, ht, h.found, Option.bind_eq_bind, Option.bind_some]
  | del key =>
      refine ⟨⟨t, w.counters.del (m.lookup key) key⟩, ?_, ⟨_, hes, hden.erase key⟩, h.counts.del key⟩
      simp only [Counted.step, ht, h.found, Option.bind_eq_bind, Option.bind_some]
  | clear =>
      refine ⟨⟨t, {}⟩, ?_, ⟨_, hes, .nil⟩, rfl, rfl⟩
      simp only [Counted.step, ht, Option.bind_eq_bind, Option.bind_some]

/-- A new skip list. -/
def Counted.new : Counted := ⟨SkipList.new, {}⟩

/-- **The skip list is a finite map.** Every sequence of operations succeeds, whatever the heights, and leaves a list that
    answers as the map of the operations does. -/
theorem skipList_is_map (es : List Event) : ∃ w, Run (FunStep Counted.step) Counted.new es w ∧ w.IsMap (mapOf es) := by
  suffices h : ∃ w, Run (FunStep Counted.step) Counted.new es w ∧ w.Stands (mapOf es) by
    obtain ⟨w, hrun, hw⟩ := h
    exact ⟨w, hrun, hw.isMap⟩
  induction es using List.reverseRecOn with
  | nil => exact ⟨Counted.new, Run.refl, ⟨[], holds_init _ 1, .nil⟩, rfl, rfl⟩
  | append_singleton es e ih =>
      obtain ⟨w, hrun, hw⟩ := ih
      obtain ⟨w', hstep, hw'⟩ := hw.step e
      refine ⟨w', hrun.tail hstep, ?_⟩
      rw [mapOf, List.foldl_append]
      exact hw'

end SkipList
end DDBMS
