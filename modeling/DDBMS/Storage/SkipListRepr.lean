import DDBMS.Lib.Chain
import DDBMS.Lib.SortedAssoc
import DDBMS.Storage.SkipListSearch

/-!
# `Storage.SkipListRepr` — the skip list refines a sorted association list

`Repr s ns` says that the heap of `s` is a skip list whose nodes, in order, are `ns`: on every level the nodes
tall enough for it form a linked list from `head_` to `tail_`. Its abstract value is `ns.map s.entry`.

Such a heap has the levels that the searches need (`Repr.levels`), so what is left for `get` and `contains` is what the
node behind the cut says about the key (`Repr.lookup_eq`). `put` and `del` change one pointer on each level they touch,
and there the list is spliced (`Chain.insert`, `Chain.remove`).
-/

namespace DDBMS

open SortedAssoc

/-- The bytes of the keys and values. -/
def bytesOf (es : List (Bytes × Bytes)) : Nat := (es.map fun e => e.1.length + e.2.length).sum

@[simp] theorem bytesOf_nil : bytesOf [] = 0 := rfl

@[simp] theorem bytesOf_cons (e : Bytes × Bytes) (es : List (Bytes × Bytes)) :
    bytesOf (e :: es) = e.1.length + e.2.length + bytesOf es := by
  simp [bytesOf]

@[simp] theorem bytesOf_append (es fs : List (Bytes × Bytes)) :
    bytesOf (es ++ fs) = bytesOf es + bytesOf fs := by
  simp [bytesOf]

/-- A lookup as `get` returns it. -/
def lookupResult : Option Bytes → Bool × Bytes
  | some v => (true, v)
  | none => (false, [])

namespace SkipList

variable {s : SkipList} {ns lo hi : List Addr} {key : Bytes}

/-- The pair a node holds. -/
def entry (s : SkipList) (a : Addr) : Bytes × Bytes := ((s.nodes a).key_, (s.nodes a).value_)

/-- The heap of `s` is a skip list with the nodes `ns`. -/
structure Repr (s : SkipList) (ns : List Addr) : Prop where
  nodup : (s.head_ :: ns).Nodup
  tail_notMem : s.tail_ ∉ s.head_ :: ns
  alloc : ∀ a ∈ s.tail_ :: s.head_ :: ns, a < s.allocated
  nexts_length : ∀ a ∈ s.head_ :: ns, (s.nodes a).nexts_.length = (s.nodes a).height_
  height : ∀ a ∈ s.head_ :: ns, 0 < (s.nodes a).height_ ∧ (s.nodes a).height_ ≤ s.getMaxHeight
  chain : ∀ i < s.getMaxHeight, ((s.head_ :: ns).filter (s.tall i) ++ [s.tail_]).IsChain (s.Linked i)
  sorted : Sorted (ns.map s.entry)
  num_entries : s.num_entries_ = ns.length
  num_bytes : s.num_bytes_ = bytesOf (ns.map s.entry)

/-- `s` holds the pairs `es`. -/
def Holds (s : SkipList) (es : List (Bytes × Bytes)) : Prop := ∃ ns, Repr s ns ∧ ns.map s.entry = es

theorem Repr.head_pos (h : Repr s ns) : 0 < s.getMaxHeight := (h.height s.head_ List.mem_cons_self).1

theorem Repr.level (h : Repr s ns) {i : Nat} (hi : i < s.getMaxHeight) : s.Level i (ns.filter (s.tall i)) := by
  have hhead : s.tall i s.head_ = true := by simpa [tall, getMaxHeight] using hi
  have hchain := h.chain i hi
  rw [List.filter_cons_of_pos hhead] at hchain
  refine ⟨hchain, fun htail => h.tail_notMem ?_, ?_⟩
  · rcases List.mem_cons.mp htail with heq | hmem
    · rw [heq]
      exact List.mem_cons_self
    · exact List.mem_cons_of_mem _ (List.mem_filter.mp hmem).1
  · have hs := h.sorted
    rw [Sorted, List.pairwise_map] at hs
    exact hs.sublist List.filter_sublist

/-- The nodes of a skip list are linked on the right levels. -/
theorem Repr.levels (h : Repr s ns) : s.Levels ns := by
  have hzero := h.level h.head_pos
  rw [List.filter_eq_self.mpr fun a ha => by simpa [tall] using (h.height a (List.mem_cons_of_mem _ ha)).1] at hzero
  exact ⟨hzero, fun _ hi => h.level hi, h.num_entries, fun a ha => h.height a (List.mem_cons_of_mem _ ha)⟩

theorem Repr.cut (h : Repr s ns) (key : Bytes) : ∃ lo hi, ns = lo ++ hi ∧ Cut s key lo hi := h.levels.cut key

/-- **The search** returns the first node behind the cut, and `prevs` for every level. -/
theorem findGreatorOrEqual_spec (h : Repr s (lo ++ hi)) (hcut : Cut s key lo hi) :
    ∃ prevs, s.findGreatorOrEqual key = some (hi.headD s.tail_, prevs) ∧ Prevs s lo prevs :=
  h.levels.findGreatorOrEqual h.head_pos hcut

/-! ## Reading -/

/-- The entries before the cut, and those behind it. -/
theorem Cut.entries_lt (hcut : Cut s key lo hi) : ∀ e ∈ lo.map s.entry, e.1 < key := by
  intro e he
  obtain ⟨a, ha, rfl⟩ := List.mem_map.mp he
  exact hcut.lt a ha

/-- Behind the first node at or behind the cut, keys are greater. -/
theorem Repr.entries_gt {x : Addr} (h : Repr s (lo ++ x :: hi)) (hcut : Cut s key lo (x :: hi)) :
    (∀ e ∈ hi.map s.entry, key < e.1) ∧ ((s.nodes x).key_ ≠ key → key < (s.nodes x).key_) := by
  have hx : key ≤ (s.nodes x).key_ := not_lt.mp (hcut.ge x List.mem_cons_self)
  refine ⟨?_, fun hne => lt_of_le_of_ne hx (Ne.symm hne)⟩
  have hs := h.sorted
  rw [List.map_append, List.map_cons] at hs
  intro e he
  exact lt_of_le_of_lt hx ((List.pairwise_cons.mp (List.pairwise_append.mp hs).2.1).1 e he)

/-- What the node the search returns says about the key. -/
theorem Repr.lookup_eq (h : Repr s (lo ++ hi)) (hcut : Cut s key lo hi) :
    ((lo ++ hi).map s.entry).lookup key =
      if hi.headD s.tail_ ≠ s.tail_ ∧ (s.nodes (hi.headD s.tail_)).key_ = key then
        some (s.nodes (hi.headD s.tail_)).value_
      else none := by
  rw [List.map_append, lookup_split hcut.entries_lt]
  cases hi with
  | nil => simp
  | cons x hi =>
      have hx : x ≠ s.tail_ := by
        rintro rfl
        exact h.tail_notMem (by simp)
      obtain ⟨hgt, hne⟩ := h.entries_gt hcut
      by_cases hk : (s.nodes x).key_ = key
      · simp [entry, hx, hk]
      · rw [lookup_of_gt]
        · simp [hk]
        · intro e he
          rcases List.mem_cons.mp he with rfl | he
          · exact hne hk
          · exact hgt e he

theorem Holds.get {es : List (Bytes × Bytes)} (h : s.Holds es) (key : Bytes) :
    s.get key = some (lookupResult (es.lookup key)) := by
  obtain ⟨ns, hr, rfl⟩ := h
  obtain ⟨lo, hi, rfl, hcut⟩ := hr.cut key
  obtain ⟨prevs, hfind, -⟩ := findGreatorOrEqual_spec hr hcut
  rw [hr.lookup_eq hcut]
  simp only [SkipList.get, hfind, Option.bind_eq_bind, Option.bind_some]
  split <;> rfl

theorem Holds.contains {es : List (Bytes × Bytes)} (h : s.Holds es) (key : Bytes) :
    s.contains key = some (es.lookup key).isSome := by
  obtain ⟨ns, hr, rfl⟩ := h
  obtain ⟨lo, hi, rfl, hcut⟩ := hr.cut key
  obtain ⟨prevs, hfind, -⟩ := findGreatorOrEqual_spec hr hcut
  rw [hr.lookup_eq hcut]
  simp only [SkipList.contains, hfind, Option.bind_eq_bind, Option.bind_some]
  split <;> simp_all

end SkipList
end DDBMS
