import DDBMS.Storage.SkipListMap

/-!
# `Storage.SkipListIter` — iterating over the skip list

`Next` follows level 0, `Prev` and `SeekToLast` search from the top for the last node before a cut
(`Levels.findLessThan`), and `Seek` uses the search of `put` and `get`. In a list that represents the nodes `ns` all of
them move along `ns`: an iterator at the node between `pre` and `suf` goes to the head of `suf` or to the last of `pre`
(`Repr.iteratorNext`, `Repr.iteratorPrev`), so the traversals show the pairs in order and in the reverse order
(`skipList_iterates`).
-/

namespace DDBMS
namespace SkipList

open SortedAssoc

variable {s : SkipList} {ns lo hi pre suf : List Addr} {key : Bytes}

/-- An iterator at `it`, moved by `move` while it is valid, shows the pairs `es` and is invalid after them. -/
inductive Visits (s : SkipList) (move : Addr → Option Iterator) : Iterator → List (Bytes × Bytes) → Prop where
  | done : Visits s move none []
  | more {a : Addr} {it : Iterator} {es : List (Bytes × Bytes)} :
      move a = some it → Visits s move it es → Visits s move (some a) (s.entry a :: es)

/-- The places an iterator can get to. -/
inductive Position (s : SkipList) : Iterator → Prop where
  | seekToFirst {it : Iterator} : s.seekToFirst = some it → Position s it
  | seekToLast {it : Iterator} : s.seekToLast = some it → Position s it
  | seek {key : Bytes} {it : Iterator} : s.seek key = some it → Position s it
  | next {a : Addr} {it : Iterator} : Position s (some a) → s.iteratorNext a = some it → Position s it
  | prev {a : Addr} {it : Iterator} : Position s (some a) → s.iteratorPrev a = some it → Position s it

/-- The iterator stands on the smallest key of `es` that is not less than `key`, or is invalid if there is none. -/
def AtSmallest (s : SkipList) (es : List (Bytes × Bytes)) (key : Bytes) : Iterator → Prop
  | some a => s.entry a ∈ es ∧ key ≤ (s.nodes a).key_ ∧ ∀ e ∈ es, key ≤ e.1 → (s.nodes a).key_ ≤ e.1
  | none => ∀ e ∈ es, e.1 < key

/-- The iterator goes through the pairs `es`, which are those that `get` finds. -/
structure Iterates (s : SkipList) (es : List (Bytes × Bytes)) : Prop where
  stored : ∀ key value, (key, value) ∈ es ↔ s.get key = some (true, value)
  forward : ∃ it, s.seekToFirst = some it ∧ s.Visits s.iteratorNext it es
  backward : ∃ it, s.seekToLast = some it ∧ s.Visits s.iteratorPrev it es.reverse
  seek : ∀ key, ∃ it, s.seek key = some it ∧ s.AtSmallest es key it
  next_prev : ∀ a b, s.Position (some a) → s.iteratorNext a = some (some b) → s.iteratorPrev b = some (some a)

/-! ## Where the iterator goes -/

/-- What an iterator stands on after a backward search: nothing at the head, else the last node before the cut. -/
theorem Repr.iterator_last (h : Repr s (pre ++ suf)) :
    ((s.head_ :: pre).getLast?.bind fun node => some (if node = s.head_ then none else some node)) =
      some pre.getLast? := by
  rcases List.eq_nil_or_concat pre with rfl | ⟨pre, b, rfl⟩
  · simp
  · have hb : b ≠ s.head_ := by
      rintro rfl
      exact (List.nodup_cons.mp h.nodup).1 (by simp)
    rw [List.concat_eq_append, ← List.cons_append, List.getLast?_concat, List.getLast?_concat, Option.bind_some,
      if_neg hb]

theorem Repr.seekToLast (h : Repr s ns) : s.seekToLast = some ns.getLast? := by
  have h' : Repr s (ns ++ []) := by rwa [List.append_nil]
  rw [SkipList.seekToLast, h.levels.findLast h.head_pos]
  exact h'.iterator_last

theorem Repr.iteratorPrev {a : Addr} (h : Repr s (pre ++ a :: suf)) : s.iteratorPrev a = some pre.getLast? := by
  have hsorted := h.sorted
  rw [List.map_append, List.map_cons] at hsorted
  obtain ⟨-, hsuf, hpre⟩ := List.pairwise_append.mp hsorted
  have hcut : Cut s (s.nodes a).key_ pre (a :: suf) := by
    constructor
    · exact fun b hb => hpre _ (List.mem_map_of_mem hb) _ List.mem_cons_self
    · intro b hb
      rcases List.mem_cons.mp hb with rfl | hb
      · exact lt_irrefl _
      · exact lt_asymm ((List.pairwise_cons.mp hsuf).1 _ (List.mem_map_of_mem hb))
  rw [SkipList.iteratorPrev, h.levels.findLessThan h.head_pos hcut]
  exact h.iterator_last

theorem Repr.seek (h : Repr s (lo ++ hi)) (hcut : Cut s key lo hi) : s.seek key = some hi.head? := by
  obtain ⟨prevs, hfind, -⟩ := findGreatorOrEqual_spec h hcut
  simp only [SkipList.seek, hfind, Option.bind_eq_bind, Option.bind_some]
  rw [h.iterator_eq (fun a ha => List.mem_append_right _ ha)]

/-- A valid iterator stands on a node of the list. -/
theorem Position.mem (h : Repr s ns) {it : Iterator} (hit : s.Position it) : ∀ a, it = some a → a ∈ ns := by
  induction hit with
  | seekToFirst hit =>
      rintro a rfl
      exact List.mem_of_head? (Option.some.inj (h.seekToFirst.symm.trans hit))
  | seekToLast hit =>
      rintro a rfl
      exact List.mem_of_getLast? (Option.some.inj (h.seekToLast.symm.trans hit))
  | @seek key it hit =>
      rintro a rfl
      obtain ⟨lo, hi, rfl, hcut⟩ := h.cut key
      exact List.mem_append_right _ (List.mem_of_head? (Option.some.inj ((h.seek hcut).symm.trans hit)))
  | next _ hit ih =>
      rintro b rfl
      obtain ⟨pre, suf, rfl⟩ := List.append_of_mem (ih _ rfl)
      have hb := List.mem_of_head? (Option.some.inj (h.iteratorNext.symm.trans hit))
      exact List.mem_append_right _ (List.mem_cons_of_mem _ hb)
  | prev _ hit ih =>
      rintro b rfl
      obtain ⟨pre, suf, rfl⟩ := List.append_of_mem (ih _ rfl)
      exact List.mem_append_left _ (List.mem_of_getLast? (Option.some.inj (h.iteratorPrev.symm.trans hit)))

/-! ## The traversals -/

/-- From the place between `pre` and `suf` the iterator moves forward through `suf`. -/
theorem Repr.visits_next : ∀ (suf pre : List Addr), Repr s (pre ++ suf) →
    s.Visits s.iteratorNext suf.head? (suf.map s.entry) := by
  intro suf
  induction suf with
  | nil => exact fun _ _ => .done
  | cons a suf ih =>
      intro pre h
      refine .more h.iteratorNext (ih (pre ++ [a]) ?_)
      rwa [List.append_assoc]

/-- From there it moves backward through `pre`. -/
theorem Repr.visits_prev (h : Repr s (pre ++ suf)) :
    s.Visits s.iteratorPrev pre.getLast? (pre.map s.entry).reverse := by
  induction pre using List.reverseRecOn generalizing suf with
  | nil => exact .done
  | append_singleton pre a ih =>
      rw [List.append_assoc] at h
      rw [List.map_append, List.map_singleton, List.reverse_append, List.getLast?_concat]
      exact .more h.iteratorPrev (ih h)

theorem Repr.atSmallest (h : Repr s (lo ++ hi)) (hcut : Cut s key lo hi) :
    s.AtSmallest ((lo ++ hi).map s.entry) key hi.head? := by
  cases hi with
  | nil =>
      intro e he
      rw [List.append_nil] at he
      exact hcut.entries_lt e he
  | cons a hi =>
      refine ⟨List.mem_map_of_mem (by simp), not_lt.mp (hcut.ge a List.mem_cons_self), fun e he hle => ?_⟩
      have hsorted := h.sorted
      rw [List.map_append, List.map_cons] at hsorted he
      rcases List.mem_append.mp he with he | he
      · exact absurd hle (not_le.mpr (hcut.entries_lt e he))
      · rcases List.mem_cons.mp he with rfl | he
        · exact le_refl _
        · exact le_of_lt ((List.pairwise_cons.mp (List.pairwise_append.mp hsorted).2.1).1 e he)

/-- **Iteration.** The iterator moves along the nodes of the list. -/
theorem Repr.iterates (h : Repr s ns) : s.Iterates (ns.map s.entry) := by
  have h' : Repr s (ns ++ []) := by rwa [List.append_nil]
  refine ⟨fun key value => ?_, ⟨_, h.seekToFirst, Repr.visits_next ns [] h⟩, ⟨_, h.seekToLast, h'.visits_prev⟩,
    fun key => ?_, fun a b ha hab => ?_⟩
  · rw [Holds.get ⟨ns, h, rfl⟩]
    constructor
    · intro hmem
      rw [lookup_of_mem h.sorted hmem]
      rfl
    · intro hget
      cases hlook : (ns.map s.entry).lookup key with
      | none => rw [hlook] at hget; cases hget
      | some v =>
          rw [hlook] at hget
          cases hget
          obtain ⟨l₁, l₂, hsplit, -⟩ := List.lookup_eq_some_iff.mp hlook
          rw [hsplit]
          simp
  · obtain ⟨lo, hi, rfl, hcut⟩ := h.cut key
    exact ⟨_, h.seek hcut, h.atSmallest hcut⟩
  · obtain ⟨pre, suf, rfl⟩ := List.append_of_mem (ha.mem h a rfl)
    obtain ⟨suf, rfl⟩ := List.head?_eq_some_iff.mp (Option.some.inj (h.iteratorNext.symm.trans hab))
    have hb : Repr s ((pre ++ [a]) ++ b :: suf) := by rwa [List.append_assoc]
    rw [hb.iteratorPrev, List.getLast?_concat]

/-- **Iteration is ordered and complete.** After every sequence of operations, whatever the heights, the iterator goes
    through the entries of the finite map that the operations make, in the order of their keys. -/
theorem skipList_iterates (es : List Event) :
    ∃ s, Run (FunStep SkipList.step) new es s ∧ ∃ pairs, Denotes pairs (mapOf es) ∧ s.Iterates pairs := by
  obtain ⟨s, hrun, ns, hns, hes⟩ := holds_run es
  exact ⟨s, hrun, _, hes ▸ denotes_entries es, hns.iterates⟩

end SkipList
end DDBMS
