import DDBMS.Storage.SkipListOps

/-!
# `Storage.SkipListLevels` — the levels of the skip list

What `Repr` says of the pointers, level by level: each level is a linked list from `head_` to `tail_`, sorted, and its
nodes are those of level 0 that are tall enough (`Levels`). `head_` and `tail_` grow together and never beyond
`max_height_` (`Towers`); the loops of `put` and `del` write pointers only, so they keep every height.
-/

namespace DDBMS
namespace SkipList

open SortedAssoc

variable {s t : SkipList} {ns : List Addr} {es : List (Bytes × Bytes)}

/-- `tail_` is as tall as `head_`, and they are not too tall. -/
structure Towers (s : SkipList) : Prop where
  tail : (s.nodes s.tail_).height_ = (s.nodes s.head_).height_
  max : (s.nodes s.head_).height_ ≤ max_height_

/-! ## Heights -/

theorem Relinked.towers (h : Relinked s t) (hs : s.Towers) : t.Towers := by
  have hheight : ∀ a, (t.nodes a).height_ = (s.nodes a).height_ := fun a => (h.node a).2.2.1
  refine ⟨?_, ?_⟩
  · rw [h.tail, h.head, hheight, hheight]
    exact hs.tail
  · rw [h.head, hheight]
    exact hs.max

theorem setNext_relinked {a b : Addr} {i : Nat} (h : s.setNext a i b = some t) : Relinked s t := by
  by_cases hi : i < (s.nodes a).nexts_.length
  · obtain ⟨u, hu, hrel, -⟩ := setNext_spec (b := b) hi
    obtain rfl : u = t := Option.some.inj (hu.symm.trans h)
    exact hrel
  · rw [setNext, if_neg hi] at h
    cases h

theorem link_relinked {node : Addr} {prevs : Nat → Addr} {k : Nat} (h : s.link node prevs k = some t) :
    Relinked s t := by
  induction k generalizing t with
  | zero =>
      obtain rfl : s = t := Option.some.inj h
      exact Relinked.refl s
  | succ k ih =>
      simp only [link, Option.bind_eq_bind, Option.bind_eq_some_iff] at h
      obtain ⟨u, hu, next, -, v, hv, ht⟩ := h
      exact ((ih hu).trans (setNext_relinked hv)).trans (setNext_relinked ht)

theorem unlink_relinked {node : Addr} {prevs : Nat → Addr} {k : Nat} (h : s.unlink node prevs k = some t) :
    Relinked s t := by
  induction k generalizing t with
  | zero =>
      obtain rfl : s = t := Option.some.inj h
      exact Relinked.refl s
  | succ k ih =>
      simp only [unlink, Option.bind_eq_bind, Option.bind_eq_some_iff] at h
      obtain ⟨u, hu, next, -, ht⟩ := h
      exact (ih hu).trans (setNext_relinked ht)

theorem Towers.enlargeHeight {height : Nat} (h : height ≤ max_height_) : (s.enlargeHeight height).Towers := by
  have htail : ((s.enlargeHeight height).nodes s.tail_).height_ = height := by
    rw [SkipList.enlargeHeight]
    exact congrArg Node.height_ (setNode_self _ _)
  have hhead : ((s.enlargeHeight height).nodes s.head_).height_ = height := by
    by_cases heq : s.head_ = s.tail_
    · rw [heq, htail]
    · rw [SkipList.enlargeHeight]
      exact congrArg Node.height_ ((setNode_ne _ heq).trans (setNode_self _ _))
  exact ⟨htail.trans hhead.symm, hhead.trans_le h⟩

/-- A node that is neither `head_` nor `tail_`. -/
theorem Towers.setNode {a : Addr} {n : Node} (h : s.Towers) (hhead : s.head_ ≠ a) (htail : s.tail_ ≠ a) :
    (s.setNode a n).Towers := by
  refine ⟨?_, ?_⟩
  · show ((s.setNode a n).nodes s.tail_).height_ = ((s.setNode a n).nodes s.head_).height_
    rw [setNode_ne _ htail, setNode_ne _ hhead]
    exact h.tail
  · show ((s.setNode a n).nodes s.head_).height_ ≤ max_height_
    rw [setNode_ne _ hhead]
    exact h.max

theorem Towers.setValue {x : Addr} {value : Bytes} (h : s.Towers) :
    (s.setNode x { s.nodes x with value_ := value }).Towers := by
  have hheight : ∀ a, ((s.setNode x { s.nodes x with value_ := value }).nodes a).height_ = (s.nodes a).height_ := by
    intro a
    by_cases ha : a = x
    · subst ha
      rw [setNode_self]
    · rw [setNode_ne _ ha]
  exact ⟨(hheight _).trans (h.tail.trans (hheight _).symm), (hheight _).trans_le h.max⟩

theorem Towers.put {key value : Bytes} {ones : Nat} (h : s.Towers) (hr : Repr s ns)
    (hput : s.put key value ones = some t) : t.Towers := by
  simp only [SkipList.put, Option.bind_eq_bind, Option.bind_eq_some_iff] at hput
  obtain ⟨⟨x, prevs⟩, -, hput⟩ := hput
  dsimp only at hput
  split at hput
  · obtain rfl := Option.some.inj hput
    exact ⟨h.setValue.tail, h.setValue.max⟩
  · obtain ⟨u, hu, ht⟩ := Option.bind_eq_some_iff.mp hput
    obtain rfl := Option.some.inj ht
    have hhead := ne_of_lt (hr.alloc s.head_ (by simp))
    have htail := ne_of_lt (hr.alloc s.tail_ (by simp))
    have hrel := link_relinked hu
    split at hrel
    · have h' := (Towers.enlargeHeight (s := s) (random_height_pos ones).2).setNode
        (n := newNode key value (random_height ones)) hhead htail
      have hu := hrel.towers ⟨h'.tail, h'.max⟩
      exact ⟨hu.tail, hu.max⟩
    · have h' := h.setNode (n := newNode key value (random_height ones)) hhead htail
      have hu := hrel.towers ⟨h'.tail, h'.max⟩
      exact ⟨hu.tail, hu.max⟩

theorem Towers.del {key : Bytes} {found : Bool} (h : s.Towers) (hdel : s.del key = some (t, found)) : t.Towers := by
  simp only [SkipList.del, Option.bind_eq_bind, Option.bind_eq_some_iff] at hdel
  obtain ⟨⟨node, prevs⟩, -, hdel⟩ := hdel
  dsimp only at hdel
  split at hdel
  · obtain ⟨rfl, -⟩ := Prod.mk.inj (Option.some.inj hdel)
    exact h
  · obtain ⟨u, hu, ht⟩ := Option.bind_eq_some_iff.mp hdel
    obtain ⟨rfl, -⟩ := Prod.mk.inj (Option.some.inj ht)
    have hu := (unlink_relinked hu).towers h
    exact ⟨hu.tail, hu.max⟩

theorem towers_init (nodes : Addr → Node) (allocated : Nat) : (init nodes allocated).Towers :=
  ⟨by simp [init, newNode], by simp [init, newNode, max_height_]⟩

/-- **Step lemma.** -/
theorem Towers.step {e : Event} (h : s.Towers) (hs : s.Holds es) (hstep : s.step e = some t) : t.Towers := by
  cases e with
  | put key value ones =>
      obtain ⟨ns, hr, -⟩ := hs
      exact h.put hr hstep
  | del key =>
      obtain ⟨⟨u, found⟩, hdel, rfl⟩ := Option.map_eq_some_iff.mp hstep
      exact h.del hdel
  | clear =>
      obtain rfl := Option.some.inj hstep
      exact towers_init _ _

/-- **The levels are nested sorted lists.** Every sequence of operations, whatever the heights, leaves levels of this
    kind. -/
theorem skipList_levels (es : List Event) :
    ∃ s, Run (FunStep SkipList.step) new es s ∧ s.Towers ∧ ∃ ns, s.Levels ns := by
  obtain ⟨s, hrun, ns, hns, -⟩ := holds_run es
  refine ⟨s, hrun, ?_, ns, hns.levels⟩
  have h := hrun.history (I := fun es s => s.Holds (es.foldl entriesStep []) ∧ s.Towers)
    ⟨holds_init _ 1, towers_init _ 1⟩ ?_
  · exact h.2
  · intro es s e u hs hst
    obtain ⟨u', hu', hes⟩ := hs.1.step e
    obtain rfl : u' = u := Option.some.inj (hu'.symm.trans hst)
    rw [List.foldl_append]
    exact ⟨hes, hs.2.step hs.1 hst⟩

end SkipList
end DDBMS
