import DDBMS.Lib.Slots
import Mathlib.Data.Int.Order.Basic
import Mathlib.Data.List.Induction
import Mathlib.Data.Finset.Basic

/-!
# `Lib.BackLinks` — sequences threaded by back links

A sequence in which each element has an owner, a number and the number of a previous element. The sequence is `Threaded`
when the numbers are the positions and each element names the element of its owner right before it, or `-1` when it is the
first one. Elements of different owners may stand between the two.

A client appends elements one at a time (`Threaded.snoc`) and gets that the links, followed from the last element of an
owner, visit the elements of this owner (`Threaded.follow_last`).

The numbers need not be the positions: in a `Chained` sequence they only increase. The links of several owners can then be
followed together, from the largest number down. What comes next are the numbers of the last elements of these owners among
the elements that are left (`Frontier`); the largest of them belongs to the last of these elements (`Frontier.max`), and
when it has made room for the one that it names, the frontier is that of the elements before it (`Frontier.step`).
-/

namespace DDBMS

universe u v

/-- What an element says. -/
structure BackLinks (α : Type u) (κ : Type v) where
  owner : α → κ
  num : α → Int
  prev : α → Int

namespace BackLinks

variable {α : Type u} {κ : Type v} [DecidableEq κ] (L : BackLinks α κ)

/-- The elements of an owner. -/
def own (log : List α) (k : κ) : List α := log.filter fun r => L.owner r = k

/-- The number of the last element of an owner. -/
def last (log : List α) (k : κ) : Int := ((L.own log k).getLast?.map L.num).getD (-1)

structure Threaded (log : List α) : Prop where
  num : log.map L.num = (List.range log.length).map fun i : Nat => (i : Int)
  prev : ∀ pre r post, log = pre ++ r :: post → L.prev r = L.last pre (L.owner r)

/-- The elements visited by at most so many links. -/
def follow (log : List α) : Nat → Int → List α
  | 0, _ => []
  | fuel + 1, n =>
    match log.find? fun r => L.num r = n with
    | none => []
    | some r => r :: follow log fuel (L.prev r)

variable {L} {log pre post : List α} {r : α} {k : κ}

theorem own_append (pre post : List α) (k : κ) : L.own (pre ++ post) k = L.own pre k ++ L.own post k :=
  List.filter_append pre post

theorem own_snoc_self (log : List α) (r : α) : L.own (log ++ [r]) (L.owner r) = L.own log (L.owner r) ++ [r] := by
  rw [own_append]
  exact congrArg _ (List.filter_cons_of_pos (decide_eq_true rfl))

theorem own_snoc_other (h : L.owner r ≠ k) : L.own (log ++ [r]) k = L.own log k := by
  have hr : L.own [r] k = [] := List.filter_cons_of_neg (by rw [decide_eq_true_eq]; exact h)
  rw [own_append, hr, List.append_nil]

theorem last_snoc_self (log : List α) (r : α) : L.last (log ++ [r]) (L.owner r) = L.num r := by
  rw [last, own_snoc_self, List.getLast?_concat]
  rfl

theorem last_snoc_other (h : L.owner r ≠ k) : L.last (log ++ [r]) k = L.last log k := by
  rw [last, own_snoc_other h, last]

/-- An owner without elements has no last one. -/
theorem last_of_own_nil (h : L.own log k = []) : L.last log k = -1 := by
  rw [last, h]
  rfl

/-- The first element of an owner, and what is before it. -/
theorem split_of_head (h : (L.own log k).head? = some r) :
    ∃ pre post, log = pre ++ r :: post ∧ L.own pre k = [] ∧ L.owner r = k := by
  rw [own, List.head?_filter] at h
  obtain ⟨hr, pre, post, rfl, hpre⟩ := List.find?_eq_some_iff_append.mp h
  refine ⟨pre, post, rfl, ?_, of_decide_eq_true hr⟩
  rw [own, List.filter_eq_nil_iff]
  intro s hs
  rw [Bool.not_eq_true, ← Bool.not_eq_true']
  exact hpre s hs

theorem Threaded.nil : L.Threaded [] := ⟨rfl, fun pre r post h => by cases pre <;> cases h⟩

/-- **One more element.** -/
theorem Threaded.snoc (h : L.Threaded log) (hnum : L.num r = log.length) (hprev : L.prev r = L.last log (L.owner r)) :
    L.Threaded (log ++ [r]) := by
  constructor
  · rw [List.map_append, h.num, List.length_append, List.length_singleton, List.range_succ, List.map_append,
      List.map_singleton, List.map_singleton, hnum]
  · exact Slots.forall_split_snoc h.prev hprev

theorem Threaded.num_eq (h : L.Threaded (pre ++ r :: post)) : L.num r = pre.length := by
  have hget := congrArg (fun l => l[pre.length]?) h.num
  have hlt : pre.length < (pre ++ r :: post).length := by
    rw [List.length_append, List.length_cons]
    omega
  simp only [List.getElem?_map, List.getElem?_range hlt, List.getElem?_append_right (Nat.le_refl pre.length),
    Nat.sub_self, List.getElem?_cons_zero, Option.map_some] at hget
  exact Option.some.inj hget

/-- An element is found by its number. -/
theorem Threaded.find_num (h : L.Threaded (pre ++ r :: post)) :
    (pre ++ r :: post).find? (fun s => L.num s = L.num r) = some r := by
  have hpre : pre.find? (fun s => L.num s = L.num r) = none := by
    rw [List.find?_eq_none]
    intro s hs
    obtain ⟨as, bs, rfl⟩ := List.append_of_mem hs
    have hs' : L.num s = as.length := by
      rw [List.append_assoc, List.cons_append] at h
      exact h.num_eq
    rw [hs', h.num_eq, List.length_append, List.length_cons, decide_eq_true_eq]
    omega
  rw [List.find?_append, hpre, Option.none_or]
  exact List.find?_cons_of_pos (decide_eq_true rfl)

/-- Nothing is numbered `-1`. -/
theorem Threaded.find_none (h : L.Threaded log) : log.find? (fun s => L.num s = -1) = none := by
  rw [List.find?_eq_none]
  intro s hs
  obtain ⟨pre, post, rfl⟩ := List.append_of_mem hs
  rw [h.num_eq, decide_eq_true_eq]
  omega

/-- The same from any prefix: the links lead from the last element of `k` there through all elements of `k` there. -/
theorem Threaded.follow_prefix (h : L.Threaded (pre ++ post)) {fuel : Nat} (hfuel : pre.length ≤ fuel) :
    L.follow (pre ++ post) fuel (L.last pre k) = (L.own pre k).reverse := by
  induction pre using List.reverseRecOn generalizing fuel post with
  | nil =>
      have hlast : L.last [] k = -1 := rfl
      cases fuel with
      | zero => rfl
      | succ fuel =>
          rw [follow, hlast, h.find_none]
          rfl
  | append_singleton pre r ih =>
      rw [List.append_assoc, List.singleton_append] at h ⊢
      rw [List.length_append, List.length_singleton] at hfuel
      by_cases hr : L.owner r = k
      · subst hr
        obtain ⟨fuel, rfl⟩ : ∃ n, fuel = n + 1 := ⟨fuel - 1, by omega⟩
        have hprev := h.prev pre r post rfl
        rw [last_snoc_self, own_snoc_self, List.reverse_append, follow, h.find_num]
        show r :: L.follow (pre ++ r :: post) fuel (L.prev r) = r :: (L.own pre (L.owner r)).reverse
        rw [hprev, ih h (by omega)]
      · rw [last_snoc_other hr, own_snoc_other hr]
        exact ih h (by omega)

/-- **The links** lead from the last element of an owner through all its elements, last first. -/
theorem Threaded.follow_last (h : L.Threaded log) {fuel : Nat} (hfuel : log.length ≤ fuel) (k : κ) :
    L.follow log fuel (L.last log k) = (L.own log k).reverse := by
  have hnil : L.Threaded (log ++ []) := by rwa [List.append_nil]
  have hprefix := hnil.follow_prefix hfuel (k := k)
  rwa [List.append_nil] at hprefix

/-- The numbers increase. -/
theorem Threaded.increasing (h : L.Threaded log) : (log.map L.num).Pairwise (· < ·) := by
  rw [h.num, List.pairwise_map]
  exact List.pairwise_lt_range.imp fun hab => Int.ofNat_lt.mpr hab

/-- The numbers of an owner decrease along the links. -/
theorem Threaded.decreasing (h : L.Threaded log) (k : κ) : ((L.own log k).reverse.map L.num).Pairwise (· > ·) := by
  rw [List.map_reverse, List.pairwise_reverse]
  exact h.increasing.sublist (List.filter_sublist.map L.num)

/-! ## Several owners at once -/

variable (L) in
/-- The numbers increase, and each element names the one of its owner right before it. -/
structure Chained (log : List α) : Prop where
  increasing : (log.map L.num).Pairwise (· < ·)
  valid : ∀ r ∈ log, L.num r ≠ -1
  prev : ∀ pre r post, log = pre ++ r :: post → L.prev r = L.last pre (L.owner r)

variable (L) in
/-- The numbers of the last elements of the owners that meet `p`. -/
def Frontier (p : κ → Prop) (log : List α) (s : Finset Int) : Prop :=
  ∀ n, n ∈ s ↔ n ≠ -1 ∧ ∃ k, p k ∧ L.last log k = n

variable {p : κ → Prop} {s : Finset Int} {n : Int}

theorem Chained.num_lt {q : α} (h : L.Chained (pre ++ r :: post)) (hq : q ∈ pre) : L.num q < L.num r := by
  have hincreasing := h.increasing
  rw [List.map_append, List.map_cons, List.pairwise_append] at hincreasing
  exact hincreasing.2.2 _ (List.mem_map_of_mem hq) _ List.mem_cons_self

theorem Chained.nil : L.Chained [] := ⟨List.Pairwise.nil, fun _ h => (by cases h), fun pre r post h => by cases pre <;> cases h⟩

/-- **One more element**, with a larger number. -/
theorem Chained.snoc (h : L.Chained log) (hnum : ∀ q ∈ log, L.num q < L.num r) (hvalid : L.num r ≠ -1)
    (hprev : L.prev r = L.last log (L.owner r)) : L.Chained (log ++ [r]) := by
  constructor
  · rw [List.map_append, List.map_singleton, List.pairwise_append]
    refine ⟨h.increasing, List.pairwise_singleton _ _, ?_⟩
    rintro n hn m hm
    obtain ⟨q, hq, rfl⟩ := List.mem_map.mp hn
    rw [List.mem_singleton.mp hm]
    exact hnum q hq
  · rintro q hq
    rcases List.mem_append.mp hq with hq | hq
    · exact h.valid q hq
    · rwa [List.mem_singleton.mp hq]
  · exact Slots.forall_split_snoc h.prev hprev

/-- No later element has the same number. -/
theorem Chained.num_ne {q : α} (h : L.Chained (pre ++ r :: post)) (hq : q ∈ post) : L.num q ≠ L.num r := by
  obtain ⟨as, bs, rfl⟩ := List.append_of_mem hq
  rw [show pre ++ r :: (as ++ q :: bs) = (pre ++ r :: as) ++ q :: bs by simp] at h
  exact ne_of_gt (h.num_lt (by simp))

/-- The last element of an owner is an element. -/
theorem last_mem (h : L.last log k ≠ -1) : ∃ r ∈ log, L.num r = L.last log k := by
  cases hlast : (L.own log k).getLast? with
  | none =>
      rw [last, hlast] at h
      exact absurd rfl h
  | some r =>
      refine ⟨r, (List.mem_filter.mp (List.mem_of_getLast? hlast)).1, ?_⟩
      rw [last, hlast]
      rfl

theorem Frontier.nil (h : L.Frontier p [] s) : n ∉ s := by
  rw [h]
  rintro ⟨hn, k, -, rfl⟩
  exact hn rfl

/-- An element of another owner is passed over. -/
theorem Frontier.skip (h : L.Frontier p (pre ++ [r]) s) (hr : ¬ p (L.owner r)) : L.Frontier p pre s := by
  intro n
  rw [h n]
  apply and_congr_right
  intro _
  apply exists_congr
  intro k
  apply and_congr_right
  intro hk
  rw [last_snoc_other (by rintro rfl; exact hr hk)]

/-- The last element, if it is of one of the owners, has the largest number. -/
theorem Frontier.max (h : L.Frontier p (pre ++ [r]) s) (hlog : L.Chained (pre ++ r :: post)) (hr : p (L.owner r)) :
    L.num r ∈ s ∧ ∀ n ∈ s, n ≤ L.num r := by
  constructor
  · rw [h]
    exact ⟨hlog.valid r (by simp), L.owner r, hr, last_snoc_self pre r⟩
  · intro n hn
    obtain ⟨hvalid, k, -, rfl⟩ := (h n).mp hn
    obtain ⟨q, hq, hnum⟩ := last_mem hvalid
    rw [← hnum]
    rcases List.mem_append.mp hq with hq | hq
    · exact le_of_lt (hlog.num_lt hq)
    · rw [List.mem_singleton.mp hq]

/-- The element that it names takes its place. -/
theorem Frontier.step (h : L.Frontier p (pre ++ [r]) s) (hlog : L.Chained (pre ++ r :: post)) (hr : p (L.owner r)) :
    L.Frontier p pre (if L.prev r ≠ -1 then insert (L.prev r) (s.erase (L.num r)) else s.erase (L.num r)) := by
  have hprev := hlog.prev pre r post rfl
  -- what is in the set after the largest number has made room for the one before it
  have hmem : ∀ n, n ∈ (if L.prev r ≠ -1 then insert (L.prev r) (s.erase (L.num r)) else s.erase (L.num r)) ↔
      (n ≠ -1 ∧ n = L.prev r) ∨ (n ≠ L.num r ∧ n ∈ s) := by
    intro n
    split
    · rename_i hne
      rw [Finset.mem_insert, Finset.mem_erase]
      apply or_congr_left
      exact (and_iff_right_of_imp (by rintro rfl; exact hne)).symm
    · rename_i hinvalid
      rw [Finset.mem_erase, or_iff_right]
      rintro ⟨hne, rfl⟩
      exact hinvalid hne
  intro n
  rw [hmem, h n]
  constructor
  · rintro (⟨hvalid, rfl⟩ | ⟨hne, hvalid, k, hk, rfl⟩)
    · exact ⟨hvalid, L.owner r, hr, hprev.symm⟩
    · have hother : L.owner r ≠ k := by
        rintro rfl
        exact hne (last_snoc_self pre r)
      exact ⟨hvalid, k, hk, (last_snoc_other hother).symm⟩
  · rintro ⟨hvalid, k, hk, rfl⟩
    by_cases hrk : L.owner r = k
    · subst hrk
      exact Or.inl ⟨hvalid, hprev.symm⟩
    -- an element of another owner had a smaller number already
    · obtain ⟨q, hq, hnum⟩ := last_mem hvalid
      have hlt := hlog.num_lt hq
      rw [hnum] at hlt
      exact Or.inr ⟨ne_of_lt hlt, hvalid, k, hk, last_snoc_other hrk⟩

end BackLinks
end DDBMS
