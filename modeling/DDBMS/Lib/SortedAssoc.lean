import Mathlib.Order.Defs.LinearOrder
import Mathlib.Data.List.Pairwise
import Mathlib.Tactic.Order

/-!
# `Lib.SortedAssoc` — association lists with strictly increasing keys

The abstract value of an ordered map: a list of pairs whose keys strictly increase. `put` and `erase` keep the
order, and `List.lookup` sees exactly one change. `lookup_split` locates a key in a list that is cut in two,
and `lookup_flatten` in a list cut into many pieces by the last key of each.

Keys are any linear order, values are anything.
-/

namespace DDBMS
namespace SortedAssoc

universe u v

variable {κ : Type u} {ν : Type v} [LinearOrder κ]

/-- The keys strictly increase. -/
def Sorted (l : List (κ × ν)) : Prop := l.Pairwise (fun a b => a.1 < b.1)

/-- Insert a pair in its place, over an old one with the same key. -/
def put (k : κ) (v : ν) : List (κ × ν) → List (κ × ν)
  | [] => [(k, v)]
  | e :: l => if e.1 < k then e :: put k v l else if e.1 = k then (k, v) :: l else (k, v) :: e :: l

/-- Remove a key. -/
def erase (k : κ) (l : List (κ × ν)) : List (κ × ν) := l.filter (fun e => e.1 ≠ k)

/-! ## Lists cut at a key -/

section Split

variable {k : κ} {v : ν} {lo hi : List (κ × ν)}

theorem put_append (hlo : ∀ e ∈ lo, e.1 < k) : put k v (lo ++ hi) = lo ++ put k v hi := by
  induction lo with
  | nil => rfl
  | cons e lo ih =>
      rw [List.cons_append, put, if_pos (hlo e List.mem_cons_self),
        ih (fun e he => hlo e (List.mem_cons_of_mem _ he))]
      rfl

theorem put_of_gt (hhi : ∀ e ∈ hi, k < e.1) : put k v hi = (k, v) :: hi := by
  cases hi with
  | nil => rfl
  | cons e hi =>
      have hk := hhi e List.mem_cons_self
      rw [put, if_neg (not_lt_of_gt hk), if_neg (ne_of_gt hk)]

theorem put_cons_self {w : ν} : put k v ((k, w) :: hi) = (k, v) :: hi := by
  rw [put, if_neg (lt_irrefl k), if_pos rfl]

theorem erase_append : erase k (lo ++ hi) = erase k lo ++ erase k hi := List.filter_append ..

theorem erase_of_ne (h : ∀ e ∈ hi, e.1 ≠ k) : erase k hi = hi :=
  List.filter_eq_self.mpr (fun e he => by simpa using h e he)

theorem erase_cons_self {w : ν} : erase k ((k, w) :: hi) = erase k hi := by simp [erase]

variable [BEq κ] [LawfulBEq κ]

omit [LinearOrder κ] in
theorem lookup_of_ne (h : ∀ e ∈ hi, e.1 ≠ k) : hi.lookup k = none := by
  rw [List.lookup_eq_none_iff]
  intro e he
  simpa using (h e he).symm

/-- Nothing below the key matters. -/
theorem lookup_split (hlo : ∀ e ∈ lo, e.1 < k) : (lo ++ hi).lookup k = hi.lookup k := by
  rw [List.lookup_append, lookup_of_ne (fun e he => ne_of_lt (hlo e he))]
  rfl

theorem lookup_of_gt (hhi : ∀ e ∈ hi, k < e.1) : hi.lookup k = none :=
  lookup_of_ne (fun e he => ne_of_gt (hhi e he))

theorem lookup_of_mem {l : List (κ × ν)} (h : Sorted l) (hmem : (k, v) ∈ l) : l.lookup k = some v := by
  obtain ⟨lo, hi, rfl⟩ := List.append_of_mem hmem
  have hlo : ∀ e ∈ lo, e.1 < k := fun e he => (List.pairwise_append.mp h).2.2 e he _ List.mem_cons_self
  rw [lookup_split hlo, List.lookup_cons_self]

end Split

/-! ## Looking up after a change -/

section Lookup

variable [BEq κ] [LawfulBEq κ]

theorem lookup_put_self (k : κ) (v : ν) (l : List (κ × ν)) : (put k v l).lookup k = some v := by
  induction l with
  | nil => simp [put]
  | cons e l ih =>
      rw [put]
      split
      · rename_i h
        rw [List.lookup_cons, beq_eq_false_iff_ne.mpr (ne_of_gt h)]
        exact ih
      · split <;> simp

theorem lookup_put_ne {k j : κ} (h : j ≠ k) (v : ν) (l : List (κ × ν)) :
    (put k v l).lookup j = l.lookup j := by
  have hj : (j == k) = false := beq_eq_false_iff_ne.mpr h
  induction l with
  | nil => simp [put, h]
  | cons e l ih =>
      obtain ⟨x, w⟩ := e
      rw [put]
      split
      · rw [List.lookup_cons, List.lookup_cons, ih]
      · split
        · rename_i hx
          obtain rfl : x = k := hx
          rw [List.lookup_cons, List.lookup_cons, hj]
        · rw [List.lookup_cons, hj]

theorem lookup_erase_self (k : κ) (l : List (κ × ν)) : (erase k l).lookup k = none :=
  lookup_of_ne (fun e he => by simpa using (List.mem_filter.mp he).2)

theorem lookup_erase_ne {k j : κ} (h : j ≠ k) (l : List (κ × ν)) : (erase k l).lookup j = l.lookup j := by
  induction l with
  | nil => rfl
  | cons e l ih =>
      obtain ⟨x, w⟩ := e
      by_cases hx : x = k
      · subst hx
        rw [erase_cons_self, ih, List.lookup_cons, beq_eq_false_iff_ne.mpr h]
      · have : erase k ((x, w) :: l) = (x, w) :: erase k l := by simp [erase, hx]
        rw [this, List.lookup_cons, List.lookup_cons, ih]

end Lookup

/-! ## Order -/

theorem mem_put {k : κ} {v : ν} {l : List (κ × ν)} {e : κ × ν} (h : e ∈ put k v l) :
    e = (k, v) ∨ e ∈ l := by
  induction l with
  | nil => exact Or.inl (by simpa [put] using h)
  | cons a l ih =>
      rw [put] at h
      split at h
      · rcases List.mem_cons.mp h with h | h
        · exact Or.inr (by simp [h])
        · exact (ih h).imp_right (List.mem_cons_of_mem _)
      · split at h <;> rcases List.mem_cons.mp h with h | h
        · exact Or.inl h
        · exact Or.inr (List.mem_cons_of_mem _ h)
        · exact Or.inl h
        · exact Or.inr h

theorem sorted_put {k : κ} {v : ν} {l : List (κ × ν)} (h : Sorted l) : Sorted (put k v l) := by
  induction l with
  | nil => simp [put, Sorted]
  | cons e l ih =>
      obtain ⟨hhead, htail⟩ := List.pairwise_cons.mp h
      rw [put]
      split
      · rename_i he
        refine List.pairwise_cons.mpr ⟨?_, ih htail⟩
        intro a ha
        rcases mem_put ha with rfl | ha
        · exact he
        · exact hhead a ha
      · split
        · rename_i he
          refine List.pairwise_cons.mpr ⟨?_, htail⟩
          intro a ha
          have := hhead a ha
          rwa [he] at this
        · rename_i h1 h2
          have hke : k < e.1 := lt_of_le_of_ne (not_lt.mp h1) (Ne.symm h2)
          refine List.pairwise_cons.mpr ⟨?_, h⟩
          intro a ha
          rcases List.mem_cons.mp ha with rfl | ha
          · exact hke
          · exact lt_trans hke (hhead a ha)

section Keys

variable {μ : Type*}

/-- The keys after `put` depend on the keys only. -/
theorem keys_put {l : List (κ × ν)} {l' : List (κ × μ)} (h : l.map Prod.fst = l'.map Prod.fst) (k : κ) (v : ν)
    (v' : μ) : (put k v l).map Prod.fst = (put k v' l').map Prod.fst := by
  induction l generalizing l' with
  | nil =>
      obtain rfl : l' = [] := by simpa using h.symm
      rfl
  | cons e l ih =>
      cases l' with
      | nil => cases h
      | cons e' l' =>
          obtain ⟨he, hl⟩ := List.cons.inj h
          rw [put, put, he]
          split
          · rw [List.map_cons, List.map_cons, he, ih hl]
          · split <;> simp only [List.map_cons, he, hl]

theorem map_fst_erase (l : List (κ × ν)) (k : κ) :
    (erase k l).map Prod.fst = (l.map Prod.fst).filter (· ≠ k) := by
  rw [erase, List.filter_map]
  rfl

/-- So do the keys after `erase`. -/
theorem keys_erase {l : List (κ × ν)} {l' : List (κ × μ)} (h : l.map Prod.fst = l'.map Prod.fst) (k : κ) :
    (erase k l).map Prod.fst = (erase k l').map Prod.fst := by
  rw [map_fst_erase, map_fst_erase, h]

end Keys

section Lookup

variable [BEq κ] [LawfulBEq κ]

/-! ## Lists cut into pieces -/

/-- A sorted list is cut into non-empty pieces; the piece a key belongs to is the first one whose last key is
    not below it. `last` may be any function that gives a largest key of each piece. -/
theorem lookup_flatten {bs : List (List (κ × ν))} {last : List (κ × ν) → κ} (h : Sorted bs.flatten)
    (hlast : ∀ b ∈ bs, (∃ e ∈ b, e.1 = last b) ∧ ∀ e ∈ b, e.1 ≤ last b) (k : κ) :
    bs.flatten.lookup k = (bs.find? (fun b => k ≤ last b)).bind (List.lookup k) := by
  induction bs with
  | nil => rfl
  | cons b bs ih =>
      rw [List.flatten_cons] at h ⊢
      obtain ⟨-, hrest, hcross⟩ := List.pairwise_append.mp h
      obtain ⟨⟨e, he, hel⟩, hle⟩ := hlast b List.mem_cons_self
      by_cases hk : k ≤ last b
      · rw [List.find?_cons_of_pos (by simpa using hk), Option.bind_some, List.lookup_append]
        have hnone : bs.flatten.lookup k = none := by
          refine lookup_of_gt (fun a ha => lt_of_le_of_lt hk ?_)
          rw [← hel]
          exact hcross e he a ha
        rw [hnone, Option.or_none]
      · rw [List.find?_cons_of_neg (by simpa using hk),
          lookup_split (fun a ha => lt_of_le_of_lt (hle a ha) (not_le.mp hk))]
        exact ih hrest (fun a ha => hlast a (List.mem_cons_of_mem _ ha))

end Lookup

end SortedAssoc
end DDBMS
