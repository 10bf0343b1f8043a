import Mathlib.Data.List.Basic

/-!
# `Lib.Slots` — lists whose members keep their numbers

The calls, the clients and the plans of a system, and its history. A member joins at the end, or one member is replaced
where it stands; no member leaves. The lemmas here say where a member of the list after the step comes from. A proof about
a step then splits into the member that moved, which the step is about, and the others, which stand where they stood.
-/

namespace DDBMS
namespace Slots

universe u

variable {α : Type u} {l : List α} {i j : Nat} {x x' y : α}

/-- **One member is replaced.** -/
theorem get_set (hy : (l.set i x')[j]? = some y) : (j = i ∧ y = x') ∨ (j ≠ i ∧ l[j]? = some y) := by
  by_cases hj : j = i
  · subst hj
    rw [List.getElem?_set_self'] at hy
    obtain ⟨x, -, rfl⟩ := Option.map_eq_some_iff.mp hy
    exact Or.inl ⟨rfl, rfl⟩
  · rw [List.getElem?_set_ne (Ne.symm hj)] at hy
    exact Or.inr ⟨hj, hy⟩

theorem get_set_self (hx : l[i]? = some x) : (l.set i x')[i]? = some x' :=
  List.getElem?_set_self (List.getElem?_eq_some_iff.mp hx).1

theorem mem_set_self (hx : l[i]? = some x) : x' ∈ l.set i x' := List.mem_of_getElem? (get_set_self hx)

/-- A member that is replaced by itself. -/
theorem set_self (hx : l[i]? = some x) : l.set i x = l := by
  obtain ⟨hlt, rfl⟩ := List.getElem?_eq_some_iff.mp hx
  exact List.set_getElem_self hlt

/-- **One member joins.** -/
theorem get_snoc (hy : (l ++ [x])[j]? = some y) : l[j]? = some y ∨ (j = l.length ∧ y = x) := by
  rw [List.getElem?_append] at hy
  split at hy
  · exact Or.inl hy
  · obtain ⟨hlt, hget⟩ := List.getElem?_eq_some_iff.mp hy
    rw [List.length_singleton] at hlt
    rw [List.getElem_singleton] at hget
    exact Or.inr ⟨by omega, hget.symm⟩

/-- What stands before a member of a list that has grown. -/
theorem split_snoc {pre post : List α} (h : l ++ [x] = pre ++ y :: post) :
    (post = [] ∧ pre = l ∧ y = x) ∨ ∃ post', post = post' ++ [x] ∧ l = pre ++ y :: post' := by
  rcases List.eq_nil_or_concat post with rfl | ⟨post, z, rfl⟩
  · obtain ⟨rfl, hyx⟩ := List.append_inj' h rfl
    exact Or.inl ⟨rfl, rfl, (List.cons.inj hyx).1.symm⟩
  · rw [List.concat_eq_append, ← List.cons_append, ← List.append_assoc] at h
    obtain ⟨hl, hxz⟩ := List.append_inj' h rfl
    obtain rfl := (List.cons.inj hxz).1
    exact Or.inr ⟨post, List.concat_eq_append, hl⟩

/-- **Induction step**: what holds of each member and of what stands before it. -/
theorem forall_split_snoc {P : List α → α → Prop} (h : ∀ pre y post, l = pre ++ y :: post → P pre y) (hx : P l x) :
    ∀ pre y post, l ++ [x] = pre ++ y :: post → P pre y := by
  intro pre y post heq
  rcases split_snoc heq with ⟨-, rfl, rfl⟩ | ⟨post', -, hl⟩
  · exact hx
  · exact h pre y post' hl

end Slots
end DDBMS
