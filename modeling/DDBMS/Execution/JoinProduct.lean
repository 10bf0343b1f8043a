import Mathlib.Algebra.Order.BigOperators.Group.List
import DDBMS.Execution.Operators

/-!
# `Execution.JoinProduct` — what a join returns

A join should return the product of its tables. `op_join::exec_op` never clears `tmp`, so from the third table on each step
returns the records of the step before it once more. Two tables are joined right, and more of them only where the first step
leaves no record at all; in every other case the result is longer than the product.
-/

namespace DDBMS
namespace op_join

/-- One record of each table, in lexicographic order of the positions. -/
def product : List (List record) → List record
  | [] => [⟨[]⟩]
  | tab :: ret => tab.flatMap fun r => (product ret).map fun s => ⟨r.row ++ s.row⟩

@[simp] theorem product_nil : product [] = [⟨[]⟩] := rfl

theorem product_cons (tab : List record) (ret : List (List record)) :
    product (tab :: ret) = pairs tab (product ret) := rfl

/-! ## Sizes -/

theorem length_pairs (res tab : List record) : (pairs res tab).length = res.length * tab.length := by
  simp [pairs, List.length_flatMap]

theorem length_product (ret : List (List record)) : (product ret).length = (ret.map List.length).prod := by
  induction ret with
  | nil => rfl
  | cons tab ret ih => rw [product_cons, length_pairs, ih, List.map_cons, List.prod_cons]

/-- A step keeps the records of the step before it, so a table of `n` records makes the result `n + 1` times as long. -/
theorem length_join (res : List record) (ret : List (List record)) :
    (join res res ret).length = res.length * (ret.map fun tab => tab.length + 1).prod := by
  induction ret generalizing res with
  | nil => simp [join]
  | cons tab ret ih =>
    have step : (res ++ pairs res tab).length = res.length * (tab.length + 1) := by
      rw [List.length_append, length_pairs, Nat.mul_succ, Nat.add_comm]
    rw [join, ih, step, List.map_cons, List.prod_cons, Nat.mul_assoc]

theorem prod_length_pos (ret : List (List record)) : 0 < (ret.map fun tab => tab.length + 1).prod := by
  induction ret with
  | nil => simp
  | cons tab ret ih =>
    rw [List.map_cons, List.prod_cons]
    exact Nat.mul_pos (Nat.succ_pos _) ih

theorem prod_length_lt {ret : List (List record)} (h : ret ≠ []) :
    (ret.map List.length).prod < (ret.map fun tab => tab.length + 1).prod := by
  induction ret with
  | nil => exact absurd rfl h
  | cons tab ret ih =>
    rw [List.map_cons, List.prod_cons, List.map_cons, List.prod_cons]
    have hle : (ret.map List.length).prod ≤ (ret.map fun tab => tab.length + 1).prod := by
      by_cases hret : ret = []
      · rw [hret]; exact Nat.le_refl _
      · exact Nat.le_of_lt (ih hret)
    calc tab.length * (ret.map List.length).prod
        ≤ tab.length * (ret.map fun tab => tab.length + 1).prod := Nat.mul_le_mul_left _ hle
      _ < (tab.length + 1) * (ret.map fun tab => tab.length + 1).prod :=
          Nat.mul_lt_mul_of_pos_right (Nat.lt_succ_self _) (prod_length_pos ret)

/-! ## At most two tables -/

theorem pairs_nil_right (res : List record) : pairs res [⟨[]⟩] = res := by
  simp [pairs]

theorem pairs_nil_left (tab : List record) : pairs [] tab = [] := rfl

theorem product_singleton (tab : List record) : product [tab] = tab := by
  rw [product_cons, product_nil, pairs_nil_right]

theorem join_nil (ret : List (List record)) : join [] [] ret = [] := by
  induction ret with
  | nil => rfl
  | cons tab ret ih => rw [join, pairs_nil_left, List.append_nil, ih]

/-- The first step: `tmp` is empty before it. -/
theorem join_first (tab tab' : List record) (ret : List (List record)) :
    join tab [] (tab' :: ret) = join (pairs tab tab') (pairs tab tab') ret := rfl

theorem length_product_pair (tab tab' : List record) (ret : List (List record)) :
    (product (tab :: tab' :: ret)).length = (pairs tab tab').length * (ret.map List.length).prod := by
  rw [product_cons, length_pairs, product_cons, length_pairs, length_product, length_pairs, Nat.mul_assoc]

/-- From the third table on the result is too long, unless nothing came out of the first step. -/
theorem join_eq_product_iff_pairs (tab tab' : List record) (ret : List (List record)) :
    join tab [] (tab' :: ret) = product (tab :: tab' :: ret) ↔ ret = [] ∨ pairs tab tab' = [] := by
  rw [join_first]
  constructor
  · intro h
    by_contra hne
    obtain ⟨hret, hpairs⟩ := not_or.mp hne
    have hlen := congrArg List.length h
    rw [length_join, length_product_pair] at hlen
    exact absurd (Nat.eq_of_mul_eq_mul_left (List.length_pos_iff.mpr hpairs) hlen) (Nat.ne_of_gt (prod_length_lt hret))
  · rintro (rfl | hpairs)
    · rw [product_cons, product_singleton]
      rfl
    · have hlen := length_product_pair tab tab' ret
      rw [hpairs, List.length_nil, Nat.zero_mul] at hlen
      rw [hpairs, join_nil, List.eq_nil_of_length_eq_zero hlen]

theorem pairs_eq_nil_iff (res tab : List record) : pairs res tab = [] ↔ res = [] ∨ tab = [] := by
  rw [← List.length_eq_zero_iff, length_pairs, Nat.mul_eq_zero, List.length_eq_zero_iff, List.length_eq_zero_iff]

/-- There are at most two tables, or one of the first two has no records. -/
def FewTables (ret : List (List record)) : Prop := ret.length ≤ 2 ∨ ret[0]? = some [] ∨ ret[1]? = some []

theorem exec_op_eq_product_iff {ret : List (List record)} (hne : ret ≠ []) :
    exec_op ret = some (product ret) ↔ FewTables ret := by
  match ret with
  | [] => exact absurd rfl hne
  | [tab] => simp [exec_op, join, product_singleton, FewTables]
  | tab :: tab' :: ret =>
    have hexec : exec_op (tab :: tab' :: ret) = some (join tab [] (tab' :: ret)) := rfl
    rw [hexec, Option.some_inj, join_eq_product_iff_pairs, pairs_eq_nil_iff]
    simp [FewTables]

end op_join

/-! ## The operator -/

/-- The join returns the product of what its tables return, and so as many records as their sizes make. -/
def op_join.ReturnsProduct (send_plan : SendPlan) (tables_get : List Operators) (ret : List (List record)) : Prop :=
  ∃ res, (Operators.op_join tables_get).exec_op send_plan = some res ∧ res = op_join.product ret ∧
    res.length = (ret.map List.length).prod

theorem op_join.returns_product_iff (send_plan : SendPlan) (tables_get : List Operators) (ret : List (List record))
    (hret : Operators.execAll send_plan tables_get = some ret) (hne : ret ≠ []) :
    op_join.ReturnsProduct send_plan tables_get ret ↔ op_join.FewTables ret := by
  have hexec : (Operators.op_join tables_get).exec_op send_plan = op_join.exec_op ret := by
    rw [Operators.exec_op, hret, Option.bind_some]
  rw [← op_join.exec_op_eq_product_iff hne, ← hexec]
  constructor
  · rintro ⟨res, hres, rfl, -⟩
    exact hres
  · intro h
    exact ⟨_, h, rfl, op_join.length_product ret⟩

/-- A table `t` with the numbers 1 and 2 in its column `id`, which it returns whole. -/
def op_join.numbers : List record := [⟨[⟨.integer, [105, 100], [116], [49], 4⟩]⟩, ⟨[⟨.integer, [105, 100], [116], [50], 4⟩]⟩]

theorem op_join.returns_product_iff_two :
    op_join.ReturnsProduct (fun _ _ => none)
        [.op_tablescan op_join.numbers [] [116] 0, .op_tablescan op_join.numbers [] [116] 0]
        [op_join.numbers, op_join.numbers] :=
  (op_join.returns_product_iff _ _ _ rfl (List.cons_ne_nil _ _)).mpr (Or.inl (Nat.le_refl 2))

/-- Three such tables: 12 records instead of 8. -/
theorem op_join.joins_twice :
    Operators.execAll (fun _ _ => none) (List.replicate 3 (.op_tablescan op_join.numbers [] [116] 0)) =
        some (List.replicate 3 op_join.numbers) ∧
      ¬ op_join.ReturnsProduct (fun _ _ => none) (List.replicate 3 (.op_tablescan op_join.numbers [] [116] 0))
        (List.replicate 3 op_join.numbers) := by
  refine ⟨rfl, ?_⟩
  rintro ⟨res, hres, -, hlen⟩
  have hres' : some (op_join.join op_join.numbers [] [op_join.numbers, op_join.numbers]) = some res := hres
  rw [← Option.some_inj.mp hres'] at hlen
  exact absurd hlen (by decide)

end DDBMS
