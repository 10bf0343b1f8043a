import DDBMS.Execution.Operators

/-!
# `Execution.SelectionRows` — what a selection keeps

A selection should keep the records that meet its condition. `op_selection::exec_op` finds the positions of the columns in
the first record, and then looks for equal values, whatever the operator of the condition is. So it reads a record that is
not there when it gets none, and it is right about the others only where equality says the same as the operator.
-/

namespace DDBMS

/-- `a op b` -/
def ast.SvCompOp.rel {α : Type} [LinearOrder α] (a b : α) : ast.SvCompOp → Bool
  | .SV_OP_EQ => a = b
  | .SV_OP_NE => a ≠ b
  | .SV_OP_LT => a < b
  | .SV_OP_GT => b < a
  | .SV_OP_LE => a ≤ b
  | .SV_OP_GE => b ≤ a

/-- The operator says about `a` and `b` what `=` says. -/
def ast.SvCompOp.AsEq {α : Type} [LinearOrder α] (a b : α) : ast.SvCompOp → Prop
  | .SV_OP_EQ => True
  | .SV_OP_NE => False
  | .SV_OP_LT => b < a
  | .SV_OP_GT => a < b
  | .SV_OP_LE => b ≤ a
  | .SV_OP_GE => a ≤ b

section

variable {α : Type} [LinearOrder α] {a b : α}

theorem eq_iff_lt_iff : (a = b ↔ a < b) ↔ b < a := by
  constructor
  · intro h
    rcases lt_trichotomy a b with hlt | heq | hgt
    · exact absurd (h.mpr hlt) hlt.ne
    · exact absurd heq (h.mp heq).ne
    · exact hgt
  · exact fun h => ⟨fun heq => absurd heq h.ne', fun hlt => absurd hlt h.not_gt⟩

theorem eq_iff_le_iff : (a = b ↔ a ≤ b) ↔ b ≤ a := by
  constructor
  · intro h
    rcases le_total a b with hle | hge
    · exact (h.mpr hle).ge
    · exact hge
  · exact fun h => ⟨fun heq => heq.le, fun hle => le_antisymm hle h⟩

theorem ast.SvCompOp.rel_eq_iff [Decidable (a = b)] (op : ast.SvCompOp) : decide (a = b) = op.rel a b ↔ op.AsEq a b := by
  rw [Bool.eq_iff_iff, decide_eq_true_eq]
  cases op with
  | SV_OP_EQ => simp [rel, AsEq]
  | SV_OP_NE => simp [rel, AsEq]
  | SV_OP_LT => rw [rel, decide_eq_true_eq, eq_iff_lt_iff, AsEq]
  | SV_OP_GT => rw [rel, decide_eq_true_eq, eq_comm, eq_iff_lt_iff, AsEq]
  | SV_OP_LE => rw [rel, decide_eq_true_eq, eq_iff_le_iff, AsEq]
  | SV_OP_GE => rw [rel, decide_eq_true_eq, eq_comm, eq_iff_le_iff, AsEq]

end

namespace op_selection

/-- The value of a column; of two with the same name the last one. -/
def valueOf (col : ast.Col) (r : record) : Option value := r.row.reverse.find? fun v => v.isOf col

/-- The record meets the condition: columns are compared as strings, a column and a literal as numbers. -/
def meets (conds : ast.BinaryExpr) (r : record) : Bool :=
  match valueOf conds.lhs r, conds.rhs with
  | some lf, .Col x => (valueOf x r).any fun rg => conds.op.rel lf.str rg.str
  | some lf, .IntLit val => conds.op.rel (numberOf lf.str) val.toInt
  | _, _ => false

/-! ## The positions of the columns -/

theorem valueOf_cons (col : ast.Col) (v : value) (row : List value) :
    valueOf col ⟨v :: row⟩ = (valueOf col ⟨row⟩).or (if v.isOf col then some v else none) := by
  simp only [valueOf, List.reverse_cons, List.find?_append, List.find?_singleton]

/-- The loop ends at the value of the column, or leaves the index as it is when there is none. -/
theorem indexFrom_valueOf (col : ast.Col) (row : List value) (i index : Nat) :
    (valueOf col ⟨row⟩ = none ∧ indexFrom col row i index = index) ∨
      ∃ j v, valueOf col ⟨row⟩ = some v ∧ row[j]? = some v ∧ indexFrom col row i index = i + j := by
  induction row generalizing i index with
  | nil => exact Or.inl ⟨rfl, rfl⟩
  | cons v row ih =>
    rw [indexFrom, valueOf_cons]
    obtain ⟨hnone, hindex⟩ | ⟨j, v', hv', hj, hindex⟩ := ih (i + 1) (if v.isOf col then i else index)
    · rw [hnone, hindex, Option.none_or]
      by_cases hv : v.isOf col
      · rw [if_pos hv, if_pos hv]
        exact Or.inr ⟨0, v, rfl, rfl, rfl⟩
      · rw [if_neg hv, if_neg hv]
        exact Or.inl ⟨rfl, rfl⟩
    · rw [hv', hindex, Option.some_or]
      exact Or.inr ⟨j + 1, v', rfl, hj, by omega⟩

theorem valueOf_isSome {col : ast.Col} {r : record} (h : col ∈ r.cols) : ∃ v, valueOf col r = some v := by
  obtain ⟨v, hv, hcol⟩ := List.mem_map.mp h
  rw [← Option.isSome_iff_exists, valueOf, List.find?_isSome]
  exact ⟨v, List.mem_reverse.mpr hv, value.isOf_iff.mpr hcol⟩

theorem getElem_indexOf {col : ast.Col} {r : record} (h : col ∈ r.cols) :
    ∃ v, valueOf col r = some v ∧ r.row[indexOf col r.row]? = some v := by
  obtain ⟨v, hv⟩ := valueOf_isSome h
  obtain ⟨hnone, -⟩ | ⟨j, v', hv', hj, hindex⟩ := indexFrom_valueOf col r.row 0 0
  · exact absurd (hnone.symm.trans hv) (Option.some_ne_none v).symm
  · rw [indexOf, hindex, Nat.zero_add]
    exact ⟨v', hv', hj⟩

/-- The position depends on the columns only. -/
theorem indexFrom_congr {col : ast.Col} {row row' : List value} (h : row.map value.col = row'.map value.col)
    (i index : Nat) : indexFrom col row i index = indexFrom col row' i index := by
  induction row generalizing row' i index with
  | nil => rw [List.map_eq_nil_iff.mp h.symm]
  | cons v row ih =>
    obtain ⟨v', row'', rfl, hv, hrow⟩ := List.map_eq_cons_iff.mp h.symm
    have hof : v.isOf col = v'.isOf col := by
      rw [Bool.eq_iff_iff, value.isOf_iff, value.isOf_iff, hv]
    rw [indexFrom, indexFrom, hof, ih hrow.symm]

/-- The first record finds the value of the column in every record. -/
theorem getElem_first {col : ast.Col} {first r : record} (hcols : r.cols = first.cols) (h : col ∈ r.cols) :
    ∃ v, valueOf col r = some v ∧ r.row[indexOf col first.row]? = some v := by
  have hindex : indexOf col first.row = indexOf col r.row := indexFrom_congr hcols.symm 0 0
  rw [hindex]
  exact getElem_indexOf h

/-! ## The loop over the records -/

theorem keep_eq_some_iff {test : record → Option Bool} {ret res : List record} :
    keep test ret = some res ↔ (∀ r ∈ ret, (test r).isSome) ∧ res = ret.filter fun r => test r = some true := by
  induction ret generalizing res with
  | nil =>
    constructor
    · intro h
      exact ⟨List.forall_mem_nil _, (Option.some_inj.mp h).symm⟩
    · rintro ⟨-, rfl⟩
      rfl
  | cons r ret ih =>
    cases hr : test r with
    | none => simp [keep, hr]
    | some b =>
      have hstep : keep test (r :: ret) = (keep test ret).map fun res => if b then r :: res else res := by
        cases hkeep : keep test ret <;> simp [keep, hr, hkeep]
      rw [hstep, Option.map_eq_some_iff]
      constructor
      · rintro ⟨res', hres', rfl⟩
        obtain ⟨hall, rfl⟩ := ih.mp hres'
        exact ⟨List.forall_mem_cons.mpr ⟨by rw [hr]; rfl, hall⟩, by cases b <;> simp [hr]⟩
      · rintro ⟨hall, rfl⟩
        exact ⟨_, ih.mpr ⟨(List.forall_mem_cons.mp hall).2, rfl⟩, by cases b <;> simp [hr]⟩

theorem filter_eq_filter_iff {p q : record → Bool} {ret : List record} :
    ret.filter p = ret.filter q ↔ ∀ r ∈ ret, p r = q r := by
  constructor
  · intro h r hr
    have hmem : r ∈ ret.filter p ↔ r ∈ ret.filter q := by rw [h]
    rwa [List.mem_filter, List.mem_filter, and_iff_right hr, and_iff_right hr, ← Bool.eq_iff_iff] at hmem
  · exact List.filter_congr

theorem keep_eq_filter_iff {test : record → Option Bool} {p : record → Bool} {ret : List record} :
    keep test ret = some (ret.filter p) ↔ ∀ r ∈ ret, test r = some (p r) := by
  rw [keep_eq_some_iff, filter_eq_filter_iff, ← forall₂_and]
  refine forall₂_congr fun r _ => ?_
  cases hr : test r with
  | none => simp
  | some b => cases b <;> cases hp : p r <;> simp

/-! ## The two kinds of conditions -/

/-- The rows have the same columns, the columns of the condition occur, and its right side is a column or a number. -/
structure Applies (conds : ast.BinaryExpr) (ret : List record) : Prop where
  uniform : ∀ r ∈ ret, ∀ s ∈ ret, r.cols = s.cols
  lhs : ∀ r ∈ ret, conds.lhs ∈ r.cols
  rhs : ∀ x, conds.rhs = .Col x → ∀ r ∈ ret, x ∈ r.cols
  comparable : (∃ x, conds.rhs = .Col x) ∨ ∃ val, conds.rhs = .IntLit val

/-- In this record equality says what the condition says, and a number to compare is one that `atoi` can return. -/
def EqDecides (conds : ast.BinaryExpr) (r : record) : Prop :=
  match valueOf conds.lhs r, conds.rhs with
  | some lf, .Col x => ∀ rg ∈ valueOf x r, conds.op.AsEq lf.str rg.str
  | some lf, .IntLit val =>
    (Int32.minValue.toInt ≤ numberOf lf.str ∧ numberOf lf.str ≤ Int32.maxValue.toInt) ∧
      conds.op.AsEq (numberOf lf.str) val.toInt
  | _, _ => False

/-- What the loop looks at in a record, given the first one. -/
def test (conds : ast.BinaryExpr) (first r : record) : Option Bool :=
  match conds.rhs with
  | .Col x => do
    let lf ← r.row[indexOf conds.lhs first.row]?
    let rg ← r.row[indexOf x first.row]?
    some (lf.str = rg.str)
  | .IntLit val => do
    let lf ← r.row[indexOf conds.lhs first.row]?
    let n ← atoi lf.str
    some (n = val)
  | _ => none

theorem exec_op_cons {conds : ast.BinaryExpr} {first : record} {ret : List record} (h : Applies conds (first :: ret)) :
    exec_op conds (first :: ret) = keep (test conds first) (first :: ret) := by
  obtain ⟨x, hx⟩ | ⟨val, hval⟩ := h.comparable
  · simp only [exec_op, hx, List.getElem?_cons_zero, Option.bind_eq_bind, Option.bind_some]
    refine congrArg (keep · _) (funext fun r => ?_)
    simp only [test, hx, Option.bind_eq_bind]
  · simp only [exec_op, hval, List.getElem?_cons_zero, Option.bind_eq_bind, Option.bind_some]
    refine congrArg (keep · _) (funext fun r => ?_)
    simp only [test, hval, Option.bind_eq_bind]

theorem exec_op_nil {conds : ast.BinaryExpr} (h : Applies conds []) : exec_op conds [] = none := by
  obtain ⟨x, hx⟩ | ⟨val, hval⟩ := h.comparable
  · simp [exec_op, hx]
  · simp [exec_op, hval]

theorem toInt_ofInt_of_fits {n : Int} (hlow : Int32.minValue.toInt ≤ n) (hhigh : n ≤ Int32.maxValue.toInt) :
    (Int32.ofInt n).toInt = n :=
  Int32.toInt_ofInt_of_le hlow (Int.lt_of_le_sub_one hhigh)

theorem test_column {conds : ast.BinaryExpr} {first r : record} {x : ast.Col} {lf rg : value} (hx : conds.rhs = .Col x)
    (hlf : valueOf conds.lhs r = some lf) (hlfrow : r.row[indexOf conds.lhs first.row]? = some lf)
    (hrg : valueOf x r = some rg) (hrgrow : r.row[indexOf x first.row]? = some rg) :
    test conds first r = some (meets conds r) ↔ EqDecides conds r := by
  have htest : test conds first r = some (decide (lf.str = rg.str)) := by
    simp only [test, hx, hlfrow, hrgrow, Option.bind_eq_bind, Option.bind_some]
  have hmeets : meets conds r = conds.op.rel lf.str rg.str := by
    simp only [meets, hlf, hx, hrg, Option.any_some]
  have hdecides : EqDecides conds r ↔ conds.op.AsEq lf.str rg.str := by
    simp only [EqDecides, hlf, hx, hrg, Option.mem_some_iff, forall_eq']
  rw [htest, hmeets, hdecides, Option.some_inj, ast.SvCompOp.rel_eq_iff]

theorem test_literal {conds : ast.BinaryExpr} {first r : record} {val : Int32} {lf : value} (hval : conds.rhs = .IntLit val)
    (hlf : valueOf conds.lhs r = some lf) (hlfrow : r.row[indexOf conds.lhs first.row]? = some lf) :
    test conds first r = some (meets conds r) ↔ EqDecides conds r := by
  have hmeets : meets conds r = conds.op.rel (numberOf lf.str) val.toInt := by
    simp only [meets, hlf, hval]
  have hdecides : EqDecides conds r ↔
      (Int32.minValue.toInt ≤ numberOf lf.str ∧ numberOf lf.str ≤ Int32.maxValue.toInt) ∧
        conds.op.AsEq (numberOf lf.str) val.toInt := by
    simp only [EqDecides, hlf, hval]
  rw [hmeets, hdecides]
  by_cases hfits : Int32.minValue.toInt ≤ numberOf lf.str ∧ numberOf lf.str ≤ Int32.maxValue.toInt
  · have heq : Int32.ofInt (numberOf lf.str) = val ↔ numberOf lf.str = val.toInt := by
      rw [← Int32.toInt_inj, toInt_ofInt_of_fits hfits.1 hfits.2]
    have htest : test conds first r = some (decide (numberOf lf.str = val.toInt)) := by
      simp only [test, hval, hlfrow, atoi, if_pos hfits, Option.bind_eq_bind, Option.bind_some, heq]
    rw [htest, Option.some_inj, ast.SvCompOp.rel_eq_iff, and_iff_right hfits]
  · have htest : test conds first r = none := by
      simp only [test, hval, hlfrow, atoi, if_neg hfits, Option.bind_eq_bind, Option.bind_some, Option.bind_none]
    rw [htest]
    exact ⟨fun hnone => absurd hnone (Option.some_ne_none _).symm, fun hand => absurd hand.1 hfits⟩

theorem test_eq_iff {conds : ast.BinaryExpr} {first r : record} {ret : List record} (h : Applies conds ret)
    (hfirst : first ∈ ret) (hr : r ∈ ret) : test conds first r = some (meets conds r) ↔ EqDecides conds r := by
  have hcols := h.uniform r hr first hfirst
  obtain ⟨lf, hlf, hlfrow⟩ := getElem_first hcols (h.lhs r hr)
  obtain ⟨x, hx⟩ | ⟨val, hval⟩ := h.comparable
  · obtain ⟨rg, hrg, hrgrow⟩ := getElem_first hcols (h.rhs x hx r hr)
    exact test_column hx hlf hlfrow hrg hrgrow
  · exact test_literal hval hlf hlfrow

theorem exec_op_eq_filter_iff {conds : ast.BinaryExpr} {ret : List record} (h : Applies conds ret) :
    exec_op conds ret = some (ret.filter (meets conds)) ↔ ret ≠ [] ∧ ∀ r ∈ ret, EqDecides conds r := by
  cases ret with
  | nil =>
    rw [exec_op_nil h]
    exact ⟨fun hnone => absurd hnone (Option.some_ne_none _).symm, fun hand => absurd rfl hand.1⟩
  | cons first ret =>
    rw [exec_op_cons h, keep_eq_filter_iff, and_iff_right (List.cons_ne_nil first ret)]
    exact forall₂_congr fun r hr => test_eq_iff h List.mem_cons_self hr

end op_selection

/-! ## The operator -/

theorem op_selection.filters_iff (send_plan : SendPlan) (conds : ast.BinaryExpr) (next_node : Operators)
    (ret : List record) (hret : next_node.exec_op send_plan = some ret) (happlies : op_selection.Applies conds ret) :
    (Operators.op_selection conds next_node).exec_op send_plan = some (ret.filter (op_selection.meets conds)) ↔
      ret ≠ [] ∧ ∀ r ∈ ret, op_selection.EqDecides conds r := by
  rw [Operators.exec_op, hret, Option.bind_some]
  exact op_selection.exec_op_eq_filter_iff happlies

namespace op_selection

/-- The column `id` of a table `t`. -/
def idCol : ast.Col := ⟨[116], [105, 100]⟩

/-- The numbers 1 and 2 in it. -/
def numbers : List record :=
  [⟨[⟨.integer, idCol.col_name, idCol.tab_name, [49], 4⟩]⟩, ⟨[⟨.integer, idCol.col_name, idCol.tab_name, [50], 4⟩]⟩]

theorem numbers_apply (op : ast.SvCompOp) (val : Int32) : Applies ⟨idCol, op, .IntLit val⟩ numbers where
  uniform := by decide
  lhs := (by decide : ∀ r ∈ numbers, idCol ∈ r.cols)
  rhs x hx := nomatch hx
  comparable := Or.inr ⟨val, rfl⟩

/-- `id = 2` -/
theorem filters_iff_equal :
    (Operators.op_selection ⟨idCol, .SV_OP_EQ, .IntLit 2⟩ (.op_tablescan numbers [] [116] 0)).exec_op (fun _ _ => none) =
      some (numbers.filter (meets ⟨idCol, .SV_OP_EQ, .IntLit 2⟩)) :=
  (filters_iff _ _ _ numbers rfl (numbers_apply .SV_OP_EQ 2)).mpr
    ⟨List.cons_ne_nil _ _, by
      rintro r (_ | ⟨_, _ | ⟨_, ⟨⟩⟩⟩)
      · exact ⟨by decide, trivial⟩
      · exact ⟨by decide, trivial⟩⟩

/-- `id < 2` keeps the 2 and drops the 1, and no selection gets along without a record. -/
theorem filters_as_equal :
    (Operators.op_selection ⟨idCol, .SV_OP_LT, .IntLit 2⟩ (.op_tablescan numbers [] [116] 0)).exec_op (fun _ _ => none) ≠
        some (numbers.filter (meets ⟨idCol, .SV_OP_LT, .IntLit 2⟩)) ∧
      (Operators.op_selection ⟨idCol, .SV_OP_EQ, .IntLit 2⟩ (.op_distribution [] [])).exec_op (fun _ _ => none) ≠ some [] := by
  exact ⟨by decide, by decide⟩

end op_selection

end DDBMS
