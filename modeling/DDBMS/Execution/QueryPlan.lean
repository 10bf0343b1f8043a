import DDBMS.Execution.JoinProduct
import DDBMS.Execution.ProjectionColumns
import DDBMS.Execution.SelectionRows

/-!
# `Execution.QueryPlan` — what a whole plan returns

A plan is a tree of operators, whose parts below an `op_distribution` are run by other nodes. It stands for a relation (`rows`):
projections, selections and products as they should be. A plan is well typed (`HasCols`) when the columns that each operator looks
at are among those that it gets, and no operator is used where it is wrong (the modules before this one say where).

The records of a well-typed plan have the columns of its type (`rows_cols`), on whichever nodes they are made. The plan returns its
relation, or does not return at all, and there is one reason for that: some selection gets no record, or compares a number that
`atoi` cannot represent (`plan_returns_iff`).
-/

namespace DDBMS

/-! ## Types -/

/-- The columns are there once and in this order, and no other one has the column name of a requested one. -/
structure op_projection.Fits (cols cs : List ast.Col) : Prop where
  nodup : cs.Nodup
  occurs : ∀ c ∈ cols, c ∈ cs
  namesApart : ∀ k ∈ cs, ∀ c ∈ cols, k.col_name = c.col_name → k.tab_name = c.tab_name
  inOrder : cols.Pairwise fun a b => cs.idxOf a ≤ cs.idxOf b

/-- The condition is an equation, of a column and a column or a number. -/
structure op_selection.Fits (conds : ast.BinaryExpr) (cs : List ast.Col) : Prop where
  op : conds.op = .SV_OP_EQ
  lhs : conds.lhs ∈ cs
  rhs : ∀ x, conds.rhs = .Col x → x ∈ cs
  comparable : (∃ x, conds.rhs = .Col x) ∨ ∃ val, conds.rhs = .IntLit val

namespace Operators

/-- The plan returns records with these columns. -/
inductive HasCols : Operators → List ast.Col → Prop where
  | op_excutor {next_node : Operators} {cs : List ast.Col} (hnext : HasCols next_node cs) : HasCols (.op_excutor next_node) cs
  | op_projection {cols : List ast.Col} {next_node : Operators} {cs : List ast.Col} (hnext : HasCols next_node cs)
      (hfits : op_projection.Fits cols cs) : HasCols (.op_projection cols next_node) cols
  | op_selection {conds : ast.BinaryExpr} {next_node : Operators} {cs : List ast.Col} (hnext : HasCols next_node cs)
      (hfits : op_selection.Fits conds cs) : HasCols (.op_selection conds next_node) cs
  | op_distribution {nodes_plan : List Operators} {nodes_name : List Bytes} {cs : List ast.Col}
      (hplans : ∀ plan ∈ nodes_plan, HasCols plan cs) (hnames : nodes_plan.length ≤ nodes_name.length) :
      HasCols (.op_distribution nodes_plan nodes_name) cs
  /-- a join of one table -/
  | op_join_one {table : Operators} {cs : List ast.Col} (htable : HasCols table cs) : HasCols (.op_join [table]) cs
  | op_join {lf rg : Operators} {cs ds : List ast.Col} (hlf : HasCols lf cs) (hrg : HasCols rg ds) :
      HasCols (.op_join [lf, rg]) (cs ++ ds)
  | op_tablescan {kv : List record} {db_name tabs : Bytes} {par_id : Int32} {cs : List ast.Col} (hkv : ∀ r ∈ kv, r.cols = cs)
      (hkeys : ∀ i ∈ op_tablescan.Key_range, i < kv.length) : HasCols (.op_tablescan kv db_name tabs par_id) cs

/-! ## Meanings -/

mutual

/-- The relation that a plan stands for. -/
def rows : Operators → List record
  | .op_excutor next_node => next_node.rows
  | .op_projection cols next_node => next_node.rows.map fun r => ⟨op_projection.valuesOf cols r.row⟩
  | .op_selection conds next_node => next_node.rows.filter (op_selection.meets conds)
  | .op_distribution nodes_plan _ => (rowsAll nodes_plan).flatten
  | .op_join tables_get => op_join.product (rowsAll tables_get)
  | .op_tablescan kv _ _ _ => op_tablescan.Key_range.filterMap fun i => kv[i]?

def rowsAll : List Operators → List (List record)
  | [] => []
  | plan :: plans => plan.rows :: rowsAll plans

end

mutual

/-- Each selection gets a record, and numbers that `atoi` can represent. -/
def Fed : Operators → Prop
  | .op_excutor next_node => next_node.Fed
  | .op_projection _ next_node => next_node.Fed
  | .op_selection conds next_node =>
    next_node.Fed ∧ next_node.rows ≠ [] ∧ ∀ r ∈ next_node.rows, op_selection.EqDecides conds r
  | .op_distribution nodes_plan _ => AllFed nodes_plan
  | .op_join tables_get => AllFed tables_get
  | .op_tablescan _ _ _ _ => True

def AllFed : List Operators → Prop
  | [] => True
  | plan :: plans => plan.Fed ∧ AllFed plans

end

theorem rowsAll_eq_map (plans : List Operators) : rowsAll plans = plans.map rows := by
  induction plans with
  | nil => rfl
  | cons plan plans ih => rw [rowsAll, ih, List.map_cons]

/-! ## Records have the columns of the type -/

theorem cols_append (r s : record) : record.cols ⟨r.row ++ s.row⟩ = r.cols ++ s.cols := List.map_append

/-- **Each record has the columns of the plan.** -/
theorem rows_cols {plan : Operators} {cs : List ast.Col} (h : plan.HasCols cs) : ∀ r ∈ plan.rows, r.cols = cs := by
  induction h with
  | op_excutor _ ih =>
    rw [rows]
    exact ih
  | op_projection _ hfits ih =>
    intro s hs
    obtain ⟨r, hr, rfl⟩ := List.mem_map.mp (by rwa [rows] at hs)
    refine op_projection.cols_valuesOf fun c hc => ?_
    have hcols : r.row.map value.col = _ := ih r hr
    rw [hcols]
    exact hfits.occurs c hc
  | op_selection _ _ ih =>
    intro r hr
    rw [rows] at hr
    exact ih r (List.mem_filter.mp hr).1
  | op_distribution _ _ ih =>
    intro r hr
    rw [rows, rowsAll_eq_map] at hr
    obtain ⟨ret, hret, hr⟩ := List.mem_flatten.mp hr
    obtain ⟨plan, hplan, rfl⟩ := List.mem_map.mp hret
    exact ih plan hplan r hr
  | op_join_one _ ih =>
    intro r hr
    rw [rows, rowsAll, rowsAll, op_join.product_singleton] at hr
    exact ih r hr
  | op_join _ _ ihlf ihrg =>
    intro t ht
    rw [rows, rowsAll, rowsAll, rowsAll, op_join.product_cons, op_join.product_singleton] at ht
    obtain ⟨r, hr, ht⟩ := List.mem_flatMap.mp ht
    obtain ⟨s, hs, rfl⟩ := List.mem_map.mp ht
    rw [cols_append, ihlf r hr, ihrg s hs]
  | op_tablescan hkv =>
    intro r hr
    rw [rows] at hr
    obtain ⟨i, -, hi⟩ := List.mem_filterMap.mp hr
    exact hkv r (List.mem_of_getElem? hi)

/-! ## One operator -/

section Node

variable {cs cols : List ast.Col} {conds : ast.BinaryExpr} {ret res : List record}

theorem exec_projection (hret : ∀ r ∈ ret, r.cols = cs) (h : op_projection.Fits cols cs) :
    op_projection.exec_op cols ret = ret.map fun r => ⟨op_projection.valuesOf cols r.row⟩ := by
  have hsel : op_projection.Selectable cols ret := by
    constructor
    · intro r hr
      rw [hret r hr]
      exact h.nodup
    · intro r hr
      rw [hret r hr]
      exact h.occurs
  refine (op_projection.exec_op_iff hsel).mpr fun r hr => ?_
  unfold op_projection.NamesApart op_projection.InOrder
  rw [hret r hr]
  exact ⟨h.namesApart, h.inOrder⟩

theorem applies_of_fits (hret : ∀ r ∈ ret, r.cols = cs) (h : op_selection.Fits conds cs) : op_selection.Applies conds ret where
  uniform r hr s hs := (hret r hr).trans (hret s hs).symm
  lhs r hr := by
    rw [hret r hr]
    exact h.lhs
  rhs x hx r hr := by
    rw [hret r hr]
    exact h.rhs x hx
  comparable := h.comparable

/-- What the loop can look at is what equality decides. -/
theorem eqDecides_of_test {first r : record} (h : op_selection.Applies conds ret) (hop : conds.op = .SV_OP_EQ)
    (hfirst : first ∈ ret) (hr : r ∈ ret) (htest : (op_selection.test conds first r).isSome) : op_selection.EqDecides conds r := by
  obtain ⟨lf, hlf, hlfrow⟩ := op_selection.getElem_first (h.uniform r hr first hfirst) (h.lhs r hr)
  obtain ⟨x, hx⟩ | ⟨val, hval⟩ := h.comparable
  · unfold op_selection.EqDecides
    rw [hlf, hx, hop]
    exact fun _ _ => trivial
  · unfold op_selection.EqDecides
    rw [hlf, hval, hop]
    refine ⟨?_, trivial⟩
    by_contra hfits
    simp only [op_selection.test, hval, hlfrow, atoi, if_neg hfits, Option.bind_eq_bind, Option.bind_some, Option.bind_none,
      Option.isSome_none, Bool.false_eq_true] at htest

/-- **A selection** keeps the right records or does not return. -/
theorem exec_selection_iff (hret : ∀ r ∈ ret, r.cols = cs) (h : op_selection.Fits conds cs) :
    op_selection.exec_op conds ret = some res ↔
      (ret ≠ [] ∧ ∀ r ∈ ret, op_selection.EqDecides conds r) ∧ res = ret.filter (op_selection.meets conds) := by
  have happlies := applies_of_fits hret h
  constructor
  · intro hexec
    have hfed : ret ≠ [] ∧ ∀ r ∈ ret, op_selection.EqDecides conds r := by
      cases ret with
      | nil => nomatch (op_selection.exec_op_nil happlies).symm.trans hexec
      | cons first ret =>
        rw [op_selection.exec_op_cons happlies] at hexec
        obtain ⟨htest, -⟩ := op_selection.keep_eq_some_iff.mp hexec
        exact ⟨List.cons_ne_nil first ret,
          fun r hr => eqDecides_of_test happlies h.op List.mem_cons_self hr (htest r hr)⟩
    exact ⟨hfed, Option.some.inj (hexec.symm.trans ((op_selection.exec_op_eq_filter_iff happlies).mpr hfed))⟩
  · rintro ⟨hfed, rfl⟩
    exact (op_selection.exec_op_eq_filter_iff happlies).mpr hfed

theorem exec_scan {kv : List record} (hkeys : ∀ i ∈ op_tablescan.Key_range, i < kv.length) :
    op_tablescan.exec_op kv = some (op_tablescan.Key_range.filterMap fun i => kv[i]?) := by
  unfold op_tablescan.exec_op
  generalize op_tablescan.Key_range = keys at hkeys ⊢
  induction keys with
  | nil => rfl
  | cons i keys ih =>
    have hi := List.getElem?_eq_getElem (hkeys i List.mem_cons_self)
    rw [List.mapM_cons, ih (fun j hj => hkeys j (List.mem_cons_of_mem i hj)), List.filterMap_cons, hi]
    rfl

end Node

/-! ## A whole plan -/

section Plan

variable {send_plan : SendPlan}

/-- What is sent to the nodes comes back in the order of the plans. -/
theorem exec_distribution_iff (hsend : ∀ name plan, send_plan name plan = plan.exec_op send_plan) {plans : List Operators}
    {names : List Bytes} (hnames : plans.length ≤ names.length)
    (h : ∀ plan ∈ plans, ∀ res, plan.exec_op send_plan = some res ↔ plan.Fed ∧ res = plan.rows) (res : List record) :
    op_distribution.exec_op send_plan plans names = some res ↔ AllFed plans ∧ res = (rowsAll plans).flatten := by
  induction plans generalizing names res with
  | nil =>
    rw [op_distribution.exec_op, rowsAll, List.flatten_nil, Option.some_inj, AllFed, true_and]
    exact eq_comm
  | cons plan plans ih =>
    obtain ⟨name, names, rfl⟩ := List.exists_cons_of_length_pos (Nat.lt_of_lt_of_le (Nat.succ_pos _) hnames)
    have ih := ih (Nat.le_of_succ_le_succ hnames) fun plan hplan => h plan (List.mem_cons_of_mem _ hplan)
    have hplan := h plan List.mem_cons_self
    simp only [op_distribution.exec_op, hsend name plan, Option.bind_eq_bind, Option.bind_eq_some_iff, hplan, ih,
      Option.some.injEq, rowsAll, List.flatten_cons, AllFed]
    constructor
    · rintro ⟨_, ⟨hfed, rfl⟩, _, ⟨hall, rfl⟩, rfl⟩
      exact ⟨⟨hfed, hall⟩, rfl⟩
    · rintro ⟨⟨hfed, hall⟩, rfl⟩
      exact ⟨_, ⟨hfed, rfl⟩, _, ⟨hall, rfl⟩, rfl⟩

theorem execAll_iff {plans : List Operators}
    (h : ∀ plan ∈ plans, ∀ res, plan.exec_op send_plan = some res ↔ plan.Fed ∧ res = plan.rows) (ret : List (List record)) :
    execAll send_plan plans = some ret ↔ AllFed plans ∧ ret = rowsAll plans := by
  induction plans generalizing ret with
  | nil =>
    rw [execAll, rowsAll, Option.some_inj, AllFed, true_and]
    exact eq_comm
  | cons plan plans ih =>
    have ih := ih fun plan hplan => h plan (List.mem_cons_of_mem _ hplan)
    have hplan := h plan List.mem_cons_self
    simp only [execAll, Option.bind_eq_bind, Option.bind_eq_some_iff, hplan, ih, Option.some.injEq, rowsAll, AllFed]
    constructor
    · rintro ⟨_, ⟨hfed, rfl⟩, _, ⟨hall, rfl⟩, rfl⟩
      exact ⟨⟨hfed, hall⟩, rfl⟩
    · rintro ⟨⟨hfed, hall⟩, rfl⟩
      exact ⟨_, ⟨hfed, rfl⟩, _, ⟨hall, rfl⟩, rfl⟩

/-- A join of one or two tables. -/
theorem exec_join_iff {tables_get : List Operators} (hne : tables_get ≠ []) (hfew : tables_get.length ≤ 2)
    (h : ∀ plan ∈ tables_get, ∀ res, plan.exec_op send_plan = some res ↔ plan.Fed ∧ res = plan.rows) (res : List record) :
    (Operators.op_join tables_get).exec_op send_plan = some res ↔
      AllFed tables_get ∧ res = op_join.product (rowsAll tables_get) := by
  have hproduct : op_join.exec_op (rowsAll tables_get) = some (op_join.product (rowsAll tables_get)) := by
    rw [rowsAll_eq_map]
    refine (op_join.exec_op_eq_product_iff ?_).mpr (Or.inl ?_)
    · rwa [ne_eq, List.map_eq_nil_iff]
    · rwa [List.length_map]
  rw [exec_op, Option.bind_eq_some_iff]
  constructor
  · rintro ⟨ret, hret, hres⟩
    obtain ⟨hall, rfl⟩ := (execAll_iff h ret).mp hret
    exact ⟨hall, Option.some.inj (hres.symm.trans hproduct)⟩
  · rintro ⟨hall, rfl⟩
    exact ⟨_, (execAll_iff h _).mpr ⟨hall, rfl⟩, hproduct⟩

/-- **What a well-typed plan returns**, when each node runs the plans that are sent to it: its relation, whose records have the
    columns of its type, and it returns if and only if each selection in it gets a record, and numbers that `atoi` can
    represent. -/
theorem plan_returns_iff (hsend : ∀ name plan, send_plan name plan = plan.exec_op send_plan) {plan : Operators}
    {cs : List ast.Col} (h : plan.HasCols cs) :
    (∀ res, plan.exec_op send_plan = some res ↔ plan.Fed ∧ res = plan.rows) ∧ ∀ r ∈ plan.rows, r.cols = cs := by
  refine ⟨?_, rows_cols h⟩
  induction h with
  | op_excutor _ ih =>
    intro res
    rw [exec_op, Fed, rows]
    exact ih res
  | op_projection hnext hfits ih =>
    intro res
    rw [exec_op, Fed, rows, Option.map_eq_some_iff]
    have hexec := exec_projection (rows_cols hnext) hfits
    constructor
    · rintro ⟨ret, hret, rfl⟩
      obtain ⟨hfed, rfl⟩ := (ih ret).mp hret
      exact ⟨hfed, hexec⟩
    · rintro ⟨hfed, rfl⟩
      exact ⟨_, (ih _).mpr ⟨hfed, rfl⟩, hexec⟩
  | op_selection hnext hfits ih =>
    intro res
    rw [exec_op, Fed, rows, Option.bind_eq_some_iff]
    have hexec := @exec_selection_iff _ _ _ res (rows_cols hnext) hfits
    constructor
    · rintro ⟨ret, hret, hres⟩
      obtain ⟨hfed, rfl⟩ := (ih ret).mp hret
      obtain ⟨hrows, rfl⟩ := hexec.mp hres
      exact ⟨⟨hfed, hrows⟩, rfl⟩
    · rintro ⟨⟨hfed, hrows⟩, rfl⟩
      exact ⟨_, (ih _).mpr ⟨hfed, rfl⟩, hexec.mpr ⟨hrows, rfl⟩⟩
  | op_distribution _ hnames ih =>
    intro res
    rw [exec_op, Fed, rows]
    exact exec_distribution_iff hsend hnames ih res
  | op_join_one _ ih =>
    intro res
    rw [Fed, rows]
    exact exec_join_iff (by simp) (by simp) (List.forall_mem_singleton.mpr ih) res
  | op_join _ _ ihlf ihrg =>
    intro res
    rw [Fed, rows]
    exact exec_join_iff (by simp) (by simp)
      (List.forall_mem_cons.mpr ⟨ihlf, List.forall_mem_singleton.mpr ihrg⟩) res
  | op_tablescan _ hkeys =>
    intro res
    rw [exec_op, Fed, rows, exec_scan hkeys, Option.some_inj, true_and]
    exact eq_comm

end Plan

/-! ### Nodes that run their plans -/

mutual

/-- A plan, run with all that it sends. -/
def run : Operators → Option (List record)
  | .op_excutor next_node => next_node.run
  | .op_projection cols next_node => next_node.run.map (DDBMS.op_projection.exec_op cols)
  | .op_selection conds next_node => next_node.run.bind (DDBMS.op_selection.exec_op conds)
  | .op_distribution nodes_plan nodes_name => runNodes nodes_plan nodes_name
  | .op_join tables_get => (runAll tables_get).bind DDBMS.op_join.exec_op
  | .op_tablescan kv _ _ _ => DDBMS.op_tablescan.exec_op kv

def runNodes : List Operators → List Bytes → Option (List record)
  | [], _ => some []
  | _ :: _, [] => none
  | plan :: nodes_plan, _ :: nodes_name => do
    let ret ← plan.run
    let res ← runNodes nodes_plan nodes_name
    some (ret ++ res)

def runAll : List Operators → Option (List (List record))
  | [] => some []
  | table :: tables_get => do
    let ret ← table.run
    let rest ← runAll tables_get
    some (ret :: rest)

end

theorem runNodes_eq (plans : List Operators) (names : List Bytes) :
    op_distribution.exec_op (fun _ plan => plan.run) plans names = runNodes plans names := by
  induction plans generalizing names with
  | nil => rw [op_distribution.exec_op, runNodes]
  | cons plan plans ih =>
    cases names with
    | nil => rw [op_distribution.exec_op, runNodes]
    | cons name names => rw [op_distribution.exec_op, runNodes, ih]

mutual

theorem exec_op_eq_run : (plan : Operators) → plan.exec_op (fun _ plan => plan.run) = plan.run
  | .op_excutor next_node => by rw [exec_op, run, exec_op_eq_run next_node]
  | .op_projection cols next_node => by rw [exec_op, run, exec_op_eq_run next_node]
  | .op_selection conds next_node => by rw [exec_op, run, exec_op_eq_run next_node]
  | .op_distribution nodes_plan nodes_name => by rw [exec_op, run, runNodes_eq]
  | .op_join tables_get => by rw [exec_op, run, execAll_eq_runAll tables_get]
  | .op_tablescan kv _ _ _ => by rw [exec_op, run]

theorem execAll_eq_runAll : (plans : List Operators) → execAll (fun _ plan => plan.run) plans = runAll plans
  | [] => by rw [execAll, runAll]
  | plan :: plans => by rw [execAll, runAll, exec_op_eq_run plan, execAll_eq_runAll plans]

end

/-- A table `u` with one column `n`. -/
def others : List record := [⟨[⟨.integer, [110], [117], [53], 4⟩]⟩, ⟨[⟨.integer, [110], [117], [54], 4⟩]⟩]

/-- The rows of `t` with `id = 2` on two nodes, joined with `u`; of that the column `t.id`. -/
def acrossNodes : Operators :=
  .op_excutor (.op_projection [op_selection.idCol] (.op_join
    [.op_selection ⟨op_selection.idCol, .SV_OP_EQ, .IntLit 2⟩ (.op_distribution
        [.op_tablescan op_selection.numbers [] [116] 0, .op_tablescan op_selection.numbers [] [116] 1] [[97], [98]]),
      .op_tablescan others [] [117] 0]))

theorem acrossNodes_hasCols : acrossNodes.HasCols [op_selection.idCol] := by
  have hscan : ∀ par_id, HasCols (.op_tablescan op_selection.numbers [] [116] par_id) [op_selection.idCol] :=
    fun par_id => .op_tablescan (by decide) (by decide)
  have hnodes : ∀ plan ∈ [Operators.op_tablescan op_selection.numbers [] [116] 0,
      .op_tablescan op_selection.numbers [] [116] 1], HasCols plan [op_selection.idCol] :=
    List.forall_mem_cons.mpr ⟨hscan 0, List.forall_mem_singleton.mpr (hscan 1)⟩
  have hothers : HasCols (.op_tablescan others [] [117] 0) [⟨[117], [110]⟩] := .op_tablescan (by decide) (by decide)
  exact .op_excutor (.op_projection (.op_join (.op_selection (.op_distribution hnodes (by simp))
    ⟨rfl, by simp, fun x hx => (nomatch hx), Or.inr ⟨2, rfl⟩⟩) hothers) ⟨by decide, by decide, by decide, by decide⟩)

theorem acrossNodes_fed : acrossNodes.Fed := by
  have hdecides : ∀ r ∈ op_selection.numbers ++ op_selection.numbers,
      op_selection.EqDecides ⟨op_selection.idCol, .SV_OP_EQ, .IntLit 2⟩ r := by
    have hnumbers : ∀ r ∈ op_selection.numbers, op_selection.EqDecides ⟨op_selection.idCol, .SV_OP_EQ, .IntLit 2⟩ r :=
      List.forall_mem_cons.mpr ⟨⟨by decide, trivial⟩, List.forall_mem_singleton.mpr ⟨by decide, trivial⟩⟩
    intro r hr
    rcases List.mem_append.mp hr with hr | hr
    · exact hnumbers r hr
    · exact hnumbers r hr
  simp only [acrossNodes, Fed, AllFed, and_true, true_and]
  exact ⟨by decide, hdecides⟩

theorem plan_returns_iff_acrossNodes :
    acrossNodes.exec_op (fun _ plan => plan.run) = some (List.replicate 4 ⟨[⟨.integer, [105, 100], [116], [50], 4⟩]⟩) :=
  ((plan_returns_iff (fun _ plan => (exec_op_eq_run plan).symm) acrossNodes_hasCols).1 _).mpr ⟨acrossNodes_fed, by decide⟩

end Operators
end DDBMS
