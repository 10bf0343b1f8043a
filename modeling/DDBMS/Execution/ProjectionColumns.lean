import DDBMS.Execution.Operators
import DDBMS.Lib.KeyRequests

/-!
# `Execution.ProjectionColumns` — what a projection returns

A projection should return the values of the columns that it is asked for, in that order. `op_projection::exec_op` goes
through the values of a record instead and takes each as often as its column name, of whatever table, is asked for. So
columns of the same name in two tables are mixed up, and the values come in the order in which the record has them.
-/

namespace DDBMS

namespace op_projection

/-! ## The columns of the new record -/

/-- To the loop, a value looks like one of every column with its column name. -/
def sameName (k c : ast.Col) : Bool := k.col_name = c.col_name

theorem cols_newRow (cols : List ast.Col) (row : List value) :
    (newRow cols row).map value.col = select sameName cols (row.map value.col) := by
  rw [newRow, select, List.map_flatMap, List.flatMap_map]
  refine List.flatMap_congr fun v _ => ?_
  rw [List.map_map, List.countP_eq_length_filter]
  exact List.map_const'

theorem mem_of_mem_newRow {cols : List ast.Col} {row : List value} {v : value} (h : v ∈ newRow cols row) : v ∈ row := by
  obtain ⟨w, hw, hv⟩ := List.mem_flatMap.mp h
  obtain ⟨c, -, rfl⟩ := List.mem_map.mp hv
  exact hw

/-! ## The requested values -/

/-- The values of the columns, in the order of the columns. -/
def valuesOf (cols : List ast.Col) (row : List value) : List value := cols.filterMap fun c => row.find? fun v => v.isOf c

theorem find?_isOf {row : List value} {c : ast.Col} (h : c ∈ row.map value.col) :
    ∃ v, row.find? (fun v => v.isOf c) = some v ∧ v.col = c := by
  obtain ⟨v, hv, hcol⟩ := List.mem_map.mp h
  have hsome : (row.find? fun v => v.isOf c).isSome := List.find?_isSome.mpr ⟨v, hv, value.isOf_iff.mpr hcol⟩
  obtain ⟨w, hw⟩ := Option.isSome_iff_exists.mp hsome
  obtain ⟨hof, -⟩ := List.find?_eq_some_iff_append.mp hw
  exact ⟨w, hw, value.isOf_iff.mp hof⟩

theorem valuesOf_cons {c : ast.Col} {row : List value} {v : value} (h : row.find? (fun w => w.isOf c) = some v)
    (cols : List ast.Col) : valuesOf (c :: cols) row = v :: valuesOf cols row := by
  simp only [valuesOf, List.filterMap_cons, h]

theorem cols_valuesOf {cols : List ast.Col} {row : List value} (h : ∀ c ∈ cols, c ∈ row.map value.col) :
    (valuesOf cols row).map value.col = cols := by
  induction cols with
  | nil => rfl
  | cons c cols ih =>
    obtain ⟨hc, hcols⟩ := List.forall_mem_cons.mp h
    obtain ⟨v, hv, hcol⟩ := find?_isOf hc
    rw [valuesOf_cons hv, List.map_cons, hcol, ih hcols]

/-- Each column occurs once, so a value is what is found for its column. -/
theorem find?_col {row : List value} (hnodup : (row.map value.col).Nodup) {v : value} (hv : v ∈ row) :
    row.find? (fun w => w.isOf v.col) = some v := by
  obtain ⟨w, hw, hcol⟩ := find?_isOf (List.mem_map_of_mem hv)
  rw [hw, List.inj_on_of_nodup_map hnodup (List.mem_of_find?_eq_some hw) hv hcol]

theorem valuesOf_cols {row : List value} (hnodup : (row.map value.col).Nodup) {vs : List value} (hvs : ∀ v ∈ vs, v ∈ row) :
    valuesOf (vs.map value.col) row = vs := by
  induction vs with
  | nil => rfl
  | cons v vs ih =>
    obtain ⟨hv, hrest⟩ := List.forall_mem_cons.mp hvs
    rw [List.map_cons, valuesOf_cons (find?_col hnodup hv), ih hrest]

theorem newRow_eq_valuesOf_iff {cols : List ast.Col} {row : List value} (hnodup : (row.map value.col).Nodup)
    (hcols : ∀ c ∈ cols, c ∈ row.map value.col) :
    newRow cols row = valuesOf cols row ↔ select sameName cols (row.map value.col) = cols := by
  rw [← cols_newRow]
  constructor
  · intro h
    rw [h, cols_valuesOf hcols]
  · intro h
    conv_rhs => rw [← h]
    exact (valuesOf_cols hnodup fun v => mem_of_mem_newRow).symm

/-! ## When the projection is right -/

/-- Each row has a column at most once, and has all the requested ones. -/
structure Selectable (cols : List ast.Col) (ret : List record) : Prop where
  unique : ∀ r ∈ ret, r.cols.Nodup
  occurs : ∀ r ∈ ret, ∀ c ∈ cols, c ∈ r.cols

/-- No other column of the record has the column name of a requested one. -/
def NamesApart (cols : List ast.Col) (r : record) : Prop :=
  ∀ k ∈ r.cols, ∀ c ∈ cols, k.col_name = c.col_name → k.tab_name = c.tab_name

/-- The columns are requested in the order in which the record has them. -/
def InOrder (cols : List ast.Col) (r : record) : Prop := cols.Pairwise fun a b => r.cols.idxOf a ≤ r.cols.idxOf b

theorem namesApart_iff {cols : List ast.Col} {r : record} :
    NamesApart cols r ↔ ∀ k ∈ r.cols, ∀ c ∈ cols, sameName k c → k = c := by
  refine forall₄_congr fun k _ c _ => ?_
  rw [sameName, decide_eq_true_eq]
  refine imp_congr_right fun hname => ?_
  cases k
  cases c
  simp_all

theorem newRow_iff {cols : List ast.Col} {ret : List record} (h : Selectable cols ret) {r : record} (hr : r ∈ ret) :
    newRow cols r.row = valuesOf cols r.row ↔ NamesApart cols r ∧ InOrder cols r := by
  have hnodup : (r.row.map value.col).Nodup := h.unique r hr
  have hcols : ∀ c ∈ cols, c ∈ r.row.map value.col := h.occurs r hr
  have hrefl : ∀ k : ast.Col, sameName k k := fun k => decide_eq_true rfl
  rw [newRow_eq_valuesOf_iff hnodup hcols, select_eq_iff hrefl hnodup hcols, namesApart_iff]
  rfl

theorem exec_op_iff {cols : List ast.Col} {ret : List record} (h : Selectable cols ret) :
    exec_op cols ret = ret.map (fun r => ⟨valuesOf cols r.row⟩) ↔ ∀ r ∈ ret, NamesApart cols r ∧ InOrder cols r := by
  rw [exec_op, List.map_inj_left]
  refine forall₂_congr fun r hr => ?_
  rw [record.mk.injEq]
  exact newRow_iff h hr

end op_projection

/-! ## The operator -/

theorem op_projection.projects_iff (send_plan : SendPlan) (cols : List ast.Col) (next_node : Operators)
    (ret : List record) (hret : next_node.exec_op send_plan = some ret) (hsel : op_projection.Selectable cols ret) :
    (Operators.op_projection cols next_node).exec_op send_plan =
        some (ret.map fun r => ⟨op_projection.valuesOf cols r.row⟩) ↔
      ∀ r ∈ ret, op_projection.NamesApart cols r ∧ op_projection.InOrder cols r := by
  rw [Operators.exec_op, hret, Option.map_some, Option.some_inj]
  exact op_projection.exec_op_iff hsel

namespace op_projection

/-- A joined record: column `id` of a table `t`, and a column of a table `u`. -/
def joined (col_name : Bytes) : record :=
  ⟨[⟨.integer, [105, 100], [116], [49], 4⟩, ⟨.integer, col_name, [117], [50], 4⟩]⟩

/-- `t.id` and `u.n` -/
theorem projects_iff_apart :
    (Operators.op_projection [⟨[116], [105, 100]⟩, ⟨[117], [110]⟩]
        (.op_tablescan [joined [110], joined [110]] [] [116] 0)).exec_op (fun _ _ => none) =
      some ([joined [110], joined [110]].map fun r =>
        ⟨valuesOf [⟨[116], [105, 100]⟩, ⟨[117], [110]⟩] r.row⟩) :=
  (projects_iff _ _ _ [joined [110], joined [110]] rfl ⟨by decide, by decide⟩).mpr
    (by unfold NamesApart InOrder; decide)

/-- Asked for `t.id`, it returns `u.id` as well. -/
theorem projects_namesake :
    Selectable [⟨[116], [105, 100]⟩] [joined [105, 100], joined [105, 100]] ∧
      (Operators.op_projection [⟨[116], [105, 100]⟩]
          (.op_tablescan [joined [105, 100], joined [105, 100]] [] [116] 0)).exec_op (fun _ _ => none) ≠
        some ([joined [105, 100], joined [105, 100]].map fun r => ⟨valuesOf [⟨[116], [105, 100]⟩] r.row⟩) :=
  ⟨⟨by decide, by decide⟩, by decide⟩

end op_projection

end DDBMS
