import DDBMS.Lib.TokenStream

/-!
# `Execution.Operators` — the operators of a query

The operators of `execution/planner.h`, each with what its `exec_op` makes of the results of its children, and the
expressions of `execution/ast.h` that they look at. `none` is undefined behaviour: a vector read behind its end, or a number
that `atoi` cannot represent. The records are shared pointers that nobody writes through, so they are values here.
-/

namespace DDBMS

namespace ast

inductive SvCompOp where
  | SV_OP_EQ
  | SV_OP_NE
  | SV_OP_LT
  | SV_OP_GT
  | SV_OP_LE
  | SV_OP_GE
  deriving DecidableEq, Repr

structure Col where
  tab_name : Bytes
  col_name : Bytes
  deriving DecidableEq, Repr

/-- The expressions; nothing reads the value of a `FloatLit`. -/
inductive Expr where
  | IntLit (val : Int32)
  | FloatLit
  | StringLit (val : Bytes)
  | Col (col : ast.Col)
  deriving DecidableEq, Repr

structure BinaryExpr where
  lhs : ast.Col
  op : SvCompOp
  rhs : Expr
  deriving DecidableEq, Repr

end ast

inductive value_type where
  | integer
  | character
  deriving DecidableEq, Repr

structure value where
  type : value_type
  col_name : Bytes
  tab_name : Bytes
  str : Bytes
  len : Int32
  deriving DecidableEq, Repr

structure record where
  row : List value
  deriving DecidableEq, Repr

/-- `value` is one of the column: both names are the same. -/
def value.isOf (v : value) (col : ast.Col) : Bool := v.tab_name = col.tab_name && v.col_name = col.col_name

def value.col (v : value) : ast.Col := ⟨v.tab_name, v.col_name⟩

/-- The columns of a record, in the order of its values. -/
def record.cols (r : record) : List ast.Col := r.row.map value.col

theorem value.isOf_iff {v : value} {col : ast.Col} : v.isOf col = true ↔ v.col = col := by
  cases col
  simp [value.isOf, value.col]

/-! ## `op_projection` -/

namespace op_projection

/-- The loops over one record. -/
def newRow (cols : List ast.Col) (row : List value) : List value :=
  row.flatMap fun cur_value => (cols.filter fun col => cur_value.col_name = col.col_name).map fun _ => cur_value

def exec_op (cols : List ast.Col) (ret : List record) : List record :=
  ret.map fun cur_record => ⟨newRow cols cur_record.row⟩

end op_projection

/-! ## `op_selection` -/

/-- The number at the start of a string, of any size; 0 if there is none. -/
def numberOf (str : Bytes) : Int :=
  let text := str.dropWhile isspace
  let sign := signOf text
  let ds := (text.drop sign.length).takeWhile isdigit
  if sign = [45] then -(natOf ds : Int) else natOf ds

/-- `atoi` -/
def atoi (str : Bytes) : Option Int32 :=
  if Int32.minValue.toInt ≤ numberOf str ∧ numberOf str ≤ Int32.maxValue.toInt then some (Int32.ofInt (numberOf str))
  else none

namespace op_selection

/-- The loop for `lf_index` and `rg_index`: the last position of the column. Every position of a row fits an `int`. -/
def indexFrom (col : ast.Col) : List value → Nat → Nat → Nat
  | [], _, index => index
  | v :: row, i, index => indexFrom col row (i + 1) (if v.isOf col then i else index)

def indexOf (col : ast.Col) (row : List value) : Nat := indexFrom col row 0 0

/-- The loop over the records. -/
def keep (test : record → Option Bool) : List record → Option (List record)
  | [] => some []
  | r :: ret => do
    let b ← test r
    let res ← keep test ret
    some (if b then r :: res else res)

/-- The operator of the condition is not looked at. -/
def exec_op (conds : ast.BinaryExpr) (ret : List record) : Option (List record) :=
  match conds.rhs with
  | .Col x => do
    let first ← ret[0]?
    let lf_index := indexOf conds.lhs first.row
    let rg_index := indexOf x first.row
    keep (fun r => do
      let lf ← r.row[lf_index]?
      let rg ← r.row[rg_index]?
      some (lf.str = rg.str)) ret
  | .IntLit val => do
    let first ← ret[0]?
    let lf_index := indexOf conds.lhs first.row
    keep (fun r => do
      let lf ← r.row[lf_index]?
      let n ← atoi lf.str
      some (n = val)) ret
  | _ => some []

end op_selection

/-! ## `op_join` -/

namespace op_join

/-- Each record of `res` with each record of `tab`. -/
def pairs (res tab : List record) : List record := res.flatMap fun r => tab.map fun t => ⟨r.row ++ t.row⟩

/-- The loop over the tables from the second one on. `tmp` is not cleared. -/
def join (res tmp : List record) : List (List record) → List record
  | [] => res
  | tab :: ret => join (tmp ++ pairs res tab) (tmp ++ pairs res tab) ret

def exec_op (ret : List (List record)) : Option (List record) := do
  let res ← ret[0]?
  some (join res [] ret.tail)

end op_join

/-! ## The tree -/

/-- A tree of operators. Of the `kv` of an operator only the table scan reads. -/
inductive Operators where
  | op_excutor (next_node : Operators)
  | op_projection (cols : List ast.Col) (next_node : Operators)
  | op_selection (conds : ast.BinaryExpr) (next_node : Operators)
  | op_distribution (nodes_plan : List Operators) (nodes_name : List Bytes)
  | op_join (tables_get : List Operators)
  | op_tablescan (kv : List record) (db_name tabs : Bytes) (par_id : Int32)

/-- `send_plan` is declared only: it has the node run the plan. -/
abbrev SendPlan := Bytes → Operators → Option (List record)

namespace op_distribution

def exec_op (send_plan : SendPlan) : List Operators → List Bytes → Option (List record)
  | [], _ => some []
  | _ :: _, [] => none
  | plan :: nodes_plan, name :: nodes_name => do
    let ret ← send_plan name plan
    let res ← exec_op send_plan nodes_plan nodes_name
    some (ret ++ res)

end op_distribution

namespace op_tablescan

def Key_range : List Nat := [0, 1]

def exec_op (kv : List record) : Option (List record) := Key_range.mapM fun i => kv[i]?

end op_tablescan

namespace Operators

mutual

def exec_op (send_plan : SendPlan) : Operators → Option (List record)
  | .op_excutor next_node => next_node.exec_op send_plan
  | .op_projection cols next_node => (next_node.exec_op send_plan).map (DDBMS.op_projection.exec_op cols)
  | .op_selection conds next_node => (next_node.exec_op send_plan).bind (DDBMS.op_selection.exec_op conds)
  | .op_distribution nodes_plan nodes_name => DDBMS.op_distribution.exec_op send_plan nodes_plan nodes_name
  | .op_join tables_get => (execAll send_plan tables_get).bind DDBMS.op_join.exec_op
  | .op_tablescan kv _ _ _ => DDBMS.op_tablescan.exec_op kv

/-- The results of all tables of a join. -/
def execAll (send_plan : SendPlan) : List Operators → Option (List (List record))
  | [] => some []
  | table :: tables_get => do
    let ret ← table.exec_op send_plan
    let rest ← execAll send_plan tables_get
    some (ret :: rest)

end

end Operators
end DDBMS
