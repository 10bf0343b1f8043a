import DDBMS.Execution.RemotePlan

/-!
# `Execution.PlanConversion` — when the conversion of a plan returns

`RemotePlanNodeImpl::ConvertIntoPlan` (`execution/execution_rpc.cpp`) on the messages of `distributed_plan_service.proto`. Its
loop should go to a child in every round. A filter, a deletion, an update, a table get, a distributed plan and values of
their own leave the `switch` by `break`, and the loop comes back to the same node for ever; a scan looks for the child of a
projection, which it is not. So the conversion returns on plans of projections, insertions and joins only, whose ends are
plans that are not set (`Convertible`).

`RemotePlan` has the same loop as steps of a system in which the calls can wait. Here the calls return, and the rounds are
counted.
-/

namespace DDBMS
namespace distributed_plan_service

/-! ## Messages -/

inductive JoinType where
  | INVALID
  | LEFT
  | RIGHT
  | INNER
  | OUTER
  deriving DecidableEq, Repr

/-- `DistributedPlan.Node` -/
structure Node where
  ip_addr : Bytes
  port : Int32
  deriving DecidableEq, Repr

/-- `ChildPlan`: the cases of the `oneof`, each with the fields of its message. -/
inductive ChildPlan where
  | CHILD_PLAN_NOT_SET
  | seq_scan_plan (db_name tab_name : Bytes) (par_id : Int32) (child : List ChildPlan)
  | filter_plan (expression : List Bytes) (child : List ChildPlan)
  | project_plan (tab_name : Bytes) (col_name : List Bytes) (child : List ChildPlan)
  | insert_plan (db_name : Bytes) (tab_id par_id : Int32) (child : List ChildPlan)
  | delete_plan (db_name tab_name : Bytes) (par_id : Int32) (child : List ChildPlan)
  | update_plan (db_name tab_name : Bytes) (par_id : Int32) (child : List ChildPlan)
  | nestedloop_join_plan (jointype : JoinType) (child : List ChildPlan)
  | value_plan (value : List Bytes) (child : List ChildPlan)
  | table_get_pan (db_name tab_name : Bytes) (par_id : Int32) (key : Bytes) (child : List ChildPlan)
  | distributed_plan (nodes : List Node) (plans : List ChildPlan)

namespace ChildPlan

/-- `project_plan().child()`: of another case, that of the default message. -/
def project_plan_child : ChildPlan → List ChildPlan
  | .project_plan _ _ child => child
  | _ => []

/-- `value_plan().value()` -/
def value_plan_value : ChildPlan → List Bytes
  | .value_plan value _ => value
  | _ => []

/-- `value_plan().child()` -/
def value_plan_child : ChildPlan → List ChildPlan
  | .value_plan _ child => child
  | _ => []

end ChildPlan

/-! ## The conversion -/

/-- What the conversion calls. The operators that it builds are not used. -/
inductive Call where
  | LockTable (lock_mode : LockMode) (oid : table_oid_t)
  | LockPartition (lock_mode : LockMode) (oid : table_oid_t) (p_id : partition_id_t)
  | put (key value : Bytes)
  deriving DecidableEq, Repr

inductive Outcome where
  | outOfFuel
  /-- a child or a value that is not there is read -/
  | undefined
  | returned (calls : List Call)
  deriving DecidableEq, Repr

/-- First these calls. -/
def Outcome.after (calls : List Call) : Outcome → Outcome
  | .returned calls' => .returned (calls ++ calls')
  | o => o

/-- A loop over plans, up to the first that does not return. -/
def forEach (f : ChildPlan → Outcome) : List ChildPlan → Outcome
  | [] => .returned []
  | c :: child =>
    match f c with
    | .returned calls => (forEach f child).after calls
    | o => o

/-- The `switch` at a node that is set and no join: its calls, and the node that the loop goes on with. -/
def ChildPlan.switch (child_plan : ChildPlan) : Option (List Call × ChildPlan) :=
  match child_plan with
  -- a scan takes the child of a projection, too
  | .seq_scan_plan _ _ _ _ | .project_plan _ _ _ => do
    let next ← child_plan.project_plan_child[0]?
    some ([], next)
  | .insert_plan _ tab_id par_id child => do
    let first ← child[0]?
    let key ← first.value_plan_value[0]?
    let value ← first.value_plan_value[1]?
    let next ← first.value_plan_child[0]?
    some ([.LockTable .intentionExclusive tab_id, .LockPartition .exlucsive tab_id par_id, .put key value], next)
  | _ => some ([], child_plan)

/-- A round of the loop and a call of the function take one of the fuel each. -/
def ConvertIntoPlan : Nat → ChildPlan → Outcome
  | 0, _ => .outOfFuel
  | _ + 1, .CHILD_PLAN_NOT_SET => .returned []
  | fuel + 1, .nestedloop_join_plan _ child => forEach (ConvertIntoPlan fuel) child
  | fuel + 1, child_plan =>
    match child_plan.switch with
    | some (calls, next) => (ConvertIntoPlan fuel next).after calls
    | none => .undefined

/-! ## The plans on which it returns -/

/-- The loop goes on to the end from here. -/
inductive Convertible : ChildPlan → Prop where
  | notSet : Convertible .CHILD_PLAN_NOT_SET
  | project {tab_name : Bytes} {col_name : List Bytes} {next : ChildPlan} {child : List ChildPlan} :
      Convertible next → Convertible (.project_plan tab_name col_name (next :: child))
  | insert {db_name : Bytes} {tab_id par_id : Int32} {key value : Bytes} {values : List Bytes} {next : ChildPlan}
      {child child' : List ChildPlan} :
      Convertible next →
        Convertible (.insert_plan db_name tab_id par_id (.value_plan (key :: value :: values) (next :: child) :: child'))
  | join {jointype : JoinType} {child : List ChildPlan} :
      (∀ c ∈ child, Convertible c) → Convertible (.nestedloop_join_plan jointype child)

/-- The conversion returns within `fuel` rounds and calls. -/
def Returns (fuel : Nat) (p : ChildPlan) : Prop := ∃ calls, ConvertIntoPlan fuel p = .returned calls

variable {fuel fuel' : Nat} {p next : ChildPlan} {calls calls' : List Call} {child : List ChildPlan}

theorem after_eq_returned {o : Outcome} (h : o.after calls = .returned calls') : ∃ rest, o = .returned rest := by
  cases o with
  | outOfFuel => nomatch h
  | undefined => nomatch h
  | returned rest => exact ⟨rest, rfl⟩

theorem forEach_returns_iff {f : ChildPlan → Outcome} :
    (∃ calls, forEach f child = .returned calls) ↔ ∀ c ∈ child, ∃ calls, f c = .returned calls := by
  induction child with
  | nil => exact ⟨fun _ => List.forall_mem_nil _, fun _ => ⟨[], rfl⟩⟩
  | cons c child ih =>
    rw [List.forall_mem_cons, ← ih, forEach]
    cases hc : f c with
    | outOfFuel => simp
    | undefined => simp
    | returned calls =>
      constructor
      · rintro ⟨calls', h⟩
        exact ⟨⟨calls, rfl⟩, after_eq_returned h⟩
      · rintro ⟨-, rest, hrest⟩
        exact ⟨calls ++ rest, by rw [hrest]; rfl⟩

/-! ### One round -/

theorem not_returns_zero : ¬ Returns 0 p := by
  rintro ⟨calls, h⟩
  nomatch h

theorem returns_join {jointype : JoinType} :
    Returns (fuel + 1) (.nestedloop_join_plan jointype child) ↔ ∀ c ∈ child, Returns fuel c :=
  forEach_returns_iff

/-- A node that is set and no join. -/
def ChildPlan.Switched : ChildPlan → Prop
  | .CHILD_PLAN_NOT_SET | .nestedloop_join_plan _ _ => False
  | _ => True

theorem ChildPlan.unset_or_join_or_switched (p : ChildPlan) :
    p = .CHILD_PLAN_NOT_SET ∨ (∃ jointype child, p = .nestedloop_join_plan jointype child) ∨ p.Switched := by
  cases p with
  | CHILD_PLAN_NOT_SET => exact Or.inl rfl
  | nestedloop_join_plan jointype child => exact Or.inr (Or.inl ⟨jointype, child, rfl⟩)
  | _ => exact Or.inr (Or.inr trivial)

theorem ConvertIntoPlan_switched (h : p.Switched) :
    ConvertIntoPlan (fuel + 1) p =
      match p.switch with
      | some (calls, next) => (ConvertIntoPlan fuel next).after calls
      | none => .undefined := by
  cases p with
  | CHILD_PLAN_NOT_SET => exact h.elim
  | nestedloop_join_plan jointype child => exact h.elim
  | _ => rfl

theorem returns_switched (h : p.Switched) :
    Returns (fuel + 1) p ↔ ∃ calls next, p.switch = some (calls, next) ∧ Returns fuel next := by
  rw [Returns, ConvertIntoPlan_switched h]
  cases hswitch : p.switch with
  | none => simp
  | some round =>
    obtain ⟨calls, next⟩ := round
    constructor
    · rintro ⟨calls', h⟩
      exact ⟨calls, next, rfl, after_eq_returned h⟩
    · rintro ⟨_, _, heq, rest, hrest⟩
      obtain ⟨rfl, rfl⟩ := Prod.mk.inj (Option.some_inj.mp heq)
      exact ⟨calls ++ rest, by simp only [hrest, Outcome.after]⟩

/-- More rounds do no harm. -/
theorem Returns.succ (h : Returns fuel p) : Returns (fuel + 1) p := by
  induction fuel generalizing p with
  | zero => exact absurd h not_returns_zero
  | succ fuel ih =>
    obtain rfl | ⟨jointype, child, rfl⟩ | hp := p.unset_or_join_or_switched
    · exact ⟨[], rfl⟩
    · rw [returns_join] at h ⊢
      exact fun c hc => ih (h c hc)
    · rw [returns_switched hp] at h ⊢
      obtain ⟨calls, next, hswitch, hnext⟩ := h
      exact ⟨calls, next, hswitch, ih hnext⟩

theorem Returns.mono (h : Returns fuel p) (hle : fuel ≤ fuel') : Returns fuel' p := by
  induction hle with
  | refl => exact h
  | step _ ih => exact ih.succ

theorem exists_fuel (h : ∀ c ∈ child, ∃ fuel, Returns fuel c) : ∃ fuel, ∀ c ∈ child, Returns fuel c := by
  induction child with
  | nil => exact ⟨0, List.forall_mem_nil _⟩
  | cons c child ih =>
    obtain ⟨⟨n, hn⟩, hchild⟩ := List.forall_mem_cons.mp h
    obtain ⟨m, hm⟩ := ih hchild
    exact ⟨max n m, List.forall_mem_cons.mpr
      ⟨hn.mono (Nat.le_max_left n m), fun c hc => (hm c hc).mono (Nat.le_max_right n m)⟩⟩

theorem Convertible.returns (h : Convertible p) : ∃ fuel, Returns fuel p := by
  induction h with
  | notSet => exact ⟨1, [], rfl⟩
  | project _ ih =>
    obtain ⟨fuel, hnext⟩ := ih
    exact ⟨fuel + 1, (returns_switched (by trivial)).mpr ⟨_, _, rfl, hnext⟩⟩
  | insert _ ih =>
    obtain ⟨fuel, hnext⟩ := ih
    exact ⟨fuel + 1, (returns_switched (by trivial)).mpr ⟨_, _, rfl, hnext⟩⟩
  | join _ ih =>
    obtain ⟨fuel, hchild⟩ := exists_fuel ih
    exact ⟨fuel + 1, returns_join.mpr hchild⟩

/-! ### Where it goes -/

/-- A node whose case does nothing. -/
def ChildPlan.Idle (p : ChildPlan) : Prop := p.Switched ∧ p.switch = some ([], p)

/-- The loop stays at such a node for ever. -/
theorem ConvertIntoPlan_idle (h : p.Idle) (fuel : Nat) : ConvertIntoPlan fuel p = .outOfFuel := by
  induction fuel with
  | zero => rfl
  | succ fuel ih => simp only [ConvertIntoPlan_switched h.1, h.2, ih, Outcome.after]

theorem Returns.not_idle (h : Returns fuel p) : ¬ p.Idle := by
  intro hidle
  obtain ⟨calls, h⟩ := h
  nomatch (ConvertIntoPlan_idle hidle fuel).symm.trans h

/-- A scan has no child where the loop looks for it. -/
theorem ConvertIntoPlan_scan {db_name tab_name : Bytes} {par_id : Int32} :
    ConvertIntoPlan (fuel + 1) (.seq_scan_plan db_name tab_name par_id child) = .undefined := rfl

theorem switch_insert {db_name : Bytes} {tab_id par_id : Int32}
    (h : (ChildPlan.insert_plan db_name tab_id par_id child).switch = some (calls, next)) :
    ∃ key value values rest child', child = .value_plan (key :: value :: values) (next :: rest) :: child' := by
  match child with
  | .value_plan (key :: value :: values) (next' :: rest) :: child' =>
    obtain ⟨-, rfl⟩ := Prod.mk.inj (Option.some_inj.mp h)
    exact ⟨key, value, values, rest, child', rfl⟩

theorem Returns.convertible (h : Returns fuel p) : Convertible p := by
  induction fuel generalizing p with
  | zero => exact absurd h not_returns_zero
  | succ fuel ih =>
    cases p with
    | CHILD_PLAN_NOT_SET => exact .notSet
    | nestedloop_join_plan jointype child => exact .join fun c hc => ih (returns_join.mp h c hc)
    | project_plan tab_name col_name child =>
      obtain ⟨calls, next, hswitch, hnext⟩ := (returns_switched (by trivial)).mp h
      cases child with
      | nil => nomatch hswitch
      | cons next' child =>
        obtain ⟨-, rfl⟩ := Prod.mk.inj (Option.some_inj.mp hswitch)
        exact .project (ih hnext)
    | insert_plan db_name tab_id par_id child =>
      obtain ⟨calls, next, hswitch, hnext⟩ := (returns_switched (by trivial)).mp h
      obtain ⟨key, value, values, rest, child', rfl⟩ := switch_insert hswitch
      exact .insert (ih hnext)
    | seq_scan_plan db_name tab_name par_id child =>
      obtain ⟨calls, h⟩ := h
      nomatch ConvertIntoPlan_scan.symm.trans h
    | _ => exact absurd ⟨trivial, rfl⟩ h.not_idle

theorem conversion_returns_iff (p : ChildPlan) :
    (∃ fuel calls, ConvertIntoPlan fuel p = .returned calls) ↔ Convertible p := by
  constructor
  · rintro ⟨fuel, h⟩
    exact Returns.convertible h
  · exact Convertible.returns

/-- A filter is never done with. -/
theorem conversion_hangs :
    (∀ fuel, ConvertIntoPlan fuel (.filter_plan [] []) = .outOfFuel) ∧
      ¬ ∃ fuel calls, ConvertIntoPlan fuel (.filter_plan [] []) = .returned calls := by
  have hidle : (ChildPlan.filter_plan [] []).Idle := ⟨trivial, rfl⟩
  refine ⟨ConvertIntoPlan_idle hidle, ?_⟩
  rintro ⟨fuel, h⟩
  exact Returns.not_idle h hidle

/-! ## The same loop in the system

`RemotePlan` has the plans as a stack, and of the messages only what the steps look at. -/

mutual

def ChildPlan.forget : ChildPlan → RemotePlan.ChildPlan
  | .CHILD_PLAN_NOT_SET => .CHILD_PLAN_NOT_SET
  | .seq_scan_plan _ _ _ _ => .seq_scan_plan
  | .filter_plan _ _ => .filter_plan
  | .project_plan _ _ child => .project_plan (forgetAll child)
  | .insert_plan _ tab_id par_id child => .insert_plan tab_id par_id (forgetAll child)
  | .delete_plan _ _ _ _ => .delete_plan
  | .update_plan _ _ _ _ => .update_plan
  | .nestedloop_join_plan _ child => .nestedloop_join_plan (forgetAll child)
  | .value_plan value child => .value_plan value (forgetAll child)
  | .table_get_pan _ _ _ _ _ => .table_get_pan
  | .distributed_plan _ _ => .distributed_plan

def forgetAll : List ChildPlan → List RemotePlan.ChildPlan
  | [] => []
  | c :: child => c.forget :: forgetAll child

end

theorem forgetAll_append (child child' : List ChildPlan) :
    forgetAll (child ++ child') = forgetAll child ++ forgetAll child' := by
  induction child with
  | nil => rfl
  | cons c child ih => rw [List.cons_append, forgetAll, forgetAll, ih, List.cons_append]

/-- A plan of the system goes on; what it waits for at an insert node is left out. -/
def Goes (todo todo' : List RemotePlan.ChildPlan) : Prop :=
  RemotePlan.advance todo = some todo' ∨
    ∃ node next, todo.head?.bind RemotePlan.ChildPlan.insert? = some node ∧ node.child.head? = some next ∧
      todo' = next :: todo.tail

theorem goes_all (h : ∀ c ∈ child, ∀ rest, Relation.ReflTransGen Goes (c.forget :: rest) rest)
    (rest : List RemotePlan.ChildPlan) : Relation.ReflTransGen Goes (forgetAll child ++ rest) rest := by
  induction child with
  | nil => exact .refl
  | cons c child ih =>
    obtain ⟨hc, hchild⟩ := List.forall_mem_cons.mp h
    exact (hc _).trans (ih hchild)

/-- Where the conversion returns, the plan of the system can come to its end. -/
theorem Convertible.goes (h : Convertible p) (rest : List RemotePlan.ChildPlan) :
    Relation.ReflTransGen Goes (p.forget :: rest) rest := by
  induction h generalizing rest with
  | notSet => exact .single (Or.inl rfl)
  | project _ ih => exact .head (Or.inl rfl) (ih rest)
  | insert _ ih => exact .head (Or.inr ⟨_, _, rfl, rfl, rfl⟩) (ih rest)
  | join _ ih => exact .head (Or.inl rfl) (goes_all ih rest)

/-- If the plans `child'` come to an end, the plans `child` do. -/
def EndsWith (child child' : List ChildPlan) : Prop := (∀ c ∈ child', Convertible c) → ∀ c ∈ child, Convertible c

/-- A step from plans of messages goes to plans of messages. -/
theorem advance_forget {p : ChildPlan} {todo : List RemotePlan.ChildPlan}
    (h : RemotePlan.advance (p.forget :: forgetAll child) = some todo) :
    ∃ child', todo = forgetAll child' ∧ EndsWith (p :: child) child' := by
  cases p with
  | CHILD_PLAN_NOT_SET =>
    obtain rfl := Option.some_inj.mp h
    exact ⟨child, rfl, fun hall => List.forall_mem_cons.mpr ⟨.notSet, hall⟩⟩
  | seq_scan_plan db_name tab_name par_id child => nomatch h
  | insert_plan db_name tab_id par_id child => nomatch h
  | project_plan tab_name col_name below =>
    cases below with
    | nil => nomatch h
    | cons next below =>
      obtain rfl := Option.some_inj.mp h
      refine ⟨next :: child, rfl, fun hall => ?_⟩
      obtain ⟨hnext, hchild⟩ := List.forall_mem_cons.mp hall
      exact List.forall_mem_cons.mpr ⟨.project hnext, hchild⟩
  | nestedloop_join_plan jointype below =>
    obtain rfl := Option.some_inj.mp h
    refine ⟨below ++ child, (forgetAll_append below child).symm, fun hall => ?_⟩
    obtain ⟨hbelow, hchild⟩ := List.forall_mem_append.mp hall
    exact List.forall_mem_cons.mpr ⟨.join hbelow, hchild⟩
  | _ =>
    obtain rfl := Option.some_inj.mp h
    exact ⟨_ :: child, rfl, id⟩

/-- The write of an insert node. -/
theorem insert_forget {p : ChildPlan} {node : RemotePlan.Insert} {next : RemotePlan.ChildPlan}
    (hnode : p.forget.insert? = some node) (hnext : node.child.head? = some next) :
    ∃ q : ChildPlan, next = q.forget ∧ (Convertible q → Convertible p) := by
  match p with
  | .insert_plan db_name tab_id par_id (.value_plan (key :: value :: values) (q :: below) :: child) =>
    obtain rfl := Option.some_inj.mp hnode
    obtain rfl := Option.some_inj.mp hnext
    exact ⟨q, rfl, .insert⟩
  | .insert_plan db_name tab_id par_id (.value_plan (key :: value :: values) [] :: child) =>
    obtain rfl := Option.some_inj.mp hnode
    nomatch hnext

theorem Goes.back {todo : List RemotePlan.ChildPlan} (h : Goes (forgetAll child) todo) :
    ∃ child', todo = forgetAll child' ∧ EndsWith child child' := by
  cases child with
  | nil =>
    obtain hadvance | ⟨node, next, hnode, -⟩ := h
    · nomatch hadvance
    · nomatch hnode
  | cons p child =>
    obtain hadvance | ⟨node, next, hnode, hnext, rfl⟩ := h
    · exact advance_forget hadvance
    · obtain ⟨q, rfl, hq⟩ := insert_forget hnode hnext
      refine ⟨q :: child, rfl, fun hall => ?_⟩
      obtain ⟨hqok, hchild⟩ := List.forall_mem_cons.mp hall
      exact List.forall_mem_cons.mpr ⟨hq hqok, hchild⟩

theorem forgetAll_eq_nil (h : forgetAll child = []) : child = [] := by
  cases child with
  | nil => rfl
  | cons c child => nomatch h

theorem convertible_of_goes {todo : List RemotePlan.ChildPlan} (h : Relation.ReflTransGen Goes todo []) :
    ∀ child, todo = forgetAll child → ∀ c ∈ child, Convertible c := by
  induction h using Relation.ReflTransGen.head_induction_on with
  | refl =>
    intro child hchild
    rw [forgetAll_eq_nil hchild.symm]
    exact List.forall_mem_nil _
  | head hstep _ ih =>
    rintro child rfl
    obtain ⟨child', hchild', hends⟩ := hstep.back
    exact hends (ih child' hchild')

/-- The system and the count of rounds agree about which plans come to an end. -/
theorem goes_iff_convertible (p : ChildPlan) : Relation.ReflTransGen Goes [p.forget] [] ↔ Convertible p := by
  constructor
  · intro h
    exact convertible_of_goes h [p] rfl p List.mem_cons_self
  · intro h
    exact h.goes []

end distributed_plan_service
end DDBMS
