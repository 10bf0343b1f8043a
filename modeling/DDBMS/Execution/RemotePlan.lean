import DDBMS.Transaction.LockFrame
import DDBMS.Recovery.LogManagerOrder
import DDBMS.Storage.KVStoreNew
import DDBMS.Storage.TableBuild

/-!
# `Execution.RemotePlan` — remote plans and their locks

`RemotePlanNodeImpl::ConvertIntoPlan` (`execution/execution_rpc.cpp`) walks through a plan. At an insert node it locks the
table and the partition and writes. It drops what the two lock calls return, so it also writes when one of them has failed
and the transaction is aborted.

The system is the lock manager under no-wait, the key-value store, and the threads that execute plans. Any number of other
calls of the lock manager and of the store happen between the steps of a plan. The operators that the walk builds are never
used and left out, and so is what only they would read.
-/

namespace DDBMS
namespace RemotePlan

/-- `ChildPlan`, by the case of its `oneof`. -/
inductive ChildPlan where
  | CHILD_PLAN_NOT_SET
  | seq_scan_plan
  | filter_plan
  | project_plan (child : List ChildPlan)
  | insert_plan (tab_id : table_oid_t) (par_id : partition_id_t) (child : List ChildPlan)
  | delete_plan
  | update_plan
  | nestedloop_join_plan (child : List ChildPlan)
  | value_plan (value : List Bytes) (child : List ChildPlan)
  | table_get_pan
  | distributed_plan

/-- What an insert node asks for. -/
structure Insert where
  tab_id : table_oid_t
  par_id : partition_id_t
  key : Bytes
  value : Bytes
  /-- the children of the value node -/
  child : List ChildPlan

def Insert.table (node : Insert) : Lock_data_id := { oid_ := node.tab_id, type_ := .table }

def Insert.partition (node : Insert) : Lock_data_id :=
  { oid_ := node.tab_id, p_id_ := node.par_id, type_ := .partition }

/-- The insert node, if there is one and its first child has a key and a value. -/
def ChildPlan.insert? : ChildPlan → Option Insert
  | .insert_plan tab_id par_id (.value_plan (key :: value :: _) child :: _) => some ⟨tab_id, par_id, key, value, child⟩
  | _ => none

/-- Where a thread stands at its node. -/
inductive Phase where
  | reading
  /-- `LockTable` is call `c` of the lock manager -/
  | tableCall (c : Nat)
  /-- `LockPartition` is call `c` of the lock manager -/
  | partitionCall (c : Nat)
  /-- in `KVStore::put` -/
  | putting
  deriving DecidableEq, Repr

def Phase.call? : Phase → Option Nat
  | .tableCall c | .partitionCall c => some c
  | _ => none

/-- A call of `ConvertIntoPlan`. -/
structure Exec where
  /-- its thread, for the store -/
  thread : Nat
  /-- its transaction object -/
  txn : Nat
  /-- the current plan first, then the plans that the enclosing joins go on with -/
  todo : List ChildPlan
  phase : Phase := .reading

def Exec.insert? (x : Exec) : Option Insert := x.todo.head?.bind ChildPlan.insert?

structure World where
  lock : Lock_manager.World
  kv : KVStore.World
  plans : List Exec := []

inductive Event where
  /-- other code works with the lock manager or sets the state of a transaction -/
  | lock (e : Lock_manager.Event)
  /-- any thread goes on in the store -/
  | kv (e : KVStore.Event)
  /-- a plan comes in -/
  | SendRemotePlan (thread txn : Nat) (child : ChildPlan)
  | LockTable (p : Nat)
  | LockPartition (p : Nat)
  /-- the critical section of the lock call of plan `p` -/
  | enter (p : Nat)
  | put (p : Nat)
  /-- to the next node -/
  | advance (p : Nat)

def World.setPlan (w : World) (p : Nat) (x : Exec) : World := { w with plans := w.plans.set p x }

/-- The next node, from one that inserts nothing. -/
def advance : List ChildPlan → Option (List ChildPlan)
  | .CHILD_PLAN_NOT_SET :: rest => some rest
  | .project_plan (child :: _) :: rest => some (child :: rest)
  | .nestedloop_join_plan child :: rest => some (child ++ rest)
  -- `break` leaves the `switch` only, and the loop comes back to the same node
  | .filter_plan :: rest => some (.filter_plan :: rest)
  | .delete_plan :: rest => some (.delete_plan :: rest)
  | .update_plan :: rest => some (.update_plan :: rest)
  | .value_plan value child :: rest => some (.value_plan value child :: rest)
  | .table_get_pan :: rest => some (.table_get_pan :: rest)
  | .distributed_plan :: rest => some (.distributed_plan :: rest)
  -- a child that is not there: a scan looks for the child of a projection
  | _ => none

/-- A lock call of a plan that has returned, with whatever result. -/
def returned (lock : Lock_manager.World) (c : Nat) : Bool :=
  match lock.calls[c]? with
  | some (.returned _) => true
  | _ => false

def next (snappy : Snappy) (w : World) : Event → Option World
  | .lock e => (Lock_manager.next true w.lock e).map fun lock => { w with lock := lock }
  | .kv e => (KVStore.next snappy w.kv e).map fun kv => { w with kv := kv }
  | .SendRemotePlan thread txn child =>
    some { w with plans := w.plans ++ [{ thread := thread, txn := txn, todo := [child] }] }
  | .LockTable p => do
    let x ← w.plans[p]?
    let node ← x.insert?
    if x.phase = .reading then
      let lock ← Lock_manager.next true w.lock (Lock_manager.LockTable x.txn .intentionExclusive node.tab_id)
      some { w.setPlan p { x with phase := .tableCall w.lock.calls.length } with lock := lock }
    else none
  | .LockPartition p => do
    let x ← w.plans[p]?
    let node ← x.insert?
    match x.phase with
    | .tableCall c =>
      if returned w.lock c then
        let lock ← Lock_manager.next true w.lock (Lock_manager.LockPartition x.txn .exlucsive node.tab_id node.par_id)
        some { w.setPlan p { x with phase := .partitionCall w.lock.calls.length } with lock := lock }
      else none
    | _ => none
  | .enter p => do
    let x ← w.plans[p]?
    let c ← x.phase.call?
    let lock ← Lock_manager.next true w.lock (.enter c)
    some { w with lock := lock }
  | .put p => do
    let x ← w.plans[p]?
    let node ← x.insert?
    match x.phase with
    | .partitionCall c =>
      if returned w.lock c then
        let kv ← KVStore.next snappy w.kv (.put x.thread x.txn node.key node.value true)
        some { w.setPlan p { x with phase := .putting } with kv := kv }
      else none
    | _ => none
  | .advance p => do
    let x ← w.plans[p]?
    match x.phase with
    | .reading =>
      let todo ← advance x.todo
      some (w.setPlan p { x with todo := todo })
    | .putting =>
      let node ← x.insert?
      let child ← node.child.head?
      if w.kv.calls x.thread = .idle then some (w.setPlan p { x with todo := child :: x.todo.tail, phase := .reading })
      else none
    | _ => none

/-! ## Writes under locks -/

/-- The id of the transaction of a plan. -/
def World.txn_id (w : World) (x : Exec) : txn_id_t := (w.lock.txns x.txn).txn_id_

/-- A plan that executes `KVStore::put` has its transaction growing, IX or stronger granted on the table, and X on the
    partition. -/
def WritesLocked (w : World) : Prop :=
  ∀ x ∈ w.plans, x.phase = .putting → ∃ node, x.insert? = some node ∧ (w.lock.txns x.txn).state_ = .growing ∧
    (∃ m, Lock_manager.covers m .intentionExclusive ∧ w.lock.HasGranted (w.txn_id x) node.table m) ∧
    w.lock.HasGranted (w.txn_id x) node.partition .exlucsive

/-- Next to a plan that is not finished, only other transactions work. -/
def OthersOnly (w : World) : Event → Prop
  | .lock e => ∀ x ∈ w.plans, x.todo ≠ [] → ∀ t ∈ w.lock.actor e, (w.lock.txns t).txn_id_ ≠ w.txn_id x
  | .SendRemotePlan _ txn _ => ∀ x ∈ w.plans, x.todo ≠ [] → (w.lock.txns txn).txn_id_ ≠ w.txn_id x
  | _ => True

/-- The request of a lock call is admitted. -/
def requestOk (lock : Lock_manager.World) (c : Nat) : Bool :=
  match lock.calls[c]? with
  | some (.entering t m l) => lock.admits t m l
  | _ => true

/-- A plan locks a table while its transaction may lock, and each of its requests is admitted. -/
def LockOk (w : World) : Event → Prop
  | .LockTable p => ∀ x ∈ w.plans[p]?, (w.lock.txns x.txn).state_ = .default ∨ (w.lock.txns x.txn).state_ = .growing
  | .enter p => ∀ x ∈ w.plans[p]?, ∀ c ∈ x.phase.call?, requestOk w.lock c = true
  | _ => True

instance instDecidableOthersOnly (w : World) : (e : Event) → Decidable (OthersOnly w e)
  | .lock e => inferInstanceAs (Decidable (∀ x ∈ w.plans, x.todo ≠ [] → ∀ t ∈ w.lock.actor e,
      (w.lock.txns t).txn_id_ ≠ w.txn_id x))
  | .SendRemotePlan _ txn _ =>
    inferInstanceAs (Decidable (∀ x ∈ w.plans, x.todo ≠ [] → (w.lock.txns txn).txn_id_ ≠ w.txn_id x))
  | .kv _ | .LockTable _ | .LockPartition _ | .enter _ | .put _ | .advance _ => inferInstanceAs (Decidable True)

instance instDecidableLockOk (w : World) : (e : Event) → Decidable (LockOk w e)
  | .LockTable p => inferInstanceAs (Decidable (∀ x ∈ w.plans[p]?,
      (w.lock.txns x.txn).state_ = .default ∨ (w.lock.txns x.txn).state_ = .growing))
  | .enter p => inferInstanceAs (Decidable (∀ x ∈ w.plans[p]?, ∀ c ∈ x.phase.call?, requestOk w.lock c = true))
  | .lock _ | .kv _ | .SendRemotePlan _ _ _ | .LockPartition _ | .put _ | .advance _ => inferInstanceAs (Decidable True)

variable {snappy : Snappy} {w w' : World} {x x' : Exec} {p : Nat} {lock lock' : Lock_manager.World} {node : Insert}

/-! ## What a plan has at each point -/

/-- What a plan has when all its requests so far were admitted. -/
def PlanOk (lock : Lock_manager.World) (x : Exec) : Prop :=
  match x.phase with
  | .reading => True
  | .tableCall c => ∃ node, x.insert? = some node ∧ (lock.txns x.txn).state_ = .growing ∧
      (lock.calls[c]? = some (.entering x.txn .intentionExclusive node.table) ∨
        lock.calls[c]? = some (.returned true) ∧
          lock.HasGranted (lock.txns x.txn).txn_id_ node.table .intentionExclusive)
  | .partitionCall c => ∃ node, x.insert? = some node ∧ (lock.txns x.txn).state_ = .growing ∧
      lock.HasGranted (lock.txns x.txn).txn_id_ node.table .intentionExclusive ∧
      (lock.calls[c]? = some (.entering x.txn .exlucsive node.partition) ∨
        lock.calls[c]? = some (.returned true) ∧
          lock.HasGranted (lock.txns x.txn).txn_id_ node.partition .exlucsive)
  | .putting => ∃ node, x.insert? = some node ∧ (lock.txns x.txn).state_ = .growing ∧
      lock.HasGranted (lock.txns x.txn).txn_id_ node.table .intentionExclusive ∧
      lock.HasGranted (lock.txns x.txn).txn_id_ node.partition .exlucsive

theorem todo_ne_nil (h : x.insert? = some node) : x.todo ≠ [] := by
  intro hnil
  rw [Exec.insert?, hnil] at h
  cases h

/-- A plan that is finished has nothing. -/
theorem PlanOk.of_finished (h : PlanOk lock x) (hx : x.todo = []) : PlanOk lock' x := by
  have hnone : ∀ node, x.insert? ≠ some node := fun node hnode => todo_ne_nil hnode hx
  unfold PlanOk at h ⊢
  cases hphase : x.phase with
  | reading => trivial
  | tableCall c | partitionCall c | putting =>
      rw [hphase] at h
      obtain ⟨node, hnode, -⟩ := h
      exact absurd hnode (hnone node)

/-- A step of another transaction. -/
theorem PlanOk.other {e : Lock_manager.Event} (h : PlanOk lock x) (hq : Lock_manager.QueuesOk lock)
    (hblocked : lock.NotBlocked) (hst : Lock_manager.step true lock e lock')
    (hactor : ∀ t ∈ lock.actor e, (lock.txns t).txn_id_ ≠ (lock.txns x.txn).txn_id_) : PlanOk lock' x := by
  have hu := Lock_manager.untouched_step hq hblocked hactor hst
  have htxn : lock'.txns x.txn = lock.txns x.txn := hu.txns x.txn rfl
  have hentering : ∀ {c : Nat} {m : LockMode} {l : Lock_data_id}, lock.calls[c]? = some (.entering x.txn m l) →
      lock'.calls[c]? = some (.entering x.txn m l) :=
    fun hc => hu.calls _ _ (Lock_manager.call_ne hst hactor hc (Or.inr ⟨_, _, _, rfl, rfl⟩)) hc
  have hreturned : ∀ {c : Nat}, lock.calls[c]? = some (.returned true) → lock'.calls[c]? = some (.returned true) :=
    fun hc => hu.calls _ _ (Lock_manager.call_ne hst hactor hc (Or.inl ⟨_, rfl⟩)) hc
  -- locks and calls of the plan are as they were
  unfold PlanOk at h ⊢
  cases hphase : x.phase with
  | reading => trivial
  | tableCall c =>
      rw [hphase] at h
      obtain ⟨node, hnode, hstate, hcall | ⟨hcall, hg⟩⟩ := h
      · exact ⟨node, hnode, by rw [htxn]; exact hstate, Or.inl (hentering hcall)⟩
      · refine ⟨node, hnode, by rw [htxn]; exact hstate, Or.inr ⟨hreturned hcall, ?_⟩⟩
        rw [htxn]
        exact hg.untouched hu
  | partitionCall c =>
      rw [hphase] at h
      obtain ⟨node, hnode, hstate, htable, hcall⟩ := h
      refine ⟨node, hnode, by rw [htxn]; exact hstate, by rw [htxn]; exact htable.untouched hu, ?_⟩
      rcases hcall with hcall | ⟨hcall, hg⟩
      · exact Or.inl (hentering hcall)
      · refine Or.inr ⟨hreturned hcall, ?_⟩
        rw [htxn]
        exact hg.untouched hu
  | putting =>
      rw [hphase] at h
      obtain ⟨node, hnode, hstate, htable, hpartition⟩ := h
      refine ⟨node, hnode, ?_⟩
      rw [htxn]
      exact ⟨hstate, htable.untouched hu, hpartition.untouched hu⟩

/-! ## The invariant -/

/-- Plans that are not finished have different transactions. -/
def Apart (w : World) : Prop :=
  ∀ (i j : Nat) x y, w.plans[i]? = some x → w.plans[j]? = some y → i ≠ j → x.todo ≠ [] → y.todo ≠ [] →
    w.txn_id x ≠ w.txn_id y

/-- Plan `p` goes on with its transaction. -/
theorem Apart.set (h : Apart w) (hp : w.plans[p]? = some x) (hx : x'.todo ≠ [] → x.todo ≠ []) (htxn : x'.txn = x.txn)
    (hids : Lock_manager.SameIds w.lock w'.lock.txns) (hplans : w'.plans = w.plans.set p x') : Apart w' := by
  have hback : ∀ (j : Nat) y, w'.plans[j]? = some y → y.todo ≠ [] →
      ∃ z, w.plans[j]? = some z ∧ z.todo ≠ [] ∧ z.txn = y.txn := by
    intro j y hy hdone
    rw [hplans] at hy
    rcases Slots.get_set hy with ⟨rfl, rfl⟩ | ⟨-, hy⟩
    · exact ⟨x, hp, hx hdone, htxn.symm⟩
    · exact ⟨y, hy, hdone, rfl⟩
  intro i j y z hy hz hij hydone hzdone
  obtain ⟨y', hy', hydone', hytxn⟩ := hback i y hy hydone
  obtain ⟨z', hz', hzdone', hztxn⟩ := hback j z hz hzdone
  have hne := h i j y' z' hy' hz' hij hydone' hzdone'
  rw [World.txn_id, World.txn_id, hids, hids]
  rwa [World.txn_id, World.txn_id, hytxn, hztxn] at hne

/-- Every plan has what it should. -/
structure Standing (w : World) : Prop where
  queues : Lock_manager.QueuesOk w.lock
  notBlocked : w.lock.NotBlocked
  plans : ∀ x ∈ w.plans, PlanOk w.lock x
  apart : Apart w

theorem Standing.writesLocked (h : Standing w) : WritesLocked w := by
  intro x hx hphase
  have hok := h.plans x hx
  rw [PlanOk, hphase] at hok
  obtain ⟨node, hnode, hstate, htable, hpartition⟩ := hok
  exact ⟨node, hnode, hstate, ⟨_, Lock_manager.covers_refl _, htable⟩, hpartition⟩

/-- A step of the lock manager for plan `p`. -/
theorem Standing.own {e : Lock_manager.Event} (h : Standing w) (x' : Exec) (hp : w.plans[p]? = some x) (hx : x.todo ≠ [])
    (hst : Lock_manager.step true w.lock e lock') (hactor : ∀ t ∈ w.lock.actor e, t = x.txn) (htxn : x'.txn = x.txn)
    (hok : PlanOk lock' x')
    (hlock : w'.lock = lock') (hplans : w'.plans = w.plans.set p x') : Standing w' := by
  subst hlock
  refine ⟨Lock_manager.queuesOk_step h.queues hst, Lock_manager.notBlocked_step h.notBlocked hst, ?_,
    h.apart.set hp (fun _ => hx) htxn (Lock_manager.sameIds_step hst) hplans⟩
  intro y hy
  obtain ⟨j, hj⟩ := List.mem_iff_getElem?.mp hy
  rw [hplans] at hj
  rcases Slots.get_set hj with ⟨-, rfl⟩ | ⟨hjp, hj⟩
  · exact hok
  · have hyok := h.plans y (List.mem_of_getElem? hj)
    by_cases hdone : y.todo = []
    · exact hyok.of_finished hdone
    · apply hyok.other h.queues h.notBlocked hst
      intro t ht
      rw [hactor t ht]
      exact h.apart p j x y hp hj (Ne.symm hjp) hx hdone

/-- A step of plan `p` that leaves the lock manager alone. -/
theorem Standing.setPlan (h : Standing w) (x' : Exec) (hp : w.plans[p]? = some x) (hx : x'.todo ≠ [] → x.todo ≠ [])
    (htxn : x'.txn = x.txn) (hok : PlanOk w.lock x') (hlock : w'.lock = w.lock) (hplans : w'.plans = w.plans.set p x') :
    Standing w' := by
  have hapart : Apart w' := h.apart.set hp hx htxn (by rw [hlock]; exact fun _ => rfl) hplans
  refine ⟨by rw [hlock]; exact h.queues, by rw [hlock]; exact h.notBlocked, ?_, hapart⟩
  intro y hy
  obtain ⟨j, hj⟩ := List.mem_iff_getElem?.mp hy
  rw [hplans] at hj
  rw [hlock]
  rcases Slots.get_set hj with ⟨-, rfl⟩ | ⟨-, hj⟩
  · exact hok
  · exact h.plans y (List.mem_of_getElem? hj)

/-- A step of another transaction. -/
theorem Standing.other {e : Lock_manager.Event} (h : Standing w) (hst : Lock_manager.step true w.lock e lock')
    (hactor : ∀ x ∈ w.plans, x.todo ≠ [] → ∀ t ∈ w.lock.actor e, (w.lock.txns t).txn_id_ ≠ w.txn_id x) :
    Standing { w with lock := lock' } := by
  refine ⟨Lock_manager.queuesOk_step h.queues hst, Lock_manager.notBlocked_step h.notBlocked hst, ?_, ?_⟩
  · intro x hx
    by_cases hdone : x.todo = []
    · exact (h.plans x hx).of_finished hdone
    · exact (h.plans x hx).other h.queues h.notBlocked hst (hactor x hx hdone)
  · intro i j x y hx hy hij hxdone hydone
    have hids := Lock_manager.sameIds_step hst
    show (lock'.txns x.txn).txn_id_ ≠ (lock'.txns y.txn).txn_id_
    rw [hids, hids]
    exact h.apart i j x y hx hy hij hxdone hydone

/-! ## The steps of a plan -/

/-- A new plan: no other one has its transaction. -/
theorem Standing.start {thread txn : Nat} {child : ChildPlan} (h : Standing w)
    (hothers : ∀ x ∈ w.plans, x.todo ≠ [] → (w.lock.txns txn).txn_id_ ≠ w.txn_id x) :
    Standing { w with plans := w.plans ++ [{ thread := thread, txn := txn, todo := [child] }] } := by
  refine ⟨h.queues, h.notBlocked, ?_, ?_⟩
  · intro x hx
    rcases List.mem_append.mp hx with hx | hx
    · exact h.plans x hx
    · rw [List.mem_singleton.mp hx]
      trivial
  · intro i j x y hx hy hij hxdone hydone
    show (w.lock.txns x.txn).txn_id_ ≠ (w.lock.txns y.txn).txn_id_
    rcases Slots.get_snoc hx with hx | ⟨hi, rfl⟩
    · rcases Slots.get_snoc hy with hy | ⟨-, rfl⟩
      · exact h.apart i j x y hx hy hij hxdone hydone
      · exact (hothers x (List.mem_of_getElem? hx) hxdone).symm
    · rcases Slots.get_snoc hy with hy | ⟨hj, -⟩
      · exact hothers y (List.mem_of_getElem? hy) hydone
      · exact absurd (hi.trans hj.symm) hij

theorem Standing.lockTable (h : Standing w) (hp : w.plans[p]? = some x) (hnode : x.insert? = some node)
    (hstate : (w.lock.txns x.txn).state_ = .default ∨ (w.lock.txns x.txn).state_ = .growing)
    (hst : Lock_manager.next true w.lock (Lock_manager.LockTable x.txn .intentionExclusive node.tab_id) = some lock') :
    Standing { w.setPlan p { x with phase := .tableCall w.lock.calls.length } with lock := lock' } := by
  obtain ⟨hids, hgrowing, hmap, hcalls⟩ :=
    Lock_manager.lock_admits (l := node.table) (m := .intentionExclusive) hstate rfl
  obtain rfl : w.lock.lock x.txn .intentionExclusive node.table = lock' := Option.some.inj hst
  refine h.own { x with phase := .tableCall w.lock.calls.length } hp (todo_ne_nil hnode) hst ?_ rfl ?_ rfl rfl
  · intro t ht
    exact (Option.some.inj ht).symm
  · refine ⟨node, hnode, hgrowing, Or.inl ?_⟩
    rw [hcalls]
    exact List.getElem?_concat_length

theorem Standing.lockPartition {c : Nat} (h : Standing w) (hp : w.plans[p]? = some x) (hphase : x.phase = .tableCall c)
    (hnode : x.insert? = some node) (hreturned : returned w.lock c = true)
    (hst : Lock_manager.next true w.lock (Lock_manager.LockPartition x.txn .exlucsive node.tab_id node.par_id) =
      some lock') :
    Standing { w.setPlan p { x with phase := .partitionCall w.lock.calls.length } with lock := lock' } := by
  have hok := h.plans x (List.mem_of_getElem? hp)
  rw [PlanOk, hphase] at hok
  obtain ⟨node', hnode', hstate, hcall⟩ := hok
  obtain rfl := Option.some.inj (hnode.symm.trans hnode')
  have htable : w.lock.HasGranted (w.lock.txns x.txn).txn_id_ node.table .intentionExclusive := by
    rcases hcall with hcall | ⟨-, hg⟩
    · rw [returned, hcall] at hreturned
      cases hreturned
    · exact hg
  obtain ⟨hids, hgrowing, hmap, hcalls⟩ :=
    Lock_manager.lock_admits (l := node.partition) (m := .exlucsive) (Or.inr hstate) rfl
  obtain rfl : w.lock.lock x.txn .exlucsive node.partition = lock' := Option.some.inj hst
  refine h.own { x with phase := .partitionCall w.lock.calls.length } hp (todo_ne_nil hnode) hst ?_ rfl ?_ rfl rfl
  · intro t ht
    exact (Option.some.inj ht).symm
  · refine ⟨node, hnode, hgrowing, ?_, Or.inl ?_⟩
    · rw [hids, Lock_manager.World.HasGranted, hmap]
      exact htable
    · rw [hcalls]
      exact List.getElem?_concat_length

/-- The call that a plan waits for is the one that enters. -/
theorem waited_call {c t : Nat} {m m' : LockMode} {l l' : Lock_data_id} {P : Prop}
    (hcall : lock.calls[c]? = some (.entering t m l))
    (hbefore : lock.calls[c]? = some (.entering x.txn m' l') ∨ lock.calls[c]? = some (.returned true) ∧ P) :
    t = x.txn ∧ m = m' ∧ l = l' := by
  rw [hcall] at hbefore
  rcases hbefore with heq | ⟨heq, -⟩
  · exact Lock_manager.Call.entering.inj (Option.some.inj heq)
  · cases heq

/-- The request of plan `p` is admitted. -/
theorem Standing.admitted {c : Nat} {m : LockMode} {l : Lock_data_id} (h : Standing w) (hp : w.plans[p]? = some x)
    (hx : x.todo ≠ []) (hstate : (w.lock.txns x.txn).state_ = .growing)
    (hcall : w.lock.calls[c]? = some (.entering x.txn m l)) (hadmits : w.lock.admits x.txn m l = true)
    (hst : Lock_manager.next true w.lock (.enter c) = some (w.lock.enter true c x.txn m l))
    (hok : Lock_manager.Admitted w.lock (w.lock.enter true c x.txn m l) c x.txn m l →
      (w.lock.enter true c x.txn m l).calls[c]? = some (.returned true) → PlanOk (w.lock.enter true c x.txn m l) x) :
    Standing { w with lock := w.lock.enter true c x.txn m l } := by
  have hadmitted : Lock_manager.Admitted w.lock (w.lock.enter true c x.txn m l) c x.txn m l :=
    Lock_manager.enter_admits (by rw [hstate]; decide) hadmits
  have hreturned : (w.lock.enter true c x.txn m l).calls[c]? = some (.returned true) := by
    rw [hadmitted.calls]
    exact List.getElem?_set_self (List.getElem?_eq_some_iff.mp hcall).1
  exact h.own x hp hx hst (fun t ht => Option.some.inj (ht.symm.trans (Lock_manager.World.actor_enter hcall))) rfl
    (hok hadmitted hreturned) rfl (Slots.set_self hp).symm

/-- The critical section of a lock call: its request is admitted, so it is granted. -/
theorem Standing.enter {c : Nat} (h : Standing w) (hp : w.plans[p]? = some x) (hc : x.phase.call? = some c)
    (hadmits : ∀ t m l, w.lock.calls[c]? = some (.entering t m l) → w.lock.admits t m l = true)
    (hst : Lock_manager.next true w.lock (.enter c) = some lock') : Standing { w with lock := lock' } := by
  have hok := h.plans x (List.mem_of_getElem? hp)
  -- a call that has returned does not enter
  have hentering : ∃ t m l, w.lock.calls[c]? = some (.entering t m l) ∧ lock' = w.lock.enter true c t m l := by
    cases Lock_manager.step_cases hst with
    | enter hcall => exact ⟨_, _, _, hcall, rfl⟩
  obtain ⟨t, m, l, hcall, rfl⟩ := hentering
  cases hphase : x.phase with
  | reading | putting =>
      rw [hphase] at hc
      cases hc
  | tableCall d =>
      rw [hphase] at hc
      obtain rfl := Option.some.inj hc
      rw [PlanOk, hphase] at hok
      obtain ⟨node, hnode, hstate, hbefore⟩ := hok
      obtain ⟨rfl, rfl, rfl⟩ := waited_call hcall hbefore
      refine h.admitted hp (todo_ne_nil hnode) hstate hcall (hadmits _ _ _ hcall) hst fun hadmitted hreturned => ?_
      rw [PlanOk, hphase]
      refine ⟨node, hnode, hadmitted.state.trans hstate, Or.inr ⟨hreturned, ?_⟩⟩
      rw [hadmitted.ids]
      exact hadmitted.granted
  | partitionCall d =>
      rw [hphase] at hc
      obtain rfl := Option.some.inj hc
      rw [PlanOk, hphase] at hok
      obtain ⟨node, hnode, hstate, htable, hbefore⟩ := hok
      obtain ⟨rfl, rfl, rfl⟩ := waited_call hcall hbefore
      refine h.admitted hp (todo_ne_nil hnode) hstate hcall (hadmits _ _ _ hcall) hst fun hadmitted hreturned => ?_
      rw [PlanOk, hphase]
      refine ⟨node, hnode, hadmitted.state.trans hstate, ?_, Or.inr ⟨hreturned, ?_⟩⟩
      · -- the queue of the table is another one
        rw [hadmitted.ids, Lock_manager.World.HasGranted,
          hadmitted.others node.table (fun heq => by cases congrArg Lock_data_id.type_ heq)]
        exact htable
      · rw [hadmitted.ids]
        exact hadmitted.granted

/-- Both locks are there when the write begins. -/
theorem Standing.putting {c : Nat} (h : Standing w) (hp : w.plans[p]? = some x) (hphase : x.phase = .partitionCall c)
    (hreturned : returned w.lock c = true) : PlanOk w.lock { x with phase := .putting } := by
  have hok := h.plans x (List.mem_of_getElem? hp)
  rw [PlanOk, hphase] at hok
  obtain ⟨node, hnode, hstate, htable, hcall | ⟨-, hpartition⟩⟩ := hok
  · rw [returned, hcall] at hreturned
    cases hreturned
  · exact ⟨node, hnode, hstate, htable, hpartition⟩

/-- **One step.** -/
theorem Standing.step {e : Event} (h : Standing w)
    (hstep : Guarded (fun w e => OthersOnly w e ∧ LockOk w e) (FunStep (next snappy)) w e w') : Standing w' := by
  obtain ⟨⟨hothers, hok⟩, hstep⟩ := hstep
  cases e with
  | lock e =>
      obtain ⟨lock, hst, rfl⟩ := Option.map_eq_some_iff.mp hstep
      exact h.other hst hothers
  | kv e =>
      obtain ⟨kv, -, rfl⟩ := Option.map_eq_some_iff.mp hstep
      exact ⟨h.queues, h.notBlocked, h.plans, h.apart⟩
  | SendRemotePlan thread txn child =>
      obtain rfl := Option.some.inj hstep
      exact h.start hothers
  | LockTable p =>
      obtain ⟨x, hp, hrest⟩ := Option.bind_eq_some_iff.mp hstep
      obtain ⟨node, hnode, hrest⟩ := Option.bind_eq_some_iff.mp hrest
      split at hrest
      · obtain ⟨lock, hst, hres⟩ := Option.bind_eq_some_iff.mp hrest
        obtain rfl := Option.some.inj hres
        exact h.lockTable hp hnode (hok x hp) hst
      · cases hrest
  | LockPartition p =>
      obtain ⟨x, hp, hrest⟩ := Option.bind_eq_some_iff.mp hstep
      obtain ⟨node, hnode, hrest⟩ := Option.bind_eq_some_iff.mp hrest
      split at hrest
      · rename_i c hphase
        split at hrest
        · rename_i hreturned
          obtain ⟨lock, hst, hres⟩ := Option.bind_eq_some_iff.mp hrest
          obtain rfl := Option.some.inj hres
          exact h.lockPartition hp hphase hnode hreturned hst
        · cases hrest
      · cases hrest
  | enter p =>
      obtain ⟨x, hp, hrest⟩ := Option.bind_eq_some_iff.mp hstep
      obtain ⟨c, hc, hrest⟩ := Option.bind_eq_some_iff.mp hrest
      obtain ⟨lock, hst, hres⟩ := Option.bind_eq_some_iff.mp hrest
      obtain rfl := Option.some.inj hres
      apply h.enter hp hc _ hst
      intro t m l hcall
      have hadmits := hok x hp c hc
      rw [requestOk, hcall] at hadmits
      exact hadmits
  | put p =>
      obtain ⟨x, hp, hrest⟩ := Option.bind_eq_some_iff.mp hstep
      obtain ⟨node, hnode, hrest⟩ := Option.bind_eq_some_iff.mp hrest
      split at hrest
      · rename_i c hphase
        split at hrest
        · rename_i hreturned
          obtain ⟨kv, -, hres⟩ := Option.bind_eq_some_iff.mp hrest
          obtain rfl := Option.some.inj hres
          exact h.setPlan { x with phase := .putting } hp id rfl (h.putting hp hphase hreturned) rfl rfl
        · cases hrest
      · cases hrest
  | advance p =>
      obtain ⟨x, hp, hrest⟩ := Option.bind_eq_some_iff.mp hstep
      split at hrest
      · obtain ⟨todo, htodo, hres⟩ := Option.bind_eq_some_iff.mp hrest
        obtain rfl := Option.some.inj hres
        -- a plan that reads has nothing to keep
        refine h.setPlan { x with todo := todo } hp ?_ rfl ?_ rfl rfl
        · rintro - hnil
          rw [hnil] at htodo
          cases htodo
        · rename_i hphase
          rw [PlanOk, hphase]
          trivial
      · obtain ⟨node, hnode, hrest⟩ := Option.bind_eq_some_iff.mp hrest
        obtain ⟨child, -, hrest⟩ := Option.bind_eq_some_iff.mp hrest
        split at hrest
        · obtain rfl := Option.some.inj hrest
          -- the write is done, and the locks are not looked at any more
          exact h.setPlan { x with todo := child :: x.todo.tail, phase := .reading } hp (fun _ => todo_ne_nil hnode) rfl
            trivial rfl rfl
        · cases hrest
      · cases hrest

/-- **Writes under locks**, in every run in which the lock calls of the plans are admitted. -/
theorem writes_locked {txns : Nat → Transaction} {kv : KVStore.World} {es : List Event}
    (hrun : Run (Guarded (fun w e => OthersOnly w e ∧ LockOk w e) (FunStep (next snappy)))
      ⟨Lock_manager.World.init txns, kv, []⟩ es w) : WritesLocked w := by
  have hstart : Standing ⟨Lock_manager.World.init txns, kv, []⟩ := by
    refine ⟨Lock_manager.queuesOk_init txns, ?_, ?_, ?_⟩
    · intro x hx
      cases hx
    · intro x hx
      cases hx
    · intro i j x y hx
      cases hx
  exact (hrun.invariant (fun _ _ _ h hstep => h.step hstep) hstart).writesLocked

/-! ## Writes without locks -/

/-- **Nothing is tested** between the lock calls and the write. -/
theorem next_put {c : Nat} (hp : w.plans[p]? = some x) (hnode : x.insert? = some node) (hphase : x.phase = .partitionCall c)
    (hreturned : returned w.lock c = true) (hidle : w.kv.calls x.thread = .idle)
    (hwaiting : w.kv.log.waiting x.thread = none) :
    ∃ w', next snappy w (.put p) = some w' ∧ w'.plans = w.plans.set p { x with phase := .putting } ∧ w'.lock = w.lock := by
  obtain ⟨kv, hkv⟩ : ∃ kv, KVStore.next snappy w.kv (.put x.thread x.txn node.key node.value true) = some kv := by
    simp only [KVStore.next, if_pos hidle, LogManager.next, hwaiting, ne_eq, not_true_eq_false, if_false]
    split
    · exact ⟨_, rfl⟩
    · exact ⟨_, rfl⟩
  refine ⟨{ w.setPlan p { x with phase := .putting } with kv := kv }, ?_, rfl, rfl⟩
  rw [next, hp, Option.bind_eq_bind, Option.bind_some, hnode, Option.bind_eq_bind, Option.bind_some, hphase]
  dsimp only
  rw [if_pos hreturned, hkv]
  rfl

/-- **A plan whose transaction is aborted** writes all the same. -/
theorem put_aborted {c : Nat} (hp : w.plans[p]? = some x) (hnode : x.insert? = some node)
    (hphase : x.phase = .partitionCall c) (hreturned : returned w.lock c = true) (hidle : w.kv.calls x.thread = .idle)
    (hwaiting : w.kv.log.waiting x.thread = none) (haborted : (w.lock.txns x.txn).state_ = .aborted) :
    ∃ w', next snappy w (.put p) = some w' ∧ ¬ WritesLocked w' := by
  obtain ⟨w', hnext, hplans, hlock⟩ := next_put hp hnode hphase hreturned hidle hwaiting
  refine ⟨w', hnext, fun hlocked => ?_⟩
  have hx : { x with phase := .putting } ∈ w'.plans := by
    rw [hplans]
    exact Slots.mem_set_self hp
  obtain ⟨node, -, hstate, -⟩ := hlocked _ hx rfl
  rw [hlock, haborted] at hstate
  cases hstate

/-! ## Two runs -/

/-- One insert into partition 1 of table 1. -/
def insertPlan : ChildPlan := .insert_plan 1 1 [.value_plan [[107], [118]] [.CHILD_PLAN_NOT_SET]]

/-- A new store with a new log. -/
def newStore : KVStore.World :=
  KVStore.World.init (LogManager.World.init LogManager.zeros LogManager.zeros) ⟨SkipList.new, ⟨0, ⟨[], 0, 0⟩⟩, {}⟩
    fun _ => { txn_id_ := 1 }

/-- Plan 0, of transaction object 0 in thread 0, has locked and comes to its write. -/
def ready (w : World) : Bool :=
  (w.plans[0]?.any fun x => x.thread == 0 && x.txn == 0 && x.phase == .partitionCall 2 && x.insert?.isSome) &&
    returned w.lock 2 && w.kv.calls 0 == .idle && (w.kv.log.waiting 0).isNone

theorem plan_of_ready (h : ready w = true) :
    ∃ x node, w.plans[0]? = some x ∧ x.txn = 0 ∧ x.insert? = some node ∧ x.phase = .partitionCall 2 ∧
      returned w.lock 2 = true ∧ w.kv.calls x.thread = .idle ∧ w.kv.log.waiting x.thread = none := by
  simp only [ready, Bool.and_eq_true, beq_iff_eq, Option.isNone_iff_eq_none, Option.any_eq_true] at h
  obtain ⟨⟨⟨⟨x, hx, ⟨⟨hthread, htxn⟩, hphase⟩, hnode⟩, hreturned⟩, hidle⟩, hwaiting⟩ := h
  obtain ⟨node, hnode⟩ := Option.isSome_iff_exists.mp hnode
  exact ⟨x, node, hx, htxn, hnode, hphase, hreturned, by rw [hthread]; exact hidle, by rw [hthread]; exact hwaiting⟩

/-- An insert of transaction 1 next to a reader of another table. -/
theorem writes_locked_insert :
    ∃ w, Run (Guarded (fun w e => OthersOnly w e ∧ LockOk w e) (FunStep (next SnappyLiterals.snappy)))
        ⟨Lock_manager.World.init Lock_manager.someTxns, newStore, []⟩
        ([.lock (Lock_manager.LockTable 1 .shared 2), .SendRemotePlan 0 0 insertPlan, .LockTable 0, .lock (.enter 0),
          .enter 0, .LockPartition 0, .enter 0] ++ [.put 0]) w ∧
      (∃ x ∈ w.plans, x.phase = .putting) ∧ WritesLocked w := by
  obtain ⟨w, hrun, hready⟩ : ∃ w, Run (Guarded (fun w e => OthersOnly w e ∧ LockOk w e)
        (FunStep (next SnappyLiterals.snappy))) ⟨Lock_manager.World.init Lock_manager.someTxns, newStore, []⟩
        [.lock (Lock_manager.LockTable 1 .shared 2), .SendRemotePlan 0 0 insertPlan, .LockTable 0, .lock (.enter 0),
          .enter 0, .LockPartition 0, .enter 0] w ∧
      ready w = true :=
    Run.exists_guarded_of_map (f := ready) (by decide)
  obtain ⟨x, node, hp, -, hnode, hphase, hreturned, hidle, hwaiting⟩ := plan_of_ready hready
  obtain ⟨w', hnext, hplans, -⟩ := next_put hp hnode hphase hreturned hidle hwaiting
  have hput : Guarded (fun w e => OthersOnly w e ∧ LockOk w e) (FunStep (next SnappyLiterals.snappy)) w (.put 0) w' :=
    ⟨⟨trivial, trivial⟩, hnext⟩
  have hall := hrun.append (Run.single hput)
  refine ⟨w', hall, ⟨{ x with phase := .putting }, ?_, rfl⟩, writes_locked hall⟩
  rw [hplans]
  exact Slots.mem_set_self hp

/-- **A write without locks**: transaction 2 reads the table, the insert of transaction 1 gets no lock and writes. -/
theorem writes_unlocked :
    ¬ ∀ (snappy : Snappy) (txns : Nat → Transaction) (kv : KVStore.World) (es : List Event) (w : World),
      Run (Guarded OthersOnly (FunStep (next snappy))) ⟨Lock_manager.World.init txns, kv, []⟩ es w → WritesLocked w := by
  intro hall
  obtain ⟨w, hrun, heq⟩ : ∃ w, Run (Guarded OthersOnly (FunStep (next SnappyLiterals.snappy)))
        ⟨Lock_manager.World.init Lock_manager.someTxns, newStore, []⟩
        [.lock (Lock_manager.LockTable 1 .shared 1), .lock (.enter 0), .SendRemotePlan 0 0 insertPlan, .LockTable 0,
          .enter 0, .LockPartition 0] w ∧
      (ready w, (w.lock.txns 0).state_) = (true, .aborted) :=
    Run.exists_guarded_of_map (f := fun w : World => (ready w, (w.lock.txns 0).state_)) (by decide)
  obtain ⟨hready, haborted⟩ := Prod.mk.inj heq
  obtain ⟨x, node, hp, htxn, hnode, hphase, hreturned, hidle, hwaiting⟩ := plan_of_ready hready
  obtain ⟨w', hnext, hnot⟩ := put_aborted hp hnode hphase hreturned hidle hwaiting (by rw [htxn]; exact haborted)
  have hput : Guarded OthersOnly (FunStep (next SnappyLiterals.snappy)) w (.put 0) w' := ⟨trivial, hnext⟩
  exact hnot (hall _ _ _ _ w' (hrun.append (Run.single hput)))

end RemotePlan
end DDBMS
