import DDBMS.Lib.Run
import DDBMS.Recovery.LogRecord
import Mathlib.Data.Finset.Basic
import Mathlib.Tactic

/-!
# `Transaction.LockManager` — the hierarchical lock manager

The model of `Lock_manager` (`src/transaction/Lock_manager.cpp`) and of what it uses of `Transaction`. Each
lockable item (table, partition, row) has a queue of lock requests with its own latch and condition variable.

* **Granularity.** A step is one critical section of a queue latch: from the entry of a call to its return or
  to its block on `cv_`, from a wake-up to the next block or the return, or a whole `Unlock`. The state test
  at the head of a `Lock*` call runs outside the latch and is a step of its own. The erases of lock sets with which an
  `UnLock*` ends run outside the latch too; here they are one step with its `Unlock`, and two in `Transaction.UnlockSplit`.
* **Requests** are heap objects that a queue points to. They stay allocated when `Unlock` drops them from the
  queue, since a blocked call may still hold the pointer.
* **Calls** are numbered in the order they start; several calls of one transaction may be in progress.
* `enable_no_wait` is the value the constructor stores in `enable_no_wait_`.
-/

namespace DDBMS

abbrev table_oid_t := Int32
abbrev partition_id_t := Int32
abbrev row_id_t := Int32

inductive Lock_data_type where
  | table | partition | row
  deriving DecidableEq, Repr

inductive LockMode where
  | shared | exlucsive | intentionShared | intentionExclusive | sIx
  deriving DecidableEq, Repr

structure Lock_data_id where
  oid_ : table_oid_t := 0
  p_id_ : partition_id_t := 0
  row_id_ : row_id_t := 0
  type_ : Lock_data_type
  deriving DecidableEq, Repr

inductive TransactionState where
  | default | growing | shrinking | committed | aborted | prepared
  deriving DecidableEq, Repr

/-- What the lock manager uses of a `Transaction` object. `get_lock_set` is the set of its item type and
    mode; the intention modes have no row set, and no row call reaches one. -/
structure Transaction where
  txn_id_ : txn_id_t
  state_ : TransactionState := .default
  get_lock_set : Lock_data_type → LockMode → Finset Lock_data_id := fun _ _ => ∅

namespace Transaction

def add_lock_set (t : Transaction) (mode : LockMode) (l : Lock_data_id) : Transaction :=
  { t with
    get_lock_set := fun ty m =>
      if ty = l.type_ ∧ m = mode then insert l (t.get_lock_set ty m) else t.get_lock_set ty m }

/-- What `UnLockTable`, `UnLockPartition` and `UnLockRow` do to the sets of the item's type. -/
def erase_lock_sets (t : Transaction) (l : Lock_data_id) : Transaction :=
  { t with
    get_lock_set := fun ty m => if ty = l.type_ then (t.get_lock_set ty m).erase l else t.get_lock_set ty m }

end Transaction

namespace Lock_manager

structure LockRequest where
  txn_id_ : txn_id_t
  lock_mode_ : LockMode
  granted_ : Bool := false
  deriving DecidableEq, Repr

/-- A request queue with the `LockRequest` objects created for it, by address. -/
structure LockRequestQueue where
  request_queue_ : List Nat := []
  requests : Nat → LockRequest := fun _ => ⟨0, .shared, false⟩
  allocated : Nat := 0
  upgrading_ : Bool := false

/-! ## The pure tests -/

def isLockCompatible (iter : LockRequest) (target_lock_mode : LockMode) : Bool :=
  match target_lock_mode with
  | .intentionShared => !(iter.lock_mode_ == .exlucsive)
  | .intentionExclusive =>
    !(iter.lock_mode_ != .intentionShared && iter.lock_mode_ != .intentionExclusive)
  | .shared => !(iter.lock_mode_ != .intentionShared && iter.lock_mode_ != .shared)
  | .sIx => !(iter.lock_mode_ != .intentionShared)
  | .exlucsive => false

def isUpdateCompatible (iter : LockRequest) (upgrade_lock_mode : LockMode) : Bool :=
  match iter.lock_mode_ with
  | .intentionShared => !(upgrade_lock_mode == .intentionShared)
  | .shared => !(upgrade_lock_mode != .exlucsive && upgrade_lock_mode != .sIx)
  | .intentionExclusive => !(upgrade_lock_mode != .exlucsive && upgrade_lock_mode != .sIx)
  | .sIx => !(upgrade_lock_mode != .exlucsive)
  | .exlucsive => false

namespace LockRequestQueue

def checkQueueCompatible (q : LockRequestQueue) (request : Nat) : Bool :=
  q.request_queue_.all fun iter =>
    !(iter != request && (q.requests iter).granted_) ||
      isLockCompatible (q.requests iter) (q.requests request).lock_mode_

/-- `request_queue_.emplace_back(new LockRequest(txn_id, mode))`. -/
def emplace_back (q : LockRequestQueue) (txn_id : txn_id_t) (mode : LockMode) : LockRequestQueue :=
  { q with
    request_queue_ := q.request_queue_ ++ [q.allocated]
    requests := fun a => if a = q.allocated then ⟨txn_id, mode, false⟩ else q.requests a
    allocated := q.allocated + 1 }

/-- The start of an upgrade: the request is rewritten in place. -/
def upgrade (q : LockRequestQueue) (request : Nat) (mode : LockMode) : LockRequestQueue :=
  { q with
    requests := fun a =>
      if a = request then { q.requests a with lock_mode_ := mode, granted_ := false } else q.requests a
    upgrading_ := true }

def grant (q : LockRequestQueue) (request : Nat) : LockRequestQueue :=
  { q with
    requests := fun a => if a = request then { q.requests a with granted_ := true } else q.requests a }

end LockRequestQueue

/-- What `checkSameTxnLockRequest` finds at the first request of the transaction. -/
inductive Found where
  | notFound
  /-- the same mode, granted -/
  | held
  /-- the same mode, not granted: wait for it -/
  | pending (request : Nat)
  /-- another mode while an upgrade is under way: `UPGRADE_CONFLICT` -/
  | upgradeConflict
  /-- another mode that is no upgrade: `INCOMPATIBLE_UPGRADE` -/
  | incompatibleUpgrade
  /-- another mode, to be upgraded -/
  | upgrade (request : Nat)
  deriving DecidableEq, Repr

def checkSameTxnLockRequest (q : LockRequestQueue) (txn_id : txn_id_t) (target : LockMode) : Found :=
  match q.request_queue_.find? (fun iter => (q.requests iter).txn_id_ == txn_id) with
  | none => .notFound
  | some iter =>
    if (q.requests iter).lock_mode_ = target then
      if (q.requests iter).granted_ then .held else .pending iter
    else if q.upgrading_ then .upgradeConflict
    else if isUpdateCompatible (q.requests iter) target = false then .incompatibleUpgrade
    else .upgrade iter

/-! ## The system -/

/-- The three places a call blocks at. -/
inductive Site where
  | new | same | upgrade
  deriving DecidableEq, Repr

/-- Where a `Lock*` call stands; `t` is the transaction object, `l` the item, `mode` the target mode. -/
inductive Call where
  /-- past the state test, about to lock the latches -/
  | entering (t : Nat) (mode : LockMode) (l : Lock_data_id)
  /-- blocked on `cv_` for a request -/
  | waiting (site : Site) (t : Nat) (mode : LockMode) (l : Lock_data_id) (request : Nat)
  | returned (result : Bool)
  deriving DecidableEq, Repr

/-- The observable history: calls that returned true, and releases. -/
inductive Act where
  | locked (txn_id : txn_id_t) (mode : LockMode) (l : Lock_data_id)
  | unlocked (txn_id : txn_id_t) (l : Lock_data_id)
  deriving DecidableEq, Repr

structure World where
  txns : Nat → Transaction
  lock_map_ : Lock_data_id → LockRequestQueue := fun _ => {}
  calls : List Call := []
  history : List Act := []

/-- An empty lock table, with any set of transaction objects. -/
def World.init (txns : Nat → Transaction) : World := { txns := txns }

namespace World

def setTxn (w : World) (t : Nat) (x : Transaction) : World :=
  { w with txns := fun u => if u = t then x else w.txns u }

def setState (w : World) (t : Nat) (s : TransactionState) : World :=
  w.setTxn t { w.txns t with state_ := s }

def setQueue (w : World) (l : Lock_data_id) (q : LockRequestQueue) : World :=
  { w with lock_map_ := fun k => if k = l then q else w.lock_map_ k }

def setCall (w : World) (c : Nat) (x : Call) : World := { w with calls := w.calls.set c x }

/-- `return true` of a `Lock*` call: the item is in the lock set of the target mode. -/
def returnTrue (w : World) (c t : Nat) (mode : LockMode) (l : Lock_data_id) : World :=
  let w := w.setTxn t ((w.txns t).add_lock_set mode l)
  { w.setCall c (.returned true) with history := w.history ++ [.locked (w.txns t).txn_id_ mode l] }

/-- A `TransactionAbortException`, as the handlers leave things: the transaction is aborted, `false` is
    returned. -/
def abort (w : World) (c t : Nat) : World := (w.setState t .aborted).setCall c (.returned false)

/-- The wait succeeded: the request is granted; an upgrade also clears `upgrading_`. -/
def granted (w : World) (site : Site) (c t : Nat) (mode : LockMode) (l : Lock_data_id) (request : Nat) :
    World :=
  let q := (w.lock_map_ l).grant request
  let q := if site = .upgrade then { q with upgrading_ := false } else q
  (w.setQueue l q).returnTrue c t mode l

/-- One evaluation of the predicate of `cv_.wait` with what follows it in the same critical section. Under
    no-wait the predicate aborts the transaction instead of blocking. -/
def await (enable_no_wait : Bool) (w : World) (site : Site) (c t : Nat) (mode : LockMode)
    (l : Lock_data_id) (request : Nat) : World :=
  if (w.txns t).state_ = .aborted then w.abort c t
  else if (w.lock_map_ l).checkQueueCompatible request then w.granted site c t mode l request
  else if enable_no_wait then w.abort c t
  else w.setCall c (.waiting site t mode l request)

/-- The critical section of a `Lock*` call, from the latch to the return or the block. -/
def enter (enable_no_wait : Bool) (w : World) (c t : Nat) (mode : LockMode) (l : Lock_data_id) : World :=
  let q := w.lock_map_ l
  match checkSameTxnLockRequest q (w.txns t).txn_id_ mode with
  | .held =>
    if (w.txns t).state_ = .aborted then w.setCall c (.returned false) else w.returnTrue c t mode l
  | .pending request => w.await enable_no_wait .same c t mode l request
  | .upgradeConflict => w.abort c t
  | .incompatibleUpgrade => w.abort c t
  | .upgrade request =>
    (w.setQueue l (q.upgrade request mode)).await enable_no_wait .upgrade c t mode l request
  | .notFound =>
    (w.setQueue l (q.emplace_back (w.txns t).txn_id_ mode)).await enable_no_wait .new c t mode l q.allocated

/-- `LockRow` takes shared and exclusive locks only. -/
def modeAllowed (l : Lock_data_id) (mode : LockMode) : Bool :=
  l.type_ != .row || mode == .shared || mode == .exlucsive

/-- The head of a `Lock*` call: the tests made before the latch. -/
def lock (w : World) (t : Nat) (mode : LockMode) (l : Lock_data_id) : World :=
  let w := if (w.txns t).state_ = .default then w.setState t .growing else w
  if (w.txns t).state_ ≠ .growing then
    { w.setState t .aborted with calls := w.calls ++ [.returned false] }
  else if modeAllowed l mode = false then
    { w.setState t .aborted with calls := w.calls ++ [.returned false] }
  else { w with calls := w.calls ++ [.entering t mode l] }

/-- The request `Unlock` drops: the first granted one of the transaction. -/
def releasable (w : World) (t : Nat) (l : Lock_data_id) : Option Nat :=
  (w.lock_map_ l).request_queue_.find? fun iter =>
    ((w.lock_map_ l).requests iter).txn_id_ == (w.txns t).txn_id_ && ((w.lock_map_ l).requests iter).granted_

/-- `Unlock` under the latch. -/
def Unlock (w : World) (t : Nat) (l : Lock_data_id) : World :=
  let w := if (w.txns t).state_ = .growing then w.setState t .shrinking else w
  match w.releasable t l with
  | none => w.setState t .aborted
  | some iter =>
    let q := w.lock_map_ l
    { w.setQueue l { q with request_queue_ := q.request_queue_.erase iter } with
      history := w.history ++ [.unlocked (w.txns t).txn_id_ l] }

/-- `UnLockTable`, `UnLockPartition` and `UnLockRow`: `Unlock`, then the lock sets of the item's type. -/
def unlock (w : World) (t : Nat) (l : Lock_data_id) : World :=
  let w := w.Unlock t l
  w.setTxn t ((w.txns t).erase_lock_sets l)

end World

inductive Event where
  /-- a `Lock*` call starts -/
  | lock (t : Nat) (mode : LockMode) (l : Lock_data_id)
  /-- call `c` runs its first critical section -/
  | enter (c : Nat)
  /-- blocked call `c` wakes up, for whatever reason, and looks at its predicate again -/
  | wake (c : Nat)
  /-- an `UnLock*` call -/
  | unlock (t : Nat) (l : Lock_data_id)
  /-- other code (commit, abort, prepare) sets the state of a transaction -/
  | setState (t : Nat) (s : TransactionState)
  deriving DecidableEq, Repr

def LockTable (t : Nat) (mode : LockMode) (oid : table_oid_t) : Event :=
  .lock t mode { oid_ := oid, type_ := .table }

def LockPartition (t : Nat) (mode : LockMode) (oid : table_oid_t) (p_id : partition_id_t) : Event :=
  .lock t mode { oid_ := oid, p_id_ := p_id, type_ := .partition }

def LockRow (t : Nat) (mode : LockMode) (oid : table_oid_t) (p_id : partition_id_t) (row_id : row_id_t) :
    Event :=
  .lock t mode { oid_ := oid, p_id_ := p_id, row_id_ := row_id, type_ := .row }

def UnLockTable (t : Nat) (oid : table_oid_t) : Event := .unlock t { oid_ := oid, type_ := .table }

def UnLockPartition (t : Nat) (oid : table_oid_t) (p_id : partition_id_t) : Event :=
  .unlock t { oid_ := oid, p_id_ := p_id, type_ := .partition }

def UnLockRow (t : Nat) (oid : table_oid_t) (p_id : partition_id_t) (row_id : row_id_t) : Event :=
  .unlock t { oid_ := oid, p_id_ := p_id, row_id_ := row_id, type_ := .row }

def next (enable_no_wait : Bool) (w : World) : Event → Option World
  | .lock t mode l => some (w.lock t mode l)
  | .enter c =>
    match w.calls[c]? with
    | some (.entering t mode l) => some (w.enter enable_no_wait c t mode l)
    | _ => none
  | .wake c =>
    match w.calls[c]? with
    | some (.waiting site t mode l request) => some (w.await enable_no_wait site c t mode l request)
    | _ => none
  | .unlock t l => some (w.unlock t l)
  | .setState t s => some (w.setState t s)

def step (enable_no_wait : Bool) : World → Event → World → Prop := FunStep (next enable_no_wait)

end Lock_manager
end DDBMS
