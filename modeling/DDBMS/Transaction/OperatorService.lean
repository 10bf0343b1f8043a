import DDBMS.MetaServer.ReplicaLocation
import DDBMS.Storage.KVStoreLogged
import DDBMS.Storage.KVStoreMap
import DDBMS.Storage.KVStoreSearch
import DDBMS.Transaction.ReleaseLocks
import DDBMS.Transaction.Serializable

/-!
# `Transaction.OperatorService` — the operations of transactions on a node

`BenchmarkServiceImpl::SendOperator` (`test/benchmark/benchmark_rpc.h`) takes an operation of a transaction, locks the row of
its key, and carries it out on the store. It stops when the lock is refused, so what it does to the store it does under the
lock (`Served.standing`), and nobody else is at the key meanwhile (`Served.exclusive`).

The system is the lock manager, the logged store, and the requests of any number of transactions, each of which sends one
after the other. Next to them other code sets the state of transactions, unlocks those that have no request, and writes
records of its own to the log. A request is its own thread in the store and in the log.

`get` gives the mutex of the store up before it searches the disk, so its search is taken step by step, and so is a `put` that
spills (`Storage.KVStoreReaders`). The store of a `World` is that without the `put` which is spilling: who looks at the memtable
needs the mutex, and a search looks at `World.view`.
-/

namespace DDBMS

/-! ## A lock call, as its transaction sees it -/

namespace Lock_manager

/-- The transaction has the item in a mode that covers `m`. -/
def View.Has (v : View) (l : Lock_data_id) (m : LockMode) : Prop := ∃ n, v.held l = some n ∧ covers n m

/-- Call `c` is in progress: it has not looked yet, or it is blocked for the request of its transaction. -/
inductive View.Asks (v : View) (c t : Nat) (m : LockMode) (l : Lock_data_id) : Prop where
  | entering (hc : v.calls c = some (.entering t m l))
  | waiting {site : Site} {r : Nat} {x : LockRequest} (hc : v.calls c = some (.waiting site t m l r))
      (hr : v.requests l = [(r, x)]) (hm : x.lock_mode_ = m)

/-- Call `c` has returned, and a call that has returned true has the item. -/
def World.Answered (w : World) (c t : Nat) (m : LockMode) (l : Lock_data_id) : Prop :=
  w.Idle t ∧ (w.calls[c]? = some (.returned false) ∨ w.calls[c]? = some (.returned true) ∧ (w.view t).Has l m)

section Calls

variable {used : Finset Nat} {w w' : World} {v v' : View} {b : Bool} {c t r : Nat} {m : LockMode} {l : Lock_data_id}
  {x : LockRequest} {nw : Bool} {site : Site} {e : Event}

theorem View.Asks.busy (h : v.Asks c t m l) : v.calls c ≠ none := by
  cases h with
  | entering hc | waiting hc => simp [hc]

/-- **A wait** blocks the call, or ends it. -/
theorem OwnAwait.outcome (hr : v.requests l = [(r, x)]) (hm : x.lock_mode_ = m) (h : OwnAwait v site c t m l r b v') :
    v'.Asks c t m l ∨ v'.calls = (v.setCall c none).calls ∧ (b = false → v'.Has l m) := by
  cases h with
  | abort => exact Or.inr ⟨rfl, fun hb => by cases hb⟩
  | granted =>
      refine Or.inr ⟨rfl, fun _ => ⟨m, ?_, covers_refl m⟩⟩
      have hheld : (v.granted c m l r).held =
          Function.update v.held l (heldOf ((v.requests l).map (rewriteAt r LockRequest.grantedNow))) := held_setRequests _
      rw [hheld, Function.update_self, hr, List.map_singleton]
      simp [rewriteAt, heldOf_singleton, LockRequest.grantedNow, hm]
  | blocked =>
      left
      have hc : (v.setCall c (some (.waiting site t m l r))).calls c = some (.waiting site t m l r) := by simp [View.setCall]
      exact .waiting hc hr hm

theorem OwnEnter.outcome (hsingle : Single v) (h : OwnEnter v c t m l b v') :
    v'.Asks c t m l ∨ v'.calls = (v.setCall c none).calls ∧ (b = false → v'.Has l m) := by
  -- the transaction has no other request for the item
  have hone : ∀ {r : Nat} {x : LockRequest} {xs : List (Nat × LockRequest)}, v.requests l = (r, x) :: xs → xs = [] := by
    intro r x xs hr
    rcases hsingle.request l with hnil | ⟨a, y, hone⟩
    · exact absurd (hnil.symm.trans hr) (by simp)
    · exact (List.cons.inj (hone.symm.trans hr)).2.symm
  cases h with
  | @held r x xs h hm hg =>
      refine Or.inr ⟨rfl, fun _ => ⟨m, ?_, covers_refl m⟩⟩
      rw [held_returnTrue, View.held, h, hone h, heldOf_singleton, if_pos hg, hm]
  | heldAborted => exact Or.inr ⟨rfl, fun hb => by cases hb⟩
  | refused => exact Or.inr ⟨rfl, fun hb => by cases hb⟩
  | @pending r x xs b v' h hm hg hawait =>
      rw [hone h] at h
      exact hawait.outcome h hm
  | @upgrade r x xs b v' h hawait =>
      rw [hone h] at h
      have hr : (v.setRequests l ((v.requests l).map (rewriteAt r (LockRequest.upgraded m)))).requests l =
          [(r, LockRequest.upgraded m x)] := by simp [View.setRequests, h, rewriteAt]
      have hout := hawait.outcome hr rfl
      exact hout
  | @new a b v' h hawait =>
      have hr : (v.setRequests l [(a, ⟨v.txn.txn_id_, m, false⟩)]).requests l = [(a, ⟨v.txn.txn_id_, m, false⟩)] := by
        simp [View.setRequests]
      have hout := hawait.outcome hr rfl
      exact hout

theorem View.Asks.outcome (hsingle : Single v) (h : v.Asks c t m l) (hst : OwnStep v e b v') (he : e.call? = some c) :
    v'.Asks c t m l ∨ v'.calls = (v.setCall c none).calls ∧ (b = false → v'.Has l m) := by
  cases hst with
  | refused | passes | unlock | setState => cases he
  | @enter d u n k b v' hc hown =>
      obtain rfl := Option.some.inj he
      cases h with
      | entering hc' =>
          cases hc.symm.trans hc'
          exact hown.outcome hsingle
      | waiting hc' => cases hc.symm.trans hc'
  | @wake d u r site n k b v' hc hown =>
      obtain rfl := Option.some.inj he
      cases h with
      | entering hc' => cases hc.symm.trans hc'
      | waiting hc' hr hm =>
          cases hc.symm.trans hc'
          exact hown.outcome hr hm

theorem OwnAwait.frame (h : OwnAwait v site c t m l r b v') {k : Lock_data_id} (hk : k ≠ l) : v'.requests k = v.requests k := by
  cases h with
  | abort => rfl
  | granted => simp [View.granted, View.returnTrue, View.setCall, View.setRequests, hk]
  | blocked => rfl

theorem OwnEnter.frame (h : OwnEnter v c t m l b v') {k : Lock_data_id} (hk : k ≠ l) : v'.requests k = v.requests k := by
  have hset : ∀ xs, (v.setRequests l xs).requests k = v.requests k := fun xs => by simp [View.setRequests, hk]
  cases h with
  | held | heldAborted | refused => rfl
  | pending _ _ _ hawait => exact hawait.frame hk
  | upgrade _ hawait | new _ hawait => exact (hawait.frame hk).trans (hset _)

/-- A call leaves the other items alone. -/
theorem View.Asks.frame (h : v.Asks c t m l) (hst : OwnStep v e b v') (he : e.call? = some c) {k : Lock_data_id} (hk : k ≠ l) :
    v'.requests k = v.requests k := by
  cases hst with
  | refused | passes | unlock | setState => cases he
  | @enter d u n k b v' hc hown =>
      obtain rfl := Option.some.inj he
      cases h with
      | entering hc' =>
          cases hc.symm.trans hc'
          exact hown.frame hk
      | waiting hc' => cases hc.symm.trans hc'
  | @wake d u r site n k b v' hc hown =>
      obtain rfl := Option.some.inj he
      cases h with
      | entering hc' => cases hc.symm.trans hc'
      | waiting hc' =>
          cases hc.symm.trans hc'
          exact hown.frame hk

/-- A step that goes on with a call moves no other one. -/
theorem calls_of_call (hst : step nw w e w') (he : e.call? = some c) :
    c < w.calls.length ∧ ∃ y, w'.calls = w.calls.set c y ∧ ∀ u ∈ y.txn?, w.actor e = some u := by
  cases step_cases hst with
  | lock | unlock | setState => cases he
  | enter hc =>
      obtain rfl := Option.some.inj he
      obtain ⟨y, hcalls, hy⟩ := enter_calls nw w _ _ _ _
      exact ⟨(List.getElem?_eq_some_iff.mp hc).1, y, hcalls, fun u hu => by rw [hy u hu, World.actor_enter hc]⟩
  | wake hc =>
      obtain rfl := Option.some.inj he
      obtain ⟨y, hcalls, hy⟩ := await_calls nw w _ _ _ _ _ _
      exact ⟨(List.getElem?_eq_some_iff.mp hc).1, y, hcalls, fun u hu => by rw [hy u hu, World.actor_wake hc]⟩

/-- The call that a step goes on with is one of its actor. -/
theorem busy_of_call (hst : step nw w e w') (hactor : w.actor e = some t) (he : e.call? = some c) : (w.view t).calls c ≠ none := by
  cases step_cases hst with
  | lock | unlock | setState => cases he
  | enter hc =>
      obtain rfl := Option.some.inj he
      obtain rfl := Option.some.inj ((World.actor_enter hc).symm.trans hactor)
      rw [view_calls_self hc rfl]
      exact Option.some_ne_none _
  | wake hc =>
      obtain rfl := Option.some.inj he
      obtain rfl := Option.some.inj ((World.actor_wake hc).symm.trans hactor)
      rw [view_calls_self hc rfl]
      exact Option.some_ne_none _

/-- **A call** goes on asking, or it has its answer. -/
theorem asks_step (hsound : Sound used w) (hsingle : Single (w.view t)) (h : (w.view t).Asks c t m l)
    (hst : step nw w e w') (hactor : w.actor e = some t) (he : e.call? = some c) :
    (w'.view t).Asks c t m l ∨ w'.Answered c t m l := by
  obtain ⟨b, hown, hfalse⟩ := (sees_step hsound.queues hsound.waits hst hactor).own
  rcases h.outcome hsingle hown he with hasks | ⟨hcalls, hhas⟩
  · exact Or.inl hasks
  obtain ⟨hlt, y, hset, hy⟩ := calls_of_call hst he
  have hc : w'.calls[c]? = some y := by
    rw [hset]
    exact List.getElem?_set_self hlt
  refine Or.inr ⟨?_, ?_⟩
  · rw [idle_view]
    intro d
    rw [hcalls]
    by_cases hdc : d = c
    · simp [View.setCall, hdc]
    · have hnone : (w.view t).calls d = none := by
        by_contra hd
        exact hdc (hsingle.call d c hd h.busy)
      simp [View.setCall, hdc, hnone]
  · rw [hc]
    have hnone : (w'.view t).calls c = none := by
      rw [hcalls]
      simp [View.setCall]
    cases y with
    | entering u n k | waiting site u n k r =>
        obtain rfl : t = u := Option.some.inj (hactor.symm.trans (hy u rfl))
        rw [view_calls_self hc rfl] at hnone
        cases hnone
    | returned result =>
        cases result with
        | false => exact Or.inl rfl
        | true =>
            refine Or.inr ⟨rfl, hhas ?_⟩
            -- a step that makes a call return false makes this one return false
            cases b with
            | false => rfl
            | true =>
                obtain ⟨d, hd, hold⟩ := hfalse rfl
                by_cases hdc : d = c
                · subst hdc
                  cases hc.symm.trans hd
                · rw [hset, List.getElem?_set_ne (Ne.symm hdc)] at hd
                  exact absurd hd hold

end Calls

end Lock_manager

/-! ## The service -/

namespace BenchmarkService

open Lock_manager (Access)

inductive OP_TYPE where
  | Get | Put | Del
  deriving DecidableEq, Repr

/-- The mode in which `SendOperator` locks the row. -/
def OP_TYPE.mode : OP_TYPE → LockMode
  | .Get => .shared
  | .Put | .Del => .exlucsive

/-- `std::stoi(key.substr(3, key.length() - 3))` -/
def rowOf (key : Bytes) : Except Thrown row_id_t :=
  match substr key 3 (key.length - 3) with
  | none => .error .out_of_range
  | some str => stoi str

/-- Where `SendOperator` stands. -/
inductive Phase where
  /-- `LockRow` is call `c` of the lock manager -/
  | locking (c : Nat)
  /-- `LockRow` has returned true -/
  | locked
  /-- in `KVStore::put` or `KVStore::del` -/
  | storing
  /-- in `KVStore_beta::get`, behind its look at the memtable -/
  | getting (pc : KVStoreReaders.Pc)
  /-- the response has been set -/
  | returned (ok : Bool)
  deriving DecidableEq, Repr

namespace Phase

def busy : Phase → Bool
  | .returned _ => false
  | _ => true

/-- The request has its lock, and is not done. -/
def holds : Phase → Bool
  | .locked | .storing | .getting _ => true
  | .locking _ | .returned _ => false

/-- Where `SendOperator` stands when `get` has come to `pc`. -/
def ofPc : KVStoreReaders.Pc → Phase
  | .returned _ => .returned true
  | pc => .getting pc

theorem busy_of_holds {phase : Phase} (h : phase.holds = true) : phase.busy = true := by
  cases phase with
  | locking | returned => cases h
  | locked | storing | getting => rfl

end Phase

structure Request where
  txn : Nat
  op_type : OP_TYPE
  key : Bytes
  value : Bytes
  row_id : row_id_t
  phase : Phase
  deriving DecidableEq, Repr

namespace Request

/-- The row that `LockRow` locks. -/
def item (x : Request) : Lock_data_id := { oid_ := 0, p_id_ := 0, row_id_ := x.row_id, type_ := .row }

def mode (x : Request) : LockMode := x.op_type.mode

end Request

/-- What a write that is logged has still to do in the store: the key, and its value. -/
def pending? : KVStore.Call → Option (Bytes × Option Bytes)
  | .putStore key value _ => some (key, some value)
  | .delStore key _ _ => some (key, none)
  | .idle | .putLog _ _ _ _ | .delLog _ _ _ _ _ => none

/-- What a reader takes from the result of `get`. -/
def seen (result : Bool × Bytes) : Option Bytes := if result.1 then some result.2 else none

/-- A `put` that spills the memtable: its request, its height draw, and what it has done to the store. -/
structure Spill where
  p : Nat
  ones : Nat
  state : KVStoreReaders.State

/-- Where `ssts_` is, and the `put` that has the mutex to add to it. -/
structure Disk where
  capacity : Nat := 0
  buffer : Nat := 0
  spill : Option Spill := none

/-- `accesses` is history: what the operations have read in the store and written to it. -/
structure World where
  lock : Lock_manager.World
  kv : KVStore.World
  disk : Disk := {}
  requests : List Request := []
  accesses : List (Access Bytes (Option Bytes)) := []

inductive Event where
  | SendOperator (t : Nat) (op_type : OP_TYPE) (key value : Bytes)
  /-- a lock call goes on, or other code unlocks or sets a state -/
  | lock (e : Lock_manager.Event)
  /-- `LockRow` of request `p` has returned -/
  | answer (p : Nat)
  /-- request `p` goes on to the store, where `del` may read stale memory -/
  | operate (p : Nat) (stale : Nat → UInt8)
  /-- the search of request `p` goes on, and may read stale memory -/
  | search (p : Nat) (stale : UInt64)
  /-- the flush thread, or another user of the log -/
  | log (e : LogManager.Event)
  /-- the wait of request `p` in `AppendLogRecord` -/
  | wake (p : Nat)
  /-- the `put` of request `p` has filled the memtable -/
  | spill (p ones : Nat)
  /-- a step of `LevelZero::add` -/
  | add (e : KVStoreReaders.Event)
  /-- the rest of `put` or `del` of request `p` -/
  | store (p ones : Nat)
  | finish (p : Nat)

namespace World

def init (lockTxns : Nat → DDBMS.Transaction) (kvTxns : Nat → KVStore.Transaction) (log : LogManager.World)
    (store : KVStore_beta) : World where
  lock := Lock_manager.World.init lockTxns
  kv := KVStore.World.init log store kvTxns

def setPhase (w : World) (p : Nat) (x : Request) (phase : Phase) : World :=
  { w with requests := w.requests.set p { x with phase := phase } }

def access (w : World) (x : Request) (op : Lock_manager.Operation (Option Bytes)) : World :=
  { w with accesses := w.accesses ++ [⟨x.txn, x.key, op⟩] }

/-- The store as a search sees it. -/
def view (w : World) : KVStoreReaders.State :=
  match w.disk.spill with
  | some s => s.state
  | none => { KVStoreReaders.State.init w.kv.store w.disk.capacity with buffer := w.disk.buffer }

/-- The `get` of request `p` has come to `pc`. -/
def sought (w : World) (p : Nat) (x : Request) (pc : KVStoreReaders.Pc) : World :=
  let w := w.setPhase p x (.ofPc pc)
  match pc with
  | .returned result => w.access x (.read (seen result))
  | _ => w

/-- The rest of the call of request `p` spills the memtable. -/
def spills (w : World) (p ones : Nat) : Bool :=
  match w.kv.calls p with
  | .putStore key value _ => (w.kv.store.memtable_.put key value ones).any fun m => m.space > StorageOption.SSTABLE_SPACE
  | _ => false

/-- The rest of the call of request `p` may be done; a `put` that spills has come to its end. -/
def stored? (w : World) (p ones : Nat) : Option Disk :=
  match w.disk.spill with
  | some s =>
    if s.p = p ∧ s.ones = ones ∧ s.state.put = .indexed then some { capacity := s.state.capacity, buffer := s.state.buffer }
    else none
  | none => if w.spills p ones then none else some w.disk

end World

section Next

variable (snappy : Snappy) (enable_no_wait : Bool)

/-- The operation of a request that has its lock. -/
def operate (w : World) (p : Nat) (x : Request) (stale : Nat → UInt8) : Option World :=
  match x.op_type with
  | .Get =>
    if w.kv.mutex_ = none ∧ w.disk.spill = none then (KVStoreReaders.lookPc w.kv.store x.key).map (w.sought p x) else none
  | .Put => do
    let kv ← KVStore.next snappy w.kv (.put p x.txn x.key x.value true)
    some { w.setPhase p x .storing with kv := kv }
  | .Del =>
    if w.disk.spill = none then do
      let kv ← KVStore.next snappy w.kv (.del p x.txn x.key stale true)
      let w := { w.setPhase p x .storing with kv := kv }
      -- a key that is not there
      if kv.calls p = .idle then some (w.access x (.read none)) else some w
    else none

def next (w : World) : Event → Option World
  | .SendOperator t op_type key value =>
    match rowOf key with
    -- the exception leaves the handler
    | .error _ => none
    | .ok row_id => do
      let lock ← Lock_manager.next enable_no_wait w.lock (Lock_manager.LockRow t op_type.mode 0 0 row_id)
      let x := { txn := t, op_type := op_type, key := key, value := value, row_id := row_id,
                 phase := .locking w.lock.calls.length }
      some { w with lock := lock, requests := w.requests ++ [x] }
  | .lock e => (Lock_manager.next enable_no_wait w.lock e).map fun lock => { w with lock := lock }
  | .answer p => do
    let x ← w.requests[p]?
    match x.phase with
    | .locking c =>
      match w.lock.calls[c]? with
      | some (.returned true) => some (w.setPhase p x .locked)
      | some (.returned false) => some (w.setPhase p x (.returned false))
      | _ => none
    | _ => none
  | .operate p stale => do
    let x ← w.requests[p]?
    if x.phase = .locked then operate snappy w p x stale else none
  | .search p stale => do
    let x ← w.requests[p]?
    match x.phase with
    | .getting pc => (KVStoreReaders.searchPc snappy w.view x.key stale pc).map (w.sought p x)
    | _ => none
  | .log e => (KVStore.next snappy w.kv (.log e)).map fun kv => { w with kv := kv }
  | .wake p => (KVStore.next snappy w.kv (.wake p)).map fun kv => { w with kv := kv }
  | .spill p ones =>
    match w.kv.calls p with
    | .putStore key value _ =>
      if w.kv.mutex_ = none ∧ w.disk.spill = none then do
        let state ← KVStoreReaders.step snappy w.view (.put key value ones)
        if state.put = .full then some { w with disk := { w.disk with spill := some ⟨p, ones, state⟩ } } else none
      else none
    | _ => none
  | .add e =>
    if e.adds then do
      let s ← w.disk.spill
      let state ← KVStoreReaders.step snappy s.state e
      some { w with disk := { w.disk with spill := some { s with state := state } } }
    else none
  | .store p ones => do
    let x ← w.requests[p]?
    let (_, value) ← pending? (w.kv.calls p)
    let disk ← w.stored? p ones
    let kv ← KVStore.next snappy w.kv (.store p ones)
    some ({ w with kv := kv, disk := disk }.access x (.write (visible value)))
  | .finish p => do
    let x ← w.requests[p]?
    if x.phase = .storing ∧ w.kv.calls p = .idle then some (w.setPhase p x (.returned true)) else none

end Next

/-- No request of the transaction is under way. -/
def Free (requests : List Request) (t : Nat) : Prop := ∀ x ∈ requests, x.phase.busy = true → x.txn ≠ t

/-- A transaction sends one operation after the other, and other code does not lock or unlock for it meanwhile. -/
def LockOk (used : Finset Nat) (w : World) : Event → Prop
  | .SendOperator t _ _ _ => t ∈ used ∧ Free w.requests t
  | .lock e => e.UsedBy used ∧ (∀ t m l, e ≠ .lock t m l) ∧ ∀ t l, e = .unlock t l → Free w.requests t
  | _ => True

variable {snappy : Snappy} {nw : Bool} {used : Finset Nat} {w w' : World} {p q t : Nat} {x y : Request} {e : Event}

/-- The branches of a step, with what each has found. -/
inductive Steps (snappy : Snappy) (nw : Bool) (w : World) : Event → World → Prop where
  | SendOperator {t : Nat} {op_type : OP_TYPE} {key value : Bytes} {row_id : row_id_t} {lock : Lock_manager.World}
      (hrow : rowOf key = .ok row_id)
      (hlock : Lock_manager.next nw w.lock (Lock_manager.LockRow t op_type.mode 0 0 row_id) = some lock) :
      Steps snappy nw w (.SendOperator t op_type key value) { w with
        lock := lock
        requests := w.requests ++ [⟨t, op_type, key, value, row_id, .locking w.lock.calls.length⟩] }
  | lock {e : Lock_manager.Event} {lock : Lock_manager.World} (hlock : Lock_manager.next nw w.lock e = some lock) :
      Steps snappy nw w (.lock e) { w with lock := lock }
  | granted {p c : Nat} {x : Request} (hx : w.requests[p]? = some x) (hphase : x.phase = .locking c)
      (hc : w.lock.calls[c]? = some (.returned true)) : Steps snappy nw w (.answer p) (w.setPhase p x .locked)
  | refused {p c : Nat} {x : Request} (hx : w.requests[p]? = some x) (hphase : x.phase = .locking c)
      (hc : w.lock.calls[c]? = some (.returned false)) : Steps snappy nw w (.answer p) (w.setPhase p x (.returned false))
  | get {p : Nat} {stale : Nat → UInt8} {x : Request} {pc : KVStoreReaders.Pc} (hx : w.requests[p]? = some x)
      (hphase : x.phase = .locked) (hmutex : w.kv.mutex_ = none) (hspill : w.disk.spill = none)
      (hpc : KVStoreReaders.lookPc w.kv.store x.key = some pc) : Steps snappy nw w (.operate p stale) (w.sought p x pc)
  | search {p : Nat} {stale : UInt64} {x : Request} {pc pc' : KVStoreReaders.Pc} (hx : w.requests[p]? = some x)
      (hphase : x.phase = .getting pc) (hpc : KVStoreReaders.searchPc snappy w.view x.key stale pc = some pc') :
      Steps snappy nw w (.search p stale) (w.sought p x pc')
  | put {p : Nat} {stale : Nat → UInt8} {x : Request} {kv : KVStore.World} (hx : w.requests[p]? = some x)
      (hphase : x.phase = .locked) (hop : x.op_type = .Put)
      (hkv : KVStore.next snappy w.kv (.put p x.txn x.key x.value true) = some kv) :
      Steps snappy nw w (.operate p stale) { w.setPhase p x .storing with kv := kv }
  | del {p : Nat} {stale : Nat → UInt8} {x : Request} {kv : KVStore.World} (hx : w.requests[p]? = some x)
      (hphase : x.phase = .locked) (hop : x.op_type = .Del) (hspill : w.disk.spill = none)
      (hkv : KVStore.next snappy w.kv (.del p x.txn x.key stale true) = some kv) (hbusy : kv.calls p ≠ .idle) :
      Steps snappy nw w (.operate p stale) { w.setPhase p x .storing with kv := kv }
  | absent {p : Nat} {stale : Nat → UInt8} {x : Request} {kv : KVStore.World} (hx : w.requests[p]? = some x)
      (hphase : x.phase = .locked) (hop : x.op_type = .Del) (hspill : w.disk.spill = none)
      (hkv : KVStore.next snappy w.kv (.del p x.txn x.key stale true) = some kv) (hidle : kv.calls p = .idle) :
      Steps snappy nw w (.operate p stale) (({ w.setPhase p x .storing with kv := kv } : World).access x (.read none))
  | log {e : LogManager.Event} {kv : KVStore.World} (hkv : KVStore.next snappy w.kv (.log e) = some kv) :
      Steps snappy nw w (.log e) { w with kv := kv }
  | wake {p : Nat} {kv : KVStore.World} (hkv : KVStore.next snappy w.kv (.wake p) = some kv) :
      Steps snappy nw w (.wake p) { w with kv := kv }
  | spill {p ones : Nat} {key value : Bytes} {lsn : Int} {state : KVStoreReaders.State}
      (hcall : w.kv.calls p = .putStore key value lsn) (hmutex : w.kv.mutex_ = none) (hspill : w.disk.spill = none)
      (hstate : KVStoreReaders.step snappy w.view (.put key value ones) = some state) (hfull : state.put = .full) :
      Steps snappy nw w (.spill p ones) { w with disk := { w.disk with spill := some ⟨p, ones, state⟩ } }
  | add {e : KVStoreReaders.Event} {s : Spill} {state : KVStoreReaders.State} (he : e.adds = true)
      (hspill : w.disk.spill = some s) (hstate : KVStoreReaders.step snappy s.state e = some state) :
      Steps snappy nw w (.add e) { w with disk := { w.disk with spill := some { s with state := state } } }
  | store {p ones : Nat} {x : Request} {key : Bytes} {value : Option Bytes} {kv : KVStore.World} {disk : Disk}
      (hx : w.requests[p]? = some x) (hpending : pending? (w.kv.calls p) = some (key, value))
      (hdisk : w.stored? p ones = some disk) (hkv : KVStore.next snappy w.kv (.store p ones) = some kv) :
      Steps snappy nw w (.store p ones) (({ w with kv := kv, disk := disk } : World).access x (.write (visible value)))
  | finish {p : Nat} {x : Request} (hx : w.requests[p]? = some x) (hphase : x.phase = .storing)
      (hidle : w.kv.calls p = .idle) : Steps snappy nw w (.finish p) (w.setPhase p x (.returned true))

theorem next_cases (h : next snappy nw w e = some w') : Steps snappy nw w e w' := by
  cases e with
  | SendOperator t op_type key value =>
      simp only [next] at h
      split at h
      · cases h
      · rename_i row_id hrow
        obtain ⟨lock, hlock, hw⟩ := Option.bind_eq_some_iff.mp h
        obtain rfl := Option.some.inj hw
        exact .SendOperator hrow hlock
  | lock e =>
      obtain ⟨lock, hlock, rfl⟩ := Option.map_eq_some_iff.mp h
      exact .lock hlock
  | answer p =>
      obtain ⟨x, hx, h⟩ := Option.bind_eq_some_iff.mp h
      split at h
      · rename_i c hphase
        split at h
        · rename_i hc
          obtain rfl := Option.some.inj h
          exact .granted hx hphase hc
        · rename_i hc
          obtain rfl := Option.some.inj h
          exact .refused hx hphase hc
        · cases h
      · cases h
  | operate p stale =>
      obtain ⟨x, hx, h⟩ := Option.bind_eq_some_iff.mp h
      split at h
      · rename_i hphase
        unfold operate at h
        cases hop : x.op_type with
        | Get =>
            rw [hop] at h
            dsimp only at h
            obtain ⟨⟨hmutex, hspill⟩, h⟩ := Option.ite_none_right_eq_some.mp h
            obtain ⟨pc, hpc, rfl⟩ := Option.map_eq_some_iff.mp h
            exact .get hx hphase hmutex hspill hpc
        | Put =>
            rw [hop] at h
            obtain ⟨kv, hkv, hw⟩ := Option.bind_eq_some_iff.mp h
            obtain rfl := Option.some.inj hw
            exact .put hx hphase hop hkv
        | Del =>
            rw [hop] at h
            dsimp only at h
            obtain ⟨hspill, h⟩ := Option.ite_none_right_eq_some.mp h
            obtain ⟨kv, hkv, hw⟩ := Option.bind_eq_some_iff.mp h
            split at hw
            · rename_i hidle
              obtain rfl := Option.some.inj hw
              exact .absent hx hphase hop hspill hkv hidle
            · rename_i hbusy
              obtain rfl := Option.some.inj hw
              exact .del hx hphase hop hspill hkv hbusy
      · cases h
  | search p stale =>
      obtain ⟨x, hx, h⟩ := Option.bind_eq_some_iff.mp h
      split at h
      · rename_i pc hphase
        obtain ⟨pc', hpc, rfl⟩ := Option.map_eq_some_iff.mp h
        exact .search hx hphase hpc
      · cases h
  | log e =>
      obtain ⟨kv, hkv, rfl⟩ := Option.map_eq_some_iff.mp h
      exact .log hkv
  | wake p =>
      obtain ⟨kv, hkv, rfl⟩ := Option.map_eq_some_iff.mp h
      exact .wake hkv
  | spill p ones =>
      simp only [next] at h
      split at h
      · rename_i hcall
        obtain ⟨⟨hmutex, hspill⟩, h⟩ := Option.ite_none_right_eq_some.mp h
        obtain ⟨state, hstate, h⟩ := Option.bind_eq_some_iff.mp h
        obtain ⟨hfull, hw⟩ := Option.ite_none_right_eq_some.mp h
        obtain rfl := Option.some.inj hw
        exact .spill hcall hmutex hspill hstate hfull
      · cases h
  | add e =>
      obtain ⟨he, h⟩ := Option.ite_none_right_eq_some.mp h
      obtain ⟨s, hspill, h⟩ := Option.bind_eq_some_iff.mp h
      obtain ⟨state, hstate, hw⟩ := Option.bind_eq_some_iff.mp h
      obtain rfl := Option.some.inj hw
      exact .add he hspill hstate
  | store p ones =>
      obtain ⟨x, hx, h⟩ := Option.bind_eq_some_iff.mp h
      obtain ⟨⟨key, value⟩, hpending, h⟩ := Option.bind_eq_some_iff.mp h
      obtain ⟨disk, hdisk, h⟩ := Option.bind_eq_some_iff.mp h
      obtain ⟨kv, hkv, hw⟩ := Option.bind_eq_some_iff.mp h
      obtain rfl := Option.some.inj hw
      exact .store hx hpending hdisk hkv
  | finish p =>
      obtain ⟨x, hx, h⟩ := Option.bind_eq_some_iff.mp h
      split at h
      · rename_i hfinish
        obtain rfl := Option.some.inj h
        exact .finish hx hfinish.1 hfinish.2
      · cases h

theorem sought_lock (w : World) (p : Nat) (x : Request) (pc : KVStoreReaders.Pc) : (w.sought p x pc).lock = w.lock := by
  cases pc <;> rfl

theorem sought_kv (w : World) (p : Nat) (x : Request) (pc : KVStoreReaders.Pc) : (w.sought p x pc).kv = w.kv := by
  cases pc <;> rfl

theorem sought_disk (w : World) (p : Nat) (x : Request) (pc : KVStoreReaders.Pc) : (w.sought p x pc).disk = w.disk := by
  cases pc <;> rfl

theorem sought_requests (w : World) (p : Nat) (x : Request) (pc : KVStoreReaders.Pc) :
    (w.sought p x pc).requests = w.requests.set p { x with phase := .ofPc pc } := by
  cases pc <;> rfl

/-! ## Who is at the store -/

/-- What a request has of the lock manager. -/
def Standing (lock : Lock_manager.World) (x : Request) : Prop :=
  match x.phase with
  | .locking c => (lock.view x.txn).Asks c x.txn x.mode x.item ∨ lock.Answered c x.txn x.mode x.item
  | .locked | .storing | .getting _ => lock.Idle x.txn ∧ (lock.view x.txn).Has x.item x.mode
  | .returned _ => True

/-- The requests and their locks. -/
structure Served (used : Finset Nat) (lock : Lock_manager.World) (requests : List Request) : Prop where
  sound : Lock_manager.Sound used lock
  single : ∀ t ∈ used, Lock_manager.Single (lock.view t)
  txns : ∀ x ∈ requests, x.txn ∈ used
  rows : ∀ x ∈ requests, rowOf x.key = .ok x.row_id
  /-- one request at a time -/
  one : ∀ (p q : Nat) x y, requests[p]? = some x → requests[q]? = some y → x.phase.busy = true → y.phase.busy = true →
    x.txn = y.txn → p = q
  standing : ∀ x ∈ requests, Standing lock x
  idle : ∀ t ∈ used, Free requests t → lock.Idle t

section Locks

open Lock_manager (Sound Single step sees_step exists_actor returned_step idle_view)

variable {lock lock' : Lock_manager.World} {requests : List Request} {e : Lock_manager.Event} {u : Nat} {phase : Phase}

theorem Standing.has (h : Standing lock x) (hphase : x.phase.holds = true) :
    lock.Idle x.txn ∧ (lock.view x.txn).Has x.item x.mode := by
  unfold Standing at h
  cases hx : x.phase with
  | locking | returned =>
      rw [hx] at hphase
      cases hphase
  | locked | storing | getting =>
      rw [hx] at h
      exact h

/-- A request that has its lock goes on, or is done. -/
theorem standing_of_has (h : lock.Idle x.txn ∧ (lock.view x.txn).Has x.item x.mode) (hphase : ∀ c, phase ≠ .locking c) :
    Standing lock { x with phase := phase } := by
  cases phase with
  | locking c => exact absurd rfl (hphase c)
  | locked | storing | getting => exact h
  | returned => trivial

/-- A step that its transaction does not see in its calls and requests. -/
theorem Standing.congr (h : Standing lock x) (hcalls : (lock'.view x.txn).calls = (lock.view x.txn).calls)
    (hrequests : (lock'.view x.txn).requests = (lock.view x.txn).requests)
    (hreturned : ∀ (c : Nat) b, lock.calls[c]? = some (.returned b) → lock'.calls[c]? = some (.returned b)) :
    Standing lock' x := by
  have hidle : lock.Idle x.txn → lock'.Idle x.txn := by
    rw [idle_view, idle_view, hcalls]
    exact id
  have hhas : (lock.view x.txn).Has x.item x.mode → (lock'.view x.txn).Has x.item x.mode := by
    unfold Lock_manager.View.Has Lock_manager.View.held
    rw [hrequests]
    exact id
  unfold Standing at h ⊢
  split at h
  · rcases h with hasks | ⟨hi, hanswer⟩
    · left
      cases hasks with
      | entering hc => exact .entering (by rw [hcalls]; exact hc)
      | waiting hc hr hm => exact .waiting (by rw [hcalls]; exact hc) (by rw [hrequests]; exact hr) hm
    · exact Or.inr ⟨hidle hi, hanswer.imp (hreturned _ _) (And.imp (hreturned _ _) hhas)⟩
  · exact ⟨hidle h.1, hhas h.2⟩
  · exact ⟨hidle h.1, hhas h.2⟩
  · exact ⟨hidle h.1, hhas h.2⟩
  · trivial

/-- Who is inside no call gets into one by a new call only. -/
theorem idle_step (hsound : Sound used lock) (ht : t ∈ used) (hused : e.UsedBy used) (hidle : lock.Idle t)
    (hst : step nw lock e lock') (hnew : ∀ m l, e ≠ .lock t m l) : lock'.Idle t := by
  obtain ⟨u, hactor⟩ := exists_actor hst
  have hu := hsound.actor_mem hst hused hactor
  have hsees := sees_step hsound.queues hsound.waits hst hactor
  rw [idle_view] at hidle ⊢
  by_cases htu : t = u
  · subst htu
    obtain ⟨b, hown, -⟩ := hsees.own
    generalize lock'.view t = v' at hown ⊢
    cases hown with
    | @refused u | @passes c u =>
        obtain rfl : u = t := Option.some.inj hactor
        exact absurd rfl (hnew _ _)
    | enter hc | wake hc =>
        rw [hidle] at hc
        cases hc
    | unlock =>
        unfold Lock_manager.View.unlock
        split <;> exact hidle
    | setState => exact hidle
  · rw [hsees.others t (hsound.ids_ne hu ht htu)]
    exact hidle

/-- **A step of the lock manager** leaves a request that is under way its place. -/
theorem Standing.step (h : Standing lock x) (hsound : Sound used lock) (hsingle : Single (lock.view x.txn))
    (hx : x.txn ∈ used) (hused : e.UsedBy used) (hst : step nw lock e lock')
    (hown : x.phase.busy = true → ∀ m l, e ≠ .lock x.txn m l ∧ e ≠ .unlock x.txn l) : Standing lock' x := by
  have hreturned : ∀ (c : Nat) b, lock.calls[c]? = some (.returned b) → lock'.calls[c]? = some (.returned b) :=
    fun c b => returned_step hst
  obtain ⟨u, hactor⟩ := exists_actor hst
  have hu := hsound.actor_mem hst hused hactor
  have hsees := sees_step hsound.queues hsound.waits hst hactor
  by_cases hxu : x.txn = u
  · by_cases hbusy : x.phase.busy = true
    · cases he : e.call? with
      | some d =>
          -- the step goes on with the call of the request
          have hd := Lock_manager.busy_of_call hst (hactor.trans (congrArg some hxu.symm)) he
          unfold Standing at h ⊢
          split at h
          · rcases h with hasks | ⟨hi, -⟩
            · obtain rfl := hsingle.call _ _ hd hasks.busy
              subst hxu
              exact Lock_manager.asks_step hsound hsingle hasks hst hactor he
            · exact absurd (idle_view.mp hi d) hd
          · exact absurd (idle_view.mp h.1 d) hd
          · exact absurd (idle_view.mp h.1 d) hd
          · exact absurd (idle_view.mp h.1 d) hd
          · trivial
      | none =>
          cases Lock_manager.step_cases hst with
          | enter | wake => cases he
          | @lock v m l =>
              obtain rfl : v = u := Option.some.inj hactor
              exact absurd (hxu ▸ rfl) (hown hbusy m l).1
          | @unlock v l =>
              obtain rfl : v = u := Option.some.inj hactor
              exact absurd (hxu ▸ rfl) (hown hbusy .shared l).2
          | @setState v s =>
              obtain rfl : v = u := Option.some.inj hactor
              subst hxu
              refine h.congr ?_ ?_ hreturned
              · rw [Lock_manager.view_setState]
                rfl
              · rw [Lock_manager.view_setState]
                rfl
    · unfold Standing
      cases hphase : x.phase with
      | returned => trivial
      | locking | locked | storing | getting => exact absurd (by rw [hphase]; rfl) hbusy
  · have hview := hsees.others x.txn (hsound.ids_ne hu hx hxu)
    exact h.congr (by rw [hview]) (by rw [hview]) hreturned

theorem served_init {txns : Nat → DDBMS.Transaction} (hids : Set.InjOn (fun t => (txns t).txn_id_) (used : Set Nat)) :
    Served used (Lock_manager.World.init txns) [] where
  sound := Lock_manager.sound_init hids
  single := by
    intro t _
    refine ⟨fun l => Or.inl rfl, fun c d hc => absurd ?_ hc⟩
    simp [Lock_manager.World.view, Lock_manager.World.init]
  txns x hx := absurd hx List.not_mem_nil
  rows x hx := absurd hx List.not_mem_nil
  one p q x y hp := by cases hp
  standing x hx := absurd hx List.not_mem_nil
  idle t _ _ x hx := absurd hx List.not_mem_nil

/-- A request goes on. -/
theorem Served.setPhase (h : Served used lock requests) (hx : requests[p]? = some x) (hbusy : x.phase.busy = true)
    (hstanding : Standing lock { x with phase := phase }) (hidle : phase.busy = false → lock.Idle x.txn) :
    Served used lock (requests.set p { x with phase := phase }) where
  sound := h.sound
  single := h.single
  txns y hy := by
    rcases List.mem_or_eq_of_mem_set hy with hy | rfl
    · exact h.txns y hy
    · exact h.txns x (List.mem_of_getElem? hx)
  rows y hy := by
    rcases List.mem_or_eq_of_mem_set hy with hy | rfl
    · exact h.rows y hy
    · exact h.rows x (List.mem_of_getElem? hx)
  one q r y z hy hz hybusy hzbusy htxn := by
    rcases Slots.get_set hy with ⟨rfl, rfl⟩ | ⟨-, hyold⟩
    · rcases Slots.get_set hz with ⟨rfl, -⟩ | ⟨-, hzold⟩
      · rfl
      · exact h.one _ _ _ _ hx hzold hbusy hzbusy htxn
    · rcases Slots.get_set hz with ⟨rfl, rfl⟩ | ⟨-, hzold⟩
      · exact h.one _ _ _ _ hyold hx hybusy hbusy htxn
      · exact h.one _ _ _ _ hyold hzold hybusy hzbusy htxn
  standing y hy := by
    rcases List.mem_or_eq_of_mem_set hy with hy | rfl
    · exact h.standing y hy
    · exact hstanding
  idle t ht hfree := by
    have hmem : ({ x with phase := phase } : Request) ∈ requests.set p { x with phase := phase } :=
      List.mem_of_getElem? (Slots.get_set_self hx)
    by_cases hxt : x.txn = t
    · cases hb : phase.busy with
      | false => exact hxt ▸ hidle hb
      | true => exact absurd hxt (hfree { x with phase := phase } hmem hb)
    · refine h.idle t ht ?_
      intro y hy hybusy
      obtain ⟨q, hq⟩ := List.mem_iff_getElem?.mp hy
      by_cases hqp : q = p
      · subst hqp
        obtain rfl := Option.some.inj (hx.symm.trans hq)
        exact hxt
      · refine hfree y (List.mem_of_getElem? (i := q) ?_) hybusy
        rw [List.getElem?_set_ne (Ne.symm hqp)]
        exact hq

/-- Other code works with the lock manager, or a call goes on. -/
theorem Served.lockStep (h : Served used lock requests) (hused : e.UsedBy used) (hnew : ∀ t m l, e ≠ .lock t m l)
    (hunlock : ∀ t l, e = .unlock t l → Free requests t) (hst : step nw lock e lock') : Served used lock' requests where
  sound := Lock_manager.sound_step h.sound hused hst
  single := by
    refine Lock_manager.forall_view_step h.sound hused h.single hst ?_
    intro t ht b v' _ hown
    refine Lock_manager.single_step (h.single t ht) hown ?_
    rintro ⟨u, m, l, rfl⟩
    exact absurd rfl (hnew u m l)
  txns := h.txns
  rows := h.rows
  one := h.one
  standing x hx := by
    refine (h.standing x hx).step h.sound (h.single _ (h.txns x hx)) (h.txns x hx) hused hst ?_
    intro hbusy m l
    exact ⟨hnew _ m l, fun he => hunlock _ l he x hx hbusy rfl⟩
  idle t ht hfree := idle_step h.sound ht hused (h.idle t ht hfree) hst (hnew t)

/-- **A new request**: its lock call is in progress, or has been refused at once. -/
theorem Served.send {op_type : OP_TYPE} {key value : Bytes} {row_id : row_id_t} (h : Served used lock requests)
    (ht : t ∈ used) (hfree : Free requests t) (hrow : rowOf key = .ok row_id)
    (hst : step nw lock (Lock_manager.LockRow t op_type.mode 0 0 row_id) lock') :
    Served used lock' (requests ++ [⟨t, op_type, key, value, row_id, .locking lock.calls.length⟩]) := by
  have hused : (Lock_manager.LockRow t op_type.mode 0 0 row_id).UsedBy used := by
    intro u hu
    obtain rfl : t = u := Option.some.inj hu
    exact ht
  have hidle := h.idle t ht hfree
  have hsees := sees_step h.sound.queues h.sound.waits hst (t := t) rfl
  have hview : ∀ u ∈ used, u ≠ t → lock'.view u = lock.view u :=
    fun u hu hut => hsees.others u (h.sound.ids_ne ht hu hut)
  -- the call that `LockRow` makes
  obtain ⟨txns, call, he, -, hcall⟩ := Lock_manager.lock_cases lock t op_type.mode
    { oid_ := 0, p_id_ := 0, row_id_ := row_id, type_ := .row }
  have hlock : lock' = { lock with txns := txns, calls := lock.calls ++ [call] } := by
    rw [← he]
    exact (Option.some.inj hst).symm
  have hat : lock'.calls[lock.calls.length]? = some call := by
    rw [hlock]
    exact List.getElem?_concat_length
  refine ⟨Lock_manager.sound_step h.sound hused hst, ?_, ?_, ?_, ?_, ?_, ?_⟩
  · refine Lock_manager.forall_view_step h.sound hused h.single hst ?_
    intro u hu b v' hactor hown
    obtain rfl : t = u := Option.some.inj hactor
    exact Lock_manager.single_step (h.single t hu) hown (fun _ => idle_view.mp hidle)
  · intro x hx
    rcases List.mem_append.mp hx with hx | hx
    · exact h.txns x hx
    · rw [List.mem_singleton.mp hx]
      exact ht
  · intro x hx
    rcases List.mem_append.mp hx with hx | hx
    · exact h.rows x hx
    · rw [List.mem_singleton.mp hx]
      exact hrow
  · intro p q x y hp hq hx hy htxn
    rcases Slots.get_snoc hp with hp | ⟨rfl, rfl⟩
    · rcases Slots.get_snoc hq with hq | ⟨-, rfl⟩
      · exact h.one p q x y hp hq hx hy htxn
      · exact absurd htxn (hfree x (List.mem_of_getElem? hp) hx)
    · rcases Slots.get_snoc hq with hq | ⟨rfl, -⟩
      · exact absurd htxn.symm (hfree y (List.mem_of_getElem? hq) hy)
      · rfl
  · intro x hx
    rcases List.mem_append.mp hx with hx | hx
    · by_cases hbusy : x.phase.busy = true
      · have hxt := hview x.txn (h.txns x hx) (hfree x hx hbusy)
        exact (h.standing x hx).congr (by rw [hxt]) (by rw [hxt]) (fun c b => returned_step hst)
      · unfold Standing
        cases hphase : x.phase with
        | returned => trivial
        | locking | locked | storing | getting => exact absurd (by rw [hphase]; rfl) hbusy
    · obtain rfl := List.mem_singleton.mp hx
      rcases hcall with rfl | rfl
      · refine Or.inr ⟨?_, Or.inl hat⟩
        show lock'.Idle t
        rw [hlock]
        intro y hy
        rcases List.mem_append.mp hy with hy | hy
        · exact hidle y hy
        · rw [List.mem_singleton.mp hy]
          exact fun h => by cases h
      · exact Or.inl (.entering (Lock_manager.view_calls_self hat rfl))
  · intro u hu hfree'
    have hut : u ≠ t := by
      rintro rfl
      exact hfree' _ (List.mem_append_right _ (List.mem_singleton_self _)) rfl rfl
    rw [idle_view, hview u hu hut, ← idle_view]
    exact h.idle u hu (fun x hx => hfree' x (List.mem_append_left _ hx))

/-- **At most one operation is at a key**, unless they all read. -/
theorem Served.exclusive (h : Served used lock requests) (hp : requests[p]? = some x) (hq : requests[q]? = some y)
    (hx : x.phase.holds = true) (hy : y.phase.holds = true) (hkey : x.key = y.key)
    (hop : x.op_type ≠ .Get) : p = q := by
  have hmemx := List.mem_of_getElem? hp
  have hmemy := List.mem_of_getElem? hq
  obtain ⟨-, m, hm, hcovers⟩ := (h.standing x hmemx).has hx
  obtain ⟨-, n, hn, -⟩ := (h.standing y hmemy).has hy
  by_contra hne
  have htxn : x.txn ≠ y.txn :=
    fun htxn => hne (h.one p q x y hp hq (Phase.busy_of_holds hx) (Phase.busy_of_holds hy) htxn)
  have hrow : x.row_id = y.row_id := by
    have := (h.rows x hmemx).symm.trans (hkey ▸ h.rows y hmemy)
    exact Except.ok.inj this
  have hitem : x.item = y.item := by
    unfold Request.item
    rw [hrow]
  rw [hitem] at hm
  have hcompat := Lock_manager.held_compatible h.sound.queues
    (h.sound.ids_ne (h.txns x hmemx) (h.txns y hmemy) (Ne.symm htxn)) hm hn
  have hmode : x.mode = .exlucsive := by
    unfold Request.mode
    cases hop' : x.op_type with
    | Get => exact absurd hop' hop
    | Put | Del => rfl
  have hnone : Lock_manager.compatible .exlucsive n = true := hmode ▸ hcovers n hcompat
  cases n <;> simp [Lock_manager.compatible] at hnone

/-- **Step lemma.** -/
theorem served_step {e : Event} (h : Served used w.lock w.requests) (hok : LockOk used w e)
    (hst : next snappy nw w e = some w') : Served used w'.lock w'.requests := by
  cases next_cases hst with
  | SendOperator hrow hlock => exact h.send hok.1 hok.2 hrow hlock
  | lock hlock => exact h.lockStep hok.1 hok.2.1 hok.2.2 hlock
  | @granted p c x hx hphase hc =>
      have hstanding := h.standing x (List.mem_of_getElem? hx)
      unfold Standing at hstanding
      rw [hphase] at hstanding
      refine h.setPhase hx (by rw [hphase]; rfl) ?_ (fun hb => by cases hb)
      rcases hstanding with hasks | ⟨hidle, hfalse | ⟨-, hhas⟩⟩
      · have hbusy := hasks.busy
        simp [Lock_manager.World.view, hc, Lock_manager.Call.txn?] at hbusy
      · cases hc.symm.trans hfalse
      · exact ⟨hidle, hhas⟩
  | @refused p c x hx hphase hc =>
      have hstanding := h.standing x (List.mem_of_getElem? hx)
      unfold Standing at hstanding
      rw [hphase] at hstanding
      refine h.setPhase hx (by rw [hphase]; rfl) trivial (fun _ => ?_)
      rcases hstanding with hasks | ⟨hidle, -⟩
      · have hbusy := hasks.busy
        simp [Lock_manager.World.view, hc, Lock_manager.Call.txn?] at hbusy
      · exact hidle
  | @get p stale x pc hx hphase | @search p stale x pc₀ pc hx hphase =>
      rw [sought_lock, sought_requests]
      have hhas := (h.standing x (List.mem_of_getElem? hx)).has (by rw [hphase]; rfl)
      refine h.setPhase hx (by rw [hphase]; rfl) (standing_of_has hhas ?_) fun _ => hhas.1
      cases pc <;> exact fun c => Phase.noConfusion
  | @put p stale x kv hx hphase | @del p stale x kv hx hphase | @absent p stale x kv hx hphase =>
      have hhas := (h.standing x (List.mem_of_getElem? hx)).has (by rw [hphase]; rfl)
      exact h.setPhase hx (by rw [hphase]; rfl) hhas (fun hb => by cases hb)
  | log | wake | spill | add | store => exact h
  | @finish p x hx hphase =>
      have hhas := (h.standing x (List.mem_of_getElem? hx)).has (by rw [hphase]; rfl)
      exact h.setPhase hx (by rw [hphase]; rfl) trivial fun _ => hhas.1

end Locks

end BenchmarkService
end DDBMS
