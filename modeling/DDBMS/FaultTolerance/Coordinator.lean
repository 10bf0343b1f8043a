import Mathlib.Logic.Function.Basic
import DDBMS.Lib.Run
import DDBMS.Lib.Slots
import DDBMS.Recovery.LogRecord

/-!
# `FaultTolerance.Coordinator` — taking over as the new coordinator

`Coordinator::Insert_txn` (`fault_tolerance/coordinator.cpp`), which handles the `NewCoordinator` messages of a node. Each
message is a call of its own; a call looks for the transaction under the shared lock and inserts it under the exclusive one.
In between it holds no lock and does not look again, so two calls may both insert (`insert_present`).

The thread that commits reads the local variable `txn` of its call by reference. Once the call has left the block, the
variable is gone, and the thread reads whatever its place holds by then.
-/

namespace DDBMS
namespace Coordinator

structure IP_Port where
  ip_addr : Bytes
  port : UInt32
  deriving Repr, DecidableEq

/-- What `Insert_txn` sets in a `Transaction`. -/
structure Transaction where
  txn_id_ : txn_id_t
  is_distributed : Bool
  distributed_plan_excution_node_ : List IP_Port
  deriving Repr, DecidableEq

/-- `Transaction*`: the place among all that `new` has made. -/
abbrev TransactionPtr := Nat

/-- Where a call of `Insert_txn` stands. -/
inductive Pc where
  /-- in front of the shared lock -/
  | received
  /-- the transaction was not in the map; no lock is held -/
  | absent
  /-- the thread is detached; the exclusive lock is held -/
  | inserted
  | returned
  deriving Repr, DecidableEq

/-- The thread `coordinator_prepare` of a call. -/
inductive Thread where
  | notCreated
  /-- with the value that the variable `txn` has in the call -/
  | created (txn : TransactionPtr)
  | committing (txn : TransactionPtr)
  | committed (txn : TransactionPtr)
  | finished
  deriving Repr, DecidableEq

/-- A thread with something left to do. -/
def Thread.txn? : Thread → Option TransactionPtr
  | .created txn | .committing txn | .committed txn => some txn
  | .notCreated | .finished => none

structure Call where
  txn_id : txn_id_t
  ips : List IP_Port
  pc : Pc := .received
  thread : Thread := .notCreated
  deriving Repr, DecidableEq

structure State where
  /-- what `new` has made -/
  transactions : List Transaction := []
  coor_txn_map : txn_id_t → Option TransactionPtr := fun _ => none
  /-- the call that holds the lock exclusively -/
  map_mutex : Option Nat := none
  calls : List Call := []

/-! ## Steps -/

def newTransaction (txn_id : txn_id_t) (ips : List IP_Port) : Transaction := ⟨txn_id, 1 < ips.length, ips⟩

/-- An entry that is there already stays. -/
def emplace (map : txn_id_t → Option TransactionPtr) (txn_id : txn_id_t) (txn : TransactionPtr) :
    txn_id_t → Option TransactionPtr :=
  if (map txn_id).isSome then map else Function.update map txn_id (some txn)

/-- The variable `txn` as the thread sees it: as long as the call is in the block its value, later what is in `slot`. -/
def readTxn (call : Call) (txn slot : TransactionPtr) : TransactionPtr := if call.pc = .inserted then txn else slot

inductive Event where
  | NewCoordinator (txn_id : txn_id_t) (ips : List IP_Port)
  | check (i : Nat)
  | insert (i : Nat)
  | leave (i : Nat)
  | start (i : Nat) (slot : TransactionPtr)
  | finish (i : Nat)
  | erase (i : Nat) (slot : TransactionPtr)
  deriving Repr

def State.setCall (s : State) (i : Nat) (call : Call) : State := { s with calls := s.calls.set i call }

/-- One step; `none` is a step that waits, or that reads a transaction where there is none. -/
def step (s : State) : Event → Option State
  | .NewCoordinator txn_id ips => some { s with calls := s.calls ++ [{ txn_id := txn_id, ips := ips }] }
  | .check i => do
    let call ← s.calls[i]?
    if call.pc = .received ∧ s.map_mutex = none then
      some (s.setCall i { call with pc := if (s.coor_txn_map call.txn_id).isSome then .returned else .absent })
    else none
  | .insert i => do
    let call ← s.calls[i]?
    if call.pc = .absent ∧ s.map_mutex = none then
      let txn := s.transactions.length
      some { transactions := s.transactions ++ [newTransaction call.txn_id call.ips],
             coor_txn_map := emplace s.coor_txn_map call.txn_id txn,
             map_mutex := some i,
             calls := s.calls.set i { call with pc := .inserted, thread := .created txn } }
    else none
  | .leave i => do
    let call ← s.calls[i]?
    if call.pc = .inserted then some { s.setCall i { call with pc := .returned } with map_mutex := none }
    else none
  | .start i slot => do
    let call ← s.calls[i]?
    match call.thread with
    | .created txn =>
      if readTxn call txn slot < s.transactions.length then
        some (s.setCall i { call with thread := .committing (readTxn call txn slot) })
      else none
    | _ => none
  | .finish i => do
    let call ← s.calls[i]?
    match call.thread with
    | .committing txn => some (s.setCall i { call with thread := .committed txn })
    | _ => none
  | .erase i slot => do
    let call ← s.calls[i]?
    match call.thread with
    | .committed txn =>
      let transaction ← s.transactions[readTxn call txn slot]?
      if s.map_mutex = none then
        some { s.setCall i { call with thread := .finished } with
          coor_txn_map := Function.update s.coor_txn_map transaction.txn_id_ none }
      else none
    | _ => none

/-! ## One coordinator -/

def State.txn_id (s : State) (txn : TransactionPtr) : Option txn_id_t := s.transactions[txn]?.map Transaction.txn_id_

/-- Call `i` has started `Commit(txn)`, and it has not finished. -/
def State.Started (s : State) (i : Nat) (txn : TransactionPtr) : Prop :=
  ∃ call, s.calls[i]? = some call ∧ (call.thread = .created txn ∨ call.thread = .committing txn)

/-- A transaction has at most one `Commit` that was started and has not finished, by a message for this transaction, and
    the map holds the transaction object. -/
structure AtMostOne (s : State) : Prop where
  own : ∀ i txn, s.Started i txn → ∃ call, s.calls[i]? = some call ∧ s.txn_id txn = some call.txn_id
  once : ∀ i j txn txn' txn_id, s.Started i txn → s.Started j txn' → s.txn_id txn = some txn_id →
    s.txn_id txn' = some txn_id → i = j
  held : ∀ i txn txn_id, s.Started i txn → s.txn_id txn = some txn_id → s.coor_txn_map txn_id = some txn

/-- An insertion finds the transaction still absent, and a thread finds its variable as the call left it. -/
def InsertOk (s : State) : Event → Prop
  | .insert i => ∀ call ∈ s.calls[i]?, s.coor_txn_map call.txn_id = none
  | .start i slot | .erase i slot => ∀ call ∈ s.calls[i]?, ∀ txn ∈ call.thread.txn?, readTxn call txn slot = txn
  | _ => True

instance instDecidableInsertOk (s : State) : (e : Event) → Decidable (InsertOk s e)
  | .insert i => inferInstanceAs (Decidable (∀ call ∈ s.calls[i]?, s.coor_txn_map call.txn_id = none))
  | .start i slot | .erase i slot =>
    inferInstanceAs (Decidable (∀ call ∈ s.calls[i]?, ∀ txn ∈ call.thread.txn?, readTxn call txn slot = txn))
  | .NewCoordinator _ _ | .check _ | .leave _ | .finish _ => inferInstanceAs (Decidable True)

variable {s s' : State} {i j : Nat} {call : Call} {txn txn' : TransactionPtr} {id : txn_id_t}

/-! ## What a step does -/

/-- The branches of a step, with what each has found. -/
inductive Steps (s : State) : Event → State → Prop where
  | NewCoordinator {txn_id : txn_id_t} {ips : List IP_Port} :
      Steps s (.NewCoordinator txn_id ips) { s with calls := s.calls ++ [{ txn_id := txn_id, ips := ips }] }
  | check {i : Nat} {call : Call} (hcall : s.calls[i]? = some call) :
      Steps s (.check i)
        (s.setCall i { call with pc := if (s.coor_txn_map call.txn_id).isSome then .returned else .absent })
  | insert {i : Nat} {call : Call} (hcall : s.calls[i]? = some call) (hpc : call.pc = .absent) (hfree : s.map_mutex = none) :
      Steps s (.insert i) ⟨s.transactions ++ [newTransaction call.txn_id call.ips],
        emplace s.coor_txn_map call.txn_id s.transactions.length, some i,
        s.calls.set i { call with pc := .inserted, thread := .created s.transactions.length }⟩
  | leave {i : Nat} {call : Call} (hcall : s.calls[i]? = some call) (hpc : call.pc = .inserted) :
      Steps s (.leave i) { s.setCall i { call with pc := .returned } with map_mutex := none }
  | start {i slot : Nat} {call : Call} {txn : TransactionPtr} (hcall : s.calls[i]? = some call)
      (hthread : call.thread = .created txn) (hmade : readTxn call txn slot < s.transactions.length) :
      Steps s (.start i slot) (s.setCall i { call with thread := .committing (readTxn call txn slot) })
  | finish {i : Nat} {call : Call} {txn : TransactionPtr} (hcall : s.calls[i]? = some call)
      (hthread : call.thread = .committing txn) : Steps s (.finish i) (s.setCall i { call with thread := .committed txn })
  | erase {i slot : Nat} {call : Call} {txn : TransactionPtr} {transaction : Transaction} (hcall : s.calls[i]? = some call)
      (hthread : call.thread = .committed txn) (hread : s.transactions[readTxn call txn slot]? = some transaction)
      (hfree : s.map_mutex = none) : Steps s (.erase i slot) { s.setCall i { call with thread := .finished } with
        coor_txn_map := Function.update s.coor_txn_map transaction.txn_id_ none }

theorem step_cases {e : Event} (h : step s e = some s') : Steps s e s' := by
  cases e with
  | NewCoordinator txn_id ips =>
      obtain rfl := Option.some.inj h
      exact .NewCoordinator
  | check i =>
      obtain ⟨call, hcall, hrest⟩ := Option.bind_eq_some_iff.mp h
      split at hrest
      · obtain rfl := Option.some.inj hrest
        exact .check hcall
      · cases hrest
  | insert i =>
      obtain ⟨call, hcall, hrest⟩ := Option.bind_eq_some_iff.mp h
      split at hrest
      · rename_i hpc
        obtain rfl := Option.some.inj hrest
        exact .insert hcall hpc.1 hpc.2
      · cases hrest
  | leave i =>
      obtain ⟨call, hcall, hrest⟩ := Option.bind_eq_some_iff.mp h
      split at hrest
      · rename_i hpc
        obtain rfl := Option.some.inj hrest
        exact .leave hcall hpc
      · cases hrest
  | start i slot =>
      obtain ⟨call, hcall, hrest⟩ := Option.bind_eq_some_iff.mp h
      split at hrest
      · rename_i hthread
        split at hrest
        · rename_i hmade
          obtain rfl := Option.some.inj hrest
          exact .start hcall hthread hmade
        · cases hrest
      · cases hrest
  | finish i =>
      obtain ⟨call, hcall, hrest⟩ := Option.bind_eq_some_iff.mp h
      split at hrest
      · rename_i hthread
        obtain rfl := Option.some.inj hrest
        exact .finish hcall hthread
      · cases hrest
  | erase i slot =>
      obtain ⟨call, hcall, hrest⟩ := Option.bind_eq_some_iff.mp h
      split at hrest
      · rename_i hthread
        obtain ⟨transaction, hread, hrest⟩ := Option.bind_eq_some_iff.mp hrest
        split at hrest
        · rename_i hfree
          obtain rfl := Option.some.inj hrest
          exact .erase hcall hthread hread hfree
        · cases hrest
      · cases hrest

/-! ## The threads with something left to do -/

/-- The thread of call `i`, for the transaction `id`, has the object `txn` and something left to do. -/
def State.Live (s : State) (i : Nat) (id : txn_id_t) (txn : TransactionPtr) : Prop :=
  ∃ call, s.calls[i]? = some call ∧ call.txn_id = id ∧ call.thread.txn? = some txn

theorem State.Started.live (h : s.Started i txn) : ∃ id, s.Live i id txn := by
  obtain ⟨call, hcall, hthread | hthread⟩ := h
  · exact ⟨call.txn_id, call, hcall, rfl, by rw [hthread]; rfl⟩
  · exact ⟨call.txn_id, call, hcall, rfl, by rw [hthread]; rfl⟩

theorem live_set (h : ({ s with calls := s.calls.set i call } : State).Live j id txn) :
    (j = i ∧ call.txn_id = id ∧ call.thread.txn? = some txn) ∨ (j ≠ i ∧ s.Live j id txn) := by
  obtain ⟨call', hcall', hid, hthread⟩ := h
  rcases Slots.get_set hcall' with ⟨hj, rfl⟩ | ⟨hj, hcall'⟩
  · exact Or.inl ⟨hj, hid, hthread⟩
  · exact Or.inr ⟨hj, call', hcall', hid, hthread⟩

/-- Every live thread has an object of its own transaction, which is the one in the map, and no other thread is live for
    this transaction. -/
structure Standing (s : State) : Prop where
  own : ∀ i id txn, s.Live i id txn → s.txn_id txn = some id
  held : ∀ i id txn, s.Live i id txn → s.coor_txn_map id = some txn
  once : ∀ i j id txn txn', s.Live i id txn → s.Live j id txn' → i = j

theorem Standing.atMostOne (h : Standing s) : AtMostOne s := by
  constructor
  · intro i txn hstarted
    obtain ⟨id, call, hcall, rfl, hthread⟩ := hstarted.live
    exact ⟨call, hcall, h.own i _ txn ⟨call, hcall, rfl, hthread⟩⟩
  · intro i j txn txn' txn_id hi hj hid hid'
    obtain ⟨id, hlive⟩ := hi.live
    obtain ⟨id', hlive'⟩ := hj.live
    obtain rfl : id = txn_id := Option.some.inj ((h.own i id txn hlive).symm.trans hid)
    obtain rfl : id' = id := Option.some.inj ((h.own j id' txn' hlive').symm.trans hid')
    exact h.once i j _ txn txn' hlive hlive'
  · intro i txn txn_id hi hid
    obtain ⟨id, hlive⟩ := hi.live
    obtain rfl : id = txn_id := Option.some.inj ((h.own i id txn hlive).symm.trans hid)
    exact h.held i _ txn hlive

/-- What makes no thread live and leaves the map and the objects as they are. -/
theorem Standing.of_live (h : Standing s) (htransactions : s'.transactions = s.transactions)
    (hmap : s'.coor_txn_map = s.coor_txn_map) (hlive : ∀ i id txn, s'.Live i id txn → s.Live i id txn) : Standing s' := by
  constructor
  · intro i id txn hi
    rw [State.txn_id, htransactions]
    exact h.own i id txn (hlive i id txn hi)
  · intro i id txn hi
    rw [hmap]
    exact h.held i id txn (hlive i id txn hi)
  · intro i j id txn txn' hi hj
    exact h.once i j id txn txn' (hlive i id txn hi) (hlive j id txn' hj)

/-- A step of a call or of its thread that keeps its object. -/
theorem Standing.setCall (h : Standing s) (call' : Call) (hcall : s.calls[i]? = some call) (hid : call'.txn_id = call.txn_id)
    (hthread : call'.thread.txn? = call.thread.txn?) (lock : Option Nat) :
    Standing { s.setCall i call' with map_mutex := lock } := by
  refine h.of_live rfl rfl ?_
  intro j id txn hlive
  rcases live_set hlive with ⟨rfl, hid', hthread'⟩ | ⟨-, hlive⟩
  · exact ⟨call, hcall, hid ▸ hid', hthread ▸ hthread'⟩
  · exact hlive

/-- The insertion of an absent transaction: no thread was live for it. -/
theorem Standing.insert (h : Standing s) (hcall : s.calls[i]? = some call) (habsent : s.coor_txn_map call.txn_id = none) :
    Standing ⟨s.transactions ++ [newTransaction call.txn_id call.ips],
      emplace s.coor_txn_map call.txn_id s.transactions.length, some i,
      s.calls.set i { call with pc := .inserted, thread := .created s.transactions.length }⟩ := by
  have hmap : emplace s.coor_txn_map call.txn_id s.transactions.length =
      Function.update s.coor_txn_map call.txn_id (some s.transactions.length) := by
    rw [emplace, habsent]
    rfl
  -- a thread live before belongs to another transaction
  have hother : ∀ j id txn, s.Live j id txn → id ≠ call.txn_id := by
    rintro j id txn hlive rfl
    rw [h.held j _ txn hlive] at habsent
    cases habsent
  have hcases : ∀ j id txn, (⟨s.transactions ++ [newTransaction call.txn_id call.ips],
      emplace s.coor_txn_map call.txn_id s.transactions.length, some i,
      s.calls.set i { call with pc := .inserted, thread := .created s.transactions.length }⟩ : State).Live j id txn →
      (j = i ∧ id = call.txn_id ∧ txn = s.transactions.length) ∨ s.Live j id txn := by
    intro j id txn hlive
    rcases live_set (s := s) hlive with ⟨rfl, hid, hthread⟩ | ⟨-, hlive⟩
    · exact Or.inl ⟨rfl, hid.symm, (Option.some.inj hthread).symm⟩
    · exact Or.inr hlive
  constructor
  · intro j id txn hlive
    rcases hcases j id txn hlive with ⟨rfl, rfl, rfl⟩ | hlive
    · rw [State.txn_id, List.getElem?_concat_length]
      rfl
    · obtain ⟨transaction, htransaction, hid⟩ := Option.map_eq_some_iff.mp (h.own j id txn hlive)
      rw [State.txn_id, List.getElem?_append_left (List.getElem?_eq_some_iff.mp htransaction).1, htransaction]
      exact congrArg some hid
  · intro j id txn hlive
    rw [hmap]
    rcases hcases j id txn hlive with ⟨rfl, rfl, rfl⟩ | hlive
    · exact Function.update_self _ _ _
    · exact (Function.update_of_ne (hother j id txn hlive) _ _).trans (h.held j id txn hlive)
  · intro j k id txn txn' hj hk
    rcases hcases j id txn hj with ⟨hji, hid, -⟩ | hj
    · rcases hcases k id txn' hk with ⟨hki, -, -⟩ | hk
      · rw [hji, hki]
      · exact absurd hid (hother k id txn' hk)
    · rcases hcases k id txn' hk with ⟨-, hid, -⟩ | hk
      · exact absurd hid (hother j id txn hj)
      · exact h.once j k id txn txn' hj hk

/-- The end of a thread: no other thread is live for its transaction. -/
theorem Standing.erase (h : Standing s) {transaction : Transaction} (hlive : s.Live i id txn)
    (htransaction : s.transactions[txn]? = some transaction) {lock : Option Nat} :
    Standing ⟨s.transactions, Function.update s.coor_txn_map transaction.txn_id_ none, lock,
      s.calls.set i { call with thread := .finished }⟩ := by
  obtain rfl : transaction.txn_id_ = id := by
    have hid := h.own i id txn hlive
    rw [State.txn_id, htransaction] at hid
    exact Option.some.inj hid
  have hcases : ∀ j id txn, (⟨s.transactions, Function.update s.coor_txn_map transaction.txn_id_ none, lock,
      s.calls.set i { call with thread := .finished }⟩ : State).Live j id txn → j ≠ i ∧ s.Live j id txn := by
    intro j id txn hlive
    rcases live_set (s := s) hlive with ⟨-, -, hthread⟩ | hlive
    · cases hthread
    · exact hlive
  constructor
  · intro j id txn hj
    exact h.own j id txn (hcases j id txn hj).2
  · intro j id txn hj
    obtain ⟨hne, hj⟩ := hcases j id txn hj
    have hid : id ≠ transaction.txn_id_ := by
      rintro rfl
      exact hne (h.once j i _ _ _ hj hlive)
    exact (Function.update_of_ne hid _ _).trans (h.held j id txn hj)
  · intro j k id txn txn' hj hk
    exact h.once j k id txn txn' (hcases j id txn hj).2 (hcases k id txn' hk).2

/-- **One step.** -/
theorem Standing.step {e : Event} (h : Standing s) (hstep : Guarded InsertOk (FunStep step) s e s') : Standing s' := by
  obtain ⟨hok, hstep⟩ := hstep
  cases step_cases hstep with
  | NewCoordinator =>
      refine h.of_live rfl rfl ?_
      rintro j id txn ⟨call, hcall, hid, hthread⟩
      rcases Slots.get_snoc hcall with hcall | ⟨-, rfl⟩
      · exact ⟨call, hcall, hid, hthread⟩
      · -- the new call has no thread
        cases hthread
  | @check i call hcall =>
      exact h.setCall { call with pc := if (s.coor_txn_map call.txn_id).isSome then .returned else .absent } hcall rfl rfl _
  | @insert i call hcall => exact h.insert hcall (hok call hcall)
  | @leave i call hcall => exact h.setCall { call with pc := .returned } hcall rfl rfl _
  | @start i slot call txn hcall hthread =>
      rw [hok call hcall txn (by rw [hthread]; rfl)]
      exact h.setCall { call with thread := .committing txn } hcall rfl (by rw [hthread]; rfl) _
  | @finish i call txn hcall hthread =>
      exact h.setCall { call with thread := .committed txn } hcall rfl (by rw [hthread]; rfl) _
  | @erase i slot call txn transaction hcall hthread hread =>
      rw [hok call hcall txn (by rw [hthread]; rfl)] at hread
      exact h.erase ⟨call, hcall, rfl, by rw [hthread]; rfl⟩ hread

/-- **One coordinator**, in every run whose insertions find the transaction absent and whose threads find their variable
    as it was. -/
theorem commit_at_most_once {es : List Event} (hrun : Run (Guarded InsertOk (FunStep step)) {} es s) : AtMostOne s := by
  have hlive : ∀ i id txn, ¬ ({} : State).Live i id txn := by
    rintro i id txn ⟨call, hcall, -⟩
    cases hcall
  have hstart : Standing {} := by
    constructor
    · exact fun i id txn h => absurd h (hlive i id txn)
    · exact fun i id txn h => absurd h (hlive i id txn)
    · exact fun i j id txn txn' h => absurd h (hlive i id txn)
  exact (hrun.invariant (fun _ _ _ h hstep => h.step hstep) hstart).atMostOne

/-- Two messages; the second is looked up while the first commits, and after that a third one takes over again. -/
theorem commit_at_most_once_three :
    ∃ s, Run (Guarded InsertOk (FunStep step)) {}
      [.NewCoordinator 7 [], .NewCoordinator 7 [], .NewCoordinator 7 [], .check 0, .insert 0, .leave 0, .check 1, .start 0 0,
        .finish 0, .erase 0 0, .check 2, .insert 2, .start 2 5] s ∧
      s.calls = [⟨7, [], .returned, .finished⟩, ⟨7, [], .returned, .notCreated⟩, ⟨7, [], .inserted, .committing 1⟩] ∧
      AtMostOne s := by
  obtain ⟨s, hrun, hcalls⟩ : ∃ s, Run (Guarded InsertOk (FunStep step)) {}
      [.NewCoordinator 7 [], .NewCoordinator 7 [], .NewCoordinator 7 [], .check 0, .insert 0, .leave 0, .check 1, .start 0 0,
        .finish 0, .erase 0 0, .check 2, .insert 2, .start 2 5] s ∧
      s.calls = [⟨7, [], .returned, .finished⟩, ⟨7, [], .returned, .notCreated⟩, ⟨7, [], .inserted, .committing 1⟩] :=
    Run.exists_guarded_of_map (f := State.calls) (by decide)
  exact ⟨s, hrun, hcalls, commit_at_most_once hrun⟩

/-! ## Two insertions -/

/-- Both messages find the transaction absent before either inserts it. -/
theorem commit_twice : ¬ ∀ (es : List Event) (s : State), Run (FunStep step) {} es s → AtMostOne s := by
  intro hall
  obtain ⟨s, hrun, heq⟩ : ∃ s, Run (FunStep step) {}
      [.NewCoordinator 7 [], .NewCoordinator 7 [], .check 0, .check 1, .insert 0, .start 0 0, .leave 0, .insert 1,
        .start 1 1] s ∧
      (s.calls, s.transactions) = ([⟨7, [], .returned, .committing 0⟩, ⟨7, [], .inserted, .committing 1⟩],
        [⟨7, false, []⟩, ⟨7, false, []⟩]) :=
    Run.exists_of_map (f := fun s : State => (s.calls, s.transactions)) (by decide)
  obtain ⟨hcalls, htransactions⟩ := Prod.mk.inj heq
  have h := (hall _ s hrun).once 0 1 0 1 7 ⟨⟨7, [], .returned, .committing 0⟩, by rw [hcalls]; rfl, Or.inr rfl⟩
    ⟨⟨7, [], .inserted, .committing 1⟩, by rw [hcalls]; rfl, Or.inr rfl⟩ (by rw [State.txn_id, htransactions]; rfl)
    (by rw [State.txn_id, htransactions]; rfl)
  cases h

/-- What the map points to was made by `new`. -/
def MapOk (s : State) : Prop := ∀ id txn, s.coor_txn_map id = some txn → txn < s.transactions.length

theorem emplace_cases {map : txn_id_t → Option TransactionPtr} {txn_id : txn_id_t}
    (h : emplace map txn_id txn' id = some txn) : map id = some txn ∨ txn = txn' := by
  unfold emplace at h
  split at h
  · exact Or.inl h
  · rw [Function.update_apply] at h
    split at h
    · exact Or.inr (Option.some.inj h).symm
    · exact Or.inl h

theorem MapOk.step {e : Event} (h : MapOk s) (hstep : FunStep step s e s') : MapOk s' := by
  cases step_cases hstep with
  | NewCoordinator | check | leave | start | finish => exact h
  | insert =>
      intro id txn htxn
      rw [List.length_append, List.length_singleton]
      rcases emplace_cases htxn with hold | rfl
      · exact Nat.lt_succ_of_lt (h id txn hold)
      · exact Nat.lt_succ_self _
  | @erase i slot call txn' transaction =>
      intro id txn htxn
      change Function.update s.coor_txn_map transaction.txn_id_ none id = some txn at htxn
      rw [Function.update_apply] at htxn
      split at htxn
      · cases htxn
      · exact h id txn htxn

/-- **Every other insertion**, in any run: the map keeps the object that it has, and a `Commit` of another one is started. -/
theorem insert_present {es : List Event} (hrun : Run (FunStep step) {} es s) (hcall : s.calls[i]? = some call)
    (hpresent : s.coor_txn_map call.txn_id = some txn) (hstep : step s (.insert i) = some s') : ¬ AtMostOne s' := by
  have hmap : MapOk s := hrun.invariant (fun _ _ _ h hstep => h.step hstep) (by intro id txn htxn; cases htxn)
  cases step_cases hstep with
  | insert hcall' =>
      obtain rfl := Option.some.inj (hcall.symm.trans hcall')
      intro hone
      have hstarted := @Slots.get_set_self _ s.calls i call
        { call with pc := .inserted, thread := .created s.transactions.length } hcall
      have hheld := hone.held i s.transactions.length call.txn_id ⟨_, hstarted, Or.inl rfl⟩
        (by rw [State.txn_id, List.getElem?_concat_length]; rfl)
      change emplace s.coor_txn_map call.txn_id s.transactions.length call.txn_id = some s.transactions.length at hheld
      -- the map has kept what it had
      rw [emplace, if_pos (by rw [hpresent]; rfl), hpresent] at hheld
      have hlt := hmap _ txn hpresent
      rw [Option.some.inj hheld] at hlt
      exact Nat.lt_irrefl _ hlt

end Coordinator
end DDBMS
