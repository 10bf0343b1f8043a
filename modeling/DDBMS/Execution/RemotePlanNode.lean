import Mathlib.Logic.Function.Basic
import DDBMS.Lib.Slots
import DDBMS.Storage.KVStoreNew
import DDBMS.Transaction.LockManager

/-!
# `Execution.RemotePlanNode` — the transaction object of a remote plan

`RemotePlanNodeImpl::SendRemotePlan` (`execution/execution_rpc.cpp`) with `TransactionManager::Begin`
(`transaction/transaction_manager.cpp`). A request looks for its transaction under the shared lock of `txn_map`. If it finds
one, it executes its plan on it and keeps the lock until it returns. If not, it gives the lock up, and `Begin` makes a new
object and puts it into the map under the exclusive lock, over whatever the map has by then. So two requests of one
transaction may get an object each, and the map forgets the first (`insert_present`).

The log record of a `Begin` is in `LogChains`; what a plan does is in `RemotePlan`. Here a plan adds locks and write records
to the sets of its object.
-/

namespace DDBMS
namespace RemotePlanNode

/-- A `Transaction`: all its lock sets are one list. -/
structure Transaction where
  txn_id_ : txn_id_t
  lock_set_ : List Lock_data_id := []
  write_set_ : List WriteRecord := []
  deriving Repr, DecidableEq

/-- `Transaction*`: the place among all that `new` has made. -/
abbrev TransactionPtr := Nat

/-- Where a request stands. -/
inductive Pc where
  /-- in front of the shared lock -/
  | received
  /-- the transaction was not in the map; no lock is held -/
  | absent
  /-- in `Begin`, in front of the exclusive lock -/
  | created (txn : TransactionPtr)
  /-- in `ConvertIntoPlan`; `shared` tells whether the shared lock is still held -/
  | executing (txn : TransactionPtr) (shared : Bool)
  | returned (txn : TransactionPtr)
  deriving Repr, DecidableEq

/-- A request; `locks` and `writes` are what its plan has added to the sets of its transaction. -/
structure Request where
  txn_id : txn_id_t
  pc : Pc := .received
  locks : List Lock_data_id := []
  writes : List WriteRecord := []
  deriving Repr, DecidableEq

/-- The object that the plan is executed on. -/
def Pc.txn? : Pc → Option TransactionPtr
  | .executing txn _ | .returned txn => some txn
  | .received | .absent | .created _ => none

def Pc.shared : Pc → Bool
  | .executing _ shared => shared
  | .received | .absent | .created _ | .returned _ => false

structure State where
  /-- what `new` has made -/
  transactions : List Transaction := []
  txn_map : txn_id_t → Option TransactionPtr := fun _ => none
  requests : List Request := []

inductive Event where
  | SendRemotePlan (txn_id : txn_id_t)
  | lookup (i : Nat)
  | create (i : Nat)
  | insert (i : Nat)
  /-- the plan of request `i` goes on -/
  | work (i : Nat) (locks : List Lock_data_id) (writes : List WriteRecord)
  | leave (i : Nat)
  deriving Repr

def State.setRequest (s : State) (i : Nat) (request : Request) : State :=
  { s with requests := s.requests.set i request }

def Transaction.add (transaction : Transaction) (locks : List Lock_data_id) (writes : List WriteRecord) : Transaction :=
  { transaction with lock_set_ := transaction.lock_set_ ++ locks, write_set_ := transaction.write_set_ ++ writes }

/-- One step; `none` is a step that waits. -/
def step (s : State) : Event → Option State
  | .SendRemotePlan txn_id => some { s with requests := s.requests ++ [{ txn_id := txn_id }] }
  | .lookup i => do
    let request ← s.requests[i]?
    if request.pc = .received then
      match s.txn_map request.txn_id with
      | some txn => some (s.setRequest i { request with pc := .executing txn true })
      | none => some (s.setRequest i { request with pc := .absent })
    else none
  | .create i => do
    let request ← s.requests[i]?
    if request.pc = .absent then
      some { s.setRequest i { request with pc := .created s.transactions.length } with
        transactions := s.transactions ++ [{ txn_id_ := request.txn_id }] }
    else none
  | .insert i => do
    let request ← s.requests[i]?
    match request.pc with
    | .created txn => do
      let transaction ← s.transactions[txn]?
      -- the exclusive lock
      if ∀ other ∈ s.requests, other.pc.shared = false then
        some { s.setRequest i { request with pc := .executing txn false } with
          txn_map := Function.update s.txn_map transaction.txn_id_ (some txn) }
      else none
    | _ => none
  | .work i locks writes => do
    let request ← s.requests[i]?
    match request.pc with
    | .executing txn _ => do
      let transaction ← s.transactions[txn]?
      some { s.setRequest i { request with locks := request.locks ++ locks, writes := request.writes ++ writes } with
        transactions := s.transactions.set txn (transaction.add locks writes) }
    | _ => none
  | .leave i => do
    let request ← s.requests[i]?
    match request.pc with
    | .executing txn _ => some (s.setRequest i { request with pc := .returned txn })
    | _ => none

/-! ## One object -/

/-- Request `i` of this transaction executes its plan on the object `txn`, or has done so. -/
def State.Uses (s : State) (i : Nat) (txn_id : txn_id_t) (txn : TransactionPtr) : Prop :=
  ∃ request, s.requests[i]? = some request ∧ request.txn_id = txn_id ∧ request.pc.txn? = some txn

/-- All requests of a transaction use one object, and the map holds it, with every lock and every write record that their
    plans have added. -/
structure OneObject (s : State) : Prop where
  same : ∀ i j txn_id txn txn', s.Uses i txn_id txn → s.Uses j txn_id txn' → txn = txn'
  kept : ∀ (i : Nat) (request : Request) txn, s.requests[i]? = some request → request.pc.txn? = some txn →
    ∃ transaction, s.txn_map request.txn_id = some txn ∧ s.transactions[txn]? = some transaction ∧
      request.locks ⊆ transaction.lock_set_ ∧ request.writes ⊆ transaction.write_set_

/-- An insertion finds the transaction still absent. -/
def InsertOk (s : State) : Event → Prop
  | .insert i => ∀ request ∈ s.requests[i]?, s.txn_map request.txn_id = none
  | _ => True

instance instDecidableInsertOk (s : State) : (e : Event) → Decidable (InsertOk s e)
  | .insert i => inferInstanceAs (Decidable (∀ request ∈ s.requests[i]?, s.txn_map request.txn_id = none))
  | .SendRemotePlan _ | .lookup _ | .create _ | .work _ _ _ | .leave _ => inferInstanceAs (Decidable True)

variable {s s' : State} {i j : Nat} {request request' : Request} {txn txn' : TransactionPtr} {id : txn_id_t}

/-! ## What a step does -/

/-- The branches of a step, with what each has found. -/
inductive Steps (s : State) : Event → State → Prop where
  | SendRemotePlan {txn_id : txn_id_t} :
      Steps s (.SendRemotePlan txn_id) { s with requests := s.requests ++ [{ txn_id := txn_id }] }
  | found {i : Nat} {request : Request} {txn : TransactionPtr} (hrequest : s.requests[i]? = some request)
      (hpc : request.pc = .received) (hmap : s.txn_map request.txn_id = some txn) :
      Steps s (.lookup i) (s.setRequest i { request with pc := .executing txn true })
  | absent {i : Nat} {request : Request} (hrequest : s.requests[i]? = some request) (hpc : request.pc = .received) :
      Steps s (.lookup i) (s.setRequest i { request with pc := .absent })
  | create {i : Nat} {request : Request} (hrequest : s.requests[i]? = some request) (hpc : request.pc = .absent) :
      Steps s (.create i) ⟨s.transactions ++ [{ txn_id_ := request.txn_id }], s.txn_map,
        s.requests.set i { request with pc := .created s.transactions.length }⟩
  | insert {i : Nat} {request : Request} {txn : TransactionPtr} {transaction : Transaction}
      (hrequest : s.requests[i]? = some request) (hpc : request.pc = .created txn)
      (htxn : s.transactions[txn]? = some transaction) :
      Steps s (.insert i) ⟨s.transactions, Function.update s.txn_map transaction.txn_id_ (some txn),
        s.requests.set i { request with pc := .executing txn false }⟩
  | work {i : Nat} {locks : List Lock_data_id} {writes : List WriteRecord} {request : Request} {txn : TransactionPtr}
      {shared : Bool} {transaction : Transaction} (hrequest : s.requests[i]? = some request)
      (hpc : request.pc = .executing txn shared) (htxn : s.transactions[txn]? = some transaction) :
      Steps s (.work i locks writes) ⟨s.transactions.set txn (transaction.add locks writes), s.txn_map,
        s.requests.set i { request with locks := request.locks ++ locks, writes := request.writes ++ writes }⟩
  | leave {i : Nat} {request : Request} {txn : TransactionPtr} {shared : Bool} (hrequest : s.requests[i]? = some request)
      (hpc : request.pc = .executing txn shared) :
      Steps s (.leave i) (s.setRequest i { request with pc := .returned txn })

theorem step_cases {e : Event} (h : step s e = some s') : Steps s e s' := by
  cases e with
  | SendRemotePlan txn_id =>
      obtain rfl := Option.some.inj h
      exact .SendRemotePlan
  | lookup i =>
      obtain ⟨request, hrequest, hrest⟩ := Option.bind_eq_some_iff.mp h
      split at hrest
      · rename_i hpc
        split at hrest
        · rename_i hmap
          obtain rfl := Option.some.inj hrest
          exact .found hrequest hpc hmap
        · obtain rfl := Option.some.inj hrest
          exact .absent hrequest hpc
      · cases hrest
  | create i =>
      obtain ⟨request, hrequest, hrest⟩ := Option.bind_eq_some_iff.mp h
      split at hrest
      · rename_i hpc
        obtain rfl := Option.some.inj hrest
        exact .create hrequest hpc
      · cases hrest
  | insert i =>
      obtain ⟨request, hrequest, hrest⟩ := Option.bind_eq_some_iff.mp h
      split at hrest
      · rename_i hpc
        obtain ⟨transaction, htxn, hrest⟩ := Option.bind_eq_some_iff.mp hrest
        split at hrest
        · obtain rfl := Option.some.inj hrest
          exact .insert hrequest hpc htxn
        · cases hrest
      · cases hrest
  | work i locks writes =>
      obtain ⟨request, hrequest, hrest⟩ := Option.bind_eq_some_iff.mp h
      split at hrest
      · rename_i hpc
        obtain ⟨transaction, htxn, hrest⟩ := Option.bind_eq_some_iff.mp hrest
        obtain rfl := Option.some.inj hrest
        exact .work hrequest hpc htxn
      · cases hrest
  | leave i =>
      obtain ⟨request, hrequest, hrest⟩ := Option.bind_eq_some_iff.mp h
      split at hrest
      · rename_i hpc
        obtain rfl := Option.some.inj hrest
        exact .leave hrequest hpc
      · cases hrest

/-! ## The objects -/

/-- Objects stay, and their sets only grow. -/
def Grows (s s' : State) : Prop := ∀ (txn : TransactionPtr) (transaction : Transaction),
  s.transactions[txn]? = some transaction →
    ∃ transaction', s'.transactions[txn]? = some transaction' ∧ transaction'.txn_id_ = transaction.txn_id_ ∧
    transaction.lock_set_ ⊆ transaction'.lock_set_ ∧ transaction.write_set_ ⊆ transaction'.write_set_

theorem grows_same (h : s'.transactions = s.transactions) : Grows s s' := by
  intro txn transaction htxn
  exact ⟨transaction, by rw [h]; exact htxn, rfl, List.Subset.refl _, List.Subset.refl _⟩

theorem step_grows {e : Event} (h : step s e = some s') : Grows s s' := by
  cases step_cases h with
  | SendRemotePlan | found | absent | insert | leave => exact grows_same rfl
  | create =>
      intro txn transaction htxn
      refine ⟨transaction, ?_, rfl, List.Subset.refl _, List.Subset.refl _⟩
      exact (List.getElem?_append_left (List.getElem?_eq_some_iff.mp htxn).1).trans htxn
  | @work i locks writes request txn shared transaction hrequest hpc htxn =>
      intro txn' transaction' htxn'
      by_cases hsame : txn' = txn
      · subst hsame
        obtain rfl := Option.some.inj (htxn.symm.trans htxn')
        exact ⟨transaction.add locks writes, Slots.get_set_self htxn, rfl, List.subset_append_left _ _,
          List.subset_append_left _ _⟩
      · refine ⟨transaction', ?_, rfl, List.Subset.refl _, List.Subset.refl _⟩
        exact (List.getElem?_set_ne (Ne.symm hsame)).trans htxn'

/-- The object has what the plan of the request has added. -/
def Added (s : State) (request : Request) (txn : TransactionPtr) : Prop :=
  ∃ transaction, s.transactions[txn]? = some transaction ∧ request.locks ⊆ transaction.lock_set_ ∧
    request.writes ⊆ transaction.write_set_

/-- A request has added nothing before it executes its plan, and the object that it makes is one of its transaction. -/
def Fits (s : State) (request : Request) : Prop :=
  match request.pc with
  | .received | .absent => request.locks = [] ∧ request.writes = []
  | .created txn => (request.locks = [] ∧ request.writes = []) ∧
    ∃ transaction, s.transactions[txn]? = some transaction ∧ transaction.txn_id_ = request.txn_id
  | .executing txn _ | .returned txn => Added s request txn

theorem Added.mono (h : Added s request txn) (hgrows : Grows s s') : Added s' request txn := by
  obtain ⟨transaction, htxn, hlocks, hwrites⟩ := h
  obtain ⟨transaction', htxn', -, hlocks', hwrites'⟩ := hgrows _ _ htxn
  exact ⟨transaction', htxn', List.Subset.trans hlocks hlocks', List.Subset.trans hwrites hwrites'⟩

/-- A request that has added nothing fits any object. -/
theorem added_nothing (h : request.locks = [] ∧ request.writes = [])
    (htxn : ∃ transaction, s.transactions[txn]? = some transaction) : Added s request txn := by
  obtain ⟨transaction, htransaction⟩ := htxn
  refine ⟨transaction, htransaction, ?_, ?_⟩
  · rw [h.1]
    exact List.nil_subset _
  · rw [h.2]
    exact List.nil_subset _

theorem Fits.mono (h : Fits s request) (hgrows : Grows s s') : Fits s' request := by
  unfold Fits at *
  cases hpc : request.pc with
  | received | absent =>
      rw [hpc] at h
      exact h
  | created txn =>
      rw [hpc] at h
      obtain ⟨hnothing, transaction, htxn, hid⟩ := h
      obtain ⟨transaction', htxn', hid', -, -⟩ := hgrows _ _ htxn
      exact ⟨hnothing, transaction', htxn', hid'.trans hid⟩
  | executing txn | returned txn =>
      rw [hpc] at h
      exact Added.mono h hgrows

theorem Fits.added (h : Fits s request) (htxn : request.pc.txn? = some txn) : Added s request txn := by
  unfold Fits at h
  cases hpc : request.pc with
  | received | absent | created =>
      rw [hpc] at htxn
      cases htxn
  | executing | returned =>
      rw [hpc] at h htxn
      obtain rfl := Option.some.inj htxn
      exact h

/-- What is known of the objects, in any run. -/
structure Objects (s : State) : Prop where
  fits : ∀ (i : Nat) (request : Request), s.requests[i]? = some request → Fits s request
  map : ∀ id txn, s.txn_map id = some txn → ∃ transaction, s.transactions[txn]? = some transaction

/-- One request moves. -/
theorem Objects.move (h : Objects s) (hgrows : Grows s s') (hrequests : s'.requests = s.requests.set i request')
    (hfits : Fits s' request') (hmap : ∀ id txn, s'.txn_map id = some txn → s.txn_map id = some txn ∨
      ∃ transaction, s.transactions[txn]? = some transaction) : Objects s' := by
  constructor
  · intro j request hrequest
    rw [hrequests] at hrequest
    rcases Slots.get_set hrequest with ⟨-, rfl⟩ | ⟨-, hrequest⟩
    · exact hfits
    · exact (h.fits j request hrequest).mono hgrows
  · intro id txn htxn
    have hold : ∃ transaction, s.transactions[txn]? = some transaction := by
      rcases hmap id txn htxn with hold | hold
      · exact h.map id txn hold
      · exact hold
    obtain ⟨transaction, htransaction⟩ := hold
    obtain ⟨transaction', htransaction', -⟩ := hgrows _ _ htransaction
    exact ⟨transaction', htransaction'⟩

/-- What a map has after an update is the new value, or was there before. -/
theorem update_some {map : txn_id_t → Option TransactionPtr} {key : txn_id_t}
    (h : Function.update map key (some txn') id = some txn) : (id = key ∧ txn = txn') ∨ (id ≠ key ∧ map id = some txn) := by
  by_cases hid : id = key
  · subst hid
    rw [Function.update_self] at h
    exact Or.inl ⟨rfl, (Option.some.inj h).symm⟩
  · rw [Function.update_of_ne hid] at h
    exact Or.inr ⟨hid, h⟩

theorem Objects.step {e : Event} (h : Objects s) (hst : FunStep step s e s') : Objects s' := by
  have hgrows := step_grows hst
  cases step_cases hst with
  | SendRemotePlan =>
      refine ⟨?_, h.map⟩
      intro j request hrequest
      rcases Slots.get_snoc hrequest with hrequest | ⟨-, rfl⟩
      · exact h.fits j request hrequest
      · exact ⟨rfl, rfl⟩
  | @found i request txn hrequest hpc hmap =>
      have hnothing := h.fits i request hrequest
      rw [Fits, hpc] at hnothing
      have hadded : Added s request txn := added_nothing hnothing (h.map _ _ hmap)
      exact h.move hgrows rfl (hadded.mono hgrows) (fun _ _ => Or.inl)
  | @absent i request hrequest hpc =>
      have hnothing := h.fits i request hrequest
      rw [Fits, hpc] at hnothing
      exact h.move hgrows rfl hnothing (fun _ _ => Or.inl)
  | @create i request hrequest hpc =>
      have hnothing := h.fits i request hrequest
      rw [Fits, hpc] at hnothing
      refine h.move hgrows rfl ⟨hnothing, { txn_id_ := request.txn_id }, ?_, rfl⟩ (fun _ _ => Or.inl)
      exact List.getElem?_concat_length
  | @insert i request txn transaction hrequest hpc htxn =>
      have hmade := h.fits i request hrequest
      rw [Fits, hpc] at hmade
      have hadded : Added s request txn := added_nothing hmade.1 ⟨transaction, htxn⟩
      apply h.move hgrows rfl (hadded.mono hgrows)
      intro id txn' htxn'
      rcases update_some htxn' with ⟨-, rfl⟩ | ⟨-, hold⟩
      · exact Or.inr ⟨transaction, htxn⟩
      · exact Or.inl hold
  | @work i locks writes request txn shared transaction hrequest hpc htxn =>
      have hfits := h.fits i request hrequest
      rw [Fits, hpc] at hfits
      obtain ⟨transaction', htxn', hlocks, hwrites⟩ := hfits
      obtain rfl := Option.some.inj (htxn.symm.trans htxn')
      refine h.move hgrows rfl ?_ (fun _ _ => Or.inl)
      rw [Fits, hpc]
      refine ⟨transaction.add locks writes, Slots.get_set_self htxn, ?_, ?_⟩
      · exact List.append_subset.mpr ⟨List.Subset.trans hlocks (List.subset_append_left _ _), List.subset_append_right _ _⟩
      · exact List.append_subset.mpr ⟨List.Subset.trans hwrites (List.subset_append_left _ _), List.subset_append_right _ _⟩
  | @leave i request txn shared hrequest hpc =>
      have hfits := h.fits i request hrequest
      rw [Fits, hpc] at hfits
      have hadded : Added s request txn := hfits
      exact h.move hgrows rfl (hadded.mono hgrows) (fun _ _ => Or.inl)

/-! ## The map -/

/-- The map holds the object of every request that executes or has executed its plan. -/
def Held (s : State) : Prop := ∀ i id txn, s.Uses i id txn → s.txn_map id = some txn

structure Standing (s : State) : Prop where
  objects : Objects s
  held : Held s

theorem Standing.oneObject (h : Standing s) : OneObject s where
  same := by
    intro i j id txn txn' hi hj
    exact Option.some.inj ((h.held i id txn hi).symm.trans (h.held j id txn' hj))
  kept := by
    intro i request txn hrequest htxn
    obtain ⟨transaction, htransaction, hsets⟩ := (h.objects.fits i request hrequest).added htxn
    exact ⟨transaction, h.held i _ txn ⟨request, hrequest, rfl, htxn⟩, htransaction, hsets⟩

theorem uses_set (h : ({ s with requests := s.requests.set i request' } : State).Uses j id txn) :
    (j = i ∧ request'.txn_id = id ∧ request'.pc.txn? = some txn) ∨ s.Uses j id txn := by
  obtain ⟨request, hrequest, hid, htxn⟩ := h
  rcases Slots.get_set hrequest with ⟨hj, rfl⟩ | ⟨-, hrequest⟩
  · exact Or.inl ⟨hj, hid, htxn⟩
  · exact Or.inr ⟨request, hrequest, hid, htxn⟩

/-- A request moves and uses no other object than before. -/
theorem Held.move (h : Held s) (hmap : s'.txn_map = s.txn_map) (hrequests : s'.requests = s.requests.set i request')
    (huses : ∀ txn, request'.pc.txn? = some txn → s.txn_map request'.txn_id = some txn) : Held s' := by
  rintro j id txn ⟨request, hrequest, hid, htxn⟩
  rw [hrequests] at hrequest
  rw [hmap]
  rcases uses_set (s := s) ⟨request, hrequest, hid, htxn⟩ with ⟨-, rfl, htxn⟩ | huses'
  · exact huses txn htxn
  · exact h j id txn huses'

/-- **One step.** -/
theorem Standing.step {e : Event} (h : Standing s) (hst : Guarded InsertOk (FunStep step) s e s') : Standing s' := by
  obtain ⟨hok, hst⟩ := hst
  have hobjects := h.objects.step hst
  refine ⟨hobjects, ?_⟩
  cases step_cases hst with
  | SendRemotePlan =>
      rintro j id txn ⟨request, hrequest, hid, htxn⟩
      rcases Slots.get_snoc hrequest with hrequest | ⟨-, rfl⟩
      · exact h.held j id txn ⟨request, hrequest, hid, htxn⟩
      · cases htxn
  | @found i request txn hrequest hpc hmap =>
      refine h.held.move rfl rfl ?_
      rintro txn' htxn'
      obtain rfl := Option.some.inj htxn'
      exact hmap
  | absent | create =>
      refine h.held.move rfl rfl ?_
      rintro txn' htxn'
      cases htxn'
  | @insert i request txn transaction hrequest hpc htxn =>
      -- the request has made an object of its transaction, and the map has none of it
      have hmade := h.objects.fits i request hrequest
      rw [Fits, hpc] at hmade
      obtain ⟨-, transaction', htxn', hid⟩ := hmade
      obtain rfl := Option.some.inj (htxn.symm.trans htxn')
      have habsent := hok request hrequest
      rintro j id txn' huses
      rcases uses_set (s := s) huses with ⟨-, rfl, hobj⟩ | hold
      · obtain rfl := Option.some.inj hobj
        show Function.update s.txn_map transaction.txn_id_ (some txn) request.txn_id = some txn
        rw [hid, Function.update_self]
      · have hheld := h.held j id txn' hold
        have hne : id ≠ transaction.txn_id_ := by
          rintro rfl
          rw [hid, habsent] at hheld
          cases hheld
        exact (Function.update_of_ne hne _ _).trans hheld
  | @work i locks writes request txn shared transaction hrequest hpc htxn =>
      refine h.held.move rfl rfl ?_
      rintro txn' htxn'
      exact h.held i _ txn' ⟨request, hrequest, rfl, htxn'⟩
  | @leave i request txn shared hrequest hpc =>
      refine h.held.move rfl rfl ?_
      rintro txn' htxn'
      exact h.held i _ txn' ⟨request, hrequest, rfl, by rw [hpc]; exact htxn'⟩

theorem objects_init : Objects {} := by
  constructor
  · intro i request hrequest
    cases hrequest
  · intro id txn htxn
    cases htxn

/-- **One transaction object per transaction**, in every run whose insertions find the transaction absent. -/
theorem one_object {es : List Event} (hrun : Run (Guarded InsertOk (FunStep step)) {} es s) : OneObject s := by
  have hstart : Standing {} := by
    refine ⟨objects_init, ?_⟩
    rintro i id txn ⟨request, hrequest, -⟩
    cases hrequest
  exact (hrun.invariant (fun _ _ _ h hst => h.step hst) hstart).oneObject

/-- Two plans of a transaction; the second comes when the first has its object. -/
def oneAfterTheOther : List Event :=
  [.SendRemotePlan 7, .lookup 0, .create 0, .insert 0, .SendRemotePlan 7, .lookup 1,
    .work 0 [{ oid_ := 1, type_ := .table }] [], .work 1 [{ oid_ := 2, type_ := .table }] [], .leave 1, .leave 0]

theorem one_object_oneAfterTheOther : ∃ s, Run (Guarded InsertOk (FunStep step)) {} oneAfterTheOther s ∧
    s.transactions = [⟨7, [{ oid_ := 1, type_ := .table }, { oid_ := 2, type_ := .table }], []⟩] ∧ OneObject s := by
  obtain ⟨s, hrun, htransactions⟩ : ∃ s, Run (Guarded InsertOk (FunStep step)) {} oneAfterTheOther s ∧
      s.transactions = [⟨7, [{ oid_ := 1, type_ := .table }, { oid_ := 2, type_ := .table }], []⟩] :=
    Run.exists_guarded_of_map (f := State.transactions) (by decide)
  exact ⟨s, hrun, htransactions, one_object hrun⟩

/-! ## Two objects -/

/-- Two plans of a transaction arrive together: both find it absent before either inserts it. -/
def together : List Event :=
  [.SendRemotePlan 7, .SendRemotePlan 7, .lookup 0, .lookup 1, .create 0, .insert 0,
    .work 0 [{ oid_ := 1, type_ := .table }] [], .create 1, .insert 1]

/-- The lock of the first plan is in an object that the map has forgotten. -/
theorem two_objects : ¬ ∀ (es : List Event) (s : State), Run (FunStep step) {} es s → OneObject s := by
  intro hall
  obtain ⟨s, hrun, hrequests⟩ : ∃ s, Run (FunStep step) {} together s ∧
      s.requests = [⟨7, .executing 0 false, [{ oid_ := 1, type_ := .table }], []⟩, ⟨7, .executing 1 false, [], []⟩] :=
    Run.exists_of_map (f := State.requests) (by decide)
  have hsame := (hall _ s hrun).same 0 1 7 0 1 ⟨_, by rw [hrequests]; rfl, rfl, rfl⟩ ⟨_, by rw [hrequests]; rfl, rfl, rfl⟩
  cases hsame

/-- The object that a request has made or uses. -/
def Pc.object? : Pc → Option TransactionPtr
  | .created txn | .executing txn _ | .returned txn => some txn
  | .received | .absent => none

theorem Pc.object_of_txn {pc : Pc} (h : pc.txn? = some txn) : pc.object? = some txn := by
  cases pc with
  | received | absent | created => cases h
  | executing | returned => exact h

/-- The map has objects that some request uses, and an object that is still in `Begin` belongs to one request. -/
structure Apart (s : State) : Prop where
  used : ∀ id txn, s.txn_map id = some txn → ∃ i, s.Uses i id txn
  only : ∀ (i j : Nat) (request request' : Request) txn, s.requests[i]? = some request → request.pc = .created txn →
    s.requests[j]? = some request' → request'.pc.object? = some txn → i = j

/-- No object of the map is still in `Begin`. -/
theorem Apart.fresh (h : Apart s) (hmap : s.txn_map id = some txn) (hrequest : s.requests[i]? = some request) :
    request.pc ≠ .created txn := by
  intro hpc
  obtain ⟨j, request', hrequest', -, htxn⟩ := h.used id txn hmap
  obtain rfl := h.only i j request request' txn hrequest hpc hrequest' (Pc.object_of_txn htxn)
  obtain rfl := Option.some.inj (hrequest.symm.trans hrequest')
  rw [hpc] at htxn
  cases htxn

/-- Objects that have been made stand in `transactions`. -/
theorem Objects.made (h : Objects s) (hrequest : s.requests[i]? = some request) (hobject : request.pc.object? = some txn) :
    txn < s.transactions.length := by
  have hfits := h.fits i request hrequest
  unfold Fits at hfits
  cases hpc : request.pc with
  | received | absent =>
      rw [hpc] at hobject
      cases hobject
  | created =>
      rw [hpc] at hfits hobject
      obtain rfl := Option.some.inj hobject
      obtain ⟨-, transaction, htxn, -⟩ := hfits
      exact (List.getElem?_eq_some_iff.mp htxn).1
  | executing | returned =>
      rw [hpc] at hfits hobject
      obtain rfl := Option.some.inj hobject
      obtain ⟨transaction, htxn, -⟩ := hfits
      exact (List.getElem?_eq_some_iff.mp htxn).1

/-- A request that moves goes on using what it used, and the others do so anyway. -/
theorem State.Uses.move (h : s.Uses j id txn) (hrequests : s'.requests = s.requests.set i request')
    (hrequest : s.requests[i]? = some request) (hid : request'.txn_id = request.txn_id)
    (hkeeps : ∀ txn, request.pc.txn? = some txn → request'.pc.txn? = some txn) : s'.Uses j id txn := by
  obtain ⟨r, hr, hrid, htxn⟩ := h
  by_cases hj : j = i
  · subst hj
    obtain rfl := Option.some.inj (hrequest.symm.trans hr)
    exact ⟨request', by rw [hrequests]; exact Slots.get_set_self hrequest, hid.trans hrid, hkeeps txn htxn⟩
  · exact ⟨r, by rw [hrequests, List.getElem?_set_ne (Ne.symm hj)]; exact hr, hrid, htxn⟩

/-- One request moves. An object that is new to it is no longer in `Begin`, and one that it has made is new to all. -/
theorem Apart.move (h : Apart s) (hrequests : s'.requests = s.requests.set i request')
    (hrequest : s.requests[i]? = some request) (hid : request'.txn_id = request.txn_id)
    (hkeeps : ∀ txn, request.pc.txn? = some txn → request'.pc.txn? = some txn)
    (hobject : ∀ txn, request'.pc.object? = some txn → request.pc.object? = some txn ∨
      ∀ (j : Nat) (r : Request), s.requests[j]? = some r → r.pc ≠ .created txn)
    (hcreated : ∀ txn, request'.pc = .created txn →
      ∀ (j : Nat) (r : Request), s.requests[j]? = some r → r.pc.object? ≠ some txn)
    (hmap : ∀ id txn, s'.txn_map id = some txn → s.txn_map id = some txn ∨ s'.Uses i id txn) : Apart s' := by
  constructor
  · intro id txn htxn
    rcases hmap id txn htxn with hold | huses
    · obtain ⟨j, huses⟩ := h.used id txn hold
      exact ⟨j, huses.move hrequests hrequest hid hkeeps⟩
    · exact ⟨i, huses⟩
  · intro j k r r' txn hr hpc hr' hpc'
    rw [hrequests] at hr hr'
    rcases Slots.get_set hr with ⟨rfl, rfl⟩ | ⟨-, hold⟩
    · rcases Slots.get_set hr' with ⟨rfl, -⟩ | ⟨-, hold'⟩
      · rfl
      · exact absurd hpc' (hcreated txn hpc k r' hold')
    · rcases Slots.get_set hr' with ⟨rfl, rfl⟩ | ⟨-, hold'⟩
      · rcases hobject txn hpc' with hhad | hnone
        · exact h.only j k r request txn hold hpc hrequest hhad
        · exact absurd hpc (hnone j r hold)
      · exact h.only j k r r' txn hold hpc hold' hpc'

theorem Apart.step {e : Event} (h : Apart s) (hobjects : Objects s) (hst : FunStep step s e s') : Apart s' := by
  cases step_cases hst with
  | SendRemotePlan =>
      constructor
      · intro id txn htxn
        obtain ⟨j, r, hr, huses⟩ := h.used id txn htxn
        exact ⟨j, r, (List.getElem?_append_left (List.getElem?_eq_some_iff.mp hr).1).trans hr, huses⟩
      · intro j k r r' txn hr hpc hr' hpc'
        rcases Slots.get_snoc hr with hr | ⟨-, rfl⟩
        · rcases Slots.get_snoc hr' with hr' | ⟨-, rfl⟩
          · exact h.only j k r r' txn hr hpc hr' hpc'
          · cases hpc'
        · cases hpc
  | @found i request txn hrequest hpc hmap =>
      refine h.move rfl hrequest rfl ?_ ?_ (fun _ => Pc.noConfusion) (fun _ _ => Or.inl)
      · rw [hpc]
        intro _ h
        cases h
      · intro txn' htxn'
        obtain rfl := Option.some.inj htxn'
        exact Or.inr fun j r hr => h.fresh hmap hr
  | @absent i request hrequest hpc =>
      refine h.move rfl hrequest rfl ?_ ?_ (fun _ => Pc.noConfusion) (fun _ _ => Or.inl)
      · rw [hpc]
        intro _ h
        cases h
      · intro _ h
        cases h
  | @create i request hrequest hpc =>
      -- the new object is behind all others
      have hnew : ∀ (j : Nat) (r : Request), s.requests[j]? = some r → r.pc.object? ≠ some s.transactions.length :=
        fun j r hr hobject => absurd (hobjects.made hr hobject) (Nat.lt_irrefl _)
      refine h.move rfl hrequest rfl ?_ ?_ ?_ (fun _ _ => Or.inl)
      · rw [hpc]
        intro _ h
        cases h
      · intro txn htxn
        obtain rfl := Option.some.inj htxn
        exact Or.inr fun j r hr hrpc => hnew j r hr (by rw [hrpc]; rfl)
      · intro txn hcreated
        obtain rfl := Pc.created.inj hcreated
        exact hnew
  | @insert i request txn transaction hrequest hpc htxn =>
      have hmade := hobjects.fits i request hrequest
      rw [Fits, hpc] at hmade
      obtain ⟨-, transaction', htxn', hid⟩ := hmade
      obtain rfl := Option.some.inj (htxn.symm.trans htxn')
      refine h.move rfl hrequest rfl ?_ ?_ (fun _ => Pc.noConfusion) ?_
      · rw [hpc]
        intro _ h
        cases h
      · rw [hpc]
        exact fun _ => Or.inl
      · intro id txn' hmap
        rcases update_some hmap with ⟨rfl, rfl⟩ | ⟨-, hold⟩
        · exact Or.inr ⟨_, Slots.get_set_self hrequest, hid.symm, rfl⟩
        · exact Or.inl hold
  | @work i locks writes request txn shared transaction hrequest hpc htxn =>
      refine h.move rfl hrequest rfl (fun _ => id) (fun _ => Or.inl) ?_ (fun _ _ => Or.inl)
      intro txn' hcreated
      cases hpc.symm.trans hcreated
  | @leave i request txn shared hrequest hpc =>
      refine h.move rfl hrequest rfl ?_ ?_ (fun _ => Pc.noConfusion) (fun _ _ => Or.inl)
      · rw [hpc]
        exact fun _ => id
      · rw [hpc]
        exact fun _ => Or.inl

/-- **Every other insertion**, in any run: the map forgets the object of another request of the transaction. -/
theorem insert_present {es : List Event} (hrun : Run (FunStep step) {} es s) (hrequest : s.requests[i]? = some request)
    (hpresent : s.txn_map request.txn_id = some txn') (hst : step s (.insert i) = some s') : ¬ OneObject s' := by
  have hinv : Objects s ∧ Apart s := by
    refine hrun.invariant (I := fun s => Objects s ∧ Apart s) ?_ ⟨objects_init, ?_⟩
    · rintro s e s' ⟨hobjects, hapart⟩ hst
      exact ⟨hobjects.step hst, hapart.step hobjects hst⟩
    · constructor
      · intro id txn htxn
        cases htxn
      · intro i j r r' txn hr
        cases hr
  obtain ⟨hobjects, hapart⟩ := hinv
  cases step_cases hst with
  | @insert _ request' txn transaction hrequest' hpc htxn =>
      obtain rfl := Option.some.inj (hrequest.symm.trans hrequest')
      obtain ⟨j, huses⟩ := hapart.used _ _ hpresent
      intro hone
      -- the other request goes on with its object
      have hkeeps : ∀ txn', request.pc.txn? = some txn' →
          ({ request with pc := .executing txn false } : Request).pc.txn? = some txn' := by
        rw [hpc]
        intro _ h
        cases h
      have hself : ∃ r, (s.requests.set i { request with pc := .executing txn false })[i]? = some r ∧
          r.txn_id = request.txn_id ∧ r.pc.txn? = some txn := ⟨_, Slots.get_set_self hrequest, rfl, rfl⟩
      obtain rfl := hone.same i j request.txn_id txn txn' hself (huses.move rfl hrequest rfl hkeeps)
      exact hapart.fresh hpresent hrequest hpc

end RemotePlanNode
end DDBMS
