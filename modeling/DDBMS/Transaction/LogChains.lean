import DDBMS.Lib.BackLinks
import DDBMS.Lib.Slots
import DDBMS.Recovery.LogManagerDurable
import DDBMS.Storage.KVStoreNew
import DDBMS.Storage.TableBuild

/-!
# `Transaction.LogChains` — the records of a transaction are a chain

`TransactionManager::Begin` (`transaction/transaction_manager.cpp`), `KVStore::put` and `KVStore::del`
(`storage/KVStore_new.h`) with `enable_logging`, by any number of transactions. Each transaction makes its calls one after
the other, in a thread of its own number. `KVStoreNew` takes a call up to the return of `AppendLogRecord` as one step; here
the record is made, appended under the latch of the log, and noted in `prev_lsn_` in three steps, and any steps of other
transactions and of the flush thread stand between them.

`prev_lsn_` belongs to one transaction, so what it says when the record is made it still says when the record is appended.
`Begin` waits for nobody: it shares `global_txn_latch_` with all others.
-/

namespace DDBMS
namespace TransactionManager

/-- What a call does besides logging. -/
inductive Op where
  | Begin
  | put (key value : Bytes) (add_writeset : Bool)
  | del (key value : Bytes) (inMem add_writeset : Bool)
  deriving DecidableEq, Repr

/-- Where a transaction stands. -/
inductive Call where
  | idle
  /-- in `AppendLogRecord` -/
  | append (log_record : LogRecord) (op : Op)
  /-- `AppendLogRecord` has returned; `set_prev_lsn` comes next -/
  | appended (lsn : Int) (op : Op)
  /-- the rest of the call comes next -/
  | logged (op : Op)
  deriving DecidableEq, Repr

/-- A transaction object and its thread. -/
structure Client where
  txn : KVStore.Transaction
  call : Call
  deriving Repr

structure World where
  log : LogManager.World
  store : KVStore_beta
  mutex_ : Option Nat := none
  txn_map : txn_id_t → Option Nat := fun _ => none
  clients : List Client := []

/-- A new log, any store, no transactions. -/
def World.init (log_buffer flush_buffer : Vector UInt8 LOG_BUFFER_SIZE) (store : KVStore_beta) : World where
  log := LogManager.World.init log_buffer flush_buffer
  store := store

inductive Event where
  /-- `Begin` makes a new transaction with this id -/
  | Begin (txn_id : txn_id_t)
  | put (x : Nat) (key value : Bytes) (add_writeset : Bool)
  | del (x : Nat) (key : Bytes) (stale : Nat → UInt8) (add_writeset : Bool)
  /-- transaction `x` has the latch of the log: it comes to it first, or wakes up -/
  | AppendLogRecord (x : Nat)
  | set_prev_lsn (x : Nat)
  /-- the rest of the call of `x`; `ones` is the height draw of the memtable -/
  | finish (x ones : Nat)
  /-- the flush thread -/
  | flush (e : LogManager.Event)

def World.setClient (w : World) (x : Nat) (c : Client) : World := { w with clients := w.clients.set x c }

/-- The record of a `Begin`. -/
def beginRecord (txn : KVStore.Transaction) : LogRecord := LogRecord.ofTxn txn.txn_id_ txn.prev_lsn_ .BEGIN

/-- A thread that does not wait calls, one that waits wakes up. -/
def logEvent (log : LogManager.World) (x : Nat) (log_record : LogRecord) : LogManager.Event :=
  if (log.waiting x).isSome then .wake x else .append x log_record

/-- A write record, if one is asked for. -/
def Client.written (c : Client) (wr : WriteRecord) (add_writeset : Bool) : Client where
  txn := { c.txn with write_set_ := if add_writeset then c.txn.write_set_ ++ [wr] else c.txn.write_set_ }
  call := .idle

/-- The call of client `x` behind its logging. -/
def World.finish (snappy : Snappy) (w : World) (x ones : Nat) (c : Client) : Op → Option World
  | .Begin => some { w.setClient x { c with call := .idle } with
      txn_map := fun id => if id = c.txn.txn_id_ then some x else w.txn_map id }
  | .put key value add_writeset =>
    if w.mutex_ = none then do
      let store ← w.store.put snappy key value ones
      some { w.setClient x (c.written ⟨.INSERT_TUPLE, key, []⟩ add_writeset) with store := store }
    else none
  | .del key value inMem add_writeset => do
    let memtable ← if inMem then (w.store.memtable_.del key).map Prod.fst else w.store.memtable_.put key [] ones
    some { w.setClient x (c.written ⟨.DELETE_TUPLE, key, value⟩ add_writeset) with
      store := { w.store with memtable_ := memtable }, mutex_ := none }

def next (snappy : Snappy) (w : World) : Event → Option World
  | .Begin txn_id =>
    let txn : KVStore.Transaction := { txn_id_ := txn_id }
    some { w with clients := w.clients ++ [⟨txn, .append (beginRecord txn) .Begin⟩] }
  | .put x key value add_writeset => do
    let c ← w.clients[x]?
    if c.call = .idle then
      some (w.setClient x { c with call := .append (KVStore.putRecord c.txn key value) (.put key value add_writeset) })
    else none
  | .del x key stale add_writeset => do
    let c ← w.clients[x]?
    if c.call = .idle ∧ w.mutex_ = none then
      match ← KVStore.found snappy w.store key with
      | none => some w
      | some (inMem, value) =>
        let log_record := KVStore.delRecord c.txn key value inMem stale
        some { w.setClient x { c with call := .append log_record (.del key value inMem add_writeset) } with
          mutex_ := some x }
    else none
  | .AppendLogRecord x => do
    let c ← w.clients[x]?
    match c.call with
    | .append log_record op =>
      let log ← LogManager.next w.log (logEvent w.log x log_record)
      if (log.waiting x).isSome then some { w with log := log }
      else some { w.setClient x { c with call := .appended w.log.mgr.next_lsn_ op } with log := log }
    | _ => none
  | .set_prev_lsn x => do
    let c ← w.clients[x]?
    match c.call with
    | .appended lsn op => some (w.setClient x ⟨{ c.txn with prev_lsn_ := lsn }, .logged op⟩)
    | _ => none
  | .finish x ones => do
    let c ← w.clients[x]?
    match c.call with
    | .logged op => w.finish snappy x ones c op
    | _ => none
  | .flush e =>
    if KVStore.logThread e = none then (LogManager.next w.log e).map fun log => { w with log := log } else none

/-! ## Chains -/

/-- The LSN that a transaction knows as its last one. -/
def Client.lastLsn (c : Client) : Int :=
  match c.call with
  | .appended lsn _ => lsn
  | _ => c.txn.prev_lsn_

/-- Every record names the previous record of its transaction, and the chain of a transaction has its records, last first,
    down to its `BEGIN`. -/
structure WellFormed (w : World) : Prop where
  prev : ∀ pre r post, w.log.appended = pre ++ r :: post → ∀ s, (links.own pre r.txn_id_).getLast? = some s →
    r.prev_lsn_ = s.lsn_ ∧ r.log_type_ ≠ .BEGIN
  begins : ∀ pre r post, w.log.appended = pre ++ r :: post → links.own pre r.txn_id_ = [] →
    r.prev_lsn_ = INVALID_LSN ∧ r.log_type_ = .BEGIN
  follow : ∀ c ∈ w.clients, ∀ fuel, w.log.appended.length ≤ fuel →
    links.follow w.log.appended fuel c.lastLsn = (links.own w.log.appended c.txn.txn_id_).reverse
  decreasing : ∀ c ∈ w.clients, ((links.own w.log.appended c.txn.txn_id_).reverse.map LogRecord.lsn_).Pairwise (· > ·)
  ends : ∀ c ∈ w.clients, ∀ r, (links.own w.log.appended c.txn.txn_id_).reverse.getLast? = some r → r.log_type_ = .BEGIN

/-- Transactions have different ids. -/
def IdsDiffer (w : World) : Event → Prop
  | .Begin txn_id => ∀ c ∈ w.clients, c.txn.txn_id_ ≠ txn_id
  | _ => True

instance instDecidableIdsDiffer (w : World) : (e : Event) → Decidable (IdsDiffer w e)
  | .Begin txn_id => inferInstanceAs (Decidable (∀ c ∈ w.clients, c.txn.txn_id_ ≠ txn_id))
  | .put _ _ _ _ | .del _ _ _ _ | .AppendLogRecord _ | .set_prev_lsn _ | .finish _ _ | .flush _ =>
    inferInstanceAs (Decidable True)

variable {snappy : Snappy} {w w' : World} {log log' : LogManager.World} {x : Nat} {c c' : Client} {r : LogRecord}

/-! ## What a step does -/

/-- The branches of a step, with what matters for the log. -/
inductive Steps (snappy : Snappy) (w : World) : Event → World → Prop where
  | Begin {txn_id : txn_id_t} : Steps snappy w (.Begin txn_id) { w with clients := w.clients ++
      [⟨{ txn_id_ := txn_id }, .append (beginRecord { txn_id_ := txn_id }) .Begin⟩] }
  | put {x : Nat} {c : Client} {key value : Bytes} {add_writeset : Bool} (hc : w.clients[x]? = some c)
      (hidle : c.call = .idle) : Steps snappy w (.put x key value add_writeset)
      (w.setClient x { c with call := .append (KVStore.putRecord c.txn key value) (.put key value add_writeset) })
  /-- the key is not there -/
  | absent {x : Nat} {key : Bytes} {stale : Nat → UInt8} {add_writeset : Bool} :
      Steps snappy w (.del x key stale add_writeset) w
  | del {x : Nat} {c : Client} {key value : Bytes} {stale : Nat → UInt8} {inMem add_writeset : Bool}
      (hc : w.clients[x]? = some c) (hidle : c.call = .idle) : Steps snappy w (.del x key stale add_writeset)
      { w.setClient x { c with
          call := .append (KVStore.delRecord c.txn key value inMem stale) (.del key value inMem add_writeset) } with
        mutex_ := some x }
  | wait {x : Nat} {c : Client} {r : LogRecord} {op : Op} {log : LogManager.World} (hc : w.clients[x]? = some c)
      (hcall : c.call = .append r op) (hlog : LogManager.next w.log (logEvent w.log x r) = some log)
      (hwaits : (log.waiting x).isSome = true) : Steps snappy w (.AppendLogRecord x) { w with log := log }
  | append {x : Nat} {c : Client} {r : LogRecord} {op : Op} {log : LogManager.World} (hc : w.clients[x]? = some c)
      (hcall : c.call = .append r op) (hlog : LogManager.next w.log (logEvent w.log x r) = some log)
      (hreturns : (log.waiting x).isSome = false) : Steps snappy w (.AppendLogRecord x)
      { w.setClient x { c with call := .appended w.log.mgr.next_lsn_ op } with log := log }
  | set_prev_lsn {x : Nat} {c : Client} {lsn : Int} {op : Op} (hc : w.clients[x]? = some c)
      (hcall : c.call = .appended lsn op) :
      Steps snappy w (.set_prev_lsn x) (w.setClient x ⟨{ c.txn with prev_lsn_ := lsn }, .logged op⟩)
  | finish {x ones : Nat} {c : Client} {op : Op} {w' : World} (hc : w.clients[x]? = some c) (hcall : c.call = .logged op)
      (hfinish : w.finish snappy x ones c op = some w') : Steps snappy w (.finish x ones) w'
  | flush {e : LogManager.Event} {log : LogManager.World} (he : KVStore.logThread e = none)
      (hlog : LogManager.next w.log e = some log) : Steps snappy w (.flush e) { w with log := log }

theorem next_cases {e : Event} (h : next snappy w e = some w') : Steps snappy w e w' := by
  cases e with
  | Begin txn_id =>
      obtain rfl := Option.some.inj h
      exact .Begin
  | put x key value add_writeset =>
      obtain ⟨c, hc, hrest⟩ := Option.bind_eq_some_iff.mp h
      split at hrest
      · rename_i hidle
        obtain rfl := Option.some.inj hrest
        exact .put hc hidle
      · cases hrest
  | del x key stale add_writeset =>
      obtain ⟨c, hc, hrest⟩ := Option.bind_eq_some_iff.mp h
      split at hrest
      · rename_i hidle
        obtain ⟨found, -, hrest⟩ := Option.bind_eq_some_iff.mp hrest
        cases found with
        | none =>
            obtain rfl := Option.some.inj hrest
            exact .absent
        | some found =>
            obtain rfl := Option.some.inj hrest
            exact .del hc hidle.1
      · cases hrest
  | AppendLogRecord x =>
      obtain ⟨c, hc, hrest⟩ := Option.bind_eq_some_iff.mp h
      split at hrest
      · rename_i hcall
        obtain ⟨log, hlog, hrest⟩ := Option.bind_eq_some_iff.mp hrest
        split at hrest
        · rename_i hwaits
          obtain rfl := Option.some.inj hrest
          exact .wait hc hcall hlog hwaits
        · rename_i hreturns
          obtain rfl := Option.some.inj hrest
          exact .append hc hcall hlog (Bool.not_eq_true _ ▸ hreturns)
      · cases hrest
  | set_prev_lsn x =>
      obtain ⟨c, hc, hrest⟩ := Option.bind_eq_some_iff.mp h
      split at hrest
      · rename_i hcall
        obtain rfl := Option.some.inj hrest
        exact .set_prev_lsn hc hcall
      · cases hrest
  | finish x ones =>
      obtain ⟨c, hc, hrest⟩ := Option.bind_eq_some_iff.mp h
      split at hrest
      · rename_i hcall
        exact .finish hc hcall hrest
      · cases hrest
  | flush e =>
      simp only [next] at h
      split at h
      · rename_i he
        obtain ⟨log, hlog, rfl⟩ := Option.map_eq_some_iff.mp h
        exact .flush he hlog
      · cases h

/-! ## What the log does -/

/-- A call of `AppendLogRecord`, or its wake-up: the record has to wait, or is appended. -/
theorem next_logEvent (hwaiting : ∀ s, log.waiting x = some s → s = r)
    (h : LogManager.next log (logEvent log x r) = some log') :
    (log'.appended = log.appended ∧ log'.mgr.next_lsn_ = log.mgr.next_lsn_ ∧
      ∀ u, log'.waiting u = if u = x then some r else log.waiting u) ∨ log' = log.appendNow x r := by
  unfold logEvent at h
  split at h
  · obtain ⟨s, hs, rfl | rfl⟩ := LogManager.wake_cases h
    · -- it goes on waiting
      obtain rfl := hwaiting s hs
      refine Or.inl ⟨rfl, rfl, fun u => ?_⟩
      split
      · rename_i hu
        rw [hu, hs]
      · rfl
    · obtain rfl := hwaiting s hs
      exact Or.inr rfl
  · obtain ⟨-, rfl | rfl⟩ := LogManager.append_cases h
    · exact Or.inl ⟨rfl, rfl, fun u => rfl⟩
    · exact Or.inr rfl

/-- What is not a call is the flush thread. -/
theorem flushes {e : LogManager.Event} (he : KVStore.logThread e = none) : e.Flushes := by
  cases e with
  | append t log_record | wake t => cases he
  | swap | write | store | reset => trivial

/-! ## The invariant -/

/-- A record is a `BEGIN` if it is the first one of its transaction. -/
def Begins (log : List LogRecord) : Prop :=
  ∀ pre r post, log = pre ++ r :: post → (r.log_type_ = .BEGIN ↔ links.own pre r.txn_id_ = [])

/-- What a transaction knows of its records. -/
def ClientOk (log : LogManager.World) (x : Nat) (c : Client) : Prop :=
  match c.call with
  | .append r _ => r.txn_id_ = c.txn.txn_id_ ∧ r.prev_lsn_ = links.last log.appended c.txn.txn_id_ ∧
      (r.log_type_ = .BEGIN ↔ links.own log.appended c.txn.txn_id_ = []) ∧
      c.txn.prev_lsn_ = links.last log.appended c.txn.txn_id_ ∧ ∀ s, log.waiting x = some s → s = r
  | .appended lsn _ => lsn = links.last log.appended c.txn.txn_id_ ∧ links.own log.appended c.txn.txn_id_ ≠ [] ∧
      log.waiting x = none
  | .logged _ | .idle => c.txn.prev_lsn_ = links.last log.appended c.txn.txn_id_ ∧
      links.own log.appended c.txn.txn_id_ ≠ [] ∧ log.waiting x = none

/-- What others append does not matter. -/
theorem ClientOk.frame (h : ClientOk log x c)
    (hown : links.own log'.appended c.txn.txn_id_ = links.own log.appended c.txn.txn_id_)
    (hwaiting : log'.waiting x = log.waiting x) : ClientOk log' x c := by
  have hlast : links.last log'.appended c.txn.txn_id_ = links.last log.appended c.txn.txn_id_ := by
    rw [BackLinks.last, hown, BackLinks.last]
  unfold ClientOk at h ⊢
  rw [hlast, hown, hwaiting]
  exact h

theorem ClientOk.lastLsn (h : ClientOk log x c) : c.lastLsn = links.last log.appended c.txn.txn_id_ := by
  unfold ClientOk at h
  unfold Client.lastLsn
  cases hcall : c.call with
  | idle | logged op | appended lsn op =>
      rw [hcall] at h
      exact h.1
  | append r op =>
      rw [hcall] at h
      exact h.2.2.2.1

structure Standing (w : World) : Prop where
  next_lsn : w.log.mgr.next_lsn_ = wrap32 w.log.appended.length
  threaded : links.Threaded w.log.appended
  begins : Begins w.log.appended
  ids : ∀ (i j : Nat) c d, w.clients[i]? = some c → w.clients[j]? = some d → c.txn.txn_id_ = d.txn.txn_id_ → i = j
  known : ∀ r ∈ w.log.appended, ∃ c ∈ w.clients, c.txn.txn_id_ = r.txn_id_
  clients : ∀ (x : Nat) c, w.clients[x]? = some c → ClientOk w.log x c
  waiting : ∀ x, w.clients.length ≤ x → w.log.waiting x = none

theorem Standing.wellFormed (h : Standing w) : WellFormed w := by
  constructor
  · intro pre r post heq s hs
    constructor
    · rw [show r.prev_lsn_ = links.last pre r.txn_id_ from h.threaded.prev pre r post heq, BackLinks.last, hs]
      rfl
    · intro hbegin
      rw [(h.begins pre r post heq).mp hbegin] at hs
      cases hs
  · intro pre r post heq hnone
    exact ⟨(h.threaded.prev pre r post heq).trans (BackLinks.last_of_own_nil hnone), (h.begins pre r post heq).mpr hnone⟩
  · intro c hc fuel hfuel
    obtain ⟨x, hx⟩ := List.mem_iff_getElem?.mp hc
    rw [(h.clients x c hx).lastLsn]
    exact h.threaded.follow_last hfuel c.txn.txn_id_
  · intro c _
    exact h.threaded.decreasing c.txn.txn_id_
  · intro c _ r hr
    rw [List.getLast?_reverse] at hr
    obtain ⟨pre, post, heq, hnone, hid⟩ := BackLinks.split_of_head hr
    apply (h.begins pre r post heq).mpr
    rw [show r.txn_id_ = c.txn.txn_id_ from hid]
    exact hnone

/-! ## Steps -/

/-- A client goes on with its transaction. -/
theorem ids_set {cs : List Client}
    (h : ∀ (i j : Nat) c d, cs[i]? = some c → cs[j]? = some d → c.txn.txn_id_ = d.txn.txn_id_ → i = j)
    (hc : cs[x]? = some c) (hid : c'.txn.txn_id_ = c.txn.txn_id_) :
    ∀ (i j : Nat) d e, (cs.set x c')[i]? = some d → (cs.set x c')[j]? = some e → d.txn.txn_id_ = e.txn.txn_id_ → i = j := by
  have hback : ∀ (j : Nat) d, (cs.set x c')[j]? = some d → ∃ d', cs[j]? = some d' ∧ d'.txn.txn_id_ = d.txn.txn_id_ := by
    intro j d hd
    rcases Slots.get_set hd with ⟨rfl, rfl⟩ | ⟨-, hd⟩
    · exact ⟨c, hc, hid.symm⟩
    · exact ⟨d, hd, rfl⟩
  intro i j d e hd he hde
  obtain ⟨d', hd', hdid⟩ := hback i d hd
  obtain ⟨e', he', heid⟩ := hback j e he
  exact h i j d' e' hd' he' (hdid.trans (hde.trans heid.symm))

theorem known_set {cs : List Client} {records : List LogRecord} (c' : Client)
    (h : ∀ r ∈ records, ∃ c ∈ cs, c.txn.txn_id_ = r.txn_id_)
    (hc : cs[x]? = some c) (hid : c'.txn.txn_id_ = c.txn.txn_id_) :
    ∀ r ∈ records, ∃ d ∈ cs.set x c', d.txn.txn_id_ = r.txn_id_ := by
  intro r hr
  obtain ⟨d, hd, hdid⟩ := h r hr
  obtain ⟨j, hj⟩ := List.mem_iff_getElem?.mp hd
  by_cases hjx : j = x
  · subst hjx
    obtain rfl := Option.some.inj (hj.symm.trans hc)
    exact ⟨c', Slots.mem_set_self hc, hid.trans hdid⟩
  · exact ⟨d, List.mem_of_getElem? ((List.getElem?_set_ne (Ne.symm hjx)).trans hj), hdid⟩

/-- A transaction with a new id. -/
theorem ids_snoc {cs : List Client} {c' : Client}
    (h : ∀ (i j : Nat) c d, cs[i]? = some c → cs[j]? = some d → c.txn.txn_id_ = d.txn.txn_id_ → i = j)
    (hnew : ∀ c ∈ cs, c.txn.txn_id_ ≠ c'.txn.txn_id_) : ∀ (i j : Nat) c d, (cs ++ [c'])[i]? = some c →
      (cs ++ [c'])[j]? = some d → c.txn.txn_id_ = d.txn.txn_id_ → i = j := by
  intro i j c d hc hd hid
  rcases Slots.get_snoc hc with hold | ⟨hi, rfl⟩
  · rcases Slots.get_snoc hd with hold' | ⟨-, rfl⟩
    · exact h i j c d hold hold' hid
    · exact absurd hid (hnew c (List.mem_of_getElem? hold))
  · rcases Slots.get_snoc hd with hold' | ⟨hj, -⟩
    · exact absurd hid.symm (hnew d (List.mem_of_getElem? hold'))
    · exact hi.trans hj.symm

/-- An id that nobody has owns no records. -/
theorem own_fresh {cs : List Client} {records : List LogRecord} {txn_id : txn_id_t}
    (h : ∀ r ∈ records, ∃ c ∈ cs, c.txn.txn_id_ = r.txn_id_) (hids : ∀ c ∈ cs, c.txn.txn_id_ ≠ txn_id) :
    links.own records txn_id = [] := by
  rw [BackLinks.own, List.filter_eq_nil_iff]
  intro r hr
  obtain ⟨c, hc, hid⟩ := h r hr
  rw [decide_eq_true_eq]
  exact fun heq => hids c hc (hid.trans heq)

/-- A step of client `x` that leaves the log alone. -/
theorem Standing.setClient (h : Standing w) (c' : Client) (hc : w.clients[x]? = some c)
    (hid : c'.txn.txn_id_ = c.txn.txn_id_) (hok : ClientOk w.log x c') (hlog : w'.log = w.log)
    (hclients : w'.clients = w.clients.set x c') : Standing w' := by
  constructor
  · rw [hlog]
    exact h.next_lsn
  · rw [hlog]
    exact h.threaded
  · rw [hlog]
    exact h.begins
  · rw [hclients]
    exact ids_set h.ids hc hid
  · rw [hlog, hclients]
    exact known_set c' h.known hc hid
  · intro j d hd
    rw [hclients] at hd
    rw [hlog]
    rcases Slots.get_set hd with ⟨rfl, rfl⟩ | ⟨-, hd⟩
    · exact hok
    · exact h.clients j d hd
  · intro j hj
    rw [hclients, List.length_set] at hj
    rw [hlog]
    exact h.waiting j hj

/-- A step of the log in which nothing is appended. -/
theorem Standing.keep (h : Standing w) (happended : log'.appended = w.log.appended)
    (hnext : log'.mgr.next_lsn_ = w.log.mgr.next_lsn_)
    (hclients : ∀ (x : Nat) c, w.clients[x]? = some c → ClientOk log' x c)
    (hwaiting : ∀ x, w.clients.length ≤ x → log'.waiting x = none) : Standing { w with log := log' } := by
  refine ⟨?_, ?_, ?_, h.ids, ?_, hclients, hwaiting⟩
  · show log'.mgr.next_lsn_ = wrap32 log'.appended.length
    rw [hnext, happended]
    exact h.next_lsn
  · show links.Threaded log'.appended
    rw [happended]
    exact h.threaded
  · show Begins log'.appended
    rw [happended]
    exact h.begins
  · show ∀ r ∈ log'.appended, _
    rw [happended]
    exact h.known

theorem Begins.snoc {records : List LogRecord} (h : Begins records)
    (hr : r.log_type_ = .BEGIN ↔ links.own records r.txn_id_ = []) : Begins (records ++ [r]) :=
  Slots.forall_split_snoc h hr

/-- **The critical section.** The record of client `x` is appended. -/
theorem Standing.append {op : Op} (h : Standing w) (hlen : w.log.appended.length < 2 ^ 31) (hc : w.clients[x]? = some c)
    (hcall : c.call = .append r op) :
    Standing { w.setClient x { c with call := .appended w.log.mgr.next_lsn_ op } with log := w.log.appendNow x r } := by
  have hok := h.clients x c hc
  rw [ClientOk, hcall] at hok
  obtain ⟨hid, hprev, hbegin, -, -⟩ := hok
  -- below `2 ^ 31` records the next LSN is the position of the record
  have hlsn : w.log.mgr.next_lsn_ = w.log.appended.length := by
    rw [h.next_lsn]
    exact wrap32_of_lt (by omega) (by omega)
  have happended := LogManager.appendNow_appended (w := w.log) (t := x) (r := r)
  have howner : links.owner (r.SetLsn w.log.mgr.next_lsn_) = c.txn.txn_id_ := hid
  have hwaiting := LogManager.appendNow_waiting (w := w.log) (t := x) (r := r)
  constructor
  · show (w.log.appendNow x r).mgr.next_lsn_ = wrap32 (w.log.appendNow x r).appended.length
    rw [LogManager.appendNow_next_lsn, happended, hlsn, List.length_append, List.length_singleton, Nat.cast_add, Nat.cast_one]
  · show links.Threaded (w.log.appendNow x r).appended
    rw [happended]
    apply h.threaded.snoc
    · exact hlsn
    · rw [howner]
      exact hprev
  · show Begins (w.log.appendNow x r).appended
    rw [happended]
    apply h.begins.snoc
    rw [show (r.SetLsn w.log.mgr.next_lsn_).txn_id_ = c.txn.txn_id_ from hid]
    exact hbegin
  · exact ids_set h.ids hc rfl
  · have hknown : ∀ s ∈ (w.log.appendNow x r).appended, ∃ d ∈ w.clients, d.txn.txn_id_ = s.txn_id_ := by
      intro s hs
      rw [happended] at hs
      rcases List.mem_append.mp hs with hs | hs
      · exact h.known s hs
      · rw [List.mem_singleton.mp hs]
        exact ⟨c, List.mem_of_getElem? hc, hid.symm⟩
    exact known_set { c with call := .appended w.log.mgr.next_lsn_ op } hknown hc rfl
  · intro j d hd
    rcases Slots.get_set hd with ⟨rfl, rfl⟩ | ⟨hj, hd⟩
    · -- the record is the last one of its transaction now
      refine ⟨?_, ?_, ?_⟩
      · show w.log.mgr.next_lsn_ = links.last (w.log.appended ++ [_]) c.txn.txn_id_
        rw [← howner, BackLinks.last_snoc_self]
        rfl
      · show links.own (w.log.appended ++ [_]) c.txn.txn_id_ ≠ []
        rw [← howner, BackLinks.own_snoc_self]
        exact List.append_ne_nil_of_right_ne_nil _ (List.cons_ne_nil _ _)
      · rw [hwaiting, if_pos rfl]
    · apply (h.clients j d hd).frame
      · rw [happended]
        apply BackLinks.own_snoc_other
        rw [howner]
        exact fun heq => hj (h.ids x j c d hc hd heq).symm
      · rw [hwaiting, if_neg hj]
  · intro j hj
    rw [hwaiting]
    split
    · rfl
    · rw [World.setClient, List.length_set] at hj
      exact h.waiting j hj

/-- The record of client `x` has to wait. -/
theorem Standing.wait {op : Op} (h : Standing w) (hc : w.clients[x]? = some c) (hcall : c.call = .append r op)
    (happended : log'.appended = w.log.appended) (hnext : log'.mgr.next_lsn_ = w.log.mgr.next_lsn_)
    (hwaiting : ∀ u, log'.waiting u = if u = x then some r else w.log.waiting u) : Standing { w with log := log' } := by
  apply h.keep happended hnext
  · intro j d hd
    by_cases hj : j = x
    · subst hj
      obtain rfl := Option.some.inj (hd.symm.trans hc)
      have hok := h.clients j d hd
      rw [ClientOk, hcall] at hok
      obtain ⟨hid, hprev, hbegin, hlast, -⟩ := hok
      rw [ClientOk, hcall, happended]
      refine ⟨hid, hprev, hbegin, hlast, ?_⟩
      intro s hs
      rw [hwaiting, if_pos rfl] at hs
      exact (Option.some.inj hs).symm
    · apply (h.clients j d hd).frame
      · rw [happended]
      · rw [hwaiting, if_neg hj]
  · intro j hj
    have hjx : j ≠ x := by
      rintro rfl
      have hlt := (List.getElem?_eq_some_iff.mp hc).1
      omega
    rw [hwaiting, if_neg hjx]
    exact h.waiting j hj

/-- A new transaction has no records. -/
theorem Standing.begin {txn_id : txn_id_t} (h : Standing w) (hids : ∀ c ∈ w.clients, c.txn.txn_id_ ≠ txn_id) :
    Standing { w with clients := w.clients ++
      [⟨{ txn_id_ := txn_id }, .append (beginRecord { txn_id_ := txn_id }) .Begin⟩] } := by
  have hown : links.own w.log.appended txn_id = [] := own_fresh h.known hids
  refine ⟨h.next_lsn, h.threaded, h.begins, ids_snoc h.ids hids, ?_, ?_, ?_⟩
  · intro r hr
    obtain ⟨c, hc, hid⟩ := h.known r hr
    exact ⟨c, List.mem_append_left _ hc, hid⟩
  · intro j d hd
    rcases Slots.get_snoc hd with hd | ⟨rfl, rfl⟩
    · exact h.clients j d hd
    · refine ⟨rfl, (BackLinks.last_of_own_nil hown).symm, ⟨fun _ => hown, fun _ => rfl⟩,
        (BackLinks.last_of_own_nil hown).symm, ?_⟩
      intro s hs
      rw [h.waiting _ (Nat.le_refl _)] at hs
      cases hs
  · intro j hj
    rw [List.length_append] at hj
    exact h.waiting j (Nat.le_of_add_right_le hj)

/-- A client that makes a record of its last LSN. -/
theorem Standing.call {op : Op} (h : Standing w) (hc : w.clients[x]? = some c) (hidle : c.call = .idle)
    (hid : r.txn_id_ = c.txn.txn_id_) (hprev : r.prev_lsn_ = c.txn.prev_lsn_) (htype : r.log_type_ ≠ .BEGIN)
    (hlog : w'.log = w.log) (hclients : w'.clients = w.clients.set x { c with call := .append r op }) : Standing w' := by
  have hok := h.clients x c hc
  rw [ClientOk, hidle] at hok
  obtain ⟨hlast, hown, hwaiting⟩ := hok
  refine h.setClient { c with call := .append r op } hc rfl ?_ hlog hclients
  refine ⟨hid, hprev.trans hlast, ⟨fun heq => absurd heq htype, fun heq => absurd heq hown⟩, hlast, ?_⟩
  intro s hs
  rw [hwaiting] at hs
  cases hs

/-- The rest of a call has nothing to do with the log, and keeps the other transactions. -/
theorem World.finish_cases {op : Op} {ones : Nat} (h : w.finish snappy x ones c op = some w') :
    w'.log = w.log ∧ ∃ write_set, w'.clients = w.clients.set x ⟨{ c.txn with write_set_ := write_set }, .idle⟩ := by
  cases op with
  | Begin =>
      obtain rfl := Option.some.inj h
      exact ⟨rfl, _, rfl⟩
  | put key value add_writeset =>
      simp only [World.finish] at h
      split at h
      · obtain ⟨store, -, hres⟩ := Option.bind_eq_some_iff.mp h
        obtain rfl := Option.some.inj hres
        exact ⟨rfl, _, rfl⟩
      · cases h
  | del key value inMem add_writeset =>
      simp only [World.finish] at h
      split at h
      · obtain ⟨memtable, -, hres⟩ := Option.bind_eq_some_iff.mp h
        obtain rfl := Option.some.inj hres
        exact ⟨rfl, _, rfl⟩
      · obtain ⟨memtable, -, hres⟩ := Option.bind_eq_some_iff.mp h
        obtain rfl := Option.some.inj hres
        exact ⟨rfl, _, rfl⟩

/-- The rest of a call. -/
theorem Standing.finish {op : Op} {ones : Nat} (h : Standing w) (hc : w.clients[x]? = some c) (hcall : c.call = .logged op)
    (hfinish : w.finish snappy x ones c op = some w') : Standing w' := by
  have hok := h.clients x c hc
  rw [ClientOk, hcall] at hok
  obtain ⟨hlog, write_set, hclients⟩ := World.finish_cases hfinish
  exact h.setClient ⟨{ c.txn with write_set_ := write_set }, .idle⟩ hc rfl hok hlog hclients

/-- **One step.** -/
theorem Standing.step {e : Event} (h : Standing w) (hlen : w.log.appended.length < 2 ^ 31)
    (hstep : Guarded IdsDiffer (FunStep (next snappy)) w e w') : Standing w' := by
  obtain ⟨hids, hstep⟩ := hstep
  cases next_cases hstep with
  | Begin => exact h.begin hids
  | absent => exact h
  | put hc hidle | del hc hidle => exact h.call hc hidle rfl rfl (fun heq => by cases heq) rfl rfl
  | @wait x c r op log hc hcall hlog hwaits =>
      have hok := h.clients x c hc
      rw [ClientOk, hcall] at hok
      rcases next_logEvent hok.2.2.2.2 hlog with ⟨happended, hnext, hwaiting⟩ | rfl
      · exact h.wait hc hcall happended hnext hwaiting
      · -- an appended record does not wait
        rw [LogManager.appendNow_waiting, if_pos rfl] at hwaits
        cases hwaits
  | @append x c r op log hc hcall hlog hreturns =>
      have hok := h.clients x c hc
      rw [ClientOk, hcall] at hok
      rcases next_logEvent hok.2.2.2.2 hlog with ⟨-, -, hwaiting⟩ | rfl
      · -- a record that has to wait makes its thread wait
        rw [hwaiting, if_pos rfl] at hreturns
        cases hreturns
      · exact h.append hlen hc hcall
  | @set_prev_lsn x c lsn op hc hcall =>
      have hok := h.clients x c hc
      rw [ClientOk, hcall] at hok
      exact h.setClient ⟨{ c.txn with prev_lsn_ := lsn }, .logged op⟩ hc rfl hok rfl rfl
  | finish hc hcall hfinish => exact h.finish hc hcall hfinish
  | @flush e log he hlog =>
      obtain ⟨happended, hwaiting, hnext⟩ := LogManager.flush_frame hlog (flushes he)
      apply h.keep happended hnext
      · intro x c hc
        apply (h.clients x c hc).frame
        · rw [happended]
        · rw [hwaiting]
      · intro x hx
        rw [hwaiting]
        exact h.waiting x hx

/-- Appended records stay. -/
theorem length_le {e : Event} (hstep : next snappy w e = some w') :
    w.log.appended.length ≤ w'.log.appended.length := by
  have hlog : ∀ {e log'}, LogManager.next w.log e = some log' → w.log.appended.length ≤ log'.appended.length := by
    intro e log' h
    obtain ⟨rs, hrs⟩ := LogManager.next_appended h
    rw [hrs, List.length_append]
    exact Nat.le_add_right _ _
  cases next_cases hstep with
  | Begin | put | absent | del | set_prev_lsn => exact Nat.le_refl _
  | wait hc hcall hst | append hc hcall hst => exact hlog hst
  | finish hc hcall hfinish => rw [(World.finish_cases hfinish).1]
  | flush he hst => exact hlog hst

/-! ## Runs -/

theorem standing_init (a b : Vector UInt8 LOG_BUFFER_SIZE) (store : KVStore_beta) : Standing (World.init a b store) := by
  refine ⟨(@wrap32_of_lt 0 (by decide) (by decide)).symm, BackLinks.Threaded.nil, ?_, ?_, ?_, ?_, fun x _ => rfl⟩
  · intro pre r post heq
    cases pre <;> cases heq
  · intro i j c d hc
    cases hc
  · intro r hr
    cases hr
  · intro x c hc
    cases hc

/-- **The records of a transaction are a chain**, for any number of transactions, in any interleaving with each other and
    with the flush thread, as long as the LSNs have not wrapped. -/
theorem log_chains_wellFormed {a b : Vector UInt8 LOG_BUFFER_SIZE} {store : KVStore_beta} {es : List Event} {w : World}
    (h : Run (Guarded IdsDiffer (FunStep (next snappy))) (World.init a b store) es w)
    (hlen : w.log.appended.length < 2 ^ 31) : WellFormed w := by
  have hstanding : w.log.appended.length < 2 ^ 31 → Standing w := by
    apply h.invariant (I := fun w => w.log.appended.length < 2 ^ 31 → Standing w)
    · intro s e t hs hst hlen
      have hlen : s.log.appended.length < 2 ^ 31 := Nat.lt_of_le_of_lt (length_le hst.2) hlen
      exact (hs hlen).step hlen hst
    · intro _
      exact standing_init a b store
  exact (hstanding hlen).wellFormed

/-- Two transactions in turns: the second one logs first. -/
def interleaved : List Event :=
  [.Begin 7, .Begin 8, .AppendLogRecord 1, .AppendLogRecord 0, .set_prev_lsn 0, .set_prev_lsn 1, .finish 1 0,
    .finish 0 0, .put 0 [1] [2] true, .put 1 [3] [4] true, .AppendLogRecord 0, .AppendLogRecord 1, .set_prev_lsn 0]

/-- Two transactions of two records each. -/
theorem log_chains_wellFormed_interleaved :
    ∃ w, Run (Guarded IdsDiffer (FunStep (next SnappyLiterals.snappy)))
        (World.init LogManager.zeros LogManager.zeros ⟨SkipList.new, ⟨0, ⟨[], 0, 0⟩⟩, {}⟩) interleaved w ∧
      w.log.appended.map LogRecord.prev_lsn_ = [-1, -1, 1, 0] ∧ WellFormed w := by
  obtain ⟨w, hrun, hprev⟩ : ∃ w, Run (Guarded IdsDiffer (FunStep (next SnappyLiterals.snappy)))
        (World.init LogManager.zeros LogManager.zeros ⟨SkipList.new, ⟨0, ⟨[], 0, 0⟩⟩, {}⟩) interleaved w ∧
      w.log.appended.map LogRecord.prev_lsn_ = [-1, -1, 1, 0] :=
    Run.exists_guarded_of_map (f := fun w : World => w.log.appended.map LogRecord.prev_lsn_) (by decide)
  have hlen : w.log.appended.length = 4 := by
    rw [← List.length_map (f := LogRecord.prev_lsn_), hprev]
    rfl
  exact ⟨w, hrun, hprev, log_chains_wellFormed hrun (by rw [hlen]; decide)⟩

end TransactionManager
end DDBMS
