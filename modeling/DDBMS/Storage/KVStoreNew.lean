import DDBMS.Storage.KVStoreBeta
import DDBMS.Recovery.LogManager
import DDBMS.Lib.SortedAssoc

/-!
# `Storage.KVStoreNew` — the logged key-value store

The model of `KVStore` (`include/storage/KVStore_new.h`), with `enable_logging`: a `KVStore_beta` whose `put` and `del`
write a log record first. Any number of threads call it, next to the flush thread of the log and to other users of the
log.

* `put` logs, extends the write set, and then calls `KVStore_beta::put`, which takes `mutex_` for itself.
* `del` takes `mutex_` first and holds it while it logs, even while it waits for room in the log buffer.
* The value that `del` logs for a key of the memtable is read through the `c_str()` of a temporary string that is gone
  by then: its length is right, its bytes are whatever the memory holds (`stale`).

`memLsns` and `tables` are history: for each key of the memtable, and for each key of each SSTable, the LSN of the
record of the call that stored it.
-/

namespace DDBMS

inductive WType where
  | INSERT_TUPLE
  | DELETE_TUPLE
  deriving DecidableEq, Repr

structure WriteRecord where
  wtype_ : WType
  key_ : Bytes
  value_ : Bytes := []
  deriving DecidableEq, Repr

namespace KVStore

/-- What the store uses of a `Transaction`. -/
structure Transaction where
  txn_id_ : txn_id_t
  prev_lsn_ : Int := INVALID_LSN
  write_set_ : List WriteRecord := []
  deriving DecidableEq, Repr

/-- `set_prev_lsn`, and the write record if one is asked for. -/
def Transaction.logged (txn : Transaction) (lsn : Int) (wr : WriteRecord) (add_writeset : Bool) : Transaction :=
  { txn with
    prev_lsn_ := lsn
    write_set_ := if add_writeset then txn.write_set_ ++ [wr] else txn.write_set_ }

/-- Where a thread is in its call. -/
inductive Call where
  | idle
  /-- `put` waits in `AppendLogRecord` -/
  | putLog (txn : Nat) (key value : Bytes) (add_writeset : Bool)
  /-- `put` has logged; `KVStore_beta::put` comes next -/
  | putStore (key value : Bytes) (lsn : Int)
  /-- `del` waits in `AppendLogRecord`, with `mutex_` -/
  | delLog (txn : Nat) (key value : Bytes) (inMem add_writeset : Bool)
  /-- `del` has logged; the memtable comes next, with `mutex_` -/
  | delStore (key : Bytes) (inMem : Bool) (lsn : Int)
  deriving DecidableEq, Repr

structure World where
  log : LogManager.World
  store : KVStore_beta
  mutex_ : Option Nat := none
  calls : Nat → Call := fun _ => .idle
  txns : Nat → Transaction
  memLsns : List (Bytes × Int) := []
  tables : List (List (Bytes × Int)) := []

/-- A new log, a store and some transactions; no call has started. -/
def World.init (log : LogManager.World) (store : KVStore_beta) (txns : Nat → Transaction) : World where
  log := log
  store := store
  txns := txns

inductive Event where
  /-- the flush thread, or another user of the log -/
  | log (e : LogManager.Event)
  /-- thread `t` calls `put` for transaction `txn`, up to the return of `AppendLogRecord` or its wait -/
  | put (t txn : Nat) (key value : Bytes) (add_writeset : Bool)
  /-- thread `t` calls `del`, up to the return of `AppendLogRecord` or its wait -/
  | del (t txn : Nat) (key : Bytes) (stale : Nat → UInt8) (add_writeset : Bool)
  /-- the wait of thread `t` in `AppendLogRecord` -/
  | wake (t : Nat)
  /-- the rest of the call of thread `t`; `ones` is the height draw of the memtable -/
  | store (t ones : Nat)

namespace World

def setCall (w : World) (t : Nat) (c : Call) : World :=
  { w with calls := fun u => if u = t then c else w.calls u }

def setTxn (w : World) (x : Nat) (txn : Transaction) : World :=
  { w with txns := fun y => if y = x then txn else w.txns y }

/-- `put` behind its call of `AppendLogRecord`, which has left the log as `log`. -/
def afterPutLog (w : World) (t x : Nat) (key value : Bytes) (add_writeset : Bool) (log : LogManager.World) : World :=
  if (log.waiting t).isSome then { w.setCall t (.putLog x key value add_writeset) with log := log }
  else
    let lsn := w.log.mgr.next_lsn_
    let txn := (w.txns x).logged lsn ⟨.INSERT_TUPLE, key, []⟩ add_writeset
    { (w.setTxn x txn).setCall t (.putStore key value lsn) with log := log }

/-- `del` behind its call of `AppendLogRecord`. -/
def afterDelLog (w : World) (t x : Nat) (key value : Bytes) (inMem add_writeset : Bool) (log : LogManager.World) :
    World :=
  if (log.waiting t).isSome then
    { w.setCall t (.delLog x key value inMem add_writeset) with log := log, mutex_ := some t }
  else
    let lsn := w.log.mgr.next_lsn_
    let txn := (w.txns x).logged lsn ⟨.DELETE_TUPLE, key, value⟩ add_writeset
    { (w.setTxn x txn).setCall t (.delStore key inMem lsn) with log := log, mutex_ := some t }

/-- The memtable, with its LSNs, becomes the newest table. -/
def noteSpill (w : World) (memLsns : List (Bytes × Int)) (spilled : Bool) : World :=
  if spilled then { w with memLsns := [], tables := w.tables ++ [memLsns] } else { w with memLsns := memLsns }

end World

/-- What `del` looks up: whether the key is in the memtable, and the value. -/
def found (snappy : Snappy) (s : KVStore_beta) (key : Bytes) : Option (Option (Bool × Bytes)) := do
  let if_in_mem ← s.memtable_.contains key
  if if_in_mem then
    let result ← s.memtable_.get key
    some (some (true, result.2))
  else
    let result ← s.search snappy key
    if result.1 = true ∧ result.2 ≠ [] then some (some (false, result.2)) else some none

def putRecord (txn : Transaction) (key value : Bytes) : LogRecord :=
  LogRecord.ofStrings txn.txn_id_ txn.prev_lsn_ .INSERT key value

def delRecord (txn : Transaction) (key value : Bytes) (inMem : Bool) (stale : Nat → UInt8) : LogRecord :=
  LogRecord.ofStrings txn.txn_id_ txn.prev_lsn_ .DELETE key
    (if inMem then (List.range value.length).map stale else value)

/-- The threads that a log event of another user may not touch: those in a call of the store. -/
def logThread : LogManager.Event → Option Nat
  | .append t _ | .wake t => some t
  | .swap | .write | .store | .reset => none

def next (snappy : Snappy) (w : World) : Event → Option World
  | .log e =>
    if ∀ t ∈ logThread e, w.calls t = .idle then
      (LogManager.next w.log e).map fun log => { w with log := log }
    else none
  | .put t x key value add_writeset =>
    if w.calls t = .idle then
      (LogManager.next w.log (.append t (putRecord (w.txns x) key value))).map
        (w.afterPutLog t x key value add_writeset)
    else none
  | .del t x key stale add_writeset =>
    if w.calls t = .idle ∧ w.mutex_ = none then do
      match ← found snappy w.store key with
      | none => some w
      | some (inMem, value) =>
        (LogManager.next w.log (.append t (delRecord (w.txns x) key value inMem stale))).map
          (w.afterDelLog t x key value inMem add_writeset)
    else none
  | .wake t =>
    match w.calls t with
    | .putLog x key value add_writeset =>
      (LogManager.next w.log (.wake t)).map (w.afterPutLog t x key value add_writeset)
    | .delLog x key value inMem add_writeset =>
      (LogManager.next w.log (.wake t)).map (w.afterDelLog t x key value inMem add_writeset)
    | _ => none
  | .store t ones =>
    match w.calls t with
    | .putStore key value lsn =>
      if w.mutex_ = none then do
        let memtable ← w.store.memtable_.put key value ones
        let store ← w.store.put snappy key value ones
        some (({ w.setCall t .idle with store := store }).noteSpill (SortedAssoc.put key lsn w.memLsns)
          (memtable.space > StorageOption.SSTABLE_SPACE))
      else none
    | .delStore key true _ => do
      let (memtable, _) ← w.store.memtable_.del key
      some { w.setCall t .idle with
        store := { w.store with memtable_ := memtable }
        mutex_ := none
        memLsns := SortedAssoc.erase key w.memLsns }
    | .delStore key false lsn => do
      let memtable ← w.store.memtable_.put key [] ones
      some { w.setCall t .idle with
        store := { w.store with memtable_ := memtable }
        mutex_ := none
        memLsns := SortedAssoc.put key lsn w.memLsns }
    | _ => none

end KVStore
end DDBMS
