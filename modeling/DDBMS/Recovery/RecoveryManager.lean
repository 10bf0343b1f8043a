import DDBMS.Recovery.LogManager
import Mathlib.Data.List.AList
import Mathlib.Data.Finset.Max

/-!
# `Recovery.RecoveryManager` — redo and undo from the log file

The model of `RecoveryManager` (`src/recovery/recovery_manager.cpp`) with `LogStorage::ReadLog`
(`include/storage/LogStorage.h`).

`kv_` is a map from keys to values. Of the log manager a recovery uses the next LSN and what it appends; the log file is
the one it finds, for what it appends goes behind that. The order in which an `unordered_map` is iterated is not specified:
`order` lists the entries of `active_txn_` in the order of the iteration.

A computation is `none` when it reads outside `buffer_`, overflows an `int`, or runs out of fuel. The fuel bounds the
number of turns of each of the three loops.
-/

namespace DDBMS

/-- `LogStorage::GetFileSize`, of a file that exists. -/
def LogStorage.GetFileSize (log_file : Bytes) : Int := wrap32 log_file.length

/-- An `int` as a `size_t`. -/
def toSizeT (n : Int) : Int := n % 2 ^ 64

/-- `LogStorage::ReadLog` into `log_data`; `none` is `false`. What the file does not have is padded with zeros. -/
def LogStorage.ReadLog (log_file log_data : Bytes) (size offset : Int) : Option Bytes :=
  if toSizeT (GetFileSize log_file) ≤ toSizeT offset then none
  else
    let chunk := (log_file.drop offset.toNat).take size.toNat
    some (memcpy log_data 0 (chunk ++ List.replicate (size.toNat - chunk.length) 0))

instance (n : Int) : Decidable (LogRecord.InRange n) := inferInstanceAs (Decidable (_ ∧ _))

/-- The sum of two `int`s; `none` is an overflow. -/
def intAdd (m n : Int) : Option Int := if LogRecord.InRange (m + n) then some (m + n) else none

/-- The fields of the object; `log_file` is the file of `log_storage_`, `next_lsn_` and `appended` are of
    `log_manager_`. `handed` is no field: it lists the calls of `RedoLog`, with what `lsn_mapping_` has for the record. -/
structure RecoveryManager where
  buffer_ : Bytes
  log_file : Bytes
  kv_ : Bytes → Option Bytes := fun _ => none
  next_lsn_ : Int := 0
  appended : List LogRecord := []
  active_txn_ : AList fun _ : txn_id_t => Int := ∅
  lsn_mapping_ : AList fun _ : Int => Int × Int := ∅
  handed : List (LogRecord × Option (Int × Int)) := []

namespace RecoveryManager

/-- A new recovery manager, with a buffer of unknown contents, over an empty store. -/
def init (log_file : Bytes) (buffer : Vector UInt8 LOG_BUFFER_SIZE) : RecoveryManager where
  buffer_ := buffer.toList
  log_file := log_file

def put (rm : RecoveryManager) (key value : Bytes) : RecoveryManager :=
  { rm with kv_ := Function.update rm.kv_ key (some value) }

def del (rm : RecoveryManager) (key : Bytes) : RecoveryManager :=
  { rm with kv_ := Function.update rm.kv_ key none }

/-- `active_txn_[txn_id] = lsn`. -/
def setLast (rm : RecoveryManager) (txn_id : txn_id_t) (lsn : Int) : RecoveryManager :=
  { rm with active_txn_ := rm.active_txn_.insert txn_id lsn }

/-- `log_manager_->AppendLogRecord`; the record has its LSN afterwards. -/
def AppendLogRecord (rm : RecoveryManager) (log_record : LogRecord) : RecoveryManager × LogRecord :=
  let log := log_record.SetLsn rm.next_lsn_
  ({ rm with next_lsn_ := wrap32 (rm.next_lsn_ + 1), appended := rm.appended ++ [log] }, log)

/-! ## Redo -/

def RedoLog (rm : RecoveryManager) (log_record : LogRecord) : RecoveryManager :=
  -- record last lsn
  let rm := rm.setLast log_record.txn_id_ log_record.lsn_
  match log_record.log_type_ with
  | .COMMIT | .ABORT => { rm with active_txn_ := rm.active_txn_.erase log_record.txn_id_ }
  | .BEGIN => rm.setLast log_record.txn_id_ log_record.lsn_
  | .INSERT => rm.put log_record.key log_record.value
  | .DELETE => rm.del log_record.key
  | .CREATE_TABLE | .DROP_TABLE | .PREPARED => rm
  | .INVALID => rm

/-- What is remembered of a record: its place in the file, by its LSN. -/
def remember (rm : RecoveryManager) (lsn pos : Int) (size : Nat) : RecoveryManager :=
  { rm with lsn_mapping_ := rm.lsn_mapping_.insert lsn (pos, wrap32 size) }

/-- A call of `RedoLog` is noted. -/
def note (rm : RecoveryManager) (log_record : LogRecord) : RecoveryManager :=
  { rm with handed := rm.handed ++ [(log_record, rm.lsn_mapping_.lookup log_record.lsn_)] }

/-- The inner loop of `Redo`, over the records in `buffer_`; the end of the last whole one. -/
def redoChunk : Nat → RecoveryManager → Int → Int → Nat → Option (RecoveryManager × Int × Nat)
  | 0, _, _, _, _ => none
  | fuel + 1, rm, max_lsn, offset, inner_offset => do
    -- first probe the size
    let size ← readAt 4 rm.buffer_ inner_offset
    if size = 0 ∨ LOG_BUFFER_SIZE < (size + inner_offset) % 2 ^ 32 then
      some (rm, max_lsn, inner_offset)
    else
      let log ← LogRecord.DeserializeFrom (rm.buffer_.drop inner_offset)
      let pos ← intAdd offset inner_offset
      let rm := ((rm.remember log.lsn_ pos size).note log).RedoLog log
      redoChunk fuel rm (max max_lsn log.lsn_) offset ((size + inner_offset) % 2 ^ 32)

/-- The outer loop of `Redo`. -/
def redoFile : Nat → RecoveryManager → Int → Int → Option (RecoveryManager × Int)
  | 0, _, _, _ => none
  | fuel + 1, rm, max_lsn, offset =>
    match LogStorage.ReadLog rm.log_file rm.buffer_ LOG_BUFFER_SIZE offset with
    | none => some (rm, max_lsn)
    | some buffer => do
      let (rm, max_lsn, inner_offset) ← redoChunk fuel { rm with buffer_ := buffer } max_lsn offset 0
      let offset ← intAdd offset inner_offset
      redoFile fuel rm max_lsn offset

def Redo (fuel : Nat) (rm : RecoveryManager) : Option RecoveryManager := do
  let (rm, max_lsn) ← redoFile fuel rm INVALID_LSN 0
  let next_lsn ← intAdd max_lsn 1
  some { rm with next_lsn_ := next_lsn }

/-! ## Undo -/

/-- An entry of `active_txn_`: the transaction and its last LSN. -/
abbrev ActiveTxn := Sigma fun _ : txn_id_t => Int

/-- The record that takes `log_record` back is appended, and becomes the last one of its transaction. -/
def compensate (rm : RecoveryManager) (log_record : LogRecord) (type : LogRecordType) : RecoveryManager :=
  let prev_lsn := (rm.active_txn_.lookup log_record.txn_id_).getD 0
  let (rm, log) := rm.AppendLogRecord (.ofTuple log_record.txn_id_ prev_lsn type log_record.key_size_
    log_record.key_ log_record.value_size_ log_record.value_)
  rm.setLast log_record.txn_id_ log.lsn_

def UndoLog (rm : RecoveryManager) (log_record : LogRecord) : RecoveryManager :=
  match log_record.log_type_ with
  | .BEGIN | .PREPARED => rm
  | .INSERT => (rm.del log_record.key).compensate log_record .DELETE
  | .DELETE => (rm.put log_record.key log_record.key).compensate log_record .INSERT
  | .INVALID | .CREATE_TABLE | .DROP_TABLE | .COMMIT | .ABORT => rm

/-- `*next_lsn.rbegin()`. -/
def lastOf (next_lsn : Finset Int) : Option Int := if h : next_lsn.Nonempty then some (next_lsn.max' h) else none

/-- The record with this LSN is fetched into `buffer_`. -/
def fetch (rm : RecoveryManager) (lsn : Int) : RecoveryManager :=
  let (offset, size) := (rm.lsn_mapping_.lookup lsn).getD (0, 0)
  { rm with buffer_ := (LogStorage.ReadLog rm.log_file rm.buffer_ size offset).getD rm.buffer_ }

/-- The loop of `Undo`, over the LSNs of the records to take back next. -/
def undoLoop : Nat → RecoveryManager → Finset Int → Option RecoveryManager
  | 0, _, _ => none
  | fuel + 1, rm, next_lsn =>
    match lastOf next_lsn with
    | none => some rm
    | some lsn => do
      let rm := rm.fetch lsn
      let log ← LogRecord.DeserializeFrom rm.buffer_
      let rm := rm.UndoLog log
      -- erase current lsn and insert the previous lsn
      let next_lsn := next_lsn.erase lsn
      undoLoop fuel rm (if log.prev_lsn_ ≠ INVALID_LSN then insert log.prev_lsn_ next_lsn else next_lsn)

/-- After undo, the abort records. -/
def abortAll (rm : RecoveryManager) (entries : List ActiveTxn) : RecoveryManager :=
  entries.foldl (fun rm e => (rm.AppendLogRecord (.ofTxn e.1 e.2 .ABORT)).1) rm

def Undo (order : List ActiveTxn → List ActiveTxn) (fuel : Nat) (rm : RecoveryManager) : Option RecoveryManager := do
  let rm ← undoLoop fuel rm (rm.active_txn_.entries.map Sigma.snd).toFinset
  some (rm.abortAll (order rm.active_txn_.entries))

/-- `Scan` does nothing. -/
def ARIES (order : List ActiveTxn → List ActiveTxn) (fuel : Nat) (rm : RecoveryManager) : Option RecoveryManager := do
  let rm ← rm.Redo fuel
  rm.Undo order fuel

end RecoveryManager
end DDBMS
