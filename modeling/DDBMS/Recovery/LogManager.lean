import DDBMS.Recovery.LogRecord
import DDBMS.Lib.Run

/-!
# `Recovery.LogManager` — the double-buffered log

The model of `LogManager` (`src/recovery/log_manager.cpp`, `include/recovery/log_manager.h`) with the file of
`LogStorage` (`include/storage/LogStorage.h`).

A step is what one thread does between taking and releasing `latch_`, or one statement of the flush thread outside it.
A thread that calls `AppendLogRecord` either appends at once or, when the record does not fit, asks for a flush and
waits on `operation_cv_`; it tests again whenever it wakes up. The flush thread swaps the buffers under the latch,
then writes, publishes `persistent_lsn_` and clears `needFlush_` without it. It may time out at any moment, so it
may swap whenever it is idle.
-/

namespace DDBMS

def BUFFER_POOL_SIZE : Nat := 10
def PAGE_SIZE : Nat := 4096
def LOG_BUFFER_SIZE : Nat := (BUFFER_POOL_SIZE + 1) * PAGE_SIZE

theorem LOG_BUFFER_SIZE_eq : LOG_BUFFER_SIZE = 45056 := rfl

/-- `LogStorage::WriteLog` on a file opened for appending. -/
def LogStorage.WriteLog (log_file log_data : Bytes) (size : Nat) : Bytes :=
  if size = 0 then log_file else log_file ++ log_data.take size

/-- The fields of the object, and the file of its `log_storage_`. -/
structure LogManager where
  log_buffer_ : Bytes
  flush_buffer_ : Bytes
  needFlush_ : Bool := false
  next_lsn_ : Int := 0
  persistent_lsn_ : Int := INVALID_LSN
  flush_lsn_ : Int := INVALID_LSN
  log_buffer_write_offset_ : Nat := 0
  flush_buffer_write_offset_ : Nat := 0
  log_file : Bytes := []

namespace LogManager

/-- The test that makes an appender wait, in `size_t`. -/
def Full (m : LogManager) (r : LogRecord) : Prop :=
  LOG_BUFFER_SIZE ≤ ((m.log_buffer_write_offset_ + r.size_) % 2 ^ 64).toNat

instance (m : LogManager) (r : LogRecord) : Decidable (m.Full r) := inferInstanceAs (Decidable (_ ≤ _))

/-- The copies of a record into the buffer; the position behind the last one. -/
def copyRecord (log_buffer : Bytes) (offset : Nat) (r : LogRecord) : Bytes × Nat :=
  let log_buffer := memcpy log_buffer offset r.header
  let pos := offset + LogRecord.HEADER_SIZE
  if r.IsTuple then
    let log_buffer := memcpy log_buffer pos (leBytes 4 r.key_size_.toNat)
    let pos := pos + 4
    let log_buffer := memcpy log_buffer pos r.key
    let pos := pos + r.key.length
    let log_buffer := memcpy log_buffer pos (leBytes 4 r.value_size_.toNat)
    let pos := pos + 4
    let log_buffer := memcpy log_buffer pos r.value
    let pos := pos + r.value.length
    (log_buffer, pos)
  else (log_buffer, pos)

/-- The part of `AppendLogRecord` behind the wait. -/
def append (m : LogManager) (r : LogRecord) : LogManager × LogRecord :=
  let r := r.SetLsn m.next_lsn_
  let (log_buffer, pos) := copyRecord m.log_buffer_ m.log_buffer_write_offset_ r
  ({ m with
      next_lsn_ := wrap32 (m.next_lsn_ + 1)
      log_buffer_ := log_buffer
      log_buffer_write_offset_ := pos }, r)

def SwapBuffer (m : LogManager) : LogManager :=
  { m with
    log_buffer_ := m.flush_buffer_
    flush_buffer_ := m.log_buffer_
    flush_buffer_write_offset_ := m.log_buffer_write_offset_
    log_buffer_write_offset_ := 0 }

/-- Where the flush thread is in its loop. -/
inductive FlushThread where
  | idle
  /-- the latch is released, `WriteLog` comes next -/
  | writing (lsn : Int)
  /-- the file is written, `persistent_lsn_` comes next -/
  | written (lsn : Int)
  /-- `needFlush_` comes next -/
  | stored
  deriving DecidableEq, Repr

/-- The log and its threads. `waiting t` is the record of thread `t` while it waits on `operation_cv_`;
    `appended` are the records appended so far, in the order of their critical sections. -/
structure World where
  mgr : LogManager
  flushThread : FlushThread := .idle
  waiting : Nat → Option LogRecord := fun _ => none
  appended : List LogRecord := []

/-- A new log manager on an empty file, with two buffers of unknown contents. -/
def World.init (log_buffer flush_buffer : Vector UInt8 LOG_BUFFER_SIZE) : World where
  mgr := { log_buffer_ := log_buffer.toList, flush_buffer_ := flush_buffer.toList }

inductive Event where
  /-- thread `t` calls `AppendLogRecord` -/
  | append (t : Nat) (log_record : LogRecord)
  /-- thread `t` wakes up and tests the predicate of its wait -/
  | wake (t : Nat)
  /-- the flush thread wakes up, swaps the buffers and releases the latch -/
  | swap
  /-- `WriteLog` -/
  | write
  /-- `persistent_lsn_.store(lsn)` -/
  | store
  /-- `needFlush_.store(false)` -/
  | reset
  deriving DecidableEq, Repr

namespace World

def setWaiting (w : World) (t : Nat) (r : Option LogRecord) : World :=
  { w with waiting := fun u => if u = t then r else w.waiting u }

/-- The record of thread `t` is appended. -/
def appendNow (w : World) (t : Nat) (r : LogRecord) : World :=
  let (m, r) := w.mgr.append r
  { w.setWaiting t none with mgr := m, appended := w.appended ++ [r] }

end World

def next (w : World) : Event → Option World
  | .append t r =>
    if w.waiting t ≠ none then none
    else if w.mgr.Full r then some { w.setWaiting t (some r) with mgr := { w.mgr with needFlush_ := true } }
    else some (w.appendNow t r)
  | .wake t =>
    match w.waiting t with
    | none => none
    | some r => if w.mgr.Full r then some w else some (w.appendNow t r)
  | .swap =>
    if w.flushThread ≠ .idle then none
    else if 0 < w.mgr.log_buffer_write_offset_ then
      let lsn := wrap32 (w.mgr.next_lsn_ - 1)
      some { w with mgr := { w.mgr.SwapBuffer with flush_lsn_ := lsn }, flushThread := .writing lsn }
    else some w
  | .write =>
    match w.flushThread with
    | .writing lsn =>
      let log_file := LogStorage.WriteLog w.mgr.log_file w.mgr.flush_buffer_ w.mgr.flush_buffer_write_offset_
      some { w with mgr := { w.mgr with log_file := log_file }, flushThread := .written lsn }
    | _ => none
  | .store =>
    match w.flushThread with
    | .written lsn => some { w with mgr := { w.mgr with persistent_lsn_ := lsn }, flushThread := .stored }
    | _ => none
  | .reset =>
    match w.flushThread with
    | .stored => some { w with mgr := { w.mgr with needFlush_ := false }, flushThread := .idle }
    | _ => none

/-! ## What a copy does -/

theorem length_key_value {r : LogRecord} (h : r.IsTuple) :
    r.encode.length = LogRecord.HEADER_SIZE + 4 + r.key.length + 4 + r.value.length := by
  rw [LogRecord.length_encode, if_pos h]

/-- The copies write the encoding, one piece behind the other. -/
theorem copyRecord_eq {log_buffer : Bytes} {offset : Nat} {r : LogRecord}
    (h : offset + r.encode.length ≤ log_buffer.length) :
    copyRecord log_buffer offset r = (memcpy log_buffer offset r.encode, offset + r.encode.length) := by
  have hheader := r.length_header
  unfold copyRecord
  by_cases ht : r.IsTuple
  · have hlen := length_key_value ht
    have hsize : (leBytes 4 r.key_size_.toNat).length = 4 := length_leBytes 4 _
    have hsize' : (leBytes 4 r.value_size_.toNat).length = 4 := length_leBytes 4 _
    have hencode : r.encode = r.header ++ leBytes 4 r.key_size_.toNat ++ r.key ++
        leBytes 4 r.value_size_.toNat ++ r.value := by
      rw [LogRecord.encode, if_pos ht]
      simp only [List.append_assoc]
    -- each copy starts where the one before it ends
    have h₁ := @memcpy_memcpy log_buffer r.header (leBytes 4 r.key_size_.toNat) offset (by omega)
    have h₂ := @memcpy_memcpy log_buffer (r.header ++ leBytes 4 r.key_size_.toNat) r.key offset
      (by rw [List.length_append]; omega)
    have h₃ := @memcpy_memcpy log_buffer (r.header ++ leBytes 4 r.key_size_.toNat ++ r.key)
      (leBytes 4 r.value_size_.toNat) offset (by simp only [List.length_append]; omega)
    have h₄ := @memcpy_memcpy log_buffer (r.header ++ leBytes 4 r.key_size_.toNat ++ r.key ++
      leBytes 4 r.value_size_.toNat) r.value offset (by simp only [List.length_append]; omega)
    simp only [List.length_append, hheader, hsize, hsize', ← Nat.add_assoc] at h₁ h₂ h₃ h₄
    simp only [if_pos ht, h₁, h₂, h₃, h₄, ← hencode, hlen, ← Nat.add_assoc]
  · have hencode : r.encode = r.header := if_neg ht
    simp only [if_neg ht, hencode, hheader]

end LogManager
end DDBMS
