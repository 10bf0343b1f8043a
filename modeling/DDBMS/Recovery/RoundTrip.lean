import DDBMS.Recovery.LogManagerOrder

/-!
# `Recovery.RoundTrip` — log records are read back as they were appended

`AppendLogRecord` writes a record into the log buffer, `DeserializeFrom` reads one. The two switch on the type
separately, and the reader has no case for `PREPARED`: every other record comes back with all its fields, and a
`PREPARED` one never does.
-/

namespace DDBMS

open LogRecord (encode InRange DeserializeFrom)

/-- The accessors of two records return the same. -/
structure LogRecord.Same (r s : LogRecord) : Prop where
  size : r.size_ = s.size_
  lsn : r.lsn_ = s.lsn_
  txn_id : r.txn_id_ = s.txn_id_
  prev_lsn : r.prev_lsn_ = s.prev_lsn_
  log_type : r.log_type_ = s.log_type_
  key : r.key = s.key
  value : r.value = s.value

theorem LogRecord.stored_same (r : LogRecord) : r.stored.Same r := by
  have hkey : r.stored.key = r.key := by
    show (r.key_.take r.key_size_.toNat).take r.key_size_.toNat = r.key_.take r.key_size_.toNat
    rw [List.take_take, min_self]
  have hvalue : r.stored.value = r.value := by
    show (r.value_.take r.value_size_.toNat).take r.value_size_.toNat = r.value_.take r.value_size_.toNat
    rw [List.take_take, min_self]
  exact ⟨rfl, rfl, rfl, rfl, rfl, hkey, hvalue⟩

/-- What is read back is the record, unless that is a `PREPARED` one. -/
theorem LogRecord.readBack_same_iff (r : LogRecord) : r.readBack.Same r ↔ r.log_type_ ≠ .PREPARED := by
  constructor
  · intro h hp
    have htype := h.log_type
    rw [readBack, if_pos hp] at htype
    have hinvalid : LogRecordType.INVALID = .PREPARED := htype.trans hp
    cases hinvalid
  · intro hne
    rw [readBack_of_ne hne]
    exact r.stored_same

namespace LogManager

/-- The bytes that `AppendLogRecord` writes. -/
def written (m : LogManager) (r : LogRecord) : Bytes :=
  ((m.append r).1.log_buffer_.drop m.log_buffer_write_offset_).take
    ((m.append r).1.log_buffer_write_offset_ - m.log_buffer_write_offset_)

theorem written_eq {m : LogManager} {r : LogRecord} (hbuf : m.log_buffer_.length = LOG_BUFFER_SIZE)
    (hfit : m.log_buffer_write_offset_ + r.encode.length < LOG_BUFFER_SIZE) :
    m.written r = (r.SetLsn m.next_lsn_).encode := by
  have hset := r.length_encode_setLsn m.next_lsn_
  have htake := @take_memcpy m.log_buffer_ (r.SetLsn m.next_lsn_).encode m.log_buffer_write_offset_ (by omega)
  unfold written
  rw [append_eq hbuf hfit]
  dsimp only
  rw [← List.drop_take, ← hset, htake]
  apply List.drop_left'
  rw [List.length_take]
  omega

section Append

variable {m : LogManager} {r : LogRecord}

/-- A record that the manager does not make wait for fits the buffer. -/
theorem fits_of_not_full (hr : r.Constructed) (hlen : r.encode.length < LOG_BUFFER_SIZE)
    (hoff : m.log_buffer_write_offset_ < LOG_BUFFER_SIZE) :
    ¬ m.Full r ↔ m.log_buffer_write_offset_ + r.encode.length < LOG_BUFFER_SIZE := by
  have hlen' := hlen
  rw [LOG_BUFFER_SIZE_eq] at hlen'
  exact not_full_iff (hr.sized (by omega)) hoff

/-- What is read of the bytes that were written. -/
theorem deserialize_written (hr : r.Constructed) (hprev : InRange r.prev_lsn_) (hnext : InRange m.next_lsn_)
    (hbuf : m.log_buffer_.length = LOG_BUFFER_SIZE)
    (hfit : m.log_buffer_write_offset_ + r.encode.length < LOG_BUFFER_SIZE) (c : Bytes) :
    DeserializeFrom (m.written r ++ c) = some (m.append r).2.readBack := by
  rw [written_eq hbuf hfit, append_eq hbuf hfit]
  exact (hr.setLsn m.next_lsn_).deserialize hnext hprev c

/-- **Log records round-trip** if and only if they are not `PREPARED`; `c` is what stands behind them. -/
theorem append_deserialize_iff (hr : r.Constructed) (hprev : InRange r.prev_lsn_)
    (hlen : r.encode.length < LOG_BUFFER_SIZE) (hnext : InRange m.next_lsn_)
    (hbuf : m.log_buffer_.length = LOG_BUFFER_SIZE) (hoff : m.log_buffer_write_offset_ < LOG_BUFFER_SIZE)
    (hfull : ¬ m.Full r) (c : Bytes) :
    (∃ s, DeserializeFrom (m.written r ++ c) = some s ∧ s.Same (m.append r).2) ↔ r.log_type_ ≠ .PREPARED := by
  have hfit := (fits_of_not_full hr hlen hoff).mp hfull
  have htype : (m.append r).2.log_type_ = r.log_type_ := by
    rw [append_eq hbuf hfit]
    rfl
  rw [deserialize_written hr hprev hnext hbuf hfit c, ← htype]
  constructor
  · rintro ⟨s, hs, h⟩
    obtain rfl := Option.some.inj hs
    exact (LogRecord.readBack_same_iff _).mp h
  · intro hne
    exact ⟨_, rfl, (LogRecord.readBack_same_iff _).mpr hne⟩

end Append

/-- A log manager with empty buffers. -/
def emptyLog : LogManager where
  log_buffer_ := List.replicate LOG_BUFFER_SIZE 0
  flush_buffer_ := List.replicate LOG_BUFFER_SIZE 0

theorem length_emptyLog : emptyLog.log_buffer_.length = LOG_BUFFER_SIZE := by
  rw [emptyLog, List.length_replicate]

theorem emptyLog_offset : emptyLog.log_buffer_write_offset_ < LOG_BUFFER_SIZE := by
  show 0 < LOG_BUFFER_SIZE
  simp [LOG_BUFFER_SIZE_eq]

theorem emptyLog_not_full {r : LogRecord} (hr : r.Constructed) (hlen : r.encode.length < LOG_BUFFER_SIZE) :
    ¬ emptyLog.Full r := by
  apply (fits_of_not_full hr hlen emptyLog_offset).mpr
  rw [emptyLog, Nat.zero_add]
  exact hlen

/-- A key with a NUL in it, and no value. -/
theorem append_deserialize_iff_nul :
    ∃ s, DeserializeFrom (emptyLog.written (.ofStrings 7 3 .DELETE [97, 0] []) ++ []) = some s ∧
      s.Same (emptyLog.append (.ofStrings 7 3 .DELETE [97, 0] [])).2 := by
  have hr : (LogRecord.ofStrings 7 3 .DELETE [97, 0] []).Constructed := LogRecord.constructed_ofStrings (Or.inr rfl)
  have hlen : (LogRecord.ofStrings 7 3 .DELETE [97, 0] []).encode.length < LOG_BUFFER_SIZE := by decide
  apply (append_deserialize_iff hr ?_ hlen ?_ length_emptyLog emptyLog_offset (emptyLog_not_full hr hlen) []).mpr
  · decide
  · exact ⟨by decide, by decide⟩
  · exact ⟨by decide, by decide⟩

/-- A `PREPARED` record comes back as a record of no transaction and no type. -/
theorem prepared_lost : ¬ ∀ (m : LogManager) (r : LogRecord) (c : Bytes), r.Constructed → InRange r.prev_lsn_ →
    r.encode.length < LOG_BUFFER_SIZE → InRange m.next_lsn_ → m.log_buffer_.length = LOG_BUFFER_SIZE →
    m.log_buffer_write_offset_ < LOG_BUFFER_SIZE → ¬ m.Full r →
    ∃ s, DeserializeFrom (m.written r ++ c) = some s ∧ s.Same (m.append r).2 := by
  intro hall
  have hr : (LogRecord.ofTxn 7 3 .PREPARED).Constructed := .txn 7 3 .PREPARED INVALID_LSN (by decide)
  have hlen : (LogRecord.ofTxn 7 3 .PREPARED).encode.length < LOG_BUFFER_SIZE := by decide
  have hprev : InRange (LogRecord.ofTxn 7 3 .PREPARED).prev_lsn_ := ⟨by decide, by decide⟩
  have hnext : InRange emptyLog.next_lsn_ := ⟨by decide, by decide⟩
  have hfull := emptyLog_not_full hr hlen
  have hfit := (fits_of_not_full hr hlen emptyLog_offset).mp hfull
  obtain ⟨s, hs, hsame⟩ := hall emptyLog _ [] hr hprev hlen hnext length_emptyLog emptyLog_offset hfull
  rw [deserialize_written hr hprev hnext length_emptyLog hfit] at hs
  obtain rfl := Option.some.inj hs
  apply (LogRecord.readBack_same_iff _).mp hsame
  rw [append_eq length_emptyLog hfit]
  rfl

end LogManager
end DDBMS
