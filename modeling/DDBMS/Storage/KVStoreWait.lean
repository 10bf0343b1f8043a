import DDBMS.Storage.KVStoreLogged

/-!
# `Storage.KVStoreWait` — which appends of the store can be served

A thread in `AppendLogRecord` waits until its record fits the log buffer. All that the flush thread can do for it is to empty
the buffer, which it can do from every state. `put` and `del` limit neither the key nor the value, so a record may be too
large for the empty buffer too, and then the thread waits for ever (`waits_forever`).

`size_` is an `int32_t`: from `2 ^ 31` bytes on it is negative, and such a record passes the test when it is small enough in
absolute value to lead back into the buffer.
-/

namespace DDBMS

namespace LogManager

/-- The copies of `AppendLogRecord` stay inside the log buffer. -/
def InBounds (w : World) : Event → Prop
  | .append _ r => ¬ w.mgr.Full r → w.mgr.log_buffer_write_offset_ + r.encode.length ≤ LOG_BUFFER_SIZE
  | .wake t => ∀ r, w.waiting t = some r → ¬ w.mgr.Full r →
      w.mgr.log_buffer_write_offset_ + r.encode.length ≤ LOG_BUFFER_SIZE
  | .swap | .write | .store | .reset => True

/-- Steps of the flush thread lead to a state in which the record need not wait. -/
def CanServe (w : World) (r : LogRecord) : Prop :=
  ∃ es w', Run (Guarded (fun _ e => e.Flushes) (FunStep next)) w es w' ∧ ¬ w'.mgr.Full r

/-- The record does not fit the empty buffer. -/
def FullEmpty (r : LogRecord) : Prop := LOG_BUFFER_SIZE ≤ (r.size_ % 2 ^ 64).toNat

variable {w w' : World} {r : LogRecord} {t : Nat} {e : Event}

/-! ## The buffer -/

/-- The buffers are whole, and the write offset is in them. -/
structure Buffers (m : LogManager) : Prop where
  log_buffer : m.log_buffer_.length = LOG_BUFFER_SIZE
  flush_buffer : m.flush_buffer_.length = LOG_BUFFER_SIZE
  offset : m.log_buffer_write_offset_ ≤ LOG_BUFFER_SIZE

theorem buffers_init (a b : Vector UInt8 LOG_BUFFER_SIZE) : Buffers (World.init a b).mgr :=
  ⟨Vector.length_toList, Vector.length_toList, Nat.zero_le _⟩

theorem Buffers.append {m : LogManager} (h : Buffers m)
    (hin : m.log_buffer_write_offset_ + r.encode.length ≤ LOG_BUFFER_SIZE) : Buffers (m.append r).1 := by
  have hset := r.length_encode_setLsn m.next_lsn_
  have hcopy : copyRecord m.log_buffer_ m.log_buffer_write_offset_ (r.SetLsn m.next_lsn_) = _ :=
    copyRecord_eq (by rw [hset, h.log_buffer]; exact hin)
  simp only [LogManager.append, hcopy, hset]
  refine ⟨?_, h.flush_buffer, hin⟩
  rw [length_memcpy (by rw [hset, h.log_buffer]; exact hin)]
  exact h.log_buffer

/-- **Step lemma.** -/
theorem buffers_step (h : Buffers w.mgr) (hst : Guarded InBounds (FunStep next) w e w') : Buffers w'.mgr := by
  obtain ⟨hin, hst⟩ := hst
  cases next_cases hst with
  | wait => exact ⟨h.log_buffer, h.flush_buffer, h.offset⟩
  | append _ hroom => exact h.append (hin hroom)
  | sleep | empty => exact h
  | wake hwaiting hroom => exact h.append (hin _ hwaiting hroom)
  | swap => exact ⟨h.flush_buffer, h.log_buffer, Nat.zero_le _⟩
  | write | store | reset => exact ⟨h.log_buffer, h.flush_buffer, h.offset⟩

/-! ## What the flush thread can do -/

/-- It empties the log buffer, or leaves it as it is. -/
theorem flush_offset {es : List Event} (hrun : Run (Guarded (fun _ e => e.Flushes) (FunStep next)) w es w') :
    w'.mgr.log_buffer_write_offset_ = 0 ∨ w'.mgr.log_buffer_write_offset_ = w.mgr.log_buffer_write_offset_ := by
  generalize hoff : w.mgr.log_buffer_write_offset_ = offset
  refine hrun.invariant (I := fun v => v.mgr.log_buffer_write_offset_ = 0 ∨ v.mgr.log_buffer_write_offset_ = offset) ?_
    (Or.inr hoff)
  rintro v e v' h ⟨hflush, hst⟩
  cases next_cases hst with
  | wait | append | sleep | wake => exact hflush.elim
  | swap => exact Or.inl rfl
  | empty | write | store | reset => exact h

theorem full_of_empty (hoff : w.mgr.log_buffer_write_offset_ = 0) : w.mgr.Full r ↔ FullEmpty r := by
  rw [Full, hoff, Nat.cast_zero, Int.zero_add, FullEmpty]

/-- **Waiting helps** only a record that fits the empty buffer. -/
theorem canServe_iff : CanServe w r ↔ ¬ w.mgr.Full r ∨ ¬ FullEmpty r := by
  constructor
  · rintro ⟨es, w', hrun, hroom⟩
    rcases flush_offset hrun with hoff | hoff
    · exact Or.inr fun hfull => hroom ((full_of_empty hoff).mpr hfull)
    · left
      rwa [Full, ← hoff]
  · rintro (hroom | hroom)
    · exact ⟨[], w, .refl, hroom⟩
    · obtain ⟨es, w', hrun, hoff⟩ := drains w
      exact ⟨es, w', hrun, fun hfull => hroom ((full_of_empty hoff).mp hfull)⟩

/-- A call that finds no room waits. -/
theorem append_waits (hst : next w (.append t r) = some w') (hfull : w.mgr.Full r) : w'.waiting t = some r := by
  cases next_cases hst with
  | wait => exact @if_pos (t = t) _ rfl _ (some r) (w.waiting t)
  | append _ hroom => exact absurd hfull hroom

/-- The log buffer never has room for the record. -/
def NeverRoom (r : LogRecord) : Prop := ∀ m : LogManager, m.log_buffer_write_offset_ ≤ LOG_BUFFER_SIZE → m.Full r

/-- **A record for which there is never room** is waited for in every later state. -/
theorem waits_forever {es : List Event} (hrun : Run (Guarded InBounds (FunStep next)) w es w') (hbuf : Buffers w.mgr)
    (hwaiting : w.waiting t = some r) (hfull : NeverRoom r) : w'.waiting t = some r := by
  suffices h : Buffers w'.mgr ∧ w'.waiting t = some r from h.2
  refine hrun.invariant (I := fun v => Buffers v.mgr ∧ v.waiting t = some r) ?_ ⟨hbuf, hwaiting⟩
  rintro v e v' ⟨hbuf, hwaiting⟩ hst
  refine ⟨buffers_step hbuf hst, ?_⟩
  by_cases hwake : e = .wake t
  · subst hwake
    cases next_cases hst.2 with
    | sleep => exact hwaiting
    | wake hwaiting' hroom =>
        obtain rfl := Option.some.inj (hwaiting.symm.trans hwaiting')
        exact absurd (hfull _ hbuf.offset) hroom
  · refine (next_waiting hst.2 (fun r' happ => ?_) hwake).trans hwaiting
    -- a thread that waits calls nothing
    subst happ
    rw [(append_cases hst.2).1] at hwaiting
    cases hwaiting

end LogManager

namespace KVStore

open LogManager (InBounds CanServe FullEmpty Buffers NeverRoom flush_offset)

/-- The records that `put` and `del` hand to `AppendLogRecord` for a key and a value. -/
inductive Hands (key value : Bytes) : LogRecord → Prop
  | put (txn : Transaction) : Hands key value (putRecord txn key value)
  | del (txn : Transaction) (inMem : Bool) (stale : Nat → UInt8) : Hands key value (delRecord txn key value inMem stale)

/-- The size of such a record, as a `uint32_t`. -/
def sizeMod (key value : Bytes) : Nat := (LogRecord.HEADER_SIZE + 4 + key.length + 4 + value.length) % 2 ^ 32

variable {key value : Bytes} {r : LogRecord}

theorem size_ofStrings (txn_id : txn_id_t) (prev_lsn : Int) (type : LogRecordType) (key value : Bytes) :
    (LogRecord.ofStrings txn_id prev_lsn type key value).size_ = wrap32 (sizeMod key value) := by
  rw [LogRecord.ofStrings, LogRecord.ofTuple, UInt32.toNat_ofNat', UInt32.toNat_ofNat', sizeMod, wrap32, wrap32]
  dsimp only
  rw [← Int.emod_bmod, ← Int.emod_bmod ((_ : Nat) : Int)]
  congr 1
  omega

theorem Hands.size_eq (h : Hands key value r) : r.size_ = wrap32 (sizeMod key value) := by
  cases h with
  | put txn => exact size_ofStrings _ _ _ _ _
  | del txn inMem stale =>
      rw [delRecord, size_ofStrings]
      have hlen : (if inMem = true then (List.range value.length).map stale else value).length = value.length := by
        split
        · rw [List.length_map, List.length_range]
        · rfl
      rw [sizeMod, hlen, sizeMod]

/-- The test of `AppendLogRecord`, for an offset in the buffer. -/
theorem Hands.full_iff (h : Hands key value r) {m : LogManager} (hoff : m.log_buffer_write_offset_ ≤ LOG_BUFFER_SIZE) :
    ¬ m.Full r ↔ (sizeMod key value < 2 ^ 31 ∧ m.log_buffer_write_offset_ + sizeMod key value < LOG_BUFFER_SIZE) ∨
      2 ^ 32 ≤ sizeMod key value + m.log_buffer_write_offset_ := by
  have hlt : sizeMod key value < 2 ^ 32 := Nat.mod_lt _ (Nat.two_pow_pos 32)
  rw [LOG_BUFFER_SIZE_eq] at hoff
  rw [LogManager.Full, h.size_eq, LOG_BUFFER_SIZE_eq, wrap32, Int.bmod_def]
  split <;> omega

theorem Hands.fullEmpty_iff (h : Hands key value r) : ¬ FullEmpty r ↔ sizeMod key value < LOG_BUFFER_SIZE := by
  have hlt : sizeMod key value < 2 ^ 32 := Nat.mod_lt _ (Nat.two_pow_pos 32)
  rw [FullEmpty, h.size_eq, LOG_BUFFER_SIZE_eq, wrap32, Int.bmod_def]
  split <;> omega

/-- **A pending append can be served** if and only if its record fits the empty buffer, or is so large that its `int32_t`
    size leads back into the buffer. -/
theorem append_served_iff {a b : Vector UInt8 LOG_BUFFER_SIZE} {es : List LogManager.Event} {w : LogManager.World}
    (hrun : Run (Guarded InBounds (FunStep LogManager.next)) (LogManager.World.init a b) es w) {key value : Bytes}
    {r : LogRecord} (hr : Hands key value r) : CanServe w r ↔
      sizeMod key value < LOG_BUFFER_SIZE ∨ 2 ^ 32 ≤ sizeMod key value + w.mgr.log_buffer_write_offset_ := by
  have hbuf : Buffers w.mgr := hrun.invariant (I := fun v => Buffers v.mgr)
    (fun _ _ _ h hst => LogManager.buffers_step h hst) (LogManager.buffers_init a b)
  have hsize := LOG_BUFFER_SIZE_eq
  rw [LogManager.canServe_iff, hr.full_iff hbuf.offset, hr.fullEmpty_iff]
  omega

/-- A value that leaves 23 bytes of the log buffer. -/
def nearlyWhole : Bytes := List.replicate 45000 0

/-- A `put` of it, and a `put` of one byte by another thread. -/
def fillAndPut : List LogManager.Event :=
  [.append 0 (putRecord { txn_id_ := 1 } [97] nearlyWhole), .append 1 (putRecord { txn_id_ := 2 } [98] [49])]

theorem length_nearlyWhole : (putRecord { txn_id_ := 1 } [97] nearlyWhole).encode.length = 45033 := by
  have hvalue : nearlyWhole.length = 45000 := List.length_replicate
  rw [length_putRecord _ (by rw [hvalue]; decide), hvalue]
  rfl

/-- The second `put` has to wait, and it can be served. -/
theorem append_served_iff_nearlyWhole :
    ∃ w, Run (Guarded InBounds (FunStep LogManager.next)) (LogManager.World.init LogManager.zeros LogManager.zeros) fillAndPut w ∧
      w.waiting 1 = some (putRecord { txn_id_ := 2 } [98] [49]) ∧ CanServe w (putRecord { txn_id_ := 2 } [98] [49]) := by
  have hlen := length_nearlyWhole
  have hsize := LOG_BUFFER_SIZE_eq
  have hsized : (putRecord { txn_id_ := 1 } [97] nearlyWhole).Sized :=
    (putRecord_sized _ (by rw [nearlyWhole, List.length_replicate]; decide)).1
  obtain ⟨w₁, happend, hquiet⟩ : ∃ w₁, LogManager.next (LogManager.World.init LogManager.zeros LogManager.zeros)
      (.append 0 (putRecord { txn_id_ := 1 } [97] nearlyWhole)) = some w₁ ∧ LogManager.Quiet w₁ 45033 := by
    obtain ⟨happend, hquiet⟩ := LogManager.next_append (t := 0) (LogManager.inv_init LogManager.zeros LogManager.zeros)
      (LogManager.quiet_init LogManager.zeros LogManager.zeros) hsized (by omega)
    rw [hlen] at hquiet
    exact ⟨_, happend, hquiet⟩
  have hoff := hquiet.offset_eq
  have hput : Hands [98] [49] (putRecord { txn_id_ := 2 } [98] [49]) := .put _
  have hmod : sizeMod [98] [49] = 34 := rfl
  -- 45033 bytes are taken, and 34 are asked for
  have hfull : w₁.mgr.Full (putRecord { txn_id_ := 2 } [98] [49]) := by
    by_contra hroom
    have hcases := (hput.full_iff (by omega)).mp hroom
    omega
  obtain ⟨w, hwait⟩ : ∃ w, LogManager.next w₁ (.append 1 (putRecord { txn_id_ := 2 } [98] [49])) = some w := by
    simp only [LogManager.next, hquiet.waiting, ne_eq, not_true_eq_false, if_false, if_pos hfull]
    exact ⟨_, rfl⟩
  have hin : InBounds (LogManager.World.init LogManager.zeros LogManager.zeros)
      (.append 0 (putRecord { txn_id_ := 1 } [97] nearlyWhole)) := by
    intro _
    rw [show (LogManager.World.init LogManager.zeros LogManager.zeros).mgr.log_buffer_write_offset_ = 0 from rfl, hlen, hsize]
    omega
  have hrun : Run (Guarded InBounds (FunStep LogManager.next)) (LogManager.World.init LogManager.zeros LogManager.zeros)
      fillAndPut w := Run.cons ⟨hin, happend⟩ (Run.single ⟨fun hroom => absurd hfull hroom, hwait⟩)
  exact ⟨w, hrun, LogManager.append_waits hwait hfull, (append_served_iff hrun hput).mpr (Or.inl (by rw [hmod, hsize]; decide))⟩

/-- A value that takes the whole log buffer. -/
def wholeValue : Bytes := List.replicate 45023 0

theorem wholeValue_neverRoom : NeverRoom (putRecord { txn_id_ := 1 } [97] wholeValue) := by
  intro m hoff
  have hmod : sizeMod [97] wholeValue = 45056 := by
    rw [sizeMod, wholeValue, List.length_replicate]
    rfl
  have hsize := LOG_BUFFER_SIZE_eq
  by_contra hroom
  have hcases := ((Hands.put _).full_iff hoff).mp hroom
  omega

/-- The first `put` of a new log waits for ever. -/
theorem put_never_served :
    (∀ es w, Run (Guarded InBounds (FunStep LogManager.next))
      (LogManager.World.init (Vector.replicate _ 0) (Vector.replicate _ 0))
      (.append 0 (putRecord { txn_id_ := 1 } [97] wholeValue) :: es) w →
      w.waiting 0 = some (putRecord { txn_id_ := 1 } [97] wholeValue)) ∧
    ¬ ∀ (a b : Vector UInt8 LOG_BUFFER_SIZE) (es : List LogManager.Event) (w : LogManager.World) (key value : Bytes)
        (r : LogRecord), Run (Guarded InBounds (FunStep LogManager.next)) (LogManager.World.init a b) es w →
      Hands key value r → CanServe w r := by
  have hbuf := LogManager.buffers_init (Vector.replicate _ 0) (Vector.replicate _ 0)
  constructor
  · intro es w hrun
    obtain ⟨w₁, hst, hrest⟩ := hrun.cons_inv
    exact LogManager.waits_forever hrest (LogManager.buffers_step hbuf hst)
      (LogManager.append_waits hst.2 (wholeValue_neverRoom _ hbuf.offset)) wholeValue_neverRoom
  · intro hall
    obtain ⟨es, w, hrun, hroom⟩ := hall (Vector.replicate _ 0) (Vector.replicate _ 0) [] _ _ _ _ .refl
      (.put { txn_id_ := 1 } : Hands [97] wholeValue _)
    apply hroom
    apply wholeValue_neverRoom
    rcases flush_offset hrun with hoff | hoff
    · rw [hoff]
      exact Nat.zero_le _
    · rw [hoff]
      exact hbuf.offset

end KVStore
end DDBMS
