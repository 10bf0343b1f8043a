import DDBMS.Recovery.LogManager

/-!
# `Recovery.LogManagerOrder` — the log loses, duplicates and reorders nothing

The records appended so far are cut into three pieces: those in the file, those in the flush buffer while a write is in
flight, and those in the log buffer. `Pieces` says so, and what the flush thread holds: the LSN it will publish is the
one of the last record of the second piece. An append extends the third piece, a swap turns the third into the
second, and a write appends the second to the first.

An LSN is the position of its record, wrapped to `int32_t`. Up to `2 ^ 31` records it is the position itself.
-/

namespace DDBMS
namespace LogManager

open LogRecord (encode)

/-- The bytes of the flush buffer while a write is in flight. -/
def World.inFlight (w : World) : Bytes :=
  match w.flushThread with
  | .writing _ => w.mgr.flush_buffer_.take w.mgr.flush_buffer_write_offset_
  | _ => []

/-- The file, the bytes in flight and the filled part of the log buffer. -/
def World.logged (w : World) : Bytes :=
  w.mgr.log_file ++ (w.inFlight ++ w.mgr.log_buffer_.take w.mgr.log_buffer_write_offset_)

/-- What the flush thread knows of the records in the file and in flight. -/
def FlushThread.Knows (done flying : Nat) : FlushThread → Prop
  | .writing lsn => lsn = wrap32 (done + flying - 1)
  | .written lsn => flying = 0 ∧ lsn = wrap32 (done - 1)
  | .idle | .stored => flying = 0

/-- The three pieces of the log. -/
structure Pieces (w : World) (done flying buffered : List LogRecord) : Prop where
  appended : w.appended = done ++ (flying ++ buffered)
  file : w.mgr.log_file = done.flatMap encode
  inFlight : w.inFlight = flying.flatMap encode
  buffered : w.mgr.log_buffer_.take w.mgr.log_buffer_write_offset_ = buffered.flatMap encode
  knows : w.flushThread.Knows done.length flying.length
  persistent : ∃ p ≤ done.length, w.mgr.persistent_lsn_ = wrap32 ((p : Int) - 1)

/-- The invariant of the log. -/
structure Inv (w : World) : Prop where
  log_buffer : w.mgr.log_buffer_.length = LOG_BUFFER_SIZE
  flush_buffer : w.mgr.flush_buffer_.length = LOG_BUFFER_SIZE
  offset : w.mgr.log_buffer_write_offset_ < LOG_BUFFER_SIZE
  flush_offset : w.mgr.flush_buffer_write_offset_ < LOG_BUFFER_SIZE
  waiting : ∀ t r, w.waiting t = some r → r.Sized
  next_lsn : w.mgr.next_lsn_ = wrap32 w.appended.length
  lsns : w.appended.map LogRecord.lsn_ = (List.range w.appended.length).map fun k : Nat => wrap32 k
  pieces : ∃ done flying buffered, Pieces w done flying buffered

/-- Only records that know their size are appended. -/
def SizedRecords (_ : World) : Event → Prop
  | .append _ r => r.Sized
  | _ => True

theorem inv_init (a b : Vector UInt8 LOG_BUFFER_SIZE) : Inv (World.init a b) := by
  have hpos : 0 < LOG_BUFFER_SIZE := by simp [LOG_BUFFER_SIZE_eq]
  refine ⟨Vector.length_toList, Vector.length_toList, hpos, hpos, ?_, ?_, ?_, [], [], [], ?_⟩
  · intro t r h
    cases h
  · exact (@wrap32_of_lt 0 (by decide) (by decide)).symm
  · rfl
  · exact ⟨rfl, rfl, rfl, List.take_zero, rfl, 0, le_refl _, rfl⟩

/-! ## Appending -/

/-- A record fits if it ends inside the buffer. -/
theorem not_full_iff {m : LogManager} {r : LogRecord} (hr : r.Sized)
    (hoff : m.log_buffer_write_offset_ < LOG_BUFFER_SIZE) :
    ¬ m.Full r ↔ m.log_buffer_write_offset_ + r.encode.length < LOG_BUFFER_SIZE := by
  have hlt := hr.lt
  have hsize := LOG_BUFFER_SIZE_eq
  unfold Full
  rw [hr.size_eq, Int.emod_eq_of_lt (by omega) (by omega)]
  omega

/-- What `append` does when the record fits. -/
theorem append_eq {m : LogManager} {r : LogRecord} (hlen : m.log_buffer_.length = LOG_BUFFER_SIZE)
    (hfit : m.log_buffer_write_offset_ + r.encode.length < LOG_BUFFER_SIZE) :
    m.append r = ({ m with
      next_lsn_ := wrap32 (m.next_lsn_ + 1)
      log_buffer_ := memcpy m.log_buffer_ m.log_buffer_write_offset_ (r.SetLsn m.next_lsn_).encode
      log_buffer_write_offset_ := m.log_buffer_write_offset_ + r.encode.length }, r.SetLsn m.next_lsn_) := by
  have hset := r.length_encode_setLsn m.next_lsn_
  simp only [append, copyRecord_eq (show m.log_buffer_write_offset_ + (r.SetLsn m.next_lsn_).encode.length ≤
    m.log_buffer_.length by omega), hset]

section AppendNow

variable {w : World} {t : Nat} {r : LogRecord}

theorem appendNow_mgr : (w.appendNow t r).mgr = (w.mgr.append r).1 := rfl

theorem appendNow_next_lsn : (w.appendNow t r).mgr.next_lsn_ = wrap32 (w.mgr.next_lsn_ + 1) := rfl

theorem appendNow_appended : (w.appendNow t r).appended = w.appended ++ [r.SetLsn w.mgr.next_lsn_] := rfl

theorem appendNow_waiting (u : Nat) : (w.appendNow t r).waiting u = if u = t then none else w.waiting u := rfl

end AppendNow

theorem Inv.appendNow {w : World} {t : Nat} {r : LogRecord} (h : Inv w) (hr : r.Sized) (hfull : ¬ w.mgr.Full r) :
    Inv (w.appendNow t r) := by
  have hfit := (not_full_iff hr h.offset).mp hfull
  have hset := r.length_encode_setLsn w.mgr.next_lsn_
  have hmgr := (appendNow_mgr (w := w) (t := t) (r := r)).trans (congrArg Prod.fst (append_eq h.log_buffer hfit))
  obtain ⟨done, flying, buffered, hp⟩ := h.pieces
  constructor
  · rw [hmgr, length_memcpy (by rw [h.log_buffer]; omega)]
    exact h.log_buffer
  · rw [hmgr]
    exact h.flush_buffer
  · rw [hmgr]
    exact hfit
  · rw [hmgr]
    exact h.flush_offset
  · intro u s hs
    -- the appending thread does not wait any more
    rw [appendNow_waiting] at hs
    split at hs
    · cases hs
    · exact h.waiting u s hs
  · rw [appendNow_next_lsn, appendNow_appended, List.length_append, h.next_lsn,
      wrap32_add, List.length_singleton, Nat.cast_add, Nat.cast_one]
  · rw [appendNow_appended, List.map_append, h.lsns, List.length_append, List.length_singleton,
      List.range_succ, List.map_append, List.map_singleton, List.map_singleton, ← h.next_lsn]
    rfl
  · refine ⟨done, flying, buffered ++ [r.SetLsn w.mgr.next_lsn_], ?_⟩
    constructor
    · rw [appendNow_appended, hp.appended, List.append_assoc, List.append_assoc]
    · rw [hmgr]
      exact hp.file
    · unfold World.inFlight
      rw [hmgr]
      exact hp.inFlight
    · rw [hmgr]
      show (memcpy _ _ _).take _ = _
      rw [← hset, take_memcpy (by rw [h.log_buffer]; exact Nat.le_of_lt h.offset), hp.buffered,
        List.flatMap_append, List.flatMap_singleton]
    · exact hp.knows
    · rw [hmgr]
      exact hp.persistent

/-! ## The flush thread -/

theorem Inv.swap {w : World} (h : Inv w) (hidle : w.flushThread = .idle) :
    Inv { w with
      mgr := { w.mgr.SwapBuffer with flush_lsn_ := wrap32 (w.mgr.next_lsn_ - 1) }
      flushThread := .writing (wrap32 (w.mgr.next_lsn_ - 1)) } := by
  obtain ⟨done, flying, buffered, hp⟩ := h.pieces
  have hknows := hp.knows
  rw [hidle] at hknows
  -- nothing is in flight yet
  obtain rfl : flying = [] := List.length_eq_zero_iff.mp hknows
  constructor
  · exact h.flush_buffer
  · exact h.log_buffer
  · show 0 < LOG_BUFFER_SIZE
    simp [LOG_BUFFER_SIZE_eq]
  · exact h.offset
  · exact h.waiting
  · exact h.next_lsn
  · exact h.lsns
  · refine ⟨done, buffered, [], ?_⟩
    constructor
    · show w.appended = _
      rw [hp.appended, List.append_nil, List.nil_append]
    · exact hp.file
    · exact hp.buffered
    · exact List.take_zero
    · show wrap32 (w.mgr.next_lsn_ - 1) = _
      have happ := congrArg List.length hp.appended
      rw [List.nil_append, List.length_append] at happ
      rw [h.next_lsn, sub_eq_add_neg, wrap32_add, happ]
      push_cast
      rfl
    · exact hp.persistent

theorem Inv.write {w : World} {lsn : Int} (h : Inv w) (hwriting : w.flushThread = .writing lsn) :
    Inv { w with
      mgr := { w.mgr with
        log_file := LogStorage.WriteLog w.mgr.log_file w.mgr.flush_buffer_ w.mgr.flush_buffer_write_offset_ }
      flushThread := .written lsn } := by
  obtain ⟨done, flying, buffered, hp⟩ := h.pieces
  have hknows := hp.knows
  have hflying := hp.inFlight
  rw [hwriting] at hknows
  simp only [World.inFlight, hwriting] at hflying
  refine ⟨h.log_buffer, h.flush_buffer, h.offset, h.flush_offset, h.waiting, h.next_lsn, h.lsns, ?_⟩
  refine ⟨done ++ flying, [], buffered, ?_⟩
  constructor
  · show w.appended = _
    rw [hp.appended, List.nil_append, List.append_assoc]
  · show LogStorage.WriteLog _ _ _ = _
    rw [List.flatMap_append, ← hp.file, ← hflying, LogStorage.WriteLog]
    split
    · rename_i hzero
      rw [hzero, List.take_zero, List.append_nil]
    · rfl
  · rfl
  · exact hp.buffered
  · refine ⟨rfl, ?_⟩
    rw [List.length_append]
    push_cast
    exact hknows
  · obtain ⟨p, hle, heq⟩ := hp.persistent
    refine ⟨p, ?_, heq⟩
    rw [List.length_append]
    omega

theorem Inv.store {w : World} {lsn : Int} (h : Inv w) (hwritten : w.flushThread = .written lsn) :
    Inv { w with mgr := { w.mgr with persistent_lsn_ := lsn }, flushThread := .stored } := by
  obtain ⟨done, flying, buffered, hp⟩ := h.pieces
  have hknows := hp.knows
  have hflying := hp.inFlight
  rw [hwritten] at hknows
  simp only [World.inFlight, hwritten] at hflying
  refine ⟨h.log_buffer, h.flush_buffer, h.offset, h.flush_offset, h.waiting, h.next_lsn, h.lsns, ?_⟩
  exact ⟨done, flying, buffered, hp.appended, hp.file, hflying, hp.buffered, hknows.1, done.length, le_refl _,
    hknows.2⟩

theorem Inv.reset {w : World} (h : Inv w) (hstored : w.flushThread = .stored) :
    Inv { w with mgr := { w.mgr with needFlush_ := false }, flushThread := .idle } := by
  obtain ⟨done, flying, buffered, hp⟩ := h.pieces
  have hknows := hp.knows
  have hflying := hp.inFlight
  rw [hstored] at hknows
  simp only [World.inFlight, hstored] at hflying
  refine ⟨h.log_buffer, h.flush_buffer, h.offset, h.flush_offset, h.waiting, h.next_lsn, h.lsns, ?_⟩
  exact ⟨done, flying, buffered, hp.appended, hp.file, hflying, hp.buffered, hknows, hp.persistent⟩

/-- A thread starts to wait. -/
theorem Inv.wait {w : World} {t : Nat} {r : LogRecord} (h : Inv w) (hr : r.Sized) :
    Inv { w.setWaiting t (some r) with mgr := { w.mgr with needFlush_ := true } } := by
  obtain ⟨done, flying, buffered, hp⟩ := h.pieces
  refine ⟨h.log_buffer, h.flush_buffer, h.offset, h.flush_offset, ?_, h.next_lsn, h.lsns, ?_⟩
  · intro u s hs
    change (if u = t then some r else w.waiting u) = some s at hs
    split at hs
    · obtain rfl := Option.some.inj hs
      exact hr
    · exact h.waiting u s hs
  · exact ⟨done, flying, buffered, hp.appended, hp.file, hp.inFlight, hp.buffered, hp.knows, hp.persistent⟩

/-! ## What a step does -/

/-- The branches of a step, with what each has found. -/
inductive Steps (w : World) : Event → World → Prop where
  /-- there is no room for the record -/
  | wait {t : Nat} {r : LogRecord} (hnone : w.waiting t = none) : Steps w (.append t r)
      { w.setWaiting t (some r) with mgr := { w.mgr with needFlush_ := true } }
  | append {t : Nat} {r : LogRecord} (hnone : w.waiting t = none) (hroom : ¬ w.mgr.Full r) :
      Steps w (.append t r) (w.appendNow t r)
  /-- there is still no room -/
  | sleep {t : Nat} {r : LogRecord} (hwaiting : w.waiting t = some r) : Steps w (.wake t) w
  | wake {t : Nat} {r : LogRecord} (hwaiting : w.waiting t = some r) (hroom : ¬ w.mgr.Full r) :
      Steps w (.wake t) (w.appendNow t r)
  | swap (hidle : w.flushThread = .idle) : Steps w .swap { w with
      mgr := { w.mgr.SwapBuffer with flush_lsn_ := wrap32 (w.mgr.next_lsn_ - 1) }
      flushThread := .writing (wrap32 (w.mgr.next_lsn_ - 1)) }
  /-- nothing to flush -/
  | empty : Steps w .swap w
  | write {lsn : Int} (hwriting : w.flushThread = .writing lsn) : Steps w .write { w with
      mgr := { w.mgr with
        log_file := LogStorage.WriteLog w.mgr.log_file w.mgr.flush_buffer_ w.mgr.flush_buffer_write_offset_ }
      flushThread := .written lsn }
  | store {lsn : Int} (hwritten : w.flushThread = .written lsn) :
      Steps w .store { w with mgr := { w.mgr with persistent_lsn_ := lsn }, flushThread := .stored }
  | reset (hstored : w.flushThread = .stored) :
      Steps w .reset { w with mgr := { w.mgr with needFlush_ := false }, flushThread := .idle }

theorem next_cases {w w' : World} {e : Event} (h : next w e = some w') : Steps w e w' := by
  cases e with
  | append t r =>
      simp only [next] at h
      split at h
      · cases h
      · rename_i hnone
        split at h
        · obtain rfl := Option.some.inj h
          exact .wait (not_not.mp hnone)
        · rename_i hroom
          obtain rfl := Option.some.inj h
          exact .append (not_not.mp hnone) hroom
  | wake t =>
      simp only [next] at h
      split at h
      · cases h
      · rename_i r hwaiting
        split at h
        · obtain rfl := Option.some.inj h
          exact .sleep hwaiting
        · rename_i hroom
          obtain rfl := Option.some.inj h
          exact .wake hwaiting hroom
  | swap =>
      simp only [next] at h
      split at h
      · cases h
      · rename_i hidle
        split at h
        · obtain rfl := Option.some.inj h
          exact .swap (not_not.mp hidle)
        · obtain rfl := Option.some.inj h
          exact .empty
  | write =>
      simp only [next] at h
      split at h
      · rename_i hwriting
        obtain rfl := Option.some.inj h
        exact .write hwriting
      · cases h
  | store =>
      simp only [next] at h
      split at h
      · rename_i hwritten
        obtain rfl := Option.some.inj h
        exact .store hwritten
      · cases h
  | reset =>
      simp only [next] at h
      split at h
      · rename_i hstored
        obtain rfl := Option.some.inj h
        exact .reset hstored
      · cases h

/-! ## Steps and runs -/

/-- **Step lemma.** -/
theorem inv_step {w w' : World} {e : Event} (h : Inv w) (hst : Guarded SizedRecords (FunStep next) w e w') :
    Inv w' := by
  obtain ⟨hok, hst⟩ := hst
  cases next_cases hst with
  | wait => exact h.wait hok
  | append _ hroom => exact h.appendNow hok hroom
  | sleep | empty => exact h
  | @wake t r hwaiting hroom => exact h.appendNow (h.waiting t r hwaiting) hroom
  | swap hidle => exact h.swap hidle
  | write hwriting => exact h.write hwriting
  | store hwritten => exact h.store hwritten
  | reset hstored => exact h.reset hstored

/-- **Run lemma.** -/
theorem inv_run {a b : Vector UInt8 LOG_BUFFER_SIZE} {es : List Event} {w : World}
    (h : Run (Guarded SizedRecords (FunStep next)) (World.init a b) es w) : Inv w :=
  h.invariant (fun _ _ _ hI hst => inv_step hI hst) (inv_init a b)

/-! ## What the invariant says -/

/-- The bytes of the log are the encodings of the appended records, in the order they were appended, and the
    log buffer has not overflowed. -/
structure World.Exact (w : World) : Prop where
  logged : w.logged = w.appended.flatMap encode
  offset : w.mgr.log_buffer_write_offset_ < LOG_BUFFER_SIZE

/-- The LSNs count up from 0 without a gap. -/
def World.InOrder (w : World) : Prop :=
  w.appended.map LogRecord.lsn_ = (List.range w.appended.length).map fun k : Nat => (k : Int)

/-- The records are built by a constructor, and their encoding is smaller than the buffer. -/
def FittingRecords (_ : World) : Event → Prop
  | .append _ r => r.Constructed ∧ r.encode.length < LOG_BUFFER_SIZE
  | _ => True

theorem fitting_sized {w w' : World} {e : Event} (h : Guarded FittingRecords (FunStep next) w e w') :
    Guarded SizedRecords (FunStep next) w e w' := by
  refine ⟨?_, h.2⟩
  cases e with
  | append t r =>
      obtain ⟨hc, hlt⟩ := h.1
      rw [LOG_BUFFER_SIZE_eq] at hlt
      exact hc.sized (by omega)
  | wake | swap | write | store | reset => trivial

theorem Inv.exact {w : World} (h : Inv w) : w.Exact := by
  obtain ⟨done, flying, buffered, hp⟩ := h.pieces
  refine ⟨?_, h.offset⟩
  rw [World.logged, hp.file, hp.inFlight, hp.buffered, hp.appended, List.flatMap_append, List.flatMap_append]

theorem Inv.inOrder {w : World} (h : Inv w) (hlen : w.appended.length ≤ 2 ^ 31) : w.InOrder := by
  rw [World.InOrder, h.lsns]
  apply List.map_congr_left
  intro k hk
  rw [List.mem_range] at hk
  apply wrap32_of_lt <;> omega

/-! ## Building runs -/

/-- No thread is in a call, and the log buffer holds `offset` bytes. -/
structure Quiet (w : World) (offset : Nat) : Prop where
  idle : w.flushThread = .idle
  waiting : w.waiting = fun _ => none
  offset_eq : w.mgr.log_buffer_write_offset_ = offset

/-- A record that fits is appended at once. -/
theorem next_append {w : World} {offset t : Nat} {r : LogRecord} (hI : Inv w) (h : Quiet w offset) (hr : r.Sized)
    (hfit : offset + r.encode.length < LOG_BUFFER_SIZE) :
    next w (.append t r) = some (w.appendNow t r) ∧ Quiet (w.appendNow t r) (offset + r.encode.length) := by
  have hoff : w.mgr.log_buffer_write_offset_ + r.encode.length < LOG_BUFFER_SIZE := by rwa [h.offset_eq]
  constructor
  · simp only [next, h.waiting, ne_eq, not_true_eq_false, if_false, if_neg ((not_full_iff hr hI.offset).mpr hoff)]
  · refine ⟨h.idle, ?_, ?_⟩
    · funext u
      rw [appendNow_waiting, h.waiting]
      split <;> rfl
    · rw [appendNow_mgr, append_eq hI.log_buffer hoff, ← h.offset_eq]

/-- The flush thread has swapped the buffers. -/
def World.swapped (w : World) : World :=
  { w with
    mgr := { w.mgr.SwapBuffer with flush_lsn_ := wrap32 (w.mgr.next_lsn_ - 1) }
    flushThread := .writing (wrap32 (w.mgr.next_lsn_ - 1)) }

theorem next_swap {w : World} {offset : Nat} (h : Quiet w offset) (hpos : 0 < offset) : next w .swap = some w.swapped := by
  simp only [next, h.idle, ne_eq, not_true_eq_false, if_false, h.offset_eq, if_pos hpos]
  rfl

/-- A record goes into the buffer that is left, while the other one is written. -/
theorem next_append_swapped {w : World} {offset t : Nat} {r : LogRecord} (hI : Inv w.swapped) (h : Quiet w offset) (hr : r.Sized)
    (hfit : r.encode.length < LOG_BUFFER_SIZE) : next w.swapped (.append t r) = some (w.swapped.appendNow t r) := by
  have hroom : ¬ w.swapped.mgr.Full r := by
    rw [not_full_iff hr hI.offset]
    simpa [World.swapped, SwapBuffer] using hfit
  simp only [next, if_neg hroom]
  exact if_neg (not_not.mpr (congrFun h.waiting t))

/-- A flush, from the swap to the end. -/
theorem flush_steps {w : World} {offset : Nat} (h : Quiet w offset) (hpos : 0 < offset) :
    ∃ w₁ w₂ w₃ w₄, next w .swap = some w₁ ∧ next w₁ .write = some w₂ ∧ next w₂ .store = some w₃ ∧
      next w₃ .reset = some w₄ ∧ Quiet w₄ 0 ∧ w₄.appended = w.appended ∧
      w₄.mgr.next_lsn_ = w.mgr.next_lsn_ ∧ w₄.mgr.persistent_lsn_ = wrap32 (w.mgr.next_lsn_ - 1) :=
  ⟨_, _, _, _, next_swap h hpos, rfl, rfl, rfl, ⟨rfl, h.waiting, rfl⟩, rfl, rfl, rfl⟩

/-- A small record. -/
def beginRecord : LogRecord := LogRecord.ofTxn 1 INVALID_LSN .BEGIN

theorem length_beginRecord : beginRecord.encode.length = 24 := by
  rw [LogRecord.length_encode]
  rfl

theorem beginRecord_fitting (w : World) (t : Nat) : FittingRecords w (.append t beginRecord) := by
  constructor
  · exact LogRecord.Constructed.txn 1 INVALID_LSN .BEGIN INVALID_LSN (Or.inl rfl)
  · rw [length_beginRecord, LOG_BUFFER_SIZE_eq]
    decide

theorem beginRecord_sized : beginRecord.Sized :=
  ⟨by rw [length_beginRecord]; rfl, by rw [length_beginRecord]; decide⟩

/-- One record is appended and flushed. -/
def appendAndFlush : List Event := [.append 0 beginRecord, .swap, .write, .store, .reset]

theorem run_appendAndFlush {w : World} (hI : Inv w) (h : Quiet w 0) :
    ∃ w', Run (Guarded FittingRecords (FunStep next)) w appendAndFlush w' ∧ Quiet w' 0 ∧
      w'.appended.length = w.appended.length + 1 := by
  have hfit : 0 + beginRecord.encode.length < LOG_BUFFER_SIZE := by
    rw [length_beginRecord, LOG_BUFFER_SIZE_eq]
    decide
  obtain ⟨happend, hq⟩ := next_append (t := 0) hI h beginRecord_sized hfit
  obtain ⟨w₁, w₂, w₃, w₄, h₁, h₂, h₃, h₄, hq₄, happ, -⟩ := flush_steps hq (by rw [length_beginRecord]; decide)
  refine ⟨w₄, ?_, hq₄, ?_⟩
  · exact Run.cons ⟨beginRecord_fitting w 0, happend⟩ (Run.cons ⟨trivial, h₁⟩ (Run.cons ⟨trivial, h₂⟩
      (Run.cons ⟨trivial, h₃⟩ (Run.single ⟨trivial, h₄⟩))))
  · rw [happ, appendNow_appended, List.length_append, List.length_singleton]

theorem quiet_init (a b : Vector UInt8 LOG_BUFFER_SIZE) : Quiet (World.init a b) 0 := ⟨rfl, rfl, rfl⟩

/-- Any number of records can be appended and flushed. -/
theorem run_rounds (a b : Vector UInt8 LOG_BUFFER_SIZE) (n : Nat) :
    ∃ w, Run (Guarded FittingRecords (FunStep next)) (World.init a b) (List.replicate n appendAndFlush).flatten w ∧
      Quiet w 0 ∧ w.appended.length = n := by
  induction n with
  | zero => exact ⟨_, Run.refl, quiet_init a b, rfl⟩
  | succ n ih =>
      obtain ⟨w, hrun, hq, hlen⟩ := ih
      have hI := inv_run (hrun.mono (fun _ _ _ => fitting_sized))
      obtain ⟨w', hrun', hq', hlen'⟩ := run_appendAndFlush hI hq
      refine ⟨w', ?_, hq', by rw [hlen', hlen]⟩
      rw [List.replicate_succ', List.flatten_append, List.flatten_singleton]
      exact hrun.append hrun'

/-- Two unused buffers. -/
def zeros : Vector UInt8 LOG_BUFFER_SIZE := Vector.replicate LOG_BUFFER_SIZE 0

/-! ## The log is exact -/

/-- **The log loses, duplicates and reorders nothing**, for any number of appending threads, in any interleaving with
    the flush thread. The LSNs are in order up to the `2 ^ 31` records an `int32_t` can number. -/
theorem log_exact {a b : Vector UInt8 LOG_BUFFER_SIZE} {es : List Event} {w : World}
    (h : Run (Guarded FittingRecords (FunStep next)) (World.init a b) es w) :
    w.Exact ∧ (w.appended.length ≤ 2 ^ 31 → w.InOrder) := by
  have hI := inv_run (h.mono (fun _ _ _ => fitting_sized))
  exact ⟨hI.exact, hI.inOrder⟩

/-- Two threads append, the flush thread takes their records out, and a third thread appends. -/
def threeThreads : List Event := [.append 0 beginRecord, .append 1 beginRecord, .swap, .append 2 beginRecord]

/-- While the first two records are being written. -/
theorem log_exact_threeThreads :
    ∃ w, Run (Guarded FittingRecords (FunStep next)) (World.init zeros zeros) threeThreads w ∧
      w.flushThread = .writing 1 ∧ w.appended.length = 3 ∧ w.Exact ∧ w.InOrder := by
  have hlen := length_beginRecord
  have hsize := LOG_BUFFER_SIZE_eq
  have hI := inv_init zeros zeros
  obtain ⟨h₁, hq₁⟩ := next_append (t := 0) hI (quiet_init zeros zeros) beginRecord_sized (by omega)
  have hI₁ := inv_step hI (fitting_sized ⟨beginRecord_fitting _ 0, h₁⟩)
  obtain ⟨h₂, hq₂⟩ := next_append (t := 1) hI₁ hq₁ beginRecord_sized (by omega)
  have hI₂ := inv_step hI₁ (fitting_sized ⟨beginRecord_fitting _ 1, h₂⟩)
  have h₃ : Guarded FittingRecords (FunStep next) _ .swap (World.swapped _) := ⟨trivial, next_swap hq₂ (by omega)⟩
  have hI₃ := inv_step hI₂ (fitting_sized h₃)
  have h₄ := next_append_swapped (t := 2) hI₃ hq₂ beginRecord_sized (by omega)
  have hrun : Run (Guarded FittingRecords (FunStep next)) (World.init zeros zeros) threeThreads _ :=
    Run.cons ⟨beginRecord_fitting _ 0, h₁⟩ (Run.cons ⟨beginRecord_fitting _ 1, h₂⟩ (Run.cons h₃
      (Run.single ⟨beginRecord_fitting _ 2, h₄⟩)))
  obtain ⟨hexact, horder⟩ := log_exact hrun
  exact ⟨_, hrun, rfl, rfl, hexact, horder (by decide)⟩

/-- `2 ^ 31 + 1` records, the last two without a flush between them. -/
def manyRecords : List Event :=
  (List.replicate (2 ^ 31 - 1) appendAndFlush).flatten ++ [.append 0 beginRecord, .append 0 beginRecord]

/-- **LSNs wrap**: record number `2 ^ 31 + 1` gets the LSN `-2 ^ 31`. -/
theorem lsn_wraps :
    ∃ w, Run (Guarded FittingRecords (FunStep next)) (World.init zeros zeros) manyRecords w ∧ ¬ w.InOrder := by
  obtain ⟨w, hrun, hq, hlen⟩ := run_rounds zeros zeros (2 ^ 31 - 1)
  have hI := inv_run (hrun.mono (fun _ _ _ => fitting_sized))
  obtain ⟨h₁, hq₁⟩ := next_append (t := 0) hI hq beginRecord_sized
    (by rw [length_beginRecord, LOG_BUFFER_SIZE_eq]; decide)
  have hstep₁ : Guarded FittingRecords (FunStep next) w (.append 0 beginRecord) (w.appendNow 0 beginRecord) :=
    ⟨beginRecord_fitting w 0, h₁⟩
  have hI₁ := inv_step hI (fitting_sized hstep₁)
  generalize hu : w.appendNow 0 beginRecord = u at hstep₁ hI₁ hq₁
  obtain ⟨h₂, -⟩ := next_append (t := 0) hI₁ hq₁ beginRecord_sized
    (by rw [length_beginRecord, LOG_BUFFER_SIZE_eq]; decide)
  have hlen₁ : u.appended.length = 2 ^ 31 := by
    rw [← hu, appendNow_appended, List.length_append, List.length_singleton, hlen]
    decide
  refine ⟨_, hrun.append (Run.cons hstep₁ (Run.single ⟨beginRecord_fitting u 0, h₂⟩)), ?_⟩
  intro horder
  -- the last LSN
  have hlast := congrArg List.getLast? horder
  rw [appendNow_appended, List.map_append, List.map_singleton, List.getLast?_concat, List.length_append,
    List.length_singleton, List.range_succ, List.map_append, List.map_singleton, List.getLast?_concat, hlen₁] at hlast
  have hlsn : u.mgr.next_lsn_ = ((2 ^ 31 : Nat) : Int) := Option.some.inj hlast
  rw [hI₁.next_lsn, hlen₁] at hlsn
  exact absurd hlsn (by decide)

end LogManager
end DDBMS
