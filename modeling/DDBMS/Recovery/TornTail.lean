import DDBMS.Recovery.RedoExact

/-!
# `Recovery.TornTail` — a log file that ends in the middle of a record

A crash leaves a prefix of what was written. `Redo` stops only when its offset has passed the end of the file, and its
offset is where the last record that it handed to `RedoLog` ends (`reached`). So when the file ends in the middle of a
record, either a part of this record has been handed over too, or `Redo` does not return: it is never ignored.

What is behind the end of the file reads as zeros. When they happen to complete the record, it is applied with zeros for
what was lost (`Redo_padded`).
-/

namespace DDBMS
namespace RecoveryManager

open LogRecord (encode InRange)

/-- The records that are whole in the first `n` bytes. -/
def complete : Nat → List LogRecord → List LogRecord
  | _, [] => []
  | n, r :: rs => if r.encode.length ≤ n then r :: complete (n - r.encode.length) rs else []

/-- The LSN of the last record, `INVALID_LSN` when there is none. -/
def lastRecordLsn (rs : List LogRecord) : Int := (rs.getLast?.map LogRecord.lsn_).getD INVALID_LSN

/-- `Redo` has applied these records and nothing else. -/
structure Applies (rs : List LogRecord) (rm : RecoveryManager) : Prop where
  handed : rm.handed = calls LogRecord.stored 0 rs
  next_lsn : rm.next_lsn_ = lastRecordLsn rs + 1

/-- The file ends with the last of these records, `Redo` can read all of them, and the last one has the largest LSN. -/
structure EndsWhole (rs : List LogRecord) (file : Bytes) : Prop where
  whole : file = bytesOf rs
  recoverable : Recoverable rs
  types : ∀ r ∈ rs, r.log_type_ ≠ .PREPARED
  largest : INVALID_LSN ≤ lastRecordLsn rs ∧ ∀ r ∈ rs, r.lsn_ ≤ lastRecordLsn rs

/-! ## The whole records of a prefix -/

section Complete

variable {rs : List LogRecord} {file : Bytes}

theorem isPrefix_complete (n : Nat) (rs : List LogRecord) : complete n rs <+: rs := by
  induction rs generalizing n with
  | nil => exact List.nil_prefix
  | cons r rs ih =>
      rw [complete]
      split
      · exact (List.prefix_cons_inj r).mpr (ih _)
      · exact List.nil_prefix

/-- Behind the whole records there is a part of one that fits the buffer. -/
theorem complete_split (hrs : ∀ r ∈ rs, r.Readable) (hfile : file <+: bytesOf rs) :
    ∃ torn, file = bytesOf (complete file.length rs) ++ torn ∧ torn.length < LOG_BUFFER_SIZE := by
  induction rs generalizing file with
  | nil =>
      obtain rfl := List.prefix_nil.mp hfile
      exact ⟨[], rfl, by simp [LOG_BUFFER_SIZE_eq]⟩
  | cons r rs ih =>
      have hlt := (hrs r List.mem_cons_self).lt
      rw [bytesOf_cons] at hfile
      rw [complete]
      split
      · rename_i hle
        -- the record is whole, and the rest of the file is a prefix of the rest
        obtain ⟨rest, rfl⟩ := List.prefix_of_prefix_length_le (List.prefix_append _ _) hfile hle
        obtain ⟨torn, hrest, htorn⟩ := ih (fun s hs => hrs s (List.mem_cons_of_mem _ hs))
          ((List.prefix_append_right_inj _).mp hfile)
        rw [List.length_append, Nat.add_sub_cancel_left, bytesOf_cons]
        refine ⟨torn, ?_, htorn⟩
        rw [List.append_assoc, ← hrest]
      · exact ⟨file, rfl, by omega⟩

end Complete

/-! ## Where `Redo` has got to -/

/-- Where the record of the last call of `RedoLog` ends. -/
def reached (rm : RecoveryManager) : Int :=
  match rm.handed.getLast? with
  | some (_, some (pos, size)) => pos + size
  | _ => 0

/-- The next offset in the buffer, also when the size is not that of a record. -/
theorem next_inner {size inner : Nat} (hin : inner ≤ LOG_BUFFER_SIZE) (hfit : (size + inner) % 2 ^ 32 ≤ LOG_BUFFER_SIZE) :
    (((size + inner) % 2 ^ 32 : Nat) : Int) = inner + wrap32 size := by
  rw [LOG_BUFFER_SIZE_eq] at hin hfit
  rw [wrap32, Int.bmod_def]
  split <;> omega

section Reached

variable {rm rm' : RecoveryManager} {max_lsn max_lsn' offset : Int} {inner inner' fuel : Nat}

theorem reached_note (log : LogRecord) (pos : Int) (size : Nat) :
    (((rm.remember log.lsn_ pos size).note log).RedoLog log).reached = pos + wrap32 size := by
  have hlookup : (rm.lsn_mapping_.insert log.lsn_ (pos, wrap32 size)).lookup log.lsn_ = some (pos, wrap32 size) :=
    AList.lookup_insert _
  rw [reached, (RedoLog_frame _ _).2.2.2.1, note, remember]
  dsimp only
  rw [hlookup, List.getLast?_concat]

/-- **The inner loop** stands behind the last record that it has handed over. -/
theorem redoChunk_reached (h : redoChunk fuel rm max_lsn offset inner = some (rm', max_lsn', inner'))
    (hreached : rm.reached = offset + inner) (hin : inner ≤ LOG_BUFFER_SIZE) :
    rm'.reached = offset + inner' ∧ rm'.log_file = rm.log_file := by
  induction fuel generalizing rm max_lsn inner with
  | zero => cases h
  | succ fuel ih =>
      rw [redoChunk, Option.bind_eq_bind, Option.bind_eq_some_iff] at h
      obtain ⟨size, -, h⟩ := h
      split at h
      · cases h
        exact ⟨hreached, rfl⟩
      · rename_i hgo
        rw [Option.bind_eq_bind, Option.bind_eq_some_iff] at h
        obtain ⟨log, -, h⟩ := h
        rw [Option.bind_eq_bind, Option.bind_eq_some_iff] at h
        obtain ⟨pos, hpos, h⟩ := h
        obtain ⟨rfl, -⟩ := intAdd_eq hpos
        have hfit : (size + inner) % 2 ^ 32 ≤ LOG_BUFFER_SIZE := by
          by_contra hout
          exact hgo (Or.inr (not_le.mp hout))
        have hnext : (((rm.remember log.lsn_ (offset + inner) size).note log).RedoLog log).reached =
            offset + ((size + inner) % 2 ^ 32 : Nat) := by
          rw [reached_note, next_inner hin hfit, Int.add_assoc]
        obtain ⟨hend, hfile⟩ := ih h hnext hfit
        exact ⟨hend, hfile.trans (RedoLog_frame _ _).1⟩

/-- **The outer loop** ends behind the end of the file. -/
theorem redoFile_reached (h : redoFile fuel rm max_lsn offset = some (rm', max_lsn')) (hreached : rm.reached = offset)
    (hoff : InRange offset) : toSizeT (LogStorage.GetFileSize rm.log_file) ≤ toSizeT rm'.reached ∧ InRange rm'.reached := by
  induction fuel generalizing rm max_lsn offset with
  | zero => cases h
  | succ fuel ih =>
      rw [redoFile] at h
      by_cases hend : toSizeT (LogStorage.GetFileSize rm.log_file) ≤ toSizeT offset
      · rw [LogStorage.ReadLog, if_pos hend] at h
        cases h
        rw [hreached]
        exact ⟨hend, hoff⟩
      · rw [LogStorage.ReadLog, if_neg hend] at h
        dsimp only at h
        rw [Option.bind_eq_bind, Option.bind_eq_some_iff] at h
        obtain ⟨⟨rm₁, max_lsn₁, inner⟩, hchunk, h⟩ := h
        rw [Option.bind_eq_bind, Option.bind_eq_some_iff] at h
        obtain ⟨offset₁, hoffset, h⟩ := h
        obtain ⟨rfl, hrange⟩ := intAdd_eq hoffset
        have hstart : rm.reached = offset + (0 : Nat) := by rw [hreached, Nat.cast_zero, Int.add_zero]
        obtain ⟨hnext, hfile⟩ := redoChunk_reached hchunk hstart (Nat.zero_le _)
        dsimp only at hnext hfile h
        rw [← hfile]
        exact ih h hnext hrange

end Reached

/-! ## The torn tail -/

section Tail

variable {rm : RecoveryManager} {rs cs : List LogRecord} {file torn : Bytes}

/-- Records that were handed over once and in order: the manager stands behind them. -/
theorem reached_calls (hcalls : rm.handed = calls LogRecord.stored 0 rs) : rm.reached = (bytesOf rs).length := by
  unfold reached
  rw [hcalls]
  rcases List.eq_nil_or_concat rs with rfl | ⟨rs, r, rfl⟩
  · rfl
  · rw [List.concat_eq_append, calls_append, calls, calls, List.getLast?_concat, bytesOf_append, bytesOf_cons, bytesOf_nil,
      List.append_nil, List.length_append, Nat.zero_add]
    push_cast
    rfl

/-- **Nothing is torn** when `Redo` returns and has handed over the whole records only. -/
theorem torn_eq_nil {buffer : Vector UInt8 LOG_BUFFER_SIZE} {fuel : Nat}
    (hredo : Redo fuel (init (bytesOf cs ++ torn) buffer) = some rm) (hcalls : rm.handed = calls LogRecord.stored 0 cs)
    (htorn : torn.length < LOG_BUFFER_SIZE) : torn = [] ∧ (bytesOf cs).length < 2 ^ 31 := by
  rw [Redo, Option.bind_eq_bind, Option.bind_eq_some_iff] at hredo
  obtain ⟨⟨rm₁, max_lsn⟩, hfile, hredo⟩ := hredo
  rw [Option.bind_eq_bind, Option.bind_eq_some_iff] at hredo
  obtain ⟨next_lsn, -, hredo⟩ := hredo
  obtain rfl := Option.some.inj hredo
  obtain ⟨hend, hrange⟩ := redoFile_reached hfile rfl (by decide)
  have hplace : rm₁.reached = (bytesOf cs).length := reached_calls hcalls
  rw [hplace] at hend hrange
  have hcs : (bytesOf cs).length < 2 ^ 31 := by
    have := hrange.2
    omega
  refine ⟨?_, hcs⟩
  by_contra hne
  have hpos := List.length_pos_iff.mpr hne
  rw [LOG_BUFFER_SIZE_eq] at htorn
  have hlen : (bytesOf cs ++ torn).length = (bytesOf cs).length + torn.length := List.length_append
  exact LogStorage.not_atEnd (show (bytesOf cs).length < (bytesOf cs ++ torn).length by omega) (by omega) hcs hend

theorem lastRecordLsn_mem (h : rs ≠ []) : ∃ r ∈ rs, r.lsn_ = lastRecordLsn rs := by
  refine ⟨rs.getLast h, List.getLast_mem h, ?_⟩
  rw [lastRecordLsn, List.getLast?_eq_some_getLast h]
  rfl

theorem maxLsn_eq_last_iff : maxLsn INVALID_LSN rs = lastRecordLsn rs ↔
    INVALID_LSN ≤ lastRecordLsn rs ∧ ∀ r ∈ rs, r.lsn_ ≤ lastRecordLsn rs := by
  have hle : maxLsn INVALID_LSN rs ≤ lastRecordLsn rs ↔
      INVALID_LSN ≤ lastRecordLsn rs ∧ ∀ r ∈ rs, r.lsn_ ≤ lastRecordLsn rs := by
    simp only [← Int.lt_add_one_iff]
    exact maxLsn_lt_iff
  -- the last record is one of them
  have hge : lastRecordLsn rs ≤ maxLsn INVALID_LSN rs := by
    by_cases hrs : rs = []
    · subst hrs
      exact le_refl _
    · obtain ⟨r, hr, hlast⟩ := lastRecordLsn_mem hrs
      by_contra hlt
      have hmax := (maxLsn_lt_iff.mp (not_le.mp hlt)).2 r hr
      rw [hlast] at hmax
      exact lt_irrefl _ hmax
  rw [← hle]
  exact ⟨le_of_eq, fun h => le_antisymm h hge⟩

/-- What `Redo` of whole records applies. -/
theorem applies_afterRedo_iff (hrs : ∀ r ∈ rs, r.Readable) (b : Bytes) (buffer : Vector UInt8 LOG_BUFFER_SIZE) :
    Applies rs (afterRedo rs b buffer) ↔
      (∀ r ∈ rs, r.log_type_ ≠ .PREPARED) ∧ INVALID_LSN ≤ lastRecordLsn rs ∧ ∀ r ∈ rs, r.lsn_ ≤ lastRecordLsn rs := by
  have hhanded : (afterRedo rs b buffer).handed = calls LogRecord.readBack 0 rs := handAll_handed hrs
  have hnext : (afterRedo rs b buffer).next_lsn_ = maxLsn INVALID_LSN rs + 1 := rfl
  rw [← maxLsn_eq_last_iff, ← calls_eq_iff]
  constructor
  · rintro ⟨hcalls, hlsn⟩
    rw [hhanded] at hcalls
    rw [hnext] at hlsn
    exact ⟨hcalls, add_right_cancel hlsn⟩
  · rintro ⟨hcalls, hlsn⟩
    exact ⟨hhanded.trans hcalls, by rw [hnext, hlsn]⟩

end Tail

/-- **A torn tail is ignored** if and only if there is none: the file ends with its last whole record, and the rest of the
    condition is what `Redo` of these records needs. -/
theorem redo_ignores_tail_iff (rs : List LogRecord) (hrs : ∀ r ∈ rs, r.Readable) {file : Bytes}
    (hfile : file <+: bytesOf rs) (buffer : Vector UInt8 LOG_BUFFER_SIZE) {fuel : Nat} (hfuel : file.length + 1 < fuel) :
    (∃ rm, Redo fuel (init file buffer) = some rm ∧ Applies (complete file.length rs) rm) ↔
      EndsWhole (complete file.length rs) file := by
  obtain ⟨torn, hsplit, htorn⟩ := complete_split hrs hfile
  have hcs : ∀ r ∈ complete file.length rs, r.Readable :=
    fun r hr => hrs r ((isPrefix_complete file.length rs).subset hr)
  generalize complete file.length rs = cs at hsplit hcs
  have hrecords := length_le_bytesOf cs
  constructor
  · rintro ⟨rm, hredo, happlies⟩
    subst hsplit
    obtain ⟨rfl, hlen⟩ := torn_eq_nil hredo happlies.handed htorn
    rw [List.append_nil] at hredo hfuel
    rcases Redo_spec hcs (by omega) (show cs.length + 1 < fuel by omega) buffer with ⟨hnone, -⟩ | ⟨⟨b, -, hsome⟩, hgood⟩
    · rw [hnone] at hredo
      cases hredo
    · obtain rfl : afterRedo cs b buffer = rm := Option.some.inj (hsome.symm.trans hredo)
      obtain ⟨htypes, hlargest⟩ := (applies_afterRedo_iff hcs b buffer).mp happlies
      exact ⟨List.append_nil _, hgood, htypes, hlargest⟩
  · rintro ⟨rfl, hgood, htypes, hlargest⟩
    have hlen := hgood.length
    rcases Redo_spec hcs (by omega) (show cs.length + 1 < fuel by omega) buffer with ⟨-, hbad⟩ | ⟨⟨b, -, hsome⟩, -⟩
    · exact absurd hgood hbad
    · exact ⟨_, hsome, (applies_afterRedo_iff hcs b buffer).mpr ⟨htypes, hlargest⟩⟩

/-- The crash was between two records. -/
theorem redo_ignores_tail_iff_twoRecords : ∃ rm, Redo 90 (init ((bytesOf shortLog).take 58) (Vector.replicate _ 0)) = some rm ∧
    Applies (complete 58 shortLog) rm := by
  have hlen : ((bytesOf shortLog).take 58).length = 58 := by decide
  have hfile : (bytesOf shortLog).take 58 <+: bytesOf shortLog := List.take_prefix 58 _
  have hiff := redo_ignores_tail_iff shortLog shortLog_readable hfile (Vector.replicate _ 0)
    (show ((bytesOf shortLog).take 58).length + 1 < 90 by decide)
  rw [hlen] at hiff
  exact hiff.mpr ⟨by decide, ⟨by decide, by decide, by decide⟩, by decide, by decide, by decide⟩

/-! ## What is done with it -/

theorem take_zeros (file : Bytes) {n m l : Nat} (hm : n ≤ m) (hl : n ≤ l) :
    (file ++ List.replicate m 0).take n = (file ++ List.replicate l 0).take n := by
  rw [List.take_append, List.take_append, List.take_replicate, List.take_replicate, min_eq_left (by omega),
    min_eq_left (by omega)]

/-- A chunk that has all records and room for a probe behind them. -/
theorem redoChunk_all {rm : RecoveryManager} {rs : List LogRecord} {max_lsn : Int} {offset inner fuel : Nat}
    (hrs : ∀ r ∈ rs, r.Readable) (h : Shows rm.buffer_ inner (bytesOf rs)) (hfuel : rs.length < fuel)
    (hroom : inner + (bytesOf rs).length + 4 ≤ LOG_BUFFER_SIZE) (hlen : offset + inner + (bytesOf rs).length < 2 ^ 31) :
    redoChunk fuel rm max_lsn offset inner =
      some (handAll rm (offset + inner) rs, maxLsn max_lsn rs, inner + (bytesOf rs).length) := by
  induction rs generalizing rm max_lsn inner fuel with
  | nil =>
      obtain ⟨fuel, rfl⟩ : ∃ n, fuel = n + 1 := ⟨fuel - 1, by simp at hfuel; omega⟩
      exact redoChunk_end h hroom
  | cons r rs ih =>
      obtain ⟨fuel, rfl⟩ : ∃ n, fuel = n + 1 := ⟨fuel - 1, by simp at hfuel; omega⟩
      have hbytes : (bytesOf (r :: rs)).length = r.encode.length + (bytesOf rs).length := by
        rw [bytesOf_cons, List.length_append]
      rw [hbytes] at hroom hlen
      have hnext : Shows (rm.hand (offset + inner) r).buffer_ (inner + r.encode.length) (bytesOf rs) := by
        rw [hand_buffer]
        exact h.tail (by omega)
      rw [redoChunk_hand h (hrs r List.mem_cons_self).wellFormed (by omega) (by omega) (by omega),
        ih (fun s hs => hrs s (List.mem_cons_of_mem _ hs)) hnext (by simpa using hfuel) (by omega) (by omega), hbytes, handAll,
        Nat.add_assoc, Nat.add_assoc]
      rfl

/-- The zeros behind the end of the file may be those of the records. -/
theorem shows_padded {rs : List LogRecord} {file buffer : Bytes} {k : Nat} (hbuf : buffer.length = LOG_BUFFER_SIZE)
    (hzeros : bytesOf rs = file ++ List.replicate k 0) : Shows (chunkAt file buffer 0) 0 (bytesOf rs) := by
  have hshows : Shows (chunkAt file buffer 0) 0 file := shows_chunk hbuf List.drop_zero
  refine ⟨hshows.length, hshows.le, ?_⟩
  rw [hshows.eq, hzeros, List.append_assoc, List.replicate_append_replicate]
  exact take_zeros file (Nat.sub_le _ _) (by omega)

/-- **What the file has lost is taken for zeros**: when zeros complete the last record, it is applied with them. -/
theorem Redo_padded {rs : List LogRecord} {file : Bytes} {k fuel : Nat} (hrs : ∀ r ∈ rs, r.Readable)
    (hzeros : bytesOf rs = file ++ List.replicate k 0) (hfile : 0 < file.length)
    (hroom : (bytesOf rs).length + 4 ≤ LOG_BUFFER_SIZE) (hlsn : ∀ r ∈ rs, r.lsn_ < 2 ^ 31 - 1) (hfuel : rs.length + 1 < fuel)
    (buffer : Vector UInt8 LOG_BUFFER_SIZE) : ∃ b, Redo fuel (init file buffer) =
      some { (handAll (init file buffer) 0 rs).withBuffer b with next_lsn_ := maxLsn INVALID_LSN rs + 1 } := by
  obtain ⟨fuel, rfl⟩ : ∃ n, fuel = n + 1 + 1 := ⟨fuel - 2, by omega⟩
  have hsize := LOG_BUFFER_SIZE_eq
  have hle : file.length ≤ (bytesOf rs).length := by
    rw [hzeros, List.length_append]
    exact Nat.le_add_right _ _
  have hshows : Shows (chunkAt file (init file buffer).buffer_ 0) 0 (bytesOf rs) :=
    shows_padded Vector.length_toList hzeros
  refine ⟨chunkAt file (init file buffer).buffer_ 0, ?_⟩
  rw [← handAll_withBuffer]
  generalize hrm : (init file buffer).withBuffer (chunkAt file (init file buffer).buffer_ 0) = rm
  have hend : (handAll rm 0 rs).log_file.length ≤ (bytesOf rs).length := by
    rw [handAll_log_file, ← hrm]
    exact hle
  have hchunk : redoChunk (fuel + 1) rm INVALID_LSN (0 : Nat) 0 =
      some (handAll rm (0 + 0) rs, maxLsn INVALID_LSN rs, 0 + (bytesOf rs).length) :=
    redoChunk_all hrs (by rw [← hrm]; exact hshows) (by omega) (by omega) (by omega)
  have hloop : redoFile (fuel + 1 + 1) (init file buffer) INVALID_LSN (0 : Nat) =
      some (handAll rm 0 rs, maxLsn INVALID_LSN rs) := by
    rw [redoFile_step hfile (show file.length < 2 ^ 32 by omega) (by omega)]
    show (redoChunk (fuel + 1) ((init file buffer).withBuffer (chunkAt file (init file buffer).buffer_ 0)) _ _ _).bind _ = _
    rw [hrm, hchunk, Option.bind_some]
    dsimp only
    -- the next offset is behind the end of the file
    rw [Nat.zero_add, intAdd_of_lt (by omega), Option.bind_some, Nat.zero_add, redoFile_end (by omega) (by omega)]
  rw [Redo, show (0 : Int) = ((0 : Nat) : Int) from rfl, hloop, Option.bind_eq_bind, Option.bind_some]
  dsimp only
  rw [intAdd_maxLsn hlsn]
  rfl

/-- A log whose last record has lost its last byte. -/
def tornInsert : Bytes := (bytesOf shortLog).take 57

/-- What `Redo` reads instead. -/
def zeroedLog : List LogRecord :=
  [(LogRecord.ofTxn 1 INVALID_LSN .BEGIN).SetLsn 0, (LogRecord.ofStrings 1 0 .INSERT [97] [0]).SetLsn 1]

/-- The `INSERT` is applied with a zero for the byte that is lost. -/
theorem torn_insert_applied :
    (∃ rm, Redo 90 (init tornInsert (Vector.replicate _ 0)) = some rm ∧ rm.kv_ [97] = some [0] ∧ rm.next_lsn_ = 2) ∧
    ¬ ∀ (rs : List LogRecord) (file : Bytes) (buffer : Vector UInt8 LOG_BUFFER_SIZE), (∀ r ∈ rs, r.Readable) →
      file <+: bytesOf rs → ∃ fuel rm, Redo fuel (init file buffer) = some rm ∧ Applies (complete file.length rs) rm := by
  constructor
  · have hrs : ∀ r ∈ zeroedLog, r.Readable := by
      intro r hr
      simp only [zeroedLog, List.mem_cons, List.not_mem_nil, or_false] at hr
      rcases hr with rfl | rfl
      · exact ⟨.txn _ _ _ _ (by decide), by decide, by decide, by decide⟩
      · exact ⟨.tuple _ _ _ _ _ _ (by decide), by decide, by decide, by decide⟩
    have hzeros : bytesOf zeroedLog = tornInsert ++ List.replicate 1 0 := by decide
    obtain ⟨b, hredo⟩ := Redo_padded hrs hzeros (by decide) (by decide) (by decide) (show zeroedLog.length + 1 < 90 by decide)
      (Vector.replicate _ 0)
    exact ⟨_, hredo, rfl, rfl⟩
  · intro hall
    have hfile : tornInsert <+: bytesOf shortLog := List.take_prefix 57 _
    obtain ⟨fuel, rm, hredo, happlies⟩ := hall shortLog tornInsert (Vector.replicate _ 0) shortLog_readable hfile
    have hsplit : tornInsert = bytesOf (complete tornInsert.length shortLog) ++ tornInsert.drop 24 := by decide
    rw [hsplit] at hredo
    have htorn := (torn_eq_nil hredo happlies.handed (by decide)).1
    revert htorn
    decide

end RecoveryManager
end DDBMS
