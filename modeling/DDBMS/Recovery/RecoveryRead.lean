import DDBMS.Recovery.RecoveryManager

/-!
# `Recovery.RecoveryRead` — `Redo` reads the log file

A log file is the encodings of some records, one behind the other. `Redo` reads it in chunks of `LOG_BUFFER_SIZE` bytes
and hands the records of each chunk to `RedoLog`; the one that the end of the chunk cuts starts the next chunk.

The loops are followed exactly: either they hand over every record once and in order (`handAll`), or they fail, and then
the file is too long for an `int` or a probe leaves the buffer. `Inside` says which files the second does not happen to.
-/

namespace DDBMS

open LogRecord (encode InRange)

/-! ## The file -/

namespace LogStorage

variable {log_file log_data : Bytes} {offset : Nat}

/-- There is more of the file. -/
theorem not_atEnd (h : offset < log_file.length) (hlen : log_file.length < 2 ^ 32) (hoff : offset < 2 ^ 31) :
    ¬ toSizeT (GetFileSize log_file) ≤ toSizeT offset := by
  unfold toSizeT GetFileSize
  by_cases hsmall : log_file.length < 2 ^ 31
  · rw [wrap32_of_lt (by omega) (by omega)]
    omega
  · -- the size is negative, and huge as a `size_t`
    have hwrap : wrap32 log_file.length = log_file.length - 2 ^ 32 := by
      have hsub := Int.sub_bmod_right (log_file.length : Int) (2 ^ 32)
      rw [wrap32, ← hsub]
      exact wrap32_of_lt (by omega) (by omega)
    rw [hwrap]
    omega

theorem atEnd (h : log_file.length ≤ offset) (hoff : offset < 2 ^ 31) :
    toSizeT (GetFileSize log_file) ≤ toSizeT offset := by
  rw [GetFileSize, wrap32_of_lt (by omega) (by omega)]
  unfold toSizeT
  omega

/-- What is read: the file from the offset on, then zeros. -/
theorem ReadLog_eq (size : Nat) (h : ¬ toSizeT (GetFileSize log_file) ≤ toSizeT offset) :
    ReadLog log_file log_data size offset =
      some (memcpy log_data 0 ((log_file.drop offset ++ List.replicate size 0).take size)) := by
  rw [ReadLog, if_neg h, List.take_append, List.take_replicate]
  simp only [Int.toNat_natCast, List.length_take]
  congr 4
  omega

theorem ReadLog_end (size : Int) (h : toSizeT (GetFileSize log_file) ≤ toSizeT offset) :
    ReadLog log_file log_data size offset = none := if_pos h

end LogStorage

/-- A copy over the whole array. -/
theorem memcpy_all {dst src : Bytes} (h : src.length = dst.length) : memcpy dst 0 src = src := by
  rw [memcpy, List.take_zero, List.nil_append, Nat.zero_add, h, List.drop_length, List.append_nil]

/-- A copy to the start of the array. -/
theorem memcpy_start (dst src : Bytes) : memcpy dst 0 src = src ++ dst.drop src.length := by
  rw [memcpy, List.take_zero, List.nil_append, Nat.zero_add]

theorem intAdd_of_lt {m n : Nat} (h : m + n < 2 ^ 31) : intAdd m n = some ((m + n : Nat) : Int) := by
  rw [intAdd, if_pos ⟨by omega, by omega⟩]
  rfl

theorem intAdd_eq {m n k : Int} (h : intAdd m n = some k) : k = m + n ∧ InRange k := by
  unfold intAdd at h
  split at h
  · rename_i hrange
    obtain rfl := Option.some.inj h
    exact ⟨rfl, hrange⟩
  · cases h

theorem intAdd_overflow {m n : Nat} (h : ¬ m + n < 2 ^ 31) : intAdd m n = none := by
  rw [intAdd, if_neg]
  rintro ⟨-, hlt⟩
  omega

/-! ## The records -/

namespace LogRecord

/-- A record of any size: its integers are `int32_t`s. -/
structure WellFormed (r : LogRecord) : Prop where
  constructed : r.Constructed
  lsn : InRange r.lsn_
  prev_lsn : InRange r.prev_lsn_
  lt : r.encode.length < 2 ^ 31

/-- A record that the log manager can have written: its integers are `int32_t`s, and it fits the buffer. -/
structure Readable (r : LogRecord) : Prop where
  constructed : r.Constructed
  lsn : InRange r.lsn_
  prev_lsn : InRange r.prev_lsn_
  lt : r.encode.length < LOG_BUFFER_SIZE

variable {r : LogRecord}

theorem Readable.wellFormed (h : r.Readable) : r.WellFormed := by
  have hlt := h.lt
  rw [LOG_BUFFER_SIZE_eq] at hlt
  exact ⟨h.constructed, h.lsn, h.prev_lsn, by omega⟩

theorem WellFormed.deserialize (h : r.WellFormed) (c : Bytes) : DeserializeFrom (r.encode ++ c) = some r.readBack :=
  h.constructed.deserialize h.lsn h.prev_lsn c

theorem WellFormed.size_eq (h : r.WellFormed) : r.size_ = r.encode.length := (h.constructed.sized h.lt).size_eq

/-- The first word of a record is its size. -/
theorem WellFormed.read_size (h : r.WellFormed) (c : Bytes) : readAt 4 (r.encode ++ c) 0 = some r.encode.length := by
  have hlt := h.lt
  rw [LogRecord.read_size, h.size_eq]
  congr 1
  omega

theorem readBack_lsn (r : LogRecord) : r.readBack.lsn_ = r.lsn_ := by
  unfold readBack
  split <;> rfl

end LogRecord

namespace RecoveryManager

/-- The bytes of some records, one behind the other. -/
def bytesOf (rs : List LogRecord) : Bytes := rs.flatMap encode

def sizesOf (rs : List LogRecord) : List Nat := rs.map fun r => r.encode.length

theorem bytesOf_cons (r : LogRecord) (rs : List LogRecord) : bytesOf (r :: rs) = r.encode ++ bytesOf rs :=
  List.flatMap_cons

theorem bytesOf_append (rs qs : List LogRecord) : bytesOf (rs ++ qs) = bytesOf rs ++ bytesOf qs :=
  List.flatMap_append

theorem bytesOf_nil : bytesOf [] = [] := rfl

theorem length_le_bytesOf (rs : List LogRecord) : rs.length ≤ (bytesOf rs).length := by
  induction rs with
  | nil => exact le_refl _
  | cons r rs ih =>
      have := r.header_le_encode
      have : LogRecord.HEADER_SIZE = 24 := rfl
      rw [bytesOf_cons, List.length_append, List.length_cons]
      omega

/-- `Redo` does not probe outside the buffer: `inner` is where the first record starts in the buffer, the list are the
    sizes of the records. -/
def Inside : Nat → List Nat → Prop
  | inner, [] => inner + 4 ≤ LOG_BUFFER_SIZE
  | inner, n :: ns =>
    inner + 4 ≤ LOG_BUFFER_SIZE ∧ Inside (if inner + n ≤ LOG_BUFFER_SIZE then inner + n else n) ns

instance insideDecidable : (inner : Nat) → (ns : List Nat) → Decidable (Inside inner ns)
  | inner, [] => inferInstanceAs (Decidable (inner + 4 ≤ LOG_BUFFER_SIZE))
  | inner, n :: ns =>
    have := insideDecidable (if inner + n ≤ LOG_BUFFER_SIZE then inner + n else n) ns
    inferInstanceAs (Decidable (inner + 4 ≤ LOG_BUFFER_SIZE ∧ Inside _ ns))

/-- The first probe of a chunk, and the first record of it, are inside the buffer. -/
theorem inside_zero_cons {n : Nat} (h : n ≤ LOG_BUFFER_SIZE) (ns : List Nat) : Inside 0 (n :: ns) ↔ Inside n ns := by
  have hpos : 0 + 4 ≤ LOG_BUFFER_SIZE := by simp [LOG_BUFFER_SIZE_eq]
  rw [Inside, if_pos (by omega), and_iff_right hpos, Nat.zero_add]

theorem inside_zero_nil : Inside 0 [] := by simp [Inside, LOG_BUFFER_SIZE_eq]

/-- A record that does not fit the rest of the chunk starts the next one. -/
theorem inside_cut {inner n : Nat} (hprobe : inner + 4 ≤ LOG_BUFFER_SIZE) (hcut : ¬ inner + n ≤ LOG_BUFFER_SIZE)
    (h : n ≤ LOG_BUFFER_SIZE) (ns : List Nat) : Inside inner (n :: ns) ↔ Inside 0 (n :: ns) := by
  rw [inside_zero_cons h, Inside, if_neg hcut]
  exact and_iff_right hprobe

theorem inside_take {inner n : Nat} (hprobe : inner + 4 ≤ LOG_BUFFER_SIZE) (hfit : inner + n ≤ LOG_BUFFER_SIZE)
    (ns : List Nat) : Inside inner (n :: ns) ↔ Inside (inner + n) ns := by
  rw [Inside, if_pos hfit]
  exact and_iff_right hprobe

theorem Inside.probe {inner : Nat} {ns : List Nat} (h : Inside inner ns) : inner + 4 ≤ LOG_BUFFER_SIZE := by
  cases ns with
  | nil => exact h
  | cons n ns => exact h.1

/-! ## Handing over -/

/-- A record is remembered and handed to `RedoLog`. -/
def hand (rm : RecoveryManager) (pos : Nat) (r : LogRecord) : RecoveryManager :=
  ((rm.remember r.lsn_ pos r.encode.length).note r.readBack).RedoLog r.readBack

/-- The same for some records, of which the first stands at `pos`. -/
def handAll : RecoveryManager → Nat → List LogRecord → RecoveryManager
  | rm, _, [] => rm
  | rm, pos, r :: rs => handAll (rm.hand pos r) (pos + r.encode.length) rs

def withBuffer (rm : RecoveryManager) (buffer : Bytes) : RecoveryManager := { rm with buffer_ := buffer }

/-- `max_lsn` after some records. -/
def maxLsn (max_lsn : Int) (rs : List LogRecord) : Int := rs.foldl (fun m r => max m r.lsn_) max_lsn

/-- `RedoLog` concerns the store and `active_txn_`. -/
theorem RedoLog_frame (rm : RecoveryManager) (r : LogRecord) : (rm.RedoLog r).log_file = rm.log_file ∧
    (rm.RedoLog r).buffer_ = rm.buffer_ ∧ (rm.RedoLog r).lsn_mapping_ = rm.lsn_mapping_ ∧
    (rm.RedoLog r).handed = rm.handed ∧ (rm.RedoLog r).appended = rm.appended := by
  unfold RedoLog
  cases r.log_type_ <;> exact ⟨rfl, rfl, rfl, rfl, rfl⟩

theorem RedoLog_withBuffer (rm : RecoveryManager) (r : LogRecord) (b : Bytes) :
    (rm.withBuffer b).RedoLog r = (rm.RedoLog r).withBuffer b := by
  unfold RedoLog
  cases r.log_type_ <;> rfl

section Hand

variable (rm : RecoveryManager) (pos : Nat) (r : LogRecord) (rs qs : List LogRecord)

@[simp] theorem hand_log_file : (rm.hand pos r).log_file = rm.log_file := (RedoLog_frame _ _).1

@[simp] theorem hand_buffer : (rm.hand pos r).buffer_ = rm.buffer_ := (RedoLog_frame _ _).2.1

@[simp] theorem hand_appended : (rm.hand pos r).appended = rm.appended := (RedoLog_frame _ _).2.2.2.2

theorem hand_mapping (pos : Nat) (r : LogRecord) : (rm.hand pos r).lsn_mapping_ =
    rm.lsn_mapping_.insert r.lsn_ ((pos : Int), wrap32 r.encode.length) := (RedoLog_frame _ _).2.2.1

theorem hand_withBuffer (b : Bytes) : (rm.withBuffer b).hand pos r = (rm.hand pos r).withBuffer b :=
  RedoLog_withBuffer ((rm.remember r.lsn_ pos r.encode.length).note r.readBack) r.readBack b

@[simp] theorem handAll_log_file : (handAll rm pos rs).log_file = rm.log_file := by
  induction rs generalizing rm pos with
  | nil => rfl
  | cons r rs ih => rw [handAll, ih, hand_log_file]

@[simp] theorem handAll_buffer : (handAll rm pos rs).buffer_ = rm.buffer_ := by
  induction rs generalizing rm pos with
  | nil => rfl
  | cons r rs ih => rw [handAll, ih, hand_buffer]

@[simp] theorem handAll_appended : (handAll rm pos rs).appended = rm.appended := by
  induction rs generalizing rm pos with
  | nil => rfl
  | cons r rs ih => rw [handAll, ih, hand_appended]

theorem handAll_withBuffer (b : Bytes) : handAll (rm.withBuffer b) pos rs = (handAll rm pos rs).withBuffer b := by
  induction rs generalizing rm pos with
  | nil => rfl
  | cons r rs ih => rw [handAll, handAll, hand_withBuffer, ih]

theorem handAll_append :
    handAll rm pos (rs ++ qs) = handAll (handAll rm pos rs) (pos + (bytesOf rs).length) qs := by
  induction rs generalizing rm pos with
  | nil => rfl
  | cons r rs ih =>
      rw [List.cons_append, handAll, handAll, ih, bytesOf_cons, List.length_append, Nat.add_assoc]

theorem maxLsn_append (max_lsn : Int) : maxLsn max_lsn (rs ++ qs) = maxLsn (maxLsn max_lsn rs) qs :=
  List.foldl_append

end Hand

/-! ## One chunk -/

/-- From `inner` on the buffer has these bytes, then zeros. -/
structure Shows (buffer : Bytes) (inner : Nat) (bytes : Bytes) : Prop where
  length : buffer.length = LOG_BUFFER_SIZE
  le : inner ≤ LOG_BUFFER_SIZE
  eq : buffer.drop inner = (bytes ++ List.replicate LOG_BUFFER_SIZE 0).take (LOG_BUFFER_SIZE - inner)

section Chunk

variable {buffer bytes : Bytes} {inner fuel : Nat} {rm : RecoveryManager} {r : LogRecord} {rs : List LogRecord}
variable {max_lsn offset : Int}

theorem Shows.probe (h : Shows buffer inner bytes) (hin : inner + 4 ≤ LOG_BUFFER_SIZE) :
    readAt 4 buffer inner = readAt 4 (bytes ++ List.replicate LOG_BUFFER_SIZE 0) 0 := by
  have hle := h.le
  rw [readAt_drop 4 (by rw [h.length]; omega), h.eq, readAt_take (by omega)]

theorem Shows.probe_outside (h : Shows buffer inner bytes) (hout : ¬ inner + 4 ≤ LOG_BUFFER_SIZE) :
    readAt 4 buffer inner = none := by
  unfold readAt
  rw [if_neg (by rw [h.length]; omega)]

/-- A probe behind the last record. -/
theorem Shows.probe_end (h : Shows buffer inner []) (hin : inner + 4 ≤ LOG_BUFFER_SIZE) :
    readAt 4 buffer inner = some 0 := by
  rw [h.probe hin, List.nil_append]
  have hsize := LOG_BUFFER_SIZE_eq
  unfold readAt
  rw [if_pos (by rw [List.length_replicate]; omega), List.drop_zero, List.take_replicate,
    min_eq_left (by omega)]
  rfl

theorem Shows.probe_record (h : Shows buffer inner (bytesOf (r :: rs))) (hr : r.WellFormed)
    (hin : inner + 4 ≤ LOG_BUFFER_SIZE) : readAt 4 buffer inner = some r.encode.length := by
  rw [h.probe hin, bytesOf_cons, List.append_assoc]
  exact hr.read_size _

/-- A whole record. -/
theorem Shows.deserialize (h : Shows buffer inner (bytesOf (r :: rs))) (hr : r.WellFormed)
    (hfit : inner + r.encode.length ≤ LOG_BUFFER_SIZE) :
    LogRecord.DeserializeFrom (buffer.drop inner) = some r.readBack := by
  rw [h.eq, bytesOf_cons, List.append_assoc, List.take_append, List.take_of_length_le (by omega)]
  exact hr.deserialize _

theorem Shows.tail (h : Shows buffer inner (bytesOf (r :: rs))) (hfit : inner + r.encode.length ≤ LOG_BUFFER_SIZE) :
    Shows buffer (inner + r.encode.length) (bytesOf rs) where
  length := h.length
  le := hfit
  eq := by
    rw [← List.drop_drop, h.eq, bytesOf_cons, List.append_assoc, List.drop_take, List.drop_left, Nat.sub_add_eq]

/-- A probe outside the buffer. -/
theorem redoChunk_outside (h : Shows rm.buffer_ inner bytes) (hout : ¬ inner + 4 ≤ LOG_BUFFER_SIZE) :
    redoChunk (fuel + 1) rm max_lsn offset inner = none := by
  rw [redoChunk, h.probe_outside hout]
  rfl

/-- The last record was in this chunk. -/
theorem redoChunk_end (h : Shows rm.buffer_ inner []) (hin : inner + 4 ≤ LOG_BUFFER_SIZE) :
    redoChunk (fuel + 1) rm max_lsn offset inner = some (rm, max_lsn, inner) := by
  rw [redoChunk, h.probe_end hin, Option.bind_eq_bind, Option.bind_some]
  exact if_pos (Or.inl rfl)

/-- The chunk cuts the next record. -/
theorem redoChunk_cut (h : Shows rm.buffer_ inner (bytesOf (r :: rs))) (hr : r.WellFormed)
    (hin : inner + 4 ≤ LOG_BUFFER_SIZE) (hcut : ¬ inner + r.encode.length ≤ LOG_BUFFER_SIZE) :
    redoChunk (fuel + 1) rm max_lsn offset inner = some (rm, max_lsn, inner) := by
  have hlt := hr.lt
  have hsize := LOG_BUFFER_SIZE_eq
  have hstop : r.encode.length = 0 ∨ LOG_BUFFER_SIZE < (r.encode.length + inner) % 2 ^ 32 := by
    right
    omega
  simp only [redoChunk, h.probe_record hr hin, Option.bind_eq_bind, Option.bind_some, if_pos hstop]

/-- A record that the chunk has is read. -/
theorem redoChunk_read {offset : Nat} (h : Shows rm.buffer_ inner (bytesOf (r :: rs))) (hr : r.WellFormed)
    (hin : inner + 4 ≤ LOG_BUFFER_SIZE) (hfit : inner + r.encode.length ≤ LOG_BUFFER_SIZE) :
    redoChunk (fuel + 1) rm max_lsn offset inner = (intAdd offset inner).bind fun pos =>
      redoChunk fuel (((rm.remember r.lsn_ pos r.encode.length).note r.readBack).RedoLog r.readBack)
        (max max_lsn r.lsn_) offset (inner + r.encode.length) := by
  have hsize := LOG_BUFFER_SIZE_eq
  have hheader := r.header_le_encode
  have hmod : (r.encode.length + inner) % 2 ^ 32 = inner + r.encode.length := by omega
  have hgo : ¬ (r.encode.length = 0 ∨ LOG_BUFFER_SIZE < (r.encode.length + inner) % 2 ^ 32) := by
    have : LogRecord.HEADER_SIZE = 24 := rfl
    omega
  rw [redoChunk, h.probe_record hr hin, Option.bind_eq_bind, Option.bind_some, if_neg hgo, h.deserialize hr hfit,
    Option.bind_eq_bind, Option.bind_some, LogRecord.readBack_lsn, hmod]
  rfl

/-- A record is handed over. -/
theorem redoChunk_hand {offset : Nat} (h : Shows rm.buffer_ inner (bytesOf (r :: rs))) (hr : r.WellFormed)
    (hin : inner + 4 ≤ LOG_BUFFER_SIZE) (hfit : inner + r.encode.length ≤ LOG_BUFFER_SIZE)
    (hpos : offset + inner < 2 ^ 31) : redoChunk (fuel + 1) rm max_lsn offset inner =
      redoChunk fuel (rm.hand (offset + inner) r) (max max_lsn r.lsn_) offset (inner + r.encode.length) := by
  rw [redoChunk_read h hr hin hfit, intAdd_of_lt hpos, Option.bind_some]
  rfl

/-- The place of the record is no `int`. -/
theorem redoChunk_overflow {offset : Nat} (h : Shows rm.buffer_ inner (bytesOf (r :: rs))) (hr : r.WellFormed)
    (hin : inner + 4 ≤ LOG_BUFFER_SIZE) (hfit : inner + r.encode.length ≤ LOG_BUFFER_SIZE)
    (hpos : ¬ offset + inner < 2 ^ 31) : redoChunk (fuel + 1) rm max_lsn offset inner = none := by
  rw [redoChunk_read h hr hin hfit, intAdd_overflow hpos, Option.bind_none]

/-- What a chunk comes to: it fails, or it hands over the records it has whole. -/
structure ChunkDone (rm : RecoveryManager) (max_lsn : Int) (offset inner : Nat) (rs : List LogRecord)
    (res : Option (RecoveryManager × Int × Nat)) (p q : List LogRecord) : Prop where
  split : rs = p ++ q
  result : res = some (handAll rm (offset + inner) p, maxLsn max_lsn p, inner + (bytesOf p).length)
  inside : Inside inner (sizesOf rs) ↔ Inside 0 (sizesOf q)
  progress : inner = 0 → rs ≠ [] → p ≠ []

/-- **The inner loop.** -/
theorem redoChunk_spec {offset : Nat} (hrs : ∀ r ∈ rs, r.Readable) (hfuel : rs.length < fuel)
    (h : Shows rm.buffer_ inner (bytesOf rs)) :
    (redoChunk fuel rm max_lsn offset inner = none ∧
      ¬ (Inside inner (sizesOf rs) ∧ offset + inner + (bytesOf rs).length < 2 ^ 31)) ∨
    ∃ p q, ChunkDone rm max_lsn offset inner rs (redoChunk fuel rm max_lsn offset inner) p q := by
  induction rs generalizing fuel rm max_lsn inner with
  | nil =>
      obtain ⟨fuel, rfl⟩ : ∃ n, fuel = n + 1 := ⟨fuel - 1, by simp at hfuel; omega⟩
      by_cases hin : inner + 4 ≤ LOG_BUFFER_SIZE
      · right
        refine ⟨[], [], rfl, redoChunk_end h hin, ?_, fun _ hne => absurd rfl hne⟩
        exact iff_of_true hin inside_zero_nil
      · left
        exact ⟨redoChunk_outside h hin, fun hgood => hin hgood.1.probe⟩
  | cons r rs ih =>
      obtain ⟨fuel, rfl⟩ : ∃ n, fuel = n + 1 := ⟨fuel - 1, by simp at hfuel; omega⟩
      have hr := hrs r List.mem_cons_self
      have hlt := hr.lt
      have hrest : ∀ r ∈ rs, r.Readable := fun s hs => hrs s (List.mem_cons_of_mem _ hs)
      by_cases hin : inner + 4 ≤ LOG_BUFFER_SIZE
      · by_cases hfit : inner + r.encode.length ≤ LOG_BUFFER_SIZE
        · by_cases hpos : offset + inner < 2 ^ 31
          · -- the record is handed over, and the loop goes on
            have hnext : Shows (rm.hand (offset + inner) r).buffer_ (inner + r.encode.length) (bytesOf rs) := by
              rw [hand_buffer]
              exact h.tail hfit
            have hinside : Inside inner (sizesOf (r :: rs)) ↔ Inside (inner + r.encode.length) (sizesOf rs) :=
              inside_take hin hfit (sizesOf rs)
            have hlen : (bytesOf (r :: rs)).length = r.encode.length + (bytesOf rs).length := by
              rw [bytesOf_cons, List.length_append]
            rw [redoChunk_hand h hr.wellFormed hin hfit hpos]
            -- induction hypothesis for the loop behind this record
            rcases ih hrest (by simpa using hfuel) hnext with ⟨hnone, hbad⟩ | ⟨p, q, hdone⟩
            · left
              refine ⟨hnone, ?_⟩
              rw [hinside, hlen]
              rintro ⟨hgood, htotal⟩
              exact hbad ⟨hgood, by omega⟩
            · right
              refine ⟨r :: p, q, ?_, ?_, ?_, ?_⟩
              · rw [hdone.split, List.cons_append]
              · rw [hdone.result, handAll, bytesOf_cons, List.length_append, ← Nat.add_assoc, ← Nat.add_assoc]
                rfl
              · exact hinside.trans hdone.inside
              · intro _ _
                exact List.cons_ne_nil _ _
          · left
            refine ⟨redoChunk_overflow h hr.wellFormed hin hfit hpos, ?_⟩
            rintro ⟨-, htotal⟩
            omega
        · right
          -- the record is cut by the end of the buffer: the next chunk starts with it
          refine ⟨[], r :: rs, rfl, redoChunk_cut h hr.wellFormed hin hfit, inside_cut hin hfit hlt.le _, ?_⟩
          intro hzero
          omega
      · left
        exact ⟨redoChunk_outside h hin, fun hgood => hin hgood.1.probe⟩

end Chunk

/-! ## The file, chunk by chunk -/

section File

variable {fuel offset : Nat} {rm : RecoveryManager} {rs : List LogRecord} {max_lsn : Int}

/-- A chunk shows the file from its offset on. -/
theorem shows_chunk {log_file buffer bytes : Bytes} (hbuf : buffer.length = LOG_BUFFER_SIZE)
    (hdrop : log_file.drop offset = bytes) :
    Shows (memcpy buffer 0 ((log_file.drop offset ++ List.replicate LOG_BUFFER_SIZE 0).take LOG_BUFFER_SIZE)) 0
      bytes := by
  have hlen : ((bytes ++ List.replicate LOG_BUFFER_SIZE 0).take LOG_BUFFER_SIZE).length = LOG_BUFFER_SIZE := by
    rw [List.length_take, List.length_append, List.length_replicate]
    omega
  rw [hdrop, memcpy_all (hlen.trans hbuf.symm)]
  exact ⟨hlen, Nat.zero_le _, rfl⟩

/-- The chunk at `offset`. -/
def chunkAt (log_file buffer : Bytes) (offset : Nat) : Bytes :=
  memcpy buffer 0 ((log_file.drop offset ++ List.replicate LOG_BUFFER_SIZE 0).take LOG_BUFFER_SIZE)

/-- The loop ends at the end of the file, or behind it. -/
theorem redoFile_end (h : rm.log_file.length ≤ offset) (hoff : offset < 2 ^ 31) :
    redoFile (fuel + 1) rm max_lsn offset = some (rm, max_lsn) := by
  rw [redoFile, LogStorage.ReadLog_end _ (LogStorage.atEnd h hoff)]

theorem redoFile_step (h : offset < rm.log_file.length) (hlen : rm.log_file.length < 2 ^ 32) (hoff : offset < 2 ^ 31) :
    redoFile (fuel + 1) rm max_lsn offset =
      (redoChunk fuel (rm.withBuffer (chunkAt rm.log_file rm.buffer_ offset)) max_lsn offset 0).bind fun res =>
        (intAdd offset res.2.2).bind fun offset => redoFile fuel res.1 res.2.1 offset := by
  have hread : LogStorage.ReadLog rm.log_file rm.buffer_ LOG_BUFFER_SIZE offset =
      some (chunkAt rm.log_file rm.buffer_ offset) :=
    LogStorage.ReadLog_eq LOG_BUFFER_SIZE (LogStorage.not_atEnd h hlen hoff)
  rw [redoFile, hread]
  generalize chunkAt rm.log_file rm.buffer_ offset = buffer
  rfl

/-- **The outer loop.** Either every record is handed over, once and in order, or the computation fails. -/
theorem redoFile_spec (rm : RecoveryManager) (max_lsn : Int) (hrs : ∀ r ∈ rs, r.Readable) (hfuel : rs.length + 1 < fuel)
    (hbuf : rm.buffer_.length = LOG_BUFFER_SIZE) (hdrop : rm.log_file.drop offset = bytesOf rs)
    (hlen : rm.log_file.length = offset + (bytesOf rs).length) (hmax : rm.log_file.length < 2 ^ 32)
    (hoff : offset < 2 ^ 31) :
    (redoFile fuel rm max_lsn offset = none ∧ ¬ (Inside 0 (sizesOf rs) ∧ rm.log_file.length < 2 ^ 31)) ∨
    (∃ b : Bytes, b.length = LOG_BUFFER_SIZE ∧
      redoFile fuel rm max_lsn offset = some ((handAll rm offset rs).withBuffer b, maxLsn max_lsn rs)) ∧
      Inside 0 (sizesOf rs) ∧ rm.log_file.length < 2 ^ 31 := by
  -- every chunk takes a record, so the rest gets shorter
  induction hn : rs.length using Nat.strong_induction_on generalizing rs fuel rm max_lsn offset with
  | _ n ih =>
  obtain ⟨fuel, rfl⟩ : ∃ k, fuel = k + 1 := ⟨fuel - 1, by omega⟩
  by_cases hrs0 : rs = []
  · subst hrs0
    right
    have hend : rm.log_file.length = offset := by rw [hlen, bytesOf_nil, List.length_nil, Nat.add_zero]
    refine ⟨⟨rm.buffer_, hbuf, redoFile_end hend.le hoff⟩, inside_zero_nil, ?_⟩
    rw [hend]
    exact hoff
  · have hmore : 0 < (bytesOf rs).length := by
      obtain ⟨r, rs', rfl⟩ := List.exists_cons_of_ne_nil hrs0
      have := r.header_le_encode
      have : LogRecord.HEADER_SIZE = 24 := rfl
      rw [bytesOf_cons, List.length_append]
      omega
    rw [redoFile_step (by omega) hmax hoff]
    have hshows : Shows (rm.withBuffer (chunkAt rm.log_file rm.buffer_ offset)).buffer_ 0 (bytesOf rs) :=
      shows_chunk hbuf hdrop
    have hfuel' : rs.length < fuel := by omega
    rcases redoChunk_spec hrs hfuel' hshows with ⟨hnone, hbad⟩ | ⟨p, q, hdone⟩
    · left
      rw [hnone]
      refine ⟨rfl, ?_⟩
      rintro ⟨hgood, htotal⟩
      apply hbad
      exact ⟨hgood, by omega⟩
    · obtain ⟨hsplit, hresult, hinside, hprogress⟩ := hdone
      have hbytes : bytesOf rs = bytesOf p ++ bytesOf q := by rw [hsplit, bytesOf_append]
      have hp := hprogress rfl hrs0
      have hshort : q.length < rs.length := by
        have := List.length_pos_iff.mpr hp
        rw [hsplit, List.length_append]
        omega
      rw [Nat.add_zero, Nat.zero_add] at hresult
      rw [hresult, Option.bind_some]
      by_cases hnext : offset + (bytesOf p).length < 2 ^ 31
      · rw [intAdd_of_lt hnext, Option.bind_some, handAll_withBuffer]
        generalize hrm : (handAll rm offset p).withBuffer (chunkAt rm.log_file rm.buffer_ offset) = rm'
        have hfuelq : q.length + 1 < fuel := by omega
        have hfile : rm'.log_file = rm.log_file := by
          rw [← hrm]
          exact handAll_log_file ..
        have hbuf' : rm'.buffer_.length = LOG_BUFFER_SIZE := by
          rw [← hrm]
          exact hshows.length
        have hdrop' : rm'.log_file.drop (offset + (bytesOf p).length) = bytesOf q := by
          rw [hfile, ← List.drop_drop, hdrop, hbytes, List.drop_left]
        have hlen' : rm'.log_file.length = offset + (bytesOf p).length + (bytesOf q).length := by
          rw [hfile, hlen, hbytes, List.length_append, Nat.add_assoc]
        have hall : ∀ b, (handAll rm' (offset + (bytesOf p).length) q).withBuffer b = (handAll rm offset rs).withBuffer b := by
          intro b
          rw [← hrm, handAll_withBuffer, hsplit, handAll_append]
          rfl
        rcases ih q.length (by omega) rm' (maxLsn max_lsn p)
          (fun r hr => hrs r (by rw [hsplit]; exact List.mem_append_right _ hr))
          hfuelq hbuf' hdrop' hlen' (by rwa [hfile]) hnext rfl with ⟨hnone, hbad⟩ | ⟨⟨b, hb, hsome⟩, hgood⟩
        · left
          refine ⟨hnone, ?_⟩
          rw [hinside, ← hfile]
          exact hbad
        · right
          rw [hinside, ← hfile]
          refine ⟨⟨b, hb, ?_⟩, hgood⟩
          rw [hsome, hall, hsplit, maxLsn_append]
      · left
        rw [intAdd_overflow hnext]
        refine ⟨rfl, ?_⟩
        rintro ⟨-, htotal⟩
        rw [hlen, hbytes, List.length_append] at htotal
        omega

end File

/-! ## `Redo` -/

section Redo

variable {fuel : Nat} {rs : List LogRecord} {max_lsn n : Int}

theorem maxLsn_lt_iff : maxLsn max_lsn rs < n ↔ max_lsn < n ∧ ∀ r ∈ rs, r.lsn_ < n := by
  induction rs generalizing max_lsn with
  | nil => simp [maxLsn]
  | cons r rs ih =>
      have hcons : maxLsn max_lsn (r :: rs) = maxLsn (max max_lsn r.lsn_) rs := rfl
      rw [hcons, ih, max_lt_iff, List.forall_mem_cons, and_assoc]

theorem le_maxLsn (max_lsn : Int) (rs : List LogRecord) : max_lsn ≤ maxLsn max_lsn rs := by
  by_contra h
  exact absurd (maxLsn_lt_iff.mp (not_le.mp h)).1 (lt_irrefl _)

/-- The LSN behind the largest one is an `int`. -/
theorem intAdd_maxLsn (h : ∀ r ∈ rs, r.lsn_ < 2 ^ 31 - 1) :
    intAdd (maxLsn INVALID_LSN rs) 1 = some (maxLsn INVALID_LSN rs + 1) := by
  have hlow := le_maxLsn INVALID_LSN rs
  have hinvalid : INVALID_LSN = -1 := rfl
  have hmax : maxLsn INVALID_LSN rs < 2 ^ 31 - 1 := maxLsn_lt_iff.mpr ⟨by omega, h⟩
  apply if_pos
  exact ⟨by omega, by omega⟩

/-- The log file of some records, and the size of a file that `Redo` can read. -/
structure Recoverable (rs : List LogRecord) : Prop where
  inside : Inside 0 (sizesOf rs)
  length : (bytesOf rs).length < 2 ^ 31
  lsn : ∀ r ∈ rs, r.lsn_ < 2 ^ 31 - 1

/-- A new recovery manager after some records, with their last LSN. -/
def afterRedo (rs : List LogRecord) (b : Bytes) (buffer : Vector UInt8 LOG_BUFFER_SIZE) : RecoveryManager :=
  { (handAll (init (bytesOf rs) buffer) 0 rs).withBuffer b with next_lsn_ := maxLsn INVALID_LSN rs + 1 }

/-- **`Redo`** of a file of records. -/
theorem Redo_spec (hrs : ∀ r ∈ rs, r.Readable) (hlen : (bytesOf rs).length < 2 ^ 32) (hfuel : rs.length + 1 < fuel)
    (buffer : Vector UInt8 LOG_BUFFER_SIZE) :
    (Redo fuel (init (bytesOf rs) buffer) = none ∧ ¬ Recoverable rs) ∨
    (∃ b : Bytes, b.length = LOG_BUFFER_SIZE ∧ Redo fuel (init (bytesOf rs) buffer) = some (afterRedo rs b buffer)) ∧
      Recoverable rs := by
  have hbuf : (init (bytesOf rs) buffer).buffer_.length = LOG_BUFFER_SIZE := Vector.length_toList
  have hfile : (init (bytesOf rs) buffer).log_file.length = 0 + (bytesOf rs).length := (Nat.zero_add _).symm
  have hzero : (0 : Nat) < 2 ^ 31 := Nat.two_pow_pos 31
  rcases redoFile_spec (init (bytesOf rs) buffer) INVALID_LSN hrs hfuel hbuf List.drop_zero hfile hlen hzero with
    ⟨hnone, hbad⟩ | ⟨⟨b, hb, hsome⟩, hinside, hsize⟩
  · left
    refine ⟨?_, fun hgood => hbad ⟨hgood.inside, hgood.length⟩⟩
    rw [Redo, show (0 : Int) = ((0 : Nat) : Int) from rfl, hnone]
    rfl
  · rw [Redo, show (0 : Int) = ((0 : Nat) : Int) from rfl, hsome]
    -- the LSN behind the largest one has to be an int
    have hlow := le_maxLsn INVALID_LSN rs
    have hinvalid : INVALID_LSN = -1 := rfl
    by_cases hlsn : ∀ r ∈ rs, r.lsn_ < 2 ^ 31 - 1
    · right
      refine ⟨⟨b, hb, ?_⟩, hinside, hsize, hlsn⟩
      rw [Option.bind_eq_bind, Option.bind_some]
      dsimp only
      rw [intAdd_maxLsn hlsn]
      rfl
    · left
      have hmax : ¬ maxLsn INVALID_LSN rs < 2 ^ 31 - 1 := fun hlt => hlsn (maxLsn_lt_iff.mp hlt).2
      have hnext : intAdd (maxLsn INVALID_LSN rs) 1 = none := by
        apply if_neg
        rintro ⟨-, hlt⟩
        omega
      refine ⟨?_, fun hgood => hlsn hgood.lsn⟩
      rw [Option.bind_eq_bind, Option.bind_some]
      dsimp only
      rw [hnext]
      rfl

end Redo

end RecoveryManager
end DDBMS
