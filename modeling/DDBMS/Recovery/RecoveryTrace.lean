import DDBMS.Recovery.RecoveryRead

/-!
# `Recovery.RecoveryTrace` — the accesses of a recovery

The loops of `Redo` and of `Undo` once more, with what they do on the way: the calls of `ReadLog` and of `DeserializeFrom`,
and the entries that `lsn_mapping_` gets. The accesses of a loop are also there when it never ends, or comes to something
undefined: with more fuel there are more of them.
-/

namespace DDBMS
namespace RecoveryManager

inductive Access where
  | ReadLog (offset : Int)
  | DeserializeFrom (storage : Bytes)
  /-- `lsn_mapping_[lsn] = std::make_pair(pos, size)` -/
  | lsn_mapping_ (lsn pos size : Int)

/-- The inner loop of `Redo`. -/
def redoChunkTrace : Nat → RecoveryManager → Int → Int → Nat → List Access
  | 0, _, _, _, _ => []
  | fuel + 1, rm, max_lsn, offset, inner_offset =>
    match readAt 4 rm.buffer_ inner_offset with
    | none => []
    | some size =>
      if size = 0 ∨ LOG_BUFFER_SIZE < (size + inner_offset) % 2 ^ 32 then []
      else
        .DeserializeFrom (rm.buffer_.drop inner_offset) ::
          match LogRecord.DeserializeFrom (rm.buffer_.drop inner_offset), intAdd offset inner_offset with
          | some log, some pos =>
            .lsn_mapping_ log.lsn_ pos (wrap32 size) ::
              redoChunkTrace fuel (((rm.remember log.lsn_ pos size).note log).RedoLog log) (max max_lsn log.lsn_) offset
                ((size + inner_offset) % 2 ^ 32)
          | _, _ => []

/-- The outer loop of `Redo`. -/
def redoFileTrace : Nat → RecoveryManager → Int → Int → List Access
  | 0, _, _, _ => []
  | fuel + 1, rm, max_lsn, offset =>
    .ReadLog offset ::
      match LogStorage.ReadLog rm.log_file rm.buffer_ LOG_BUFFER_SIZE offset with
      | none => []
      | some buffer =>
        redoChunkTrace fuel { rm with buffer_ := buffer } max_lsn offset 0 ++
          match redoChunk fuel { rm with buffer_ := buffer } max_lsn offset 0 with
          | none => []
          | some (rm, max_lsn, inner_offset) =>
            match intAdd offset inner_offset with
            | none => []
            | some offset => redoFileTrace fuel rm max_lsn offset

def redoTrace (fuel : Nat) (rm : RecoveryManager) : List Access := redoFileTrace fuel rm INVALID_LSN 0

/-- The loop of `Undo`. -/
def undoLoopTrace : Nat → RecoveryManager → Finset Int → List Access
  | 0, _, _ => []
  | fuel + 1, rm, next_lsn =>
    match lastOf next_lsn with
    | none => []
    | some lsn =>
      .ReadLog ((rm.lsn_mapping_.lookup lsn).getD (0, 0)).1 :: .DeserializeFrom (rm.fetch lsn).buffer_ ::
        match LogRecord.DeserializeFrom (rm.fetch lsn).buffer_ with
        | none => []
        | some log =>
          undoLoopTrace fuel ((rm.fetch lsn).UndoLog log)
            (if log.prev_lsn_ ≠ INVALID_LSN then insert log.prev_lsn_ (next_lsn.erase lsn) else next_lsn.erase lsn)

def undoTrace (fuel : Nat) (rm : RecoveryManager) : List Access :=
  undoLoopTrace fuel rm (rm.active_txn_.entries.map Sigma.snd).toFinset

/-- `Redo`, and `Undo` if `Redo` comes to its end. -/
def ariesTrace (fuel : Nat) (rm : RecoveryManager) : List Access :=
  rm.redoTrace fuel ++
    match rm.Redo fuel with
    | none => []
    | some rm => rm.undoTrace fuel

variable {rm : RecoveryManager} {r : LogRecord} {rs : List LogRecord} {bytes : Bytes} {max_lsn : Int} {fuel inner offset : Nat}

/-! ## The inner loop -/

/-- Nothing more is read from the chunk. -/
theorem redoChunkTrace_outside {offset : Int} (h : Shows rm.buffer_ inner bytes) (hout : ¬ inner + 4 ≤ LOG_BUFFER_SIZE) :
    redoChunkTrace fuel rm max_lsn offset inner = [] := by
  cases fuel with
  | zero => rfl
  | succ fuel => rw [redoChunkTrace, h.probe_outside hout]

theorem redoChunkTrace_end {offset : Int} (h : Shows rm.buffer_ inner []) (hin : inner + 4 ≤ LOG_BUFFER_SIZE) :
    redoChunkTrace fuel rm max_lsn offset inner = [] := by
  cases fuel with
  | zero => rfl
  | succ fuel =>
      rw [redoChunkTrace, h.probe_end hin]
      exact if_pos (.inl rfl)

theorem redoChunkTrace_cut {offset : Int} (h : Shows rm.buffer_ inner (bytesOf (r :: rs))) (hr : r.WellFormed)
    (hin : inner + 4 ≤ LOG_BUFFER_SIZE) (hcut : ¬ inner + r.encode.length ≤ LOG_BUFFER_SIZE) :
    redoChunkTrace fuel rm max_lsn offset inner = [] := by
  cases fuel with
  | zero => rfl
  | succ fuel =>
      have hlt := hr.lt
      have hsize := LOG_BUFFER_SIZE_eq
      rw [redoChunkTrace, h.probe_record hr hin]
      exact if_pos (.inr (by omega))

/-- A record that the chunk has whole. -/
theorem redoChunkTrace_hand (h : Shows rm.buffer_ inner (bytesOf (r :: rs))) (hr : r.WellFormed)
    (hfit : inner + r.encode.length ≤ LOG_BUFFER_SIZE) (hpos : offset + inner < 2 ^ 31) :
    redoChunkTrace (fuel + 1) rm max_lsn offset inner =
      .DeserializeFrom (rm.buffer_.drop inner) :: .lsn_mapping_ r.lsn_ (offset + inner : Nat) r.encode.length ::
        redoChunkTrace fuel (rm.hand (offset + inner) r) (max max_lsn r.lsn_) offset (inner + r.encode.length) := by
  have hlt := hr.lt
  have hsize := LOG_BUFFER_SIZE_eq
  have hheader := r.header_le_encode
  have h24 : LogRecord.HEADER_SIZE = 24 := rfl
  have hmod : (r.encode.length + inner) % 2 ^ 32 = inner + r.encode.length := by omega
  have hgo : ¬ (r.encode.length = 0 ∨ LOG_BUFFER_SIZE < (r.encode.length + inner) % 2 ^ 32) := by omega
  have hwrap : wrap32 r.encode.length = r.encode.length := wrap32_of_lt (by omega) (by omega)
  rw [redoChunkTrace, h.probe_record hr (by omega)]
  dsimp only
  rw [if_neg hgo, h.deserialize hr hfit, intAdd_of_lt hpos]
  dsimp only
  rw [LogRecord.readBack_lsn, hmod, hwrap]
  rfl

/-! ## The outer loop -/

theorem redoFileTrace_end {offset : Int} (h : LogStorage.ReadLog rm.log_file rm.buffer_ LOG_BUFFER_SIZE offset = none) :
    redoFileTrace (fuel + 1) rm max_lsn offset = [.ReadLog offset] := by
  rw [redoFileTrace, h]

/-- A turn of the outer loop, and the turns behind it. -/
theorem redoFileTrace_step {offset pos : Int} {buffer : Bytes} {rm' : RecoveryManager} {max_lsn' : Int} {stop : Nat}
    (h : LogStorage.ReadLog rm.log_file rm.buffer_ LOG_BUFFER_SIZE offset = some buffer)
    (hchunk : redoChunk fuel (rm.withBuffer buffer) max_lsn offset 0 = some (rm', max_lsn', stop))
    (hadd : intAdd offset stop = some pos) :
    redoFileTrace (fuel + 1) rm max_lsn offset =
      .ReadLog offset :: (redoChunkTrace fuel (rm.withBuffer buffer) max_lsn offset 0 ++
        redoFileTrace fuel rm' max_lsn' pos) := by
  have hset : { rm with buffer_ := buffer } = rm.withBuffer buffer := rfl
  rw [redoFileTrace, h]
  dsimp only
  rw [hset, hchunk]
  dsimp only
  rw [hadd]

/-- The same for any turn: it is the last one, or the next one is known. -/
theorem redoFileTrace_cases {offset : Int} {buffer : Bytes}
    (h : LogStorage.ReadLog rm.log_file rm.buffer_ LOG_BUFFER_SIZE offset = some buffer) :
    ∃ rest, redoFileTrace (fuel + 1) rm max_lsn offset =
        .ReadLog offset :: (redoChunkTrace fuel (rm.withBuffer buffer) max_lsn offset 0 ++ rest) ∧
      (rest = [] ∨ ∃ rm' max_lsn' stop pos,
        redoChunk fuel (rm.withBuffer buffer) max_lsn offset 0 = some (rm', max_lsn', stop) ∧
        intAdd offset stop = some pos ∧ rest = redoFileTrace fuel rm' max_lsn' pos) := by
  have hset : { rm with buffer_ := buffer } = rm.withBuffer buffer := rfl
  cases hchunk : redoChunk fuel (rm.withBuffer buffer) max_lsn offset 0 with
  | none =>
      refine ⟨[], ?_, .inl rfl⟩
      rw [redoFileTrace, h]
      dsimp only
      rw [hset, hchunk]
  | some res =>
      obtain ⟨rm', max_lsn', stop⟩ := res
      cases hadd : intAdd offset stop with
      | none =>
          refine ⟨[], ?_, .inl rfl⟩
          rw [redoFileTrace, h]
          dsimp only
          rw [hset, hchunk]
          dsimp only
          rw [hadd]
      | some pos =>
          exact ⟨_, redoFileTrace_step h hchunk hadd, .inr ⟨rm', max_lsn', stop, pos, rfl, hadd, rfl⟩⟩

/-- What is read is the chunk at the offset. -/
theorem ReadLog_chunk {file log_data buffer : Bytes}
    (h : LogStorage.ReadLog file log_data LOG_BUFFER_SIZE offset = some buffer) :
    buffer = chunkAt file log_data offset := by
  have hmore : ¬ toSizeT (LogStorage.GetFileSize file) ≤ toSizeT offset := by
    intro hend
    rw [LogStorage.ReadLog_end _ hend] at h
    cases h
  rw [LogStorage.ReadLog_eq LOG_BUFFER_SIZE hmore] at h
  exact (Option.some.inj h).symm

end RecoveryManager
end DDBMS
