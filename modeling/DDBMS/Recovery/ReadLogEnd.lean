import DDBMS.Recovery.RecoveryTrace

/-!
# `Recovery.ReadLogEnd` — where the log file ends

`GetFileSize` casts the size of the file to an `int`, and `ReadLog` casts that to a `size_t` again. A file of `2 ^ 31` bytes
has a negative size this way, which is a huge one as a `size_t`, and one of `2 ^ 32` bytes has the size `0`. What `ReadLog`
returns is right at every offset if and only if the file has less than `2 ^ 31` bytes (`knowsEnd_iff`), and then the offsets
of `Redo`, which are sums of `int`s, are right as well.
-/

namespace DDBMS
namespace RecoveryManager

/-- An access of `Redo` is at the true place: the boundary of a record, or the place of the record with this LSN. -/
def Access.At (rs : List LogRecord) : Access → Prop
  | .ReadLog offset => ∃ p q, rs = p ++ q ∧ offset = (bytesOf p).length
  | .DeserializeFrom _ => True
  | .lsn_mapping_ lsn pos size =>
    ∃ p r q, rs = p ++ r :: q ∧ lsn = r.lsn_ ∧ pos = (bytesOf p).length ∧ size = r.encode.length

/-- Reading the log knows where the file ends. -/
structure KnowsEnd (file : Bytes) : Prop where
  returns : ∀ (log_data : Bytes) (size offset : Nat), offset < 2 ^ 64 →
    ((LogStorage.ReadLog file log_data size offset).isSome ↔ offset < file.length)
  fills : ∀ (log_data : Bytes) (size offset : Nat) (b : Bytes), offset < 2 ^ 64 →
    LogStorage.ReadLog file log_data size offset = some b →
    b = memcpy log_data 0 ((file.drop offset ++ List.replicate size 0).take size)
  redo : ∀ rs, (∀ r ∈ rs, r.WellFormed) → file = bytesOf rs → ∀ (buffer : Vector UInt8 LOG_BUFFER_SIZE) (fuel : Nat),
    ∀ a ∈ redoTrace fuel (init file buffer), a.At rs

variable {file log_data : Bytes} {size offset fuel inner : Nat} {rm : RecoveryManager} {max_lsn : Int}
  {rs all done : List LogRecord}

/-! ## `ReadLog` -/

theorem isSome_ReadLog (file log_data : Bytes) (size : Int) (hoff : offset < 2 ^ 64) :
    (LogStorage.ReadLog file log_data size offset).isSome ↔ (offset : Int) < toSizeT (LogStorage.GetFileSize file) := by
  have hself : toSizeT offset = offset := by
    unfold toSizeT
    omega
  rw [LogStorage.ReadLog, hself]
  split <;> simp <;> omega

theorem GetFileSize_eq (h : file.length < 2 ^ 31) : toSizeT (LogStorage.GetFileSize file) = file.length := by
  rw [LogStorage.GetFileSize, wrap32_of_lt (by omega) (by omega)]
  unfold toSizeT
  omega

/-- The size of a large file is too large, or too small. -/
theorem GetFileSize_wrong (h : 2 ^ 31 ≤ file.length) (hlen : file.length < 2 ^ 63) :
    (file.length : Int) < toSizeT (LogStorage.GetFileSize file) ∨ toSizeT (LogStorage.GetFileSize file) < file.length := by
  have hrange : -2 ^ 31 ≤ LogStorage.GetFileSize file ∧ LogStorage.GetFileSize file < 2 ^ 31 := by
    have hle := Int.le_bmod (x := (file.length : Int)) (m := 2 ^ 32) (by decide)
    have hlt := Int.bmod_lt (x := (file.length : Int)) (m := 2 ^ 32) (by decide)
    exact ⟨hle, hlt⟩
  unfold toSizeT
  omega

/-! ## `Redo` -/

/-- Where the loops of `Redo` are: at the boundary behind the records `done`, with `rs` to come. -/
structure Boundary (all done rs : List LogRecord) (pos : Nat) : Prop where
  split : all = done ++ rs
  pos_eq : pos = (bytesOf done).length

theorem Boundary.next {r : LogRecord} {pos : Nat} (h : Boundary all done (r :: rs) pos) :
    Boundary all (done ++ [r]) rs (pos + r.encode.length) := by
  refine ⟨by rw [h.split, List.append_assoc, List.singleton_append], ?_⟩
  rw [bytesOf_append, bytesOf_cons, bytesOf_nil, List.append_nil, List.length_append, h.pos_eq]

/-- **The inner loop** goes from boundary to boundary, and notes the places of the records. -/
theorem redoChunk_boundary (hwf : ∀ r ∈ all, r.WellFormed) (hsmall : (bytesOf all).length < 2 ^ 31)
    (h : Shows rm.buffer_ inner (bytesOf rs)) (hat : Boundary all done rs (offset + inner)) :
    (∀ a ∈ redoChunkTrace fuel rm max_lsn offset inner, a.At all) ∧
      ∀ rm' max_lsn' stop, redoChunk fuel rm max_lsn offset inner = some (rm', max_lsn', stop) →
        rm'.log_file = rm.log_file ∧ rm'.buffer_ = rm.buffer_ ∧ ∃ done' rs', Boundary all done' rs' (offset + stop) := by
  induction fuel generalizing rm max_lsn inner done rs with
  | zero => exact ⟨List.forall_mem_nil _, fun _ _ _ hres => nomatch hres⟩
  | succ fuel ih =>
      by_cases hin : inner + 4 ≤ LOG_BUFFER_SIZE
      · cases rs with
        | nil =>
            rw [redoChunkTrace_end h hin, redoChunk_end h hin]
            refine ⟨List.forall_mem_nil _, fun rm' max_lsn' stop hres => ?_⟩
            obtain ⟨rfl, rfl, rfl⟩ : rm = rm' ∧ max_lsn = max_lsn' ∧ inner = stop := by simpa using hres
            exact ⟨rfl, rfl, done, [], hat⟩
        | cons r rs =>
            have hr : r.WellFormed := hwf r (by rw [hat.split]; exact List.mem_append_right _ List.mem_cons_self)
            by_cases hfit : inner + r.encode.length ≤ LOG_BUFFER_SIZE
            · have hlength : (bytesOf all).length = offset + inner + (bytesOf (r :: rs)).length := by
                rw [hat.split, bytesOf_append, List.length_append, hat.pos_eq]
              have hpos : offset + inner < 2 ^ 31 := by omega
              have hnext : Shows (rm.hand (offset + inner) r).buffer_ (inner + r.encode.length) (bytesOf rs) := by
                rw [hand_buffer]
                exact h.tail hfit
              have hat' : Boundary all (done ++ [r]) rs (offset + (inner + r.encode.length)) := by
                rw [← Nat.add_assoc]
                exact hat.next
              rw [redoChunkTrace_hand h hr hfit hpos, redoChunk_hand h hr hin hfit hpos]
              obtain ⟨htrace, hresult⟩ := @ih _ _ (max max_lsn r.lsn_) _ _ hnext hat'
              constructor
              · rintro a (- | ⟨-, - | ⟨-, ha⟩⟩)
                · trivial
                · exact ⟨done, r, rs, hat.split, rfl, congrArg _ hat.pos_eq, rfl⟩
                · exact htrace a ha
              · intro rm' max_lsn' stop hres
                obtain ⟨hfile, hbuffer, hboundary⟩ := hresult rm' max_lsn' stop hres
                exact ⟨hfile.trans (hand_log_file ..), hbuffer.trans (hand_buffer ..), hboundary⟩
            · rw [redoChunkTrace_cut h hr hin hfit, redoChunk_cut h hr hin hfit]
              refine ⟨List.forall_mem_nil _, fun rm' max_lsn' stop hres => ?_⟩
              obtain ⟨rfl, rfl, rfl⟩ : rm = rm' ∧ max_lsn = max_lsn' ∧ inner = stop := by simpa using hres
              exact ⟨rfl, rfl, done, r :: rs, hat⟩
      · rw [redoChunkTrace_outside h hin, redoChunk_outside h hin]
        exact ⟨List.forall_mem_nil _, fun _ _ _ hres => nomatch hres⟩

/-- **The outer loop** reads at boundaries. -/
theorem redoFile_boundary (hwf : ∀ r ∈ all, r.WellFormed) (hsmall : (bytesOf all).length < 2 ^ 31)
    (hfile : rm.log_file = bytesOf all) (hbuf : rm.buffer_.length = LOG_BUFFER_SIZE) (hat : Boundary all done rs offset) :
    ∀ a ∈ redoFileTrace fuel rm max_lsn offset, a.At all := by
  induction fuel generalizing rm max_lsn offset done rs with
  | zero => exact fun a ha => by cases ha
  | succ fuel ih =>
      have hread : (Access.ReadLog offset).At all := ⟨done, rs, hat.split, congrArg _ hat.pos_eq⟩
      cases hbuffer : LogStorage.ReadLog rm.log_file rm.buffer_ LOG_BUFFER_SIZE offset with
      | none =>
          rw [redoFileTrace_end hbuffer]
          exact List.forall_mem_singleton.mpr hread
      | some buffer =>
          have hdrop : rm.log_file.drop offset = bytesOf rs := by
            rw [hfile, hat.split, bytesOf_append, hat.pos_eq, List.drop_left]
          have hshows : Shows (rm.withBuffer buffer).buffer_ 0 (bytesOf rs) := by
            rw [ReadLog_chunk hbuffer]
            exact shows_chunk hbuf hdrop
          obtain ⟨htrace, hresult⟩ :=
            @redoChunk_boundary offset fuel 0 (rm.withBuffer buffer) max_lsn rs all done hwf hsmall hshows hat
          obtain ⟨rest, heq, hrest⟩ := @redoFileTrace_cases rm max_lsn fuel offset buffer hbuffer
          rw [heq, List.forall_mem_cons, List.forall_mem_append]
          refine ⟨hread, htrace, ?_⟩
          rcases hrest with rfl | ⟨rm', max_lsn', stop, pos, hres, hadd, rfl⟩
          · exact List.forall_mem_nil _
          · obtain ⟨hfile', hbuffer', done', rs', hat'⟩ := hresult rm' max_lsn' stop hres
            obtain ⟨rfl, -⟩ := intAdd_eq hadd
            have hbuf' : rm'.buffer_.length = LOG_BUFFER_SIZE := by
              rw [hbuffer']
              exact hshows.length
            exact ih (hfile'.trans hfile) hbuf' hat'

/-! ## The whole file -/

theorem knowsEnd_of_lt (h : file.length < 2 ^ 31) : KnowsEnd file where
  returns log_data size offset hoff := by
    rw [isSome_ReadLog file log_data size hoff, GetFileSize_eq h]
    exact Nat.cast_lt
  fills log_data size offset b hoff hb := by
    have hmore : ¬ toSizeT (LogStorage.GetFileSize file) ≤ toSizeT offset := by
      intro hend
      rw [LogStorage.ReadLog_end _ hend] at hb
      cases hb
    exact Option.some.inj (hb.symm.trans (LogStorage.ReadLog_eq size hmore))
  redo rs hwf hfile buffer fuel := by
    subst hfile
    exact redoFile_boundary hwf h rfl Vector.length_toList ⟨(List.nil_append rs).symm, rfl⟩

/-- **Reading the log knows where the file ends** if and only if the size of the file is an `int`. -/
theorem knowsEnd_iff (file : Bytes) (hlen : file.length < 2 ^ 63) : KnowsEnd file ↔ file.length < 2 ^ 31 := by
  refine ⟨fun h => ?_, knowsEnd_of_lt⟩
  by_contra hlarge
  rcases GetFileSize_wrong (not_lt.mp hlarge) hlen with hwrong | hwrong
  · -- behind the end there is more
    have hoff : file.length < 2 ^ 64 := by omega
    have hread := (isSome_ReadLog file [] 0 hoff).mpr hwrong
    exact absurd ((h.returns [] 0 file.length hoff).mp hread) (lt_irrefl _)
  · -- before the end there is nothing
    obtain ⟨n, hn⟩ := Int.eq_ofNat_of_zero_le (show 0 ≤ toSizeT (LogStorage.GetFileSize file) by unfold toSizeT; omega)
    have hoff : n < 2 ^ 64 := by omega
    have hread := (h.returns [] 0 n hoff).mpr (by omega)
    rw [isSome_ReadLog file [] _ hoff] at hread
    omega

/-- A transaction that puts a key and commits. -/
def committedPut : List LogRecord :=
  [(LogRecord.ofTxn 1 INVALID_LSN .BEGIN).SetLsn 0, (LogRecord.ofStrings 1 0 .INSERT [97] [49]).SetLsn 1,
    (LogRecord.ofTxn 1 1 .COMMIT).SetLsn 2]

theorem knowsEnd_iff_committedPut : KnowsEnd (bytesOf committedPut) := (knowsEnd_iff _ (by decide)).mpr (by decide)

/-- A file of `2 ^ 32` bytes has the size `0`: nothing of it is read. -/
theorem not_knowsEnd_fourGiB : LogStorage.ReadLog (List.replicate (2 ^ 32) 0) [] 0 0 = none ∧
    ¬ KnowsEnd (List.replicate (2 ^ 32) 0) := by
  have hlength : (List.replicate (2 ^ 32) (0 : UInt8)).length = 2 ^ 32 := List.length_replicate
  have hsize : LogStorage.GetFileSize (List.replicate (2 ^ 32) 0) = 0 := by
    rw [LogStorage.GetFileSize, hlength]
    rfl
  have hnone : LogStorage.ReadLog (List.replicate (2 ^ 32) 0) [] 0 0 = none :=
    LogStorage.ReadLog_end _ (by rw [hsize]; rfl)
  refine ⟨hnone, fun h => ?_⟩
  have hread := (h.returns [] 0 0 (by decide)).mpr (by rw [hlength]; decide)
  rw [Nat.cast_zero, hnone] at hread
  cases hread

end RecoveryManager
end DDBMS
