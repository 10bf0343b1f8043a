import DDBMS.Recovery.TornTail

/-!
# `Recovery.RedoEnds` — when the loops of `Redo` come to an end

The outer loop goes on by what the inner loop has read, and the inner loop by the size fields that it finds in the file,
whatever they are: it stays where it is at a chunk that does not start with a record, and goes back when a size is so large
that `size + inner_offset` wraps around. So both loops end if and only if the size fields of every chunk that is reached lead
to a place behind its first byte (`EveryChunkAdvances`).

Zeros, which a crash leaves where the file has grown and its data has not been written, are no record (`zeros_turn`).
-/

namespace DDBMS
namespace RecoveryManager

/-- The nested loops end, and do nothing undefined. -/
def LoopsEnd (file : Bytes) (buffer : Vector UInt8 LOG_BUFFER_SIZE) : Prop :=
  ∃ fuel res, redoFile fuel (init file buffer) INVALID_LSN 0 = some res

/-- What a chunk of the file has: its bytes, and zeros behind its end. -/
def window (file : Bytes) (offset : Nat) : Bytes :=
  (file.drop offset ++ List.replicate LOG_BUFFER_SIZE 0).take LOG_BUFFER_SIZE

/-- With this size field there is no record. -/
def NoRecord (size inner : Nat) : Prop := size = 0 ∨ LOG_BUFFER_SIZE < (size + inner) % 2 ^ 32

/-- In the chunk at `offset`, the size fields lead from one place to another, at which there is no record. Each record on the
    way is in the buffer as a whole, and its place is an `int`. -/
inductive LeadsTo (file : Bytes) (offset : Nat) : Nat → Nat → Prop
  | stop {inner size : Nat} (hsize : readAt 4 (window file offset) inner = some size) (hno : NoRecord size inner) :
      LeadsTo file offset inner inner
  | record {inner size stop : Nat} (hsize : readAt 4 (window file offset) inner = some size) (hrec : ¬ NoRecord size inner)
      (hwhole : (LogRecord.DeserializeFrom ((window file offset).drop inner)).isSome) (hpos : offset + inner < 2 ^ 31)
      (hrest : LeadsTo file offset ((size + inner) % 2 ^ 32) stop) : LeadsTo file offset inner stop

/-- The places of the file where a chunk is read. -/
inductive ChunkStart (file : Bytes) : Nat → Prop
  | zero : ChunkStart file 0
  | next {offset stop : Nat} (h : ChunkStart file offset) (hmore : offset < file.length) (hlead : LeadsTo file offset 0 stop)
      (hpos : offset + stop < 2 ^ 31) : ChunkStart file (offset + stop)

/-- Every chunk starts with a record, and its size fields lead to an end. -/
def EveryChunkAdvances (file : Bytes) : Prop :=
  ∀ offset, ChunkStart file offset → offset < file.length →
    ∃ stop, LeadsTo file offset 0 stop ∧ 0 < stop ∧ offset + stop < 2 ^ 31

variable {file buffer : Bytes} {rm rm' : RecoveryManager} {max_lsn max_lsn' : Int} {fuel fuel' offset inner stop : Nat}

theorem length_window (file : Bytes) (offset : Nat) : (window file offset).length = LOG_BUFFER_SIZE := by
  rw [window, List.length_take, List.length_append, List.length_replicate]
  omega

theorem chunkAt_eq_window (hbuf : buffer.length = LOG_BUFFER_SIZE) (offset : Nat) :
    chunkAt file buffer offset = window file offset := memcpy_all ((length_window file offset).trans hbuf.symm)

theorem ChunkStart.lt (h : ChunkStart file offset) : offset < 2 ^ 31 := by
  cases h with
  | zero => exact Nat.two_pow_pos 31
  | next _ _ _ hpos => exact hpos

/-! ## The inner loop -/

/-- More fuel does no harm. -/
theorem redoChunk_mono {offset : Int} {res : RecoveryManager × Int × Nat} (hle : fuel ≤ fuel')
    (h : redoChunk fuel rm max_lsn offset inner = some res) : redoChunk fuel' rm max_lsn offset inner = some res := by
  induction fuel generalizing fuel' rm max_lsn inner with
  | zero => cases h
  | succ fuel ih =>
      obtain ⟨fuel', rfl⟩ : ∃ n, fuel' = n + 1 := ⟨fuel' - 1, by omega⟩
      rw [redoChunk, Option.bind_eq_bind, Option.bind_eq_some_iff] at h ⊢
      obtain ⟨size, hsize, h⟩ := h
      refine ⟨size, hsize, ?_⟩
      split at h
      · rename_i hno
        rw [if_pos hno]
        exact h
      · rename_i hrec
        rw [if_neg hrec]
        rw [Option.bind_eq_bind, Option.bind_eq_some_iff] at h ⊢
        obtain ⟨log, hlog, h⟩ := h
        refine ⟨log, hlog, ?_⟩
        rw [Option.bind_eq_bind, Option.bind_eq_some_iff] at h ⊢
        obtain ⟨pos, hpos, h⟩ := h
        exact ⟨pos, hpos, ih (by omega) h⟩

/-- The inner loop follows the size fields. -/
theorem leadsTo_of_redoChunk (hbuf : rm.buffer_ = window file offset)
    (h : redoChunk fuel rm max_lsn offset inner = some (rm', max_lsn', stop)) : LeadsTo file offset inner stop ∧
      rm'.log_file = rm.log_file ∧ rm'.buffer_ = rm.buffer_ := by
  induction fuel generalizing rm max_lsn inner with
  | zero => cases h
  | succ fuel ih =>
      rw [redoChunk, Option.bind_eq_bind, Option.bind_eq_some_iff] at h
      obtain ⟨size, hsize, h⟩ := h
      rw [hbuf] at hsize
      split at h
      · rename_i hno
        cases h
        exact ⟨.stop hsize hno, rfl, rfl⟩
      · rename_i hrec
        rw [Option.bind_eq_bind, Option.bind_eq_some_iff] at h
        obtain ⟨log, hlog, h⟩ := h
        rw [Option.bind_eq_bind, Option.bind_eq_some_iff] at h
        obtain ⟨pos, hpos, h⟩ := h
        obtain ⟨rfl, -, hpos⟩ := intAdd_eq hpos
        rw [hbuf] at hlog
        have hframe := RedoLog_frame ((rm.remember log.lsn_ (offset + inner) size).note log) log
        obtain ⟨hlead, hfile, hbuffer⟩ := ih (hframe.2.1.trans hbuf) h
        exact ⟨.record hsize hrec (Option.isSome_of_eq_some hlog) (by omega) hlead, hfile.trans hframe.1,
          hbuffer.trans hframe.2.1⟩

/-- Where the size fields lead to, the inner loop ends. -/
theorem LeadsTo.redoChunk (h : LeadsTo file offset inner stop) (hbuf : rm.buffer_ = window file offset) (max_lsn : Int) :
    ∃ fuel rm' max_lsn', redoChunk fuel rm max_lsn offset inner = some (rm', max_lsn', stop) := by
  induction h generalizing rm max_lsn with
  | @stop inner size hsize hno =>
      refine ⟨1, rm, max_lsn, ?_⟩
      rw [RecoveryManager.redoChunk, hbuf, hsize, Option.bind_eq_bind, Option.bind_some]
      exact if_pos hno
  | @record inner size stop hsize hrec hwhole hpos _ ih =>
      obtain ⟨log, hlog⟩ := Option.isSome_iff_exists.mp hwhole
      have hframe := RedoLog_frame ((rm.remember log.lsn_ ((offset + inner : Nat) : Int) size).note log) log
      obtain ⟨fuel, rm', max_lsn', hrest⟩ := ih (hframe.2.1.trans hbuf) (max max_lsn log.lsn_)
      refine ⟨fuel + 1, rm', max_lsn', ?_⟩
      rw [RecoveryManager.redoChunk, hbuf, hsize, Option.bind_eq_bind, Option.bind_some]
      refine (if_neg hrec).trans ?_
      rw [hlog, Option.bind_eq_bind, Option.bind_some, intAdd_of_lt hpos, Option.bind_eq_bind, Option.bind_some]
      exact hrest

/-! ## The outer loop -/

theorem redoFile_mono {offset : Int} {res : RecoveryManager × Int} (hle : fuel ≤ fuel')
    (h : redoFile fuel rm max_lsn offset = some res) : redoFile fuel' rm max_lsn offset = some res := by
  induction fuel generalizing fuel' rm max_lsn offset with
  | zero => cases h
  | succ fuel ih =>
      obtain ⟨fuel', rfl⟩ : ∃ n, fuel' = n + 1 := ⟨fuel' - 1, by omega⟩
      rw [redoFile] at h ⊢
      cases hread : LogStorage.ReadLog rm.log_file rm.buffer_ LOG_BUFFER_SIZE offset with
      | none =>
          rw [hread] at h
          exact h
      | some buffer =>
          rw [hread] at h
          dsimp only at h ⊢
          rw [Option.bind_eq_bind, Option.bind_eq_some_iff] at h ⊢
          obtain ⟨⟨rm₁, max_lsn₁, inner⟩, hchunk, h⟩ := h
          refine ⟨_, redoChunk_mono (by omega) hchunk, ?_⟩
          rw [Option.bind_eq_bind, Option.bind_eq_some_iff] at h ⊢
          obtain ⟨offset₁, hoffset, h⟩ := h
          exact ⟨offset₁, hoffset, ih (by omega) h⟩

/-- The outer loop reads this file. -/
structure Reads (file : Bytes) (rm : RecoveryManager) : Prop where
  log_file : rm.log_file = file
  buffer_ : rm.buffer_.length = LOG_BUFFER_SIZE

/-- **A turn of the outer loop**, when the rest comes to an end. -/
theorem redoFile_turn {res : RecoveryManager × Int} (h : redoFile (fuel + 1) rm max_lsn offset = some res) (hat : Reads file rm)
    (hlen : file.length < 2 ^ 31) (hmore : offset < file.length) :
    ∃ stop rm' max_lsn', LeadsTo file offset 0 stop ∧ offset + stop < 2 ^ 31 ∧ Reads file rm' ∧
      redoFile fuel rm' max_lsn' (offset + stop : Nat) = some res := by
  obtain ⟨rfl, hbuf⟩ := hat
  rw [redoFile_step hmore (by omega) (by omega), chunkAt_eq_window hbuf] at h
  obtain ⟨⟨rm₁, max_lsn₁, stop⟩, hchunk, h⟩ := Option.bind_eq_some_iff.mp h
  obtain ⟨offset₁, hoffset, h⟩ := Option.bind_eq_some_iff.mp h
  obtain ⟨rfl, -, hpos⟩ := intAdd_eq hoffset
  obtain ⟨hlead, hfile, hbuffer⟩ := leadsTo_of_redoChunk rfl hchunk
  refine ⟨stop, rm₁, max_lsn₁, hlead, by dsimp only at hpos; omega, ⟨hfile, ?_⟩, h⟩
  rw [hbuffer]
  exact length_window _ _

/-- A loop that ends does not stay where it is. -/
theorem advances_of_redoFile {res : RecoveryManager × Int} (h : redoFile fuel rm max_lsn offset = some res)
    (hat : Reads file rm) (hlen : file.length < 2 ^ 31) (hmore : offset < file.length) :
    ∃ stop, LeadsTo file offset 0 stop ∧ 0 < stop ∧ offset + stop < 2 ^ 31 := by
  induction fuel generalizing rm max_lsn with
  | zero => cases h
  | succ fuel ih =>
      obtain ⟨stop, rm', max_lsn', hlead, hpos, hat', h⟩ := redoFile_turn h hat hlen hmore
      rcases Nat.eq_zero_or_pos stop with rfl | hstop
      · exact ih h hat'
      · exact ⟨stop, hlead, hstop, hpos⟩

/-- The size fields lead to one place. -/
theorem LeadsTo.unique {stop' : Nat} (h : LeadsTo file offset inner stop) (h' : LeadsTo file offset inner stop') :
    stop = stop' := by
  induction h with
  | stop hsize hno =>
      cases h' with
      | stop => rfl
      | record hsize' hrec =>
          obtain rfl := Option.some.inj (hsize.symm.trans hsize')
          exact absurd hno hrec
  | record hsize hrec _ _ _ ih =>
      cases h' with
      | stop hsize' hno =>
          obtain rfl := Option.some.inj (hsize.symm.trans hsize')
          exact absurd hno hrec
      | record hsize' _ _ _ hrest =>
          obtain rfl := Option.some.inj (hsize.symm.trans hsize')
          exact ih hrest

/-- Every place where a chunk is read is one from which the outer loop ends. -/
theorem ends_of_chunkStart {vector : Vector UInt8 LOG_BUFFER_SIZE} (hend : LoopsEnd file vector) (hlen : file.length < 2 ^ 31)
    (h : ChunkStart file offset) : ∃ fuel rm max_lsn res, Reads file rm ∧ redoFile fuel rm max_lsn offset = some res := by
  induction h with
  | zero =>
      obtain ⟨fuel, res, hres⟩ := hend
      exact ⟨fuel, _, _, res, ⟨rfl, Vector.length_toList⟩, hres⟩
  | next _ hmore hlead _ ih =>
      obtain ⟨fuel, rm, max_lsn, res, hat, hres⟩ := ih
      cases fuel with
      | zero => cases hres
      | succ fuel =>
          obtain ⟨stop, rm', max_lsn', hlead', -, hat', hrest⟩ := redoFile_turn hres hat hlen hmore
          obtain rfl := hlead.unique hlead'
          exact ⟨fuel, rm', max_lsn', res, hat', hrest⟩

/-- **Progress**: what is left of the file gets shorter. -/
theorem redoFile_ends (hadv : EveryChunkAdvances file) (hlen : file.length < 2 ^ 31) (hstart : ChunkStart file offset)
    (hat : Reads file rm) (max_lsn : Int) : ∃ fuel res, redoFile fuel rm max_lsn offset = some res := by
  induction hn : file.length - offset using Nat.strong_induction_on generalizing offset rm max_lsn with
  | _ n ih =>
  have hoff := hstart.lt
  by_cases hmore : offset < file.length
  · obtain ⟨stop, hlead, hstop, hpos⟩ := hadv offset hstart hmore
    obtain ⟨rfl, hbuf⟩ := hat
    have hfilled : (rm.withBuffer (window rm.log_file offset)).buffer_ = window rm.log_file offset := rfl
    obtain ⟨fuel, rm₁, max_lsn₁, hchunk⟩ := hlead.redoChunk hfilled max_lsn
    obtain ⟨-, hfile, hbuffer⟩ := leadsTo_of_redoChunk rfl hchunk
    obtain ⟨fuel', res, hrest⟩ := ih (rm.log_file.length - (offset + stop)) (by omega) (hstart.next hmore hlead hpos)
      ⟨hfile, by rw [hbuffer]; exact length_window _ _⟩ max_lsn₁ rfl
    -- enough for the inner loop and for the rest
    refine ⟨max fuel fuel' + 1, res, ?_⟩
    rw [redoFile_step hmore (by omega) hoff, chunkAt_eq_window hbuf, redoChunk_mono (Nat.le_max_left _ _) hchunk,
      Option.bind_some, intAdd_of_lt hpos, Option.bind_some]
    exact redoFile_mono (Nat.le_max_right _ _) hrest
  · exact ⟨1, _, by rw [← hat.log_file] at hmore; exact redoFile_end (not_lt.mp hmore) hoff⟩

/-- **The loops of `Redo` end** if and only if every chunk that is read starts with a record and its size fields lead to an
    end. -/
theorem redo_ends_iff (file : Bytes) (hlen : file.length < 2 ^ 31) (buffer : Vector UInt8 LOG_BUFFER_SIZE) :
    LoopsEnd file buffer ↔ EveryChunkAdvances file := by
  constructor
  · intro hend offset hstart hmore
    obtain ⟨fuel, rm, max_lsn, res, hat, hres⟩ := ends_of_chunkStart hend hlen hstart
    exact advances_of_redoFile hres hat hlen hmore
  · intro hadv
    exact redoFile_ends hadv hlen .zero ⟨rfl, Vector.length_toList⟩ INVALID_LSN

/-- A log of whole records. -/
theorem redo_ends_iff_shortLog : EveryChunkAdvances (bytesOf shortLog) := by
  refine (redo_ends_iff (bytesOf shortLog) (by decide) (Vector.replicate _ 0)).mp ?_
  have hfuel : shortLog.length + 1 < 90 := by decide
  rcases Redo_spec shortLog_readable (by decide) hfuel (Vector.replicate _ 0) with ⟨-, hbad⟩ | ⟨⟨b, -, hsome⟩, -⟩
  · exact absurd ⟨by decide, by decide, by decide⟩ hbad
  · rw [Redo, Option.bind_eq_bind, Option.bind_eq_some_iff] at hsome
    obtain ⟨res, hres, -⟩ := hsome
    exact ⟨90, res, hres⟩

/-! ## Zeros -/

/-- In a file of zeros, a turn of the outer loop changes nothing. -/
theorem zeros_turn {n : Nat} (hn : 0 < n) (hlen : n < 2 ^ 31) (fuel : Nat) :
    redoFile (fuel + 2) (init (List.replicate n 0) (Vector.replicate _ 0)) INVALID_LSN 0 =
      redoFile (fuel + 1) (init (List.replicate n 0) (Vector.replicate _ 0)) INVALID_LSN 0 := by
  generalize hrm : init (List.replicate n 0) (Vector.replicate _ 0) = rm
  have hfile : rm.log_file = List.replicate n 0 := by rw [← hrm]; rfl
  have hbuf : rm.buffer_ = List.replicate LOG_BUFFER_SIZE 0 := by rw [← hrm]; exact Vector.toList_replicate
  have hlength : rm.log_file.length = n := by rw [hfile, List.length_replicate]
  -- what is read is what the buffer had
  have hread : chunkAt rm.log_file rm.buffer_ 0 = rm.buffer_ := by
    rw [chunkAt_eq_window (by rw [hbuf, List.length_replicate]), window, hfile, List.drop_zero,
      List.replicate_append_replicate, List.take_replicate, min_eq_left (Nat.le_add_left _ _), hbuf]
  have hshows : Shows rm.buffer_ 0 [] := by
    refine ⟨by rw [hbuf, List.length_replicate], Nat.zero_le _, ?_⟩
    rw [hbuf, List.drop_zero, List.nil_append, List.take_replicate, Nat.sub_zero, min_self]
  have hsize := LOG_BUFFER_SIZE_eq
  have hstep : redoFile (fuel + 1 + 1) rm INVALID_LSN (0 : Nat) = _ :=
    redoFile_step (by omega) (show rm.log_file.length < 2 ^ 32 by omega) (by omega)
  rw [hread, show rm.withBuffer rm.buffer_ = rm from rfl, redoChunk_end hshows (by omega), Option.bind_some] at hstep
  dsimp only at hstep
  rw [intAdd_of_lt (Nat.two_pow_pos 31), Option.bind_some] at hstep
  exact hstep

/-- So no number of turns is enough. -/
theorem zeros_none {n : Nat} (hn : 0 < n) (hlen : n < 2 ^ 31) (fuel : Nat) :
    redoFile fuel (init (List.replicate n 0) (Vector.replicate _ 0)) INVALID_LSN 0 = none := by
  induction fuel with
  | zero => rfl
  | succ fuel ih =>
      cases fuel with
      | zero =>
          have hmore : 0 < (init (List.replicate n 0) (Vector.replicate _ 0)).log_file.length := by
            show 0 < (List.replicate n (0 : UInt8)).length
            rwa [List.length_replicate]
          have hmax : (init (List.replicate n 0) (Vector.replicate _ 0)).log_file.length < 2 ^ 32 := by
            show (List.replicate n (0 : UInt8)).length < 2 ^ 32
            rw [List.length_replicate]
            omega
          exact redoFile_step hmore hmax (Nat.two_pow_pos 31)
      | succ fuel => exact (zeros_turn hn hlen fuel).trans ih

/-- A file that has grown by one byte, which was not written: every turn of the outer loop is like the one before. -/
theorem zeros_never_end :
    (∀ fuel, redoFile (fuel + 2) (init [0] (Vector.replicate _ 0)) INVALID_LSN 0 =
      redoFile (fuel + 1) (init [0] (Vector.replicate _ 0)) INVALID_LSN 0) ∧
    ¬ ∀ (file : Bytes) (buffer : Vector UInt8 LOG_BUFFER_SIZE), file.length < 2 ^ 31 → LoopsEnd file buffer := by
  refine ⟨@zeros_turn 1 Nat.one_pos (by decide), fun hall => ?_⟩
  obtain ⟨fuel, res, hres⟩ := hall [0] (Vector.replicate _ 0) (by decide)
  rw [show ([0] : Bytes) = List.replicate 1 0 from rfl, zeros_none Nat.one_pos (by decide)] at hres
  cases hres

end RecoveryManager
end DDBMS
