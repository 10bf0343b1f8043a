import DDBMS.Recovery.RecoveryTrace
import DDBMS.Recovery.RedoExact

/-!
# `Recovery.AssertValid` — the assertion of `DeserializeFrom`

The last line of `DeserializeFrom` is `assert(*reinterpret_cast<const int32_t *>(storage) == res.GetSize())`. By then `storage`
points behind the record, so what is compared with the size of the record is the size of the next one, or the zeros behind
the last one, or what is not in the buffer any more (`asserted_iff`).

A call that passes is followed by a record of the same size, which is read next, and the last record of the file is followed
by none. So `Redo` passes the assertions if and only if it makes no call, which takes a file of which nothing is read
(`NothingRead`).
-/

namespace DDBMS
namespace LogRecord

/-- Where `storage` points to behind the record. -/
def readEnd (storage : Bytes) : Option Nat := do
  let type ← readAt 4 storage 20
  match LogRecordType.ofCode type with
  | some .INSERT | some .DELETE => do
    let key_size ← readAt 4 storage HEADER_SIZE
    let value_size ← readAt 4 storage (HEADER_SIZE + 4 + key_size)
    some (HEADER_SIZE + 4 + key_size + 4 + value_size)
  | _ => some HEADER_SIZE

/-- The last assertion of `DeserializeFrom` passes. -/
def Asserted (storage : Bytes) : Prop :=
  ∃ res stop size, DeserializeFrom storage = some res ∧ readEnd storage = some stop ∧ readAt 4 storage stop = some size ∧
    toInt32 size = res.size_

variable {r : LogRecord} {c : Bytes}

/-- The pointer is behind the record. -/
theorem readEnd_encode (h : r.Constructed) (c : Bytes) : readEnd (r.encode ++ c) = some r.encode.length := by
  cases h with
  | txn txn_id prev_lsn type lsn h =>
      have htuple : ¬ ((ofTxn txn_id prev_lsn type).SetLsn lsn).IsTuple := by
        rcases h with rfl | rfl | rfl | rfl <;> simp [IsTuple, SetLsn, ofTxn]
      rw [readEnd, encode, if_neg htuple, read_log_type, Option.bind_eq_bind, Option.bind_some,
        LogRecordType.ofCode_code, length_header]
      rcases h with rfl | rfl | rfl | rfl <;> rfl
  | tuple txn_id prev_lsn type key value lsn h =>
      generalize hr : (ofStrings txn_id prev_lsn type key value).SetLsn lsn = r
      have htuple : r.IsTuple := by
        subst hr
        exact h
      have hkey : r.key.length = r.key_size_.toNat := by
        subst hr
        exact length_take_ofNat key
      have hvalue : r.value.length = r.value_size_.toNat := by
        subst hr
        exact length_take_ofNat value
      -- the sizes stand where the reader looks
      have h₁ := readAt_mid (w := 4) r.key_size_.toNat_lt r.header (r.key ++ (leBytes 4 r.value_size_.toNat ++ (r.value ++ c)))
      have h₂ := readAt_mid (w := 4) r.value_size_.toNat_lt (r.header ++ (leBytes 4 r.key_size_.toNat ++ r.key)) (r.value ++ c)
      simp only [List.length_append, length_leBytes, length_header, hkey, List.append_assoc, ← Nat.add_assoc] at h₁ h₂
      rw [readEnd, length_encode, if_pos htuple, hkey, hvalue, encode, if_pos htuple]
      simp only [List.append_assoc, read_log_type, Option.bind_eq_bind, Option.bind_some, LogRecordType.ofCode_code]
      have htype : r.log_type_ = .INSERT ∨ r.log_type_ = .DELETE := htuple
      rcases htype with htype | htype <;> simp only [htype, h₁, h₂, Option.bind_some]

/-- A read behind some bytes. -/
theorem readAt_behind (w : Nat) (a c : Bytes) : readAt w (a ++ c) a.length = readAt w c 0 := by
  rw [readAt_drop w (by simp), List.drop_left]

/-- What the assertion is about: the four bytes behind the record. -/
theorem WellFormed.asserted_iff (h : r.WellFormed) (htype : r.log_type_ ≠ .PREPARED) (c : Bytes) :
    Asserted (r.encode ++ c) ↔ ∃ size, readAt 4 c 0 = some size ∧ toInt32 size = r.encode.length := by
  have hback : r.readBack.size_ = r.encode.length := by
    rw [readBack_of_ne htype]
    exact h.size_eq
  have hread := readAt_behind 4 r.encode c
  constructor
  · rintro ⟨res, stop, size, hres, hstop, hsize, heq⟩
    obtain rfl := Option.some.inj ((h.deserialize c).symm.trans hres)
    obtain rfl := Option.some.inj ((readEnd_encode h.constructed c).symm.trans hstop)
    exact ⟨size, hread.symm.trans hsize, heq.trans hback⟩
  · rintro ⟨size, hsize, heq⟩
    exact ⟨_, _, size, h.deserialize c, readEnd_encode h.constructed c, hread.trans hsize, heq.trans hback.symm⟩

end LogRecord

namespace RecoveryManager

def Access.Passes : Access → Prop
  | .DeserializeFrom storage => LogRecord.Asserted storage
  | .ReadLog _ | .lsn_mapping_ _ _ _ => True

/-- Every call of `DeserializeFrom` in a recovery passes its last assertion. -/
def AssertsPass (file : Bytes) : Prop :=
  ∀ (buffer : Vector UInt8 LOG_BUFFER_SIZE) (fuel : Nat), ∀ a ∈ ariesTrace fuel (init file buffer), a.Passes

/-- `Redo` reads no record of the log: the size of the file is `0` as an `int`, or the first record is larger than the
    buffer. -/
def NothingRead (rs : List LogRecord) : Prop :=
  (bytesOf rs).length % 2 ^ 32 = 0 ∨ ∃ r q, rs = r :: q ∧ LOG_BUFFER_SIZE < r.encode.length

variable {buffer : Bytes} {rm : RecoveryManager} {r : LogRecord} {rs : List LogRecord} {max_lsn : Int}
  {fuel inner offset : Nat}

/-! ## A log that is read -/

/-- **A call that passes** is followed by a record of the same size in the buffer. -/
theorem Shows.passes (h : Shows buffer inner (bytesOf (r :: rs))) (hwf : ∀ s ∈ r :: rs, s.WellFormed)
    (htype : r.log_type_ ≠ .PREPARED) (hfit : inner + r.encode.length ≤ LOG_BUFFER_SIZE)
    (hpass : LogRecord.Asserted (buffer.drop inner)) :
    inner + r.encode.length + 4 ≤ LOG_BUFFER_SIZE ∧ ∃ s q, rs = s :: q ∧ s.encode.length = r.encode.length := by
  have htail := h.tail hfit
  have hr := hwf r List.mem_cons_self
  have hheader := r.header_le_encode
  have h24 : LogRecord.HEADER_SIZE = 24 := rfl
  have hcut : buffer.drop inner = r.encode ++ buffer.drop (inner + r.encode.length) := by
    rw [htail.eq, h.eq, bytesOf_cons, List.append_assoc, List.take_append, List.take_of_length_le (by omega), Nat.sub_add_eq]
  rw [hcut, hr.asserted_iff htype, ← readAt_drop 4 (by rw [h.length]; exact hfit)] at hpass
  obtain ⟨size, hsize, heq⟩ := hpass
  by_cases hin : inner + r.encode.length + 4 ≤ LOG_BUFFER_SIZE
  · refine ⟨hin, ?_⟩
    cases rs with
    | nil =>
        -- zeros are no size
        obtain rfl := Option.some.inj ((htail.probe_end hin).symm.trans hsize)
        have hzero : toInt32 0 = 0 := rfl
        omega
    | cons s q =>
        have hs := hwf s (List.mem_cons_of_mem _ List.mem_cons_self)
        have hlt := hs.lt
        obtain rfl := Option.some.inj ((htail.probe_record hs hin).symm.trans hsize)
        rw [toInt32, wrap32_of_lt (by omega) (by omega)] at heq
        exact ⟨s, q, rfl, by omega⟩
  · rw [htail.probe_outside hin] at hsize
    cases hsize

/-- **The inner loop** leaves a record of the same size for the next chunk. -/
theorem redoChunk_passes (hwf : ∀ s ∈ r :: rs, s.WellFormed) (htypes : ∀ s ∈ r :: rs, s.log_type_ ≠ .PREPARED)
    (h : Shows rm.buffer_ inner (bytesOf (r :: rs))) (hfit : inner + r.encode.length ≤ LOG_BUFFER_SIZE)
    (hfuel : (r :: rs).length < fuel) (hlen : offset + inner + (bytesOf (r :: rs)).length < 2 ^ 31)
    (hpass : ∀ a ∈ redoChunkTrace fuel rm max_lsn offset inner, a.Passes) :
    ∃ p s q rm' max_lsn', r :: rs = p ++ s :: q ∧ p ≠ [] ∧ s.encode.length = r.encode.length ∧
      redoChunk fuel rm max_lsn offset inner = some (rm', max_lsn', inner + (bytesOf p).length) ∧
      rm'.log_file = rm.log_file ∧ rm'.buffer_ = rm.buffer_ := by
  induction rs generalizing r inner fuel rm max_lsn with
  | nil =>
      obtain ⟨fuel, rfl⟩ : ∃ n, fuel = n + 1 := ⟨fuel - 1, by omega⟩
      rw [redoChunkTrace_hand h (hwf r List.mem_cons_self) hfit (by omega), List.forall_mem_cons] at hpass
      obtain ⟨-, s, q, hnil, -⟩ := h.passes hwf (htypes r List.mem_cons_self) hfit hpass.1
      cases hnil
  | cons t rs ih =>
      obtain ⟨fuel, rfl⟩ : ∃ n, fuel = n + 1 := ⟨fuel - 1, by omega⟩
      have hr := hwf r List.mem_cons_self
      have hlength : (bytesOf (r :: t :: rs)).length = r.encode.length + (bytesOf (t :: rs)).length := by
        rw [bytesOf_cons, List.length_append]
      have hpos : offset + inner < 2 ^ 31 := by omega
      rw [redoChunkTrace_hand h hr hfit hpos, List.forall_mem_cons, List.forall_mem_cons] at hpass
      obtain ⟨hself, -, hrest⟩ := hpass
      obtain ⟨hin, s, q, hcons, hsame⟩ := h.passes hwf (htypes r List.mem_cons_self) hfit hself
      obtain ⟨rfl, rfl⟩ := List.cons.inj hcons
      have hwf' : ∀ s ∈ t :: rs, s.WellFormed := fun s hs => hwf s (List.mem_cons_of_mem _ hs)
      have hnext : Shows (rm.hand (offset + inner) r).buffer_ (inner + r.encode.length) (bytesOf (t :: rs)) := by
        rw [hand_buffer]
        exact h.tail hfit
      rw [redoChunk_hand h hr (by omega) hfit hpos]
      by_cases hfit' : inner + r.encode.length + t.encode.length ≤ LOG_BUFFER_SIZE
      · obtain ⟨p, s, q, rm', max_lsn', hsplit, -, hsize, hresult, hfile, hbuffer⟩ :=
          ih hwf' (fun s hs => htypes s (List.mem_cons_of_mem _ hs)) hnext hfit' (by simpa using hfuel) (by omega) hrest
        refine ⟨r :: p, s, q, rm', max_lsn', ?_, List.cons_ne_nil _ _, hsize.trans hsame, ?_,
          hfile.trans (hand_log_file ..), hbuffer.trans (hand_buffer ..)⟩
        · rw [hsplit, List.cons_append]
        · rw [hresult, bytesOf_cons, List.length_append, Nat.add_assoc]
      · -- the record of the same size is cut by the end of the buffer
        obtain ⟨fuel, rfl⟩ : ∃ n, fuel = n + 1 := ⟨fuel - 1, by simp at hfuel; omega⟩
        rw [redoChunk_cut hnext (hwf' t List.mem_cons_self) hin hfit']
        refine ⟨[r], t, rs, rm.hand (offset + inner) r, max max_lsn r.lsn_, rfl, List.cons_ne_nil _ _, hsame, ?_,
          hand_log_file .., hand_buffer ..⟩
        rw [bytesOf_cons, bytesOf_nil, List.append_nil]

/-- **The outer loop** does not get through the file. -/
theorem redoFile_fails (hwf : ∀ s ∈ r :: rs, s.WellFormed) (htypes : ∀ s ∈ r :: rs, s.log_type_ ≠ .PREPARED)
    (hfit : r.encode.length ≤ LOG_BUFFER_SIZE) (hbuf : rm.buffer_.length = LOG_BUFFER_SIZE)
    (hdrop : rm.log_file.drop offset = bytesOf (r :: rs)) (hlen : rm.log_file.length = offset + (bytesOf (r :: rs)).length)
    (hsmall : rm.log_file.length < 2 ^ 31) (hfuel : (r :: rs).length + 1 < fuel) :
    ¬ ∀ a ∈ redoFileTrace fuel rm max_lsn offset, a.Passes := by
  -- the records that are left get fewer
  induction hn : (r :: rs).length using Nat.strong_induction_on generalizing r rs fuel rm max_lsn offset with
  | _ n ih =>
  intro hpass
  obtain ⟨fuel, rfl⟩ : ∃ k, fuel = k + 1 := ⟨fuel - 1, by omega⟩
  have hheader := r.header_le_encode
  have h24 : LogRecord.HEADER_SIZE = 24 := rfl
  have hmore : offset < rm.log_file.length := by
    rw [hlen, bytesOf_cons, List.length_append]
    omega
  have hread : LogStorage.ReadLog rm.log_file rm.buffer_ LOG_BUFFER_SIZE offset =
      some (chunkAt rm.log_file rm.buffer_ offset) :=
    LogStorage.ReadLog_eq LOG_BUFFER_SIZE (LogStorage.not_atEnd hmore (by omega) (by omega))
  have hshows : Shows (rm.withBuffer (chunkAt rm.log_file rm.buffer_ offset)).buffer_ 0 (bytesOf (r :: rs)) :=
    shows_chunk hbuf hdrop
  have hchunk : ∀ a ∈ redoChunkTrace fuel (rm.withBuffer (chunkAt rm.log_file rm.buffer_ offset)) max_lsn offset 0,
      a.Passes := by
    obtain ⟨rest, heq, -⟩ := @redoFileTrace_cases rm max_lsn fuel offset _ hread
    rw [heq, List.forall_mem_cons, List.forall_mem_append] at hpass
    exact hpass.2.1
  obtain ⟨p, s, q, rm', max_lsn', hsplit, hp, hsize, hresult, hfile, hbuffer⟩ :=
    redoChunk_passes hwf htypes hshows (by omega) (by omega) (by omega) hchunk
  have hbytes : bytesOf (r :: rs) = bytesOf p ++ bytesOf (s :: q) := by rw [hsplit, bytesOf_append]
  have hlength : (bytesOf (r :: rs)).length = (bytesOf p).length + (bytesOf (s :: q)).length := by
    rw [hbytes, List.length_append]
  have hfewer : (s :: q).length < (r :: rs).length := by
    have := List.length_pos_iff.mpr hp
    rw [hsplit, List.length_append]
    omega
  rw [Nat.zero_add] at hresult
  rw [redoFileTrace_step hread hresult (intAdd_of_lt (by omega)), List.forall_mem_cons, List.forall_mem_append] at hpass
  have hmem : ∀ t ∈ s :: q, t ∈ r :: rs := fun t ht => by rw [hsplit]; exact List.mem_append_right _ ht
  refine ih (s :: q).length (by omega) (fun t ht => hwf t (hmem t ht)) (fun t ht => htypes t (hmem t ht)) (by omega)
    ?_ ?_ ?_ ?_ (by omega) rfl hpass.2.2
  · rw [hbuffer]
    exact hshows.length
  · rw [hfile]
    show rm.log_file.drop _ = _
    rw [← List.drop_drop, hdrop, hbytes, List.drop_left]
  · rw [hfile]
    show rm.log_file.length = _
    omega
  · rw [hfile]
    exact hsmall

theorem not_assertsPass (hwf : ∀ r ∈ rs, r.WellFormed) (htypes : ∀ r ∈ rs, r.log_type_ ≠ .PREPARED)
    (hsmall : (bytesOf rs).length < 2 ^ 31) (hread : ¬ NothingRead rs) : ¬ AssertsPass (bytesOf rs) := by
  intro h
  cases rs with
  | nil => exact hread (.inl rfl)
  | cons r rs =>
      have hfit : r.encode.length ≤ LOG_BUFFER_SIZE := by
        by_contra hlarge
        exact hread (.inr ⟨r, rs, rfl, not_le.mp hlarge⟩)
      have hfails : ¬ ∀ a ∈ redoFileTrace ((r :: rs).length + 2) (init (bytesOf (r :: rs)) (Vector.replicate _ 0)) INVALID_LSN
          (0 : Nat), a.Passes :=
        redoFile_fails hwf htypes hfit Vector.length_toList List.drop_zero (Nat.zero_add _).symm hsmall (Nat.lt_succ_self _)
      exact hfails fun a ha => h (Vector.replicate _ 0) _ a (List.mem_append_left _ ha)

/-! ## A log that is not read -/

/-- The loops stay at the start of the file, and no record is handed over. -/
theorem redoFile_nothing (h : NothingRead rs) (hwf : ∀ r ∈ rs, r.WellFormed) (hfile : rm.log_file = bytesOf rs)
    (hbuf : rm.buffer_.length = LOG_BUFFER_SIZE) :
    (∀ a ∈ redoFileTrace fuel rm max_lsn (0 : Nat), a.Passes) ∧
      ∀ rm' max_lsn', redoFile fuel rm max_lsn (0 : Nat) = some (rm', max_lsn') → rm'.active_txn_ = rm.active_txn_ := by
  induction fuel generalizing rm with
  | zero => exact ⟨List.forall_mem_nil _, fun _ _ hres => nomatch hres⟩
  | succ fuel ih =>
      cases hread : LogStorage.ReadLog rm.log_file rm.buffer_ LOG_BUFFER_SIZE (0 : Nat) with
      | none =>
          rw [redoFileTrace_end hread, redoFile, hread]
          refine ⟨List.forall_mem_singleton.mpr trivial, fun rm' max_lsn' hres => ?_⟩
          obtain ⟨rfl, -⟩ := Prod.mk.inj (Option.some.inj hres)
          rfl
      | some buffer =>
          -- the size is not `0`, so the first record is too large
          obtain ⟨r, q, rfl, hlarge⟩ : ∃ r q, rs = r :: q ∧ LOG_BUFFER_SIZE < r.encode.length := by
            refine h.resolve_left fun hzero => ?_
            have hend : toSizeT (LogStorage.GetFileSize rm.log_file) ≤ toSizeT (0 : Nat) := by
              have hsize : LogStorage.GetFileSize rm.log_file = 0 := by
                rw [LogStorage.GetFileSize, hfile, wrap32]
                exact Int.bmod_eq_zero_of_dvd (Int.natCast_dvd_natCast.mpr (Nat.dvd_of_mod_eq_zero hzero))
              rw [hsize]
              exact le_rfl
            rw [LogStorage.ReadLog_end _ hend] at hread
            cases hread
          have hr := hwf r List.mem_cons_self
          have hshows : Shows (rm.withBuffer buffer).buffer_ 0 (bytesOf (r :: q)) := by
            rw [ReadLog_chunk hread]
            exact shows_chunk hbuf (by rw [hfile, List.drop_zero])
          have hin : 0 + 4 ≤ LOG_BUFFER_SIZE := by
            rw [LOG_BUFFER_SIZE_eq]
            decide
          have htrace : redoChunkTrace fuel (rm.withBuffer buffer) max_lsn (0 : Nat) 0 = [] :=
            redoChunkTrace_cut hshows hr hin (by omega)
          cases fuel with
          | zero =>
              obtain ⟨rest, heq, hrest⟩ := @redoFileTrace_cases rm max_lsn 0 (0 : Nat) buffer hread
              rcases hrest with rfl | ⟨rm', max_lsn', stop, pos, hres, -⟩
              · rw [heq, htrace]
                refine ⟨List.forall_mem_singleton.mpr trivial, fun rm' max_lsn' hres => ?_⟩
                rw [redoFile, hread] at hres
                cases hres
              · cases hres
          | succ fuel =>
              have hchunk : redoChunk (fuel + 1) (rm.withBuffer buffer) max_lsn (0 : Nat) 0 =
                  some (rm.withBuffer buffer, max_lsn, 0) := redoChunk_cut hshows hr hin (by omega)
              have hadd : intAdd (0 : Nat) (0 : Nat) = some ((0 : Nat) : Int) := intAdd_of_lt (by decide)
              obtain ⟨hpasses, hactive⟩ := @ih (rm.withBuffer buffer) hfile hshows.length
              rw [redoFileTrace_step hread hchunk hadd, htrace, List.nil_append, List.forall_mem_cons]
              refine ⟨⟨trivial, hpasses⟩, fun rm' max_lsn' hres => ?_⟩
              have hset : { rm with buffer_ := buffer } = rm.withBuffer buffer := rfl
              rw [redoFile, hread] at hres
              dsimp only at hres
              rw [hset, hchunk, Option.bind_eq_bind, Option.bind_some] at hres
              dsimp only at hres
              rw [hadd, Option.bind_eq_bind, Option.bind_some] at hres
              exact hactive rm' max_lsn' hres

theorem assertsPass_of_nothingRead (h : NothingRead rs) (hwf : ∀ r ∈ rs, r.WellFormed) : AssertsPass (bytesOf rs) := by
  intro buffer fuel
  obtain ⟨hpasses, hactive⟩ := @redoFile_nothing (init (bytesOf rs) buffer) rs INVALID_LSN fuel h hwf rfl Vector.length_toList
  refine List.forall_mem_append.mpr ⟨hpasses, ?_⟩
  cases hredo : Redo fuel (init (bytesOf rs) buffer) with
  | none => exact List.forall_mem_nil _
  | some rm =>
      obtain ⟨⟨rm', max_lsn'⟩, hres, hnext⟩ := Option.bind_eq_some_iff.mp hredo
      obtain ⟨next_lsn, -, hrm⟩ := Option.bind_eq_some_iff.mp hnext
      have hempty : rm.active_txn_ = ∅ := by
        rw [← Option.some.inj hrm]
        exact hactive rm' max_lsn' hres
      have htrace : rm.undoTrace fuel = [] := by
        rw [undoTrace, hempty]
        cases fuel with
        | zero => rfl
        | succ fuel =>
            have hlast : lastOf ((∅ : AList fun _ : txn_id_t => Int).entries.map Sigma.snd).toFinset = none := rfl
            rw [undoLoopTrace, hlast]
      dsimp only
      rw [htrace]
      exact List.forall_mem_nil _

/-- **The assertion is valid** if nothing of the log is read, and, for a file whose size is an `int`, only then. -/
theorem assertsPass_iff (rs : List LogRecord) (hwf : ∀ r ∈ rs, r.WellFormed) (htypes : ∀ r ∈ rs, r.log_type_ ≠ .PREPARED) :
    (NothingRead rs → AssertsPass (bytesOf rs)) ∧
      ((bytesOf rs).length < 2 ^ 31 → (AssertsPass (bytesOf rs) ↔ NothingRead rs)) := by
  refine ⟨fun h => assertsPass_of_nothingRead h hwf, fun hsmall => ⟨fun h => ?_, fun h => assertsPass_of_nothingRead h hwf⟩⟩
  by_contra hread
  exact not_assertsPass hwf htypes hsmall hread h

/-- A record that is larger than the buffer. -/
def largeRecord : LogRecord := (LogRecord.ofStrings 1 INVALID_LSN .INSERT [97] (List.replicate 45056 0)).SetLsn 0

/-- A log of this record is not read. -/
theorem assertsPass_iff_largeRecord : AssertsPass (bytesOf [largeRecord]) := by
  have hvalue : (List.replicate 45056 (0 : UInt8)).length = 45056 := List.length_replicate
  have hlength : largeRecord.encode.length =
      LogRecord.HEADER_SIZE + 4 + [(97 : UInt8)].length + 4 + (List.replicate 45056 (0 : UInt8)).length :=
    LogRecord.length_encode_ofStrings (.inl rfl) (by decide) (by rw [hvalue]; decide)
  rw [hvalue] at hlength
  refine (assertsPass_iff [largeRecord] (fun r hr => ?_) (fun r hr => ?_)).1 (.inr ⟨largeRecord, [], rfl, ?_⟩)
  · obtain rfl := List.mem_singleton.mp hr
    refine ⟨.tuple _ _ _ _ _ _ (.inl rfl), ⟨by decide, by decide⟩, ⟨by decide, by decide⟩, ?_⟩
    rw [hlength]
    decide
  · obtain rfl := List.mem_singleton.mp hr
    exact fun htype => by cases htype
  · rw [hlength, LOG_BUFFER_SIZE_eq]
    decide

/-- A transaction that writes one key: the size of its first record is compared with that of the second one. -/
theorem not_assertsPass_shortLog :
    (∀ r ∈ shortLog, r.WellFormed ∧ r.log_type_ ≠ .PREPARED) ∧ ¬ AssertsPass (bytesOf shortLog) := by
  have hwf : ∀ r ∈ shortLog, r.WellFormed := fun r hr => (shortLog_readable r hr).wellFormed
  have htypes : ∀ r ∈ shortLog, r.log_type_ ≠ .PREPARED := by decide
  refine ⟨fun r hr => ⟨hwf r hr, htypes r hr⟩, not_assertsPass hwf htypes (by decide) ?_⟩
  rintro (hzero | ⟨r, q, hcons, hlarge⟩)
  · exact absurd hzero (by decide)
  · obtain ⟨rfl, -⟩ := List.cons.inj hcons
    exact absurd hlarge (by decide)

end RecoveryManager
end DDBMS
