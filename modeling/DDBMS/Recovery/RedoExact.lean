import DDBMS.Recovery.RecoveryRead

/-!
# `Recovery.RedoExact` — `Redo` reads back exactly what was logged

`ReadsBack` says that `RedoLog` got every record of the file once and in order, and that `lsn_mapping_` had the place
of the record when it did. This is so if and only if no probe leaves the buffer, no record is a `PREPARED` one, and
no record has the largest LSN of all.
-/

namespace DDBMS
namespace RecoveryManager

open LogRecord (encode)

/-- The calls of `RedoLog` for records of which the first stands at `pos`, each with its place, when `read` is what
    the manager has read of a record. -/
def calls (read : LogRecord → LogRecord) : Nat → List LogRecord → List (LogRecord × Option (Int × Int))
  | _, [] => []
  | pos, r :: rs => (read r, some ((pos : Int), (r.encode.length : Int))) :: calls read (pos + r.encode.length) rs

/-- What was logged has been read back. -/
structure ReadsBack (rs : List LogRecord) (rm : RecoveryManager) : Prop where
  handed : rm.handed = calls LogRecord.stored 0 rs
  mapping : (rs.map LogRecord.lsn_).Nodup → ∀ p r q, rs = p ++ r :: q →
    rm.lsn_mapping_.lookup r.lsn_ = some (((bytesOf p).length : Int), (r.encode.length : Int))

variable {rm : RecoveryManager} {pos : Nat} {r : LogRecord} {rs : List LogRecord}

theorem calls_append (read : LogRecord → LogRecord) (pos : Nat) (rs qs : List LogRecord) :
    calls read pos (rs ++ qs) = calls read pos rs ++ calls read (pos + (bytesOf rs).length) qs := by
  induction rs generalizing pos with
  | nil => rfl
  | cons r rs ih => rw [List.cons_append, calls, calls, ih, bytesOf_cons, List.length_append, Nat.add_assoc, List.cons_append]

theorem wrap32_length (hr : r.Readable) : wrap32 r.encode.length = r.encode.length := by
  have hlt := hr.lt
  rw [LOG_BUFFER_SIZE_eq] at hlt
  exact wrap32_of_lt (by omega) (by omega)

theorem hand_handed (hr : r.Readable) : (rm.hand pos r).handed =
    rm.handed ++ [(r.readBack, some ((pos : Int), (r.encode.length : Int)))] := by
  have hlookup : (rm.lsn_mapping_.insert r.lsn_ ((pos : Int), wrap32 r.encode.length)).lookup r.readBack.lsn_ =
      some ((pos : Int), (r.encode.length : Int)) := by
    rw [LogRecord.readBack_lsn, AList.lookup_insert, wrap32_length hr]
  rw [hand, (RedoLog_frame _ _).2.2.2.1, ← hlookup]
  rfl

/-- A `PREPARED` record is read back as something else. -/
theorem readBack_eq_stored_iff : r.readBack = r.stored ↔ r.log_type_ ≠ .PREPARED := by
  constructor
  · intro h hp
    have htype := congrArg LogRecord.log_type_ h
    rw [LogRecord.readBack, if_pos hp] at htype
    have hinvalid : LogRecordType.INVALID = .PREPARED := htype.trans hp
    cases hinvalid
  · exact LogRecord.readBack_of_ne

theorem handAll_handed (hrs : ∀ r ∈ rs, r.Readable) :
    (handAll rm pos rs).handed = rm.handed ++ calls LogRecord.readBack pos rs := by
  induction rs generalizing rm pos with
  | nil => exact (List.append_nil _).symm
  | cons r rs ih =>
      rw [handAll, ih (fun s hs => hrs s (List.mem_cons_of_mem _ hs)), hand_handed (hrs r List.mem_cons_self),
        List.append_assoc]
      rfl

/-- The calls are the ones there should be when every record has been read as it is. -/
theorem calls_eq_iff : calls LogRecord.readBack pos rs = calls LogRecord.stored pos rs ↔
    ∀ r ∈ rs, r.log_type_ ≠ .PREPARED := by
  induction rs generalizing pos with
  | nil => simp [calls]
  | cons r rs ih =>
      rw [calls, calls, List.cons.injEq, Prod.mk.injEq, ih, readBack_eq_stored_iff, List.forall_mem_cons]
      simp

/-- A record keeps its place when no later one has its LSN. -/
theorem handAll_mapping_other {lsn : Int} (h : ∀ r ∈ rs, r.lsn_ ≠ lsn) :
    (handAll rm pos rs).lsn_mapping_.lookup lsn = rm.lsn_mapping_.lookup lsn := by
  induction rs generalizing rm pos with
  | nil => rfl
  | cons r rs ih =>
      rw [handAll, ih (fun s hs => h s (List.mem_cons_of_mem _ hs)), hand_mapping]
      exact AList.lookup_insert_ne (h r List.mem_cons_self).symm

theorem handAll_mapping {p q : List LogRecord} (hr : r.Readable) (hlast : ∀ s ∈ q, s.lsn_ ≠ r.lsn_) :
    (handAll rm pos (p ++ r :: q)).lsn_mapping_.lookup r.lsn_ =
      some (((pos + (bytesOf p).length : Nat) : Int), (r.encode.length : Int)) := by
  rw [handAll_append, handAll, handAll_mapping_other hlast, hand_mapping, wrap32_length hr, AList.lookup_insert]

/-- **`Redo` reads back exactly what was logged** if and only if no probe leaves the buffer, there is no `PREPARED`
    record, and the LSN behind the largest one is an `int`. With more fuel than the file has bytes it always comes to
    an end. -/
theorem redo_reads_back_iff (rs : List LogRecord) (hrs : ∀ r ∈ rs, r.Readable) (hlen : (bytesOf rs).length < 2 ^ 31)
    (buffer : Vector UInt8 LOG_BUFFER_SIZE) {fuel : Nat} (hfuel : (bytesOf rs).length + 1 < fuel) :
    (∃ rm, Redo fuel (init (bytesOf rs) buffer) = some rm ∧ ReadsBack rs rm) ↔
      Inside 0 (sizesOf rs) ∧ (∀ r ∈ rs, r.log_type_ ≠ .PREPARED) ∧ ∀ r ∈ rs, r.lsn_ < 2 ^ 31 - 1 := by
  have hrecords := length_le_bytesOf rs
  rcases Redo_spec hrs (by omega) (show rs.length + 1 < fuel by omega) buffer with ⟨hnone, hbad⟩ | ⟨⟨b, hb, hsome⟩, hgood⟩
  · constructor
    · rintro ⟨rm, hrm, -⟩
      rw [hnone] at hrm
      cases hrm
    · rintro ⟨hinside, -, hlsn⟩
      exact absurd ⟨hinside, hlen, hlsn⟩ hbad
  · have hhanded : (afterRedo rs b buffer).handed = calls LogRecord.readBack 0 rs := handAll_handed hrs
    rw [hsome]
    constructor
    · rintro ⟨rm, hrm, hback⟩
      obtain rfl := Option.some.inj hrm
      rw [hback.handed] at hhanded
      exact ⟨hgood.inside, calls_eq_iff.mp hhanded.symm, hgood.lsn⟩
    · rintro ⟨-, htypes, -⟩
      refine ⟨_, rfl, ?_, ?_⟩
      · exact hhanded.trans (calls_eq_iff.mpr htypes)
      · intro hnodup p r q hsplit
        -- no later record has the LSN
        have hlast : ∀ s ∈ q, s.lsn_ ≠ r.lsn_ := by
          intro s hs heq
          rw [hsplit, List.map_append, List.map_cons] at hnodup
          apply (List.nodup_cons.mp hnodup.of_append_right).1
          rw [← heq]
          exact List.mem_map_of_mem hs
        have hr : r.Readable := hrs r (by rw [hsplit]; exact List.mem_append_right _ List.mem_cons_self)
        have hplace := @handAll_mapping (init (bytesOf rs) buffer) 0 r p q hr hlast
        rw [← hsplit, Nat.zero_add] at hplace
        exact hplace

/-- A transaction that writes one key. -/
def shortLog : List LogRecord :=
  [(LogRecord.ofTxn 1 INVALID_LSN .BEGIN).SetLsn 0, (LogRecord.ofStrings 1 0 .INSERT [97] [49]).SetLsn 1,
    (LogRecord.ofTxn 1 1 .COMMIT).SetLsn 2]

theorem shortLog_readable : ∀ r ∈ shortLog, r.Readable := by
  intro r hr
  simp only [shortLog, List.mem_cons, List.not_mem_nil, or_false] at hr
  rcases hr with rfl | rfl | rfl
  · exact ⟨.txn _ _ _ _ (by decide), by decide, by decide, by decide⟩
  · exact ⟨.tuple _ _ _ _ _ _ (by decide), by decide, by decide, by decide⟩
  · exact ⟨.txn _ _ _ _ (by decide), by decide, by decide, by decide⟩

theorem redo_reads_back_iff_shortLog :
    ∃ rm, Redo 90 (init (bytesOf shortLog) (Vector.replicate _ 0)) = some rm ∧ ReadsBack shortLog rm := by
  apply (redo_reads_back_iff shortLog shortLog_readable (by decide) _ (by decide)).mpr
  decide

/-- A record that ends one byte before the end of the buffer. -/
def longRecord : LogRecord := (LogRecord.ofStrings 1 INVALID_LSN .INSERT [97] (List.replicate 45022 0)).SetLsn 0

theorem length_longRecord : longRecord.encode.length = 45055 := by
  have hvalue : (List.replicate 45022 (0 : UInt8)).length = 45022 := List.length_replicate
  have hlen : longRecord.encode.length =
      LogRecord.HEADER_SIZE + 4 + [(97 : UInt8)].length + 4 + (List.replicate 45022 (0 : UInt8)).length :=
    LogRecord.length_encode_ofStrings (Or.inl rfl) (by decide) (by rw [hvalue]; decide)
  rw [hlen, hvalue]
  decide

/-- The size probe behind such a record leaves the buffer. -/
theorem redo_probes_outside : ¬ ∀ (rs : List LogRecord) (buffer : Vector UInt8 LOG_BUFFER_SIZE) (fuel : Nat),
    (∀ r ∈ rs, r.Readable) → (bytesOf rs).length < 2 ^ 31 → (bytesOf rs).length + 1 < fuel →
    ∃ rm, Redo fuel (init (bytesOf rs) buffer) = some rm ∧ ReadsBack rs rm := by
  intro hall
  have hlen : (bytesOf [longRecord]).length = 45055 := by
    rw [bytesOf_cons, bytesOf_nil, List.append_nil, length_longRecord]
  have hrs : ∀ r ∈ [longRecord], r.Readable := by
    intro r hr
    obtain rfl := List.mem_singleton.mp hr
    refine ⟨.tuple _ _ _ _ _ _ (Or.inl rfl), ⟨by decide, by decide⟩, ⟨by decide, by decide⟩, ?_⟩
    rw [length_longRecord, LOG_BUFFER_SIZE_eq]
    decide
  obtain ⟨rm, hrm, -⟩ := hall [longRecord] (Vector.replicate _ 0) 45058 hrs (by rw [hlen]; decide) (by rw [hlen]; decide)
  have hfuel : [longRecord].length + 1 < 45058 := by decide
  rcases Redo_spec hrs (by rw [hlen]; decide) hfuel (Vector.replicate _ 0) with ⟨hnone, -⟩ | ⟨-, hgood⟩
  · rw [hnone] at hrm
    cases hrm
  · have hinside := hgood.inside
    rw [sizesOf, List.map_cons, List.map_nil, length_longRecord] at hinside
    revert hinside
    decide

end RecoveryManager
end DDBMS
