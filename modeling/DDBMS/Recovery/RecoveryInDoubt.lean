import DDBMS.Recovery.RecoveryUndo
import DDBMS.Recovery.RedoExact

/-!
# `Recovery.RecoveryInDoubt` — recovery and transactions in doubt

A transaction is in doubt when it has a `PREPARED` record and no `COMMIT` or `ABORT` record behind it: only its
coordinator knows the outcome, and recovery should leave it alone (`LeavesInDoubt`). Nothing in `RecoveryManager` does so.
`DeserializeFrom` has no case for `PREPARED`, so `RedoLog` gets a default record in its place, and the transaction keeps
its entry in `active_txn_` from the records before. `Undo` takes every entry for one to abort.
-/

namespace DDBMS
namespace RecoveryManager

/-- The record ends the transaction. -/
def Ends (t : txn_id_t) (r : LogRecord) : Prop := r.txn_id_ = t ∧ (r.log_type_ = .COMMIT ∨ r.log_type_ = .ABORT)

/-- The transaction has a record of this type, and none behind it that ends it. -/
def OpenSince (type : LogRecordType) (rs : List LogRecord) (t : txn_id_t) : Prop :=
  ∃ p r q, rs = p ++ r :: q ∧ r.log_type_ = type ∧ r.txn_id_ = t ∧ ∀ s ∈ q, ¬ Ends t s

def Unfinished (rs : List LogRecord) (t : txn_id_t) : Prop := OpenSince .BEGIN rs t

def InDoubt (rs : List LogRecord) (t : txn_id_t) : Prop := OpenSince .PREPARED rs t

/-- Only unfinished transactions prepare. -/
def PreparesUnfinished (rs : List LogRecord) : Prop :=
  ∀ p r q, rs = p ++ r :: q → r.log_type_ = .PREPARED → Unfinished p r.txn_id_

/-- The type of the record that takes one back. -/
def undoType : LogRecordType → LogRecordType
  | .INSERT => .DELETE
  | .DELETE => .INSERT
  | type => type

/-- Recovery leaves the transactions in doubt alone and rolls the other unfinished ones back. What it undoes shows in the
    compensation records, which `UndoLog` appends whenever it changes the store. -/
structure LeavesInDoubt (rs : List LogRecord) (rm : RecoveryManager) : Prop where
  inDoubt : ∀ t, InDoubt rs t → ∀ r ∈ rm.appended, r.txn_id_ ≠ t
  rolledBack : ∀ t, Unfinished rs t → ¬ InDoubt rs t → ∀ p r q, rs = p ++ r :: q → r.txn_id_ = t → r.IsTuple →
    (∀ s ∈ q, ¬ Ends t s) → ∃ r' ∈ rm.appended, r'.txn_id_ = t ∧ r'.log_type_ = undoType r.log_type_ ∧ r'.key = r.key
  aborts : ∀ t, (∃ r ∈ rm.appended, r.log_type_ = .ABORT ∧ r.txn_id_ = t) ↔ Unfinished rs t ∧ ¬ InDoubt rs t

/-! ## The log -/

section Log

variable {rs : List LogRecord} {type : LogRecordType} {t : txn_id_t}

theorem OpenSince.append {qs : List LogRecord} (h : OpenSince type rs t) (hqs : ∀ s ∈ qs, ¬ Ends t s) :
    OpenSince type (rs ++ qs) t := by
  obtain ⟨p, r, q, rfl, htype, ht, hq⟩ := h
  refine ⟨p, r, q ++ qs, by rw [List.append_assoc, List.cons_append], htype, ht, ?_⟩
  intro s hs
  rcases List.mem_append.mp hs with hs | hs
  · exact hq s hs
  · exact hqs s hs

/-- A transaction in doubt is unfinished. -/
theorem InDoubt.unfinished (hlog : PreparesUnfinished rs) (h : InDoubt rs t) : Unfinished rs t := by
  obtain ⟨p, r, q, hsplit, htype, rfl, hq⟩ := h
  have hbegun := hlog p r q hsplit htype
  rw [hsplit]
  apply OpenSince.append hbegun
  rintro s hs hends
  rcases List.mem_cons.mp hs with rfl | hs
  · -- the `PREPARED` record itself
    obtain ⟨-, hcommit | habort⟩ := hends
    · exact absurd (htype.symm.trans hcommit) (by decide)
    · exact absurd (htype.symm.trans habort) (by decide)
  · exact hq s hs hends

end Log

/-! ## `active_txn_` -/

section Active

variable {rm : RecoveryManager} {r : LogRecord} {rs : List LogRecord} {t : txn_id_t} {pos : Nat}

/-- Only its own end takes a transaction out of `active_txn_`. -/
theorem RedoLog_active (h : t ∈ rm.active_txn_) (hends : ¬ Ends t r) : t ∈ (rm.RedoLog r).active_txn_ := by
  have hinsert : t ∈ rm.active_txn_.insert r.txn_id_ r.lsn_ := (AList.mem_insert _).mpr (Or.inr h)
  have herase : r.log_type_ = .COMMIT ∨ r.log_type_ = .ABORT →
      t ∈ (rm.active_txn_.insert r.txn_id_ r.lsn_).erase r.txn_id_ := by
    intro htype
    apply AList.mem_erase.mpr
    exact ⟨fun heq => hends ⟨heq.symm, htype⟩, hinsert⟩
  unfold RedoLog
  cases htype : r.log_type_ with
  | COMMIT => exact herase (Or.inl htype)
  | ABORT => exact herase (Or.inr htype)
  | BEGIN => exact (AList.mem_insert _).mpr (Or.inr hinsert)
  | INVALID | CREATE_TABLE | DROP_TABLE | INSERT | DELETE | PREPARED => exact hinsert

theorem RedoLog_begin (h : r.log_type_ = .BEGIN) : r.txn_id_ ∈ (rm.RedoLog r).active_txn_ := by
  unfold RedoLog
  rw [h]
  exact (AList.mem_insert _).mpr (Or.inl rfl)

/-- What is read back of a record ends a transaction only if the record does. -/
theorem ends_readBack (h : Ends t r.readBack) : Ends t r := by
  rw [LogRecord.readBack] at h
  split at h
  · obtain ⟨-, hcommit | habort⟩ := h
    · cases hcommit
    · cases habort
  · exact h

theorem hand_active (h : t ∈ rm.active_txn_) (hends : ¬ Ends t r) : t ∈ (rm.hand pos r).active_txn_ :=
  RedoLog_active h (fun hback => hends (ends_readBack hback))

theorem hand_begin (h : r.log_type_ = .BEGIN) : r.txn_id_ ∈ (rm.hand pos r).active_txn_ := by
  have hback : r.readBack = r.stored := LogRecord.readBack_of_ne (by rw [h]; decide)
  rw [hand, hback]
  exact RedoLog_begin h

theorem handAll_active (h : t ∈ rm.active_txn_) (hends : ∀ s ∈ rs, ¬ Ends t s) :
    t ∈ (handAll rm pos rs).active_txn_ := by
  induction rs generalizing rm pos with
  | nil => exact h
  | cons r rs ih =>
      apply ih
      · exact hand_active h (hends r List.mem_cons_self)
      · exact fun s hs => hends s (List.mem_cons_of_mem _ hs)

/-- After `Redo`, an unfinished transaction is in `active_txn_`, prepared or not. -/
theorem handAll_unfinished (h : Unfinished rs t) : t ∈ (handAll rm pos rs).active_txn_ := by
  obtain ⟨p, r, q, rfl, htype, rfl, hq⟩ := h
  rw [handAll_append, handAll]
  exact handAll_active (hand_begin htype) hq

/-- `Undo` takes no transaction out. -/
theorem UndoLog_active (h : t ∈ rm.active_txn_) : t ∈ (rm.UndoLog r).active_txn_ := by
  unfold UndoLog
  cases r.log_type_ with
  | INSERT | DELETE => exact (AList.mem_insert _).mpr (Or.inr h)
  | BEGIN | PREPARED | INVALID | CREATE_TABLE | DROP_TABLE | COMMIT | ABORT => exact h

theorem undoLoop_active {fuel : Nat} {next_lsn : Finset Int} {rm' : RecoveryManager} (h : t ∈ rm.active_txn_)
    (hloop : undoLoop fuel rm next_lsn = some rm') : t ∈ rm'.active_txn_ := by
  induction fuel generalizing rm next_lsn with
  | zero => cases hloop
  | succ fuel ih =>
      rw [undoLoop] at hloop
      cases hlast : lastOf next_lsn with
      | none =>
          rw [hlast] at hloop
          obtain rfl := Option.some.inj hloop
          exact h
      | some lsn =>
          rw [hlast] at hloop
          obtain ⟨log, -, hrest⟩ := Option.bind_eq_some_iff.mp hloop
          have hstep : t ∈ ((rm.fetch lsn).UndoLog log).active_txn_ := UndoLog_active h
          exact ih hstep hrest

end Active

/-! ## The abort records -/

section Abort

variable {rm : RecoveryManager} {es : List ActiveTxn}

theorem mem_abortAll_of_mem {r : LogRecord} (h : r ∈ rm.appended) : r ∈ (rm.abortAll es).appended := by
  induction es generalizing rm with
  | nil => exact h
  | cons e es ih => exact ih (List.mem_append_left _ h)

theorem mem_abortAll {e : ActiveTxn} (h : e ∈ es) :
    ∃ r ∈ (rm.abortAll es).appended, r.log_type_ = .ABORT ∧ r.txn_id_ = e.1 := by
  induction es generalizing rm with
  | nil => cases h
  | cons e' es ih =>
      rcases List.mem_cons.mp h with rfl | h
      · have hnew : (LogRecord.ofTxn e.1 e.2 .ABORT).SetLsn rm.next_lsn_ ∈
            (rm.AppendLogRecord (.ofTxn e.1 e.2 .ABORT)).1.appended := List.mem_append_right _ List.mem_cons_self
        exact ⟨_, @mem_abortAll_of_mem _ es _ hnew, rfl, rfl⟩
      · exact ih h

end Abort

section ARIES

variable {order : List ActiveTxn → List ActiveTxn} {fuel : Nat} {rm rm' : RecoveryManager} {rs : List LogRecord}
variable {t : txn_id_t}

/-- `Undo` aborts every transaction of `active_txn_`. -/
theorem Undo_aborts (horder : ∀ es, (order es).Perm es) (h : t ∈ rm.active_txn_) (hundo : Undo order fuel rm = some rm') :
    ∃ r ∈ rm'.appended, r.log_type_ = .ABORT ∧ r.txn_id_ = t := by
  obtain ⟨rm₁, hloop, hres⟩ := Option.bind_eq_some_iff.mp hundo
  obtain rfl := Option.some.inj hres
  have hactive := undoLoop_active h hloop
  obtain ⟨e, he, rfl⟩ := List.mem_map.mp (AList.mem_keys.mp hactive)
  exact mem_abortAll ((horder _).mem_iff.mpr he)

/-- `ARIES` aborts every unfinished transaction. -/
theorem ARIES_aborts (hrs : ∀ r ∈ rs, r.Readable) (hlen : (bytesOf rs).length < 2 ^ 32)
    (hfuel : (bytesOf rs).length + 1 < fuel) (horder : ∀ es, (order es).Perm es) (buffer : Vector UInt8 LOG_BUFFER_SIZE)
    (h : Unfinished rs t) (haries : ARIES order fuel (init (bytesOf rs) buffer) = some rm) :
    ∃ r ∈ rm.appended, r.log_type_ = .ABORT ∧ r.txn_id_ = t := by
  have hrecords := length_le_bytesOf rs
  obtain ⟨rm₁, hredo, hundo⟩ := Option.bind_eq_some_iff.mp haries
  rcases Redo_spec hrs hlen (show rs.length + 1 < fuel by omega) buffer with ⟨hnone, -⟩ | ⟨⟨b, -, hsome⟩, -⟩
  · rw [hnone] at hredo
    cases hredo
  · obtain rfl := Option.some.inj (hsome.symm.trans hredo)
    exact Undo_aborts horder (show t ∈ (afterRedo rs b buffer).active_txn_ from handAll_unfinished h) hundo

end ARIES

/-! ## `ARIES` returns

A log that `Redo` gets through, with the LSNs that the log manager gives and back links, is undone to its end. -/

/-- The LSN of a record is its place in the log, and the previous record stands before it. -/
def Numbered (rs : List LogRecord) : Prop :=
  ∀ i, (h : i < rs.length) → rs[i].lsn_ = i ∧ (rs[i].prev_lsn_ = INVALID_LSN ∨ 0 ≤ rs[i].prev_lsn_ ∧ rs[i].prev_lsn_ < i)

instance (rs : List LogRecord) : Decidable (Numbered rs) := inferInstanceAs (Decidable (∀ i, (h : i < rs.length) → _))

/-- The manager finds the records of the log. -/
structure Fetchable (rs : List LogRecord) (rm : RecoveryManager) : Prop where
  log_file : rm.log_file = bytesOf rs
  buffer : rm.buffer_.length = LOG_BUFFER_SIZE
  mapping : ∀ p r q, rs = p ++ r :: q →
    rm.lsn_mapping_.lookup r.lsn_ = some (((bytesOf p).length : Int), (r.encode.length : Int))

section Totality

variable {rm : RecoveryManager} {rs qs : List LogRecord} {r : LogRecord} {t : txn_id_t} {lsn : Int} {pos fuel : Nat}

theorem Numbered.lsn_of_split {p q : List LogRecord} (h : Numbered rs) (hsplit : rs = p ++ r :: q) : r.lsn_ = p.length := by
  subst hsplit
  have hp := (h p.length (by simp)).1
  simpa only [List.getElem_append_right (le_refl p.length), Nat.sub_self, List.getElem_cons_zero] using hp

/-- No later record has the LSN. -/
theorem Numbered.last {p q : List LogRecord} (h : Numbered rs) (hsplit : rs = p ++ r :: q) : ∀ s ∈ q, s.lsn_ ≠ r.lsn_ := by
  rintro s hs heq
  obtain ⟨q₁, q₂, rfl⟩ := List.append_of_mem hs
  have hr := h.lsn_of_split hsplit
  have hs' := h.lsn_of_split (show rs = (p ++ r :: q₁) ++ s :: q₂ by rw [hsplit, List.append_assoc, List.cons_append])
  rw [heq, hr, List.length_append, List.length_cons] at hs'
  omega

/-- After `Redo` of a log in which no LSN comes twice. -/
theorem fetchable_afterRedo (hrs : ∀ r ∈ rs, r.Readable) (hlast : ∀ p r q, rs = p ++ r :: q → ∀ s ∈ q, s.lsn_ ≠ r.lsn_)
    {b : Bytes} (hb : b.length = LOG_BUFFER_SIZE) (buffer : Vector UInt8 LOG_BUFFER_SIZE) :
    Fetchable rs (afterRedo rs b buffer) where
  log_file := handAll_log_file ..
  buffer := hb
  mapping := by
    intro p r q hsplit
    have hr : r.Readable := hrs r (by rw [hsplit]; exact List.mem_append_right _ List.mem_cons_self)
    have hplace := @handAll_mapping (init (bytesOf rs) buffer) 0 r p q hr (hlast p r q hsplit)
    rw [← hsplit, Nat.zero_add] at hplace
    exact hplace

/-- What `active_txn_` has for a transaction is the LSN of a record. -/
theorem RedoLog_lookup (h : (rm.RedoLog r).active_txn_.lookup t = some lsn) :
    rm.active_txn_.lookup t = some lsn ∨ lsn = r.lsn_ := by
  have hinsert : (rm.active_txn_.insert r.txn_id_ r.lsn_).lookup t = some lsn →
      rm.active_txn_.lookup t = some lsn ∨ lsn = r.lsn_ := by
    intro hl
    by_cases ht : t = r.txn_id_
    · rw [ht, AList.lookup_insert] at hl
      exact Or.inr (Option.some.inj hl).symm
    · rw [AList.lookup_insert_ne ht] at hl
      exact Or.inl hl
  have herase : ((rm.active_txn_.insert r.txn_id_ r.lsn_).erase r.txn_id_).lookup t = some lsn →
      rm.active_txn_.lookup t = some lsn ∨ lsn = r.lsn_ := by
    intro hl
    by_cases ht : t = r.txn_id_
    · rw [ht, AList.lookup_erase] at hl
      cases hl
    · rw [AList.lookup_erase_ne ht] at hl
      exact hinsert hl
  unfold RedoLog at h
  cases htype : r.log_type_ with
  | COMMIT | ABORT =>
      rw [htype] at h
      exact herase h
  | BEGIN =>
      rw [htype] at h
      dsimp only [setLast] at h
      rw [AList.insert_insert] at h
      exact hinsert h
  | INVALID | CREATE_TABLE | DROP_TABLE | INSERT | DELETE | PREPARED =>
      rw [htype] at h
      exact hinsert h

theorem handAll_lookup (h : (handAll rm pos rs).active_txn_.lookup t = some lsn) :
    rm.active_txn_.lookup t = some lsn ∨ ∃ r ∈ rs, r.lsn_ = lsn := by
  induction rs generalizing rm pos with
  | nil => exact Or.inl h
  | cons r rs ih =>
      rcases ih h with hr | ⟨s, hs, hlsn⟩
      · rcases RedoLog_lookup hr with hrm | hlsn
        · exact Or.inl hrm
        · exact Or.inr ⟨r, List.mem_cons_self, by rw [hlsn, LogRecord.readBack_lsn]⟩
      · exact Or.inr ⟨s, List.mem_cons_of_mem _ hs, hlsn⟩

theorem UndoLog_frame (rm : RecoveryManager) (r : LogRecord) : (rm.UndoLog r).log_file = rm.log_file ∧
    (rm.UndoLog r).buffer_ = rm.buffer_ ∧ (rm.UndoLog r).lsn_mapping_ = rm.lsn_mapping_ := by
  unfold UndoLog
  cases r.log_type_ <;> exact ⟨rfl, rfl, rfl⟩

/-- One record of the log is fetched and undone. -/
theorem Fetchable.visit (h : Fetchable rs rm) (hrs : ∀ r ∈ rs, r.Readable) (hlen : (bytesOf rs).length < 2 ^ 31)
    {p q : List LogRecord} (hsplit : rs = p ++ r :: q) :
    LogRecord.DeserializeFrom (rm.fetch r.lsn_).buffer_ = some r.readBack ∧
      Fetchable rs ((rm.fetch r.lsn_).UndoLog r.readBack) := by
  have hr : r.Readable := hrs r (by rw [hsplit]; exact List.mem_append_right _ List.mem_cons_self)
  obtain ⟨hbuffer, hread⟩ := RecoveryLog.fetch_record h.log_file h.buffer hlen hsplit hr (h.mapping p r q hsplit)
  obtain ⟨hfile, hbuf, hmap⟩ := UndoLog_frame (rm.fetch r.lsn_) r.readBack
  exact ⟨hread, hfile.trans h.log_file, by rw [hbuf, hbuffer], fun p r q hsplit => by rw [hmap]; exact h.mapping p r q hsplit⟩

theorem Fetchable.step (h : Fetchable rs rm) (hrs : ∀ r ∈ rs, r.Readable) (hlen : (bytesOf rs).length < 2 ^ 31)
    (hnum : Numbered rs) {i : Nat} (hi : i < rs.length) :
    LogRecord.DeserializeFrom (rm.fetch i).buffer_ = some rs[i].readBack ∧
      Fetchable rs ((rm.fetch i).UndoLog rs[i].readBack) := by
  have hsplit : rs = rs.take i ++ rs[i] :: rs.drop (i + 1) := by
    rw [List.getElem_cons_drop, List.take_append_drop]
  have hvisit := h.visit hrs hlen hsplit
  rwa [(hnum i hi).1] at hvisit

/-- The link of what is read back leads back too. -/
theorem Numbered.prev_readBack (h : Numbered rs) {i : Nat} (hi : i < rs.length) (hne : rs[i].readBack.prev_lsn_ ≠ INVALID_LSN) :
    0 ≤ rs[i].readBack.prev_lsn_ ∧ rs[i].readBack.prev_lsn_ < i := by
  have hprev : rs[i].readBack.prev_lsn_ = INVALID_LSN ∨ rs[i].readBack.prev_lsn_ = rs[i].prev_lsn_ := by
    unfold LogRecord.readBack
    split
    · exact Or.inl rfl
    · exact Or.inr rfl
  rcases hprev with hinvalid | heq
  · exact absurd hinvalid hne
  · rw [heq] at hne ⊢
    exact (h i hi).2.resolve_left hne

/-- The largest LSN gives way to a smaller one. -/
theorem undoLoop_isSome (h : Fetchable rs rm) (hrs : ∀ r ∈ rs, r.Readable) (hlen : (bytesOf rs).length < 2 ^ 31)
    (hnum : Numbered rs) {n : Nat} (hn : n ≤ rs.length) {next_lsn : Finset Int}
    (hnext : ∀ l ∈ next_lsn, 0 ≤ l ∧ l < n) (hfuel : n < fuel) : ∃ rm', undoLoop fuel rm next_lsn = some rm' := by
  induction n generalizing rm next_lsn fuel with
  | zero =>
      obtain ⟨fuel, rfl⟩ : ∃ k, fuel = k + 1 := ⟨fuel - 1, by omega⟩
      refine ⟨rm, ?_⟩
      rw [undoLoop, RecoveryLog.lastOf_empty]
      intro l hl
      have := hnext l hl
      omega
  | succ i ih =>
      by_cases hi : (i : Int) ∈ next_lsn
      · obtain ⟨fuel, rfl⟩ : ∃ k, fuel = k + 1 := ⟨fuel - 1, by omega⟩
        have hlast : lastOf next_lsn = some (i : Int) := by
          apply RecoveryLog.lastOf_eq hi
          intro l hl
          have := hnext l hl
          omega
        obtain ⟨hread, hstep⟩ := h.step hrs hlen hnum (show i < rs.length by omega)
        rw [undoLoop, hlast]
        show ∃ rm', (LogRecord.DeserializeFrom (rm.fetch i).buffer_).bind _ = some rm'
        rw [hread, Option.bind_some]
        apply ih hstep (by omega) _ (by omega)
        -- what is left in the set is smaller
        intro l hl
        split at hl
        · rename_i hne
          rcases Finset.mem_insert.mp hl with rfl | hl
          · exact hnum.prev_readBack _ hne
          · have := hnext l (Finset.mem_of_mem_erase hl)
            have := Finset.ne_of_mem_erase hl
            omega
        · have := hnext l (Finset.mem_of_mem_erase hl)
          have := Finset.ne_of_mem_erase hl
          omega
      · apply ih h (by omega) _ (by omega)
        intro l hl
        have := hnext l hl
        have : l ≠ i := fun heq => hi (heq ▸ hl)
        omega

theorem ARIES_isSome (hrs : ∀ r ∈ rs, r.Readable) (hgood : Recoverable rs) (hnum : Numbered rs)
    (hfuel : (bytesOf rs).length + 1 < fuel) (order : List ActiveTxn → List ActiveTxn)
    (buffer : Vector UInt8 LOG_BUFFER_SIZE) : ∃ rm, ARIES order fuel (init (bytesOf rs) buffer) = some rm := by
  have hlen := hgood.length
  have hrecords := length_le_bytesOf rs
  rcases Redo_spec hrs (by omega) (show rs.length + 1 < fuel by omega) buffer with ⟨-, hbad⟩ | ⟨⟨b, hb, hsome⟩, -⟩
  · exact absurd hgood hbad
  · have hnext : ∀ l ∈ (((afterRedo rs b buffer).active_txn_.entries.map Sigma.snd).toFinset : Finset Int),
        0 ≤ l ∧ l < rs.length := by
      intro l hl
      obtain ⟨⟨u, l'⟩, he, rfl⟩ := List.mem_map.mp (List.mem_toFinset.mp hl)
      have hlookup : (handAll (init (bytesOf rs) buffer) 0 rs).active_txn_.lookup u = some l' :=
        AList.mem_lookup_iff.mpr he
      rcases handAll_lookup hlookup with hempty | ⟨r, hr, rfl⟩
      · rw [init, AList.lookup_empty] at hempty
        cases hempty
      · obtain ⟨p, q, hsplit⟩ := List.append_of_mem hr
        have hlsn := hnum.lsn_of_split hsplit
        have hlength := congrArg List.length hsplit
        rw [List.length_append, List.length_cons] at hlength
        dsimp only
        omega
    obtain ⟨rm, hloop⟩ := undoLoop_isSome (fetchable_afterRedo hrs (fun _ _ _ => hnum.last) hb buffer) hrs hlen hnum (le_refl _) hnext
      (show rs.length < fuel by omega)
    refine ⟨rm.abortAll (order rm.active_txn_.entries), ?_⟩
    rw [ARIES, hsome, Option.bind_eq_bind, Option.bind_some, Undo, hloop]
    rfl

end Totality

/-! ## In doubt -/

/-- **Recovery decides every transaction in doubt**, on every log. -/
theorem recovery_decides_inDoubt {rs : List LogRecord} {order : List ActiveTxn → List ActiveTxn} {fuel : Nat}
    (hrs : ∀ r ∈ rs, r.Readable) (hlog : PreparesUnfinished rs)
    (hlen : (bytesOf rs).length < 2 ^ 32) (hfuel : (bytesOf rs).length + 1 < fuel)
    (horder : ∀ es, (order es).Perm es) (buffer : Vector UInt8 LOG_BUFFER_SIZE) {t : txn_id_t}
    (h : InDoubt rs t) :
    ¬ ∃ rm, ARIES order fuel (init (bytesOf rs) buffer) = some rm ∧ LeavesInDoubt rs rm := by
  rintro ⟨rm, haries, hleaves⟩
  obtain ⟨r, hr, -, ht⟩ := ARIES_aborts hrs hlen hfuel horder buffer (h.unfinished hlog) haries
  exact hleaves.inDoubt t h r hr ht

/-- A transaction is in doubt. -/
def preparedLog : List LogRecord :=
  [(LogRecord.ofTxn 1 INVALID_LSN .BEGIN).SetLsn 0, (LogRecord.ofStrings 1 0 .INSERT [97] [49]).SetLsn 1,
    (LogRecord.ofTxn 1 1 .PREPARED).SetLsn 2]

theorem preparedLog_readable : ∀ r ∈ preparedLog, r.Readable := by
  intro r hr
  simp only [preparedLog, List.mem_cons, List.not_mem_nil, or_false] at hr
  rcases hr with rfl | rfl | rfl
  · exact ⟨.txn _ _ _ _ (by decide), by decide, by decide, by decide⟩
  · exact ⟨.tuple _ _ _ _ _ _ (by decide), by decide, by decide, by decide⟩
  · exact ⟨.txn _ _ _ _ (by decide), by decide, by decide, by decide⟩

theorem preparedLog_inDoubt : InDoubt preparedLog 1 := ⟨[_, _], _, [], rfl, rfl, rfl, by simp⟩

theorem preparedLog_preparesUnfinished : PreparesUnfinished preparedLog := by
  rintro p r q hsplit htype
  rcases p with _ | ⟨x, _ | ⟨y, _ | ⟨z, p⟩⟩⟩
  · obtain rfl := (List.cons.inj hsplit).1
    cases htype
  · obtain rfl := (List.cons.inj (List.cons.inj hsplit).2).1
    cases htype
  · -- the `PREPARED` record, behind `BEGIN` and `INSERT`
    simp only [preparedLog, List.cons_append, List.nil_append, List.cons.injEq] at hsplit
    obtain ⟨rfl, rfl, rfl, -⟩ := hsplit
    refine ⟨[], _, [_], rfl, rfl, rfl, ?_⟩
    rintro s hs ⟨-, hend⟩
    obtain rfl := List.mem_singleton.mp hs
    rcases hend with hend | hend <;> cases hend
  · simp [preparedLog] at hsplit

theorem recovery_decides_preparedLog : ¬ ∃ rm,
    ARIES id 200 (init (bytesOf preparedLog) (Vector.replicate _ 0)) = some rm ∧ LeavesInDoubt preparedLog rm :=
  recovery_decides_inDoubt preparedLog_readable preparedLog_preparesUnfinished (by decide) (by decide)
    (fun es => List.Perm.refl es) _ preparedLog_inDoubt

/-- The recovery of this log returns, and has aborted the transaction. -/
theorem recovery_aborts_preparedLog : ∃ rm,
    ARIES id 200 (init (bytesOf preparedLog) (Vector.replicate _ 0)) = some rm ∧ ¬ LeavesInDoubt preparedLog rm := by
  have hfuel : (bytesOf preparedLog).length + 1 < 200 := by decide
  have hgood : Recoverable preparedLog := ⟨by decide, by decide, by decide⟩
  obtain ⟨rm, haries⟩ := ARIES_isSome preparedLog_readable hgood (by decide) hfuel id (Vector.replicate _ 0)
  have hunfinished := preparedLog_inDoubt.unfinished preparedLog_preparesUnfinished
  obtain ⟨r, hr, -, ht⟩ := ARIES_aborts preparedLog_readable (by decide) hfuel (fun es => List.Perm.refl es) _
    hunfinished haries
  exact ⟨rm, haries, fun hleaves => hleaves.inDoubt 1 preparedLog_inDoubt r hr ht⟩

end RecoveryManager
end DDBMS
