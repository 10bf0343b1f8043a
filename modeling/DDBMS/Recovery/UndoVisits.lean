import DDBMS.Recovery.RecoveryInDoubt

/-!
# `Recovery.UndoVisits` — what `Undo` visits

The loop of `Undo` merges the chains of the unfinished transactions through the ordered set of the LSNs that come next.
`undoVisits` is the loop with a list of the records that it calls `UndoLog` on. In a valid log the set is the `Frontier` of
the unfinished transactions among the records that are left, so the loop visits their records, the last one first, and
ends with the first record of the log. What `UndoLog` does to `active_txn_` meanwhile does not matter for this: the set was
made before.
-/

namespace DDBMS
namespace RecoveryManager

open TransactionManager (links)

instance (t : txn_id_t) (r : LogRecord) : Decidable (Ends t r) := inferInstanceAs (Decidable (_ ∧ (_ ∨ _)))

/-- The transaction has a `COMMIT` or an `ABORT` record. -/
def Finished (rs : List LogRecord) (t : txn_id_t) : Prop := ∃ r ∈ rs, Ends t r

instance (rs : List LogRecord) (t : txn_id_t) : Decidable (Finished rs t) :=
  inferInstanceAs (Decidable (∃ r ∈ rs, Ends t r))

/-- A log of transactions: the LSNs increase, each record names the one of its transaction before it, and nothing of a
    transaction comes behind its end. -/
structure ValidLog (rs : List LogRecord) : Prop where
  types : ∀ r ∈ rs, r.log_type_ = .BEGIN ∨ r.log_type_ = .INSERT ∨ r.log_type_ = .DELETE ∨ r.log_type_ = .COMMIT ∨
    r.log_type_ = .ABORT
  chained : links.Chained rs
  ended : ∀ p r q, rs = p ++ r :: q → ¬ Finished p r.txn_id_

/-- The loop of `Undo`, with the records it calls `UndoLog` on. -/
def undoVisits : Nat → RecoveryManager → Finset Int → Option (RecoveryManager × List LogRecord)
  | 0, _, _ => none
  | fuel + 1, rm, next_lsn =>
    match lastOf next_lsn with
    | none => some (rm, [])
    | some lsn => do
      let rm := rm.fetch lsn
      let log ← LogRecord.DeserializeFrom rm.buffer_
      let rm := rm.UndoLog log
      -- erase current lsn and insert the previous lsn
      let next_lsn := next_lsn.erase lsn
      let (rm, logs) ← undoVisits fuel rm
        (if log.prev_lsn_ ≠ INVALID_LSN then insert log.prev_lsn_ next_lsn else next_lsn)
      some (rm, log :: logs)

/-- It is the loop of `Undo`. -/
theorem undoVisits_fst (fuel : Nat) (rm : RecoveryManager) (next_lsn : Finset Int) :
    (undoVisits fuel rm next_lsn).map Prod.fst = undoLoop fuel rm next_lsn := by
  induction fuel generalizing rm next_lsn with
  | zero => rfl
  | succ fuel ih =>
      rw [undoVisits, undoLoop]
      cases lastOf next_lsn with
      | none => rfl
      | some lsn =>
          dsimp only
          cases LogRecord.DeserializeFrom (rm.fetch lsn).buffer_ with
          | none => rfl
          | some log =>
              simp only [Option.bind_eq_bind, Option.bind_some, ← ih]
              cases undoVisits fuel _ _ <;> rfl

/-- The records of the transactions that have neither a `COMMIT` nor an `ABORT` record, the last one first. -/
def unfinishedRecords (rs : List LogRecord) : List LogRecord := (rs.filter fun r => ¬ Finished rs r.txn_id_).reverse

section Log

variable {rs p q : List LogRecord} {r : LogRecord} {t : txn_id_t}

theorem ValidLog.of_append (h : ValidLog (p ++ q)) : ValidLog p where
  types r hr := h.types r (List.mem_append_left _ hr)
  chained := by
    constructor
    · exact h.chained.increasing.sublist ((List.sublist_append_left p q).map _)
    · exact fun r hr => h.chained.valid r (List.mem_append_left _ hr)
    · rintro a r b rfl
      exact h.chained.prev a r (b ++ q) (by rw [List.append_assoc, List.cons_append])
  ended := by
    rintro a r b rfl
    exact h.ended a r (b ++ q) (by rw [List.append_assoc, List.cons_append])

theorem ValidLog.nil : ValidLog [] := ⟨fun _ h => (by cases h), BackLinks.Chained.nil, fun p r q h => by cases p <;> cases h⟩

/-- One more record, of a transaction that has not ended. -/
theorem ValidLog.snoc (h : ValidLog rs) (htype : r.log_type_ = .BEGIN ∨ r.log_type_ = .INSERT ∨ r.log_type_ = .DELETE ∨
      r.log_type_ = .COMMIT ∨ r.log_type_ = .ABORT) (hlsn : ∀ s ∈ rs, s.lsn_ < r.lsn_) (hvalid : r.lsn_ ≠ INVALID_LSN)
    (hprev : r.prev_lsn_ = links.last rs r.txn_id_) (hopen : ¬ Finished rs r.txn_id_) : ValidLog (rs ++ [r]) where
  types := by
    intro s hs
    rcases List.mem_append.mp hs with hs | hs
    · exact h.types s hs
    · rwa [List.mem_singleton.mp hs]
  chained := h.chained.snoc hlsn hvalid hprev
  ended := Slots.forall_split_snoc h.ended hopen

/-- None of the types is lost when it is read back. -/
theorem ValidLog.readBack (h : ValidLog rs) (hr : r ∈ rs) : r.readBack = r.stored := by
  apply LogRecord.readBack_of_ne
  rcases h.types r hr with htype | htype | htype | htype | htype <;> rw [htype] <;> decide

theorem finished_snoc : Finished (rs ++ [r]) t ↔ Finished rs t ∨ Ends t r := by
  simp only [Finished, List.mem_append, List.mem_singleton, or_and_right, exists_or, exists_eq_left]

end Log

/-! ## After `Redo` -/

section Redo

variable {rs : List LogRecord} {rm : RecoveryManager} {r : LogRecord} {t : txn_id_t} {lsn : Int}

/-- `active_txn_` has the unfinished transactions of the log, with their last LSNs. -/
def KnowsActive (rs : List LogRecord) (rm : RecoveryManager) : Prop :=
  ∀ t lsn, rm.active_txn_.lookup t = some lsn ↔ ¬ Finished rs t ∧ lsn ≠ INVALID_LSN ∧ links.last rs t = lsn

theorem RedoLog_active_other (h : t ≠ r.txn_id_) : (rm.RedoLog r).active_txn_.lookup t = rm.active_txn_.lookup t := by
  unfold RedoLog
  cases r.log_type_ with
  | COMMIT | ABORT => exact (AList.lookup_erase_ne h).trans (AList.lookup_insert_ne h)
  | BEGIN => exact (AList.lookup_insert_ne h).trans (AList.lookup_insert_ne h)
  | INVALID | CREATE_TABLE | DROP_TABLE | INSERT | DELETE | PREPARED => exact AList.lookup_insert_ne h

/-- The record of an end takes its transaction out, any other one puts it in. -/
theorem RedoLog_active_self : (rm.RedoLog r).active_txn_.lookup r.txn_id_ =
    if r.log_type_ = .COMMIT ∨ r.log_type_ = .ABORT then none else some r.lsn_ := by
  unfold RedoLog
  cases r.log_type_ with
  | COMMIT | ABORT => exact AList.lookup_erase _ _
  | BEGIN | INVALID | CREATE_TABLE | DROP_TABLE | INSERT | DELETE | PREPARED => exact AList.lookup_insert _

/-- **One record.** -/
theorem KnowsActive.hand (h : KnowsActive rs rm) (hlog : ValidLog (rs ++ [r])) (pos : Nat) :
    KnowsActive (rs ++ [r]) (rm.hand pos r) := by
  have hback : r.readBack = r.stored := hlog.readBack (by simp)
  have hopen := hlog.ended rs r [] rfl
  have hvalid : r.lsn_ ≠ INVALID_LSN := hlog.chained.valid r (by simp)
  intro t lsn
  rw [RecoveryManager.hand, hback, finished_snoc]
  by_cases ht : t = r.txn_id_
  · subst ht
    have hlast : links.last (rs ++ [r]) r.txn_id_ = r.lsn_ := BackLinks.last_snoc_self rs r
    generalize (rm.remember r.lsn_ pos r.encode.length).note r.stored = rm'
    have hself : (rm'.RedoLog r.stored).active_txn_.lookup r.txn_id_ =
        if r.log_type_ = .COMMIT ∨ r.log_type_ = .ABORT then none else some r.lsn_ :=
      @RedoLog_active_self _ r.stored
    rw [hlast, hself]
    by_cases hend : r.log_type_ = .COMMIT ∨ r.log_type_ = .ABORT
    · have hends : Ends r.txn_id_ r := ⟨rfl, hend⟩
      rw [if_pos hend]
      exact iff_of_false (by simp) (fun hactive => hactive.1 (Or.inr hends))
    · have hgoes : ¬ (Finished rs r.txn_id_ ∨ Ends r.txn_id_ r) := by
        rintro (hfinished | ⟨-, hends⟩)
        · exact hopen hfinished
        · exact hend hends
      rw [if_neg hend, Option.some.injEq]
      constructor
      · rintro rfl
        exact ⟨hgoes, hvalid, rfl⟩
      · exact fun hactive => hactive.2.2
  · have hother : links.last (rs ++ [r]) t = links.last rs t := BackLinks.last_snoc_other (Ne.symm ht)
    have hnot : ¬ Ends t r := fun hends => ht hends.1.symm
    rw [hother, RedoLog_active_other (show t ≠ r.stored.txn_id_ from ht), or_iff_left hnot]
    exact h t lsn

/-- **All records.** -/
theorem knowsActive_handAll (hlog : ValidLog rs) (hempty : rm.active_txn_ = ∅) (pos : Nat) :
    KnowsActive rs (handAll rm pos rs) := by
  induction rs using List.reverseRecOn with
  | nil =>
      intro t lsn
      have hlast : links.last [] t = INVALID_LSN := rfl
      rw [handAll, hempty, AList.lookup_empty, hlast]
      exact iff_of_false (by simp) (fun hactive => hactive.2.1 hactive.2.2.symm)
  | append_singleton rs r ih =>
      rw [handAll_append]
      exact (ih hlog.of_append).hand hlog _

/-- The LSNs that `Undo` starts with. -/
theorem KnowsActive.frontier (h : KnowsActive rs rm) :
    links.Frontier (fun t => ¬ Finished rs t) rs (rm.active_txn_.entries.map Sigma.snd).toFinset :=
  RecoveryLog.frontier_entries h

end Redo

/-! ## The loop -/

/-- **The loop**, from the records of `pre` on. -/
theorem undoVisits_spec {rs pre post : List LogRecord} {rm : RecoveryManager} {next_lsn : Finset Int} {fuel : Nat}
    (hlog : ValidLog rs) (hrs : ∀ r ∈ rs, r.Readable) (hlen : (bytesOf rs).length < 2 ^ 31) (hsplit : rs = pre ++ post)
    (h : Fetchable rs rm) (hfrontier : links.Frontier (fun t => ¬ Finished rs t) pre next_lsn) (hfuel : pre.length < fuel) :
    ∃ rm', undoVisits fuel rm next_lsn =
      some (rm', ((pre.filter fun r => ¬ Finished rs r.txn_id_).reverse).map LogRecord.stored) := by
  induction pre using List.reverseRecOn generalizing rm next_lsn fuel post with
  | nil =>
      obtain ⟨fuel, rfl⟩ : ∃ n, fuel = n + 1 := ⟨fuel - 1, by omega⟩
      refine ⟨rm, ?_⟩
      rw [undoVisits, RecoveryLog.lastOf_empty (fun _ => hfrontier.nil)]
      rfl
  | append_singleton pre r ih =>
      have hsplit' : rs = pre ++ r :: post := by rw [hsplit, List.append_assoc, List.singleton_append]
      rw [List.length_append, List.length_singleton] at hfuel
      rw [List.filter_append, List.reverse_append, List.map_append]
      have hchained : links.Chained (pre ++ r :: post) := by rw [← hsplit']; exact hlog.chained
      by_cases hr : Finished rs r.txn_id_
      -- a record of a finished transaction is not in the set
      · have hskip : [r].filter (fun r => ¬ Finished rs r.txn_id_) = [] := List.filter_cons_of_neg (by simpa using hr)
        rw [hskip]
        exact ih hsplit' h (hfrontier.skip (fun hopen => hopen hr)) (by omega)
      · -- it is visited, and the record before it in its transaction takes its place
        obtain ⟨fuel, rfl⟩ : ∃ n, fuel = n + 1 := ⟨fuel - 1, by omega⟩
        have htake : [r].filter (fun r => ¬ Finished rs r.txn_id_) = [r] := List.filter_cons_of_pos (by simpa using hr)
        obtain ⟨hmem, hmax⟩ := hfrontier.max hchained hr
        obtain ⟨hread, hfetchable⟩ := h.visit hrs hlen hsplit'
        rw [hlog.readBack (by rw [hsplit']; simp)] at hread hfetchable
        obtain ⟨rm', hloop⟩ := ih hsplit' hfetchable (hfrontier.step hchained hr) (show pre.length < fuel by omega)
        refine ⟨rm', ?_⟩
        rw [htake, undoVisits, RecoveryLog.lastOf_eq hmem hmax]
        show (LogRecord.DeserializeFrom (rm.fetch r.lsn_).buffer_).bind _ = _
        rw [hread, Option.bind_some]
        exact congrArg (Option.bind · fun (rm, logs) => some (rm, r.stored :: logs)) hloop

/-- **`Undo` visits the right records and ends.** After `Redo` of a valid log its loop comes to an end, and calls `UndoLog`
    on the records of the unfinished transactions, each once and by decreasing LSN. -/
theorem undo_visits (rs : List LogRecord) (hlog : ValidLog rs) (hrs : ∀ r ∈ rs, r.Readable)
    (hlen : (bytesOf rs).length < 2 ^ 32) (buffer : Vector UInt8 LOG_BUFFER_SIZE) {fuel : Nat}
    (hfuel : (bytesOf rs).length + 1 < fuel) {rm : RecoveryManager} (hredo : Redo fuel (init (bytesOf rs) buffer) = some rm)
    {fuel' : Nat} (hfuel' : rs.length < fuel') :
    (∃ rm', undoVisits fuel' rm (rm.active_txn_.entries.map Sigma.snd).toFinset =
        some (rm', (unfinishedRecords rs).map LogRecord.stored) ∧
      undoLoop fuel' rm (rm.active_txn_.entries.map Sigma.snd).toFinset = some rm') ∧
    (∀ r, r ∈ unfinishedRecords rs ↔ r ∈ rs ∧ ¬ Finished rs r.txn_id_) ∧
    ((unfinishedRecords rs).map LogRecord.lsn_).Pairwise (· > ·) := by
  have hrecords := length_le_bytesOf rs
  refine ⟨?_, ?_, ?_⟩
  · rcases Redo_spec hrs hlen (show rs.length + 1 < fuel by omega) buffer with ⟨hnone, -⟩ | ⟨⟨b, hb, hsome⟩, hgood⟩
    · rw [hnone] at hredo
      cases hredo
    · obtain rfl : afterRedo rs b buffer = rm := Option.some.inj (hsome.symm.trans hredo)
      have hfetchable : Fetchable rs (afterRedo rs b buffer) :=
        fetchable_afterRedo hrs (fun p r q hsplit s hs => (hsplit ▸ hlog.chained).num_ne hs) hb buffer
      have hknows : KnowsActive rs (afterRedo rs b buffer) := knowsActive_handAll hlog rfl 0
      obtain ⟨rm', hloop⟩ := undoVisits_spec hlog hrs hgood.length (List.append_nil rs).symm hfetchable hknows.frontier hfuel'
      refine ⟨rm', hloop, ?_⟩
      rw [← undoVisits_fst, hloop]
      rfl
  · intro r
    rw [unfinishedRecords, List.mem_reverse, List.mem_filter, decide_eq_true_eq]
  · rw [unfinishedRecords, List.map_reverse, List.pairwise_reverse]
    exact hlog.chained.increasing.sublist (List.filter_sublist.map _)

/-- Two transactions at once, one of them unfinished. -/
def unfinishedLog : List LogRecord :=
  [(LogRecord.ofTxn 1 INVALID_LSN .BEGIN).SetLsn 0, (LogRecord.ofTxn 2 INVALID_LSN .BEGIN).SetLsn 2,
    (LogRecord.ofStrings 1 0 .INSERT [97] [49]).SetLsn 3, (LogRecord.ofTxn 2 2 .COMMIT).SetLsn 4]

theorem unfinishedLog_readable : ∀ r ∈ unfinishedLog, r.Readable := by
  intro r hr
  simp only [unfinishedLog, List.mem_cons, List.not_mem_nil, or_false] at hr
  rcases hr with rfl | rfl | rfl | rfl
  · exact ⟨.txn _ _ _ _ (by decide), by decide, by decide, by decide⟩
  · exact ⟨.txn _ _ _ _ (by decide), by decide, by decide, by decide⟩
  · exact ⟨.tuple _ _ _ _ _ _ (by decide), by decide, by decide, by decide⟩
  · exact ⟨.txn _ _ _ _ (by decide), by decide, by decide, by decide⟩

theorem unfinishedLog_validLog : ValidLog unfinishedLog := by
  have hbegin : ValidLog ([] ++ [(LogRecord.ofTxn 1 INVALID_LSN .BEGIN).SetLsn 0]) :=
    ValidLog.nil.snoc (by decide) (by decide) (by decide) (by decide) (by decide)
  have hother : ValidLog (_ ++ [(LogRecord.ofTxn 2 INVALID_LSN .BEGIN).SetLsn 2]) :=
    hbegin.snoc (by decide) (by decide) (by decide) (by decide) (by decide)
  have hinsert : ValidLog (_ ++ [(LogRecord.ofStrings 1 0 .INSERT [97] [49]).SetLsn 3]) :=
    hother.snoc (by decide) (by decide) (by decide) (by decide) (by decide)
  exact hinsert.snoc (by decide) (by decide) (by decide) (by decide) (by decide)

theorem undo_visits_unfinishedLog : ∃ rm rm', Redo 200 (init (bytesOf unfinishedLog) (Vector.replicate _ 0)) = some rm ∧
    undoVisits 5 rm (rm.active_txn_.entries.map Sigma.snd).toFinset =
      some (rm', [(LogRecord.ofStrings 1 0 .INSERT [97] [49]).SetLsn 3, (LogRecord.ofTxn 1 INVALID_LSN .BEGIN).SetLsn 0]) := by
  have hgood : Recoverable unfinishedLog := ⟨by decide, by decide, by decide⟩
  have hfuel : (bytesOf unfinishedLog).length + 1 < 200 := by decide
  rcases Redo_spec unfinishedLog_readable (by decide) (show unfinishedLog.length + 1 < 200 by decide) (Vector.replicate _ 0)
    with ⟨-, hbad⟩ | ⟨⟨b, -, hredo⟩, -⟩
  · exact absurd hgood hbad
  · obtain ⟨⟨rm', hloop, -⟩, -⟩ := undo_visits unfinishedLog unfinishedLog_validLog unfinishedLog_readable (by decide) _ hfuel
      hredo (show unfinishedLog.length < 5 by decide)
    have hvisited : (unfinishedRecords unfinishedLog).map LogRecord.stored =
        [(LogRecord.ofStrings 1 0 .INSERT [97] [49]).SetLsn 3, (LogRecord.ofTxn 1 INVALID_LSN .BEGIN).SetLsn 0] := by decide
    rw [hvisited] at hloop
    exact ⟨_, rm', hredo, hloop⟩

end RecoveryManager
end DDBMS
