import DDBMS.Recovery.RecoveryLog

/-!
# `Recovery.RecoveryRedo` — what `Redo` makes of the log of a run

`Redone` says what a recovery manager has after the records of a run: the store with all operations applied, the last
LSN of each unfinished transaction, and the place of each record. `hand` carries it from one record to the next.
-/

namespace DDBMS
namespace RecoveryLog

open RecoveryManager
open Schedule (Active Allowed)

/-- What has been made of the records of a run. -/
structure Redone (run : List TxnAction) (rm : RecoveryManager) : Prop where
  kv : rm.kv_ = Schedule.replay (ops run)
  active : ∀ t lsn, rm.active_txn_.lookup t = some lsn ↔ Active (ops run) t ∧ lastLsn run t = lsn
  mapping : ∀ p a q, run = p ++ a :: q →
    rm.lsn_mapping_.lookup (p.length : Int) = some ((logSize p : Int), (a.size : Int))

/-! ## One record -/

section RedoLog

variable {rm : RecoveryManager} {a : TxnAction} {prev_lsn lsn : Int} {t : txn_id_t}
variable {log : List (Schedule.Op txn_id_t Bytes Bytes)}

/-- The store after a record. -/
theorem RedoLog_kv (h : a.Fits) : (rm.RedoLog (a.logRecord prev_lsn lsn)).kv_ = Schedule.apply rm.kv_ a.op := by
  cases a with
  | BEGIN | COMMIT | ABORT => rfl
  | INSERT t key value =>
      obtain ⟨hkey, hvalue⟩ := TxnAction.lengths_lt h
      have hk : ((TxnAction.INSERT t key value).logRecord prev_lsn lsn).key = key := LogRecord.key_ofStrings hkey
      have hv : ((TxnAction.INSERT t key value).logRecord prev_lsn lsn).value = value :=
        LogRecord.value_ofStrings hvalue
      show Function.update rm.kv_ ((TxnAction.INSERT t key value).logRecord prev_lsn lsn).key
        (some ((TxnAction.INSERT t key value).logRecord prev_lsn lsn).value) = _
      rw [hk, hv]
      rfl
  | DELETE t key value =>
      obtain ⟨hkey, -⟩ := TxnAction.lengths_lt h
      have hk : ((TxnAction.DELETE t key value).logRecord prev_lsn lsn).key = key := LogRecord.key_ofStrings hkey
      show Function.update rm.kv_ ((TxnAction.DELETE t key value).logRecord prev_lsn lsn).key none = _
      rw [hk]
      rfl

theorem RedoLog_lookup_other (h : a.txn_id ≠ t) :
    (rm.RedoLog (a.logRecord prev_lsn lsn)).active_txn_.lookup t = rm.active_txn_.lookup t := by
  have hne : t ≠ a.txn_id := Ne.symm h
  cases a with
  | BEGIN u => exact (AList.lookup_insert_ne hne).trans (AList.lookup_insert_ne hne)
  | INSERT u key value => exact AList.lookup_insert_ne hne
  | DELETE u key value => exact AList.lookup_insert_ne hne
  | COMMIT u => exact (AList.lookup_erase_ne hne).trans (AList.lookup_insert_ne hne)
  | ABORT u => exact (AList.lookup_erase_ne hne).trans (AList.lookup_insert_ne hne)

/-- An unfinished transaction is known, with its last LSN. -/
theorem some_eq_iff {p : Prop} {l : Int} (hp : p) {x : Option Int} (hx : x = some lsn) : x = some l ↔ p ∧ lsn = l := by
  rw [hx, Option.some.injEq]
  exact (and_iff_right hp).symm

/-- A finished one is not. -/
theorem none_eq_iff {p : Prop} {l : Int} (hp : ¬ p) {x : Option Int} (hx : x = none) : x = some l ↔ p ∧ lsn = l := by
  rw [hx]
  exact iff_of_false (by simp) (fun h => hp h.1)

/-- Behind its record a transaction is unfinished, with this as its last record, or finished. -/
theorem RedoLog_lookup_self (h : Allowed log a.op) (l : Int) :
    (rm.RedoLog (a.logRecord prev_lsn lsn)).active_txn_.lookup a.txn_id = some l ↔
      Active (log ++ [a.op]) a.txn_id ∧ lsn = l := by
  cases a with
  | BEGIN u =>
      apply some_eq_iff
      · exact (Schedule.active_begin h).mpr (Or.inr rfl)
      · exact AList.lookup_insert _
  | INSERT u key value =>
      apply some_eq_iff
      · exact Schedule.active_write.mpr h.1
      · exact AList.lookup_insert _
  | DELETE u key value =>
      apply some_eq_iff
      · exact Schedule.active_write.mpr h.1
      · exact AList.lookup_insert _
  | COMMIT u =>
      apply none_eq_iff
      · exact fun hactive => (Schedule.active_commit.mp hactive).2 rfl
      · exact AList.lookup_erase _ _
  | ABORT u =>
      apply none_eq_iff
      · exact fun hactive => (Schedule.active_abort.mp hactive).2 rfl
      · exact AList.lookup_erase _ _

end RedoLog

section Step

variable {rm : RecoveryManager} {pre : List TxnAction} {a : TxnAction} {prev_lsn : Int}

theorem hand_kv (h : a.Fits) (pos : Nat) (lsn : Int) :
    (rm.hand pos (a.logRecord prev_lsn lsn)).kv_ = Schedule.apply rm.kv_ a.op := by
  rw [hand, h.readBack, RedoLog_kv h]
  rfl

/-- **One record.** -/
theorem Redone.hand (h : Redone pre rm) (hfit : a.Fits) (hop : Allowed (ops pre) a.op) :
    Redone (pre ++ [a]) (rm.hand (logSize pre) (a.logRecord prev_lsn pre.length)) := by
  constructor
  · rw [hand_kv hfit, h.kv, ops_snoc, Schedule.replay_snoc]
  · intro t lsn
    rw [RecoveryManager.hand, hfit.readBack, ops_snoc]
    by_cases ht : a.txn_id = t
    · subst ht
      rw [RedoLog_lookup_self hop, lastLsn_self]
    · rw [RedoLog_lookup_other ht, lastLsn_other ht]
      have hother : a.op.txn ≠ t := by rwa [TxnAction.op_txn]
      rw [Schedule.active_snoc_other hother]
      exact h.active t lsn
  · intro p b q hsplit
    rw [hand_mapping, hfit.length_encode]
    rcases List.eq_nil_or_concat q with rfl | ⟨q, c, rfl⟩
    · -- the new record
      obtain ⟨rfl, hb⟩ := List.append_inj' hsplit rfl
      obtain rfl := List.singleton_inj.mp hb
      have hsize : wrap32 a.size = a.size := by
        have hlt := hfit
        rw [TxnAction.Fits, LOG_BUFFER_SIZE_eq] at hlt
        exact wrap32_of_lt (by omega) (by omega)
      rw [hsize]
      exact AList.lookup_insert _
    · rw [List.concat_eq_append, ← List.cons_append, ← List.append_assoc] at hsplit
      obtain ⟨hpre, -⟩ := List.append_inj' hsplit rfl
      have hne : (p.length : Int) ≠ pre.length := by
        rw [hpre, List.length_append, List.length_cons]
        omega
      exact (AList.lookup_insert_ne hne).trans (h.mapping p b q hpre)

end Step

/-- **A whole run**, from a recovery manager that knows nothing. -/
theorem redone_run {run : List TxnAction} (h : Valid run) {rm : RecoveryManager} (h0 : Redone [] rm) :
    Redone run (handAll rm 0 (logFrom [] run)) := by
  induction run using List.reverseRecOn with
  | nil => exact h0
  | append_singleton pre a ih =>
      obtain ⟨hpre, hfit, hop⟩ := h.of_snoc
      have hlen : (bytesOf (logFrom [] pre)).length = logSize pre := length_bytesFrom hpre.fits []
      rw [logFrom_append, handAll_append, hlen, Nat.zero_add]
      exact (ih hpre).hand hfit hop

/-- A new recovery manager knows nothing. -/
theorem redone_init (log_file : Bytes) (buffer : Vector UInt8 LOG_BUFFER_SIZE) : Redone [] (init log_file buffer) := by
  constructor
  · rfl
  · intro t lsn
    apply iff_of_false
    · rw [init, AList.lookup_empty]
      simp
    · rintro ⟨⟨hbegin, -⟩, -⟩
      cases hbegin
  · intro p a q hsplit
    simp at hsplit

/-! ## `Redo` of a run -/

section Run

variable {run pre as : List TxnAction} {r : LogRecord}

theorem mem_logFrom (h : r ∈ logFrom pre as) :
    ∃ p a q, as = p ++ a :: q ∧ r = a.logRecord (lastLsn (pre ++ p) a.txn_id) (pre ++ p).length := by
  induction as generalizing pre with
  | nil => cases h
  | cons a as ih =>
      rcases List.mem_cons.mp h with rfl | h
      · exact ⟨[], a, as, rfl, by rw [List.append_nil]⟩
      · obtain ⟨p, b, q, rfl, rfl⟩ := ih h
        refine ⟨a :: p, b, q, rfl, ?_⟩
        rw [List.append_assoc, List.singleton_append]

/-- A file of less than 2 ^ 32 bytes has less than 2 ^ 28 records. -/
theorem length_run_lt (h : Valid run) (hlen : (logFile run).length < 2 ^ 32) : run.length < 2 ^ 28 := by
  have hle := length_le_logSize run
  have hsize : LogRecord.HEADER_SIZE = 24 := rfl
  rw [length_logFile h.fits] at hlen
  rw [hsize] at hle
  omega

theorem inRange_lastLsn (h : run.length < 2 ^ 28) (t : txn_id_t) : LogRecord.InRange (lastLsn run t) := by
  have hrange := lastLsn_range run t
  constructor <;> omega

theorem readable_run (h : Valid run) (hlen : run.length < 2 ^ 28) : ∀ r ∈ logFrom [] run, r.Readable := by
  intro r hr
  obtain ⟨p, a, q, hsplit, rfl⟩ := mem_logFrom hr
  rw [List.nil_append]
  have hp : p.length < run.length := by
    rw [hsplit, List.length_append, List.length_cons]
    omega
  apply (h.fits a (by rw [hsplit]; simp)).readable
  · constructor <;> omega
  · exact inRange_lastLsn (by omega) a.txn_id

theorem sizesOf_logFrom (h : ∀ a ∈ as, a.Fits) (pre : List TxnAction) :
    sizesOf (logFrom pre as) = as.map TxnAction.size := by
  induction as generalizing pre with
  | nil => rfl
  | cons a as ih =>
      rw [logFrom, sizesOf, List.map_cons, (h a List.mem_cons_self).length_encode, List.map_cons]
      exact congrArg _ (ih (fun b hb => h b (List.mem_cons_of_mem _ hb)) _)

theorem maxLsn_run (run : List TxnAction) : maxLsn INVALID_LSN (logFrom [] run) + 1 = run.length := by
  induction run using List.reverseRecOn with
  | nil => rfl
  | append_singleton pre a ih =>
      have hlast : maxLsn (maxLsn INVALID_LSN (logFrom [] pre)) (logFrom ([] ++ pre) [a]) =
          max (maxLsn INVALID_LSN (logFrom [] pre)) pre.length := rfl
      rw [logFrom_append, maxLsn_append, hlast, List.length_append, List.length_singleton]
      omega

/-- The log of the run can be recovered from: no probe of `Redo` leaves the buffer, and the file size is an `int`. -/
structure Readable (run : List TxnAction) : Prop where
  inside : Inside 0 (run.map TxnAction.size)
  length : (logFile run).length < 2 ^ 31

theorem recoverable_iff (h : Valid run) (hlen : run.length < 2 ^ 28) :
    Recoverable (logFrom [] run) ↔ Readable run := by
  have hsizes := sizesOf_logFrom h.fits []
  constructor
  · intro hr
    exact ⟨hsizes ▸ hr.inside, hr.length⟩
  · intro hr
    refine ⟨hsizes ▸ hr.inside, hr.length, ?_⟩
    intro r hmem
    obtain ⟨p, a, q, hsplit, rfl⟩ := mem_logFrom hmem
    rw [TxnAction.logRecord_lsn, List.nil_append]
    have hp : p.length < run.length := by
      rw [hsplit, List.length_append, List.length_cons]
      omega
    omega

/-- What `Redo` leaves: the run is redone, and nothing is appended yet. -/
structure RedoneRun (run : List TxnAction) (rm : RecoveryManager) : Prop extends Redone run rm where
  buffer : rm.buffer_.length = LOG_BUFFER_SIZE
  log_file : rm.log_file = logFile run
  next_lsn : rm.next_lsn_ = run.length
  appended : rm.appended = []

/-- **`Redo`** of the log of a run. -/
theorem Redo_run (h : Valid run) (hlen : (logFile run).length < 2 ^ 32) {fuel : Nat}
    (hfuel : (logFile run).length + 1 < fuel) (buffer : Vector UInt8 LOG_BUFFER_SIZE) :
    (Redo fuel (init (logFile run) buffer) = none ∧ ¬ Readable run) ∨
    (∃ rm, Redo fuel (init (logFile run) buffer) = some rm ∧ RedoneRun run rm) ∧ Readable run := by
  have hshort := length_run_lt h hlen
  have hrecords : (logFrom [] run).length + 1 < fuel :=
    lt_of_le_of_lt (Nat.succ_le_succ (length_le_bytesOf (logFrom [] run))) hfuel
  rw [← recoverable_iff h hshort]
  rcases Redo_spec (readable_run h hshort) hlen hrecords buffer with hbad | ⟨⟨b, hb, hsome⟩, hgood⟩
  · exact Or.inl hbad
  · right
    have hredone := redone_run h (redone_init (logFile run) buffer)
    refine ⟨⟨_, hsome, ⟨hredone.kv, hredone.active, hredone.mapping⟩, hb, ?_, maxLsn_run run, ?_⟩, hgood⟩
    · exact handAll_log_file _ _ _
    · exact handAll_appended _ _ _

end Run

end RecoveryLog
end DDBMS
