import DDBMS.Recovery.RecoveryRedo

/-!
# `Recovery.RecoveryUndo` — what `Undo` makes of the log of a run

`Undo` takes back the records of the unfinished transactions, the one with the largest LSN first. `Undoing` says where
it stands: the records it has appended are those of some more actions (`done`), behind the run. The set of LSNs to take
back next has, when the records from some place on are taken back, the last LSN before that place of each unfinished
transaction (`Pending`): it is the `Frontier` of the records that are left.

On the store this is `Schedule.undo` with the `inverse` that `UndoLog` uses.
-/

namespace DDBMS
namespace RecoveryLog

open RecoveryManager
open TransactionManager (links links_owner links_num links_prev)
open Schedule (Active)

/-- What `UndoLog` puts in the place of a written value: it removes an inserted key, and gives a deleted one itself. -/
def inverse (key : Bytes) : Option Bytes → Option Bytes
  | some _ => none
  | none => some key

/-- The action that `UndoLog` logs when it takes an action back. -/
def compensation : TxnAction → List TxnAction
  | .INSERT t key value => [.DELETE t key value]
  | .DELETE t key value => [.INSERT t key value]
  | .BEGIN _ | .COMMIT _ | .ABORT _ => []

/-- The records of the actions `done` have been appended behind the run. -/
structure Appended (run done : List TxnAction) (rm : RecoveryManager) : Prop where
  next_lsn : rm.next_lsn_ = (run ++ done).length
  appended : rm.appended = logFrom run done

/-- Where `Undo` stands. -/
structure Undoing (run done : List TxnAction) (rm : RecoveryManager) : Prop extends Appended run done rm where
  buffer : rm.buffer_.length = LOG_BUFFER_SIZE
  log_file : rm.log_file = logFile run
  mapping : ∀ p a q, run = p ++ a :: q →
    rm.lsn_mapping_.lookup (p.length : Int) = some ((logSize p : Int), (a.size : Int))
  active : ∀ t lsn, rm.active_txn_.lookup t = some lsn ↔ Active (ops run) t ∧ lastLsn (run ++ done) t = lsn

theorem RedoneRun.undoing {run : List TxnAction} {rm : RecoveryManager} (h : RedoneRun run rm) : Undoing run [] rm where
  buffer := h.buffer
  log_file := h.log_file
  mapping := h.mapping
  active := by
    rw [List.append_nil]
    exact h.active
  next_lsn := by
    rw [List.append_nil]
    exact h.next_lsn
  appended := h.appended

/-! ## One record -/

section Step

variable {run done pre post : List TxnAction} {rm : RecoveryManager} {a : TxnAction} {lsn prev_lsn : Int} {t : txn_id_t}

theorem fetch_buffer {offset size : Int} (h : rm.lsn_mapping_.lookup lsn = some (offset, size)) :
    (rm.fetch lsn).buffer_ = (LogStorage.ReadLog rm.log_file rm.buffer_ size offset).getD rm.buffer_ := by
  unfold fetch
  rw [h]
  rfl

/-- A record of the file is fetched from where `lsn_mapping_` says. -/
theorem fetch_record {rs p q : List LogRecord} {r : LogRecord} (hfile : rm.log_file = bytesOf rs)
    (hbuf : rm.buffer_.length = LOG_BUFFER_SIZE) (hlen : (bytesOf rs).length < 2 ^ 31) (hsplit : rs = p ++ r :: q)
    (hr : r.Readable)
    (hmapping : rm.lsn_mapping_.lookup lsn = some (((bytesOf p).length : Int), (r.encode.length : Int))) :
    (rm.fetch lsn).buffer_.length = LOG_BUFFER_SIZE ∧
      LogRecord.DeserializeFrom (rm.fetch lsn).buffer_ = some r.readBack := by
  have hbytes : bytesOf rs = bytesOf p ++ (r.encode ++ bytesOf q) := by rw [hsplit, bytesOf_append, bytesOf_cons]
  have htotal := congrArg List.length hbytes
  rw [List.length_append, List.length_append] at htotal
  have hheader := r.header_le_encode
  have hsize : LogRecord.HEADER_SIZE = 24 := rfl
  have hmore := LogStorage.not_atEnd (show (bytesOf p).length < rm.log_file.length by rw [hfile]; omega)
    (by rw [hfile]; omega) (by omega)
  -- the bytes at that place are the ones of the record
  have hchunk : (rm.log_file.drop (bytesOf p).length ++ List.replicate r.encode.length 0).take r.encode.length =
      r.encode := by
    rw [hfile, hbytes, List.drop_left, List.append_assoc]
    exact List.take_left' rfl
  have hbuffer : (rm.fetch lsn).buffer_ = memcpy rm.buffer_ 0 r.encode := by
    rw [fetch_buffer hmapping, LogStorage.ReadLog_eq r.encode.length hmore, hchunk, Option.getD_some]
  have hlt := hr.lt
  constructor
  · rw [hbuffer, length_memcpy (by rw [hbuf]; omega)]
    exact hbuf
  · rw [hbuffer, memcpy_start]
    exact hr.wellFormed.deserialize _

/-- The record is fetched. -/
theorem Undoing.fetch (h : Undoing run done rm) (hrun : Valid run) (hlen : (logFile run).length < 2 ^ 31)
    (hsplit : run = pre ++ a :: post) : Undoing run done (rm.fetch pre.length) ∧
      LogRecord.DeserializeFrom (rm.fetch pre.length).buffer_ =
        some (a.logRecord (lastLsn pre a.txn_id) pre.length) := by
  have hfit : a.Fits := hrun.fits a (by rw [hsplit]; simp)
  have hfits : ∀ b ∈ pre, b.Fits := fun b hb => hrun.fits b (by rw [hsplit]; exact List.mem_append_left _ hb)
  have hshort := length_run_lt hrun (by omega)
  have hp : pre.length < run.length := by
    rw [hsplit, List.length_append, List.length_cons]
    omega
  have hrecords : logFrom [] run = logFrom [] pre ++
      a.logRecord (lastLsn pre a.txn_id) pre.length :: logFrom (pre ++ [a]) post := by
    rw [hsplit, logFrom_append, logFrom]
    rfl
  have hreadable : (a.logRecord (lastLsn pre a.txn_id) pre.length).Readable := by
    apply hfit.readable
    · constructor <;> omega
    · exact inRange_lastLsn (by omega) a.txn_id
  -- the record stands where `lsn_mapping_` says
  have hmapping := h.mapping pre a post hsplit
  rw [← length_bytesFrom hfits [], ← hfit.length_encode (lastLsn pre a.txn_id) pre.length] at hmapping
  obtain ⟨hbuffer, hread⟩ := fetch_record h.log_file h.buffer hlen hrecords hreadable hmapping
  rw [hfit.readBack] at hread
  exact ⟨⟨⟨h.next_lsn, h.appended⟩, hbuffer, h.log_file, h.mapping, h.active⟩, hread⟩

/-- `Undo` stands where it stood when the store is changed. -/
theorem Undoing.withKv (h : Undoing run done rm) (kv : Bytes → Option Bytes) : Undoing run done { rm with kv_ := kv } :=
  ⟨⟨h.next_lsn, h.appended⟩, h.buffer, h.log_file, h.mapping, h.active⟩

theorem length_snoc (run done : List TxnAction) (b : TxnAction) :
    (run ++ (done ++ [b])).length = (run ++ done).length + 1 := by
  rw [← List.append_assoc]
  exact List.length_append

/-- **A record is appended**, with the last LSN of its transaction as `prev_lsn_`. -/
theorem Appended.append (h : Appended run done rm) (b : TxnAction) (hlen : (run ++ done).length + 1 < 2 ^ 31) :
    Appended run (done ++ [b]) (rm.AppendLogRecord (b.record (lastLsn (run ++ done) b.txn_id))).1 := by
  constructor
  · show wrap32 (rm.next_lsn_ + 1) = _
    rw [h.next_lsn, length_snoc, wrap32_of_lt (by omega) (by omega)]
    exact (Nat.cast_succ _).symm
  · show rm.appended ++ [(b.record (lastLsn (run ++ done) b.txn_id)).SetLsn rm.next_lsn_] = _
    rw [h.appended, h.next_lsn, logFrom_append]
    rfl

theorem Undoing.compensate (h : Undoing run done rm) {r : LogRecord} {type : LogRecordType} {b : TxnAction}
    (hb : ∀ prev_lsn, .ofTuple r.txn_id_ prev_lsn type r.key_size_ r.key_ r.value_size_ r.value_ = b.record prev_lsn)
    (htxn : r.txn_id_ = b.txn_id) (ht : Active (ops run) b.txn_id) (hlen : (run ++ done).length + 1 < 2 ^ 31) :
    Undoing run (done ++ [b]) (rm.compensate r type) := by
  have hlast : (rm.active_txn_.lookup b.txn_id).getD 0 = lastLsn (run ++ done) b.txn_id := by
    rw [(h.active b.txn_id _).mpr ⟨ht, rfl⟩, Option.getD_some]
  have hrecord : rm.compensate r type =
      ((rm.AppendLogRecord (b.record (lastLsn (run ++ done) b.txn_id))).1).setLast b.txn_id rm.next_lsn_ := by
    rw [RecoveryManager.compensate, htxn, hlast, ← htxn, hb, htxn]
    rfl
  have happend := h.toAppended.append b hlen
  rw [hrecord]
  refine ⟨⟨happend.next_lsn, happend.appended⟩, h.buffer, h.log_file, h.mapping, ?_⟩
  intro u l
  rw [← List.append_assoc, lastLsn_snoc]
  by_cases hu : b.txn_id = u
  · subst hu
    rw [if_pos rfl, ← h.next_lsn]
    exact some_eq_iff ht (AList.lookup_insert _)
  · rw [if_neg hu]
    exact (iff_of_eq (congrArg (· = some l) (AList.lookup_insert_ne (Ne.symm hu)))).trans (h.active u l)

/-- **One record is taken back.** -/
theorem Undoing.undoLog (prev_lsn lsn : Int) (h : Undoing run done rm) (hfit : a.Fits) (ht : Active (ops run) a.txn_id)
    (hlen : (run ++ done).length + 1 < 2 ^ 31) :
    Undoing run (done ++ compensation a) (rm.UndoLog (a.logRecord prev_lsn lsn)) ∧
      (rm.UndoLog (a.logRecord prev_lsn lsn)).kv_ = Schedule.undoOp inverse rm.kv_ a.op := by
  cases a with
  | BEGIN | COMMIT | ABORT =>
      rw [compensation, List.append_nil]
      exact ⟨h, rfl⟩
  | INSERT t key value =>
      obtain ⟨hkey, -⟩ := TxnAction.lengths_lt hfit
      have hk : ((TxnAction.INSERT t key value).logRecord prev_lsn lsn).key = key := LogRecord.key_ofStrings hkey
      constructor
      · exact (h.withKv _).compensate (b := .DELETE t key value) (fun _ => rfl) rfl ht hlen
      · show Function.update rm.kv_ ((TxnAction.INSERT t key value).logRecord prev_lsn lsn).key none = _
        rw [hk]
        rfl
  | DELETE t key value =>
      obtain ⟨hkey, -⟩ := TxnAction.lengths_lt hfit
      have hk : ((TxnAction.DELETE t key value).logRecord prev_lsn lsn).key = key := LogRecord.key_ofStrings hkey
      constructor
      · exact (h.withKv _).compensate (b := .INSERT t key value) (fun _ => rfl) rfl ht hlen
      · show Function.update rm.kv_ ((TxnAction.DELETE t key value).logRecord prev_lsn lsn).key
          (some ((TxnAction.DELETE t key value).logRecord prev_lsn lsn).key) = _
        rw [hk]
        rfl

end Step

/-! ## The loop -/

section Loop

variable {run done pre post : List TxnAction} {rm : RecoveryManager} {next_lsn : Finset Int} {fuel : Nat}

/-- The LSNs to take back next: the last ones, among the records of `pre`, of the unfinished transactions. -/
def Pending (run pre : List TxnAction) (next_lsn : Finset Int) : Prop :=
  ∀ lsn, lsn ∈ next_lsn ↔ ∃ t, Active (ops run) t ∧ lastLsn pre t = lsn ∧ lsn ≠ INVALID_LSN

/-- The actions that take back the records of the unfinished transactions, the last one first. -/
def compensations (run pre : List TxnAction) : List TxnAction :=
  pre.reverse.flatMap fun a => if Active (ops run) a.txn_id then compensation a else []

theorem compensations_snoc (run pre : List TxnAction) (a : TxnAction) : compensations run (pre ++ [a]) =
    (if Active (ops run) a.txn_id then compensation a else []) ++ compensations run pre := by
  rw [compensations, List.reverse_append]
  rfl

theorem length_compensations (run pre : List TxnAction) : (compensations run pre).length ≤ pre.length := by
  induction pre using List.reverseRecOn with
  | nil => exact le_refl _
  | append_singleton pre a ih =>
      have hone : (if Active (ops run) a.txn_id then compensation a else []).length ≤ 1 := by
        split
        · cases a <;> simp [compensation]
        · exact Nat.zero_le _
      rw [compensations_snoc, List.length_append, List.length_append, List.length_singleton]
      omega

theorem lastOf_empty (h : ∀ lsn, lsn ∉ next_lsn) : lastOf next_lsn = none := by
  apply dif_neg
  rintro ⟨lsn, hlsn⟩
  exact h lsn hlsn

theorem lastOf_eq {lsn : Int} (hmem : lsn ∈ next_lsn) (hmax : ∀ l ∈ next_lsn, l ≤ lsn) : lastOf next_lsn = some lsn := by
  rw [lastOf, dif_pos ⟨lsn, hmem⟩]
  congr 1
  apply le_antisymm
  · exact Finset.max'_le _ _ _ hmax
  · exact Finset.le_max' _ _ hmem

/-- The record of one more action. -/
theorem logFrom_snoc (pre : List TxnAction) (a : TxnAction) :
    logFrom [] (pre ++ [a]) = logFrom [] pre ++ [a.logRecord (lastLsn pre a.txn_id) pre.length] := logFrom_append [] pre [a]

/-- The last LSNs of a run are those of its records. -/
theorem links_last (run : List TxnAction) (t : txn_id_t) : links.last (logFrom [] run) t = lastLsn run t := by
  induction run using List.reverseRecOn with
  | nil => rfl
  | append_singleton pre a ih =>
      rw [logFrom_snoc]
      by_cases ht : a.txn_id = t
      · subst ht
        have hself := BackLinks.last_snoc_self (L := links) (logFrom [] pre) (a.logRecord (lastLsn pre a.txn_id) pre.length)
        rw [links_owner, links_num, TxnAction.logRecord_txn_id, TxnAction.logRecord_lsn] at hself
        rw [hself, lastLsn_self]
      · rw [BackLinks.last_snoc_other (by simpa using ht), ih, lastLsn_other ht]

/-- The records of a run are chained. -/
theorem chained_logFrom (run : List TxnAction) : links.Chained (logFrom [] run) := by
  induction run using List.reverseRecOn with
  | nil => exact BackLinks.Chained.nil
  | append_singleton pre a ih =>
      rw [logFrom_snoc]
      apply ih.snoc
      · intro q hq
        obtain ⟨p, b, q, rfl, rfl⟩ := mem_logFrom hq
        simp
      · simp
      · simp [links_last]

/-- What is pending is the frontier of the records. -/
theorem pending_iff : Pending run pre next_lsn ↔ links.Frontier (Active (ops run)) (logFrom [] pre) next_lsn := by
  apply forall_congr'
  intro lsn
  simp only [links_last, ← and_assoc, exists_and_right]
  rw [and_comm]
  rfl

/-- Nothing is left to take back. -/
theorem Pending.nil (h : Pending run [] next_lsn) : lastOf next_lsn = none :=
  lastOf_empty fun _ => (pending_iff.mp h).nil

/-- A record of a finished transaction is passed over. -/
theorem Pending.skip {a : TxnAction} (h : Pending run (pre ++ [a]) next_lsn) (ha : ¬ Active (ops run) a.txn_id) :
    Pending run pre next_lsn := by
  rw [pending_iff, logFrom_snoc] at h
  rw [pending_iff]
  exact h.skip (by simpa using ha)

/-- A record of an unfinished transaction is the last one. -/
theorem Pending.last {a : TxnAction} (h : Pending run (pre ++ [a]) next_lsn) (ha : Active (ops run) a.txn_id) :
    lastOf next_lsn = some (pre.length : Int) := by
  have hlog := chained_logFrom (pre ++ [a])
  rw [pending_iff, logFrom_snoc] at h
  rw [logFrom_snoc] at hlog
  obtain ⟨hmem, hmax⟩ := h.max hlog (by simpa using ha)
  exact lastOf_eq hmem hmax

/-- The previous record of its transaction takes its place. -/
theorem Pending.step {a : TxnAction} (h : Pending run (pre ++ [a]) next_lsn) (ha : Active (ops run) a.txn_id) :
    Pending run pre (if lastLsn pre a.txn_id ≠ INVALID_LSN then insert (lastLsn pre a.txn_id) (next_lsn.erase pre.length)
      else next_lsn.erase pre.length) := by
  have hlog := chained_logFrom (pre ++ [a])
  rw [pending_iff, logFrom_snoc] at h
  rw [logFrom_snoc] at hlog
  have hstep := h.step hlog (by simpa using ha)
  rw [links_prev, links_num, TxnAction.logRecord_prev_lsn, TxnAction.logRecord_lsn] at hstep
  exact pending_iff.mpr hstep

/-- **The loop of `Undo`**, from the records of `pre` on. -/
theorem undoLoop_spec (hrun : Valid run) (hlen : (logFile run).length < 2 ^ 31) (hsplit : run = pre ++ post)
    (h : Undoing run done rm) (hdone : done.length + pre.length ≤ run.length) (hpending : Pending run pre next_lsn)
    (hfuel : pre.length < fuel) : ∃ rm', undoLoop fuel rm next_lsn = some rm' ∧
      Undoing run (done ++ compensations run pre) rm' ∧
      rm'.kv_ = Schedule.undoFrom inverse (Active (ops run)) rm.kv_ (ops pre) := by
  induction pre using List.reverseRecOn generalizing done rm next_lsn fuel post with
  | nil =>
      obtain ⟨fuel, rfl⟩ : ∃ n, fuel = n + 1 := ⟨fuel - 1, by simp at hfuel; omega⟩
      refine ⟨rm, ?_, ?_, rfl⟩
      · rw [undoLoop, hpending.nil]
      · rw [compensations, List.reverse_nil, List.flatMap_nil, List.append_nil]
        exact h
  | append_singleton pre a ih =>
      have hsplit' : run = pre ++ a :: post := by rw [hsplit, List.append_assoc, List.singleton_append]
      have hshort := length_run_lt hrun (by omega)
      rw [List.length_append, List.length_singleton] at hdone hfuel
      -- the set of LSNs holds the last record that is left of each active transaction
      rw [compensations_snoc, ops_snoc, Schedule.undoFrom_snoc, TxnAction.op_txn]
      by_cases ha : Active (ops run) a.txn_id
      · -- the record is taken back
        obtain ⟨fuel, rfl⟩ : ∃ n, fuel = n + 1 := ⟨fuel - 1, by omega⟩
        have hfit : a.Fits := hrun.fits a (by rw [hsplit']; simp)
        obtain ⟨hfetch, hread⟩ := h.fetch hrun hlen hsplit'
        have hroom : (run ++ done).length + 1 < 2 ^ 31 := by
          rw [List.length_append]
          omega
        obtain ⟨hstep, hkv⟩ := hfetch.undoLog (lastLsn pre a.txn_id) pre.length hfit ha hroom
        have hcount : (compensation a).length ≤ 1 := by cases a <;> simp [compensation]
        have hfuel' : pre.length < fuel := by omega
        have hdone' : (done ++ compensation a).length + pre.length ≤ run.length := by
          rw [List.length_append]
          omega
        obtain ⟨rm', hloop, hundoing, hkv'⟩ := ih hsplit' hstep hdone' (hpending.step ha) hfuel'
        rw [if_pos ha, if_pos ha, ← List.append_assoc]
        refine ⟨rm', ?_, hundoing, ?_⟩
        · rw [undoLoop, hpending.last ha]
          show (LogRecord.DeserializeFrom (rm.fetch pre.length).buffer_).bind _ = _
          rw [hread, Option.bind_some, TxnAction.logRecord_prev_lsn]
          exact hloop
        · rw [hkv', hkv]
          rfl
      -- a record of a finished transaction is not in the set
      · rw [if_neg ha, if_neg ha, List.nil_append]
        exact ih hsplit' h (by omega) (hpending.skip ha) (by omega)

end Loop

/-! ## The abort records -/

section Abort

variable {run done : List TxnAction} {rm : RecoveryManager}

theorem abortAll_kv (rm : RecoveryManager) (es : List ActiveTxn) : (rm.abortAll es).kv_ = rm.kv_ := by
  induction es generalizing rm with
  | nil => rfl
  | cons e es ih => exact ih _

/-- Every entry gets its abort record. -/
theorem abortAll_spec {es : List ActiveTxn} (h : Appended run done rm) (hnodup : (es.map Sigma.fst).Nodup)
    (hlast : ∀ e ∈ es, lastLsn (run ++ done) e.1 = e.2) (hlen : (run ++ done).length + es.length < 2 ^ 31) :
    Appended run (done ++ es.map fun e => .ABORT e.1) (rm.abortAll es) := by
  induction es generalizing rm done with
  | nil =>
      rw [List.map_nil, List.append_nil]
      exact h
  | cons e es ih =>
      obtain ⟨hnew, hrest⟩ := List.nodup_cons.mp hnodup
      rw [List.length_cons] at hlen
      have hstep := h.append (.ABORT e.1) (by omega)
      rw [show (TxnAction.ABORT e.1).txn_id = e.1 from rfl, hlast e List.mem_cons_self] at hstep
      have hlen' : (run ++ (done ++ [TxnAction.ABORT e.1])).length + es.length < 2 ^ 31 := by
        rw [length_snoc]
        omega
      have hlast' : ∀ d ∈ es, lastLsn (run ++ (done ++ [TxnAction.ABORT e.1])) d.1 = d.2 := by
        intro d hd
        rw [← List.append_assoc, lastLsn_other]
        · exact hlast d (List.mem_cons_of_mem _ hd)
        · rintro heq
          apply hnew
          rw [show e.1 = d.1 from heq]
          exact List.mem_map_of_mem hd
      rw [List.map_cons, ← List.singleton_append, ← List.append_assoc]
      exact ih hstep hrest hlast' hlen'

/-- The entries of `active_txn_` are the unfinished transactions, with their last LSNs. -/
theorem Undoing.mem_entries (h : Undoing run done rm) (e : ActiveTxn) :
    e ∈ rm.active_txn_.entries ↔ Active (ops run) e.1 ∧ lastLsn (run ++ done) e.1 = e.2 := by
  rw [← h.active, ← AList.mem_lookup_iff]
  rfl

/-- When `active_txn_` has exactly these transactions with their last LSNs, the LSNs are their frontier. -/
theorem frontier_entries {p : txn_id_t → Prop} {rs : List LogRecord} {active : AList fun _ : txn_id_t => Int}
    (h : ∀ t lsn, active.lookup t = some lsn ↔ p t ∧ lsn ≠ INVALID_LSN ∧ links.last rs t = lsn) :
    links.Frontier p rs (active.entries.map Sigma.snd).toFinset := by
  intro lsn
  rw [List.mem_toFinset, List.mem_map]
  constructor
  · rintro ⟨e, he, rfl⟩
    obtain ⟨hp, hvalid, hlast⟩ := (h e.1 e.2).mp (AList.mem_lookup_iff.mpr he)
    exact ⟨hvalid, e.1, hp, hlast⟩
  · rintro ⟨hvalid, t, hp, hlast⟩
    exact ⟨⟨t, lsn⟩, AList.mem_lookup_iff.mp ((h t lsn).mpr ⟨hp, hvalid, hlast⟩), rfl⟩

theorem Undoing.pending (h : Undoing run [] rm) : Pending run run (rm.active_txn_.entries.map Sigma.snd).toFinset := by
  apply pending_iff.mpr
  apply frontier_entries
  intro t lsn
  rw [h.active, List.append_nil, links_last]
  apply and_congr_right
  intro hactive
  -- an unfinished transaction has a record
  have hvalid := lastLsn_of_mem (begin_mem hactive)
  exact (and_iff_right_of_imp (by rintro rfl; exact hvalid)).symm

/-- There are no more unfinished transactions than records. -/
theorem length_active_le {ts : List txn_id_t} (hnodup : ts.Nodup) (hactive : ∀ t ∈ ts, Active (ops run) t) :
    ts.length ≤ run.length := by
  have hsub : ts.map TxnAction.BEGIN ⊆ run := by
    intro a ha
    obtain ⟨t, ht, rfl⟩ := List.mem_map.mp ha
    exact begin_mem (hactive t ht)
  have hnodup' : (ts.map TxnAction.BEGIN).Nodup := hnodup.map (fun t u h => TxnAction.BEGIN.inj h)
  have hle := (hnodup'.subperm hsub).length_le
  rwa [List.length_map] at hle

end Abort

/-! ## `ARIES` -/

section ARIES

variable {run : List TxnAction} {rm : RecoveryManager} {fuel : Nat} {order : List ActiveTxn → List ActiveTxn}

/-- What recovery appends: it takes back the records of the unfinished transactions and aborts these. -/
def recovery (run : List TxnAction) (ts : List txn_id_t) : List TxnAction := compensations run run ++ ts.map .ABORT

/-- What a recovery of the log of a run comes to. -/
structure Recovered (order : List ActiveTxn → List ActiveTxn) (run : List TxnAction) (rm : RecoveryManager) : Prop where
  kv : rm.kv_ = Schedule.undo inverse (ops run)
  appended : (∀ es, (order es).Perm es) → ∃ ts : List txn_id_t, ts.Nodup ∧ (∀ t, t ∈ ts ↔ Active (ops run) t) ∧
    rm.appended = logFrom run (recovery run ts)

/-- **`Undo`** of the log of a run. -/
theorem Undo_run (hrun : Valid run) (hlen : (logFile run).length < 2 ^ 31) (hfuel : run.length < fuel)
    (h : RedoneRun run rm) : ∃ rm', Undo order fuel rm = some rm' ∧ Recovered order run rm' := by
  have hshort := length_run_lt hrun (by omega)
  obtain ⟨rm', hloop, hundoing, hkv⟩ := undoLoop_spec hrun hlen (List.append_nil run).symm h.undoing
    (by simp) h.undoing.pending hfuel
  refine ⟨rm'.abortAll (order rm'.active_txn_.entries), ?_, ?_, ?_⟩
  · rw [Undo, hloop]
    rfl
  · rw [abortAll_kv, hkv, h.kv]
    rfl
  · intro horder
    -- the map of active transactions may be iterated in any order
    have hperm := horder rm'.active_txn_.entries
    have hmem : ∀ e, e ∈ order rm'.active_txn_.entries ↔
        Active (ops run) e.1 ∧ lastLsn (run ++ ([] ++ compensations run run)) e.1 = e.2 := by
      intro e
      rw [hperm.mem_iff]
      exact hundoing.mem_entries e
    have hnodup : ((order rm'.active_txn_.entries).map Sigma.fst).Nodup :=
      (hperm.map Sigma.fst).nodup_iff.mpr rm'.active_txn_.nodupKeys
    have hactive : ∀ t ∈ (order rm'.active_txn_.entries).map Sigma.fst, Active (ops run) t := by
      intro t ht
      obtain ⟨e, he, rfl⟩ := List.mem_map.mp ht
      exact ((hmem e).mp he).1
    refine ⟨_, hnodup, ?_, ?_⟩
    · intro t
      refine ⟨hactive t, fun ht => ?_⟩
      have he := (hmem ⟨t, lastLsn (run ++ ([] ++ compensations run run)) t⟩).mpr ⟨ht, rfl⟩
      exact List.mem_map.mpr ⟨_, he, rfl⟩
    · have hcount := length_active_le hnodup hactive
      have hcomp := length_compensations run run
      rw [List.length_map] at hcount
      have hall := abortAll_spec hundoing.toAppended hnodup (fun e he => ((hmem e).mp he).2)
        (by rw [List.nil_append, List.length_append]; omega)
      rw [hall.appended, List.nil_append, recovery, List.map_map]
      rfl

/-- **`ARIES`** of the log of a run: it fails, or redoes everything and undoes the unfinished transactions. -/
theorem ARIES_run (hrun : Valid run) (hlen : (logFile run).length < 2 ^ 32) (hfuel : (logFile run).length + 1 < fuel)
    (order : List ActiveTxn → List ActiveTxn) (buffer : Vector UInt8 LOG_BUFFER_SIZE) :
    (ARIES order fuel (init (logFile run) buffer) = none ∧ ¬ Readable run) ∨
    (∃ rm, ARIES order fuel (init (logFile run) buffer) = some rm ∧ Recovered order run rm) ∧ Readable run := by
  rcases Redo_run hrun hlen hfuel buffer with ⟨hnone, hbad⟩ | ⟨⟨rm, hredo, hredone⟩, hgood⟩
  · left
    rw [ARIES, hnone]
    exact ⟨rfl, hbad⟩
  · right
    have hrecords := length_le_logSize run
    rw [← length_logFile hrun.fits, show LogRecord.HEADER_SIZE = 24 from rfl] at hrecords
    obtain ⟨rm', hundo, hrecovered⟩ := Undo_run hrun hgood.length (show run.length < fuel by omega) hredone
    refine ⟨⟨rm', ?_, hrecovered⟩, hgood⟩
    rw [ARIES, hredo]
    exact hundo

end ARIES

end RecoveryLog
end DDBMS
