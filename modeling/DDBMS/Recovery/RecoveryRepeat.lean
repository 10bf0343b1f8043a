import DDBMS.Recovery.RecoveryUndo
import DDBMS.Lib.Run

/-!
# `Recovery.RecoveryRepeat` — recovery that is cut off and started again

What `ARIES` appends is more of the log: compensations are ordinary `INSERT` and `DELETE` records, and a later attempt
redoes and undoes them too. `Steady m run` says that undo of the log gives the store `m`. Every record that an attempt
appends keeps it: a compensation because its transaction has the key already (`Steady.append_own`), an abort record
because the compensations have put every key where undo puts it (`Steady.append_abort`).

The last needs `KeyIsValue`: a `DELETE` is taken back on the store with the key as value, and in the log with the deleted
value.
-/

namespace DDBMS
namespace RecoveryLog

open RecoveryManager
open Schedule (Active Writes Exclusive)

/-- Where an unfinished transaction's first record on a key is a `DELETE`, the deleted value is the key. -/
def KeyIsValue (run : List TxnAction) : Prop :=
  ∀ p t key value q, run = p ++ .DELETE t key value :: q → Active (ops run) t → ¬ Writes (ops p) t key → value = key

/-- Undo of the log gives the store `m`. -/
structure Steady (m : Bytes → Option Bytes) (run : List TxnAction) : Prop where
  valid : Valid run
  keyIsValue : KeyIsValue run
  undo : Schedule.undo inverse (ops run) = m

/-- A write of a key that its unfinished transaction has written before. -/
structure Own (run : List TxnAction) (b : TxnAction) : Prop where
  fits : b.Fits
  write : ∃ t key v, b.op = .write t key v ∧ Active (ops run) t ∧ Writes (ops run) t key

variable {run pre p q : List TxnAction} {a b c : TxnAction} {t : txn_id_t} {m : Bytes → Option Bytes}

/-- An element that is not the last one stands before it. -/
theorem split_snoc {α : Type} {l p q : List α} {x y : α} (h : l ++ [y] = p ++ x :: q) :
    (l = p ∧ y = x ∧ q = []) ∨ ∃ q', l = p ++ x :: q' ∧ q = q' ++ [y] := by
  rcases List.eq_nil_or_concat q with rfl | ⟨q, z, rfl⟩
  · obtain ⟨hl, hx⟩ := List.append_inj' h rfl
    exact Or.inl ⟨hl, List.singleton_inj.mp hx, rfl⟩
  · rw [List.concat_eq_append, ← List.cons_append, ← List.append_assoc] at h
    obtain ⟨hl, hx⟩ := List.append_inj' h rfl
    obtain rfl := List.singleton_inj.mp hx
    exact Or.inr ⟨q, hl, List.concat_eq_append⟩

theorem Valid.snoc (h : Valid run) (hfit : b.Fits) (hop : Schedule.Allowed (ops run) b.op) : Valid (run ++ [b]) := by
  constructor
  · rw [ops_snoc]
    exact .snoc h.exclusive hop
  · intro a ha
    rcases List.mem_append.mp ha with ha | ha
    · exact h.fits a ha
    · obtain rfl := List.mem_singleton.mp ha
      exact hfit

/-! ## Compensations -/

theorem Valid.snoc_own (h : Valid run) (hb : Own run b) : Valid (run ++ [b]) := by
  obtain ⟨hfit, t, key, v, hop, hactive, hwrites⟩ := hb
  apply h.snoc hfit
  rw [hop]
  exact ⟨hactive, fun u hu hwu => h.exclusive.unique hu hactive hwu hwrites⟩

theorem Steady.snoc_own (h : Steady m run) (hb : Own run b) : Steady m (run ++ [b]) := by
  have hvalid := h.valid.snoc_own hb
  obtain ⟨hfit, t, key, v, hop, hactive, hwrites⟩ := hb
  constructor
  · exact hvalid
  · intro p u k x q hsplit hu hfirst
    rw [ops_snoc, hop] at hu
    rcases split_snoc hsplit with ⟨rfl, rfl, -⟩ | ⟨q', hrun, -⟩
    · -- the new record is not the first one on its key
      obtain ⟨rfl, rfl, -⟩ := Schedule.Op.write.inj hop
      exact absurd hwrites hfirst
    · exact h.keyIsValue p u k x q' hrun (Schedule.active_write.mp hu) hfirst
  · rw [ops_snoc, hop, h.valid.exclusive.undo_write inverse hactive hwrites, h.undo]

theorem Own.snoc (hb : Own run b) (hc : Own run c) : Own (run ++ [b]) c := by
  obtain ⟨-, t, key, v, hop, -, -⟩ := hb
  obtain ⟨hfit, u, key', v', hop', hactive, hwrites⟩ := hc
  refine ⟨hfit, u, key', v', hop', ?_, ?_⟩
  · rw [ops_snoc, hop]
    exact Schedule.active_write.mpr hactive
  · rw [ops_snoc]
    exact hwrites.snoc

/-- Such records end no transaction. -/
theorem active_append_own {bs : List TxnAction} (hbs : ∀ b ∈ bs, Own run b) :
    Active (ops (run ++ bs)) t ↔ Active (ops run) t := by
  induction bs generalizing run with
  | nil => rw [List.append_nil]
  | cons b bs ih =>
      have hb := hbs b List.mem_cons_self
      rw [← List.singleton_append, ← List.append_assoc,
        ih (fun c hc => hb.snoc (hbs c (List.mem_cons_of_mem _ hc)))]
      obtain ⟨-, u, key, v, hop, -, -⟩ := hb
      rw [ops_snoc, hop]
      exact Schedule.active_write

/-- **Any number of such records.** -/
theorem Steady.append_own {bs : List TxnAction} (h : Steady m run) (hbs : ∀ b ∈ bs, Own run b) : Steady m (run ++ bs) := by
  induction bs generalizing run with
  | nil =>
      rw [List.append_nil]
      exact h
  | cons b bs ih =>
      have hb := hbs b List.mem_cons_self
      rw [← List.singleton_append, ← List.append_assoc]
      exact ih (h.snoc_own hb) (fun c hc => hb.snoc (hbs c (List.mem_cons_of_mem _ hc)))

/-- A compensation writes what its action has written. -/
theorem compensation_op (h : b ∈ compensation a) :
    (∃ t key v w, a.op = .write t key v ∧ b.op = .write t key w) ∧ b.size = a.size := by
  cases a with
  | INSERT t key value =>
      obtain rfl := List.mem_singleton.mp h
      exact ⟨⟨t, key, some value, none, rfl, rfl⟩, rfl⟩
  | DELETE t key value =>
      obtain rfl := List.mem_singleton.mp h
      exact ⟨⟨t, key, none, some value, rfl, rfl⟩, rfl⟩
  | BEGIN | COMMIT | ABORT => cases h

theorem mem_compensations (h : b ∈ compensations run pre) :
    ∃ a ∈ pre, Active (ops run) a.txn_id ∧ b ∈ compensation a := by
  obtain ⟨a, ha, hb⟩ := List.mem_flatMap.mp h
  split at hb
  · rename_i hactive
    exact ⟨a, List.mem_reverse.mp ha, hactive, hb⟩
  · cases hb

theorem op_mem (h : a ∈ run) : a.op ∈ ops run := List.mem_map_of_mem h

/-- The compensations of a run are such records. -/
theorem own_compensations (h : Valid run) (hb : b ∈ compensations run run) : Own run b := by
  obtain ⟨a, ha, hactive, hb⟩ := mem_compensations hb
  obtain ⟨⟨t, key, v, w, hop, hop'⟩, hsize⟩ := compensation_op hb
  have htxn : a.txn_id = t := by rw [← a.op_txn, hop, Schedule.Op.txn]
  refine ⟨?_, t, key, w, hop', htxn ▸ hactive, v, hop ▸ op_mem ha⟩
  rw [TxnAction.Fits, hsize]
  exact h.fits a ha

/-! ## Aborts -/

/-- The log puts every key of the transaction where undo puts it. -/
def Compensated (run : List TxnAction) (t : txn_id_t) : Prop :=
  ∀ pre key v post, ops run = pre ++ .write t key v :: post → ¬ Writes pre t key →
    Schedule.replay (ops run) key = inverse key v

theorem compensations_append (run p q : List TxnAction) :
    compensations run (p ++ q) = compensations run q ++ compensations run p := by
  rw [compensations, List.reverse_append, List.flatMap_append]
  rfl

/-- The compensations of records that do not write a key do not write it. -/
theorem compensations_other {key : Bytes} (h : ∀ u, Active (ops run) u → ¬ Writes (ops pre) u key) (u : txn_id_t)
    (v : Option Bytes) : .write u key v ∉ ops (compensations run pre) := by
  intro hmem
  obtain ⟨b, hb, hop⟩ := List.mem_map.mp hmem
  obtain ⟨a, ha, hactive, hb⟩ := mem_compensations hb
  obtain ⟨⟨t, k, x, w, hopa, hopb⟩, -⟩ := compensation_op hb
  obtain ⟨rfl, rfl, -⟩ := Schedule.Op.write.inj (hop.symm.trans hopb)
  have htxn : a.txn_id = u := by rw [← a.op_txn, hopa, Schedule.Op.txn]
  exact h u (htxn ▸ hactive) ⟨x, hopa ▸ op_mem ha⟩

/-- What a compensation puts at the key of its action. -/
theorem replay_compensation {key : Bytes} {v : Option Bytes} (hop : a.op = .write t key v)
    (hvalue : ∀ value, a = .DELETE t key value → value = key) (s : Bytes → Option Bytes) :
    Schedule.replayFrom s (ops (compensation a)) key = inverse key v := by
  cases a with
  | INSERT u k x =>
      obtain ⟨rfl, rfl, rfl⟩ := Schedule.Op.write.inj hop
      exact Function.update_self ..
  | DELETE u k x =>
      obtain ⟨rfl, rfl, rfl⟩ := Schedule.Op.write.inj hop
      obtain rfl := hvalue x rfl
      exact Function.update_self ..
  | BEGIN | COMMIT | ABORT => cases hop

/-- **After the compensations** every unfinished transaction is compensated. -/
theorem Steady.compensated (h : Steady m run) (ht : Active (ops run) t) :
    Compensated (run ++ compensations run run) t := by
  intro pre key v post hsplit hfirst
  have hexclusive := h.valid.exclusive
  -- the transaction has written the key before the compensations
  have hwrites : Writes (ops run) t key := by
    have hmem : .write t key v ∈ ops (run ++ compensations run run) := by rw [hsplit]; simp
    obtain ⟨b, hb, hop⟩ := List.mem_map.mp hmem
    rcases List.mem_append.mp hb with hb | hb
    · exact ⟨v, hop ▸ op_mem hb⟩
    · obtain ⟨-, u, k, x, hop', -, hwu⟩ := own_compensations h.valid hb
      obtain ⟨rfl, rfl, -⟩ := Schedule.Op.write.inj (hop.symm.trans hop')
      exact hwu
  obtain ⟨pre', v', post', hops, hfirst'⟩ := hwrites.first
  have hwhole : ops (run ++ compensations run run) =
      pre' ++ .write t key v' :: (post' ++ ops (compensations run run)) := by
    rw [ops, List.map_append, ← List.cons_append, ← List.append_assoc, ← hops]
    rfl
  obtain ⟨rfl, rfl⟩ := Schedule.first_unique hfirst hfirst' (hsplit.symm.trans hwhole)
  -- the action of this first write, and what stands before and behind it
  obtain ⟨p, rest, rfl, rfl, hrest⟩ := List.map_eq_append_iff.mp hops
  obtain ⟨a, q, rfl, hop, rfl⟩ := List.map_eq_cons_iff.mp hrest
  have htxn : a.txn_id = t := by rw [← a.op_txn, hop, Schedule.Op.txn]
  have hother : ∀ u, Active (ops (p ++ a :: q)) u → ¬ Writes (ops p) u key := by
    rintro u hu ⟨x, hx⟩
    have hwu : Writes (ops (p ++ a :: q)) u key := ⟨x, by rw [ops, List.map_append]; exact List.mem_append_left _ hx⟩
    obtain rfl := hexclusive.unique ht hu hwrites hwu
    exact hfirst ⟨x, hx⟩
  have hcomp : compensations (p ++ a :: q) (p ++ a :: q) =
      compensations (p ++ a :: q) q ++ (compensation a ++ compensations (p ++ a :: q) p) := by
    rw [← List.singleton_append, ← List.append_assoc, compensations_append, compensations_snoc,
      if_pos (by rw [htxn, List.append_assoc]; exact ht)]
  have hops' : ops ((p ++ a :: q) ++ compensations (p ++ a :: q) (p ++ a :: q)) =
      (ops (p ++ a :: q) ++ ops (compensations (p ++ a :: q) q)) ++
        (ops (compensation a) ++ ops (compensations (p ++ a :: q) p)) := by
    rw [hcomp]
    simp only [ops, List.map_append, List.append_assoc]
  rw [hops', Schedule.replay, Schedule.replayFrom_append, Schedule.replayFrom_append,
    Schedule.replayFrom_other (compensations_other hother)]
  apply replay_compensation hop
  rintro value rfl
  exact h.keyIsValue p t key value q rfl ht hfirst

theorem abort_fits (t : txn_id_t) : (TxnAction.ABORT t).Fits := by
  simp [TxnAction.Fits, TxnAction.size, LogRecord.HEADER_SIZE, LOG_BUFFER_SIZE_eq]

theorem Steady.snoc_abort (h : Steady m run) (ht : Active (ops run) t) (hback : Compensated run t) :
    Steady m (run ++ [.ABORT t]) := by
  constructor
  · exact h.valid.snoc (abort_fits t) ht
  · intro p u k x q hsplit hu hfirst
    rw [ops_snoc] at hu
    rcases split_snoc hsplit with ⟨-, hne, -⟩ | ⟨q', hrun, -⟩
    · cases hne
    · exact h.keyIsValue p u k x q' hrun (Schedule.active_abort.mp hu).1 hfirst
  · rw [ops_snoc]
    exact (h.valid.exclusive.undo_abort inverse ht hback).trans h.undo

theorem Compensated.snoc_abort {u : txn_id_t} (h : Compensated run u) : Compensated (run ++ [.ABORT t]) u := by
  intro pre key v post hsplit hfirst
  rw [ops_snoc] at hsplit ⊢
  rcases split_snoc hsplit with ⟨-, hne, -⟩ | ⟨q, hrun, -⟩
  · cases hne
  · rw [Schedule.replay_snoc]
    exact h pre key v q hrun hfirst

/-- **Any number of aborts.** -/
theorem Steady.append_abort {ts : List txn_id_t} (h : Steady m run) (hnodup : ts.Nodup)
    (hts : ∀ t ∈ ts, Active (ops run) t ∧ Compensated run t) : Steady m (run ++ ts.map .ABORT) := by
  induction ts generalizing run with
  | nil =>
      rw [List.map_nil, List.append_nil]
      exact h
  | cons t ts ih =>
      obtain ⟨ht, hback⟩ := hts t List.mem_cons_self
      obtain ⟨hnew, hrest⟩ := List.nodup_cons.mp hnodup
      rw [List.map_cons, ← List.singleton_append, ← List.append_assoc]
      apply ih (h.snoc_abort ht hback) hrest
      intro u hu
      obtain ⟨hactive, hback'⟩ := hts u (List.mem_cons_of_mem _ hu)
      refine ⟨?_, hback'.snoc_abort⟩
      rw [ops_snoc]
      refine Schedule.active_abort.mpr ⟨hactive, ?_⟩
      rintro rfl
      exact hnew hu

/-- **A recovery that is cut off**: any beginning of what it appends leaves the undo of the log as it was. -/
theorem Steady.append_recovery {ts : List txn_id_t} (h : Steady m run) (hnodup : ts.Nodup)
    (hts : ∀ t ∈ ts, Active (ops run) t) (n : Nat) : Steady m (run ++ (recovery run ts).take n) := by
  have hown : ∀ b ∈ compensations run run, Own run b := fun b hb => own_compensations h.valid hb
  rw [recovery, List.take_append, ← List.map_take]
  by_cases hn : n ≤ (compensations run run).length
  · -- cut off before the first abort
    rw [Nat.sub_eq_zero_of_le hn, List.take_zero, List.map_nil, List.append_nil]
    exact h.append_own (fun b hb => hown b (List.mem_of_mem_take hb))
  · rw [List.take_of_length_le (by omega), ← List.append_assoc]
    apply (h.append_own hown).append_abort (hnodup.sublist (List.take_sublist _ _))
    intro t ht
    have hactive := hts t (List.mem_of_mem_take ht)
    exact ⟨(active_append_own hown).mpr hactive, h.compensated hactive⟩

/-! ## Attempts -/

/-- The log file, record by record, and the stores that the completed attempts have left. -/
structure Attempts where
  log : List LogRecord
  stores : List (Bytes → Option Bytes) := []

/-- Recovery of a log on an empty store, with enough fuel. -/
def recover (order : List ActiveTxn → List ActiveTxn) (buffer : Vector UInt8 LOG_BUFFER_SIZE) (log : List LogRecord) :
    Option RecoveryManager :=
  ARIES order ((bytesOf log).length + 2) (init (bytesOf log) buffer)

/-- An attempt: how it goes through `active_txn_`, and what is in its buffer. -/
inductive Event where
  /-- a crash cuts it off when `reached` of the records it appends are in the file -/
  | crash (order : List ActiveTxn → List ActiveTxn) (buffer : Vector UInt8 LOG_BUFFER_SIZE) (reached : Nat)
  | complete (order : List ActiveTxn → List ActiveTxn) (buffer : Vector UInt8 LOG_BUFFER_SIZE)

/-- One attempt. -/
inductive Attempt : Attempts → Event → Attempts → Prop
  | crash {w : Attempts} {order : List ActiveTxn → List ActiveTxn} {buffer : Vector UInt8 LOG_BUFFER_SIZE} {reached : Nat}
      {rm : RecoveryManager} (horder : ∀ es, (order es).Perm es) (hrm : recover order buffer w.log = some rm) :
      Attempt w (.crash order buffer reached) { w with log := w.log ++ rm.appended.take reached }
  | complete {w : Attempts} {order : List ActiveTxn → List ActiveTxn} {buffer : Vector UInt8 LOG_BUFFER_SIZE}
      {rm : RecoveryManager} (horder : ∀ es, (order es).Perm es) (hrm : recover order buffer w.log = some rm) :
      Attempt w (.complete order buffer) { log := w.log ++ rm.appended, stores := w.stores ++ [rm.kv_] }

/-- `Redo` gets through the log. -/
def AttemptOk (w : Attempts) (_ : Event) : Prop := Recoverable w.log

/-- Where the attempts stand: the log is one of a run, undo of it gives `m`, and so did every completed attempt. -/
structure Stands (m : Bytes → Option Bytes) (w : Attempts) : Prop where
  log : ∃ run, w.log = logFrom [] run ∧ Steady m run
  stores : ∀ s ∈ w.stores, s = m

theorem logFrom_take (pre as : List TxnAction) (n : Nat) : (logFrom pre as).take n = logFrom pre (as.take n) := by
  induction as generalizing pre n with
  | nil => simp [logFrom]
  | cons a as ih =>
      cases n with
      | zero => rfl
      | succ n => rw [List.take_succ_cons, logFrom, logFrom, List.take_succ_cons, ih]

/-- An attempt on a log that `Redo` gets through leaves the undo of the log. -/
theorem recover_kv (h : Valid run) (hgood : Recoverable (logFrom [] run)) (order : List ActiveTxn → List ActiveTxn)
    (buffer : Vector UInt8 LOG_BUFFER_SIZE) : ∃ rm, recover order buffer (logFrom [] run) = some rm ∧
      rm.kv_ = Schedule.undo inverse (ops run) ∧ ((∀ es, (order es).Perm es) → ∃ ts, ts.Nodup ∧
        (∀ t, t ∈ ts ↔ Active (ops run) t) ∧ rm.appended = logFrom run (recovery run ts)) := by
  have hlen : (logFile run).length < 2 ^ 32 := lt_trans hgood.length (by decide)
  have hfuel : (logFile run).length + 1 < (bytesOf (logFrom [] run)).length + 2 := Nat.lt_succ_self _
  have hshort := length_run_lt h hlen
  rcases ARIES_run h hlen hfuel order buffer with ⟨-, hbad⟩ | ⟨⟨rm, hrm, hrecovered⟩, -⟩
  · exact absurd ((recoverable_iff h hshort).mp hgood) hbad
  · exact ⟨rm, hrm, hrecovered.kv, hrecovered.appended⟩

/-- What an attempt makes of a log. -/
theorem recover_run (h : Steady m run) (hgood : Recoverable (logFrom [] run)) (order : List ActiveTxn → List ActiveTxn)
    (buffer : Vector UInt8 LOG_BUFFER_SIZE) : ∃ rm, recover order buffer (logFrom [] run) = some rm ∧ rm.kv_ = m ∧
      ((∀ es, (order es).Perm es) → ∀ n, ∃ run', logFrom [] run ++ rm.appended.take n = logFrom [] run' ∧ Steady m run') := by
  obtain ⟨rm, hrm, hkv, happended⟩ := recover_kv h.valid hgood order buffer
  refine ⟨rm, hrm, hkv.trans h.undo, ?_⟩
  intro horder n
  obtain ⟨ts, hnodup, hts, happended⟩ := happended horder
  refine ⟨run ++ (recovery run ts).take n, ?_, h.append_recovery hnodup (fun t ht => (hts t).mp ht) n⟩
  rw [happended, logFrom_take, logFrom_append]
  rfl

/-- **One attempt.** -/
theorem Stands.step {w w' : Attempts} {e : Event} (h : Stands m w) (hstep : Guarded AttemptOk Attempt w e w') :
    Stands m w' := by
  obtain ⟨run, hlog, hsteady⟩ := h.log
  obtain ⟨hok, hattempt⟩ := hstep
  have hgood : Recoverable (logFrom [] run) := hlog ▸ hok
  cases hattempt with
  | @crash order buffer reached rm horder hrm =>
      obtain ⟨rm', hrm', -, happended⟩ := recover_run hsteady hgood order buffer
      rw [hlog] at hrm
      obtain rfl := Option.some.inj (hrm'.symm.trans hrm)
      obtain ⟨run', hrun', hsteady'⟩ := happended horder reached
      exact ⟨⟨run', hlog ▸ hrun', hsteady'⟩, h.stores⟩
  | @complete order buffer rm horder hrm =>
      obtain ⟨rm', hrm', hkv, happended⟩ := recover_run hsteady hgood order buffer
      rw [hlog] at hrm
      obtain rfl := Option.some.inj (hrm'.symm.trans hrm)
      obtain ⟨run', hrun', hsteady'⟩ := happended horder rm'.appended.length
      rw [List.take_length] at hrun'
      refine ⟨⟨run', hlog ▸ hrun', hsteady'⟩, ?_⟩
      intro s hs
      rcases List.mem_append.mp hs with hs | hs
      · exact h.stores s hs
      · rw [List.mem_singleton.mp hs, hkv]

/-- **Recovery can be repeated.** From a log whose unfinished transactions deleted only keys that were their own values,
    as long as `Redo` gets through each log: every completed attempt leaves the store of a single recovery of the
    original log, however many attempts were cut off before, and so does one more recovery. -/
theorem recovery_repeats (h : Complete run) (hkey : KeyIsValue run) (hgood : Recoverable (logFrom [] run))
    (order : List ActiveTxn → List ActiveTxn) (buffer : Vector UInt8 LOG_BUFFER_SIZE) :
    ∃ rm, recover order buffer (logFrom [] run) = some rm ∧
      ∀ es w, Run (Guarded AttemptOk Attempt) ⟨logFrom [] run, []⟩ es w → (∀ s ∈ w.stores, s = rm.kv_) ∧
        (Recoverable w.log → ∀ order' buffer', ∃ rm', recover order' buffer' w.log = some rm' ∧ rm'.kv_ = rm.kv_) := by
  have hsteady : Steady (Schedule.undo inverse (ops run)) run := ⟨h.valid, hkey, rfl⟩
  obtain ⟨rm, hrm, hkv, -⟩ := recover_run hsteady hgood order buffer
  refine ⟨rm, hrm, ?_⟩
  intro es w hrun
  have hstart : Stands (Schedule.undo inverse (ops run)) ⟨logFrom [] run, []⟩ := ⟨⟨run, rfl, hsteady⟩, by simp⟩
  have hstands := hrun.invariant (fun _ _ _ hs hstep => hs.step hstep) hstart
  rw [hkv]
  refine ⟨hstands.stores, ?_⟩
  intro hgood' order' buffer'
  obtain ⟨run', hlog, hsteady'⟩ := hstands.log
  rw [hlog] at hgood' ⊢
  obtain ⟨rm', hrm', hkv', -⟩ := recover_run hsteady' hgood' order' buffer'
  exact ⟨rm', hrm', hkv'⟩

/-! ## A crash in the middle of recovery, and a deleted value that comes back -/

/-- The transactions that are aborted behind such a run. -/
theorem eq_singleton {ts : List txn_id_t} (hnodup : ts.Nodup) (h : ∀ u, u ∈ ts ↔ u = 2) : ts = [2] := by
  have hmem : 2 ∈ ts := (h 2).mpr rfl
  cases ts with
  | nil => cases hmem
  | cons u ts =>
      obtain rfl := (h u).mp List.mem_cons_self
      obtain ⟨hnew, -⟩ := List.nodup_cons.mp hnodup
      cases ts with
      | nil => rfl
      | cons v ts =>
          obtain rfl := (h v).mp (by simp)
          exact absurd List.mem_cons_self hnew

section CrashAfter

variable {action : TxnAction} {key : Bytes} {v : Option Bytes}

theorem compensations_crashAfter (hop : action.op = .write 2 key v) :
    compensations (crashAfter action) (crashAfter action) = compensation action := by
  have hactive : Active (ops (crashAfter action)) action.txn_id := by
    rw [active_crashAfter hop, ← action.op_txn, hop, Schedule.Op.txn]
  have hcut := compensations_snoc (crashAfter action) [.BEGIN 1, .INSERT 1 [97] [49], .COMMIT 1, .BEGIN 2] action
  have hrest : compensations (crashAfter action) [.BEGIN 1, .INSERT 1 [97] [49], .COMMIT 1, .BEGIN 2] = [] := by
    simp [compensations, compensation, active_crashAfter hop, TxnAction.txn_id]
  rw [hrest, if_pos hactive, List.append_nil] at hcut
  exact hcut

/-- A log of small records is one that `Redo` gets through. -/
theorem recoverable_of_sizes (h : Valid run) (hsize : logSize run < 2 ^ 31)
    (hinside : Inside 0 (run.map TxnAction.size)) : Recoverable (logFrom [] run) := by
  have hlen : (logFile run).length < 2 ^ 31 := by rwa [length_logFile h.fits]
  exact (recoverable_iff h (length_run_lt h (lt_trans hlen (by decide)))).mpr ⟨hinside, hlen⟩

/-- Recovery of such a run. -/
theorem recover_crashAfter (hop : action.op = .write 2 key v) (hfit : action.Fits)
    (hgood : Recoverable (logFrom [] (crashAfter action))) (buffer : Vector UInt8 LOG_BUFFER_SIZE) :
    ∃ rm, recover id buffer (logFrom [] (crashAfter action)) = some rm ∧
      rm.kv_ = Schedule.undo inverse (ops (crashAfter action)) ∧
      rm.appended = logFrom (crashAfter action) (compensation action ++ [.ABORT 2]) := by
  obtain ⟨rm, hrm, hkv, happended⟩ := recover_kv (crashAfter_complete hop hfit).valid hgood id buffer
  obtain ⟨ts, hnodup, hts, happended⟩ := happended (fun es => List.Perm.refl es)
  obtain rfl := eq_singleton hnodup (fun u => (hts u).trans (active_crashAfter hop))
  refine ⟨rm, hrm, hkv, ?_⟩
  rw [happended, recovery, compensations_crashAfter hop]
  rfl

end CrashAfter

/-- Transaction 2 inserts a new key. The first recovery is cut off behind the compensation, the second completes. -/
theorem recovery_repeats_cutOff : ∃ rm w,
    recover id (Vector.replicate _ 0) (logFrom [] (crashAfter (.INSERT 2 [98] [50]))) = some rm ∧
    Run (Guarded AttemptOk Attempt) ⟨logFrom [] (crashAfter (.INSERT 2 [98] [50])), []⟩
      [.crash id (Vector.replicate _ 0) 1, .complete id (Vector.replicate _ 0)] w ∧ w.stores = [rm.kv_] := by
  generalize Vector.replicate LOG_BUFFER_SIZE (0 : UInt8) = buffer
  have hcomplete : Complete (crashAfter (.INSERT 2 [98] [50])) := crashAfter_complete rfl (by decide)
  have hkey : KeyIsValue (crashAfter (.INSERT 2 [98] [50])) := by
    intro p t key value q hsplit
    have hmem : TxnAction.DELETE t key value ∈ crashAfter (.INSERT 2 [98] [50]) := by rw [hsplit]; simp
    simp [crashAfter] at hmem
  have hgood : Recoverable (logFrom [] (crashAfter (.INSERT 2 [98] [50]))) :=
    recoverable_of_sizes hcomplete.valid (by decide) (by decide)
  obtain ⟨rm, hrm, hall⟩ := recovery_repeats hcomplete hkey hgood id buffer
  have hop : (TxnAction.INSERT 2 [98] [50]).op = .write 2 [98] (some [50]) := rfl
  obtain ⟨rm₁, hrm₁, -, happended⟩ := recover_crashAfter hop (by decide) hgood buffer
  obtain rfl := Option.some.inj (hrm₁.symm.trans hrm)
  -- the log behind the crash
  have hsteady : Steady _ (crashAfter (.INSERT 2 [98] [50])) := ⟨hcomplete.valid, hkey, rfl⟩
  have hown : Own (crashAfter (.INSERT 2 [98] [50])) (.DELETE 2 [98] [50]) := by
    apply own_compensations hcomplete.valid
    rw [compensations_crashAfter hop]
    exact List.mem_singleton.mpr rfl
  have hsteady₁ := hsteady.snoc_own hown
  have hlog₁ : logFrom [] (crashAfter (.INSERT 2 [98] [50])) ++ rm₁.appended.take 1 =
      logFrom [] (crashAfter (.INSERT 2 [98] [50]) ++ [.DELETE 2 [98] [50]]) := by
    rw [happended, logFrom_take, logFrom_append]
    rfl
  have hgood₁ : Recoverable (logFrom [] (crashAfter (.INSERT 2 [98] [50]) ++ [.DELETE 2 [98] [50]])) :=
    recoverable_of_sizes hsteady₁.valid (by decide) (by decide)
  obtain ⟨rm₂, hrm₂, -, -⟩ := recover_run hsteady₁ hgood₁ id buffer
  have hperm : ∀ es : List ActiveTxn, (id es).Perm es := fun es => List.Perm.refl es
  have hcrash : Guarded AttemptOk Attempt ⟨logFrom [] (crashAfter (.INSERT 2 [98] [50])), []⟩ (.crash id buffer 1)
      ⟨logFrom [] (crashAfter (.INSERT 2 [98] [50]) ++ [.DELETE 2 [98] [50]]), []⟩ := by
    rw [← hlog₁]
    exact ⟨hgood, .crash hperm hrm₁⟩
  have hagain : Guarded AttemptOk Attempt ⟨logFrom [] (crashAfter (.INSERT 2 [98] [50]) ++ [.DELETE 2 [98] [50]]), []⟩
      (.complete id buffer) _ := ⟨hgood₁, .complete hperm hrm₂⟩
  have hrun := (Run.single hcrash).tail hagain
  refine ⟨rm₁, _, hrm₁, hrun, ?_⟩
  have hstore := (hall _ _ hrun).1 rm₂.kv_ (by simp)
  rw [← hstore]
  rfl

/-- Transaction 2 deletes `a`. The first recovery gives `a` itself as value, the second the deleted value, which is in
    the compensation. -/
theorem recovery_differs : ¬ ∀ run, Complete run → ∀ order buffer rm, recover order buffer (logFrom [] run) = some rm →
    ∀ es w, Run Attempt ⟨logFrom [] run, []⟩ es w → ∀ s ∈ w.stores, s = rm.kv_ := by
  intro hall
  have hop : (TxnAction.DELETE 2 [97] [49]).op = .write 2 [97] none := rfl
  have hcomplete : Complete (crashAfter (.DELETE 2 [97] [49])) := crashAfter_complete hop (by decide)
  have hgood : Recoverable (logFrom [] (crashAfter (.DELETE 2 [97] [49]))) :=
    recoverable_of_sizes hcomplete.valid (by decide) (by decide)
  generalize Vector.replicate LOG_BUFFER_SIZE (0 : UInt8) = buffer
  obtain ⟨rm₁, hrm₁, hkv₁, happended⟩ := recover_crashAfter hop (by decide) hgood buffer
  -- the log that the first recovery leaves
  have hown : Own (crashAfter (.DELETE 2 [97] [49])) (.INSERT 2 [97] [49]) := by
    apply own_compensations hcomplete.valid
    rw [compensations_crashAfter hop]
    exact List.mem_singleton.mpr rfl
  have hactive : Active (ops (crashAfter (.DELETE 2 [97] [49]) ++ [.INSERT 2 [97] [49]])) 2 := by
    rw [ops_snoc]
    exact Schedule.active_write.mpr ((active_crashAfter hop).mpr rfl)
  have hvalid₁ : Valid ((crashAfter (.DELETE 2 [97] [49]) ++ [.INSERT 2 [97] [49]]) ++ [.ABORT 2]) :=
    (hcomplete.valid.snoc_own hown).snoc (abort_fits 2) hactive
  have hlog₁ : logFrom [] (crashAfter (.DELETE 2 [97] [49])) ++ rm₁.appended =
      logFrom [] ((crashAfter (.DELETE 2 [97] [49]) ++ [.INSERT 2 [97] [49]]) ++ [.ABORT 2]) := by
    rw [happended, List.append_assoc, logFrom_append]
    rfl
  have hgood₁ := recoverable_of_sizes hvalid₁ (by decide) (by decide)
  obtain ⟨rm₂, hrm₂, hkv₂, -⟩ := recover_kv hvalid₁ hgood₁ id buffer
  have hperm : ∀ es : List ActiveTxn, (id es).Perm es := fun es => List.Perm.refl es
  have hfirst : Attempt ⟨logFrom [] (crashAfter (.DELETE 2 [97] [49])), []⟩ (.complete id buffer)
      ⟨logFrom [] ((crashAfter (.DELETE 2 [97] [49]) ++ [.INSERT 2 [97] [49]]) ++ [.ABORT 2]), [rm₁.kv_]⟩ := by
    rw [← hlog₁]
    exact .complete hperm hrm₁
  have hrun := (Run.single hfirst).tail (.complete hperm hrm₂)
  have hsame : rm₂.kv_ = rm₁.kv_ := hall _ hcomplete id buffer rm₁ hrm₁ _ _ hrun rm₂.kv_ (by simp)
  have hvalue := congrFun hsame [97]
  rw [hkv₁, hkv₂] at hvalue
  have h₁ : Schedule.undo inverse (ops (crashAfter (.DELETE 2 [97] [49]))) [97] = some [97] := by decide
  have h₂ : Schedule.undo inverse
      (ops ((crashAfter (.DELETE 2 [97] [49]) ++ [.INSERT 2 [97] [49]]) ++ [.ABORT 2])) [97] = some [49] := by decide
  rw [h₁, h₂] at hvalue
  exact absurd hvalue (by decide)

end RecoveryLog
end DDBMS
