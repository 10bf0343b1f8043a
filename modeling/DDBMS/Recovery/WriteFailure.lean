import DDBMS.Recovery.LogManagerDurable

/-!
# `Recovery.WriteFailure` — writes of the log that fail, and `Flush`

`LogStorage::WriteLog` prints a message when the stream goes bad, and returns as if it had written: the flush thread stores
`persistent_lsn_` either way, and has given the buffer away. The stream stays bad, so nothing is written any more
(`bad_file`). `Flush` waits for `persistent_lsn_`.

In a run in which no write fails `persistent_lsn_` promises what it should (`persistent_sound`); a write that fails before its
last byte makes it overstate (`fails_overstates`).
-/

namespace DDBMS

/-- How a call of `write` on the stream goes. -/
inductive LogStorage.Outcome where
  | complete
  /-- the stream goes bad behind `n` bytes -/
  | fails (n : Nat)
  deriving DecidableEq, Repr

/-- `LogStorage::WriteLog` on a stream that may be bad; the file and the bad bit afterwards. A bad stream takes nothing. -/
def LogStorage.tryWriteLog (o : Outcome) (bad : Bool) (log_file log_data : Bytes) (size : Nat) : Bytes × Bool :=
  if size = 0 then (log_file, bad)
  else if bad then (log_file, true)
  else match o with
    | .complete => (log_file ++ log_data.take size, false)
    | .fails n => (log_file ++ (log_data.take size).take n, true)

theorem LogStorage.tryWriteLog_complete (log_file log_data : Bytes) (size : Nat) :
    tryWriteLog .complete false log_file log_data size = (WriteLog log_file log_data size, false) := by
  unfold tryWriteLog WriteLog
  split <;> rfl

namespace WriteFailure

open LogRecord (encode)
open LogManager (Inv Pieces SizedRecords)

/-- The log with the bad bit of its stream and the calls of `Flush`. `flushing t` is the LSN that thread `t` waits for;
    `flushed` are the LSNs for which `Flush` has returned. -/
structure World where
  log : LogManager.World
  bad : Bool := false
  flushing : Nat → Option Int := fun _ => none
  flushed : List Int := []

/-- A new log manager. -/
def World.init (log_buffer flush_buffer : Vector UInt8 LOG_BUFFER_SIZE) : World where
  log := LogManager.World.init log_buffer flush_buffer

inductive Event where
  /-- any step of the log but `WriteLog` -/
  | log (e : LogManager.Event)
  | write (o : LogStorage.Outcome)
  /-- thread `t` calls `Flush` -/
  | flush (t : Nat) (lsn : Int) (force : Bool)
  /-- thread `t` finds `persistent_lsn_` large enough, and returns -/
  | flushed (t : Nat)
  deriving DecidableEq, Repr

namespace World

def setFlushing (w : World) (t : Nat) (lsn : Option Int) : World :=
  { w with flushing := fun u => if u = t then lsn else w.flushing u }

/-- `needFlush_ = true`, if it is forced. -/
def forceFlush (w : LogManager.World) (force : Bool) : LogManager.World :=
  { w with mgr := { w.mgr with needFlush_ := w.mgr.needFlush_ || force } }

/-- `WriteLog` of the flush buffer. -/
def writeLog (w : World) (o : LogStorage.Outcome) (lsn : Int) : World :=
  let (log_file, bad) :=
    LogStorage.tryWriteLog o w.bad w.log.mgr.log_file w.log.mgr.flush_buffer_ w.log.mgr.flush_buffer_write_offset_
  { w with log := { w.log with mgr := { w.log.mgr with log_file := log_file }, flushThread := .written lsn }, bad := bad }

end World

def next (w : World) : Event → Option World
  | .log .write => none
  | .log (.append t r) =>
    if w.flushing t ≠ none then none
    else (LogManager.next w.log (.append t r)).map fun log => { w with log := log }
  | .log e => (LogManager.next w.log e).map fun log => { w with log := log }
  | .write o =>
    match w.log.flushThread with
    | .writing lsn => some (w.writeLog o lsn)
    | _ => none
  | .flush t lsn force =>
    if w.flushing t ≠ none ∨ w.log.waiting t ≠ none then none
    else some { w.setFlushing t (some lsn) with log := World.forceFlush w.log force }
  | .flushed t =>
    match w.flushing t with
    | none => none
    | some lsn =>
      if w.log.mgr.persistent_lsn_ < lsn then none
      else some { w.setFlushing t none with flushed := w.flushed ++ [lsn] }

/-- The record is completely in the file, behind those that were appended before it. -/
def World.InFile (w : World) (pre : List LogRecord) (r : LogRecord) : Prop :=
  (pre ++ [r]).flatMap encode <+: w.log.mgr.log_file

/-- `persistent_lsn_` does not overstate, and `Flush` has not returned too early. -/
structure Sound (w : World) : Prop where
  persistent : ∀ pre r post, w.log.appended = pre ++ r :: post → r.lsn_ ≤ w.log.mgr.persistent_lsn_ → w.InFile pre r
  flushed : ∀ lsn ∈ w.flushed, 0 ≤ lsn →
    ∃ pre r post, w.log.appended = pre ++ r :: post ∧ r.lsn_ = lsn ∧ w.InFile pre r

/-- No write fails. Records know their size. -/
def WritesComplete (w : World) : Event → Prop
  | .log e => SizedRecords w.log e
  | .write o => o = .complete
  | .flush _ _ _ | .flushed _ => True

variable {w w' : World} {e : Event}

/-! ## One step -/

/-- The branches of a step. -/
inductive Steps (w : World) : Event → World → Prop where
  | log {e : LogManager.Event} {log : LogManager.World} (hwrite : e ≠ .write) (hnext : LogManager.next w.log e = some log) :
      Steps w (.log e) { w with log := log }
  | write {o : LogStorage.Outcome} {lsn : Int} (hwriting : w.log.flushThread = .writing lsn) :
      Steps w (.write o) (w.writeLog o lsn)
  | flush {t : Nat} {lsn : Int} {force : Bool} :
      Steps w (.flush t lsn force) { w.setFlushing t (some lsn) with log := World.forceFlush w.log force }
  | flushed {t : Nat} {lsn : Int} (hle : lsn ≤ w.log.mgr.persistent_lsn_) :
      Steps w (.flushed t) { w.setFlushing t none with flushed := w.flushed ++ [lsn] }

theorem next_cases (h : next w e = some w') : Steps w e w' := by
  cases e with
  | log e =>
      have hlog : e ≠ .write → (LogManager.next w.log e).map (fun log => { w with log := log }) = some w' →
          Steps w (.log e) w' := by
        intro hwrite hmap
        obtain ⟨log, hnext, rfl⟩ := Option.map_eq_some_iff.mp hmap
        exact .log hwrite hnext
      cases e with
      | write => cases h
      | append t r =>
          simp only [next] at h
          split at h
          · cases h
          · exact hlog LogManager.Event.noConfusion h
      | wake | swap | store | reset => exact hlog LogManager.Event.noConfusion h
  | write o =>
      simp only [next] at h
      split at h
      · rename_i hwriting
        obtain rfl := Option.some.inj h
        exact .write hwriting
      · cases h
  | flush t lsn force =>
      simp only [next] at h
      split at h
      · cases h
      · obtain rfl := Option.some.inj h
        exact .flush
  | flushed t =>
      simp only [next] at h
      split at h
      · cases h
      · split at h
        · cases h
        · rename_i hle
          obtain rfl := Option.some.inj h
          exact .flushed (not_lt.mp hle)

/-- A write that does not fail is a step of the log. -/
theorem writeLog_complete {lsn : Int} (hbad : w.bad = false) (hwriting : w.log.flushThread = .writing lsn) :
    LogManager.next w.log .write = some (w.writeLog .complete lsn).log ∧ (w.writeLog .complete lsn).bad = false := by
  unfold World.writeLog
  rw [hbad, LogStorage.tryWriteLog_complete]
  refine ⟨?_, rfl⟩
  simp only [LogManager.next, hwriting]

/-! ## Runs without a failure -/

theorem inv_forceFlush {l : LogManager.World} (h : Inv l) (force : Bool) : Inv (World.forceFlush l force) := by
  obtain ⟨done, flying, buffered, hp⟩ := h.pieces
  exact ⟨h.log_buffer, h.flush_buffer, h.offset, h.flush_offset, h.waiting, h.next_lsn, h.lsns, done, flying, buffered,
    hp.appended, hp.file, hp.inFlight, hp.buffered, hp.knows, hp.persistent⟩

/-- The stream is good, and what `Flush` has returned for has been stored. -/
structure Good (w : World) : Prop where
  inv : Inv w.log
  bad : w.bad = false
  flushed : w.log.appended.length < 2 ^ 31 → ∀ lsn ∈ w.flushed, lsn ≤ w.log.mgr.persistent_lsn_

/-- A step of the log. -/
theorem Good.log {e : LogManager.Event} {log : LogManager.World} (h : Good w) (hok : SizedRecords w.log e)
    (hnext : LogManager.next w.log e = some log) : Good { w with log := log } := by
  have hinv : Inv log := LogManager.inv_step h.inv ⟨hok, hnext⟩
  refine ⟨hinv, h.bad, fun hlen lsn hlsn => ?_⟩
  -- nothing that was appended goes away, and `persistent_lsn_` does not go back
  obtain ⟨rs, hrs⟩ := LogManager.next_appended hnext
  have hbefore : w.log.appended.length < 2 ^ 31 := by
    have happ := congrArg List.length hrs
    rw [List.length_append] at happ
    dsimp only at hlen
    omega
  exact (h.flushed hbefore lsn hlsn).trans (h.inv.persistent_le hbefore hnext)

/-- **Step lemma.** -/
theorem Good.step (h : Good w) (hst : Guarded WritesComplete (FunStep next) w e w') : Good w' := by
  obtain ⟨hok, hst⟩ := hst
  cases next_cases hst with
  | log _ hnext => exact h.log hok hnext
  | @write o lsn hwriting =>
      obtain rfl : o = .complete := hok
      obtain ⟨hnext, hbad⟩ := writeLog_complete h.bad hwriting
      have hgood := h.log (e := .write) trivial hnext
      exact ⟨hgood.inv, hbad, hgood.flushed⟩
  | flush => exact ⟨inv_forceFlush h.inv _, h.bad, h.flushed⟩
  | @flushed t lsn hle =>
      refine ⟨h.inv, h.bad, fun hlen l hl => ?_⟩
      rcases List.mem_append.mp hl with hl | hl
      · exact h.flushed hlen l hl
      · obtain rfl := List.mem_singleton.mp hl
        exact hle

/-- A record is in the file when its position is one of the records that the file has. -/
theorem inFile_of_lt {pre post done flying buffered : List LogRecord} {r : LogRecord}
    (hp : Pieces w.log done flying buffered) (heq : w.log.appended = pre ++ r :: post) (hlt : pre.length < done.length) :
    w.InFile pre r := by
  have hpre : pre ++ [r] <+: w.log.appended := ⟨post, by rw [heq, List.append_assoc, List.singleton_append]⟩
  have hdone : done <+: w.log.appended := ⟨flying ++ buffered, hp.appended.symm⟩
  obtain ⟨rest, hrest⟩ : pre ++ [r] <+: done := List.prefix_of_prefix_length_le hpre hdone (by
    rw [List.length_append, List.length_singleton]
    exact hlt)
  refine ⟨rest.flatMap encode, ?_⟩
  rw [← List.flatMap_append, hrest, hp.file]

/-- Every LSN from 0 up to `persistent_lsn_` is one of a record. -/
theorem exists_record {lsn : Int} (h : Inv w.log) (hlen : w.log.appended.length < 2 ^ 31) (hpos : 0 ≤ lsn)
    (hle : lsn ≤ w.log.mgr.persistent_lsn_) : ∃ pre r post, w.log.appended = pre ++ r :: post ∧ r.lsn_ = lsn := by
  obtain ⟨done, flying, buffered, hp⟩ := h.pieces
  have hlt := hp.persistent_lt hlen
  have happ := congrArg List.length hp.appended
  rw [List.length_append] at happ
  have hpos' : lsn.toNat < w.log.appended.length := by omega
  have hsplit : w.log.appended = w.log.appended.take lsn.toNat ++ w.log.appended[lsn.toNat] ::
      w.log.appended.drop (lsn.toNat + 1) := by
    rw [List.getElem_cons_drop, List.take_append_drop]
  refine ⟨_, _, _, hsplit, ?_⟩
  rw [h.lsn_eq hlen hsplit, List.length_take]
  omega

theorem Good.sound (h : Good w) (hlen : w.log.appended.length < 2 ^ 31) : Sound w := by
  obtain ⟨done, flying, buffered, hp⟩ := h.inv.pieces
  have hlt := hp.persistent_lt hlen
  have hpersistent : ∀ pre r post, w.log.appended = pre ++ r :: post → r.lsn_ ≤ w.log.mgr.persistent_lsn_ →
      w.InFile pre r := by
    intro pre r post heq hle
    rw [h.inv.lsn_eq hlen heq] at hle
    exact inFile_of_lt hp heq (by omega)
  refine ⟨hpersistent, fun lsn hlsn hpos => ?_⟩
  have hle := h.flushed hlen lsn hlsn
  obtain ⟨pre, r, post, heq, rfl⟩ := exists_record h.inv hlen hpos hle
  exact ⟨pre, r, post, heq, rfl, hpersistent pre r post heq hle⟩

/-- **`persistent_lsn_` does not overstate**, in every state of every run in which no write fails. -/
theorem persistent_sound {a b : Vector UInt8 LOG_BUFFER_SIZE} {es : List Event}
    (hrun : Run (Guarded WritesComplete (FunStep next)) (World.init a b) es w) (hlen : w.log.appended.length < 2 ^ 31) :
    Sound w := by
  have hinit : Good (World.init a b) := ⟨LogManager.inv_init a b, rfl, fun _ lsn hlsn => by cases hlsn⟩
  exact (hrun.invariant (fun _ _ _ h hst => Good.step h hst) hinit).sound hlen

/-! ## Behind a failure -/

theorem tryWriteLog_bad (o : LogStorage.Outcome) (log_file log_data : Bytes) (size : Nat) :
    LogStorage.tryWriteLog o true log_file log_data size = (log_file, true) := by
  unfold LogStorage.tryWriteLog
  split <;> rfl

/-- **A bad stream stays bad**, and its file as it is. -/
theorem bad_file {es : List Event} (hrun : Run (FunStep next) w es w') (hbad : w.bad = true) :
    w'.bad = true ∧ w'.log.mgr.log_file = w.log.mgr.log_file := by
  generalize hfile : w.log.mgr.log_file = file
  refine hrun.invariant (I := fun v => v.bad = true ∧ v.log.mgr.log_file = file) ?_ ⟨hbad, hfile⟩
  rintro v e v' ⟨hbad, hfile⟩ hst
  cases next_cases hst with
  | log hwrite hnext =>
      refine ⟨hbad, ?_⟩
      cases LogManager.next_cases hnext with
      | wait | append | sleep | wake | swap | empty | store | reset => exact hfile
      | write => exact absurd rfl hwrite
  | write =>
      unfold World.writeLog
      rw [hbad, tryWriteLog_bad]
      exact ⟨rfl, hfile⟩
  | flush | flushed => exact ⟨hbad, hfile⟩

/-- **A write that fails before its last byte** is stored as if it had not: the last record in flight is not in the file. -/
theorem fails_overstates {n : Nat} {w₁ w₂ : World} (h : Good w) (hlen : w.log.appended.length < 2 ^ 31)
    (hn : n < w.log.mgr.flush_buffer_write_offset_) (hwrite : next w (.write (.fails n)) = some w₁)
    (hstore : next w₁ (.log .store) = some w₂) : ¬ Sound w₂ := by
  intro hsound
  obtain ⟨done, flying, buffered, hp⟩ := h.inv.pieces
  cases next_cases hwrite with
  | @write _ lsn hwriting =>
  have hknows := hp.knows
  have hflying := hp.inFlight
  rw [hwriting] at hknows
  simp only [LogManager.World.inFlight, hwriting] at hflying
  -- the file gets a part of the records in flight
  have hfile : (w.writeLog (.fails n) lsn).log.mgr.log_file = done.flatMap encode ++ (flying.flatMap encode).take n := by
    unfold World.writeLog LogStorage.tryWriteLog
    rw [if_neg (by omega), h.bad]
    dsimp only
    rw [if_neg Bool.false_ne_true, hp.file, hflying]
  cases next_cases hstore with
  | log _ hnext =>
  cases LogManager.next_cases hnext with
  | store hwritten =>
  obtain rfl : lsn = _ := LogManager.FlushThread.written.inj hwritten
  have hoff := h.inv.flush_offset
  have hbytes := congrArg List.length hflying
  rw [List.length_take, h.inv.flush_buffer, min_eq_left hoff.le] at hbytes
  -- the last of them
  obtain rfl | ⟨pre, r, rfl⟩ := List.eq_nil_or_concat flying
  · simp at hbytes
    omega
  · rw [List.concat_eq_append] at *
    have happ : w.log.appended = (done ++ pre) ++ r :: buffered := by
      rw [hp.appended]
      simp only [List.append_assoc, List.singleton_append]
    have hlsn := h.inv.lsn_eq hlen happ
    have hle : r.lsn_ ≤ lsn := by
      have hlength := congrArg List.length happ
      simp only [List.length_append, List.length_cons] at hlength hlsn
      rw [hlsn, hknows, List.length_append, List.length_singleton, wrap32_of_lt] <;> push_cast <;> omega
    have hin : (done ++ pre ++ [r]).flatMap encode <+: (w.writeLog (.fails n) lsn).log.mgr.log_file :=
      hsound.persistent (done ++ pre) r buffered happ hle
    rw [hfile] at hin
    have hshort := hin.length_le
    rw [List.append_assoc, List.flatMap_append, List.length_append, List.length_append, List.length_take] at hshort
    omega

/-! ## One record -/

/-- A record is appended and the buffers are swapped; the write comes next. -/
def appendAndSwap : List Event := [.log (.append 0 LogManager.beginRecord), .log .swap]

/-- The flush thread stores `persistent_lsn_`, and thread 1 asks for the record. -/
def storeAndFlush : List Event := [.log .store, .flush 1 0 true, .flushed 1]

/-- The record is in flight. -/
structure InFlight (w : World) : Prop where
  writing : w.log.flushThread = .writing 0
  waiting : w.log.waiting = fun _ => none
  appended : w.log.appended = [LogManager.beginRecord.SetLsn 0]
  offset : w.log.mgr.flush_buffer_write_offset_ = 24
  log_file : w.log.mgr.log_file = []
  bad : w.bad = false
  flushing : w.flushing = fun _ => none
  flushed : w.flushed = []

/-- Nobody is in `Flush`. -/
theorem next_log {e : LogManager.Event} {log : LogManager.World} (hwrite : e ≠ .write)
    (hflushing : w.flushing = fun _ => none) (hnext : LogManager.next w.log e = some log) :
    next w (.log e) = some { w with log := log } := by
  cases e with
  | write => exact absurd rfl hwrite
  | append t r => simp only [next, hflushing, ne_eq, not_true_eq_false, if_false, hnext, Option.map_some]
  | wake | swap | store | reset => simp only [next, hnext, Option.map_some]

theorem run_appendAndSwap : ∃ w, Run (Guarded WritesComplete (FunStep next)) (World.init LogManager.zeros LogManager.zeros)
    appendAndSwap w ∧ InFlight w := by
  have hlen := LogManager.length_beginRecord
  have hI := LogManager.inv_init LogManager.zeros LogManager.zeros
  obtain ⟨happend, hq⟩ := LogManager.next_append (t := 0) hI (LogManager.quiet_init _ _) LogManager.beginRecord_sized
    (by rw [hlen, LOG_BUFFER_SIZE_eq]; decide)
  rw [hlen, Nat.zero_add] at hq
  obtain ⟨happ, hfile, hnext_lsn⟩ : ((LogManager.World.init LogManager.zeros LogManager.zeros).appendNow 0
      LogManager.beginRecord).appended = [LogManager.beginRecord.SetLsn 0] ∧
      ((LogManager.World.init LogManager.zeros LogManager.zeros).appendNow 0 LogManager.beginRecord).mgr.log_file = [] ∧
      ((LogManager.World.init LogManager.zeros LogManager.zeros).appendNow 0 LogManager.beginRecord).mgr.next_lsn_ = 1 :=
    ⟨rfl, rfl, rfl⟩
  generalize (LogManager.World.init LogManager.zeros LogManager.zeros).appendNow 0 LogManager.beginRecord = l at *
  have hswap : LogManager.next l .swap = some { l with
      mgr := { l.mgr.SwapBuffer with flush_lsn_ := wrap32 (l.mgr.next_lsn_ - 1) }
      flushThread := .writing (wrap32 (l.mgr.next_lsn_ - 1)) } := by
    simp only [LogManager.next, hq.idle, ne_eq, not_true_eq_false, if_false, hq.offset_eq, Nat.zero_lt_succ, if_true]
  rw [hnext_lsn] at hswap
  have hbegin := next_log (w := World.init LogManager.zeros LogManager.zeros) LogManager.Event.noConfusion rfl happend
  have hflight := next_log (w := { World.init LogManager.zeros LogManager.zeros with log := l }) LogManager.Event.noConfusion
    rfl hswap
  refine ⟨_, Run.cons ⟨LogManager.beginRecord_sized, hbegin⟩ (Run.single ⟨trivial, hflight⟩), ?_⟩
  exact ⟨rfl, hq.waiting, happ, hq.offset_eq, hfile, rfl, rfl, rfl⟩

/-- `Flush` returns, however the write has gone. -/
theorem run_storeAndFlush (h : InFlight w) (o : LogStorage.Outcome) : ∃ w',
    Run (Guarded WritesComplete (FunStep next)) (w.writeLog o 0) storeAndFlush w' ∧ w'.flushed = [0] ∧
      w'.log.appended = [LogManager.beginRecord.SetLsn 0] ∧ w'.log.mgr.log_file = (w.writeLog o 0).log.mgr.log_file ∧
      w'.log.mgr.persistent_lsn_ = 0 := by
  obtain ⟨hthread, hwaiting, happ, hflushing, hflushed⟩ : (w.writeLog o 0).log.flushThread = .written 0 ∧
      (w.writeLog o 0).log.waiting = w.log.waiting ∧ (w.writeLog o 0).log.appended = w.log.appended ∧
      (w.writeLog o 0).flushing = w.flushing ∧ (w.writeLog o 0).flushed = w.flushed := ⟨rfl, rfl, rfl, rfl, rfl⟩
  rw [h.waiting] at hwaiting
  rw [h.flushing] at hflushing
  rw [h.appended] at happ
  rw [h.flushed] at hflushed
  generalize w.writeLog o 0 = v at *
  have hnext : LogManager.next v.log .store =
      some { v.log with mgr := { v.log.mgr with persistent_lsn_ := 0 }, flushThread := .stored } := by
    simp only [LogManager.next, hthread]
  have hstore := next_log LogManager.Event.noConfusion hflushing hnext
  generalize hu : ({ v with log := { v.log with mgr := { v.log.mgr with persistent_lsn_ := 0 }, flushThread := .stored } } :
    World) = u at hstore
  have hpersistent : u.log.mgr.persistent_lsn_ = 0 := by rw [← hu]
  have hcall : next u (.flush 1 0 true) = some { u.setFlushing 1 (some 0) with log := World.forceFlush u.log true } := by
    simp only [next, ← hu, hflushing, hwaiting, ne_eq, not_true_eq_false, or_self, if_false]
  have hreturn : next { u.setFlushing 1 (some 0) with log := World.forceFlush u.log true } (.flushed 1) =
      some { ({ u.setFlushing 1 (some 0) with log := World.forceFlush u.log true } : World).setFlushing 1 none with
        flushed := u.flushed ++ [0] } := by
    simp only [next, World.setFlushing, if_true, World.forceFlush, hpersistent, lt_irrefl, if_false]
  refine ⟨_, Run.cons ⟨trivial, hstore⟩ (Run.cons ⟨trivial, hcall⟩ (Run.single ⟨trivial, hreturn⟩)), ?_, ?_, ?_, ?_⟩
  · show u.flushed ++ [0] = [0]
    rw [← hu]
    show v.flushed ++ [0] = [0]
    rw [hflushed, List.nil_append]
  · show u.log.appended = _
    rw [← hu]
    exact happ
  · show u.log.mgr.log_file = _
    rw [← hu]
  · exact hpersistent

/-- The write completes. -/
theorem persistent_sound_flushed : ∃ w, Run (Guarded WritesComplete (FunStep next))
    (World.init LogManager.zeros LogManager.zeros) (appendAndSwap ++ .write .complete :: storeAndFlush) w ∧
    w.flushed = [0] ∧ Sound w := by
  obtain ⟨w, hrun, hw⟩ := run_appendAndSwap
  obtain ⟨w', hrest, hflushed, happ, -⟩ := run_storeAndFlush hw .complete
  have hwrite : next w (.write .complete) = some (w.writeLog .complete 0) := by simp only [next, hw.writing]
  have hok : WritesComplete w (.write .complete) := rfl
  have hall := hrun.append (Run.cons ⟨hok, hwrite⟩ hrest)
  exact ⟨w', hall, hflushed, persistent_sound hall (by rw [happ]; decide)⟩

/-- The write fails before its first byte: `Flush` returns for the record, and the file is empty. -/
theorem flush_before_durable : ∃ w, Run (FunStep next) (World.init LogManager.zeros LogManager.zeros)
    (appendAndSwap ++ .write (.fails 0) :: storeAndFlush) w ∧
    w.flushed = [0] ∧ w.log.mgr.persistent_lsn_ = 0 ∧ w.log.appended = [LogManager.beginRecord.SetLsn 0] ∧
    w.log.mgr.log_file = [] ∧ ¬ Sound w := by
  obtain ⟨w, hrun, hw⟩ := run_appendAndSwap
  obtain ⟨w', hrest, hflushed, happ, hfile, hpersistent⟩ := run_storeAndFlush hw (.fails 0)
  have hwrite : next w (.write (.fails 0)) = some (w.writeLog (.fails 0) 0) := by simp only [next, hw.writing]
  have hempty : (w.writeLog (.fails 0) 0).log.mgr.log_file = [] := by
    unfold World.writeLog LogStorage.tryWriteLog
    rw [hw.offset, hw.bad, hw.log_file]
    rfl
  rw [hempty] at hfile
  refine ⟨w', hrun.of_guarded.append (Run.cons hwrite hrest.of_guarded), hflushed, hpersistent, happ, hfile, ?_⟩
  intro hsound
  have hin := hsound.persistent [] (LogManager.beginRecord.SetLsn 0) [] happ (by rw [hpersistent]; decide)
  rw [World.InFile, hfile, List.prefix_nil] at hin
  revert hin
  decide

end WriteFailure
end DDBMS
