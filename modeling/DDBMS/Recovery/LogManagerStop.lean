import DDBMS.Recovery.LogManagerDurable

/-!
# `Recovery.LogManagerStop` — what a shutdown leaves in the file

The loop `while (enable_flushing_)` of the flush thread around the rounds of `LogManager`, and `StopFlushThread`: it
clears the flag and joins the thread. A call of `AppendLogRecord` that has returned may have left its record in the log
buffer. It gets into the file when the thread still has to swap in the round it is in, and not when the thread has swapped
already or is about to test the flag (`Settled`).
-/

namespace DDBMS
namespace StopFlushThread

open LogRecord (encode)
open LogManager (Inv Pieces SizedRecords)

/-- Where the flush thread is in `while (enable_flushing_)`. -/
inductive Loop where
  /-- `enable_flushing_` is tested next -/
  | test
  /-- in the body -/
  | round
  | exited
  deriving DecidableEq, Repr

structure World where
  log : LogManager.World
  enable_flushing_ : Bool := true
  loop : Loop := .test
  /-- `StopFlushThread` has returned. -/
  stopped : Bool := false

/-- A new log manager has started its thread. -/
def World.init (log_buffer flush_buffer : Vector UInt8 LOG_BUFFER_SIZE) : World where
  log := LogManager.World.init log_buffer flush_buffer

inductive Event where
  | log (e : LogManager.Event)
  /-- the flush thread tests `enable_flushing_` -/
  | test
  /-- `enable_flushing_.store(false)`, in the destructor -/
  | stop
  /-- `flush_thread_->join()` returns -/
  | join
  deriving DecidableEq, Repr

/-- A round ends when the flush thread is idle again; one that finds the log buffer empty ends at once. -/
def Loop.after : LogManager.FlushThread → Loop
  | .idle => .test
  | .writing _ | .written _ | .stored => .round

/-- A step. The destructor is called when all calls of `AppendLogRecord` have returned, and there is none after it. -/
inductive Step : World → Event → World → Prop where
  | call {w : World} {e : LogManager.Event} {log : LogManager.World} (hflag : w.enable_flushing_ = true)
      (hcall : ¬ e.Flushes) (hnext : LogManager.next w.log e = some log) : Step w (.log e) { w with log := log }
  | flush {w : World} {e : LogManager.Event} {log : LogManager.World} (hround : w.loop = .round) (hflush : e.Flushes)
      (hnext : LogManager.next w.log e = some log) :
      Step w (.log e) { w with log := log, loop := Loop.after log.flushThread }
  | test {w : World} (htest : w.loop = .test) :
      Step w .test { w with loop := if w.enable_flushing_ then .round else .exited }
  | stop {w : World} (hflag : w.enable_flushing_ = true) (hreturned : ∀ t, w.log.waiting t = none) :
      Step w .stop { w with enable_flushing_ := false }
  | join {w : World} (hflag : w.enable_flushing_ = false) (hexited : w.loop = .exited) :
      Step w .join { w with stopped := true }

/-- Every appended record is in the file. -/
def World.Persisted (w : World) : Prop := w.log.mgr.log_file = w.log.appended.flatMap encode

/-- The log buffer is empty, or the flush thread swaps before it tests the flag. -/
def World.Settled (w : World) : Prop :=
  w.log.mgr.log_buffer_write_offset_ = 0 ∨ w.loop = .round ∧ w.log.flushThread = .idle

instance (w : World) : Decidable w.Settled := inferInstanceAs (Decidable (_ ∨ _))

/-- The flag is cleared in a settled state. -/
def SettledStop (w : World) : Event → Prop
  | .stop => w.Settled
  | .log e => SizedRecords w.log e
  | .test | .join => True

variable {w w' : World} {e : Event}

/-! ## The flush thread -/

/-- The flush thread is idle between the rounds, and leaves the loop when the flag is cleared. -/
structure Loops (w : World) : Prop where
  idle : w.loop ≠ .round → w.log.flushThread = .idle
  exited : w.loop = .exited → w.enable_flushing_ = false
  stopped : w.stopped = true → w.loop = .exited

theorem loops_init (a b : Vector UInt8 LOG_BUFFER_SIZE) : Loops (World.init a b) where
  idle _ := rfl
  exited h := Loop.noConfusion h
  stopped h := Bool.noConfusion h

theorem after_idle {f : LogManager.FlushThread} (h : Loop.after f ≠ .round) : f = .idle := by
  cases f with
  | idle => rfl
  | writing | written | stored => exact absurd rfl h

theorem after_ne_exited (f : LogManager.FlushThread) : Loop.after f ≠ .exited := by
  intro h
  cases f with
  | idle | writing | written | stored => cases h

/-- A call concerns the log buffer only. -/
theorem call_flushThread {l l' : LogManager.World} {e : LogManager.Event} (hcall : ¬ e.Flushes)
    (hnext : LogManager.next l e = some l') : l'.flushThread = l.flushThread := by
  cases LogManager.next_cases hnext with
  | wait | append | sleep | wake => rfl
  | swap | empty | write | store | reset => exact absurd trivial hcall

theorem Loops.step (h : Loops w) (hst : Step w e w') : Loops w' := by
  cases hst with
  | call hflag hcall hnext => exact ⟨fun hne => (call_flushThread hcall hnext).trans (h.idle hne), h.exited, h.stopped⟩
  | flush hround hflush hnext =>
      refine ⟨after_idle, fun hexited => absurd hexited (after_ne_exited _), fun hstopped => ?_⟩
      exact absurd (hround.symm.trans (h.stopped hstopped)) (by decide)
  | test htest =>
      have hidle : w.log.flushThread = .idle := h.idle (by rw [htest]; decide)
      refine ⟨fun _ => hidle, ?_, fun hstopped => ?_⟩
      · cases hflag : w.enable_flushing_ with
        | true =>
            rintro hexited
            cases hexited
        | false => exact fun _ => rfl
      · exact absurd (htest.symm.trans (h.stopped hstopped)) (by decide)
  | stop => exact ⟨h.idle, fun _ => rfl, h.stopped⟩
  | join hflag hexited => exact ⟨h.idle, h.exited, fun _ => hexited⟩

/-! ## Behind the flag -/

/-- What is known of the log in every state of a run that stops in a settled state. -/
structure Stands (w : World) : Prop where
  inv : Inv w.log
  loops : Loops w
  settled : w.enable_flushing_ = false → w.Settled

/-- A flush step keeps an empty buffer empty, and the one behind the wait empties it. -/
theorem flush_offset {l l' : LogManager.World} {e : LogManager.Event} (hflush : e.Flushes)
    (hnext : LogManager.next l e = some l') :
    l'.mgr.log_buffer_write_offset_ = l.mgr.log_buffer_write_offset_ ∨ l'.mgr.log_buffer_write_offset_ = 0 := by
  cases LogManager.next_cases hnext with
  | wait | append | sleep | wake => exact hflush.elim
  | swap => exact Or.inr rfl
  | empty | write | store | reset => exact Or.inl rfl

/-- The first step of an idle flush thread empties the buffer. -/
theorem flush_from_idle {l l' : LogManager.World} {e : LogManager.Event} (hidle : l.flushThread = .idle)
    (hflush : e.Flushes) (hnext : LogManager.next l e = some l') : l'.mgr.log_buffer_write_offset_ = 0 := by
  cases e with
  | append | wake => exact hflush.elim
  | swap =>
      simp only [LogManager.next, hidle, ne_eq, not_true_eq_false, if_false] at hnext
      split at hnext
      · obtain rfl := Option.some.inj hnext
        rfl
      · rename_i hzero
        obtain rfl := Option.some.inj hnext
        omega
  | write | store | reset =>
      rw [LogManager.next, hidle] at hnext
      cases hnext

theorem Stands.step (h : Stands w) (hst : Guarded SettledStop Step w e w') : Stands w' := by
  obtain ⟨hok, hst⟩ := hst
  have hloops := h.loops.step hst
  cases hst with
  | call hflag hcall hnext =>
      refine ⟨LogManager.inv_step h.inv ⟨hok, hnext⟩, hloops, fun hcleared => ?_⟩
      exact absurd (hflag.symm.trans hcleared) (by decide)
  | flush hround hflush hnext =>
      refine ⟨LogManager.inv_step h.inv ⟨hok, hnext⟩, hloops, fun hcleared => Or.inl ?_⟩
      rcases h.settled hcleared with hzero | ⟨-, hidle⟩
      · rcases flush_offset hflush hnext with hsame | hempty
        · exact hsame.trans hzero
        · exact hempty
      · exact flush_from_idle hidle hflush hnext
  | test htest =>
      refine ⟨h.inv, hloops, fun hcleared => Or.inl ?_⟩
      rcases h.settled hcleared with hzero | ⟨hround, -⟩
      · exact hzero
      · exact absurd (htest.symm.trans hround) (by decide)
  | stop => exact ⟨h.inv, hloops, fun _ => hok⟩
  | join => exact ⟨h.inv, hloops, h.settled⟩

/-- An empty buffer behind the last round: everything is in the file. -/
theorem persisted_of_empty (h : Inv w.log) (hidle : w.log.flushThread = .idle)
    (hzero : w.log.mgr.log_buffer_write_offset_ = 0) : w.Persisted := by
  obtain ⟨done, flying, buffered, hp⟩ := h.pieces
  have hflying := hp.inFlight
  have hbuffered := hp.buffered
  rw [LogManager.World.inFlight, hidle] at hflying
  rw [hzero, List.take_zero] at hbuffered
  rw [World.Persisted, hp.appended, hp.file, List.flatMap_append, List.flatMap_append, ← hflying, ← hbuffered,
    List.append_nil, List.append_nil]

theorem Stands.persisted (h : Stands w) (hstopped : w.stopped = true) : w.Persisted := by
  have hexited := h.loops.stopped hstopped
  have hidle := h.loops.idle (by rw [hexited]; decide)
  rcases h.settled (h.loops.exited hexited) with hzero | ⟨hround, -⟩
  · exact persisted_of_empty h.inv hidle hzero
  · exact absurd (hexited.symm.trans hround) (by decide)

theorem stands_init (a b : Vector UInt8 LOG_BUFFER_SIZE) : Stands (World.init a b) :=
  ⟨LogManager.inv_init a b, loops_init a b, fun h => Bool.noConfusion h⟩

/-! ## Behind an unsettled stop -/

/-- The flag is cleared, a record is in the log buffer, and the flush thread does not swap any more. -/
structure Lost (w : World) : Prop where
  inv : Inv w.log
  loops : Loops w
  cleared : w.enable_flushing_ = false
  unsettled : ¬ w.Settled

theorem Lost.step (h : Lost w) (hst : Step w e w') : Lost w' := by
  obtain ⟨hfilled, hpassed⟩ := not_or.mp h.unsettled
  have hloops := h.loops.step hst
  cases hst with
  | call hflag => exact absurd (hflag.symm.trans h.cleared) (by decide)
  | @flush e log hround hflush hnext =>
      have hsized : SizedRecords w.log e := by
        cases e with
        | append | wake => exact hflush.elim
        | swap | write | store | reset => trivial
      refine ⟨LogManager.inv_step h.inv ⟨hsized, hnext⟩, hloops, h.cleared, ?_⟩
      have hbusy : w.log.flushThread ≠ .idle := fun hidle => hpassed ⟨hround, hidle⟩
      rintro (hzero | ⟨hround', hidle⟩)
      · -- only a swap would have emptied the buffer
        cases LogManager.next_cases hnext with
        | swap hidle => exact hbusy hidle
        | empty | write | store | reset => exact hfilled hzero
        | wait | append | sleep | wake => exact hflush.elim
      · rw [show Loop.after log.flushThread = .test by rw [show log.flushThread = .idle from hidle]; rfl] at hround'
        cases hround'
  | test htest =>
      refine ⟨h.inv, hloops, h.cleared, ?_⟩
      rintro (hzero | ⟨hround, -⟩)
      · exact hfilled hzero
      · rw [h.cleared] at hround
        cases hround
  | stop hflag => exact absurd (hflag.symm.trans h.cleared) (by decide)
  | join => exact ⟨h.inv, hloops, h.cleared, h.unsettled⟩

/-- A record in the log buffer is not in the file. -/
theorem Lost.not_persisted (h : Lost w) : ¬ w.Persisted := by
  obtain ⟨hfilled, -⟩ := not_or.mp h.unsettled
  obtain ⟨done, flying, buffered, hp⟩ := h.inv.pieces
  intro hpersisted
  have hlen := congrArg List.length hp.buffered
  have hoff := h.inv.offset
  rw [List.length_take_of_le (by rw [h.inv.log_buffer]; omega)] at hlen
  have hfile := congrArg List.length hpersisted
  rw [hp.appended, hp.file, List.flatMap_append, List.flatMap_append, List.length_append, List.length_append] at hfile
  omega

/-- **Nothing less will do**: behind a stop in an unsettled state, `StopFlushThread` returns without the last records. -/
theorem stop_loses {a b : Vector UInt8 LOG_BUFFER_SIZE} {es fs : List Event} {w₁ w₂ : World}
    (hrun : Run (Guarded SettledStop Step) (World.init a b) es w) (hstop : Step w .stop w₁) (hunsettled : ¬ w.Settled)
    (hrest : Run Step w₁ fs w₂) : ¬ w₂.Persisted := by
  have hstands := hrun.invariant (fun _ _ _ h hst => Stands.step h hst) (stands_init a b)
  have hlost : Lost w₁ := by
    have hloops := hstands.loops.step hstop
    cases hstop with
    | stop => exact ⟨hstands.inv, hloops, rfl, hunsettled⟩
  exact (hrest.invariant (fun _ _ _ h hst => Lost.step h hst) hlost).not_persisted

/-! ## The whole log -/

/-- **A clean shutdown persists the whole log**, when the flag is cleared in a settled state. -/
theorem shutdown_persists {a b : Vector UInt8 LOG_BUFFER_SIZE} {es : List Event}
    (hrun : Run (Guarded SettledStop Step) (World.init a b) es w) (hstopped : w.stopped = true) : w.Persisted :=
  (hrun.invariant (fun _ _ _ h hst => Stands.step h hst) (stands_init a b)).persisted hstopped

/-! ## Two shutdowns -/

section Examples

variable {log : LogManager.World} {flag : Bool} {loop : Loop}

theorem append_begin (loop : Loop) (hI : Inv log) (hq : LogManager.Quiet log 0) : ∃ log',
    Guarded SettledStop Step ⟨log, true, loop, false⟩ (.log (.append 0 LogManager.beginRecord)) ⟨log', true, loop, false⟩ ∧
    Inv log' ∧ LogManager.Quiet log' 24 := by
  have hlen := LogManager.length_beginRecord
  obtain ⟨happend, hquiet⟩ := LogManager.next_append (t := 0) hI hq LogManager.beginRecord_sized
    (by rw [hlen, LOG_BUFFER_SIZE_eq]; decide)
  rw [hlen, Nat.zero_add] at hquiet
  have hsized : SizedRecords log (.append 0 LogManager.beginRecord) := LogManager.beginRecord_sized
  exact ⟨_, ⟨hsized, .call rfl id happend⟩, LogManager.inv_step hI ⟨hsized, happend⟩, hquiet⟩

/-- Behind the swap the flush thread is in its round. -/
theorem after_of_next {l l' : LogManager.World} {e : LogManager.Event} (hflush : e.Flushes) (hne : e ≠ .swap)
    (hnext : LogManager.next l e = some l') : Loop.after l.flushThread = .round := by
  cases LogManager.next_cases hnext with
  | wait | append | sleep | wake => exact hflush.elim
  | swap | empty => exact absurd rfl hne
  | write h | store h | reset h =>
      rw [h]
      rfl

def roundEvents : List Event := [.log .swap, .log .write, .log .store, .log .reset]

theorem flush_to {log' : LogManager.World} {e : LogManager.Event} (hflush : e.Flushes)
    (hnext : LogManager.next log e = some log') (hafter : Loop.after log'.flushThread = loop) :
    Guarded SettledStop Step ⟨log, flag, .round, false⟩ (.log e) ⟨log', flag, loop, false⟩ := by
  subst hafter
  refine ⟨?_, .flush rfl hflush hnext⟩
  cases e with
  | append | wake => exact hflush.elim
  | swap | write | store | reset => trivial

theorem run_round (flag : Bool) (hq : LogManager.Quiet log 24) : ∃ log',
    Run (Guarded SettledStop Step) ⟨log, flag, .round, false⟩ roundEvents ⟨log', flag, .test, false⟩ ∧
    LogManager.Quiet log' 0 := by
  obtain ⟨l₁, l₂, l₃, l₄, h₁, h₂, h₃, h₄, hq₄, -⟩ := LogManager.flush_steps hq (by decide)
  have hswap : LogManager.Event.swap.Flushes := trivial
  have hwrite : LogManager.Event.write.Flushes := trivial
  have hstore : LogManager.Event.store.Flushes := trivial
  have hreset : LogManager.Event.reset.Flushes := trivial
  have hround₁ := after_of_next hwrite (by decide) h₂
  have hround₂ := after_of_next hstore (by decide) h₃
  have hround₃ := after_of_next hreset (by decide) h₄
  have htest : Loop.after l₄.flushThread = .test := by
    rw [hq₄.idle]
    rfl
  exact ⟨l₄, Run.cons (flush_to hswap h₁ hround₁) (Run.cons (flush_to hwrite h₂ hround₂)
    (Run.cons (flush_to hstore h₃ hround₃) (Run.single (flush_to hreset h₄ htest)))), hq₄⟩

/-- A record is appended while the flush thread waits, and the destructor is called. -/
def stopInRound : List Event := [.test, .log (.append 0 LogManager.beginRecord), .stop] ++ roundEvents ++ [.test, .join]

theorem shutdown_persists_inRound : ∃ w, Run (Guarded SettledStop Step)
    (World.init LogManager.zeros LogManager.zeros) stopInRound w ∧ w.stopped = true ∧ w.Persisted := by
  obtain ⟨log₁, happend, -, hq₁⟩ := append_begin .round (LogManager.inv_init LogManager.zeros LogManager.zeros)
    (LogManager.quiet_init _ _)
  obtain ⟨log₂, hround, hq₂⟩ := run_round false hq₁
  have htest : Guarded SettledStop Step (World.init LogManager.zeros LogManager.zeros) .test
      ⟨LogManager.World.init LogManager.zeros LogManager.zeros, true, .round, false⟩ := ⟨trivial, .test rfl⟩
  have hstop : Guarded SettledStop Step ⟨log₁, true, .round, false⟩ .stop ⟨log₁, false, .round, false⟩ :=
    ⟨Or.inr ⟨rfl, hq₁.idle⟩, .stop rfl (fun t => by rw [hq₁.waiting])⟩
  have hexit : Guarded SettledStop Step ⟨log₂, false, .test, false⟩ .test ⟨log₂, false, .exited, false⟩ :=
    ⟨trivial, .test rfl⟩
  have hjoin : Guarded SettledStop Step ⟨log₂, false, .exited, false⟩ .join ⟨log₂, false, .exited, true⟩ :=
    ⟨trivial, .join rfl rfl⟩
  have hrun := ((Run.cons htest (Run.cons happend (Run.single hstop))).append hround).append
    (Run.cons hexit (Run.single hjoin))
  exact ⟨_, hrun, rfl, shutdown_persists hrun rfl⟩

/-- A record comes behind the round of the one before it, and the destructor is called before the flush thread tests
    the flag again. -/
def stopBetweenRounds : List Event :=
  [.test, .log (.append 0 LogManager.beginRecord)] ++ roundEvents ++
    [.log (.append 0 LogManager.beginRecord), .stop, .test, .join]

/-- The second record is not in the file when `StopFlushThread` returns. -/
theorem shutdown_loses : ∃ w, Run Step (World.init LogManager.zeros LogManager.zeros) stopBetweenRounds w ∧
    w.stopped = true ∧ ¬ w.Persisted := by
  obtain ⟨log₁, happend₁, hI₁, hq₁⟩ := append_begin .round
    (LogManager.inv_init LogManager.zeros LogManager.zeros) (LogManager.quiet_init _ _)
  obtain ⟨log₂, hround, hq₂⟩ := run_round true hq₁
  have htest : Guarded SettledStop Step (World.init LogManager.zeros LogManager.zeros) .test
      ⟨LogManager.World.init LogManager.zeros LogManager.zeros, true, .round, false⟩ := ⟨trivial, .test rfl⟩
  have hbegin := (Run.cons htest (Run.single happend₁)).append hround
  have hI₂ := (hbegin.invariant (fun _ _ _ h hst => Stands.step h hst) (stands_init _ _)).inv
  obtain ⟨log₃, happend₂, -, hq₃⟩ := append_begin .test hI₂ hq₂
  have hrun := hbegin.tail happend₂
  have hstop : Step ⟨log₃, true, .test, false⟩ .stop ⟨log₃, false, .test, false⟩ := .stop rfl (fun t => by rw [hq₃.waiting])
  have hunsettled : ¬ (⟨log₃, true, .test, false⟩ : World).Settled := by
    rintro (hzero | ⟨hround, -⟩)
    · exact absurd (hq₃.offset_eq.symm.trans hzero) (by decide)
    · cases hround
  have hexit : Step ⟨log₃, false, .test, false⟩ .test ⟨log₃, false, .exited, false⟩ := .test rfl
  have hjoin : Step ⟨log₃, false, .exited, false⟩ .join ⟨log₃, false, .exited, true⟩ := .join rfl rfl
  have hrest := Run.cons hexit (Run.single hjoin)
  refine ⟨_, ?_, rfl, stop_loses hrun hstop hunsettled hrest⟩
  exact hrun.of_guarded.append (Run.cons hstop hrest)

end Examples

end StopFlushThread
end DDBMS
