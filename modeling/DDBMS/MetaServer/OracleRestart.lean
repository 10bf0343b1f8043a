import DDBMS.MetaServer.OracleSync

/-!
# `MetaServer.OracleRestart` — timestamps across restarts

Before a physical time `n` is installed, `saveTimeStampToPath` writes the bound `n + 1`, and the next process
starts from that bound. The argument is one invariant, `Durable`: everything returned so far is at most the
persisted bound, and everything an earlier process returned is at most what the present one started from.

Two slips of the code break it. `syncTimestamp` compares the unsigned difference `next - lastTS` with the
guard, so a clock *behind* the stored bound passes as far ahead of it; and `updateTimestamp` decides whether
to save from `lastTS - next` cut to 32 bits, against a `lastTS` that is never refreshed, so for half of all
differences it does not save. `SafeStep` is the condition that neither happens; it also asks that the 64-bit
words do not overflow and that whoever draws before `syncTimestamp` is done only tries again.
-/

namespace DDBMS
namespace Oracle

/-- Whether `current_` has been installed by `syncTimestamp` in the present process. -/
def Background.synced : Background → Bool
  | .down | .syncSave _ | .syncInstall _ => false
  | _ => true

/-- What a critical section may draw: from an installed time, whatever fits the words; before that, what the test of
    `getTimeStamp` refuses. -/
def World.MayDraw (w : World) : Prop :=
  if w.background.synced then w.current_.physiacl.toNat < 2 ^ 46 - 1 ∧ w.current_.logical.toNat < 2 ^ 64 - 1
  else w.current_.physiacl = 0 ∨ maxLogical < w.current_.logical + 1

instance (w : World) : Decidable w.MayDraw := inferInstanceAs (Decidable (if w.background.synced then _ else _))

/-- The condition under which a step keeps the order across restarts. A call that has drawn the zero of an unsynchronised time
    does not test a synchronised one (`SyncOk`). -/
def SafeStep (w : World) : Event → Prop
  | .boot _ now => w.file.getD 0 ≤ now ∧ now.toNat < 2 ^ 45
  | .update now => now.toNat < 2 ^ 45 ∧ (updateNext w.current_ now).all (savesBound w.lastTS) = true
  | .lock _ => w.MayDraw
  | .test c => SyncOk w (.test c)
  | _ => True

instance (w : World) : ∀ e, Decidable (SafeStep w e)
  | .boot _ _ => inferInstanceAs (Decidable (_ ∧ _))
  | .update _ => inferInstanceAs (Decidable (_ ∧ _))
  | .lock _ => inferInstanceAs (Decidable w.MayDraw)
  | .test c => inferInstanceAs (Decidable (SyncOk w (.test c)))
  | .save | .install | .crash | .call _ => inferInstanceAs (Decidable True)

/-- Every timestamp of a later process is larger than every timestamp of an earlier one. -/
def World.RestartOrdered (w : World) : Prop :=
  ∀ r ∈ w.returned, ∀ r' ∈ w.returned, r.epoch < r'.epoch → r.ts < r'.ts

/-- The persisted bound. -/
def World.bound (w : World) : Nat := (w.file.getD 0).toNat

/-- Everything an earlier process returned is at most physical time `x`. -/
def World.OldBelow (w : World) (x : Nat) : Prop :=
  ∀ r ∈ w.returned, r.epoch < w.epoch → r.ts.toNat ≤ x * 2 ^ 18

/-- The installed physical time is above every earlier process and leaves room for the carry of the logical
    parts drawn from it. -/
def World.InUse (w : World) : Prop :=
  w.current_.physiacl.toNat < 2 ^ 46 ∧
  (w.current_.logical.toNat ≠ 0 → w.current_.physiacl.toNat < 2 ^ 46 - 1) ∧
  w.OldBelow w.current_.physiacl.toNat

/-- How the persisted bound, the installed time and the time under way relate, by the place of the
    background thread. -/
def World.Stage (w : World) : Prop :=
  match w.background with
  | .down => True
  | .syncSave n => w.bound < n.toNat ∧ n.toNat < 2 ^ 46
  | .syncInstall n => w.bound = n.toNat + 1 ∧ n.toNat < 2 ^ 46 ∧ w.OldBelow n.toNat
  | .idle => w.InUse ∧ w.bound = w.current_.physiacl.toNat + 1
  | .updateSave n => w.InUse ∧ w.bound = w.current_.physiacl.toNat + 1 ∧
      w.current_.physiacl.toNat < n.toNat ∧ n.toNat < 2 ^ 46
  | .updateInstall n => w.InUse ∧ w.bound = n.toNat + 1 ∧
      w.current_.physiacl.toNat < n.toNat ∧ n.toNat < 2 ^ 46

/-- A drawn pair that a safe test may return: it has neither the zero of an unsynchronised time nor a logical part beyond
    `maxLogical`. -/
def Returnable (d : UInt64 × UInt64) : Prop := d.1 ≠ 0 ∧ d.2 ≤ maxLogical

/-- Only a synchronised process draws what can be returned. -/
theorem World.MayDraw.synced {w : World} (h : w.MayDraw) (hd : Returnable (w.current_.physiacl, w.current_.logical + 1)) :
    w.background.synced = true := by
  unfold World.MayDraw at h
  split at h
  · assumption
  · rcases h with hzero | hbeyond
    · exact absurd hzero hd.1
    · exact absurd hbeyond (UInt64.not_lt.mpr hd.2)

theorem World.MayDraw.fits {w : World} (h : w.MayDraw) (hs : w.background.synced = true) :
    w.current_.physiacl.toNat < 2 ^ 46 - 1 ∧ (w.current_.logical + 1).toNat = w.current_.logical.toNat + 1 := by
  unfold World.MayDraw at h
  rw [if_pos hs] at h
  refine ⟨h.1, ?_⟩
  rw [UInt64.toNat_add, UInt64.toNat_one]
  omega

/-- A returnable pair: from an installed time, above everything an earlier process returned. -/
def World.Drawn (w : World) (p l : UInt64) : Prop :=
  w.background.synced = true ∧ 1 ≤ l.toNat ∧ p.toNat < 2 ^ 46 - 1 ∧
  p.toNat ≤ w.current_.physiacl.toNat ∧ w.OldBelow p.toNat

/-- What holds between the steps of a safe run. -/
structure Durable (w : World) : Prop where
  /-- everything returned so far is below the persisted bound -/
  covered : ∀ r ∈ w.returned, r.ts.toNat ≤ w.bound * 2 ^ 18
  stage : w.Stage
  calls : ∀ c i seq p l, w.calls c = .drawn i seq p l → Returnable (p, l) → w.Drawn p l
  epochs : ∀ r ∈ w.returned, r.epoch ≤ w.epoch
  ordered : w.RestartOrdered

theorem World.OldBelow.mono {w : World} {x y : Nat} (h : w.OldBelow x) (hxy : x ≤ y) : w.OldBelow y :=
  fun r hr he => (h r hr he).trans (Nat.mul_le_mul_right _ hxy)

theorem init_durable (file : Option UInt64) : Durable (World.init file) := by
  refine ⟨?_, trivial, ?_, ?_, ?_⟩
  · intro r hr; cases hr
  · intro c i seq p l h; cases h
  · intro r hr; cases hr
  · intro r hr; cases hr

/-- In a synchronised process the persisted bound is past the installed time. -/
theorem Durable.bound_gt {w : World} (h : Durable w) (hs : w.background.synced = true) :
    w.current_.physiacl.toNat + 1 ≤ w.bound := by
  have hst := h.stage
  unfold World.Stage at hst
  cases hb : w.background <;> rw [hb] at hst hs <;> simp only [Background.synced] at hs hst
  · cases hs
  · cases hs
  · cases hs
  · omega
  · omega
  · omega

/-- And the installed time is above every earlier process. -/
theorem Durable.oldBelow {w : World} (h : Durable w) (hs : w.background.synced = true) :
    w.OldBelow w.current_.physiacl.toNat := by
  have hst := h.stage
  unfold World.Stage at hst
  cases hb : w.background <;> rw [hb] at hst hs <;> simp only [Background.synced] at hs hst
  · cases hs
  · cases hs
  · cases hs
  · exact hst.1.2.2
  · exact hst.1.2.2
  · exact hst.1.2.2

/-! ## Preservation, one lemma per kind of step -/

theorem Durable.boot {w : World} (h : Durable w) (uninit : Timestamp) {now : UInt64}
    (hle : w.file.getD 0 ≤ now) (hnow : now.toNat < 2 ^ 45) : Durable (boot w uninit now) := by
  obtain ⟨hgt, hlt⟩ := syncNext_gt hnow hle
  refine ⟨h.covered, ⟨hgt, by omega⟩, ?_, ?_, h.ordered⟩
  · intro c i seq p l hc; cases hc
  · intro r hr
    exact (h.epochs r hr).trans (Nat.le_succ _)

theorem Durable.update {w : World} (h : Durable w) (hidle : w.background = .idle) {now : UInt64}
    (hnow : now.toNat < 2 ^ 45) (hsave : (updateNext w.current_ now).all (savesBound w.lastTS) = true) :
    Durable (update w now) := by
  have hst := h.stage
  simp only [World.Stage, hidle] at hst
  obtain ⟨huse, hbound⟩ := hst
  have hcalls : ∀ {n c i seq p l}, w.calls c = .drawn i seq p l → Returnable (p, l) →
      World.Drawn { w with background := .updateSave n } p l := by
    intro n c i seq p l hc hd
    exact ⟨rfl, (h.calls c i seq p l hc hd).2⟩
  rcases update_cases w now with ⟨-, hu⟩ | ⟨n, hn, hu⟩
  · rw [hu]; exact h
  · rw [hn, Option.all_some] at hsave
    rcases hu with ⟨-, hu⟩ | ⟨hs, -⟩
    · rw [hu]
      have hahead : w.current_.physiacl.toNat < n.toNat ∧ n.toNat < 2 ^ 46 := by
        rcases updateNext_spec hnow huse.1 hn with ⟨rfl, hgt⟩ | ⟨hlog, hn⟩
        · omega
        · have := huse.2.1 (by omega)
          omega
      exact ⟨h.covered, ⟨huse, hbound, hahead⟩, fun c i seq p l hc => hcalls hc, h.epochs, h.ordered⟩
    · rw [hs] at hsave; cases hsave

theorem bound_save {w : World} {n : UInt64} {b : Background} (hn : n.toNat < 2 ^ 46) :
    World.bound { w with file := some (n + saveTimestampInterval), background := b } = n.toNat + 1 := by
  show (n + saveTimestampInterval).toNat = n.toNat + 1
  rw [UInt64.toNat_add]
  have : saveTimestampInterval.toNat = 1 := by decide
  omega

theorem Durable.syncSave {w : World} (h : Durable w) {n : UInt64} (hb : w.background = .syncSave n) :
    Durable { w with file := some (n + saveTimestampInterval), background := .syncInstall n } := by
  have hst := h.stage
  simp only [World.Stage, hb] at hst
  obtain ⟨hlt, hn⟩ := hst
  refine ⟨?_, ⟨bound_save hn, hn, ?_⟩, ?_, h.epochs, h.ordered⟩
  · intro r hr
    rw [bound_save hn]
    exact (h.covered r hr).trans (Nat.mul_le_mul_right _ (by omega))
  · intro r hr _
    exact (h.covered r hr).trans (Nat.mul_le_mul_right _ (by omega))
  · intro c i seq p l hc hd
    have := (h.calls c i seq p l hc hd).1
    rw [hb] at this
    cases this

theorem Durable.updateSave {w : World} (h : Durable w) {n : UInt64} (hb : w.background = .updateSave n) :
    Durable { w with file := some (n + saveTimestampInterval), background := .updateInstall n } := by
  have hst := h.stage
  simp only [World.Stage, hb] at hst
  obtain ⟨huse, hbound, hlt, hn⟩ := hst
  refine ⟨?_, ⟨huse, bound_save hn, hlt, hn⟩, ?_, h.epochs, h.ordered⟩
  · intro r hr
    rw [bound_save hn]
    exact (h.covered r hr).trans (Nat.mul_le_mul_right _ (by omega))
  · intro c i seq p l hc hd
    exact ⟨rfl, (h.calls c i seq p l hc hd).2⟩

theorem inUse_install {w : World} {n : UInt64} (hn : n.toNat < 2 ^ 46) (ho : w.OldBelow n.toNat)
    (hbound : w.bound = n.toNat + 1) :
    World.Stage { w with current_ := ⟨n, 0⟩, background := .idle } :=
  ⟨⟨hn, fun h => absurd UInt64.toNat_zero h, ho⟩, hbound⟩

theorem Durable.install {w : World} (h : Durable w) {n : UInt64}
    (hb : w.background = .syncInstall n ∨ w.background = .updateInstall n) :
    Durable { w with current_ := ⟨n, 0⟩, background := .idle } := by
  have hst := h.stage
  rcases hb with hb | hb
  · simp only [World.Stage, hb] at hst
    obtain ⟨hbound, hn, ho⟩ := hst
    refine ⟨h.covered, inUse_install hn ho hbound, ?_, h.epochs, h.ordered⟩
    intro c i seq p l hc hd
    have := (h.calls c i seq p l hc hd).1
    rw [hb] at this
    cases this
  · simp only [World.Stage, hb] at hst
    obtain ⟨huse, hbound, hlt, hn⟩ := hst
    refine ⟨h.covered, inUse_install hn (huse.2.2.mono (by omega)) hbound, ?_, h.epochs, h.ordered⟩
    intro c i seq p l hc hd
    obtain ⟨-, hl, hp, hle, ho⟩ := h.calls c i seq p l hc hd
    exact ⟨rfl, hl, hp, by show p.toNat ≤ n.toNat; omega, ho⟩

theorem Durable.crash {w : World} (h : Durable w) :
    Durable { w with background := .down, calls := fun _ => .out } := by
  refine ⟨h.covered, trivial, ?_, h.epochs, h.ordered⟩
  intro c i seq p l hc; cases hc

/-- A call changed its place without holding a drawn pair. -/
theorem Durable.setCall {w : World} (h : Durable w) (c : Nat) {x : Call}
    (hx : ∀ i seq p l, x ≠ .drawn i seq p l) : Durable { w with calls := setCall w.calls c x } := by
  refine ⟨h.covered, h.stage, ?_, h.epochs, h.ordered⟩
  intro d i seq p l hd hpl
  replace hd : Oracle.setCall w.calls c x d = .drawn i seq p l := hd
  by_cases hdc : d = c
  · rw [hdc, setCall_self] at hd
    exact absurd hd (hx i seq p l)
  · rw [setCall_ne _ _ hdc] at hd
    exact h.calls d i seq p l hd hpl

/-- The time stays, and so does what an update is about to do; only the logical part has moved on. -/
theorem Durable.stage_lock {w : World} (h : Durable w) (c i : Nat) (hmay : w.MayDraw) (hlocked : w.background.locked = false) :
    World.Stage (Oracle.lock w c i) := by
  have hst := h.stage
  unfold World.MayDraw at hmay
  cases hb : w.background <;>
    simp only [World.Stage, Oracle.lock, hb, Background.synced, Background.locked, if_true] at hst hmay hlocked ⊢
  · exact hst
  · exact hst
  · exact ⟨⟨hst.1.1, fun _ => hmay.1, hst.1.2.2⟩, hst.2⟩
  · cases hlocked
  · cases hlocked

theorem Durable.lock {w : World} (h : Durable w) (c i : Nat) (hmay : w.MayDraw) (hlocked : w.background.locked = false) :
    Durable (lock w c i) := by
  refine ⟨h.covered, h.stage_lock c i hmay hlocked, ?_, h.epochs, h.ordered⟩
  intro d j seq p l hd hpl
  replace hd : Oracle.setCall w.calls c _ d = .drawn j seq p l := hd
  by_cases hdc : d = c
  · rw [hdc, setCall_self] at hd
    injection hd with _ _ hp hl
    subst hp hl
    have hs := hmay.synced hpl
    obtain ⟨hp, hlog⟩ := hmay.fits hs
    exact ⟨hs, by omega, hp, Nat.le_refl _, h.oldBelow hs⟩
  · rw [setCall_ne _ _ hdc] at hd
    exact h.calls d j seq p l hd hpl

theorem Durable.ret {w : World} (h : Durable w) {c i seq : Nat} {p l : UInt64}
    (hc : w.calls c = .drawn i seq p l) (hd : Returnable (p, l)) :
    Durable { w with
      calls := Oracle.setCall w.calls c .out
      returned := w.returned ++ [⟨w.epoch, seq, composeTS p l⟩] } := by
  obtain ⟨hs, hpos, hp, hle, ho⟩ := h.calls c i seq p l hc hd
  have hl : l ≤ maxLogical := hd.2
  have hbound := h.bound_gt hs
  have hlmax := UInt64.le_iff_toNat_le.mp hl
  rw [maxLogical_toNat] at hlmax
  have hts : (composeTS p l).toNat = p.toNat * 2 ^ 18 + l.toNat := composeTS_toNat (by omega)
  -- a new stamp has the epoch of the present process, so it is nobody's elder
  have hold : ∀ {x : Nat}, w.OldBelow x →
      World.OldBelow { w with
        calls := Oracle.setCall w.calls c .out
        returned := w.returned ++ [⟨w.epoch, seq, composeTS p l⟩] } x := by
    intro x hx r hr he
    rcases List.mem_append.mp hr with hr | hr
    · exact hx r hr he
    · obtain rfl := List.mem_singleton.mp hr
      exact absurd he (Nat.lt_irrefl _)
  refine ⟨?_, ?_, ?_, ?_, ?_⟩
  · intro r hr
    show r.ts.toNat ≤ w.bound * 2 ^ 18
    rcases List.mem_append.mp hr with hr | hr
    · exact h.covered r hr
    · obtain rfl := List.mem_singleton.mp hr
      rw [hts]
      have : (p.toNat + 1) * 2 ^ 18 ≤ w.bound * 2 ^ 18 := Nat.mul_le_mul_right _ (by omega)
      omega
  · have hst := h.stage
    cases hb : w.background <;> simp only [World.Stage, hb] at hst ⊢
    · exact hst
    · exact ⟨hst.1, hst.2.1, hold hst.2.2⟩
    · exact ⟨⟨hst.1.1, hst.1.2.1, hold hst.1.2.2⟩, hst.2⟩
    · exact ⟨⟨hst.1.1, hst.1.2.1, hold hst.1.2.2⟩, hst.2⟩
    · exact ⟨⟨hst.1.1, hst.1.2.1, hold hst.1.2.2⟩, hst.2⟩
  · intro d j s q m hd hqm
    replace hd : Oracle.setCall w.calls c .out d = .drawn j s q m := hd
    by_cases hdc : d = c
    · rw [hdc, setCall_self] at hd; cases hd
    · rw [setCall_ne _ _ hdc] at hd
      obtain ⟨hs', hm, hq, hqle, ho'⟩ := h.calls d j s q m hd hqm
      exact ⟨hs', hm, hq, hqle, hold ho'⟩
  · intro r hr
    rcases List.mem_append.mp hr with hr | hr
    · exact h.epochs r hr
    · obtain rfl := List.mem_singleton.mp hr
      exact Nat.le_refl _
  · intro r hr r' hr' hlt
    rcases List.mem_append.mp hr with hr | hr <;> rcases List.mem_append.mp hr' with hr' | hr'
    · exact h.ordered r hr r' hr' hlt
    · obtain rfl := List.mem_singleton.mp hr'
      rw [UInt64.lt_iff_toNat_lt, hts]
      have := ho r hr hlt
      omega
    · obtain rfl := List.mem_singleton.mp hr
      have := h.epochs r' hr'
      simp only at hlt
      omega
    · obtain rfl := List.mem_singleton.mp hr
      obtain rfl := List.mem_singleton.mp hr'
      exact absurd hlt (Nat.lt_irrefl _)

/-- What passes a safe test. -/
theorem returnable_of_test {w : World} {c i seq : Nat} {p l : UInt64} (hok : SafeStep w (.test c))
    (hc : w.calls c = .drawn i seq p l) (hp : w.current_.physiacl ≠ 0) (hl : l ≤ maxLogical) : Returnable (p, l) := by
  simp only [SafeStep, SyncOk, hc] at hok
  exact ⟨fun hzero => absurd (hok hzero hp) (UInt64.not_lt.mpr hl), hl⟩

/-- **Step lemma.** A safe step keeps `Durable`. -/
theorem durable_step {w w' : World} {e : Event} (h : Durable w) (hst : Guarded SafeStep step w e w') :
    Durable w' := by
  obtain ⟨hok, hst⟩ := hst
  cases e with
  | boot uninit now =>
      obtain ⟨-, rfl⟩ := step_boot hst
      exact h.boot uninit hok.1 hok.2
  | update now =>
      obtain ⟨hidle, rfl⟩ := step_update hst
      exact h.update hidle hok.1 hok.2
  | save =>
      obtain ⟨n, ⟨hb, rfl⟩ | ⟨hb, rfl⟩⟩ := step_save hst
      · exact h.syncSave hb
      · exact h.updateSave hb
  | install =>
      obtain ⟨n, hb, rfl⟩ := step_install hst
      exact h.install hb
  | crash =>
      obtain rfl := step_crash hst
      exact h.crash
  | call c =>
      obtain ⟨-, rfl⟩ := step_call hst
      exact h.setCall c (by intros; simp)
  | lock c =>
      obtain ⟨i, -, rfl | ⟨hlocked, rfl⟩⟩ := step_lock hst
      · exact h.setCall c (by intros; simp)
      · exact h.lock c i hok hlocked
  | test c =>
      obtain ⟨i, seq, p, l, hc, rfl | ⟨hp, hl, rfl⟩⟩ := step_test hst
      · exact h.setCall c (by intros; simp)
      · exact h.ret hc (returnable_of_test hok hc hp hl)

/-- **Timestamps never go back across a restart**, over any number of crashes and restarts, in every run
    whose steps are safe. -/
theorem restart_increasing {file : Option UInt64} {es : List Event} {w : World}
    (h : Run (Guarded SafeStep step) (World.init file) es w) : w.RestartOrdered :=
  (h.invariant (fun _ _ _ hi hst => durable_step hi hst) (init_durable file)).ordered

/-- A first process, killed between the save and the install of an update, and a second one whose clock
    stands exactly at the stored bound; a call that comes before its `syncTimestamp` is done tries again. -/
def safeRestart : List Event :=
  [.boot ⟨7, 7⟩ 100, .save, .install, .call 0, .lock 0, .test 0, .update 103, .save, .crash,
    .boot ⟨0, 9⟩ 104, .call 0, .lock 0, .save, .test 0, .install, .lock 0, .test 0]

theorem restart_increasing_safeRestart :
    ∃ w, Run (Guarded SafeStep step) (World.init none) safeRestart w ∧
      w.returned = [⟨1, 0, composeTS 100 1⟩, ⟨2, 1, composeTS 105 1⟩] ∧ w.RestartOrdered := by
  obtain ⟨w, hrun, hret⟩ : ∃ w, Run (Guarded SafeStep step) (World.init none) safeRestart w ∧
      w.returned = [⟨1, 0, composeTS 100 1⟩, ⟨2, 1, composeTS 105 1⟩] :=
    Run.exists_guarded_of_map (by decide)
  exact ⟨w, hrun, hret, restart_increasing hrun⟩

/-- The clock is set back by 50 ms between two processes: the second one hands out smaller timestamps. -/
def clockSetBack : List Event :=
  [.boot ⟨0, 0⟩ 100, .save, .install, .call 0, .lock 0, .test 0, .crash,
    .boot ⟨0, 0⟩ 50, .save, .install, .call 0, .lock 0, .test 0]

theorem restart_goes_back :
    ¬ ∀ (file : Option UInt64) (es : List Event) (w : World),
      Run step (World.init file) es w → w.RestartOrdered := by
  intro hall
  obtain ⟨w, hrun, hret⟩ : ∃ w, Run step (World.init none) clockSetBack w ∧
      w.returned = [⟨1, 0, composeTS 100 1⟩, ⟨2, 0, composeTS 50 1⟩] :=
    Run.exists_of_map (by decide)
  have h := hall none clockSetBack w hrun ⟨1, 0, composeTS 100 1⟩ (by simp [hret])
    ⟨2, 0, composeTS 50 1⟩ (by simp [hret]) (by decide)
  exact absurd h (by decide)

end Oracle
end DDBMS
