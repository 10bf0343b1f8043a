import DDBMS.MetaServer.OracleOrder

/-!
# `MetaServer.OracleSync` — timestamps and the start of a process

`getTimeStamp` may be called before `syncTimestamp` has installed a physical time. It has a test for this: while
`current_.physiacl` is 0 it tries again. But it tests the field after it has released the mutex, and composes the timestamp
from what it read with the mutex held. A call whose critical section comes before the one of `syncTimestamp`, and whose test
comes behind it, returns a timestamp with physical part 0.

When no call has the installation between its critical section and its test, and `current_` starts out with physical part 0,
every timestamp is from a synchronised time (`synced_timestamps`).
-/

namespace DDBMS
namespace Oracle

/-- `ExtractPhysical`. -/
def extractPhysical (ts : UInt64) : UInt64 := ts >>> physicalShiftBits

/-- Every timestamp returned has a physical part of at least `n`. -/
def World.From (w : World) (n : UInt64) : Prop := ∀ r ∈ w.returned, r.ts ≠ 0 → n ≤ extractPhysical r.ts

/-- The steps of one process, with a clock below 45 bits, in which no call has drawn from the unsynchronised time and tests
    the synchronised one. The time in use fits the 46 bits that a timestamp has for it. -/
def SyncOk (w : World) : Event → Prop
  | .boot _ _ | .crash => False
  | .update now => now.toNat < 2 ^ 45
  | .lock _ => w.current_.physiacl.toNat < 2 ^ 46 - 1
  | .test c =>
    match w.calls c with
    | .drawn _ _ physical logic => physical = 0 → w.current_.physiacl ≠ 0 → maxLogical < logic
    | _ => True
  | _ => True

instance instDecidableSyncOk (w : World) : (e : Event) → Decidable (SyncOk w e)
  | .boot _ _ | .crash => isFalse id
  | .update now => inferInstanceAs (Decidable (now.toNat < 2 ^ 45))
  | .lock _ => inferInstanceAs (Decidable (w.current_.physiacl.toNat < 2 ^ 46 - 1))
  | .test c =>
    match h : w.calls c with
    | .drawn _ _ physical logic =>
      decidable_of_iff (physical = 0 → w.current_.physiacl ≠ 0 → maxLogical < logic) (by rw [SyncOk, h])
    | .out | .loop _ => isTrue (by rw [SyncOk, h]; trivial)
  | .save | .install | .call _ => isTrue trivial

/-- The time in use is one that `syncTimestamp` or an update has installed; a timestamp has room for it. -/
structure Timestamp.Running (t : Timestamp) (n : UInt64) : Prop where
  le : n ≤ t.physiacl
  lt : t.physiacl.toNat < 2 ^ 46
  room : t.logical.toNat ≠ 0 → t.physiacl.toNat < 2 ^ 46 - 1

/-- A pair that a call has drawn: from the zero at the start, or from a time in use. -/
def Late (n physical : UInt64) : Prop := physical = 0 ∨ (n ≤ physical ∧ physical.toNat < 2 ^ 46 - 1)

/-- Where the background thread stands; `n` is the time that `syncTimestamp` installs. -/
def World.StartUp (w : World) (n : UInt64) : Prop :=
  match w.background with
  | .down => False
  | .syncSave m | .syncInstall m => m = n ∧ n.toNat < 2 ^ 46 ∧ w.current_.physiacl = 0
  | .idle => w.current_.Running n
  | .updateSave m | .updateInstall m => w.current_.Running n ∧ n ≤ m ∧ m.toNat < 2 ^ 46

/-- What holds between the steps. -/
structure Starting (w : World) (n : UInt64) : Prop where
  stage : w.StartUp n
  drawn : ∀ c i seq p l, w.calls c = .drawn i seq p l → Late n p
  returned : w.From n

variable {w w' : World} {n : UInt64}

theorem extractPhysical_toNat (ts : UInt64) : (extractPhysical ts).toNat = ts.toNat / 2 ^ 18 := by
  rw [extractPhysical, UInt64.toNat_shiftRight, Nat.shiftRight_eq_div_pow]
  rfl

theorem extractPhysical_composeTS {p l : UInt64} (hp : p.toNat < 2 ^ 46 - 1) (hl : l ≤ maxLogical) :
    p ≤ extractPhysical (composeTS p l) := by
  rw [UInt64.le_iff_toNat_le, maxLogical_toNat] at hl
  have hts := composeTS_toNat (p := p) (l := l) (by omega)
  rw [UInt64.le_iff_toNat_le, extractPhysical_toNat, hts]
  omega

theorem starting_boot {file : Option UInt64} {logical now : UInt64} (hnow : now.toNat < 2 ^ 45) :
    Starting (boot (World.init file) ⟨0, logical⟩ now) (syncNext (file.getD 0) now) := by
  have hle : (syncNext (file.getD 0) now).toNat ≤ 2 ^ 45 := syncNext_le hnow
  refine ⟨⟨rfl, by omega, rfl⟩, ?_, ?_⟩
  · intro c i seq p l hc
    cases hc
  · intro r hr
    cases hr

/-! ## Preservation, one lemma per kind of step -/

/-- An update moves forward. -/
theorem Starting.update {now : UInt64} (h : Starting w n) (hidle : w.background = .idle) (hnow : now.toNat < 2 ^ 45) :
    Starting (update w now) n := by
  have hrun := h.stage
  simp only [World.StartUp, hidle] at hrun
  rcases update_cases w now with ⟨-, hu⟩ | ⟨m, hm, hu⟩
  · rw [hu]
    exact h
  · have hle := UInt64.le_iff_toNat_le.mp hrun.le
    have hroom := hrun.room
    have hahead : n ≤ m ∧ m.toNat < 2 ^ 46 := by
      rw [UInt64.le_iff_toNat_le]
      rcases updateNext_spec hnow hrun.lt hm with ⟨rfl, hgt⟩ | ⟨hlogical, hm⟩ <;> omega
    rcases hu with ⟨-, hu⟩ | ⟨-, hu⟩
    · rw [hu]
      exact ⟨⟨hrun, hahead⟩, h.drawn, h.returned⟩
    · rw [hu]
      exact ⟨⟨hrun, hahead⟩, h.drawn, h.returned⟩

theorem Starting.save (h : Starting w n) (hst : step w .save w') : Starting w' n := by
  have hstage := h.stage
  obtain ⟨m, ⟨hb, rfl⟩ | ⟨hb, rfl⟩⟩ := step_save hst <;> simp only [World.StartUp, hb] at hstage
  · exact ⟨hstage, h.drawn, h.returned⟩
  · exact ⟨hstage, h.drawn, h.returned⟩

theorem running_install {m : UInt64} (hle : n ≤ m) (hlt : m.toNat < 2 ^ 46) : Timestamp.Running ⟨m, 0⟩ n :=
  ⟨hle, hlt, fun h => absurd rfl h⟩

theorem Starting.install (h : Starting w n) (hst : step w .install w') : Starting w' n := by
  have hstage := h.stage
  obtain ⟨m, hb | hb, rfl⟩ := step_install hst <;> simp only [World.StartUp, hb] at hstage
  · obtain ⟨rfl, hlt, -⟩ := hstage
    exact ⟨running_install (UInt64.le_refl m) hlt, h.drawn, h.returned⟩
  · exact ⟨running_install hstage.2.1 hstage.2.2, h.drawn, h.returned⟩

/-- A call changed its place without drawing. -/
theorem Starting.setCall (h : Starting w n) (c : Nat) {x : Call} (hx : ∀ i seq p l, x ≠ .drawn i seq p l) :
    Starting { w with calls := setCall w.calls c x } n := by
  refine ⟨h.stage, ?_, h.returned⟩
  intro d i seq p l hd
  by_cases hdc : d = c
  · subst hdc
    exact absurd ((setCall_self _ _ _).symm.trans hd) (hx i seq p l)
  · exact h.drawn d i seq p l ((setCall_ne _ _ hdc).symm.trans hd)

/-- What a call draws now. -/
theorem Starting.late (h : Starting w n) (hp : w.current_.physiacl.toNat < 2 ^ 46 - 1) : Late n w.current_.physiacl := by
  have hstage := h.stage
  cases hb : w.background <;> simp only [World.StartUp, hb] at hstage
  · exact Or.inl hstage.2.2
  · exact Or.inl hstage.2.2
  · exact Or.inr ⟨hstage.le, hp⟩
  · exact Or.inr ⟨hstage.1.le, hp⟩
  · exact Or.inr ⟨hstage.1.le, hp⟩

/-- The critical section draws the zero, or a time in use. -/
theorem Starting.lock {c i : Nat} (h : Starting w n) (hp : w.current_.physiacl.toNat < 2 ^ 46 - 1)
    (hl : w.background.locked = false) : Starting (lock w c i) n := by
  refine ⟨?_, ?_, h.returned⟩
  · have hstage := h.stage
    have hrun : w.current_.Running n → (Oracle.lock w c i).current_.Running n := fun hr => ⟨hr.le, hr.lt, fun _ => hp⟩
    cases hb : w.background <;> simp only [World.StartUp, Oracle.lock, hb] at hstage ⊢
    · exact hstage
    · exact hstage
    · exact hrun hstage
    · rw [hb] at hl
      cases hl
    · rw [hb] at hl
      cases hl
  · intro d j seq p l hd
    by_cases hdc : d = c
    · subst hdc
      obtain ⟨-, -, rfl, -⟩ := Call.drawn.inj ((setCall_self _ _ _).symm.trans hd)
      exact h.late hp
    · exact h.drawn d j seq p l ((setCall_ne _ _ hdc).symm.trans hd)

/-- A timestamp that is returned was not drawn from the zero. -/
theorem Starting.test {c : Nat} (h : Starting w n) (hok : SyncOk w (.test c)) (hst : step w (.test c) w') :
    Starting w' n := by
  obtain ⟨i, seq, p, l, hc, rfl | ⟨hphysiacl, hl, rfl⟩⟩ := step_test hst
  · exact h.setCall c (by intros; simp)
  · obtain ⟨hstage, hdrawn, -⟩ := h.setCall c (x := .out) (by intros; simp)
    refine ⟨hstage, hdrawn, ?_⟩
    intro r hr hne
    rcases List.mem_append.mp hr with hr | hr
    · exact h.returned r hr hne
    · obtain rfl := List.mem_singleton.mp hr
      simp only [SyncOk, hc] at hok
      rcases h.drawn c i seq p l hc with hzero | ⟨hle, hlt⟩
      · exact absurd (hok hzero hphysiacl) (UInt64.not_lt.mpr hl)
      · exact UInt64.le_trans hle (extractPhysical_composeTS hlt hl)

/-- **Step lemma.** -/
theorem Starting.step {e : Event} (h : Starting w n) (hst : Guarded SyncOk step w e w') : Starting w' n := by
  obtain ⟨hok, hst⟩ := hst
  cases e with
  | boot | crash => exact hok.elim
  | update now =>
      obtain ⟨hidle, rfl⟩ := step_update hst
      exact h.update hidle hok
  | save => exact h.save hst
  | install => exact h.install hst
  | call c =>
      obtain ⟨-, rfl⟩ := step_call hst
      exact h.setCall c (by intros; simp)
  | lock c =>
      obtain ⟨i, -, rfl | ⟨hl, rfl⟩⟩ := step_lock hst
      · exact h.setCall c (by intros; simp)
      · exact h.lock hok hl
  | test c => exact h.test hok hst

/-- **No timestamp is from the unsynchronised time**, when no call draws in front of the installation and tests behind
    it. -/
theorem synced_timestamps {file : Option UInt64} {logical now : UInt64} {es : List Event} (hnow : now.toNat < 2 ^ 45)
    (h : Run (Guarded SyncOk step) (boot (World.init file) ⟨0, logical⟩ now) es w) :
    w.From (syncNext (file.getD 0) now) :=
  (h.invariant (I := fun w => Starting w _) (fun _ _ _ hs hst => hs.step hst) (starting_boot hnow)).returned

/-- One call tries in vain before the installation, and again behind it. -/
def triesAgain : List Event := [.call 0, .lock 0, .save, .test 0, .install, .lock 0, .test 0]

theorem synced_timestamps_triesAgain :
    ∃ w, Run (Guarded SyncOk step) (boot (World.init (some 90)) ⟨0, 3⟩ 100) triesAgain w ∧
      w.returned = [⟨1, 1, composeTS 100 1⟩] ∧ w.From 100 := by
  obtain ⟨w, hrun, hret⟩ : ∃ w, Run (Guarded SyncOk step) (boot (World.init (some 90)) ⟨0, 3⟩ 100) triesAgain w ∧
      w.returned = [⟨1, 1, composeTS 100 1⟩] := Run.exists_guarded_of_map (by decide)
  exact ⟨w, hrun, hret, synced_timestamps (by decide) hrun⟩

/-! ## Drawn before, tested behind -/

/-- Once a time is installed, a call that has drawn the zero returns a timestamp with physical part 0. -/
theorem test_of_zero {c i seq : Nat} {l : UInt64} (hc : w.calls c = .drawn i seq 0 l) (hl : l < maxLogical)
    (hphysiacl : w.current_.physiacl ≠ 0) : ∃ w', step w (.test c) w' ∧
      ⟨w.epoch, seq, composeTS 0 l⟩ ∈ w'.returned ∧ extractPhysical (composeTS 0 l) = 0 := by
  have hlt := UInt64.lt_iff_toNat_lt.mp hl
  rw [maxLogical_toNat] at hlt
  have hpasses : test w c i seq 0 l = { w with
      calls := setCall w.calls c .out
      returned := w.returned ++ [⟨w.epoch, seq, composeTS 0 l⟩] } := by
    rw [test, if_neg hphysiacl, if_neg (UInt64.not_lt.mpr (UInt64.le_of_lt hl))]
  refine ⟨test w c i seq 0 l, ?_, ?_, ?_⟩
  · simp only [step, FunStep, next, hc]
  · rw [hpasses]
    exact List.mem_append_right _ (List.mem_singleton_self _)
  · have hzero : (0 : UInt64).toNat = 0 := rfl
    have hts := composeTS_toNat (p := 0) (l := l) (by omega)
    apply UInt64.toNat_inj.mp
    rw [extractPhysical_toNat, hts, hzero]
    omega

/-- One call, with the installation between its critical section and its test. -/
theorem early_timestamp :
    ¬ ∀ (file : Option UInt64) (logical now : UInt64) (es : List Event) (w : World), now.toNat < 2 ^ 45 →
      Run (Guarded InProcess step) (boot (World.init file) ⟨0, logical⟩ now) es w →
      w.From (syncNext (file.getD 0) now) := by
  intro hall
  obtain ⟨w, hrun, hret⟩ : ∃ w, Run (Guarded InProcess step) (boot (World.init none) ⟨0, 0⟩ 100)
      [.call 0, .lock 0, .save, .install, .test 0] w ∧ w.returned = [⟨1, 0, composeTS 0 1⟩] :=
    Run.exists_guarded_of_map (by decide)
  have hle := hall none 0 100 _ w (by decide) hrun ⟨1, 0, composeTS 0 1⟩ (by rw [hret]; exact List.mem_singleton_self _)
    (by decide)
  exact absurd hle (by decide)

end Oracle
end DDBMS
