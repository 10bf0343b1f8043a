import DDBMS.MetaServer.OracleOrder

/-!
# `MetaServer.OracleBound` — the persisted bound and the time in use

`saveTimeStampToPath` is meant to write a bound above a physical time before this time is put into use. `syncTimestamp`
always does; `updateTimestamp` only if `signed(lastTS - next)` is at most 1. This is a 64-bit difference cut to 32 bits, and
`lastTS` is what the file had at the start, so the answer depends on how far `next` is from there modulo `2 ^ 32`: on one
half of the residues the bound is saved, on the other half it is not (`savesBound_iff`).

As long as every update falls on the right half the file is ahead (`bound_stays_ahead`), and one update on the wrong half
leaves it behind (`uncovered_falls_behind`).
-/

namespace DDBMS
namespace Oracle

/-- The value last written by `saveTimeStampToPath` is above the physical time in use. -/
def World.BoundAhead (w : World) : Prop := ∃ b, w.file = some b ∧ w.current_.physiacl < b

/-! ## When an update saves -/

/-- From `lastTS` it is at most `2 ^ 31` to `next`, or one step back, modulo `2 ^ 32`. -/
def Covers (lastTS next : UInt64) : Prop :=
  (next - lastTS).toNat % 2 ^ 32 ≤ 2 ^ 31 ∨ (next - lastTS).toNat % 2 ^ 32 = 2 ^ 32 - 1

instance (lastTS next : UInt64) : Decidable (Covers lastTS next) := inferInstanceAs (Decidable (_ ∨ _))

theorem signed_eq (x : UInt64) : signed x = (x.toNat : Int).bmod (2 ^ 32) := by
  have h : signed x = (x.toUInt32.toNat : Int).bmod (2 ^ 32) := BitVec.toInt_eq_toNat_bmod _
  rw [h, UInt64.toNat_toUInt32]
  exact Int.emod_bmod x.toNat (2 ^ 32)

theorem savesBound_iff (lastTS next : UInt64) : savesBound lastTS next = true ↔ Covers lastTS next := by
  have h := UInt64.toNat_lt lastTS
  have h' := UInt64.toNat_lt next
  rw [savesBound, decide_eq_true_iff, signed_guard, signed_eq, Covers, UInt64.toNat_sub, UInt64.toNat_sub, Int.bmod_def]
  split <;> omega

/-! ## The condition -/

/-- The steps of one process, with a clock below 45 bits, whose updates fall where a bound is saved. The time in use is not
    so far ahead of the clock that their difference overflows an `int64_t`. -/
def UpdateOk (w : World) : Event → Prop
  | .boot _ _ | .crash => False
  | .update now => now.toNat < 2 ^ 45 ∧ w.current_.physiacl.toNat ≤ 2 ^ 63 + now.toNat ∧
      if w.current_.physiacl.toNat + 1 < now.toNat then Covers w.lastTS now
      else if maxLogical / 2 < w.current_.logical then Covers w.lastTS (w.current_.physiacl + 1)
      else True
  | _ => True

instance instDecidableUpdateOk (w : World) : (e : Event) → Decidable (UpdateOk w e)
  | .boot _ _ | .crash => isFalse id
  | .update now => inferInstanceAs (Decidable (now.toNat < 2 ^ 45 ∧ w.current_.physiacl.toNat ≤ 2 ^ 63 + now.toNat ∧
      if w.current_.physiacl.toNat + 1 < now.toNat then Covers w.lastTS now
      else if maxLogical / 2 < w.current_.logical then Covers w.lastTS (w.current_.physiacl + 1)
      else True))
  | .save | .install | .call _ | .lock _ | .test _ => isTrue trivial

/-- The time an update chooses, from the clock and the time in use. -/
theorem updateNext_eq {t : Timestamp} {now : UInt64} (hnow : now.toNat < 2 ^ 45)
    (ht : t.physiacl.toNat ≤ 2 ^ 63 + now.toNat) : updateNext t now =
      if t.physiacl.toNat + 1 < now.toNat then some now
      else if maxLogical / 2 < t.logical then some (t.physiacl + 1)
      else none := by
  have hlag : (now - t.physiacl).toInt64.toInt = (now.toNat : Int) - t.physiacl.toNat := by
    have h : (now - t.physiacl).toInt64.toInt = ((now - t.physiacl).toNat : Int).bmod (2 ^ 64) :=
      BitVec.toInt_eq_toNat_bmod _
    have hp := UInt64.toNat_lt t.physiacl
    rw [h, UInt64.toNat_sub, Int.bmod_def]
    split <;> omega
  rw [updateNext, hlag, signed_guard]
  by_cases h : t.physiacl.toNat + 1 < now.toNat
  · rw [if_pos h]
    exact if_pos (by omega)
  · rw [if_neg h]
    exact if_neg (by omega)

/-- An update that meets the condition moves forward to a time whose bound it saves. -/
theorem UpdateOk.spec {w : World} {now n : UInt64} (h : UpdateOk w (.update now)) (hn : updateNext w.current_ now = some n) :
    w.current_.physiacl < n ∧ n.toNat + 1 < 2 ^ 64 ∧ savesBound w.lastTS n = true := by
  obtain ⟨hnow, hp, hcov⟩ := h
  rw [updateNext_eq hnow hp] at hn
  rw [savesBound_iff, UInt64.lt_iff_toNat_lt]
  split at hn
  · rename_i hlt
    obtain rfl := Option.some.inj hn
    rw [if_pos hlt] at hcov
    exact ⟨by omega, by omega, hcov⟩
  · rename_i hge
    split at hn
    · rename_i hlogical
      obtain rfl := Option.some.inj hn
      rw [if_neg hge, if_pos hlogical] at hcov
      have hsucc : (w.current_.physiacl + 1).toNat = w.current_.physiacl.toNat + 1 := by
        rw [UInt64.toNat_add, UInt64.toNat_one]
        omega
      exact ⟨by omega, by omega, hcov⟩
    · cases hn

/-! ## The invariant -/

/-- The file has the bound of the time in use, or of the time that is about to be. -/
def World.Bounded (w : World) : Prop :=
  match w.background with
  | .idle => w.file = some (w.current_.physiacl + 1) ∧ w.current_.physiacl.toNat + 1 < 2 ^ 64
  | .updateSave n => w.file = some (w.current_.physiacl + 1) ∧ w.current_.physiacl < n ∧ n.toNat + 1 < 2 ^ 64
  | .updateInstall n => w.file = some (n + 1) ∧ w.current_.physiacl < n ∧ n.toNat + 1 < 2 ^ 64
  | .down | .syncSave _ | .syncInstall _ => False

variable {w w' : World}

theorem lt_succ_of_room {x : UInt64} (h : x.toNat + 1 < 2 ^ 64) : x < x + 1 := by
  rw [UInt64.lt_iff_toNat_lt, UInt64.toNat_add, UInt64.toNat_one]
  omega

theorem World.Bounded.boundAhead (h : w.Bounded) : w.BoundAhead := by
  unfold World.Bounded at h
  split at h
  · exact ⟨_, h.1, lt_succ_of_room h.2⟩
  · exact ⟨_, h.1, lt_succ_of_room (by have := UInt64.lt_iff_toNat_lt.mp h.2.1; omega)⟩
  · exact ⟨_, h.1, UInt64.lt_trans h.2.1 (lt_succ_of_room h.2.2)⟩
  · exact h.elim
  · exact h.elim
  · exact h.elim

/-- Whatever the file had and the clock says, `syncTimestamp` saves first. -/
theorem bounded_afterSync {file : Option UInt64} {uninit : Timestamp} {now : UInt64} (hnow : now.toNat < 2 ^ 45) :
    (afterSync file uninit now).Bounded := by
  have hle : (syncNext (file.getD 0) now).toNat ≤ 2 ^ 45 := syncNext_le hnow
  refine ⟨rfl, ?_⟩
  show (syncNext (file.getD 0) now).toNat + 1 < 2 ^ 64
  omega

theorem World.Bounded.update {now : UInt64} (h : w.Bounded) (hidle : w.background = .idle)
    (hok : UpdateOk w (.update now)) : (update w now).Bounded := by
  have hstay := h
  simp only [World.Bounded, hidle] at h
  rcases update_cases w now with ⟨-, hu⟩ | ⟨n, hn, ⟨-, hu⟩ | ⟨hs, -⟩⟩
  · rw [hu]
    exact hstay
  · obtain ⟨hlt, hroom, -⟩ := hok.spec hn
    rw [hu]
    exact ⟨h.1, hlt, hroom⟩
  · rw [(hok.spec hn).2.2] at hs
    cases hs

/-- **Step lemma.** -/
theorem World.Bounded.step {e : Event} (h : w.Bounded) (hst : Guarded UpdateOk step w e w') : w'.Bounded := by
  obtain ⟨hok, hst⟩ := hst
  cases e with
  | boot | crash => exact hok.elim
  | update now =>
      obtain ⟨hidle, rfl⟩ := step_update hst
      exact h.update hidle hok
  | save =>
      obtain ⟨n, ⟨hb, rfl⟩ | ⟨hb, rfl⟩⟩ := step_save hst <;> simp only [World.Bounded, hb] at h
      exact ⟨rfl, h.2⟩
  | install =>
      obtain ⟨n, hb | hb, rfl⟩ := step_install hst <;> simp only [World.Bounded, hb] at h
      exact ⟨h.1, h.2.2⟩
  -- the calls of `getTimeStamp` move the logical part only
  | call c =>
      obtain ⟨-, rfl⟩ := step_call hst
      exact h
  | lock c =>
      obtain ⟨i, -, rfl | ⟨-, rfl⟩⟩ := step_lock hst
      · exact h
      · exact h
  | test c =>
      obtain ⟨i, seq, p, l, -, rfl | ⟨-, -, rfl⟩⟩ := step_test hst
      · exact h
      · exact h

/-- **The persisted bound stays ahead** of the physical time in use, in every run of one process whose updates all fall
    where a bound is saved. -/
theorem bound_stays_ahead {file : Option UInt64} {uninit : Timestamp} {now : UInt64} {es : List Event}
    (hnow : now.toNat < 2 ^ 45) (h : Run (Guarded UpdateOk step) (afterSync file uninit now) es w) : w.BoundAhead :=
  (h.invariant (I := World.Bounded) (fun _ _ _ hb hst => hb.step hst) (bounded_afterSync hnow)).boundAhead

/-- Two updates of a process whose file had the value 90. -/
def savingUpdates : List Event := [.update 130, .save, .install, .call 0, .lock 0, .test 0, .update 160, .save, .install]

theorem bound_stays_ahead_savingUpdates :
    ∃ w, Run (Guarded UpdateOk step) (afterSync (some 90) ⟨0, 0⟩ 100) savingUpdates w ∧
      (w.file, w.current_) = (some 161, ⟨160, 0⟩) ∧ w.BoundAhead := by
  obtain ⟨w, hrun, hw⟩ : ∃ w, Run (Guarded UpdateOk step) (afterSync (some 90) ⟨0, 0⟩ 100) savingUpdates w ∧
      (w.file, w.current_) = (some 161, ⟨160, 0⟩) := Run.exists_guarded_of_map (by decide)
  exact ⟨w, hrun, hw, bound_stays_ahead (by decide) hrun⟩

/-! ## Updates that do not save -/

/-- An update on the wrong half puts its time into use without a bound. -/
theorem uncovered_falls_behind {now n : UInt64} (h : w.Bounded) (hidle : w.background = .idle)
    (hn : updateNext w.current_ now = some n) (hlt : w.current_.physiacl < n) (hcov : ¬ Covers w.lastTS n) :
    ∃ w', Run step w [.update now, .install] w' ∧ ¬ w'.BoundAhead := by
  simp only [World.Bounded, hidle] at h
  have hskip : savesBound w.lastTS n = false := Bool.eq_false_iff.mpr (fun hs => hcov ((savesBound_iff _ _).mp hs))
  have hupdate : step w (.update now) { w with background := .updateInstall n } := by
    simp only [step, FunStep, next, if_pos hidle, update, hn, hskip]
    rfl
  refine ⟨_, Run.cons hupdate (Run.single rfl), ?_⟩
  rintro ⟨b, hb, hlt'⟩
  -- the file still has the bound of the time before
  obtain rfl : w.current_.physiacl + 1 = b := Option.some.inj (h.1.symm.trans hb)
  rw [UInt64.lt_iff_toNat_lt] at hlt
  have hlt' : n.toNat < (w.current_.physiacl + 1).toNat := UInt64.lt_iff_toNat_lt.mp hlt'
  rw [UInt64.toNat_add, UInt64.toNat_one] at hlt'
  omega

/-- No file yet, and a clock a little above `2 ^ 31`. -/
theorem bound_falls_behind :
    ¬ ∀ (file : Option UInt64) (uninit : Timestamp) (now : UInt64) (es : List Event) (w : World),
      now.toNat < 2 ^ 45 → Run (Guarded InProcess step) (afterSync file uninit now) es w → w.BoundAhead := by
  intro hall
  obtain ⟨w, hrun, hw⟩ : ∃ w, Run (Guarded InProcess step) (afterSync none ⟨0, 0⟩ (2 ^ 31 + 1))
      [.update (2 ^ 31 + 10), .install] w ∧ (w.file, w.current_) = (some (2 ^ 31 + 2), ⟨2 ^ 31 + 10, 0⟩) :=
    Run.exists_guarded_of_map (by decide)
  obtain ⟨hfile, hcurrent⟩ := Prod.mk.inj hw
  obtain ⟨b, hb, hlt⟩ := hall _ _ _ _ w (by decide) hrun
  obtain rfl := Option.some.inj (hfile.symm.trans hb)
  rw [hcurrent] at hlt
  exact absurd hlt (by decide)

end Oracle
end DDBMS
