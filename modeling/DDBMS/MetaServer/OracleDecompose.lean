import DDBMS.MetaServer.OracleSync

/-!
# `MetaServer.OracleDecompose` — a timestamp and the pair it is composed of

`ComposeTS` shifts the physical part by 18 bits and adds the logical part. `ExtractPhysical` and what is left give the pair
back when the logical part stays below `2 ^ 18` and the physical part below `2 ^ 46` (`decomposes_iff`). `getTimeStamp`
lets a logical part of exactly `maxLogical = 2 ^ 18` through, and that one carries: the timestamp is that of the next
millisecond with logical part 0.
-/

namespace DDBMS
namespace Oracle

/-- The timestamp gives back the physical and the logical part. -/
def Decomposes (physical logic ts : UInt64) : Prop :=
  extractPhysical ts = physical ∧ ts - (extractPhysical ts <<< physicalShiftBits) = logic

/-- Every non-zero timestamp returned gives back what its critical section drew. -/
def World.Decompose (w : World) : Prop :=
  ∀ r ∈ w.returned, r.ts ≠ 0 →
    ∃ physical logic, w.draws[r.seq]? = some (physical, logic) ∧ Decomposes physical logic r.ts

/-- The steps of one process. -/
def OneProcess (_ : World) : Event → Prop
  | .boot _ _ | .crash => False
  | _ => True

/-- There is room in a timestamp for the two parts, or they add up to zero. -/
def Room (physical logic : UInt64) : Prop :=
  (physical.toNat < 2 ^ 46 ∧ logic < maxLogical) ∨ (physical.toNat * 2 ^ 18 + logic.toNat) % 2 ^ 64 = 0

/-- The steps of one process whose tests only let pairs through that there is room for. -/
def RoomOk (w : World) : Event → Prop
  | .boot _ _ | .crash => False
  | .test c =>
    match w.calls c with
    | .drawn _ _ physical logic => w.current_.physiacl ≠ 0 → logic ≤ maxLogical → Room physical logic
    | _ => True
  | _ => True

instance (physical logic : UInt64) : Decidable (Room physical logic) := inferInstanceAs (Decidable (_ ∨ _))

instance instDecidableRoomOk (w : World) : (e : Event) → Decidable (RoomOk w e)
  | .boot _ _ | .crash => isFalse id
  | .test c =>
    match h : w.calls c with
    | .drawn _ _ physical logic =>
      decidable_of_iff (w.current_.physiacl ≠ 0 → logic ≤ maxLogical → Room physical logic) (by rw [RoomOk, h])
    | .out | .loop _ => isTrue (by rw [RoomOk, h]; trivial)
  | .update _ | .save | .install | .call _ | .lock _ => isTrue trivial

/-- What holds between the steps: the calls and the timestamps are those of the critical sections. -/
structure Recorded (w : World) : Prop where
  calls : ∀ c i seq p l, w.calls c = .drawn i seq p l → w.draws[seq]? = some (p, l)
  stamps : ∀ r ∈ w.returned, ∃ p l, w.draws[r.seq]? = some (p, l) ∧ r.ts = composeTS p l

variable {w w' : World}

/-! ## Arithmetic -/

theorem shiftLeft_toNat (p : UInt64) : (p <<< physicalShiftBits).toNat = p.toNat * 2 ^ 18 % 2 ^ 64 := by
  have h18 : physicalShiftBits.toNat % 64 = 18 := by decide
  rw [UInt64.toNat_shiftLeft, h18, Nat.shiftLeft_eq]

theorem composeTS_toNat_mod (p l : UInt64) : (composeTS p l).toNat = (p.toNat * 2 ^ 18 + l.toNat) % 2 ^ 64 := by
  rw [composeTS, UInt64.toNat_add, shiftLeft_toNat, Nat.mod_add_mod]

theorem logicalPart_toNat (ts : UInt64) : (ts - (extractPhysical ts <<< physicalShiftBits)).toNat = ts.toNat % 2 ^ 18 := by
  have hts := UInt64.toNat_lt ts
  have hle : extractPhysical ts <<< physicalShiftBits ≤ ts := by
    rw [UInt64.le_iff_toNat_le, shiftLeft_toNat, extractPhysical_toNat]
    omega
  rw [UInt64.toNat_sub_of_le _ _ hle, shiftLeft_toNat, extractPhysical_toNat]
  omega

/-- **When a timestamp decomposes.** -/
theorem decomposes_iff (p l : UInt64) : Decomposes p l (composeTS p l) ↔ p.toNat < 2 ^ 46 ∧ l < maxLogical := by
  have hp := UInt64.toNat_lt p
  have hl := UInt64.toNat_lt l
  rw [Decomposes, ← UInt64.toNat_inj, ← UInt64.toNat_inj, logicalPart_toNat, extractPhysical_toNat, composeTS_toNat_mod,
    UInt64.lt_iff_toNat_lt, maxLogical_toNat]
  omega

theorem composeTS_eq_zero_iff (p l : UInt64) : composeTS p l = 0 ↔ (p.toNat * 2 ^ 18 + l.toNat) % 2 ^ 64 = 0 := by
  rw [← UInt64.toNat_inj, composeTS_toNat_mod]
  rfl

theorem room_iff (p l : UInt64) : Room p l ↔ (composeTS p l ≠ 0 → Decomposes p l (composeTS p l)) := by
  rw [Room, decomposes_iff, Ne, composeTS_eq_zero_iff]
  tauto

/-! ## Steps -/

theorem recorded_boot {file : Option UInt64} {uninit : Timestamp} {now : UInt64} :
    Recorded (boot (World.init file) uninit now) := by
  refine ⟨fun c i seq p l hc => ?_, fun r hr => ?_⟩
  · cases hc
  · cases hr

/-- Later critical sections do not change the earlier ones. -/
theorem drawn_append {draws : List (UInt64 × UInt64)} {d e : UInt64 × UInt64} {seq : Nat} (h : draws[seq]? = some d) :
    (draws ++ [e])[seq]? = some d :=
  (List.getElem?_append_left (List.getElem?_eq_some_iff.mp h).1).trans h

/-- A step that touches neither the calls nor the history. -/
theorem Recorded.frame (h : Recorded w) (hcalls : w'.calls = w.calls) (hdraws : w'.draws = w.draws)
    (hreturned : w'.returned = w.returned) : Recorded w' := by
  constructor
  · rw [hcalls, hdraws]
    exact h.calls
  · rw [hreturned, hdraws]
    exact h.stamps

/-- A call changed its place without drawing. -/
theorem Recorded.setCall (h : Recorded w) (c : Nat) {x : Call} (hx : ∀ i seq p l, x ≠ .drawn i seq p l) :
    Recorded { w with calls := setCall w.calls c x } := by
  refine ⟨fun d i seq p l hd => ?_, h.stamps⟩
  by_cases hdc : d = c
  · subst hdc
    exact absurd ((setCall_self _ _ _).symm.trans hd) (hx i seq p l)
  · exact h.calls d i seq p l ((setCall_ne _ _ hdc).symm.trans hd)

theorem Recorded.lock (h : Recorded w) (c i : Nat) : Recorded (lock w c i) := by
  refine ⟨fun d j seq p l hd => ?_, fun r hr => ?_⟩
  · by_cases hdc : d = c
    · subst hdc
      obtain ⟨-, rfl, rfl, rfl⟩ := Call.drawn.inj ((setCall_self _ _ _).symm.trans hd)
      exact List.getElem?_concat_length
    · exact drawn_append (h.calls d j seq p l ((setCall_ne _ _ hdc).symm.trans hd))
  · obtain ⟨p, l, hp, hts⟩ := h.stamps r hr
    exact ⟨p, l, drawn_append hp, hts⟩

theorem Recorded.ret {c i seq : Nat} {p l : UInt64} (h : Recorded w) (hc : w.calls c = .drawn i seq p l) :
    Recorded { w with
      calls := Oracle.setCall w.calls c .out
      returned := w.returned ++ [⟨w.epoch, seq, composeTS p l⟩] } := by
  obtain ⟨hcalls, hstamps⟩ := h.setCall c (x := .out) (by intros; simp)
  refine ⟨hcalls, fun r hr => ?_⟩
  rcases List.mem_append.mp hr with hr | hr
  · exact hstamps r hr
  · obtain rfl := List.mem_singleton.mp hr
    exact ⟨p, l, h.calls c i seq p l hc, rfl⟩

theorem Recorded.decompose_lock (h : Recorded w) (c i : Nat) : (Oracle.lock w c i).Decompose ↔ w.Decompose := by
  refine forall₂_congr fun r hr => forall_congr' fun _ => ?_
  obtain ⟨p, l, hp, -⟩ := h.stamps r hr
  have hp' : (Oracle.lock w c i).draws[r.seq]? = some (p, l) := drawn_append hp
  rw [hp, hp']

theorem Recorded.decompose_ret {c i seq : Nat} {p l : UInt64} (h : Recorded w) (hc : w.calls c = .drawn i seq p l) :
    World.Decompose { w with
      calls := Oracle.setCall w.calls c .out
      returned := w.returned ++ [⟨w.epoch, seq, composeTS p l⟩] } ↔ w.Decompose ∧ Room p l := by
  have hdraw := h.calls c i seq p l hc
  rw [room_iff]
  constructor
  · intro hdec
    refine ⟨fun r hr => hdec r (List.mem_append_left _ hr), fun hne => ?_⟩
    obtain ⟨p', l', hp', hd⟩ := hdec ⟨w.epoch, seq, composeTS p l⟩ (by simp) hne
    obtain ⟨rfl, rfl⟩ := Prod.mk.inj (Option.some.inj (hdraw.symm.trans hp'))
    exact hd
  · rintro ⟨hdec, hroom⟩ r hr hne
    rcases List.mem_append.mp hr with hr | hr
    · exact hdec r hr hne
    · obtain rfl := List.mem_singleton.mp hr
      exact ⟨p, l, hdraw, hroom hne⟩

/-- **Step lemma.** A step keeps the records, and the timestamps decompose after it if and only if they did before and it
    lets nothing through that there is no room for. -/
theorem Recorded.step {e : Event} (h : Recorded w) (hst : Guarded OneProcess step w e w') :
    Recorded w' ∧ (w'.Decompose ↔ w.Decompose ∧ RoomOk w e) := by
  obtain ⟨hone, hst⟩ := hst
  cases e with
  | boot | crash => exact hone.elim
  | update now =>
      obtain ⟨-, rfl⟩ := step_update hst
      rcases update_cases w now with ⟨-, hu⟩ | ⟨n, -, ⟨-, hu⟩ | ⟨-, hu⟩⟩ <;> rw [hu]
      · exact ⟨h, (and_iff_left trivial).symm⟩
      · exact ⟨h.frame rfl rfl rfl, (and_iff_left trivial).symm⟩
      · exact ⟨h.frame rfl rfl rfl, (and_iff_left trivial).symm⟩
  | save =>
      obtain ⟨n, ⟨-, rfl⟩ | ⟨-, rfl⟩⟩ := step_save hst <;> exact ⟨h.frame rfl rfl rfl, (and_iff_left trivial).symm⟩
  | install =>
      obtain ⟨n, -, rfl⟩ := step_install hst
      exact ⟨h.frame rfl rfl rfl, (and_iff_left trivial).symm⟩
  | call c =>
      obtain ⟨-, rfl⟩ := step_call hst
      exact ⟨h.setCall c (by intros; simp), (and_iff_left trivial).symm⟩
  | lock c =>
      obtain ⟨i, -, rfl | ⟨-, rfl⟩⟩ := step_lock hst
      · exact ⟨h.setCall c (by intros; simp), (and_iff_left trivial).symm⟩
      · exact ⟨h.lock c i, (h.decompose_lock c i).trans (and_iff_left trivial).symm⟩
  | test c =>
      obtain ⟨i, seq, p, l, hc, -⟩ := step_test hst
      have hw : w' = test w c i seq p l := by
        simp only [Oracle.step, FunStep, next, hc] at hst
        exact (Option.some.inj hst).symm
      by_cases hpass : w.current_.physiacl ≠ 0 ∧ l ≤ maxLogical
      · rw [test, if_neg hpass.1, if_neg (UInt64.not_lt.mpr hpass.2)] at hw
        subst hw
        refine ⟨h.ret hc, (h.decompose_ret hc).trans (and_congr_right fun _ => ?_)⟩
        rw [RoomOk, hc]
        exact ⟨fun hroom _ _ => hroom, fun hroom => hroom hpass.1 hpass.2⟩
      · -- the round is not the last one
        obtain rfl : w' = { w with calls := Oracle.setCall w.calls c (.loop (i + 1)) } := by
          rw [hw, test]
          split
          · rfl
          · rename_i hp
            exact if_pos (UInt64.not_le.mp fun hl => hpass ⟨hp, hl⟩)
        refine ⟨h.setCall c (by intros; simp), (and_iff_left ?_).symm⟩
        rw [RoomOk, hc]
        exact fun hp hl => absurd ⟨hp, hl⟩ hpass

/-- **Timestamps decompose exactly in the runs with room.** In every run of one process, the timestamps returned give back
    what their critical sections drew if and only if no test lets a pair through that there is no room for. -/
theorem timestamps_decompose_iff {file : Option UInt64} {uninit : Timestamp} {now : UInt64} {es : List Event}
    (h : Run (Guarded OneProcess step) (boot (World.init file) uninit now) es w) :
    w.Decompose ↔ Run (Guarded RoomOk step) (boot (World.init file) uninit now) es w := by
  suffices hboth : Recorded w ∧
      (w.Decompose ↔ Run (Guarded RoomOk step) (boot (World.init file) uninit now) es w) from hboth.2
  induction h with
  | refl =>
      refine ⟨recorded_boot, fun _ => Run.refl, fun _ r hr => ?_⟩
      cases hr
  | @tail t u es e hrun hst ih =>
      obtain ⟨hrec, hiff⟩ := ih
      obtain ⟨hrec', hstep⟩ := hrec.step hst
      refine ⟨hrec', fun hdec => ?_, fun hguarded => ?_⟩
      · obtain ⟨ht, hroom⟩ := hstep.mp hdec
        exact (hiff.mp ht).tail ⟨hroom, hst.2⟩
      · obtain ⟨t', hrun', hroom, -⟩ := hguarded.snoc_inv
        obtain rfl := Run.functional hrun.of_guarded hrun'.of_guarded
        exact hstep.mpr ⟨hiff.mpr hrun', hroom⟩

/-! ## The logical part at the limit -/

theorem InProcess.oneProcess {e : Event} (h : InProcess w e) : OneProcess w e := by
  cases e <;> trivial

theorem RoomOk.oneProcess {e : Event} (h : RoomOk w e) : OneProcess w e := by
  cases e <;> trivial

/-- `syncTimestamp` saves and installs the first physical time. -/
theorem boot_afterSync (file : Option UInt64) (uninit : Timestamp) (now : UInt64) :
    Run (Guarded OneProcess step) (boot (World.init file) uninit now) [.save, .install] (afterSync file uninit now) := by
  have hsave : Guarded OneProcess step (boot (World.init file) uninit now) .save
      { boot (World.init file) uninit now with
        file := some (syncNext (file.getD 0) now + saveTimestampInterval)
        background := .syncInstall (syncNext (file.getD 0) now) } := ⟨trivial, rfl⟩
  exact Run.cons hsave (Run.single ⟨trivial, rfl⟩)

theorem recorded_run {file : Option UInt64} {uninit : Timestamp} {now : UInt64} {es : List Event}
    (h : Run (Guarded OneProcess step) (afterSync file uninit now) es w) : Recorded w :=
  ((boot_afterSync file uninit now).append h).invariant (fun _ _ _ hs hst => (hs.step hst).1) recorded_boot

/-- `2 ^ 18` calls within one millisecond: the timestamp of the last one is that of the next millisecond. -/
theorem timestamps_carry :
    ¬ ∀ (file : Option UInt64) (uninit : Timestamp) (now : UInt64) (es : List Event) (w : World),
      Run (Guarded OneProcess step) (afterSync file uninit now) es w → w.Decompose := by
  intro hall
  obtain ⟨n, hn⟩ : ∃ n, n + 1 = 2 ^ 18 := ⟨2 ^ 18 - 1, by norm_num⟩
  obtain ⟨w, hrun, hcur, -, -, hret, hdrawn, -⟩ := flood_run (n + 1)
  have hrun' : Run (Guarded OneProcess step) (afterSync none ⟨0, 0⟩ 1) (flood (n + 1)) w :=
    hrun.mono fun _ _ _ hst => ⟨InProcess.oneProcess hst.1, hst.2⟩
  have hlogical : UInt64.ofNat (n + 1) = maxLogical := by
    rw [← UInt64.toNat_inj, maxLogical_toNat, UInt64.toNat_ofNat']
    omega
  have hlast : w.calls n = .drawn 0 n 1 maxLogical := hlogical ▸ hdrawn n (Nat.lt_succ_self n)
  have hphys : w.current_.physiacl ≠ 0 := by
    rw [hcur]
    show (1 : UInt64) ≠ 0
    decide
  have hmax : ¬ maxLogical > maxLogical := UInt64.lt_irrefl _
  have htest : Guarded OneProcess step w (.test n) { w with
      calls := setCall w.calls n .out
      returned := [⟨w.epoch, n, composeTS 1 maxLogical⟩] } := by
    refine ⟨trivial, ?_⟩
    simp only [step, FunStep, next, hlast, test, if_neg hphys, if_neg hmax, hret]
    rfl
  obtain ⟨p, l, hdraw, hdec⟩ := hall none ⟨0, 0⟩ 1 _ _ (hrun'.tail htest) _ (List.mem_singleton_self _)
    (by show composeTS 1 maxLogical ≠ 0; decide)
  obtain ⟨rfl, rfl⟩ := Prod.mk.inj (Option.some.inj (((recorded_run hrun').calls _ _ _ _ _ hlast).symm.trans hdraw))
  exact UInt64.lt_irrefl _ ((decomposes_iff 1 maxLogical).mp hdec).2

/-- A call before `syncTimestamp` has installed its time, and two behind it. -/
def roomyRun : List Event :=
  [.call 0, .lock 0, .save, .install, .test 0, .call 1, .lock 1, .test 1, .update 110, .save, .install, .call 1, .lock 1,
    .test 1]

theorem timestamps_decompose_iff_roomyRun :
    ∃ w, Run (Guarded OneProcess step) (boot (World.init none) ⟨0, 0⟩ 100) roomyRun w ∧
      w.returned.map Stamp.ts = [composeTS 0 1, composeTS 100 1, composeTS 110 1] ∧ w.Decompose := by
  obtain ⟨w, hrun, hret⟩ : ∃ w, Run (Guarded RoomOk step) (boot (World.init none) ⟨0, 0⟩ 100) roomyRun w ∧
      w.returned.map Stamp.ts = [composeTS 0 1, composeTS 100 1, composeTS 110 1] := Run.exists_guarded_of_map (by decide)
  have hone : Run (Guarded OneProcess step) (boot (World.init none) ⟨0, 0⟩ 100) roomyRun w :=
    hrun.mono fun _ _ _ hst => ⟨hst.1.oneProcess, hst.2⟩
  exact ⟨w, hone, hret, (timestamps_decompose_iff hone).mpr hrun⟩

end Oracle
end DDBMS
