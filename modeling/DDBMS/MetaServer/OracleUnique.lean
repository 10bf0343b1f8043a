import DDBMS.MetaServer.OracleRestart

/-!
# `MetaServer.OracleUnique` — the order of all timestamps

`OracleOrder` is about one process, `OracleRestart` about different ones. Here both are put together: over any number of crashes
and restarts that are safe (`SafeStep`), the timestamps are ordered as their critical sections are, first by the process and then
by the place in it (`Ordered.lt`). So no timestamp is handed out twice (`Ordered.distinct`).

Within a process the pairs that are drawn increase as long as it is synchronised; a process that is not has drawn nothing that
could be returned.
-/

namespace DDBMS
namespace Oracle

/-- The critical section of a timestamp. -/
def Stamp.place (r : Stamp) : Nat × Nat := (r.epoch, r.seq)

/-- The critical section comes earlier. -/
def Earlier (a b : Nat × Nat) : Prop := a.1 < b.1 ∨ (a.1 = b.1 ∧ a.2 < b.2)

theorem Earlier.trans_le {a b c : Nat × Nat} (h : Earlier a b) (h' : ¬ Earlier c b) : Earlier a c := by
  unfold Earlier at h h' ⊢
  omega

/-- The pair has been drawn from the physical time of the process, or an earlier one. -/
def World.Reached (w : World) (d : UInt64 × UInt64) : Prop :=
  d.1.toNat < w.current_.physiacl.toNat ∨
    (d.1.toNat = w.current_.physiacl.toNat ∧ d.2.toNat ≤ w.current_.logical.toNat)

/-- What holds between the steps of a safe run. -/
structure Ordered (w : World) : Prop where
  durable : Durable w
  unsynced : w.background.synced = false → w.background ≠ .down → ∀ d ∈ w.draws, ¬ Returnable d
  drawn : w.background.synced = true → ∀ d ∈ w.draws, Returnable d → w.Reached d
  fits : ∀ d ∈ w.draws, Returnable d → 1 ≤ d.2.toNat ∧ d.1.toNat < 2 ^ 46 - 1
  sorted : w.draws.Pairwise fun d e => Returnable d → Returnable e → Before d e
  calls : ∀ c i seq p l, w.calls c = .drawn i seq p l → w.draws[seq]? = some (p, l)
  owners : ∀ c d i j seq p l p' l', w.calls c = .drawn i seq p l → w.calls d = .drawn j seq p' l' → c = d
  fresh : ∀ c i seq p l, w.calls c = .drawn i seq p l → (w.epoch, seq) ∉ w.returned.map Stamp.place
  /-- of the present process -/
  stamps : ∀ r ∈ w.returned, r.epoch = w.epoch →
    ∃ p l, w.draws[r.seq]? = some (p, l) ∧ Returnable (p, l) ∧ r.ts = composeTS p l
  /-- of any process -/
  increasing : ∀ r ∈ w.returned, ∀ r' ∈ w.returned, r.epoch = r'.epoch → r.seq < r'.seq → r.ts < r'.ts
  nodup : (w.returned.map Stamp.place).Nodup
  nonzero : ∀ r ∈ w.returned, r.ts ≠ 0

variable {w w' : World}

theorem ordered_init (file : Option UInt64) : Ordered (World.init file) where
  durable := init_durable file
  unsynced _ h := absurd rfl h
  drawn h := by cases h
  fits _ hd := by cases hd
  sorted := List.Pairwise.nil
  calls _ _ _ _ _ hc := by cases hc
  owners _ _ _ _ _ _ _ _ _ hc := by cases hc
  fresh _ _ _ _ _ hc := by cases hc
  stamps _ hr := by cases hr
  increasing _ hr := by cases hr
  nodup := List.nodup_nil
  nonzero _ hr := by cases hr

/-- What two critical sections of the process compose. -/
theorem Ordered.compose_lt (h : Ordered w) {i j : Nat} {p l p' l' : UInt64} (hi : w.draws[i]? = some (p, l))
    (hj : w.draws[j]? = some (p', l')) (hd : Returnable (p, l)) (hd' : Returnable (p', l')) (hij : i < j) :
    composeTS p l < composeTS p' l' := by
  obtain ⟨hilt, hp⟩ := List.getElem?_eq_some_iff.mp hi
  obtain ⟨hjlt, hp'⟩ := List.getElem?_eq_some_iff.mp hj
  have hbefore : Before (p, l) (p', l') := by
    rw [← hp, ← hp']
    exact List.pairwise_iff_getElem.mp h.sorted _ _ hilt hjlt hij (hp.symm ▸ hd) (hp'.symm ▸ hd')
  have hfit := h.fits (p, l) (List.mem_of_getElem? hi) hd
  have hfit' := h.fits (p', l') (List.mem_of_getElem? hj) hd'
  have hle := UInt64.le_iff_toNat_le.mp hd.2
  have hle' := UInt64.le_iff_toNat_le.mp hd'.2
  rw [maxLogical_toNat] at hle hle'
  dsimp only at hfit hfit' hle hle'
  exact hbefore.composeTS_lt hfit'.1 hd.2 (by dsimp only; omega) (by dsimp only; omega)

/-! ## Preservation, one lemma per kind of step -/

theorem Ordered.boot (h : Ordered w) (uninit : Timestamp) {now : UInt64} (hle : w.file.getD 0 ≤ now) (hnow : now.toNat < 2 ^ 45) :
    Ordered (boot w uninit now) where
  durable := h.durable.boot uninit hle hnow
  unsynced _ _ _ hd := by cases hd
  drawn hs := by cases hs
  fits _ hd := by cases hd
  sorted := List.Pairwise.nil
  calls _ _ _ _ _ hc := by cases hc
  owners _ _ _ _ _ _ _ _ _ hc := by cases hc
  fresh _ _ _ _ _ hc := by cases hc
  stamps r hr hepoch := by
    have hold := h.durable.epochs r hr
    have hnew : r.epoch = w.epoch + 1 := hepoch
    omega
  increasing := h.increasing
  nodup := h.nodup
  nonzero := h.nonzero

/-- The background thread moves, and the time stands. -/
theorem Ordered.background (h : Ordered w) {file : Option UInt64} {b : Background}
    (hdurable : Durable { w with file := file, background := b }) (hb : b.synced = w.background.synced)
    (hdown : w.background ≠ .down) : Ordered { w with file := file, background := b } where
  durable := hdurable
  unsynced hs _ := h.unsynced (hb.symm.trans hs) hdown
  drawn hs := h.drawn (hb.symm.trans hs)
  fits := h.fits
  sorted := h.sorted
  calls := h.calls
  owners := h.owners
  fresh := h.fresh
  stamps := h.stamps
  increasing := h.increasing
  nodup := h.nodup
  nonzero := h.nonzero

theorem Ordered.install (h : Ordered w) {n : UInt64} (hb : w.background = .syncInstall n ∨ w.background = .updateInstall n) :
    Ordered { w with current_ := ⟨n, 0⟩, background := .idle } where
  durable := h.durable.install hb
  unsynced hs := by cases hs
  drawn _ d hd hreturnable := by
    rcases hb with hb | hb
    · -- `syncTimestamp`
      exact absurd hreturnable (h.unsynced (by rw [hb]; rfl) (by rw [hb]; exact Background.noConfusion) d hd)
    · have hstage := h.durable.stage
      simp only [World.Stage, hb] at hstage
      have hreached := h.drawn (by rw [hb]; rfl) d hd hreturnable
      refine Or.inl ?_
      show d.1.toNat < n.toNat
      unfold World.Reached at hreached
      omega
  fits := h.fits
  sorted := h.sorted
  calls := h.calls
  owners := h.owners
  fresh := h.fresh
  stamps := h.stamps
  increasing := h.increasing
  nodup := h.nodup
  nonzero := h.nonzero

theorem Ordered.crash (h : Ordered w) : Ordered { w with background := .down, calls := fun _ => .out } where
  durable := h.durable.crash
  unsynced _ hdown := absurd rfl hdown
  drawn hs := by cases hs
  fits := h.fits
  sorted := h.sorted
  calls _ _ _ _ _ hc := by cases hc
  owners _ _ _ _ _ _ _ _ _ hc := by cases hc
  fresh _ _ _ _ _ hc := by cases hc
  stamps := h.stamps
  increasing := h.increasing
  nodup := h.nodup
  nonzero := h.nonzero

theorem drawn_of_setCall {calls : Nat → Call} {c d : Nat} {x : Call} (hx : ∀ i seq p l, x ≠ .drawn i seq p l) {i seq : Nat}
    {p l : UInt64} (hd : setCall calls c x d = .drawn i seq p l) : d ≠ c ∧ calls d = .drawn i seq p l := by
  by_cases hdc : d = c
  · subst hdc
    rw [setCall_self] at hd
    exact absurd hd (hx i seq p l)
  · rw [setCall_ne _ _ hdc] at hd
    exact ⟨hdc, hd⟩

/-- A call changes its place without holding a drawn pair. -/
theorem Ordered.setCall (h : Ordered w) (c : Nat) {x : Call} (hx : ∀ i seq p l, x ≠ .drawn i seq p l) :
    Ordered { w with calls := Oracle.setCall w.calls c x } where
  durable := h.durable.setCall c hx
  unsynced := h.unsynced
  drawn := h.drawn
  fits := h.fits
  sorted := h.sorted
  calls d i seq p l hd := h.calls d i seq p l (drawn_of_setCall hx hd).2
  owners d e i j seq p l p' l' hd he :=
    h.owners d e i j seq p l p' l' (drawn_of_setCall hx hd).2 (drawn_of_setCall hx he).2
  fresh d i seq p l hd := h.fresh d i seq p l (drawn_of_setCall hx hd).2
  stamps := h.stamps
  increasing := h.increasing
  nodup := h.nodup
  nonzero := h.nonzero

theorem Ordered.lock (h : Ordered w) (c i : Nat) (hmay : w.MayDraw) (hlocked : w.background.locked = false) :
    Ordered (lock w c i) := by
  have hmem : ∀ {seq : Nat} {q : UInt64 × UInt64}, w.draws[seq]? = some q →
      (w.draws ++ [(w.current_.physiacl, w.current_.logical + 1)])[seq]? = some q := by
    intro seq q hq
    rw [List.getElem?_append_left (List.getElem?_eq_some_iff.mp hq).1, hq]
  -- a drawn call is the new one, or an old one
  have hold : ∀ {d j seq p l}, Oracle.setCall w.calls c
      (.drawn i w.draws.length w.current_.physiacl (w.current_.logical + 1)) d = .drawn j seq p l →
      (d = c ∧ seq = w.draws.length ∧ p = w.current_.physiacl ∧ l = w.current_.logical + 1) ∨
        (w.calls d = .drawn j seq p l ∧ seq < w.draws.length) := by
    intro d j seq p l hd
    by_cases hdc : d = c
    · subst hdc
      rw [setCall_self] at hd
      injection hd with _ h2 h3 h4
      exact Or.inl ⟨rfl, h2.symm, h3.symm, h4.symm⟩
    · rw [setCall_ne _ _ hdc] at hd
      exact Or.inr ⟨hd, (List.getElem?_eq_some_iff.mp (h.calls d j seq p l hd)).1⟩
  refine ⟨h.durable.lock c i hmay hlocked, ?_, ?_, ?_, ?_, ?_, ?_, ?_, ?_, h.increasing, h.nodup, h.nonzero⟩
  · intro hs hdown d hd
    rcases List.mem_append.mp hd with hd | hd
    · exact h.unsynced hs hdown d hd
    · obtain rfl := List.mem_singleton.mp hd
      intro hreturnable
      have hsynced : w.background.synced = false := hs
      rw [hmay.synced hreturnable] at hsynced
      cases hsynced
  · intro hs d hd hreturnable
    obtain ⟨-, hlog⟩ := hmay.fits hs
    show d.1.toNat < w.current_.physiacl.toNat ∨
      (d.1.toNat = w.current_.physiacl.toNat ∧ d.2.toNat ≤ (w.current_.logical + 1).toNat)
    rw [hlog]
    rcases List.mem_append.mp hd with hd | hd
    · have := h.drawn hs d hd hreturnable
      unfold World.Reached at this
      omega
    · obtain rfl := List.mem_singleton.mp hd
      exact Or.inr ⟨rfl, Nat.le_of_eq hlog⟩
  · intro d hd hreturnable
    rcases List.mem_append.mp hd with hd | hd
    · exact h.fits d hd hreturnable
    · obtain rfl := List.mem_singleton.mp hd
      obtain ⟨hp, hlog⟩ := hmay.fits (hmay.synced hreturnable)
      dsimp only
      omega
  · refine List.pairwise_append.mpr ⟨h.sorted, List.pairwise_singleton _ _, ?_⟩
    intro d hd e he hreturnable hreturnable'
    obtain rfl := List.mem_singleton.mp he
    have hs := hmay.synced hreturnable'
    obtain ⟨-, hlog⟩ := hmay.fits hs
    have := h.drawn hs d hd hreturnable
    unfold World.Reached at this
    simp only [Before, hlog]
    omega
  · intro d j seq p l hd
    rcases hold hd with ⟨-, rfl, rfl, rfl⟩ | ⟨hd, -⟩
    · exact List.getElem?_concat_length
    · exact hmem (h.calls d j seq p l hd)
  · intro d e j k seq p l p' l' hd he
    rcases hold hd with ⟨hdc, hs, -, -⟩ | ⟨hd, hs⟩ <;> rcases hold he with ⟨hec, hs', -, -⟩ | ⟨he, hs'⟩
    · rw [hdc, hec]
    · omega
    · omega
    · exact h.owners d e j k seq p l p' l' hd he
  · intro d j seq p l hd
    rcases hold hd with ⟨-, rfl, -, -⟩ | ⟨hd, -⟩
    · -- the critical section is new
      intro hr
      obtain ⟨r, hr, hplace⟩ := List.mem_map.mp hr
      obtain ⟨hepoch, hseq⟩ := Prod.mk.inj hplace
      obtain ⟨p', l', hget, -⟩ := h.stamps r hr hepoch
      have := (List.getElem?_eq_some_iff.mp hget).1
      omega
    · exact h.fresh d j seq p l hd
  · intro r hr hepoch
    obtain ⟨p, l, hget, hrest⟩ := h.stamps r hr hepoch
    exact ⟨p, l, hmem hget, hrest⟩

theorem Ordered.ret (h : Ordered w) {c i seq : Nat} {p l : UInt64} (hc : w.calls c = .drawn i seq p l)
    (hpl : Returnable (p, l)) : Ordered { w with
      calls := Oracle.setCall w.calls c .out
      returned := w.returned ++ [⟨w.epoch, seq, composeTS p l⟩] } := by
  have hget := h.calls c i seq p l hc
  have hfit := h.fits (p, l) (List.mem_of_getElem? hget) hpl
  have hl : l ≤ maxLogical := hpl.2
  have hout : ∀ j s q m, Call.out ≠ .drawn j s q m := fun _ _ _ _ => Call.noConfusion
  refine ⟨h.durable.ret hc hpl, h.unsynced, h.drawn, h.fits, h.sorted, ?_, ?_, ?_, ?_, ?_, ?_, ?_⟩
  · exact fun d j s q m hd => h.calls d j s q m (drawn_of_setCall hout hd).2
  · exact fun d e j k s q m q' m' hd he =>
      h.owners d e j k s q m q' m' (drawn_of_setCall hout hd).2 (drawn_of_setCall hout he).2
  · intro d j s q m hd
    obtain ⟨hdc, hold⟩ := drawn_of_setCall hout hd
    rw [List.map_append, List.mem_append, not_or]
    refine ⟨h.fresh d j s q m hold, fun hs => ?_⟩
    obtain ⟨-, rfl⟩ := Prod.mk.inj (List.mem_singleton.mp hs)
    exact hdc (h.owners d c j i s q m p l hold hc)
  · intro r hr hepoch
    rcases List.mem_append.mp hr with hr | hr
    · exact h.stamps r hr hepoch
    · obtain rfl := List.mem_singleton.mp hr
      exact ⟨p, l, hget, hpl, rfl⟩
  · intro r hr r' hr' hepoch hlt
    rcases List.mem_append.mp hr with hr | hr <;> rcases List.mem_append.mp hr' with hr' | hr'
    · exact h.increasing r hr r' hr' hepoch hlt
    · obtain rfl := List.mem_singleton.mp hr'
      obtain ⟨q, m, hq, hm, hts⟩ := h.stamps r hr hepoch
      rw [hts]
      exact h.compose_lt hq hget hm hpl hlt
    · obtain rfl := List.mem_singleton.mp hr
      obtain ⟨q, m, hq, hm, hts⟩ := h.stamps r' hr' hepoch.symm
      rw [hts]
      exact h.compose_lt hget hq hpl hm hlt
    · obtain rfl := List.mem_singleton.mp hr
      obtain rfl := List.mem_singleton.mp hr'
      exact absurd hlt (Nat.lt_irrefl _)
  · rw [List.map_append, List.nodup_append]
    refine ⟨h.nodup, List.nodup_singleton _, ?_⟩
    intro a ha b hb
    obtain rfl := List.mem_singleton.mp hb
    rintro rfl
    exact h.fresh c i seq p l hc ha
  · intro r hr
    rcases List.mem_append.mp hr with hr | hr
    · exact h.nonzero r hr
    · obtain rfl := List.mem_singleton.mp hr
      have hle := UInt64.le_iff_toNat_le.mp hl
      rw [maxLogical_toNat] at hle
      dsimp only at hfit
      have hts : (composeTS p l).toNat = p.toNat * 2 ^ 18 + l.toNat := composeTS_toNat (by omega)
      intro hzero
      have hzero : composeTS p l = 0 := hzero
      rw [hzero, UInt64.toNat_zero] at hts
      omega

/-- **Step lemma.** -/
theorem ordered_step {e : Event} (h : Ordered w) (hst : Guarded SafeStep step w e w') : Ordered w' := by
  have hdurable := durable_step h.durable hst
  obtain ⟨hok, hst⟩ := hst
  cases e with
  | boot uninit now =>
      obtain ⟨-, rfl⟩ := step_boot hst
      exact h.boot uninit hok.1 hok.2
  | update now =>
      obtain ⟨hidle, rfl⟩ := step_update hst
      have hdown : w.background ≠ .down := by
        rw [hidle]
        exact Background.noConfusion
      rcases update_cases w now with ⟨-, hu⟩ | ⟨n, -, ⟨-, hu⟩ | ⟨-, hu⟩⟩ <;> rw [hu] at hdurable ⊢
      · exact h
      · exact h.background hdurable (by rw [hidle]; rfl) hdown
      · exact h.background hdurable (by rw [hidle]; rfl) hdown
  | save =>
      obtain ⟨n, ⟨hb, rfl⟩ | ⟨hb, rfl⟩⟩ := step_save hst
      · exact h.background hdurable (by rw [hb]; rfl) (by rw [hb]; exact Background.noConfusion)
      · exact h.background hdurable (by rw [hb]; rfl) (by rw [hb]; exact Background.noConfusion)
  | install =>
      obtain ⟨n, hb, rfl⟩ := step_install hst
      exact h.install hb
  | crash =>
      obtain rfl := step_crash hst
      exact h.crash
  | call c =>
      obtain ⟨-, rfl⟩ := step_call hst
      exact h.setCall c (fun _ _ _ _ => Call.noConfusion)
  | lock c =>
      obtain ⟨i, -, rfl | ⟨hlocked, rfl⟩⟩ := step_lock hst
      · exact h.setCall c (fun _ _ _ _ => Call.noConfusion)
      · exact h.lock c i hok hlocked
  | test c =>
      obtain ⟨i, seq, p, l, hc, rfl | ⟨hp, hl, rfl⟩⟩ := step_test hst
      · exact h.setCall c (fun _ _ _ _ => Call.noConfusion)
      · exact h.ret hc (returnable_of_test hok hc hp hl)

/-! ## The order -/

/-- **Timestamps are ordered as their critical sections**, within a process and across restarts. -/
theorem Ordered.lt (h : Ordered w) {r r' : Stamp} (hr : r ∈ w.returned) (hr' : r' ∈ w.returned)
    (hearlier : Earlier r.place r'.place) : r.ts < r'.ts := by
  rcases hearlier with hepoch | ⟨hepoch, hseq⟩
  · exact h.durable.ordered r hr r' hr' hepoch
  · exact h.increasing r hr r' hr' hepoch hseq

/-- **No timestamp is handed out twice.** -/
theorem Ordered.distinct (h : Ordered w) : (w.returned.map Stamp.ts).Nodup := by
  refine List.pairwise_map.mpr ((List.pairwise_map.mp h.nodup).imp_of_mem ?_)
  intro r r' hr hr' hne hts
  have hearlier : Earlier r.place r'.place ∨ Earlier r'.place r.place := by
    by_contra hnone
    unfold Earlier at hnone
    exact hne (Prod.ext (by omega) (by omega))
  rcases hearlier with hearlier | hearlier
  · have hlt := h.lt hr hr' hearlier
    rw [hts] at hlt
    exact absurd hlt (UInt64.lt_irrefl _)
  · have hlt := h.lt hr' hr hearlier
    rw [hts] at hlt
    exact absurd hlt (UInt64.lt_irrefl _)

/-! ## Time -/

/-- The next critical section. -/
def World.place (w : World) : Nat × Nat := (w.epoch, w.draws.length)

theorem ordered_run {file : Option UInt64} {es : List Event} (h : Run (Guarded SafeStep step) (World.init file) es w) : Ordered w :=
  h.invariant (fun _ _ _ hi hst => ordered_step hi hst) (ordered_init file)

/-- What has been returned comes before what is yet to be drawn. -/
theorem Ordered.earlier (h : Ordered w) {r : Stamp} (hr : r ∈ w.returned) : Earlier r.place w.place := by
  rcases Nat.lt_or_ge r.epoch w.epoch with hlt | hge
  · exact Or.inl hlt
  · have hepoch : r.epoch = w.epoch := Nat.le_antisymm (h.durable.epochs r hr) hge
    obtain ⟨p, l, hget, -⟩ := h.stamps r hr hepoch
    exact Or.inr ⟨hepoch, (List.getElem?_eq_some_iff.mp hget).1⟩

/-- Critical sections follow one another. -/
theorem place_mono {a : Nat × Nat} {e : Event} (hst : step w e w') (h : ¬ Earlier w.place a) : ¬ Earlier w'.place a := by
  cases e with
  | boot uninit now =>
      obtain ⟨-, rfl⟩ := step_boot hst
      unfold Earlier World.place at h ⊢
      simp only [boot, List.length_nil] at h ⊢
      omega
  | update now =>
      obtain ⟨-, rfl⟩ := step_update hst
      rcases update_cases w now with ⟨-, hu⟩ | ⟨n, -, ⟨-, hu⟩ | ⟨-, hu⟩⟩ <;> rw [hu]
      · exact h
      · exact h
      · exact h
  | save => obtain ⟨n, ⟨-, rfl⟩ | ⟨-, rfl⟩⟩ := step_save hst <;> exact h
  | install =>
      obtain ⟨n, -, rfl⟩ := step_install hst
      exact h
  | crash =>
      obtain rfl := step_crash hst
      exact h
  | call c =>
      obtain ⟨-, rfl⟩ := step_call hst
      exact h
  | lock c =>
      obtain ⟨i, -, rfl | ⟨-, rfl⟩⟩ := step_lock hst
      · exact h
      · unfold Earlier World.place at h ⊢
        simp only [lock, List.length_append, List.length_singleton] at h ⊢
        omega
  | test c => obtain ⟨i, seq, p, l, -, rfl | ⟨-, -, rfl⟩⟩ := step_test hst <;> exact h

/-- A call has drawn its pair before, or draws it now. -/
theorem drawn_cases {e : Event} {c i seq : Nat} {p l : UInt64} (hst : step w e w') (hc : w'.calls c = .drawn i seq p l) :
    w'.epoch = w.epoch ∧ (w.calls c = .drawn i seq p l ∨ seq = w.draws.length) := by
  cases e with
  | boot uninit now =>
      obtain ⟨-, rfl⟩ := step_boot hst
      cases hc
  | update now =>
      obtain ⟨-, rfl⟩ := step_update hst
      rcases update_cases w now with ⟨-, hu⟩ | ⟨n, -, ⟨-, hu⟩ | ⟨-, hu⟩⟩ <;> rw [hu] at hc ⊢
      · exact ⟨rfl, Or.inl hc⟩
      · exact ⟨rfl, Or.inl hc⟩
      · exact ⟨rfl, Or.inl hc⟩
  | save => obtain ⟨n, ⟨-, rfl⟩ | ⟨-, rfl⟩⟩ := step_save hst <;> exact ⟨rfl, Or.inl hc⟩
  | install =>
      obtain ⟨n, -, rfl⟩ := step_install hst
      exact ⟨rfl, Or.inl hc⟩
  | crash =>
      obtain rfl := step_crash hst
      cases hc
  | call d =>
      obtain ⟨-, rfl⟩ := step_call hst
      exact ⟨rfl, Or.inl (drawn_of_setCall (fun _ _ _ _ => Call.noConfusion) hc).2⟩
  | lock d =>
      obtain ⟨j, -, rfl | ⟨-, rfl⟩⟩ := step_lock hst
      · exact ⟨rfl, Or.inl (drawn_of_setCall (fun _ _ _ _ => Call.noConfusion) hc).2⟩
      · refine ⟨rfl, ?_⟩
        change setCall w.calls d _ c = _ at hc
        by_cases hcd : c = d
        · subst hcd
          rw [setCall_self] at hc
          injection hc with _ hseq
          exact Or.inr hseq.symm
        · rw [setCall_ne _ _ hcd] at hc
          exact Or.inl hc
  | test d =>
      obtain ⟨j, s, q, m, -, rfl | ⟨-, -, rfl⟩⟩ := step_test hst
      · exact ⟨rfl, Or.inl (drawn_of_setCall (fun _ _ _ _ => Call.noConfusion) hc).2⟩
      · exact ⟨rfl, Or.inl (drawn_of_setCall (fun _ _ _ _ => Call.noConfusion) hc).2⟩

theorem setCall_out {calls : Nat → Call} {c d : Nat} {x : Call} (hc : calls c = .out) (hd : calls d ≠ .out) :
    setCall calls d x c = .out := by
  have hcd : c ≠ d := by
    rintro rfl
    exact hd hc
  rw [setCall_ne _ _ hcd, hc]

/-- Who is in no call stays out until it makes one. -/
theorem out_stays {e : Event} {c : Nat} (hcall : ∀ c, e ≠ .call c) (hst : step w e w') (hout : w.calls c = .out) :
    w'.calls c = .out := by
  cases e with
  | boot uninit now =>
      obtain ⟨-, rfl⟩ := step_boot hst
      rfl
  | update now =>
      obtain ⟨-, rfl⟩ := step_update hst
      rcases update_cases w now with ⟨-, hu⟩ | ⟨n, -, ⟨-, hu⟩ | ⟨-, hu⟩⟩ <;> rw [hu] <;> exact hout
  | save => obtain ⟨n, ⟨-, rfl⟩ | ⟨-, rfl⟩⟩ := step_save hst <;> exact hout
  | install =>
      obtain ⟨n, -, rfl⟩ := step_install hst
      exact hout
  | crash =>
      obtain rfl := step_crash hst
      rfl
  | call d => exact absurd rfl (hcall d)
  | lock d =>
      obtain ⟨i, hd, rfl | ⟨-, rfl⟩⟩ := step_lock hst
      · exact setCall_out hout (by rw [hd]; exact Call.noConfusion)
      · exact setCall_out hout (by rw [hd]; exact Call.noConfusion)
  | test d =>
      obtain ⟨i, seq, p, l, hd, rfl | ⟨-, -, rfl⟩⟩ := step_test hst
      · exact setCall_out hout (by rw [hd]; exact Call.noConfusion)
      · exact setCall_out hout (by rw [hd]; exact Call.noConfusion)

end Oracle
end DDBMS
