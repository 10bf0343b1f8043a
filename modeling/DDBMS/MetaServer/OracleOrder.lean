import DDBMS.MetaServer.Oracle

/-!
# `MetaServer.OracleOrder` — timestamps of one process are strictly increasing

After `syncTimestamp`, any number of `getTimeStamp` calls interleave with `updateTimestamp`. The critical
sections draw pairs `(physical, logical)`; the pairs drawn are lexicographically increasing whatever the
clock does, because an update only moves the physical part up. What `getTimeStamp` composes from them is
increasing too: a logical part of exactly `maxLogical` carries into the physical part, but the next physical
tick starts its logical parts at 1.

The words are 64 bits wide, so all of this holds until a counter wraps: `Ticking.budget` bounds both counters
by the number of critical sections, since `updateTimestamp` passes the clock only after `2 ^ 17` of them.
-/

namespace DDBMS
namespace Oracle

/-- Lexicographic order of drawn pairs. -/
def Before (d e : UInt64 × UInt64) : Prop :=
  d.1.toNat < e.1.toNat ∨ (d.1.toNat = e.1.toNat ∧ d.2.toNat < e.2.toNat)

/-- A logical part of `2 ^ 18` carries into the physical part without reaching the next tick's first one. -/
theorem carry_lt {p l p' l' : Nat} (h : p < p' ∨ (p = p' ∧ l < l')) (hl : l ≤ 2 ^ 18) (hl' : 1 ≤ l') :
    p * 2 ^ 18 + l < p' * 2 ^ 18 + l' := by
  rcases h with h | ⟨h, h'⟩ <;> omega

/-- A later pair composes to a larger timestamp, as long as the earlier one respects `maxLogical` and the
    words do not overflow. -/
theorem Before.composeTS_lt {d e : UInt64 × UInt64} (h : Before d e) (he : 1 ≤ e.2.toNat)
    (hd : d.2 ≤ maxLogical) (hde : d.1.toNat * 2 ^ 18 + d.2.toNat < 2 ^ 64)
    (hee : e.1.toNat * 2 ^ 18 + e.2.toNat < 2 ^ 64) :
    composeTS d.1 d.2 < composeTS e.1 e.2 := by
  have hl := UInt64.le_iff_toNat_le.mp hd
  rw [maxLogical_toNat] at hl
  rw [UInt64.lt_iff_toNat_lt, composeTS_toNat hde, composeTS_toNat hee]
  exact carry_lt h hl he

/-- Whether an event belongs to the run of one process, with a clock below 45 bits. -/
def InProcess (_ : World) : Event → Prop
  | .boot _ _ => False
  | .crash => False
  | .update now => now.toNat < 2 ^ 45
  | _ => True

/-- The world right after `syncTimestamp` has completed in the first process. -/
def afterSync (file : Option UInt64) (uninit : Timestamp) (now : UInt64) : World :=
  let n := syncNext (file.getD 0) now
  { boot (World.init file) uninit now with
    file := some (n + saveTimestampInterval)
    current_ := ⟨n, 0⟩
    background := .idle }

/-- The physical time an update under way is about to install. -/
def Background.pending : Background → Option UInt64
  | .updateSave n | .updateInstall n => some n
  | _ => none

/-- What holds between the steps of one process while its counters have not wrapped. -/
structure Ticking (w : World) : Prop where
  synced : w.background = .idle ∨ ∃ n, w.background.pending = some n
  ahead : ∀ n, w.background.pending = some n → w.current_.physiacl.toNat < n.toNat ∧
    n.toNat * 2 ^ 17 ≤ 2 ^ 62 + w.draws.length
  budget : w.current_.physiacl.toNat * 2 ^ 17 + w.current_.logical.toNat ≤ 2 ^ 62 + w.draws.length
  drawn : ∀ d ∈ w.draws, (d.1.toNat < w.current_.physiacl.toNat ∨
      (d.1.toNat = w.current_.physiacl.toNat ∧ d.2.toNat ≤ w.current_.logical.toNat)) ∧
    1 ≤ d.2.toNat ∧ d.1.toNat * 2 ^ 17 + d.2.toNat ≤ 2 ^ 62 + w.draws.length
  sorted : w.draws.Pairwise Before
  calls : ∀ c i seq p l, w.calls c = .drawn i seq p l → w.draws[seq]? = some (p, l)
  owners : ∀ c d i j seq p l p' l', w.calls c = .drawn i seq p l → w.calls d = .drawn j seq p' l' → c = d
  fresh : ∀ c i seq p l, w.calls c = .drawn i seq p l → seq ∉ w.returned.map Stamp.seq
  stamps : ∀ r ∈ w.returned, ∃ p l, w.draws[r.seq]? = some (p, l) ∧ l ≤ maxLogical ∧
    r.ts = composeTS p l
  nodup : (w.returned.map Stamp.seq).Nodup

/-- A clock behind the stored bound is taken as it is, one at the bound is moved past it. -/
theorem syncNext_le {lastTS now : UInt64} (hnow : now.toNat < 2 ^ 45) : (syncNext lastTS now).toNat ≤ 2 ^ 45 := by
  by_cases hle : lastTS ≤ now
  · exact (syncNext_gt hnow hle).2
  · -- the unsigned difference is large, so the reading is taken
    have hlt := UInt64.lt_iff_toNat_lt.mp (UInt64.not_le.mp hle)
    have hsub : ¬ (now - lastTS) < updateTimestampGuard := by
      rw [UInt64.lt_iff_toNat_lt, UInt64.toNat_sub]
      have : updateTimestampGuard.toNat = 1 := by decide
      have := lastTS.toNat_lt
      omega
    rw [syncNext, if_neg hsub]
    omega

theorem afterSync_ticking {file : Option UInt64} {uninit : Timestamp} {now : UInt64}
    (hnow : now.toNat < 2 ^ 45) : Ticking (afterSync file uninit now) := by
  have hn : (syncNext (file.getD 0) now).toNat ≤ 2 ^ 45 := syncNext_le hnow
  have h0 : (syncNext (file.getD 0) now).toNat * 2 ^ 17 ≤ 2 ^ 62 := by omega
  constructor
  · exact Or.inl rfl
  · intro n h; cases h
  · simpa [afterSync, boot, World.init] using h0
  · intro d hd; cases hd
  · exact List.Pairwise.nil
  · intro c i seq p l h; cases h
  · intro c d i j seq p l p' l' h; cases h
  · intro c i seq p l h; cases h
  · intro r hr; cases hr
  · exact List.nodup_nil

/-! ## Preservation, one lemma per kind of step -/

/-- The background thread moved without touching `current_`, the calls or the history. -/
theorem Ticking.background {w : World} (h : Ticking w) (file : Option UInt64) {b : Background}
    (hb : b = .idle ∨ ∃ n, b.pending = some n)
    (ha : ∀ n, b.pending = some n → w.current_.physiacl.toNat < n.toNat ∧
      n.toNat * 2 ^ 17 ≤ 2 ^ 62 + w.draws.length) :
    Ticking { w with file := file, background := b } :=
  ⟨hb, ha, h.budget, h.drawn, h.sorted, h.calls, h.owners, h.fresh, h.stamps, h.nodup⟩

theorem Ticking.install {w : World} (h : Ticking w) {n : UInt64} (hn : w.background.pending = some n) :
    Ticking { w with current_ := ⟨n, 0⟩, background := .idle } := by
  obtain ⟨hlt, hbud⟩ := h.ahead n hn
  refine ⟨Or.inl rfl, ?_, ?_, ?_, h.sorted, h.calls, h.owners, h.fresh, h.stamps, h.nodup⟩
  · intro m hm; cases hm
  · rw [UInt64.toNat_zero, Nat.add_zero]
    exact hbud
  · intro d hd
    obtain ⟨hpos, hrest⟩ := h.drawn d hd
    refine ⟨Or.inl ?_, hrest⟩
    show d.1.toNat < n.toNat
    omega

/-- A call changed its place without holding a drawn pair. -/
theorem Ticking.setCall {w : World} (h : Ticking w) (c : Nat) {x : Call}
    (hx : ∀ i seq p l, x ≠ .drawn i seq p l) : Ticking { w with calls := setCall w.calls c x } := by
  have hold : ∀ {d i seq p l}, Oracle.setCall w.calls c x d = .drawn i seq p l →
      w.calls d = .drawn i seq p l := by
    intro d i seq p l hd
    by_cases hdc : d = c
    · subst hdc
      rw [setCall_self] at hd
      exact absurd hd (hx i seq p l)
    · rwa [setCall_ne _ _ hdc] at hd
  refine ⟨h.synced, h.ahead, h.budget, h.drawn, h.sorted, ?_, ?_, ?_, h.stamps, h.nodup⟩
  · intro d i seq p l hd; exact h.calls d i seq p l (hold hd)
  · intro d e i j seq p l p' l' hd he; exact h.owners d e i j seq p l p' l' (hold hd) (hold he)
  · intro d i seq p l hd; exact h.fresh d i seq p l (hold hd)

theorem Ticking.lock {w : World} (h : Ticking w) (c i : Nat) (hd : w.draws.length < 2 ^ 62)
    (hb : w.background.locked = false) : Ticking (lock w c i) := by
  have hidle : w.background = .idle := by
    rcases h.synced with hi | ⟨n, hn⟩
    · exact hi
    · cases hbg : w.background <;> rw [hbg] at hn hb <;> simp [Background.pending, Background.locked] at hn hb
  have hlog : (w.current_.logical + 1).toNat = w.current_.logical.toNat + 1 := by
    rw [UInt64.toNat_add]
    have : (1 : UInt64).toNat = 1 := by decide
    have := h.budget
    omega
  have hmem : ∀ {seq : Nat} {q : UInt64 × UInt64}, w.draws[seq]? = some q →
      (w.draws ++ [(w.current_.physiacl, w.current_.logical + 1)])[seq]? = some q := by
    intro seq q hq
    obtain ⟨hlt, -⟩ := List.getElem?_eq_some_iff.mp hq
    rw [List.getElem?_append_left hlt, hq]
  have hret : ∀ r ∈ w.returned, r.seq < w.draws.length := by
    intro r hr
    obtain ⟨p, l, hp, -⟩ := h.stamps r hr
    exact (List.getElem?_eq_some_iff.mp hp).1
  have hseq : ∀ {d j seq p l}, w.calls d = .drawn j seq p l → seq < w.draws.length := by
    intro d j seq p l hdr
    exact (List.getElem?_eq_some_iff.mp (h.calls d j seq p l hdr)).1
  -- a drawn call of the new state is the locked one or was there before
  have hold : ∀ {d j seq p l}, Oracle.setCall w.calls c
      (.drawn i w.draws.length w.current_.physiacl (w.current_.logical + 1)) d = .drawn j seq p l →
      (d = c ∧ seq = w.draws.length ∧ p = w.current_.physiacl ∧ l = w.current_.logical + 1) ∨
      w.calls d = .drawn j seq p l := by
    intro d j seq p l hdr
    by_cases hdc : d = c
    · subst hdc
      rw [setCall_self] at hdr
      injection hdr with _ h2 h3 h4
      exact Or.inl ⟨rfl, h2.symm, h3.symm, h4.symm⟩
    · exact Or.inr (by rwa [setCall_ne _ _ hdc] at hdr)
  unfold Oracle.lock
  refine ⟨Or.inl hidle, ?_, ?_, ?_, ?_, ?_, ?_, ?_, ?_, h.nodup⟩
  · intro n hn
    have hn' : w.background.pending = some n := hn
    rw [hidle] at hn'
    cases hn'
  · show w.current_.physiacl.toNat * 2 ^ 17 + (w.current_.logical + 1).toNat ≤ _
    rw [hlog, List.length_append, List.length_singleton]
    have := h.budget
    omega
  · intro d hdm
    show (d.1.toNat < w.current_.physiacl.toNat ∨
      (d.1.toNat = w.current_.physiacl.toNat ∧ d.2.toNat ≤ (w.current_.logical + 1).toNat)) ∧ _
    rw [hlog, List.length_append, List.length_singleton]
    rcases List.mem_append.mp hdm with hdm | hdm
    · have := h.drawn d hdm; omega
    · obtain rfl := List.mem_singleton.mp hdm
      have := h.budget
      simp only [hlog, true_and, Nat.le_refl, or_true]
      omega
  · refine List.pairwise_append.mpr ⟨h.sorted, List.pairwise_singleton _ _, ?_⟩
    intro d hdm e he
    obtain rfl := List.mem_singleton.mp he
    have := (h.drawn d hdm).1
    simp only [Before, hlog]
    omega
  · intro d j seq p l hdr
    rcases hold hdr with ⟨-, rfl, rfl, rfl⟩ | hdr
    · simp
    · exact hmem (h.calls d j seq p l hdr)
  · intro d e j k seq p l p' l' hdd hde
    rcases hold hdd with ⟨hdc, hs, -, -⟩ | hdd' <;> rcases hold hde with ⟨hec, hs', -, -⟩ | hde'
    · rw [hdc, hec]
    · exact absurd (hseq hde') (by omega)
    · exact absurd (hseq hdd') (by omega)
    · exact h.owners d e j k seq p l p' l' hdd' hde'
  · intro d j seq p l hdr
    rcases hold hdr with ⟨-, rfl, -, -⟩ | hdr
    · intro hr
      obtain ⟨r, hr, hrs⟩ := List.mem_map.mp hr
      have := hret r hr
      omega
    · exact h.fresh d j seq p l hdr
  · intro r hr
    obtain ⟨p, l, hp, hrest⟩ := h.stamps r hr
    exact ⟨p, l, hmem hp, hrest⟩

theorem Ticking.ret {w : World} (h : Ticking w) {c i seq : Nat} {p l : UInt64}
    (hc : w.calls c = .drawn i seq p l) (hl : l ≤ maxLogical) :
    Ticking { w with
      calls := Oracle.setCall w.calls c .out
      returned := w.returned ++ [⟨w.epoch, seq, composeTS p l⟩] } := by
  have hold : ∀ {d j s q m}, Oracle.setCall w.calls c .out d = .drawn j s q m →
      d ≠ c ∧ w.calls d = .drawn j s q m := by
    intro d j s q m hd
    by_cases hdc : d = c
    · subst hdc; rw [setCall_self] at hd; cases hd
    · exact ⟨hdc, by rwa [setCall_ne _ _ hdc] at hd⟩
  refine ⟨h.synced, h.ahead, h.budget, h.drawn, h.sorted, ?_, ?_, ?_, ?_, ?_⟩
  · intro d j s q m hd; exact h.calls d j s q m (hold hd).2
  · intro d e j k s q m q' m' hd he; exact h.owners d e j k s q m q' m' (hold hd).2 (hold he).2
  · intro d j s q m hd
    obtain ⟨hdc, hd'⟩ := hold hd
    rw [List.map_append, List.mem_append, not_or]
    refine ⟨h.fresh d j s q m hd', ?_⟩
    intro hs
    obtain rfl : s = seq := by simpa using hs
    exact hdc (h.owners d c j i s q m p l hd' hc)
  · intro r hr
    rcases List.mem_append.mp hr with hr | hr
    · exact h.stamps r hr
    · obtain rfl := List.mem_singleton.mp hr
      exact ⟨p, l, h.calls c i seq p l hc, hl, rfl⟩
  · rw [List.map_append, List.nodup_append]
    refine ⟨h.nodup, by simp, ?_⟩
    intro a ha b hb
    obtain rfl : b = seq := by simpa using hb
    rintro rfl
    exact h.fresh c i a p l hc ha

/-- **Step lemma.** A step of one process keeps `Ticking`, as long as fewer than `2 ^ 62` critical sections
    have been executed. -/
theorem ticking_step {w w' : World} {e : Event} (h : Ticking w) (hd : w.draws.length < 2 ^ 62)
    (hst : Guarded InProcess step w e w') : Ticking w' := by
  obtain ⟨hok, hst⟩ := hst
  cases e with
  | boot uninit now => exact hok.elim
  | crash => exact hok.elim
  | update now =>
      obtain ⟨hidle, rfl⟩ := step_update hst
      have hbud := h.budget
      rcases update_cases w now with ⟨-, hu⟩ | ⟨n, hn, hu⟩
      · rw [hu]; exact h
      · have hspec := updateNext_spec hok (by omega) hn
        have hahead : w.current_.physiacl.toNat < n.toNat ∧ n.toNat * 2 ^ 17 ≤ 2 ^ 62 + w.draws.length := by
          rcases hspec with ⟨rfl, hgt⟩ | ⟨hlog, hn⟩
          · have : n.toNat < 2 ^ 45 := hok
            omega
          · omega
        rcases hu with ⟨-, hu⟩ | ⟨-, hu⟩ <;> rw [hu]
        · exact h.background w.file (Or.inr ⟨n, rfl⟩) (fun m hm => Option.some.inj hm ▸ hahead)
        · exact h.background w.file (Or.inr ⟨n, rfl⟩) (fun m hm => Option.some.inj hm ▸ hahead)
  | save =>
      obtain ⟨n, ⟨hb, rfl⟩ | ⟨hb, rfl⟩⟩ := step_save hst
      · rcases h.synced with hs | ⟨m, hs⟩ <;> rw [hb] at hs <;> cases hs
      · exact h.background _ (Or.inr ⟨n, rfl⟩)
          (fun m hm => h.ahead m (by rw [hb]; exact hm))
  | install =>
      obtain ⟨n, hb | hb, rfl⟩ := step_install hst
      · rcases h.synced with hs | ⟨m, hs⟩ <;> rw [hb] at hs <;> cases hs
      · exact h.install (by rw [hb]; rfl)
  | call c =>
      obtain ⟨-, rfl⟩ := step_call hst
      exact h.setCall c (by intros; simp)
  | lock c =>
      obtain ⟨i, -, rfl | ⟨hl, rfl⟩⟩ := step_lock hst
      · exact h.setCall c (by intros; simp)
      · exact h.lock c i hd hl
  | test c =>
      obtain ⟨i, seq, p, l, hc, rfl | ⟨-, hl, rfl⟩⟩ := step_test hst
      · exact h.setCall c (by intros; simp)
      · exact h.ret hc hl

/-- The critical sections of a process only accumulate. -/
theorem draws_mono {w w' : World} {e : Event} (hst : Guarded InProcess step w e w') :
    w.draws.length ≤ w'.draws.length := by
  obtain ⟨hok, hst⟩ := hst
  cases e with
  | boot uninit now => exact hok.elim
  | crash => exact hok.elim
  | update now =>
      obtain ⟨-, rfl⟩ := step_update hst
      rcases update_cases w now with ⟨-, hu⟩ | ⟨n, -, ⟨-, hu⟩ | ⟨-, hu⟩⟩ <;> rw [hu]
  | save => obtain ⟨n, ⟨-, rfl⟩ | ⟨-, rfl⟩⟩ := step_save hst <;> exact Nat.le_refl _
  | install => obtain ⟨n, -, rfl⟩ := step_install hst; exact Nat.le_refl _
  | call c => obtain ⟨-, rfl⟩ := step_call hst; exact Nat.le_refl _
  | lock c =>
      obtain ⟨i, -, rfl | ⟨-, rfl⟩⟩ := step_lock hst
      · exact Nat.le_refl _
      · simp [lock]
  | test c =>
      obtain ⟨i, seq, p, l, -, rfl | ⟨-, -, rfl⟩⟩ := step_test hst <;> exact Nat.le_refl _

/-- **Run lemma.** A run of one process with fewer than `2 ^ 62` critical sections is `Ticking`. -/
theorem ticking_run {w₀ w : World} {es : List Event} (h₀ : Ticking w₀)
    (h : Run (Guarded InProcess step) w₀ es w) (hd : w.draws.length < 2 ^ 62) : Ticking w := by
  induction h with
  | refl => exact h₀
  | tail _ hst ih =>
      have := draws_mono hst
      exact ticking_step (ih (by omega)) (by omega) hst

/-- In a ticking world the returned timestamps follow the order of their critical sections. -/
theorem Ticking.increasing {w : World} (h : Ticking w) (hd : w.draws.length < 2 ^ 62)
    {r r' : Stamp} (hr : r ∈ w.returned) (hr' : r' ∈ w.returned) (hlt : r.seq < r'.seq) : r.ts < r'.ts := by
  obtain ⟨p, l, hp, hl, hts⟩ := h.stamps r hr
  obtain ⟨p', l', hp', hl', hts'⟩ := h.stamps r' hr'
  obtain ⟨hi, hpe⟩ := List.getElem?_eq_some_iff.mp hp
  obtain ⟨hi', hpe'⟩ := List.getElem?_eq_some_iff.mp hp'
  have hbefore : Before (p, l) (p', l') := by
    rw [← hpe, ← hpe']
    exact List.pairwise_iff_getElem.mp h.sorted _ _ hi hi' hlt
  have hfit : ∀ {q m : UInt64}, (q, m) ∈ w.draws → m ≤ maxLogical →
      1 ≤ m.toNat ∧ q.toNat * 2 ^ 18 + m.toNat < 2 ^ 64 := by
    intro q m hm hml
    obtain ⟨-, hpos, hle⟩ := h.drawn (q, m) hm
    simp only at hpos hle
    omega
  have hd := hfit (hpe ▸ List.getElem_mem hi) hl
  have hd' := hfit (hpe' ▸ List.getElem_mem hi') hl'
  rw [hts, hts']
  exact hbefore.composeTS_lt hd'.1 hl hd.2 hd'.2

/-- The returned timestamps of a ticking world are pairwise distinct. -/
theorem Ticking.distinct {w : World} (h : Ticking w) (hd : w.draws.length < 2 ^ 62) :
    (w.returned.map Stamp.ts).Nodup := by
  have hpair : w.returned.Pairwise (fun r r' => r.seq ≠ r'.seq) := List.pairwise_map.mp h.nodup
  refine List.pairwise_map.mpr (hpair.imp_of_mem ?_)
  intro r r' hr hr' hne heq
  rcases Nat.lt_or_gt_of_ne hne with hlt | hlt
  · have := UInt64.lt_iff_toNat_lt.mp (h.increasing hd hr hr' hlt)
    rw [heq] at this
    omega
  · have := UInt64.lt_iff_toNat_lt.mp (h.increasing hd hr' hr hlt)
    rw [heq] at this
    omega

/-- The property of one process: the non-zero values returned by `getTimeStamp` increase strictly in the
    order of their critical sections. -/
def World.Increasing (w : World) : Prop :=
  ∀ r ∈ w.returned, ∀ r' ∈ w.returned, r.ts ≠ 0 → r'.ts ≠ 0 → r.seq < r'.seq → r.ts < r'.ts

/-- **Timestamps of one process are strictly increasing and pairwise distinct**, for any interleaving of
    `getTimeStamp` and `updateTimestamp` with fewer than `2 ^ 62` critical sections. -/
theorem getTimeStamp_increasing {file : Option UInt64} {uninit : Timestamp} {now : UInt64}
    {es : List Event} {w : World} (hnow : now.toNat < 2 ^ 45)
    (h : Run (Guarded InProcess step) (afterSync file uninit now) es w) (hd : w.draws.length < 2 ^ 62) :
    w.Increasing ∧ (w.returned.map Stamp.ts).Nodup := by
  have ht := ticking_run (afterSync_ticking hnow) h hd
  exact ⟨fun r hr r' hr' _ _ hlt => ht.increasing hd hr hr' hlt, ht.distinct hd⟩

instance (w : World) (e : Event) : Decidable (InProcess w e) := by
  cases e <;> simp only [InProcess] <;> infer_instance

/-- Two calls around an update with a clock that has jumped ahead. -/
def shortRun : List Event :=
  [.call 0, .lock 0, .call 1, .update 9, .save, .install, .lock 1, .test 1, .test 0]

theorem getTimeStamp_increasing_shortRun :
    ∃ w, Run (Guarded InProcess step) (afterSync none ⟨0, 0⟩ 5) shortRun w ∧
      w.returned = [⟨1, 1, composeTS 9 1⟩, ⟨1, 0, composeTS 5 1⟩] ∧ w.Increasing := by
  obtain ⟨w, hrun, hw⟩ : ∃ w, Run (Guarded InProcess step) (afterSync none ⟨0, 0⟩ 5) shortRun w ∧
      (w.returned, w.draws.length) = ([⟨1, 1, composeTS 9 1⟩, ⟨1, 0, composeTS 5 1⟩], 2) :=
    Run.exists_guarded_of_map (by decide)
  obtain ⟨hret, hlen⟩ := Prod.mk.inj hw
  exact ⟨w, hrun, hret, (getTimeStamp_increasing (by decide) hrun (by omega)).1⟩

/-! ### The 64-bit counter wraps

Without a bound on the number of critical sections the property fails: `2 ^ 64` of them with no update in
between bring `logical` back to where it was. -/

/-- Calls `0`, …, `n - 1`, each through its critical section and no further. -/
def flood (n : Nat) : List Event := (List.range n).flatMap (fun c => [.call c, .lock c])

theorem flood_succ (n : Nat) : flood (n + 1) = flood n ++ [.call n] ++ [.lock n] := by
  simp [flood, List.range_succ]

/-- After `flood n` the logical counter is `n` modulo `2 ^ 64`, and call `c` has drawn `c + 1`. -/
theorem flood_run (n : Nat) :
    ∃ w, Run (Guarded InProcess step) (afterSync none ⟨0, 0⟩ 1) (flood n) w ∧
      w.current_ = ⟨1, UInt64.ofNat n⟩ ∧ w.background = .idle ∧ w.draws.length = n ∧ w.returned = [] ∧
      (∀ c < n, w.calls c = .drawn 0 c 1 (UInt64.ofNat (c + 1))) ∧ ∀ c, n ≤ c → w.calls c = .out := by
  induction n with
  | zero => exact ⟨_, Run.refl, rfl, rfl, rfl, rfl, by intro c hc; omega, fun c _ => rfl⟩
  | succ n ih =>
      obtain ⟨w, hrun, hcur, hbg, hlen, hret, hdrawn, hout⟩ := ih
      let w₁ : World := { w with calls := setCall w.calls n (.loop 0) }
      have hcall : Guarded InProcess step w (.call n) w₁ := by
        refine ⟨trivial, ?_⟩
        simp [step, FunStep, next, hout n (Nat.le_refl n), hbg, w₁]
      have hlock : Guarded InProcess step w₁ (.lock n) (lock w₁ n 0) := by
        refine ⟨trivial, ?_⟩
        simp [step, FunStep, next, hbg, w₁, maxRetryCount, Background.locked]
      have hlog : w.current_.logical + 1 = UInt64.ofNat (n + 1) := by
        rw [hcur, UInt64.ofNat_add]; rfl
      refine ⟨lock w₁ n 0, ?_, ?_, hbg, ?_, hret, ?_, ?_⟩
      · rw [flood_succ]
        exact (hrun.tail hcall).tail hlock
      · show Timestamp.mk w.current_.physiacl (w.current_.logical + 1) = _
        rw [hlog, hcur]
      · show (w.draws ++ [_]).length = n + 1
        rw [List.length_append, hlen]; rfl
      · intro c hc
        show setCall (setCall w.calls n (.loop 0)) n
          (.drawn 0 w.draws.length w.current_.physiacl (w.current_.logical + 1)) c = _
        by_cases hcn : c = n
        · rw [hcn, setCall_self, hlen, hlog, hcur]
        · rw [setCall_ne _ _ hcn, setCall_ne _ _ hcn]
          exact hdrawn c (by omega)
      · intro c hc
        show setCall (setCall w.calls n (.loop 0)) n _ c = _
        rw [setCall_ne _ _ (by omega), setCall_ne _ _ (by omega)]
        exact hout c (by omega)

/-- Two critical sections `2 ^ 64` apart return the same value. -/
theorem getTimeStamp_wraps :
    ¬ ∀ (file : Option UInt64) (uninit : Timestamp) (now : UInt64) (es : List Event) (w : World),
      now.toNat < 2 ^ 45 → Run (Guarded InProcess step) (afterSync file uninit now) es w → w.Increasing := by
  intro hall
  obtain ⟨w, hrun, hcur, hbg, -, hret, hdrawn, -⟩ := flood_run (2 ^ 64 + 1)
  have hfirst : w.calls 0 = .drawn 0 0 1 1 := hdrawn 0 (by omega)
  have hlast : w.calls (2 ^ 64) = .drawn 0 (2 ^ 64) 1 1 := by
    rw [hdrawn (2 ^ 64) (by omega)]
    have : UInt64.ofNat (2 ^ 64 + 1) = 1 := by
      apply UInt64.toNat_inj.mp
      rw [UInt64.toNat_ofNat', UInt64.toNat_one, Nat.add_mod_left, Nat.one_mod_two_pow (by omega)]
    rw [this]
  have hphys : w.current_.physiacl ≠ 0 := by rw [hcur]; decide
  let w₁ : World := { w with calls := setCall w.calls 0 .out, returned := [⟨w.epoch, 0, composeTS 1 1⟩] }
  let w₂ : World :=
    { w₁ with
      calls := setCall w₁.calls (2 ^ 64) .out
      returned := [⟨w.epoch, 0, composeTS 1 1⟩, ⟨w.epoch, 2 ^ 64, composeTS 1 1⟩] }
  have hmax : ¬ (1 : UInt64) > maxLogical := by decide
  have ht₁ : Guarded InProcess step w (.test 0) w₁ := by
    refine ⟨trivial, ?_⟩
    simp only [step, FunStep, next, hfirst, test, if_neg hphys, if_neg hmax, hret]
    rfl
  have hlast₁ : w₁.calls (2 ^ 64) = .drawn 0 (2 ^ 64) 1 1 := by
    show setCall w.calls 0 .out (2 ^ 64) = _
    rw [setCall_ne _ _ (by omega)]
    exact hlast
  have ht₂ : Guarded InProcess step w₁ (.test (2 ^ 64)) w₂ := by
    refine ⟨trivial, ?_⟩
    have hphys₁ : w₁.current_.physiacl ≠ 0 := hphys
    simp only [step, FunStep, next, hlast₁, test, if_neg hphys₁, if_neg hmax]
    rfl
  have hinc := hall none ⟨0, 0⟩ 1 _ w₂ (by decide) ((hrun.tail ht₁).tail ht₂)
  have hts : composeTS 1 1 ≠ 0 := by decide
  have hlt := hinc ⟨w.epoch, 0, composeTS 1 1⟩ (by simp [w₂]) ⟨w.epoch, 2 ^ 64, composeTS 1 1⟩
    (by simp [w₂]) hts hts (by show 0 < 2 ^ 64; omega)
  exact absurd (UInt64.lt_iff_toNat_lt.mp hlt) (Nat.lt_irrefl _)

end Oracle
end DDBMS
