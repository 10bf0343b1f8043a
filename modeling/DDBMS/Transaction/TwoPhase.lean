import DDBMS.Transaction.LockSound

/-!
# `Transaction.TwoPhase` — no lock after an unlock

A transaction issues its calls one after the other (`SequentialOk`), and no code outside the lock manager puts it back to
`DEFAULT` or `GROWING`.

* **Before.** A transaction with a request or a call in progress is past `DEFAULT` (`Begun`), so an `Unlock` that finds a
  request moves it on from `GROWING`, and one that finds none aborts it.
* **From then on** the transaction is past `GROWING` and inside no call (`Released`). The head of every later call refuses
  it, and nothing else returns true.
-/

namespace DDBMS
namespace Lock_manager

/-- `t` is inside no lock call. -/
def World.Idle (w : World) (t : Nat) : Prop := ∀ x ∈ w.calls, x.txn? ≠ some t

instance (w : World) (t : Nat) : Decidable (w.Idle t) := inferInstanceAs (Decidable (∀ x ∈ w.calls, x.txn? ≠ some t))

/-- Each transaction issues its calls sequentially. -/
def SequentialOk (w : World) : Event → Prop
  | .lock t _ _ | .unlock t _ => w.Idle t
  | _ => True

instance (w : World) (e : Event) : Decidable (SequentialOk w e) :=
  match e with
  | .lock t _ _ | .unlock t _ => inferInstanceAs (Decidable (w.Idle t))
  | .enter _ | .wake _ | .setState _ _ => isTrue trivial

/-- No other code starts the growing phase. -/
def Event.LeavesGrowing : Event → Prop
  | .setState _ s => s ≠ .default ∧ s ≠ .growing
  | _ => True

instance (e : Event) : Decidable e.LeavesGrowing :=
  match e with
  | .setState _ s => inferInstanceAs (Decidable (s ≠ .default ∧ s ≠ .growing))
  | .lock _ _ _ | .enter _ | .wake _ | .unlock _ _ => isTrue trivial

def TwoPhaseOk (used : Finset Nat) (w : World) (e : Event) : Prop :=
  e.UsedBy used ∧ SequentialOk w e ∧ e.LeavesGrowing

instance (used : Finset Nat) (w : World) (e : Event) : Decidable (TwoPhaseOk used w e) :=
  inferInstanceAs (Decidable (_ ∧ _ ∧ _))

theorem idle_view {w : World} {t : Nat} : w.Idle t ↔ ∀ c, (w.view t).calls c = none := by
  unfold World.Idle World.view
  constructor
  · intro h c
    rw [Option.filter_eq_none_iff]
    intro x hx
    have hne := h x (List.mem_of_getElem? hx)
    simpa using hne
  · intro h x hx hxt
    obtain ⟨c, hc⟩ := List.mem_iff_getElem?.mp hx
    have hnone := Option.filter_eq_none_iff.mp (h c) x hc
    simp [hxt] at hnone

/-! ## The two phases of one transaction -/

section Phases

variable {v v' : View} {c t r : Nat} {m : LockMode} {l : Lock_data_id} {site : Site} {b : Bool} {e : Event}

theorem OwnAwait.state (h : OwnAwait v site c t m l r b v') : v'.txn.state_ = v.txn.state_ ∨ v'.txn.state_ = .aborted := by
  cases h with
  | abort => exact Or.inr rfl
  | granted => exact Or.inl rfl
  | blocked => exact Or.inl rfl

/-- A call in progress changes the state to `ABORTED` only. -/
theorem OwnEnter.state (h : OwnEnter v c t m l b v') : v'.txn.state_ = v.txn.state_ ∨ v'.txn.state_ = .aborted := by
  cases h with
  | held => exact Or.inl rfl
  | heldAborted => exact Or.inl rfl
  | pending _ _ _ hawait => exact hawait.state
  | refused => exact Or.inr rfl
  | upgrade _ hawait => exact hawait.state
  | new _ hawait => exact hawait.state

/-- A transaction with a request or a call in progress is past `DEFAULT`. -/
def Begun (v : View) : Prop := (∃ l, v.requests l ≠ []) ∨ (∃ c, v.calls c ≠ none) → v.txn.state_ ≠ .default

theorem begun_of_state (h : v'.txn.state_ = v.txn.state_ ∨ v'.txn.state_ = .aborted) (hv : v.txn.state_ ≠ .default) :
    Begun v' := by
  intro _
  rcases h with h | h <;> rw [h]
  · exact hv
  · decide

theorem unlockedTxn_state (x : Transaction) (found : Bool) : (unlockedTxn x l found).state_ =
    if found = false then .aborted else if x.state_ = .growing then .shrinking else x.state_ := rfl

theorem begun_step (h : Begun v) (hst : OwnStep v e b v') (hok : e.LeavesGrowing) : Begun v' := by
  cases hst with
  | refused => exact fun _ => by simp [View.setState]
  | passes => exact fun _ => by simp [View.setState, View.setCall]
  | enter hc henter =>
      have hbegun := h (Or.inr ⟨_, by rw [hc]; exact Option.some_ne_none _⟩)
      exact begun_of_state henter.state hbegun
  | wake hc hawait =>
      have hbegun := h (Or.inr ⟨_, by rw [hc]; exact Option.some_ne_none _⟩)
      exact begun_of_state hawait.state hbegun
  | @unlock t l =>
      intro hv'
      unfold View.unlock at hv' ⊢
      cases hfind : (v.requests l).find? (fun x => x.2.granted_) with
      | none => simp [unlockedTxn_state]
      | some x =>
          have hne : v.requests l ≠ [] := by
            intro hnil
            simp [hnil] at hfind
          have hbegun := h (Or.inl ⟨l, hne⟩)
          simp only [unlockedTxn_state]
          split
          · decide
          · split
            · decide
            · exact hbegun
  | setState => exact fun _ => hok.1

/-- Past `GROWING`, and inside no call. -/
structure Released (v : View) : Prop where
  notDefault : v.txn.state_ ≠ .default
  notGrowing : v.txn.state_ ≠ .growing
  idle : ∀ c, v.calls c = none

/-- **The first unlock.** -/
theorem released_unlock (h : Begun v) (hidle : ∀ c, v.calls c = none) : Released (v.unlock l) := by
  unfold View.unlock
  cases hfind : (v.requests l).find? (fun x => x.2.granted_) with
  | none => exact ⟨by simp [unlockedTxn_state], by simp [unlockedTxn_state], hidle⟩
  | some x =>
      have hne : v.requests l ≠ [] := by
        intro hnil
        simp [hnil] at hfind
      have hbegun := h (Or.inl ⟨l, hne⟩)
      by_cases hg : v.txn.state_ = .growing
      · exact ⟨by simp [unlockedTxn_state, hg], by simp [unlockedTxn_state, hg], hidle⟩
      · exact ⟨by simp [unlockedTxn_state, hg, hbegun], by simp [unlockedTxn_state, hg], hidle⟩

theorem released_step (h : Released v) (hst : OwnStep v e b v') (hok : e.LeavesGrowing) : Released v' := by
  cases hst with
  | refused => exact ⟨by simp [View.setState], by simp [View.setState], h.idle⟩
  | passes hstate =>
      rcases hstate with hd | hg
      · exact absurd hd h.notDefault
      · exact absurd hg h.notGrowing
  | enter hc => rw [h.idle] at hc; cases hc
  | wake hc => rw [h.idle] at hc; cases hc
  | @unlock t l => exact released_unlock (fun _ => h.notDefault) h.idle
  | setState => exact ⟨hok.1, hok.2, h.idle⟩

end Phases

/-! ## Every interleaving -/

section World

variable {used : Finset Nat} {w w' : World} {t : Nat} {nw : Bool} {e : Event}

/-- What a step adds to the history: the lock of its actor, at the end of a call in progress, or an unlock. -/
theorem history_step (hst : step nw w e w') : ∃ post, w'.history = w.history ++ post ∧
    ∀ T m l, .locked T m l ∈ post → ∃ t c, w.actor e = some t ∧ (w.txns t).txn_id_ = T ∧ (w.view t).calls c ≠ none := by
  have hnone : w'.history = w.history → ∃ post, w'.history = w.history ++ post ∧ ∀ T m l, Act.locked T m l ∈ post →
      ∃ t c, w.actor e = some t ∧ (w.txns t).txn_id_ = T ∧ (w.view t).calls c ≠ none := by
    intro h
    exact ⟨[], by rw [h, List.append_nil], fun T m l hmem => absurd hmem List.not_mem_nil⟩
  have hone : ∀ {c t : Nat} {m l y}, w.calls[c]? = some y → y.txn? = some t → w.actor e = some t →
      w'.history = w.history ++ [.locked (w.txns t).txn_id_ m l] → ∃ post, w'.history = w.history ++ post ∧
      ∀ T m l, Act.locked T m l ∈ post → ∃ t c, w.actor e = some t ∧ (w.txns t).txn_id_ = T ∧ (w.view t).calls c ≠ none := by
    intro c t m l y hc hy hactor h
    refine ⟨_, h, ?_⟩
    intro T m' l' hmem
    obtain ⟨rfl, -, -⟩ := Act.locked.inj (List.mem_singleton.mp hmem)
    exact ⟨t, c, hactor, rfl, by rw [view_calls_self hc hy]; exact Option.some_ne_none _⟩
  have hawait : ∀ (v : World) site (c t : Nat) m l r, v.history = w.history → (v.txns t).txn_id_ = (w.txns t).txn_id_ →
      (v.await nw site c t m l r).history = w.history ∨
        (v.await nw site c t m l r).history = w.history ++ [.locked (w.txns t).txn_id_ m l] := by
    intro v site c t m l r hh hid
    rcases await_cases nw v site c t m l r with he | ⟨-, -, he⟩ | he <;> rw [he]
    · exact Or.inl hh
    · right
      simp [World.granted, World.returnTrue, World.setQueue, World.setTxn, Transaction.add_lock_set, hh, hid]
    · exact Or.inl hh
  cases step_cases hst with
  | lock =>
      apply hnone
      obtain ⟨txns, x, he, -, -⟩ := lock_cases w _ _ _
      rw [he]
  | @enter c t m l hc =>
      have hactor := World.actor_enter hc
      have hcases : (w.enter nw c t m l).history = w.history ∨
          (w.enter nw c t m l).history = w.history ++ [.locked (w.txns t).txn_id_ m l] := by
        unfold World.enter
        dsimp only
        split
        · split
          · exact Or.inl rfl
          · right
            simp [World.returnTrue, World.setTxn, Transaction.add_lock_set]
        · exact hawait w _ c t m l _ rfl rfl
        · exact Or.inl rfl
        · exact Or.inl rfl
        · exact hawait (w.setQueue l _) _ c t m l _ rfl rfl
        · exact hawait (w.setQueue l _) _ c t m l _ rfl rfl
      rcases hcases with h | h
      · exact hnone h
      · exact hone hc rfl hactor h
  | @wake c t r site m l hc =>
      have hactor := World.actor_wake hc
      rcases hawait w site c t m l r rfl rfl with h | h
      · exact hnone h
      · exact hone hc rfl hactor h
  | @unlock t l =>
      obtain ⟨txns, -, ⟨-, he⟩ | ⟨a, -, he⟩⟩ := unlock_cases w t l
      · exact hnone (by rw [he])
      · refine ⟨[.unlocked (w.txns t).txn_id_ l], by rw [he], ?_⟩
        intro T m k hmem
        cases List.mem_singleton.mp hmem
  | setState => exact hnone rfl

/-- Every transaction of a reachable state. -/
theorem begun_run {txns : Nat → Transaction} (hids : Set.InjOn (fun t => (txns t).txn_id_) (used : Set Nat))
    {es : List Event} (h : Run (Guarded (TwoPhaseOk used) (step nw)) (World.init txns) es w) :
    Sound used w ∧ ∀ t ∈ used, Begun (w.view t) := by
  refine h.invariant (I := fun w => Sound used w ∧ ∀ t ∈ used, Begun (w.view t)) ?_ ⟨sound_init hids, ?_⟩
  · rintro s e s' ⟨hsound, hbegun⟩ ⟨⟨hused, -, hgrowing⟩, hst⟩
    refine ⟨sound_step hsound hused hst, forall_view_step hsound hused hbegun hst ?_⟩
    intro t ht b v' _ hown
    exact begun_step (hbegun t ht) hown hgrowing
  · intro t _ hany
    rcases hany with ⟨l, hl⟩ | ⟨c, hc⟩
    · exact absurd rfl hl
    · simp [World.view, World.init] at hc

/-- Past its first unlock, a transaction adds no lock to the history. -/
structure Shrunk (w₁ w : World) (t : Nat) : Prop where
  released : Released (w.view t)
  history : ∃ post, w.history = w₁.history ++ post ∧ ∀ m k, .locked (w.txns t).txn_id_ m k ∉ post

theorem shrunk_step {w₁ : World} (h : Shrunk w₁ w t) (hsound : Sound used w) (ht : t ∈ used)
    (hst : Guarded (TwoPhaseOk used) (step nw) w e w') : Shrunk w₁ w' t := by
  obtain ⟨⟨hused, -, hgrowing⟩, hst⟩ := hst
  obtain ⟨u, hactor⟩ := exists_actor hst
  have hu := hsound.actor_mem hst hused hactor
  have hsees := sees_step hsound.queues hsound.waits hst hactor
  refine ⟨?_, ?_⟩
  · by_cases htu : t = u
    · subst htu
      obtain ⟨b, hb, -⟩ := hsees.own
      exact released_step h.released hb hgrowing
    · rw [hsees.others t (hsound.ids_ne hu ht htu)]
      exact h.released
  · obtain ⟨post, hpost, hnone⟩ := h.history
    obtain ⟨post', hpost', hlocked⟩ := history_step hst
    refine ⟨post ++ post', by rw [hpost', hpost, List.append_assoc], ?_⟩
    intro m k hmem
    rw [sameIds_step hst t] at hmem
    rcases List.mem_append.mp hmem with hmem | hmem
    · exact hnone m k hmem
    · -- a call that returns true is one in progress, and `t` has none
      obtain ⟨v, c, hv, hid, hcall⟩ := hlocked _ m k hmem
      obtain rfl : v = t := hsound.ids (hsound.actor_mem hst hused hv) ht hid
      exact hcall (h.released.idle c)

/-- **Two-phase locking.** After an `UnLock*` call of a transaction has returned, no `Lock*` call of it returns true, and its
    state is never `DEFAULT` or `GROWING` again. -/
theorem two_phase {txns : Nat → Transaction} (hids : Set.InjOn (fun t => (txns t).txn_id_) (used : Set Nat))
    {es es₁ : List Event} {w₁ w₂ : World} {l : Lock_data_id}
    (h : Run (Guarded (TwoPhaseOk used) (step nw)) (World.init txns) es w)
    (hunlock : Guarded (TwoPhaseOk used) (step nw) w (.unlock t l) w₁)
    (h₁ : Run (Guarded (TwoPhaseOk used) (step nw)) w₁ es₁ w₂) :
    (w₂.txns t).state_ ≠ .default ∧ (w₂.txns t).state_ ≠ .growing ∧
      ∃ post, w₂.history = w₁.history ++ post ∧ ∀ m k, .locked (w₂.txns t).txn_id_ m k ∉ post := by
  obtain ⟨hsound, hbegun⟩ := begun_run hids h
  have hsound₁ := sound_step hsound hunlock.1.1 hunlock.2
  obtain ⟨⟨hused, hidle, -⟩, hst⟩ := hunlock
  have ht : t ∈ used := hused t rfl
  have hshrunk : Shrunk w₁ w₁ t := by
    obtain rfl : w.unlock t l = w₁ := Option.some.inj hst
    refine ⟨?_, [], by simp, fun _ _ => List.not_mem_nil⟩
    rw [view_unlock]
    exact released_unlock (hbegun t ht) (idle_view.mp hidle)
  obtain ⟨-, hfinal⟩ := h₁.invariant (I := fun w => Sound used w ∧ Shrunk w₁ w t)
    (fun _ _ _ hi hst => ⟨sound_step hi.1 hst.1.1 hst.2, shrunk_step hi.2 hi.1 ht hst⟩) ⟨hsound₁, hshrunk⟩
  exact ⟨hfinal.released.notDefault, hfinal.released.notGrowing, hfinal.history⟩

end World

theorem someTxns_injOn : Set.InjOn (fun t => (someTxns t).txn_id_) ((Finset.range 3 : Finset Nat) : Set Nat) := by
  intro t ht u hu h
  have hlt : t < 3 := by simpa using ht
  have hlu : u < 3 := by simpa using hu
  interval_cases t <;> interval_cases u <;> first | rfl | exact absurd h (by decide)

/-- Transaction 1 reads a row and unlocks it; 2 reads it, and 1 asks for it again. -/
def lockOnce : List Event := [LockRow 0 .shared 1 1 1, .enter 0, LockRow 1 .shared 1 1 1]

def lockAgain : List Event := [.enter 1, LockRow 0 .exlucsive 1 1 1, UnLockRow 1 1 1 1]

theorem two_phase_lockAgain :
    ∃ w w₁ w₂, Run (Guarded (TwoPhaseOk (Finset.range 3)) (step false)) (World.init someTxns) lockOnce w ∧
      Guarded (TwoPhaseOk (Finset.range 3)) (step false) w (UnLockRow 0 1 1 1) w₁ ∧
      Run (Guarded (TwoPhaseOk (Finset.range 3)) (step false)) w₁ lockAgain w₂ ∧
      (w₂.txns 0).state_ ≠ .default ∧ (w₂.txns 0).state_ ≠ .growing ∧
      ∃ post, w₂.history = w₁.history ++ post ∧ ∀ m k, .locked (w₂.txns 0).txn_id_ m k ∉ post := by
  obtain ⟨w₂, hrun, -⟩ : ∃ w₂, Run (Guarded (TwoPhaseOk (Finset.range 3)) (step false)) (World.init someTxns)
      (lockOnce ++ [UnLockRow 0 1 1 1] ++ lockAgain) w₂ ∧ w₂.calls = [.returned true, .returned true, .returned false] :=
    Run.exists_guarded_of_map (f := World.calls) (by decide)
  obtain ⟨w₁, hrun₁, h₂⟩ := hrun.split
  obtain ⟨w, h, hunlock⟩ := hrun₁.snoc_inv
  exact ⟨w, w₁, w₂, h, hunlock, h₂, two_phase someTxns_injOn h hunlock h₂⟩

end Lock_manager
end DDBMS
