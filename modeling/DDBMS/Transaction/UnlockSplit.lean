import DDBMS.Transaction.LockSets

/-!
# `Transaction.UnlockSplit` — `UnLock*` as two steps

`UnLockTable`, `UnLockPartition` and `UnLockRow` run `Unlock` under the latch of the queue and erase the item from the lock sets
after it, under no latch. Here these are two steps, and anything may run between them, calls of the same transaction from other
threads too.

* **The settled view** of a transaction is its view with the erases still to come done (`SplitWorld.settled`).
* **Simulation.** For a transaction that issues its calls one after the other each step is nothing, or a step of `OwnStep`, on
  the settled view (`settled_step`), whatever the others do and however their calls overlap.
-/

namespace DDBMS
namespace Lock_manager

/-! ## The system -/

/-- The lock manager, with the `UnLock*` calls that are past `Unlock` and have the item still to erase from the lock sets. -/
structure SplitWorld where
  world : World
  erasing : List (Nat × Lock_data_id) := []

inductive SplitEvent where
  /-- a step of a `Lock*` call, or of other code that sets a state -/
  | call (e : Event)
  /-- an `UnLock*` call, up to the end of `Unlock` -/
  | Unlock (t : Nat) (l : Lock_data_id)
  /-- the rest of the `UnLock*` call at that position -/
  | erase (i : Nat)
  deriving DecidableEq, Repr

/-- The step of the lock manager that this one is, or is the beginning of. -/
def SplitEvent.event? : SplitEvent → Option Event
  | .call e => some e
  | .Unlock t l => some (.unlock t l)
  | .erase _ => none

namespace SplitWorld

def init (txns : Nat → Transaction) : SplitWorld := { world := World.init txns }

def next (enable_no_wait : Bool) (s : SplitWorld) : SplitEvent → Option SplitWorld
  | .call (.unlock _ _) => none
  | .call e => do
    let w ← Lock_manager.next enable_no_wait s.world e
    some { s with world := w }
  | .Unlock t l => some { world := s.world.Unlock t l, erasing := s.erasing ++ [(t, l)] }
  | .erase i => do
    let (t, l) ← s.erasing[i]?
    some { world := s.world.setTxn t ((s.world.txns t).erase_lock_sets l), erasing := s.erasing.eraseIdx i }

def step (enable_no_wait : Bool) : SplitWorld → SplitEvent → SplitWorld → Prop := FunStep (next enable_no_wait)

/-- `t` has no item left to erase. -/
def Erased (s : SplitWorld) (t : Nat) : Prop := ∀ x ∈ s.erasing, x.1 ≠ t

instance (s : SplitWorld) (t : Nat) : Decidable (s.Erased t) := inferInstanceAs (Decidable (∀ x ∈ s.erasing, x.1 ≠ t))

/-- `t` is inside no lock or unlock call. -/
def Idle (s : SplitWorld) (t : Nat) : Prop := s.world.Idle t ∧ s.Erased t

instance (s : SplitWorld) (t : Nat) : Decidable (s.Idle t) := inferInstanceAs (Decidable (_ ∧ _))

/-- The transaction object that a step is about. -/
def actor (s : SplitWorld) (e : SplitEvent) : Option Nat := e.event?.bind s.world.actor

/-- The view of `t` with the erases still to come done. -/
def settled (s : SplitWorld) (t : Nat) : View :=
  { s.world.view t with
    txn := { s.world.txns t with
      get_lock_set := fun ty m =>
        ((s.world.txns t).get_lock_set ty m).filter fun k => ¬ (ty = k.type_ ∧ (t, k) ∈ s.erasing) } }

end SplitWorld

/-- The transactions of the run are those of `used`. -/
def SplitEvent.UsedBy (used : Finset Nat) (e : SplitEvent) : Prop := ∀ x ∈ e.event?, x.UsedBy used

instance (used : Finset Nat) (e : SplitEvent) : Decidable (e.UsedBy used) :=
  inferInstanceAs (Decidable (∀ x ∈ e.event?, x.UsedBy used))

/-- `t` starts a lock or unlock call only when it is inside none. -/
def SequentialFor (t : Nat) (s : SplitWorld) : SplitEvent → Prop
  | .call (.lock u _ _) | .Unlock u _ => u = t → s.Idle t
  | _ => True

instance (t : Nat) (s : SplitWorld) (e : SplitEvent) : Decidable (SequentialFor t s e) :=
  match e with
  | .call (.lock u _ _) | .Unlock u _ => inferInstanceAs (Decidable (u = t → s.Idle t))
  | .call (.enter _) | .call (.wake _) | .call (.unlock _ _) | .call (.setState _ _) | .erase _ => isTrue trivial

/-! ## What the steps do -/

/-- A step is one of these. -/
inductive SplitStep (nw : Bool) (s : SplitWorld) : SplitEvent → SplitWorld → Prop where
  | call {x : Event} {w : World} (hx : ∀ u l, x ≠ .unlock u l) (hst : step nw s.world x w) :
      SplitStep nw s (.call x) { s with world := w }
  | Unlock {u : Nat} {l : Lock_data_id} :
      SplitStep nw s (.Unlock u l) { world := s.world.Unlock u l, erasing := s.erasing ++ [(u, l)] }
  | erase {i u : Nat} {l : Lock_data_id} (hi : s.erasing[i]? = some (u, l)) :
      SplitStep nw s (.erase i)
        { world := s.world.setTxn u ((s.world.txns u).erase_lock_sets l), erasing := s.erasing.eraseIdx i }

theorem split_cases {nw : Bool} {s s' : SplitWorld} {e : SplitEvent} (hst : SplitWorld.step nw s e s') : SplitStep nw s e s' := by
  cases e with
  | call x =>
      have hmap : (∀ u l, x ≠ .unlock u l) → ((Lock_manager.next nw s.world x).bind fun w => some { s with world := w }) = some s' →
          SplitStep nw s (.call x) s' := by
        intro hx hbind
        obtain ⟨w, hw, hs'⟩ := Option.bind_eq_some_iff.mp hbind
        obtain rfl := Option.some.inj hs'
        exact .call hx hw
      cases x with
      | unlock => cases hst
      | lock | enter | wake | setState => exact hmap (fun u l h => by cases h) hst
  | Unlock u l =>
      obtain rfl := Option.some.inj hst
      exact .Unlock
  | erase i =>
      obtain ⟨⟨u, l⟩, hi, hs'⟩ := Option.bind_eq_some_iff.mp hst
      obtain rfl := Option.some.inj hs'
      exact .erase hi

section Halves

variable {used : Finset Nat} {w w' : World} {t : Nat} {l : Lock_data_id}

theorem Unlock_calls : (w.Unlock t l).calls = w.calls := by
  obtain ⟨txns, -, ⟨-, he⟩ | ⟨a, -, he⟩⟩ := unlock_cases w t l <;>
    exact (congrArg World.calls he : (w.unlock t l).calls = _)

/-- `Sound` is not about the lock sets. -/
theorem Sound.congr (h : Sound used w) (hmap : w'.lock_map_ = w.lock_map_) (hcalls : w'.calls = w.calls)
    (hids : ∀ u, (w'.txns u).txn_id_ = (w.txns u).txn_id_) : Sound used w' := by
  refine ⟨?_, ?_, ?_, ?_⟩
  · unfold QueuesOk
    rw [hmap]
    exact h.queues
  · intro c site u m k r hc
    rw [hcalls] at hc
    unfold World.Owns
    rw [hmap, hids]
    exact h.waits c site u m k r hc
  · intro u hu v hv huv
    exact h.ids hu hv ((hids u).symm.trans (huv.trans (hids v)))
  · rw [hcalls]
    exact h.calls

theorem sound_erase (h : Sound used w) : Sound used (w.setTxn t ((w.txns t).erase_lock_sets l)) :=
  h.congr rfl rfl (sameIds_setTxn rfl)

theorem sound_Unlock (h : Sound used w) (ht : t ∈ used) : Sound used (w.Unlock t l) := by
  have hunlock : Sound used (w.unlock t l) := by
    have hstep : step false w (.unlock t l) (w.unlock t l) := rfl
    refine sound_step h ?_ hstep
    intro u hu
    obtain rfl := Option.some.inj hu
    exact ht
  have hids : SameIds (w.Unlock t l) (w.unlock t l).txns := sameIds_setTxn rfl
  exact hunlock.congr rfl rfl (fun u => (hids u).symm)

end Halves

/-! ## The settled view -/

section Settled

variable {used : Finset Nat} {s s' : SplitWorld} {t u i : Nat} {l : Lock_data_id} {e : SplitEvent} {nw : Bool}

theorem settled_erased (h : s.Erased t) : s.settled t = s.world.view t := by
  have hnone : ∀ k, (t, k) ∉ s.erasing := fun k hk => h _ hk rfl
  simp only [SplitWorld.settled, hnone, and_false, not_false_eq_true, Finset.filter_true]
  rfl

theorem settled_congr (hview : s'.world.view t = s.world.view t) (her : ∀ k, (t, k) ∈ s'.erasing ↔ (t, k) ∈ s.erasing) :
    s'.settled t = s.settled t := by
  have htxn : s'.world.txns t = s.world.txns t := congrArg View.txn hview
  simp only [SplitWorld.settled, hview, htxn, her]

/-- The erases of a call are in the settled view already. -/
theorem settled_erase (hi : s.erasing[i]? = some (t, l)) : SplitWorld.settled
    { world := s.world.setTxn t ((s.world.txns t).erase_lock_sets l), erasing := s.erasing.eraseIdx i } u = s.settled u := by
  obtain ⟨hlt, hget⟩ := List.getElem?_eq_some_iff.mp hi
  have hmem : ∀ x, x ∈ s.erasing ↔ x = (t, l) ∨ x ∈ s.erasing.eraseIdx i := by
    intro x
    rw [← (List.getElem_cons_eraseIdx_perm hlt).mem_iff, List.mem_cons, hget]
  by_cases hu : u = t
  · subst hu
    apply View.ext
    · simp only [SplitWorld.settled, setTxn_self, Transaction.erase_lock_sets]
      congr 1
      funext ty m
      ext k
      simp only [hmem]
      split <;> simp only [Finset.mem_filter, Finset.mem_erase] <;> grind
    · simp [SplitWorld.settled, World.view, Transaction.erase_lock_sets]
    · rfl
  · refine settled_congr (view_setTxn_ne hu) (fun k => ?_)
    rw [hmem]
    simp [hu]

/-- The latched half of an unlock is the whole unlock for the settled view. -/
theorem settled_Unlock (h : s.Erased t) : SplitWorld.settled
    { world := s.world.Unlock t l, erasing := s.erasing ++ [(t, l)] } t = (s.settled t).unlock l := by
  have hnone : ∀ k, (t, k) ∈ s.erasing ++ [(t, l)] ↔ k = l := by
    intro k
    have hk : (t, k) ∉ s.erasing := fun hk => h _ hk rfl
    simp [hk]
  have hview : (s.world.unlock t l).view t =
      { (s.world.Unlock t l).view t with txn := ((s.world.Unlock t l).txns t).erase_lock_sets l } := view_setTxn_self rfl
  rw [settled_erased h, ← view_unlock, hview]
  apply View.ext
  · simp only [SplitWorld.settled, Transaction.erase_lock_sets, hnone]
    congr 1
    funext ty m
    ext k
    split <;> simp only [Finset.mem_filter, Finset.mem_erase] <;> grind
  · rfl
  · rfl

/-! ## Sequential transactions -/

/-- What a transaction has in every run in which it issues its calls one after the other. -/
structure InSequence (used : Finset Nat) (s : SplitWorld) (t : Nat) : Prop where
  sound : Sound used s.world
  apart : ¬ s.Erased t → s.world.Idle t

/-- A step for the settled view of `t`. -/
inductive SettledStep (s s' : SplitWorld) (t : Nat) (e : SplitEvent) : Prop where
  | same (h : s'.settled t = s.settled t)
  | own {x : Event} {b : Bool} (hx : e.event? = some x) (hactor : s.world.actor x = some t)
      (hown : OwnStep (s.settled t) x b (s'.settled t))
      (hidle : (∃ u m l, x = .lock u m l) ∨ (∃ u l, x = .unlock u l) → ∀ c, (s.settled t).calls c = none)
      (hfail : b = true →
        ∃ c : Nat, s'.world.calls[c]? = some (.returned false) ∧ s.world.calls[c]? ≠ some (.returned false))

/-- Inside no call, a transaction enters one by starting it. -/
theorem OwnStep.idle {v v' : View} {x : Event} {b : Bool} (h : OwnStep v x b v') (hidle : ∀ c, v.calls c = none)
    (hx : ∀ u m l, x ≠ .lock u m l) : ∀ c, v'.calls c = none := by
  cases h with
  | refused | passes => exact absurd rfl (hx _ _ _)
  | enter hc => rw [hidle] at hc; cases hc
  | wake hc => rw [hidle] at hc; cases hc
  | @unlock u l =>
      unfold View.unlock
      split <;> exact hidle
  | setState => exact hidle

/-- An unlock of another transaction, up to the end of `Unlock`. -/
theorem view_Unlock_ne {w : World} (hu : (w.txns u).txn_id_ ≠ (w.txns t).txn_id_) : (w.Unlock u l).view t = w.view t := by
  have hne : t ≠ u := ne_of_ids hu
  have herase : (w.unlock u l).view t = (w.Unlock u l).view t := view_setTxn_ne hne
  rw [← herase, view_unlock_ne hu]

/-- A transaction with erases to come runs no call; other code may set its state. -/
theorem settled_setState {st : TransactionState} :
    SplitWorld.settled { s with world := s.world.setState t st } t = (s.settled t).setState st := by
  have hview : (s.world.setState t st).view t = (s.world.view t).setState st := view_setState st
  apply View.ext
  · simp only [SplitWorld.settled, setState_self]
    rfl
  · show ((s.world.setState t st).view t).requests = ((s.world.view t).setState st).requests
    rw [hview]
  · rfl

theorem idle_of_not_erased (h : InSequence used s t) (hne : ¬ s.Erased t) : ∀ c, (s.world.view t).calls c = none :=
  idle_view.mp (h.apart hne)

/-- **Step lemma.** A step is nothing for the settled view, or a step of the transaction on it. -/
theorem settled_step (h : InSequence used s t) (ht : t ∈ used) (hused : e.UsedBy used) (hseq : SequentialFor t s e)
    (hst : SplitWorld.step nw s e s') : SettledStep s s' t e := by
  cases split_cases hst with
  | @call x w hx hstep =>
      obtain ⟨u, hactor⟩ := exists_actor hstep
      have hu := h.sound.actor_mem hstep (hused x rfl) hactor
      have hsees := sees_step h.sound.queues h.sound.waits hstep hactor
      by_cases hut : u = t
      · subst hut
        by_cases her : s.Erased u
        · obtain ⟨b, hown, hfail⟩ := hsees.own
          have her' : SplitWorld.Erased { s with world := w } u := her
          refine .own rfl hactor (b := b) ?_ ?_ hfail
          · rw [settled_erased her, settled_erased her']
            exact hown
          · rw [settled_erased her]
            rintro (⟨v, m, l, rfl⟩ | ⟨v, l, rfl⟩)
            · exact idle_view.mp (hseq (Option.some.inj hactor)).1
            · exact absurd rfl (hx v l)
        · have hidle := idle_of_not_erased h her
          cases step_cases hstep with
          | lock => exact absurd (hseq (Option.some.inj hactor)).2 her
          | enter hc =>
              rw [World.actor_enter hc] at hactor
              obtain rfl := Option.some.inj hactor
              exact absurd (hidle _) (by rw [view_calls_self hc rfl]; exact Option.some_ne_none _)
          | wake hc =>
              rw [World.actor_wake hc] at hactor
              obtain rfl := Option.some.inj hactor
              exact absurd (hidle _) (by rw [view_calls_self hc rfl]; exact Option.some_ne_none _)
          | unlock => exact absurd rfl (hx _ _)
          | setState =>
              obtain rfl := Option.some.inj hactor
              refine .own rfl rfl (b := false) ?_ ?_ (fun hb => by cases hb)
              · rw [settled_setState]
                exact .setState
              · rintro (⟨v, m, l, hv⟩ | ⟨v, l, hv⟩) <;> cases hv
      · refine .same (settled_congr ?_ (fun _ => Iff.rfl))
        exact hsees.others t (h.sound.ids_ne hu ht fun htu => hut htu.symm)
  | @Unlock u l =>
      by_cases hut : u = t
      · subst hut
        obtain ⟨hidle, her⟩ := hseq rfl
        refine .own rfl rfl (b := false) ?_ ?_ (fun hb => by cases hb)
        · rw [settled_Unlock her]
          exact .unlock
        · rw [settled_erased her]
          exact fun _ => idle_view.mp hidle
      · have hu : u ∈ used := hused (.unlock u l) rfl u rfl
        refine .same (settled_congr ?_ ?_)
        · exact view_Unlock_ne (h.sound.ids_ne hu ht fun htu => hut htu.symm)
        · intro k
          have hne : (t, k) ≠ (u, l) := fun hk => hut (congrArg Prod.fst hk).symm
          simp [hne]
  | erase hi => exact .same (settled_erase hi)

theorem inSequence_step (h : InSequence used s t) (ht : t ∈ used) (hused : e.UsedBy used) (hseq : SequentialFor t s e)
    (hst : SplitWorld.step nw s e s') : InSequence used s' t := by
  cases split_cases hst with
  | @call x w hx hstep =>
      refine ⟨sound_step h.sound (hused x rfl) hstep, fun her => ?_⟩
      have hidle := idle_of_not_erased h her
      obtain ⟨u, hactor⟩ := exists_actor hstep
      have hu := h.sound.actor_mem hstep (hused x rfl) hactor
      have hsees := sees_step h.sound.queues h.sound.waits hstep hactor
      apply idle_view.mpr
      by_cases hut : u = t
      · subst hut
        obtain ⟨b, hown, -⟩ := hsees.own
        refine hown.idle hidle ?_
        rintro v m l rfl
        exact her (hseq (Option.some.inj hactor)).2
      · rw [hsees.others t (h.sound.ids_ne hu ht fun htu => hut htu.symm)]
        exact hidle
  | @Unlock u l =>
      refine ⟨sound_Unlock h.sound (hused (.unlock u l) rfl u rfl), fun her => ?_⟩
      have hidle : s.world.Idle t := by
        by_cases hut : u = t
        · exact (hseq hut).1
        · apply h.apart
          intro her'
          apply her
          intro x hx
          rcases List.mem_append.mp hx with hx | hx
          · exact her' x hx
          · rw [List.mem_singleton.mp hx]
            exact hut
      unfold World.Idle
      rw [Unlock_calls]
      exact hidle
  | erase hi =>
      refine ⟨sound_erase h.sound, fun her => h.apart fun her' => her ?_⟩
      intro x hx
      exact her' x (List.mem_of_mem_eraseIdx hx)

theorem inSequence_init {ids : Nat → txn_id_t} (hids : Set.InjOn ids (used : Set Nat)) :
    InSequence used (SplitWorld.init (newTxns ids)) t :=
  ⟨sound_init hids, fun h => absurd (fun _ hx => absurd hx List.not_mem_nil) h⟩

end Settled

end Lock_manager
end DDBMS
