import DDBMS.Transaction.LockView

/-!
# `Transaction.LockSound` — invariants of all transactions from the steps of one

`Sound` collects what every reachable state has when the transactions in use have distinct ids: the queues are well formed,
and who waits for a request owns it. From a sound state each step is one step of its actor and leaves the views of the others
alone (`forall_view_step`), so what the steps of `OwnStep` keep is kept for every transaction in every interleaving.
-/

namespace DDBMS
namespace Lock_manager

/-! ## What every reachable state has -/

/-- Requests stay allocated, to the same transaction. -/
def KeepsOwners (w w' : World) : Prop := ∀ t l r, w.Owns t l r → w'.Owns t l r

section Owners

variable {w w' w'' : World} {c t r : Nat} {m : LockMode} {l : Lock_data_id} {nw : Bool} {site : Site} {e : Event}

theorem KeepsOwners.trans (h : KeepsOwners w w') (h' : KeepsOwners w' w'') : KeepsOwners w w'' :=
  fun t l r hr => h' t l r (h t l r hr)

theorem keepsOwners_setQueue {q : LockRequestQueue} (halloc : (w.lock_map_ l).allocated ≤ q.allocated)
    (hid : ∀ a, a < (w.lock_map_ l).allocated → (q.requests a).txn_id_ = ((w.lock_map_ l).requests a).txn_id_) :
    KeepsOwners w (w.setQueue l q) := by
  rintro u k a ⟨hlt, hu⟩
  unfold World.Owns
  by_cases hk : k = l
  · subst hk
    rw [setQueue_self]
    exact ⟨by omega, (hid a hlt).trans hu⟩
  · rw [setQueue_ne q hk]
    exact ⟨hlt, hu⟩

theorem keepsOwners_txns (hids : SameIds w w'.txns) (hmap : w'.lock_map_ = w.lock_map_) : KeepsOwners w w' := by
  rintro u k a ⟨hlt, hu⟩
  unfold World.Owns
  rw [hmap]
  exact ⟨hlt, hu.trans (hids u).symm⟩

theorem keepsOwners_emplace_back {id : txn_id_t} : KeepsOwners w (w.setQueue l ((w.lock_map_ l).emplace_back id m)) := by
  apply keepsOwners_setQueue
  · exact Nat.le_succ _
  · intro a ha
    rw [emplace_back_ne _ m (by omega)]

theorem keepsOwners_upgrade : KeepsOwners w (w.setQueue l ((w.lock_map_ l).upgrade r m)) := by
  apply keepsOwners_setQueue
  · exact Nat.le_refl _
  intro a _
  by_cases har : a = r
  · subst har
    rw [upgrade_self]
  · rw [upgrade_ne m har]

theorem keepsOwners_granted : KeepsOwners w (w.granted site c t m l r) := by
  have hq : ∀ q : LockRequestQueue, q.allocated = (w.lock_map_ l).allocated →
      q.requests = ((w.lock_map_ l).grant r).requests → KeepsOwners w ((w.setQueue l q).returnTrue c t m l) := by
    intro q halloc hreq
    have hset : KeepsOwners w (w.setQueue l q) := by
      apply keepsOwners_setQueue (Nat.le_of_eq halloc.symm)
      intro a _
      rw [hreq]
      by_cases har : a = r
      · subst har
        rw [grant_self]
      · rw [grant_ne har]
    exact hset.trans (keepsOwners_txns (sameIds_setTxn rfl) rfl)
  apply hq
  · split <;> rfl
  · split <;> rfl

theorem keepsOwners_abort : KeepsOwners w (w.abort c t) := keepsOwners_txns (sameIds_setTxn rfl) rfl

theorem WaitsOwn.set (h : WaitsOwn w) (hk : KeepsOwners w w') {x : Call} (hcalls : w'.calls = w.calls.set c x)
    (hx : ∀ site t m l r, x = .waiting site t m l r → w'.Owns t l r) : WaitsOwn w' := by
  intro d site u n k a hd
  rw [hcalls] at hd
  rcases Slots.get_set hd with ⟨-, hnew⟩ | ⟨-, hold⟩
  · exact hx site u n k a hnew.symm
  · exact hk u k a (h d site u n k a hold)

theorem WaitsOwn.await (h : WaitsOwn w) (hr : w.Owns t l r) : WaitsOwn (w.await nw site c t m l r) := by
  rcases await_cases nw w site c t m l r with he | ⟨-, -, he⟩ | he <;> rw [he]
  · exact h.set keepsOwners_abort rfl (fun _ _ _ _ _ hx => by cases hx)
  · exact h.set keepsOwners_granted rfl (fun _ _ _ _ _ hx => by cases hx)
  · refine h.set (keepsOwners_txns (fun _ => rfl) rfl) rfl ?_
    intro site' u n k a hx
    cases hx
    exact hr

theorem WaitsOwn.enter (h : WaitsOwn w) (hq : QueuesOk w) : WaitsOwn (w.enter nw c t m l) := by
  have hkeep : ∀ {v : World}, KeepsOwners w v → v.calls = w.calls → WaitsOwn v := by
    intro v hv hcalls d site u n k a hd
    rw [hcalls] at hd
    exact hv u k a (h d site u n k a hd)
  unfold World.enter
  dsimp only
  split
  · split
    · exact h.set (keepsOwners_txns (fun _ => rfl) rfl) rfl (fun _ _ _ _ _ hx => by cases hx)
    · exact h.set (keepsOwners_txns (sameIds_setTxn rfl) rfl) rfl (fun _ _ _ _ _ hx => by cases hx)
  · rename_i hf
    obtain ⟨hmem, hid, -⟩ := found_pending hf
    exact h.await ⟨(hq l).alloc _ hmem, hid⟩
  · exact h.set keepsOwners_abort rfl (fun _ _ _ _ _ hx => by cases hx)
  · exact h.set keepsOwners_abort rfl (fun _ _ _ _ _ hx => by cases hx)
  · rename_i r hf
    obtain ⟨hmem, hid, -⟩ := found_upgrade hf
    exact (hkeep keepsOwners_upgrade rfl).await (keepsOwners_upgrade t l r ⟨(hq l).alloc r hmem, hid⟩)
  · refine (hkeep keepsOwners_emplace_back rfl).await ?_
    unfold World.Owns
    rw [setQueue_self, emplace_back_self]
    exact ⟨Nat.lt_succ_self _, rfl⟩

theorem waitsOwn_step (hw : WaitsOwn w) (hq : QueuesOk w) (hst : step nw w e w') : WaitsOwn w' := by
  cases step_cases hst with
  | @lock t m l =>
      obtain ⟨txns, x, he, hids, hx⟩ := lock_cases w t m l
      have htxns : KeepsOwners w { w with txns := txns } := keepsOwners_txns hids rfl
      rw [he]
      intro c site u n k a hc
      rcases Slots.get_snoc hc with hc | ⟨-, rfl⟩
      · exact htxns u k a (hw c site u n k a hc)
      · rcases hx with hx | hx <;> cases hx
  | enter => exact hw.enter hq
  | @wake c t r site m l hc => exact hw.await (hw c site t m l r hc)
  | @unlock t l =>
      obtain ⟨txns, hids, ⟨-, he⟩ | ⟨a, -, he⟩⟩ := unlock_cases w t l
      · have htxns : KeepsOwners w { w with txns := txns } := keepsOwners_txns hids rfl
        rw [he]
        intro c site u n k b hc
        exact htxns u k b (hw c site u n k b hc)
      · rw [he]
        intro c site u n k b hc
        have hdrop : KeepsOwners w (w.setQueue l ((w.lock_map_ l).drop a)) :=
          keepsOwners_setQueue (Nat.le_refl _) (fun _ _ => rfl)
        have htxns : KeepsOwners (w.setQueue l ((w.lock_map_ l).drop a)) { w.setQueue l ((w.lock_map_ l).drop a) with
            txns := txns, history := w.history ++ [.unlocked (w.txns t).txn_id_ l] } := keepsOwners_txns hids rfl
        exact hdrop.trans htxns u k b (hw c site u n k b hc)
  | @setState t s =>
      intro c site u n k b hc
      have hset : KeepsOwners w (w.setState t s) := keepsOwners_txns (sameIds_setTxn rfl) rfl
      exact hset u k b (hw c site u n k b hc)

end Owners

/-! ## A set of transactions with distinct ids -/

/-- The transaction that a caller names. -/
def Event.txn? : Event → Option Nat
  | .lock t _ _ | .unlock t _ | .setState t _ => some t
  | .enter _ | .wake _ => none

/-- The transactions of the run are those of `used`. -/
def Event.UsedBy (used : Finset Nat) (e : Event) : Prop := ∀ t ∈ e.txn?, t ∈ used

instance (used : Finset Nat) (e : Event) : Decidable (e.UsedBy used) :=
  inferInstanceAs (Decidable (∀ t ∈ e.txn?, t ∈ used))

/-- The transactions have distinct ids, and the calls in progress are theirs. -/
structure Sound (used : Finset Nat) (w : World) : Prop where
  queues : QueuesOk w
  waits : WaitsOwn w
  ids : Set.InjOn (fun t => (w.txns t).txn_id_) used
  calls : ∀ x ∈ w.calls, ∀ t ∈ x.txn?, t ∈ used

section Used

variable {used : Finset Nat} {w w' : World} {t u : Nat} {nw : Bool} {e : Event}

theorem exists_actor (hst : step nw w e w') : ∃ t, w.actor e = some t := by
  cases step_cases hst with
  | lock | unlock | setState => exact ⟨_, rfl⟩
  | enter hc => exact ⟨_, World.actor_enter hc⟩
  | wake hc => exact ⟨_, World.actor_wake hc⟩

theorem Sound.actor_mem (h : Sound used w) (hst : step nw w e w') (hused : e.UsedBy used) (hactor : w.actor e = some t) :
    t ∈ used := by
  cases step_cases hst with
  | lock | unlock | setState => exact hused t hactor
  | enter hc =>
      obtain rfl := Option.some.inj ((World.actor_enter hc).symm.trans hactor)
      exact h.calls _ (List.mem_of_getElem? hc) _ rfl
  | wake hc =>
      obtain rfl := Option.some.inj ((World.actor_wake hc).symm.trans hactor)
      exact h.calls _ (List.mem_of_getElem? hc) _ rfl

theorem Sound.ids_ne (h : Sound used w) (ht : t ∈ used) (hu : u ∈ used) (hne : u ≠ t) :
    (w.txns t).txn_id_ ≠ (w.txns u).txn_id_ :=
  fun heq => hne (h.ids ht hu heq).symm

/-- A critical section moves its own call on. -/
theorem await_calls (nw : Bool) (w : World) (site : Site) (c t : Nat) (m : LockMode) (l : Lock_data_id) (r : Nat) :
    ∃ y, (w.await nw site c t m l r).calls = w.calls.set c y ∧ ∀ u ∈ y.txn?, u = t := by
  rcases await_cases nw w site c t m l r with he | ⟨-, -, he⟩ | he <;> rw [he]
  · exact ⟨.returned false, rfl, fun u hu => by cases hu⟩
  · exact ⟨.returned true, rfl, fun u hu => by cases hu⟩
  · exact ⟨.waiting site t m l r, rfl, fun u hu => (Option.some.inj hu).symm⟩

theorem enter_calls (nw : Bool) (w : World) (c t : Nat) (m : LockMode) (l : Lock_data_id) :
    ∃ y, (w.enter nw c t m l).calls = w.calls.set c y ∧ ∀ u ∈ y.txn?, u = t := by
  have hreturned : ∀ b, ∃ y, w.calls.set c (.returned b) = w.calls.set c y ∧ ∀ u ∈ y.txn?, u = t :=
    fun b => ⟨.returned b, rfl, fun u hu => by cases hu⟩
  unfold World.enter
  dsimp only
  split
  · split
    · exact hreturned false
    · exact hreturned true
  · exact await_calls nw w _ c t m l _
  · exact hreturned false
  · exact hreturned false
  · exact await_calls nw (w.setQueue l _) _ c t m l _
  · exact await_calls nw (w.setQueue l _) _ c t m l _

/-- **Step lemma.** -/
theorem sound_step (h : Sound used w) (hused : e.UsedBy used) (hst : step nw w e w') : Sound used w' := by
  have hset : ∀ {c t : Nat} {y : Call}, t ∈ used → (∀ u ∈ y.txn?, u = t) → ∀ x ∈ w.calls.set c y, ∀ u ∈ x.txn?, u ∈ used := by
    intro c t y ht hy x hx u hu
    rcases List.mem_or_eq_of_mem_set hx with hx | rfl
    · exact h.calls x hx u hu
    · rw [hy u hu]
      exact ht
  refine ⟨queuesOk_step h.queues hst, waitsOwn_step h.waits h.queues hst, ?_, ?_⟩
  · intro u hu v hv huv
    exact h.ids hu hv ((sameIds_step hst u).symm.trans (huv.trans (sameIds_step hst v)))
  · cases step_cases hst with
    | @lock t m l =>
        obtain ⟨txns, x, he, -, hx⟩ := lock_cases w t m l
        rw [he]
        intro y hy u hu
        rcases List.mem_append.mp hy with hy | hy
        · exact h.calls y hy u hu
        · rw [List.mem_singleton.mp hy] at hu
          rcases hx with rfl | rfl
          · cases hu
          · obtain rfl : t = u := Option.some.inj hu
            exact hused t rfl
    | @enter c t m l hc =>
        obtain ⟨y, hcalls, hy⟩ := enter_calls nw w c t m l
        rw [hcalls]
        exact hset (h.calls _ (List.mem_of_getElem? hc) t rfl) hy
    | @wake c t r site m l hc =>
        obtain ⟨y, hcalls, hy⟩ := await_calls nw w site c t m l r
        rw [hcalls]
        exact hset (h.calls _ (List.mem_of_getElem? hc) t rfl) hy
    | @unlock t l =>
        obtain ⟨txns, -, ⟨-, he⟩ | ⟨a, -, he⟩⟩ := unlock_cases w t l <;> rw [he] <;> exact h.calls
    | setState => exact h.calls

/-- What a step keeps for its actor holds of every transaction. -/
theorem forall_view_step {P : View → Prop} (h : Sound used w) (hused : e.UsedBy used) (hP : ∀ t ∈ used, P (w.view t))
    (hst : step nw w e w')
    (hown : ∀ t ∈ used, ∀ b v', w.actor e = some t → OwnStep (w.view t) e b v' → P v') : ∀ t ∈ used, P (w'.view t) := by
  intro t ht
  obtain ⟨u, hactor⟩ := exists_actor hst
  have hu := h.actor_mem hst hused hactor
  have hsees := sees_step h.queues h.waits hst hactor
  by_cases htu : t = u
  · subst htu
    obtain ⟨b, hb, -⟩ := hsees.own
    exact hown t ht b _ hactor hb
  · rw [hsees.others t (h.ids_ne hu ht htu)]
    exact hP t ht

end Used

theorem sound_init {used : Finset Nat} {txns : Nat → Transaction}
    (hids : Set.InjOn (fun t => (txns t).txn_id_) (used : Set Nat)) : Sound used (World.init txns) := by
  refine ⟨queuesOk_init txns, ?_, hids, fun x hx => absurd hx List.not_mem_nil⟩
  intro c site t m l r hc
  cases hc

end Lock_manager
end DDBMS
