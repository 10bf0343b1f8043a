import DDBMS.Lib.Serial
import DDBMS.Transaction.LockEffective
import DDBMS.Transaction.TwoPhase

/-!
# `Transaction.Serializable` — what the locks are for

Transactions read and write keys of a store while they hold locks of the lock manager on the way to the key: on its row, on
the partition of the row or on the table. Which items these are is up to the caller (`path`); the lock manager checks none of
it. One of the locks covers the access, the ones above it announce it.

The lock manager then is a machine of two-phase locking (`Serial.Locking`), step by step (`simulates_lock`): what a transaction
holds are the modes of its granted requests (`View.held`). A grant acquires, an `Unlock` gives up, and so does an upgrade
that fails, since it clears `granted_` before it looks. After each of these the transaction is past `GROWING` and inside no
call (`Released`), so it acquires nothing more.

Every run is so serializable (`serializable`): the transactions one after the other, in the order of their last grants, get
the same answers and leave the same store. An upgrade that blocks gives a lock up and acquires one later; without no-wait the
upgrades must be granted at once.
-/

namespace DDBMS
namespace Lock_manager

/-! ## What a transaction holds -/

/-- The mode of the granted request in a list. -/
def heldOf (xs : List (Nat × LockRequest)) : Option LockMode :=
  (xs.find? fun x => x.2.granted_).map fun x => x.2.lock_mode_

/-- The modes of the granted requests. -/
def View.held (v : View) (l : Lock_data_id) : Option LockMode := heldOf (v.requests l)

section Held

variable {v v' : View} {c t r : Nat} {m : LockMode} {l : Lock_data_id} {x : LockRequest}

@[simp] theorem heldOf_nil : heldOf [] = none := rfl

theorem heldOf_singleton : heldOf [(r, x)] = if x.granted_ then some x.lock_mode_ else none := by
  unfold heldOf
  cases hg : x.granted_ <;> simp [hg]

@[simp] theorem held_setCall (y : Option Call) : (v.setCall c y).held = v.held := rfl

@[simp] theorem held_setState (s : TransactionState) : (v.setState s).held = v.held := rfl

@[simp] theorem held_abort : (v.abort c).held = v.held := rfl

@[simp] theorem held_returnTrue : (v.returnTrue c m l).held = v.held := rfl

theorem held_setRequests (xs : List (Nat × LockRequest)) :
    (v.setRequests l xs).held = Function.update v.held l (heldOf xs) := by
  funext k
  by_cases hk : k = l
  · subst hk
    simp [View.held, View.setRequests]
  · simp [View.held, View.setRequests, hk]

/-- A list of requests that holds the same. -/
theorem held_setRequests_eq {xs : List (Nat × LockRequest)} (h : heldOf xs = v.held l) : (v.setRequests l xs).held = v.held := by
  rw [held_setRequests, h, Function.update_eq_self]

end Held

/-! ## What a step changes of it -/

/-- A transaction has at most one request for an item, and is inside at most one call. -/
structure Single (v : View) : Prop where
  request : ∀ l, v.requests l = [] ∨ ∃ r x, v.requests l = [(r, x)]
  call : ∀ c d, v.calls c ≠ none → v.calls d ≠ none → c = d

/-- What becomes of the locks of the actor of a step. -/
inductive Moves (v v' : View) : Prop where
  | same (h : v'.held = v.held)
  | gains (l : Lock_data_id) (m : LockMode) (h : v'.held = Function.update v.held l (some m))
      (hcovers : ∀ n, v.held l = some n → covers m n) (hbusy : ∃ c, v.calls c ≠ none)
  | loses (l : Lock_data_id) (h : v'.held = Function.update v.held l none) (hreleased : Released v')

/-- A lock is there no more. -/
def Lost (v v' : View) : Prop := ∃ l m, v.held l = some m ∧ v'.held l = none

section Moves

variable {v v' : View} {c t r : Nat} {m : LockMode} {l : Lock_data_id} {site : Site} {b : Bool} {e : Event}

/-- **A wait** grants the request or leaves it. -/
theorem moves_await (hone : v.requests l = [] ∨ ∃ a y, v.requests l = [(a, y)]) (hbusy : ∃ c, v.calls c ≠ none)
    (h : OwnAwait v site c t m l r b v') : Moves v v' := by
  cases h with
  | abort => exact .same rfl
  | blocked => exact .same rfl
  | granted =>
      have hheld : (v.granted c m l r).held =
          Function.update v.held l (heldOf ((v.requests l).map (rewriteAt r LockRequest.grantedNow))) :=
        held_setRequests _
      rcases hone with hnil | ⟨a, y, hone⟩
      · refine .same (hheld.trans ?_)
        rw [hnil, Function.update_eq_self_iff]
        simp [View.held, hnil]
      · have hold : v.held l = if y.granted_ then some y.lock_mode_ else none := by
          rw [View.held, hone, heldOf_singleton]
        rw [hone] at hheld
        by_cases har : a = r
        · have hnew : heldOf ([(a, y)].map (rewriteAt r LockRequest.grantedNow)) = some y.lock_mode_ := by
            simp [rewriteAt, har, heldOf, LockRequest.grantedNow]
          rw [hnew] at hheld
          refine .gains l y.lock_mode_ hheld ?_ hbusy
          intro n hn
          rw [hold] at hn
          split at hn
          · obtain rfl := Option.some.inj hn
            exact covers_refl _
          · cases hn
        · refine .same (hheld.trans ?_)
          rw [Function.update_eq_self_iff, View.held, hone]
          simp [rewriteAt, har]

/-- The locks of a view that differs in nothing else. -/
theorem Moves.congr {w : View} (h : Moves v v') (hheld : v.held = w.held) (hcalls : v.calls = w.calls) : Moves w v' := by
  cases h with
  | same h => exact .same (h.trans hheld)
  | gains l m h hcovers hbusy => exact .gains l m (hheld ▸ h) (hheld ▸ hcovers) (hcalls ▸ hbusy)
  | loses l h hreleased => exact .loses l (hheld ▸ h) hreleased

/-- **An unlock** gives up the lock on its item, if there is one. -/
theorem moves_unlock (hsingle : Single v) (hbegun : Begun v) (hidle : ∀ c, v.calls c = none) : Moves v (v.unlock l) := by
  have hreleased := released_unlock (l := l) hbegun hidle
  unfold View.unlock at hreleased ⊢
  cases hfind : (v.requests l).find? (fun x => x.2.granted_) with
  | none => exact .same rfl
  | some x =>
      rw [hfind] at hreleased
      refine .loses l ?_ hreleased
      refine (held_setRequests _).trans (congrArg _ ?_)
      rcases hsingle.request l with hnil | ⟨a, y, hone⟩
      · rw [hnil] at hfind
        cases hfind
      · rw [hone] at hfind ⊢
        have hxy : x = (a, y) := List.mem_singleton.mp (List.mem_of_find?_eq_some hfind)
        simp [hxy]

end Moves

/-- The call that a thread goes on with inside. -/
def Event.enters : Event → Option Nat
  | .enter c => some c
  | _ => none

/-- What a call that has not looked yet asks for. -/
def Call.asks : Call → Option (Nat × LockMode × Lock_data_id)
  | .entering t m l => some (t, m, l)
  | _ => none

/-- An upgrade of a granted request does not block: it is granted at once, or no-wait makes it fail. -/
def NoUpgradeBlocks (nw : Bool) (w : World) (e : Event) : Prop :=
  ∀ c ∈ e.enters, ∀ x ∈ w.calls[c]?, ∀ a ∈ x.asks, nw = true ∨ w.UpgradesAtOnce a.1 a.2.1 a.2.2

instance (nw : Bool) (w : World) (e : Event) : Decidable (NoUpgradeBlocks nw w e) :=
  inferInstanceAs
    (Decidable (∀ c ∈ e.enters, ∀ x ∈ w.calls[c]?, ∀ a ∈ x.asks, nw = true ∨ w.UpgradesAtOnce a.1 a.2.1 a.2.2))

section Step

variable {w w' : World} {c t r : Nat} {m : LockMode} {l : Lock_data_id} {nw : Bool} {e : Event} {x : LockRequest}

/-- **An upgrade** clears `granted_` first. If it is granted at once the new mode covers the old one; if it fails the
    transaction is aborted. -/
theorem moves_upgrade (hc : w.calls[c]? = some (.entering t m l)) (hsingle : Single (w.view t))
    (hown : (w.lock_map_ l).own (w.txns t).txn_id_ = [(r, x)]) (hcovers : covers m x.lock_mode_)
    (hok : nw = true ∨ (x.granted_ = true → (w.txns t).state_ ≠ .aborted ∧
      ((w.lock_map_ l).upgrade r m).checkQueueCompatible r = true)) :
    Moves (w.view t) (((w.setQueue l ((w.lock_map_ l).upgrade r m)).await nw .upgrade c t m l r).view t) := by
  have hlt : c < w.calls.length := (List.getElem?_eq_some_iff.mp hc).1
  have hcall : (w.view t).calls c ≠ none := by
    rw [view_calls_self hc rfl]
    exact Option.some_ne_none _
  have hold : (w.view t).held l = if x.granted_ then some x.lock_mode_ else none := by
    rw [View.held, show (w.view t).requests l = _ from hown, heldOf_singleton]
  have hrequests : ((w.setQueue l ((w.lock_map_ l).upgrade r m)).view t).requests l =
      [(r, { x with lock_mode_ := m, granted_ := false })] := by
    rw [view_setQueue, own_upgrade, hown]
    simp [View.setRequests, rewriteAt, LockRequest.upgraded]
  have hheld : ((w.setQueue l ((w.lock_map_ l).upgrade r m)).view t).held = Function.update (w.view t).held l none := by
    rw [view_setQueue, held_setRequests, own_upgrade, hown]
    simp [rewriteAt, LockRequest.upgraded, heldOf]
  -- without the old lock, if there was one
  have hlost : ∀ v' : View, v'.held = Function.update (w.view t).held l none → (x.granted_ = true → Released v') →
      Moves (w.view t) v' := by
    intro v' hv' hreleased
    by_cases hg : x.granted_ = true
    · exact .loses l hv' (hreleased hg)
    · refine .same (hv'.trans ?_)
      rw [Function.update_eq_self_iff, hold, if_neg hg]
  have habort : Moves (w.view t) (((w.setQueue l ((w.lock_map_ l).upgrade r m)).abort c t).view t) := by
    rw [view_abort (w := w.setQueue l _) hlt]
    refine hlost _ (by rw [held_abort, hheld]) (fun _ => ⟨by simp [View.abort, View.setState, View.setCall],
      by simp [View.abort, View.setState, View.setCall], fun d => ?_⟩)
    by_cases hd : d = c
    · simp [View.abort, View.setCall, hd]
    · simp only [View.abort, View.setCall, hd, if_false]
      by_contra hne
      exact hd (hsingle.call d c hne hcall)
  unfold World.await
  split
  · exact habort
  · rename_i hs
    split
    · -- granted at once
      rw [view_granted (w := w.setQueue l _) hlt]
      refine .gains l m ?_ ?_ ⟨c, hcall⟩
      · refine (held_setRequests _).trans ?_
        rw [hheld, hrequests, Function.update_idem]
        simp [rewriteAt, LockRequest.grantedNow, heldOf]
      · intro n hn
        rw [hold] at hn
        split at hn
        · obtain rfl := Option.some.inj hn
          exact hcovers
        · cases hn
    · rename_i hcompat
      split
      · exact habort
      · rename_i hwait
        rw [view_setCall (w := w.setQueue l _) hlt]
        refine hlost _ (by rw [held_setCall, hheld]) (fun hg => ?_)
        rcases hok with hnw | hok
        · exact absurd hnw hwait
        · rw [setQueue_self] at hcompat
          exact absurd (hok hg).2 hcompat

/-- **The first critical section of a call.** -/
theorem moves_enter (hq : QueuesOk w) (hc : w.calls[c]? = some (.entering t m l)) (hsingle : Single (w.view t))
    (hok : nw = true ∨ w.UpgradesAtOnce t m l) : Moves (w.view t) ((w.enter nw c t m l).view t) := by
  have hlt : c < w.calls.length := (List.getElem?_eq_some_iff.mp hc).1
  have hnew : Call.entering t m l ≠ .returned false := fun h => by cases h
  have hbusy : ∃ c, (w.view t).calls c ≠ none := by
    refine ⟨c, ?_⟩
    rw [view_calls_self hc rfl]
    exact Option.some_ne_none _
  have habort : Moves (w.view t) ((w.abort c t).view t) := by
    rw [view_abort hlt]
    exact .same rfl
  have hfound := foundOwn (q := w.lock_map_ l) (T := (w.txns t).txn_id_) (m := m)
  unfold World.enter
  dsimp only
  generalize hf : checkSameTxnLockRequest (w.lock_map_ l) (w.txns t).txn_id_ m = found at hfound
  cases hfound with
  | held =>
      dsimp only
      split
      · rw [view_setCall hlt]
        exact .same rfl
      · rw [view_returnTrue hlt]
        exact .same rfl
  | pending h =>
      have hsees : Sees (OwnAwait (w.view t) .same c t m l _) w (w.await nw .same c t m l _) t :=
        sees_await hc rfl hnew (own_head_id h)
      obtain ⟨b, hb, -⟩ := hsees.own
      exact moves_await (hsingle.request l) hbusy hb
  | upgradeConflict => exact habort
  | incompatibleUpgrade => exact habort
  | @upgrade r x ys h =>
      have hys : ys = [] := by
        rcases hsingle.request l with hnil | ⟨a, y, hone⟩
        · exact absurd (hnil.symm.trans h) (by simp)
        · exact (List.cons.inj (hone.symm.trans h)).2.symm
      subst hys
      obtain ⟨-, -, hcovers⟩ := found_upgrade hf
      have hx : (w.lock_map_ l).requests r = x := (mem_own.mp (show (r, x) ∈ (w.lock_map_ l).own _ by rw [h]; simp)).2.1
      rw [hx] at hcovers
      refine moves_upgrade hc hsingle h hcovers (hok.imp_right fun hup hg => ?_)
      unfold World.UpgradesAtOnce at hup
      rw [hf] at hup
      obtain ⟨hs, hall⟩ := hup (by rw [hx]; exact hg)
      refine ⟨hs, checkQueueCompatible_iff.mpr ?_⟩
      intro a ha har hga
      rw [upgrade_ne m har] at hga ⊢
      rw [upgrade_self]
      have := hall a ha har hga
      rwa [isLockCompatible_eq] at this
  | notFound h =>
      have hself : ((w.setQueue l ((w.lock_map_ l).emplace_back (w.txns t).txn_id_ m)).view t).requests l =
          [((w.lock_map_ l).allocated, ⟨(w.txns t).txn_id_, m, false⟩)] := by
        rw [view_setQueue, own_emplace_back (hq l), h]
        simp [View.setRequests]
      set w₁ := w.setQueue l ((w.lock_map_ l).emplace_back (w.txns t).txn_id_ m) with hw₁
      have hsees : Sees (OwnAwait (w₁.view t) .new c t m l (w.lock_map_ l).allocated) w₁
          (w₁.await nw .new c t m l (w.lock_map_ l).allocated) t := by
        refine sees_await hc rfl hnew ?_
        rw [hw₁, setQueue_self, emplace_back_self]
        rfl
      obtain ⟨b, hb, -⟩ := hsees.own
      refine (moves_await (Or.inr ⟨_, _, hself⟩) hbusy hb).congr ?_ rfl
      rw [view_setQueue, own_emplace_back (hq l), h]
      refine held_setRequests_eq ?_
      rw [View.held, show (w.view t).requests l = [] from h]
      simp [heldOf]

/-- Granted requests of different transactions go together. -/
theorem held_compatible {u : Nat} {n : LockMode} (hq : QueuesOk w) (hids : (w.txns t).txn_id_ ≠ (w.txns u).txn_id_)
    (ht : (w.view t).held l = some m) (hu : (w.view u).held l = some n) : compatible m n = true := by
  have hrequest : ∀ {v : Nat} {o : LockMode}, (w.view v).held l = some o → ∃ a ∈ (w.lock_map_ l).request_queue_,
      ((w.lock_map_ l).requests a).granted_ = true ∧ ((w.lock_map_ l).requests a).lock_mode_ = o ∧
      ((w.lock_map_ l).requests a).txn_id_ = (w.txns v).txn_id_ := by
    intro v o ho
    obtain ⟨⟨a, y⟩, hfind, rfl⟩ := Option.map_eq_some_iff.mp ho
    obtain ⟨hmem, hy, hid⟩ := mem_own.mp (List.mem_of_find?_eq_some hfind)
    have hg : y.granted_ = true := List.find?_some (p := fun x : Nat × LockRequest => x.2.granted_) hfind
    exact ⟨a, hmem, by rw [hy]; exact hg, by rw [hy], by rw [hy]; exact hid⟩
  obtain ⟨a, ha, hga, rfl, hida⟩ := hrequest ht
  obtain ⟨b, hb, hgb, rfl, hidb⟩ := hrequest hu
  refine (hq l).compat a ha b hb ?_ hga hgb
  rintro rfl
  exact hids (hida.symm.trans hidb)

end Step

/-! ## One request, one call -/

section Single

variable {v v' : View} {c t r : Nat} {m : LockMode} {l : Lock_data_id} {site : Site} {b : Bool} {e : Event}

theorem Single.setRequests (h : Single v) {xs : List (Nat × LockRequest)} (hone : xs = [] ∨ ∃ r x, xs = [(r, x)]) :
    Single (v.setRequests l xs) := by
  refine ⟨fun k => ?_, h.call⟩
  by_cases hk : k = l
  · simpa [View.setRequests, hk] using hone
  · simpa [View.setRequests, hk] using h.request k

/-- The call in progress moves on. -/
theorem Single.setCall (h : Single v) (hc : v.calls c ≠ none) (y : Option Call) : Single (v.setCall c y) := by
  refine ⟨h.request, ?_⟩
  have hold : ∀ d, (v.setCall c y).calls d ≠ none → d = c := by
    intro d hd
    by_cases hdc : d = c
    · exact hdc
    · simp only [View.setCall, hdc, if_false] at hd
      exact h.call d c hd hc
  intro d d' hd hd'
  rw [hold d hd, hold d' hd']

theorem Single.setState (h : Single v) (s : TransactionState) : Single (v.setState s) := ⟨h.request, h.call⟩

theorem Single.returnTrue (h : Single v) (hc : v.calls c ≠ none) : Single (v.returnTrue c m l) :=
  ⟨(h.setCall hc none).request, (h.setCall hc none).call⟩

theorem Single.rewrite (h : Single v) (f : LockRequest → LockRequest) :
    Single (v.setRequests l ((v.requests l).map (rewriteAt r f))) := by
  refine h.setRequests ?_
  rcases h.request l with hnil | ⟨a, y, hone⟩
  · rw [hnil]
    exact Or.inl rfl
  · rw [hone]
    exact Or.inr ⟨_, _, rfl⟩

theorem Single.await (h : Single v) (hc : v.calls c ≠ none) (hst : OwnAwait v site c t m l r b v') : Single v' := by
  cases hst with
  | abort => exact (h.setState .aborted).setCall hc none
  | granted => exact (h.rewrite LockRequest.grantedNow).returnTrue hc
  | blocked => exact h.setCall hc _

theorem Single.enter (h : Single v) (hc : v.calls c ≠ none) (hst : OwnEnter v c t m l b v') : Single v' := by
  cases hst with
  | held => exact h.returnTrue hc
  | heldAborted => exact h.setCall hc none
  | pending _ _ _ hawait => exact h.await hc hawait
  | refused => exact (h.setState .aborted).setCall hc none
  | upgrade _ hawait => exact (h.rewrite _).await hc hawait
  | new _ hawait => exact (h.setRequests (Or.inr ⟨_, _, rfl⟩)).await hc hawait

theorem single_step (h : Single v) (hst : OwnStep v e b v') (hidle : (∃ t m l, e = .lock t m l) → ∀ c, v.calls c = none) :
    Single v' := by
  cases hst with
  | refused => exact h.setState .aborted
  | @passes c t m l =>
      have hnone := hidle ⟨t, m, l, rfl⟩
      refine ⟨h.request, ?_⟩
      have hold : ∀ d, ((v.setState .growing).setCall c (some (.entering t m l))).calls d ≠ none → d = c := by
        intro d hd
        by_contra hdc
        simp only [View.setCall, hdc, if_false] at hd
        exact hd (hnone d)
      intro d d' hd hd'
      rw [hold d hd, hold d' hd']
  | enter hc henter => exact h.enter (by rw [hc]; exact Option.some_ne_none _) henter
  | wake hc hawait => exact h.await (by rw [hc]; exact Option.some_ne_none _) hawait
  | @unlock t l =>
      unfold View.unlock
      split
      · exact ⟨h.request, h.call⟩
      · rename_i x hfind
        have hone : (v.requests l).erase x = [] ∨ ∃ r y, (v.requests l).erase x = [(r, y)] := by
          rcases h.request l with hnil | ⟨a, y, hone⟩
          · rw [hnil]
            exact Or.inl rfl
          · rw [hone] at hfind ⊢
            have hxy : x = (a, y) := List.mem_singleton.mp (List.mem_of_find?_eq_some hfind)
            simp [hxy]
        exact ⟨(h.setRequests hone).request, h.call⟩
  | setState => exact h.setState _

end Single

/-! ## What the actor of a step does -/

section Actor

variable {used : Finset Nat} {w w' : World} {t : Nat} {nw : Bool} {e : Event}

theorem moves_step (hsound : Sound used w) (hsingle : Single (w.view t)) (hbegun : Begun (w.view t))
    (hok : TwoPhaseOk used w e) (hup : NoUpgradeBlocks nw w e) (hst : step nw w e w') (hactor : w.actor e = some t) :
    Moves (w.view t) (w'.view t) := by
  cases step_cases hst with
  | @lock u m l =>
      obtain rfl : u = t := Option.some.inj hactor
      obtain ⟨b, hown, -⟩ := (sees_step hsound.queues hsound.waits hst hactor).own
      generalize (w.lock u m l).view u = v' at hown ⊢
      cases hown with
      | refused => exact .same rfl
      | passes => exact .same rfl
  | @enter c u m l hc =>
      obtain rfl := Option.some.inj ((World.actor_enter hc).symm.trans hactor)
      exact moves_enter hsound.queues hc hsingle (hup c rfl _ hc (u, m, l) rfl)
  | @wake c u r site m l hc =>
      obtain rfl := Option.some.inj ((World.actor_wake hc).symm.trans hactor)
      have hbusy : ∃ d, (w.view u).calls d ≠ none := by
        refine ⟨c, ?_⟩
        rw [view_calls_self hc rfl]
        exact Option.some_ne_none _
      have hsees : Sees (OwnAwait (w.view u) site c u m l r) w (w.await nw site c u m l r) u :=
        sees_await hc rfl (fun h => by cases h) (hsound.waits c site u m l r hc).2
      obtain ⟨b, hown, -⟩ := hsees.own
      exact moves_await (hsingle.request l) hbusy hown
  | @unlock u l =>
      obtain rfl : u = t := Option.some.inj hactor
      rw [view_unlock]
      exact moves_unlock hsingle hbegun (idle_view.mp hok.2.1)
  | @setState u s =>
      obtain rfl : u = t := Option.some.inj hactor
      rw [view_setState]
      exact .same rfl

/-- What a step of the lock manager keeps of every transaction. -/
theorem orderly_step (hsound : Sound used w) (h : ∀ t ∈ used, Single (w.view t) ∧ Begun (w.view t))
    (hok : TwoPhaseOk used w e) (hst : step nw w e w') : ∀ t ∈ used, Single (w'.view t) ∧ Begun (w'.view t) := by
  obtain ⟨hused, hidle, hgrowing⟩ := hok
  refine forall_view_step (P := fun v => Single v ∧ Begun v) hsound hused h hst ?_
  intro t ht b v' hactor hown
  refine ⟨single_step (h t ht).1 hown ?_, begun_step (h t ht).2 hown hgrowing⟩
  rintro ⟨u, m, l, rfl⟩
  obtain rfl : u = t := Option.some.inj hactor
  exact idle_view.mp hidle

end Actor

/-! ## Reads and writes under the locks -/

/-- A read is recorded with the value it has seen. -/
inductive Operation (ν : Type) where
  | read (v : ν)
  | write (v : ν)
  deriving DecidableEq, Repr

structure Access (κ ν : Type) where
  t : Nat
  key : κ
  op : Operation ν
  deriving DecidableEq, Repr

namespace Operation

variable {ν : Type}

/-- The modes that cover the operation on an item and on everything below it. -/
def coveredBy : Operation ν → LockMode → Bool
  | .read _, m => m == .shared || m == .sIx || m == .exlucsive
  | .write _, m => m == .exlucsive

/-- The modes that announce the operation below an item. -/
def announcedBy : Operation ν → LockMode → Bool
  | .read _, _ => true
  | .write _, m => m == .intentionExclusive || m == .sIx || m == .exlucsive

/-- The locks on the way down permit the operation: the first one covers it, or announces it and those below permit it. -/
def permitted (held : Lock_data_id → Option LockMode) (op : Operation ν) : List Lock_data_id → Bool
  | [] => false
  | l :: path =>
    match held l with
    | none => false
    | some m => op.coveredBy m || (op.announcedBy m && permitted held op path)

/-- One of the two changes the value. -/
def Conflict (a b : Operation ν) : Prop := (∃ v, a = .write v) ∨ ∃ v, b = .write v

variable {a b : Operation ν} {held held' : Lock_data_id → Option LockMode} {m n : LockMode} {path : List Lock_data_id}

theorem incompatible_of_covered (hconflict : Conflict a b) (ha : a.coveredBy m = true)
    (hb : b.coveredBy n = true ∨ b.announcedBy n = true) : compatible m n = false := by
  cases a <;> cases b <;> cases m <;> cases n <;> simp_all [Conflict, coveredBy, announcedBy, compatible]

/-- Conflicting operations are not permitted by locks that go together: by induction on the way down, as long as both
    operations are only announced. -/
theorem exists_incompatible (hconflict : Conflict a b) (ha : permitted held a path = true)
    (hb : permitted held' b path = true) :
    ∃ l m n, held l = some m ∧ held' l = some n ∧ compatible m n = false := by
  induction path with
  | nil => cases ha
  | cons l path ih =>
      unfold permitted at ha hb
      cases hm : held l with
      | none => rw [hm] at ha; cases ha
      | some m =>
          cases hn : held' l with
          | none => rw [hn] at hb; cases hb
          | some n =>
              rw [hm] at ha
              rw [hn] at hb
              simp only [Bool.or_eq_true, Bool.and_eq_true] at ha hb
              rcases ha with ha | ⟨ha, hapath⟩
              · exact ⟨l, m, n, hm, hn, incompatible_of_covered hconflict ha (hb.imp_right And.left)⟩
              · rcases hb with hb | ⟨-, hbpath⟩
                · refine ⟨l, m, n, hm, hn, ?_⟩
                  rw [compatible_symm]
                  exact incompatible_of_covered hconflict.symm hb (Or.inr ha)
                · exact ih hapath hbpath

theorem exists_held_on_path (ha : permitted held a path = true) : ∃ l ∈ path, ∃ m, held l = some m := by
  cases path with
  | nil => cases ha
  | cons l path =>
      unfold permitted at ha
      cases hm : held l with
      | none => rw [hm] at ha; cases ha
      | some m => exact ⟨l, List.mem_cons_self, m, hm⟩

theorem exists_held (ha : permitted held a path = true) : ∃ l m, held l = some m := by
  obtain ⟨l, -, m, hm⟩ := exists_held_on_path ha
  exact ⟨l, m, hm⟩

end Operation

section Discipline

variable {κ ν : Type} [DecidableEq κ] [DecidableEq ν]

/-- A read refuses a store with another value. -/
def Access.apply (a : Access κ ν) (store : κ → ν) : Option (κ → ν) :=
  match a.op with
  | .read v => if store a.key = v then some store else none
  | .write v => some (Function.update store a.key v)

theorem commute_of_ne {a b : Access κ ν} (h : a.key ≠ b.key) : Serial.Commute Access.apply a b := by
  obtain ⟨t, k, op⟩ := a
  obtain ⟨t', k', op'⟩ := b
  intro store
  have hne : k ≠ k' := h
  cases op with
  | read v =>
      cases op' with
      | read v' => by_cases hv : store k = v <;> by_cases hv' : store k' = v' <;> simp [Access.apply, hv, hv']
      | write v' => by_cases hv : store k = v <;> simp [Access.apply, hv, Function.update_of_ne hne]
  | write v =>
      cases op' with
      | read v' => by_cases hv' : store k' = v' <;> simp [Access.apply, hv', Function.update_of_ne (Ne.symm hne)]
      | write v' => simp [Access.apply, Function.update_comm hne]

theorem commute_of_not_conflict {a b : Access κ ν} (h : ¬ a.op.Conflict b.op) : Serial.Commute Access.apply a b := by
  obtain ⟨t, k, op⟩ := a
  obtain ⟨t', k', op'⟩ := b
  intro store
  cases op with
  | write v => exact absurd (Or.inl ⟨v, rfl⟩) h
  | read v =>
      cases op' with
      | write v' => exact absurd (Or.inr ⟨v', rfl⟩) h
      | read v' => by_cases hv : store k = v <;> by_cases hv' : store k' = v' <;> simp [Access.apply, hv, hv']

/-- The locks of the lock manager, and the accesses they permit. `path` is the items on the way to a key. -/
def discipline (path : κ → List Lock_data_id) : Serial.Discipline Nat Lock_data_id LockMode (Access κ ν) (κ → ν) where
  compatible m n := compatible m n = true
  owner := Access.t
  apply := Access.apply
  permits held a := a.op.permitted held (path a.key) = true
  excludes := by
    intro a b h h' _ hcomm ha hb
    have hkey : a.key = b.key := by
      by_contra hne
      exact hcomm (commute_of_ne hne)
    have hconflict : a.op.Conflict b.op := by
      by_contra hno
      exact hcomm (commute_of_not_conflict hno)
    rw [← hkey] at hb
    obtain ⟨l, m, n, hm, hn, hmn⟩ := Operation.exists_incompatible hconflict ha hb
    exact ⟨l, m, n, hm, hn, by simp [hmn]⟩
  needs := fun h => Operation.exists_held h

end Discipline

/-! ## The lock manager with the store it guards -/

structure System (κ ν : Type) where
  locks : World
  store : κ → ν
  log : List (Access κ ν) := []

inductive SystemEvent (κ ν : Type) where
  | lock (e : Event)
  | access (a : Access κ ν)

section System

variable {κ ν : Type} [DecidableEq κ] [DecidableEq ν]

def System.init (txns : Nat → Transaction) (store : κ → ν) : System κ ν := { locks := World.init txns, store := store }

def System.next (enable_no_wait : Bool) (s : System κ ν) : SystemEvent κ ν → Option (System κ ν)
  | .lock e => (Lock_manager.next enable_no_wait s.locks e).map fun w => { s with locks := w }
  | .access a => (a.apply s.store).map fun store => { s with store := store, log := s.log ++ [a] }

/-- The callers keep to two-phase locking, and access what they hold locks for. -/
def SystemOk (path : κ → List Lock_data_id) (used : Finset Nat) (nw : Bool) (s : System κ ν) : SystemEvent κ ν → Prop
  | .lock e => TwoPhaseOk used s.locks e ∧ NoUpgradeBlocks nw s.locks e
  | .access a => a.t ∈ used ∧ a.op.permitted (s.locks.view a.t).held (path a.key) = true

instance (path : κ → List Lock_data_id) (used : Finset Nat) (nw : Bool) (s : System κ ν) (e : SystemEvent κ ν) :
    Decidable (SystemOk path used nw s e) :=
  match e with
  | .lock e => inferInstanceAs (Decidable (TwoPhaseOk used s.locks e ∧ NoUpgradeBlocks nw s.locks e))
  | .access a =>
    inferInstanceAs (Decidable (a.t ∈ used ∧ a.op.permitted (s.locks.view a.t).held (path a.key) = true))

/-- The system and the machine of two-phase locking in the same state. -/
structure Simulates (used : Finset Nat) (s : System κ ν) (a : Serial.Locking Nat Lock_data_id LockMode (Access κ ν)) :
    Prop where
  held : ∀ t ∈ used, a.held t = (s.locks.view t).held
  unused : ∀ t, t ∉ used → ∀ l, a.held t l = none
  closed : ∀ t, a.closed t → t ∈ used ∧ Released (s.locks.view t)
  log : a.log = s.log

variable {path : κ → List Lock_data_id} {used : Finset Nat} {nw : Bool} {s s' : System κ ν} {w w' : World} {t : Nat}
  {e : Event} {a : Serial.Locking Nat Lock_data_id LockMode (Access κ ν)}

omit [DecidableEq κ] [DecidableEq ν] in
/-- What the machine holds after a move of `t`. -/
theorem held_setHeld {l : Lock_data_id} {m : Option LockMode} (hheld : ∀ t ∈ used, a.held t = (w.view t).held)
    (h : (w'.view t).held = Function.update (w.view t).held l m) (ht : t ∈ used)
    (hothers : ∀ u ∈ used, u ≠ t → w'.view u = w.view u) :
    ∀ u ∈ used, Serial.Locking.setHeld a.held t l m u = (w'.view u).held := by
  intro u hu
  funext k
  unfold Serial.Locking.setHeld
  by_cases hut : u = t
  · subst hut
    rw [h, hheld u hu, Function.update_apply]
    simp
  · rw [if_neg (fun h => hut h.1), hothers u hu hut, hheld u hu]

omit [DecidableEq κ] [DecidableEq ν] in
theorem unused_setHeld {l : Lock_data_id} {m : Option LockMode} (hunused : ∀ t, t ∉ used → ∀ l, a.held t l = none)
    (ht : t ∈ used) : ∀ u, u ∉ used → ∀ k, Serial.Locking.setHeld a.held t l m u k = none := by
  intro u hu k
  unfold Serial.Locking.setHeld
  rw [if_neg]
  · exact hunused u hu k
  · rintro ⟨rfl, -⟩
    exact hu ht

variable (path) in
/-- **A step of the lock manager** is a step of the machine, or none. The machine may know of more than these locks: its owners
    are closed who are inside no call here, and those who lose a lock. In its order are those who have been inside a call. -/
theorem locking_step (hheld : ∀ t ∈ used, a.held t = (w.view t).held) (hunused : ∀ t, t ∉ used → ∀ l, a.held t l = none)
    (hopen : ∀ c, (w.view t).calls c ≠ none → ¬ a.closed t) (hsound : Sound used w)
    (horderly : Single (w.view t) ∧ Begun (w.view t)) (hok : TwoPhaseOk used w e) (hup : NoUpgradeBlocks nw w e)
    (hst : step nw w e w') (hactor : w.actor e = some t) :
    ∃ a', (a' = a ∨ Serial.Locking.Step (discipline path) a a') ∧ (∀ u ∈ used, a'.held u = (w'.view u).held) ∧
      (∀ u, u ∉ used → ∀ l, a'.held u l = none) ∧ a'.log = a.log ∧
      (∀ u, a'.closed u → a.closed u ∨ (u = t ∧ Released (w'.view t) ∧ Lost (w.view t) (w'.view t))) ∧
      ∀ u ∈ a'.order, u ∈ a.order ∨ (u = t ∧ ∃ c, (w.view t).calls c ≠ none) := by
  have ht := hsound.actor_mem hst hok.1 hactor
  have hsees := sees_step hsound.queues hsound.waits hst hactor
  have hothers : ∀ u ∈ used, u ≠ t → w'.view u = w.view u :=
    fun u hu hut => hsees.others u (hsound.ids_ne ht hu hut)
  have hsame : (w'.view t).held = (w.view t).held → ∀ u ∈ used, a.held u = (w'.view u).held := by
    intro h u hu
    by_cases hut : u = t
    · subst hut
      rw [h]
      exact hheld u hu
    · rw [hothers u hu hut]
      exact hheld u hu
  cases moves_step hsound horderly.1 horderly.2 hok hup hst hactor with
  | same h => exact ⟨a, Or.inl rfl, hsame h, hunused, rfl, fun u hu => Or.inl hu, fun u hu => Or.inl hu⟩
  | gains l m h hcovers hbusy =>
      refine ⟨_, Or.inr (.acquire t l m ?_ ?_ ?_), held_setHeld hheld h ht hothers, unused_setHeld hunused ht, rfl,
        fun u hu => Or.inl hu, fun u hu => ?_⟩
      · obtain ⟨c, hcall⟩ := hbusy
        exact hopen c hcall
      · intro n hn
        rw [hheld t ht] at hn
        exact fun x hx => hcovers n hn x hx
      · intro u n hut hn
        have hu : u ∈ used := by
          by_contra hu
          rw [hunused u hu] at hn
          cases hn
        have hn' : (w'.view u).held l = some n := by
          rw [hothers u hu hut, ← hheld u hu]
          exact hn
        have hm' : (w'.view t).held l = some m := by
          rw [h, Function.update_self]
        have hsound' := sound_step hsound hok.1 hst
        have hcompat := held_compatible hsound'.queues (hsound'.ids_ne ht hu hut) hm' hn'
        exact ⟨hcompat, (compatible_symm n m).trans hcompat⟩
      · rcases List.mem_append.mp hu with hu | hu
        · exact Or.inl (List.mem_of_mem_erase hu)
        · exact Or.inr ⟨List.mem_singleton.mp hu, hbusy⟩
  | loses l h hr =>
      cases hl : (w.view t).held l with
      | none =>
          refine ⟨a, Or.inl rfl, hsame ?_, hunused, rfl, fun u hu => Or.inl hu, fun u hu => Or.inl hu⟩
          rw [h, Function.update_eq_self_iff, hl]
      | some m =>
          refine ⟨_, Or.inr (.release t l), held_setHeld hheld h ht hothers, unused_setHeld hunused ht, rfl, ?_,
            fun u hu => Or.inl hu⟩
          rintro u (rfl | hu)
          · exact Or.inr ⟨rfl, hr, l, m, hl, by rw [h, Function.update_self]⟩
          · exact Or.inl hu

theorem simulates_lock {store : κ → ν} {log : List (Access κ ν)} (hsim : Simulates used ⟨w, store, log⟩ a)
    (hsound : Sound used w) (horderly : ∀ t ∈ used, Single (w.view t) ∧ Begun (w.view t)) (hok : TwoPhaseOk used w e)
    (hup : NoUpgradeBlocks nw w e) (hst : step nw w e w') :
    ∃ a', Relation.ReflTransGen (Serial.Locking.Step (discipline path)) a a' ∧ Simulates used ⟨w', store, log⟩ a' := by
  obtain ⟨t, hactor⟩ := exists_actor hst
  have ht := hsound.actor_mem hst hok.1 hactor
  have hsees := sees_step hsound.queues hsound.waits hst hactor
  have hreleased : ∀ u, u ∈ used → Released (w.view u) → Released (w'.view u) := by
    intro u hu hr
    by_cases hut : u = t
    · subst hut
      obtain ⟨b, hown, -⟩ := hsees.own
      exact released_step hr hown hok.2.2
    · rw [hsees.others u (hsound.ids_ne ht hu hut)]
      exact hr
  -- who has given a lock up is inside no call
  obtain ⟨a', hstep, hheld, hunused, hlog, hclosed, -⟩ := locking_step path hsim.held hsim.unused
    (fun c hc hclosed => hc ((hsim.closed t hclosed).2.idle c)) hsound (horderly t ht) hok hup hst hactor
  refine ⟨a', ?_, hheld, hunused, ?_, hlog.trans hsim.log⟩
  · rcases hstep with rfl | hstep
    · exact .refl
    · exact .single hstep
  · intro u hu
    rcases hclosed u hu with hold | ⟨rfl, hr, -⟩
    · exact ⟨(hsim.closed u hold).1, hreleased u (hsim.closed u hold).1 (hsim.closed u hold).2⟩
    · exact ⟨ht, hr⟩

/-- What holds along a run that starts from `store`. -/
structure Serially (path : κ → List Lock_data_id) (used : Finset Nat) (store : κ → ν) (s : System κ ν) : Prop where
  sound : Sound used s.locks
  orderly : ∀ t ∈ used, Single (s.locks.view t) ∧ Begun (s.locks.view t)
  simulated : ∃ a, Serial.Locking.Inv (discipline path) a ∧ Simulates used s a
  done : Serial.execute Access.apply s.log store = some s.store

theorem serially_init {txns : Nat → Transaction} (hids : Set.InjOn (fun t => (txns t).txn_id_) (used : Set Nat))
    (store : κ → ν) : Serially path used store (System.init txns store) where
  sound := sound_init hids
  orderly := by
    intro t _
    refine ⟨⟨fun l => Or.inl rfl, fun c d hc => absurd ?_ hc⟩, ?_⟩
    · simp [System.init, World.view, World.init]
    · rintro (⟨l, hl⟩ | ⟨c, hc⟩)
      · exact absurd rfl hl
      · simp [System.init, World.view, World.init] at hc
  simulated :=
    ⟨Serial.Locking.init, Serial.Locking.inv_init _, fun _ _ => rfl, fun _ _ _ => rfl, fun _ h => h.elim, rfl⟩
  done := rfl

/-- **Step lemma.** -/
theorem serially_step {store : κ → ν} {e : SystemEvent κ ν} (h : Serially path used store s)
    (hst : Guarded (SystemOk path used nw) (FunStep (System.next nw)) s e s') : Serially path used store s' := by
  obtain ⟨hok, hst⟩ := hst
  obtain ⟨a, hinv, hsim⟩ := h.simulated
  cases e with
  | lock e =>
      obtain ⟨w', hlock, rfl⟩ := Option.map_eq_some_iff.mp hst
      obtain ⟨a', hsteps, hsim'⟩ := simulates_lock hsim h.sound h.orderly hok.1 hok.2 hlock
      exact ⟨sound_step h.sound hok.1.1 hlock, orderly_step h.sound h.orderly hok.1 hlock,
        ⟨a', Serial.Locking.inv_steps hinv hsteps, hsim'⟩, h.done⟩
  | access x =>
      obtain ⟨ht, hpermitted⟩ := hok
      obtain ⟨store', happly, rfl⟩ := Option.map_eq_some_iff.mp hst
      have hstep : Serial.Locking.Step (discipline path) a { a with log := a.log ++ [x] } := by
        refine .access x ?_
        show x.op.permitted (a.held x.t) (path x.key) = true
        rw [hsim.held x.t ht]
        exact hpermitted
      refine ⟨h.sound, h.orderly, ⟨_, Serial.Locking.inv_step hinv hstep, hsim.held, hsim.unused, hsim.closed, ?_⟩, ?_⟩
      · exact congrArg (· ++ [x]) hsim.log
      · show Serial.execute Access.apply (s.log ++ [x]) store = some store'
        rw [Serial.execute_append, h.done]
        simp [Serial.execute, happly]

/-- The order of the last grants. -/
theorem Serially.serial_order {store : κ → ν} (h : Serially path used store s) : ∃ order : List Nat, order.Nodup ∧
    (∀ a ∈ s.log, a.t ∈ order) ∧ Serial.execute Access.apply (Serial.serial Access.t order s.log) store = some s.store := by
  obtain ⟨a, hinv, hsim⟩ := h.simulated
  refine ⟨a.order, hinv.nodup, ?_, ?_⟩
  · intro x hx
    rw [← hsim.log] at hx
    exact hinv.owners x hx
  · rw [← h.done, ← hsim.log]
    exact (hinv.serial_answers store).symm

/-- **Serializability.** Whatever transactions do in any interleaving under the locks, they do the same one after the other:
    every read sees the value that it has seen, and the store ends up the same. -/
theorem serializable {txns : Nat → Transaction} (hids : Set.InjOn (fun t => (txns t).txn_id_) (used : Set Nat))
    {store : κ → ν} {es : List (SystemEvent κ ν)}
    (h : Run (Guarded (SystemOk path used nw) (FunStep (System.next nw))) (System.init txns store) es s) :
    ∃ order : List Nat, order.Nodup ∧ (∀ a ∈ s.log, a.t ∈ order) ∧
      Serial.execute Access.apply (Serial.serial Access.t order s.log) store = some s.store := by
  have hs := h.invariant (fun _ _ _ hi hst => serially_step hi hst) (serially_init hids store)
  exact hs.serial_order

end System

/-- The way to a row of partition 1 of table 1. -/
def rowPath (row_id : row_id_t) : List Lock_data_id :=
  [{ oid_ := 1, type_ := .table }, { oid_ := 1, p_id_ := 1, type_ := .partition },
    { oid_ := 1, p_id_ := 1, row_id_ := row_id, type_ := .row }]

/-- Under no-wait: transaction 0 writes row 1 while 1 reads row 2, then 0 gives row 1 up and 1 reads it. The upgrade that 2
    asks for fails. -/
def interleaved : List (SystemEvent row_id_t Nat) :=
  [.lock (LockTable 0 .intentionExclusive 1), .lock (LockTable 1 .intentionShared 1), .lock (LockTable 2 .intentionShared 1),
    .lock (.enter 1), .lock (.enter 0), .lock (.enter 2), .lock (LockPartition 0 .intentionExclusive 1 1), .lock (.enter 3),
    .lock (LockPartition 1 .intentionShared 1 1), .lock (.enter 4), .lock (LockRow 0 .exlucsive 1 1 1),
    .lock (LockRow 1 .shared 1 1 2), .lock (.enter 6), .lock (.enter 5), .access ⟨1, 2, .read 0⟩, .access ⟨0, 1, .write 7⟩,
    .lock (UnLockRow 0 1 1 1), .lock (LockRow 1 .shared 1 1 1), .lock (.enter 7), .access ⟨1, 1, .read 7⟩,
    .lock (LockTable 2 .exlucsive 1), .lock (.enter 8), .lock (UnLockTable 0 1)]

theorem serializable_interleaved :
    ∃ s : System row_id_t Nat,
      Run (Guarded (SystemOk rowPath (Finset.range 3) true) (FunStep (System.next true)))
        (System.init someTxns fun _ => 0) interleaved s ∧
      ∃ order : List Nat, order.Nodup ∧ (∀ a ∈ s.log, a.t ∈ order) ∧
        Serial.execute Access.apply (Serial.serial Access.t order s.log) (fun _ => 0) = some s.store := by
  obtain ⟨s, hrun, -⟩ : ∃ s, Run (Guarded (SystemOk rowPath (Finset.range 3) true) (FunStep (System.next true)))
      (System.init someTxns fun _ => 0) interleaved s ∧
        s.log = [⟨1, 2, .read 0⟩, ⟨0, 1, .write 7⟩, ⟨1, 1, .read 7⟩] :=
    Run.exists_guarded_of_map (f := System.log) (by decide)
  exact ⟨s, hrun, serializable someTxns_injOn hrun⟩

end Lock_manager
end DDBMS
