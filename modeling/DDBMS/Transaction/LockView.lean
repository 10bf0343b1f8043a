import DDBMS.Transaction.LockForms

/-!
# `Transaction.LockView` — the lock manager as one transaction sees it

A `View` is what the lock manager has of one transaction: the object, its requests in every queue, its calls in progress.

Transaction ids are distinct (`txn_id_` is a globally unique timestamp). Then a step of the lock manager is seen by one
transaction, its actor, and the view of every other stays as it is. The actor sees a step of `OwnStep` (`sees_step`),
where the other transactions appear only in how the test of the queue comes out. An invariant of the
steps of `OwnStep` is so an invariant of every transaction in every interleaving.
-/

namespace DDBMS
namespace Lock_manager

/-! ## The view -/

/-- The transaction object of a call in progress. -/
def Call.txn? : Call → Option Nat
  | .entering t _ _ | .waiting _ t _ _ _ => some t
  | .returned _ => none

/-- What the lock manager has of one transaction. -/
@[ext]
structure View where
  txn : Transaction
  requests : Lock_data_id → List (Nat × LockRequest)
  calls : Nat → Option Call

def World.view (w : World) (t : Nat) : View where
  txn := w.txns t
  requests l := (w.lock_map_ l).own (w.txns t).txn_id_
  calls c := w.calls[c]?.filter fun x => x.txn? == some t

namespace View

def setState (v : View) (s : TransactionState) : View := { v with txn := { v.txn with state_ := s } }

def setRequests (v : View) (l : Lock_data_id) (xs : List (Nat × LockRequest)) : View :=
  { v with requests := fun k => if k = l then xs else v.requests k }

def setCall (v : View) (c : Nat) (x : Option Call) : View :=
  { v with calls := fun d => if d = c then x else v.calls d }

def returnTrue (v : View) (c : Nat) (m : LockMode) (l : Lock_data_id) : View :=
  { v.setCall c none with txn := v.txn.add_lock_set m l }

def abort (v : View) (c : Nat) : View := (v.setState .aborted).setCall c none

def granted (v : View) (c : Nat) (m : LockMode) (l : Lock_data_id) (r : Nat) : View :=
  (v.setRequests l ((v.requests l).map (rewriteAt r LockRequest.grantedNow))).returnTrue c m l

def unlock (v : View) (l : Lock_data_id) : View :=
  match (v.requests l).find? (fun x => x.2.granted_) with
  | none => { v with txn := unlockedTxn v.txn l false }
  | some x => { v.setRequests l ((v.requests l).erase x) with txn := unlockedTxn v.txn l true }

end View

/-! ## The steps of the transaction itself

The Boolean says that the step ends a call, and the call returns false. -/

/-- One evaluation of the predicate of a wait. -/
inductive OwnAwait (v : View) (site : Site) (c t : Nat) (m : LockMode) (l : Lock_data_id) (r : Nat) : Bool → View → Prop where
  | abort : OwnAwait v site c t m l r true (v.abort c)
  | granted (hs : v.txn.state_ ≠ .aborted) : OwnAwait v site c t m l r false (v.granted c m l r)
  | blocked : OwnAwait v site c t m l r false (v.setCall c (some (.waiting site t m l r)))

/-- The first critical section of a call. -/
inductive OwnEnter (v : View) (c t : Nat) (m : LockMode) (l : Lock_data_id) : Bool → View → Prop where
  | held {r : Nat} {x : LockRequest} {xs : List (Nat × LockRequest)} (h : v.requests l = (r, x) :: xs)
      (hm : x.lock_mode_ = m) (hg : x.granted_ = true) : OwnEnter v c t m l false (v.returnTrue c m l)
  | heldAborted (hs : v.txn.state_ = .aborted) : OwnEnter v c t m l true (v.setCall c none)
  | pending {r : Nat} {x : LockRequest} {xs : List (Nat × LockRequest)} {b : Bool} {v' : View}
      (h : v.requests l = (r, x) :: xs) (hm : x.lock_mode_ = m) (hg : x.granted_ = false)
      (hawait : OwnAwait v .same c t m l r b v') : OwnEnter v c t m l b v'
  | refused : OwnEnter v c t m l true (v.abort c)
  | upgrade {r : Nat} {x : LockRequest} {xs : List (Nat × LockRequest)} {b : Bool} {v' : View}
      (h : v.requests l = (r, x) :: xs)
      (hawait : OwnAwait (v.setRequests l ((v.requests l).map (rewriteAt r (LockRequest.upgraded m)))) .upgrade c t m l r b v') :
      OwnEnter v c t m l b v'
  | new {a : Nat} {b : Bool} {v' : View} (h : v.requests l = [])
      (hawait : OwnAwait (v.setRequests l [(a, ⟨v.txn.txn_id_, m, false⟩)]) .new c t m l a b v') : OwnEnter v c t m l b v'

inductive OwnStep (v : View) : Event → Bool → View → Prop where
  | refused {t : Nat} {m : LockMode} {l : Lock_data_id} : OwnStep v (.lock t m l) true (v.setState .aborted)
  | passes {c t : Nat} {m : LockMode} {l : Lock_data_id}
      (hstate : v.txn.state_ = .default ∨ v.txn.state_ = .growing) (hm : World.modeAllowed l m = true)
      (hc : v.calls c = none) :
      OwnStep v (.lock t m l) false ((v.setState .growing).setCall c (some (.entering t m l)))
  | enter {c t : Nat} {m : LockMode} {l : Lock_data_id} {b : Bool} {v' : View} (hc : v.calls c = some (.entering t m l))
      (h : OwnEnter v c t m l b v') : OwnStep v (.enter c) b v'
  | wake {c t r : Nat} {site : Site} {m : LockMode} {l : Lock_data_id} {b : Bool} {v' : View}
      (hc : v.calls c = some (.waiting site t m l r)) (h : OwnAwait v site c t m l r b v') : OwnStep v (.wake c) b v'
  | unlock {t : Nat} {l : Lock_data_id} : OwnStep v (.unlock t l) false (v.unlock l)
  | setState {t : Nat} {s : TransactionState} : OwnStep v (.setState t s) false (v.setState s)

/-! ## Who sees a change of the world -/

section Views

variable {w : World} {c t u r : Nat} {m : LockMode} {l : Lock_data_id} {nw : Bool} {site : Site}

theorem View.setRequests_self {v : View} {xs : List (Nat × LockRequest)} (h : xs = v.requests l) : v.setRequests l xs = v := by
  subst h
  apply View.ext
  · rfl
  · funext k
    by_cases hk : k = l <;> simp [View.setRequests, hk]
  · rfl

theorem View.setCall_self {v : View} {x : Option Call} (h : v.calls c = x) : v.setCall c x = v := by
  subst h
  apply View.ext
  · rfl
  · rfl
  · funext d
    by_cases hd : d = c <;> simp [View.setCall, hd]

theorem view_setTxn_self {x : Transaction} (hx : x.txn_id_ = (w.txns t).txn_id_) :
    (w.setTxn t x).view t = { w.view t with txn := x } := by
  apply View.ext
  · simp [World.view]
  · simp [World.view, hx]
  · rfl

theorem view_setTxn_ne {x : Transaction} (h : u ≠ t) : (w.setTxn t x).view u = w.view u := by
  unfold World.view
  rw [setTxn_ne x h]
  rfl

theorem view_setState (s : TransactionState) : (w.setState t s).view t = (w.view t).setState s := view_setTxn_self rfl

theorem view_setState_ne (s : TransactionState) (h : u ≠ t) : (w.setState t s).view u = w.view u := view_setTxn_ne h

theorem view_setQueue {q : LockRequestQueue} :
    (w.setQueue l q).view u = (w.view u).setRequests l (q.own (w.txns u).txn_id_) := by
  apply View.ext
  · rfl
  · funext k
    by_cases hk : k = l
    · subst hk
      simp [World.view, View.setRequests, World.setQueue]
    · simp [World.view, View.setRequests, World.setQueue, hk]
  · rfl

theorem view_setCall (hc : c < w.calls.length) {x : Call} :
    (w.setCall c x).view u = (w.view u).setCall c ((some x).filter fun x => x.txn? == some u) := by
  apply View.ext
  · rfl
  · rfl
  · funext d
    by_cases hd : d = c
    · subst hd
      simp [World.view, View.setCall, World.setCall, hc]
    · simp [World.view, View.setCall, World.setCall, hd, List.getElem?_set_ne (Ne.symm hd)]

theorem view_newCall {x : Call} : ({ w with calls := w.calls ++ [x] } : World).view u =
    (w.view u).setCall w.calls.length ((some x).filter fun x => x.txn? == some u) := by
  apply View.ext
  · rfl
  · rfl
  · funext d
    by_cases hd : d = w.calls.length
    · subst hd
      simp [World.view, View.setCall]
    · have hsame : (w.calls ++ [x])[d]? = w.calls[d]? := by
        rw [List.getElem?_append]
        split
        · rfl
        · have hlen : w.calls.length < d := by omega
          rw [List.getElem?_eq_none (by simp; omega), List.getElem?_eq_none (by omega)]
      simp [World.view, View.setCall, hd, hsame]

/-- A call of `t` moves on; nobody else sees it. -/
theorem view_setCall_ne {x y : Call} (hc : w.calls[c]? = some y) (hy : y.txn? = some t)
    (hx : x.txn? = some t ∨ x.txn? = none) (h : u ≠ t) : (w.setCall c x).view u = w.view u := by
  rw [view_setCall (List.getElem?_eq_some_iff.mp hc).1]
  apply View.setCall_self
  have hne : ¬ t = u := fun htu => h htu.symm
  rcases hx with hx | hx <;> simp [World.view, hc, hy, hx, hne, Option.filter]

theorem view_calls_self {y : Call} (hc : w.calls[c]? = some y) (hy : y.txn? = some t) : (w.view t).calls c = some y := by
  simp [World.view, hc, hy, Option.filter]

end Views

section Sees

variable {w : World} {c t u r : Nat} {m : LockMode} {l : Lock_data_id} {nw : Bool} {site : Site} {y : Call}

/-- What a step of `t` is for `t` and for the others. -/
structure Sees (P : Bool → View → Prop) (w w' : World) (t : Nat) : Prop where
  own : ∃ b, P b (w'.view t) ∧
    (b = true → ∃ c : Nat, w'.calls[c]? = some (.returned false) ∧ w.calls[c]? ≠ some (.returned false))
  others : ∀ u, (w.txns t).txn_id_ ≠ (w.txns u).txn_id_ → w'.view u = w.view u

theorem ne_of_ids (h : (w.txns t).txn_id_ ≠ (w.txns u).txn_id_) : u ≠ t := by
  rintro rfl
  exact h rfl

theorem view_abort (hlt : c < w.calls.length) : (w.abort c t).view t = (w.view t).abort c := by
  refine (view_setCall (w := w.setState t .aborted) hlt).trans ?_
  rw [view_setState]
  rfl

theorem view_abort_ne (hc : w.calls[c]? = some y) (hy : y.txn? = some t) (h : u ≠ t) : (w.abort c t).view u = w.view u := by
  refine (view_setCall_ne (w := w.setState t .aborted) hc hy (Or.inr rfl) h).trans ?_
  exact view_setState_ne .aborted h

theorem view_returnTrue (hlt : c < w.calls.length) : (w.returnTrue c t m l).view t = (w.view t).returnTrue c m l := by
  have hset := view_setTxn_self (w := w) (t := t) (x := (w.txns t).add_lock_set m l) rfl
  have hcall := view_setCall (w := w.setTxn t ((w.txns t).add_lock_set m l)) (u := t) (x := .returned true) hlt
  unfold World.returnTrue
  refine hcall.trans ?_
  rw [hset]
  rfl

theorem view_returnTrue_ne (hc : w.calls[c]? = some y) (hy : y.txn? = some t) (h : u ≠ t) :
    (w.returnTrue c t m l).view u = w.view u := by
  have hcall := view_setCall_ne (w := w.setTxn t ((w.txns t).add_lock_set m l)) (x := .returned true) hc hy (Or.inr rfl) h
  unfold World.returnTrue
  refine hcall.trans ?_
  rw [view_setTxn_ne h]

theorem own_granted {q : LockRequestQueue} {T : txn_id_t} : (if site = .upgrade then { q.grant r with upgrading_ := false }
    else q.grant r).own T = (q.own T).map (rewriteAt r LockRequest.grantedNow) := by
  split
  · exact own_rewrite rfl (fun _ => rfl) (fun _ => rfl)
  · exact own_grant

theorem view_granted (hlt : c < w.calls.length) : (w.granted site c t m l r).view t = (w.view t).granted c m l r := by
  unfold World.granted
  rw [view_returnTrue (w := w.setQueue l _) hlt, view_setQueue, own_granted]
  rfl

theorem view_granted_ne (hc : w.calls[c]? = some y) (hy : y.txn? = some t)
    (hid : ((w.lock_map_ l).requests r).txn_id_ ≠ (w.txns u).txn_id_) (h : u ≠ t) :
    (w.granted site c t m l r).view u = w.view u := by
  unfold World.granted
  rw [view_returnTrue_ne (w := w.setQueue l _) hc hy h, view_setQueue, own_granted, map_rewriteAt_other hid]
  exact View.setRequests_self rfl

/-- **A wait**, of a request of the transaction. -/
theorem sees_await (hc : w.calls[c]? = some y) (hy : y.txn? = some t) (hnew : y ≠ .returned false)
    (hid : ((w.lock_map_ l).requests r).txn_id_ = (w.txns t).txn_id_) :
    Sees (OwnAwait (w.view t) site c t m l r) w (w.await nw site c t m l r) t := by
  have hlt : c < w.calls.length := (List.getElem?_eq_some_iff.mp hc).1
  have habort : Sees (OwnAwait (w.view t) site c t m l r) w (w.abort c t) t := by
    refine ⟨⟨true, ?_, fun _ => ⟨c, Slots.get_set_self hc, ?_⟩⟩, fun u hu => view_abort_ne hc hy (ne_of_ids hu)⟩
    · rw [view_abort hlt]
      exact .abort
    · rw [hc]
      exact fun h => hnew (Option.some.inj h)
  unfold World.await
  split
  · exact habort
  · rename_i hs
    split
    · refine ⟨⟨false, ?_, fun h => by cases h⟩, fun u hu => view_granted_ne hc hy (hid ▸ hu) (ne_of_ids hu)⟩
      rw [view_granted hlt]
      exact .granted hs
    · split
      · exact habort
      · refine ⟨⟨false, ?_, fun h => by cases h⟩, fun u hu => view_setCall_ne hc hy (Or.inl rfl) (ne_of_ids hu)⟩
        rw [view_setCall hlt]
        have hfilter : (some (Call.waiting site t m l r)).filter (fun x => x.txn? == some t) =
            some (.waiting site t m l r) := by simp [Option.filter, Call.txn?]
        rw [hfilter]
        exact .blocked

/-- The same after a change of the queue that is the transaction's own. -/
theorem Sees.setQueue {P : Bool → View → Prop} {q : LockRequestQueue} {w' : World} (h : Sees P (w.setQueue l q) w' t)
    (hq : ∀ u, (w.txns t).txn_id_ ≠ (w.txns u).txn_id_ → q.own (w.txns u).txn_id_ = (w.lock_map_ l).own (w.txns u).txn_id_) :
    Sees P w w' t := by
  refine ⟨h.own, fun u hu => ?_⟩
  rw [h.others u hu, view_setQueue]
  exact View.setRequests_self (hq u hu)

theorem Sees.mono {P Q : Bool → View → Prop} {w' : World} (h : Sees P w w' t) (hPQ : ∀ b v, P b v → Q b v) : Sees Q w w' t := by
  obtain ⟨b, hb, hfail⟩ := h.own
  exact ⟨⟨b, hPQ b _ hb, hfail⟩, h.others⟩

end Sees

/-! ## Every step, seen by every transaction -/

/-- Request `r` of the queue of `l` was created for transaction `t`. -/
def World.Owns (w : World) (t : Nat) (l : Lock_data_id) (r : Nat) : Prop :=
  r < (w.lock_map_ l).allocated ∧ ((w.lock_map_ l).requests r).txn_id_ = (w.txns t).txn_id_

/-- Every blocked call waits for a request of its transaction. -/
def WaitsOwn (w : World) : Prop :=
  ∀ (c : Nat) site t m l r, w.calls[c]? = some (.waiting site t m l r) → w.Owns t l r

section Simulation

variable {w w' : World} {c t u r : Nat} {m : LockMode} {l : Lock_data_id} {nw : Bool} {e : Event}

theorem own_head_id {x : LockRequest} {xs : List (Nat × LockRequest)}
    (hown : (w.lock_map_ l).own (w.txns t).txn_id_ = (r, x) :: xs) :
    ((w.lock_map_ l).requests r).txn_id_ = (w.txns t).txn_id_ := by
  have hmem : (r, x) ∈ (w.lock_map_ l).own (w.txns t).txn_id_ := by
    rw [hown]
    exact List.mem_cons_self
  obtain ⟨-, hr, hid⟩ := mem_own.mp hmem
  rw [hr, hid]

/-- **The first critical section of a call.** -/
theorem sees_enter (hq : QueuesOk w) (hc : w.calls[c]? = some (.entering t m l)) :
    Sees (OwnEnter (w.view t) c t m l) w (w.enter nw c t m l) t := by
  have hlt : c < w.calls.length := (List.getElem?_eq_some_iff.mp hc).1
  have hnew : Call.entering t m l ≠ .returned false := fun h => by cases h
  have hfail : ∀ {w' : World} (b : Bool), w'.calls = w.calls.set c (.returned false) → b = true → ∃ c : Nat,
      w'.calls[c]? = some (.returned false) ∧ w.calls[c]? ≠ some (.returned false) := by
    intro w' _ hcalls _
    refine ⟨c, by rw [hcalls]; exact Slots.get_set_self hc, ?_⟩
    rw [hc]
    exact fun h => hnew (Option.some.inj h)
  have habort : Sees (OwnEnter (w.view t) c t m l) w (w.abort c t) t := by
    refine ⟨⟨true, ?_, hfail _ rfl⟩, fun u hu => view_abort_ne hc rfl (ne_of_ids hu)⟩
    rw [view_abort hlt]
    exact .refused
  have hf := foundOwn (q := w.lock_map_ l) (T := (w.txns t).txn_id_) (m := m)
  unfold World.enter
  dsimp only
  generalize checkSameTxnLockRequest (w.lock_map_ l) (w.txns t).txn_id_ m = found at hf
  cases hf with
  | notFound hown =>
      have hview : (w.setQueue l ((w.lock_map_ l).emplace_back (w.txns t).txn_id_ m)).view t =
          (w.view t).setRequests l [((w.lock_map_ l).allocated, ⟨(w.txns t).txn_id_, m, false⟩)] := by
        rw [view_setQueue, own_emplace_back (hq l), hown]
        simp
      refine Sees.setQueue (Sees.mono (sees_await (w := w.setQueue l _) hc rfl hnew ?_) ?_) ?_
      · rw [setQueue_self, emplace_back_self]
        rfl
      · intro b v hb
        rw [hview] at hb
        exact .new hown hb
      · intro u hu
        rw [own_emplace_back (hq l), if_neg hu, List.append_nil]
  | held hown hm hg =>
      dsimp only
      split
      · rename_i hs
        refine ⟨⟨true, ?_, hfail _ rfl⟩, fun u hu => view_setCall_ne hc rfl (Or.inr rfl) (ne_of_ids hu)⟩
        rw [view_setCall hlt]
        exact .heldAborted hs
      · refine ⟨⟨false, ?_, fun h => by cases h⟩, fun u hu => view_returnTrue_ne hc rfl (ne_of_ids hu)⟩
        rw [view_returnTrue hlt]
        exact .held hown hm hg
  | pending hown hm hg =>
      exact (sees_await hc rfl hnew (own_head_id hown)).mono (fun b v hb => .pending hown hm hg hb)
  | upgradeConflict => exact habort
  | incompatibleUpgrade => exact habort
  | @upgrade r x xs hown =>
      have hview : (w.setQueue l ((w.lock_map_ l).upgrade r m)).view t = (w.view t).setRequests l
          (((w.view t).requests l).map (rewriteAt r (LockRequest.upgraded m))) := by
        rw [view_setQueue, own_upgrade]
        rfl
      refine Sees.setQueue (Sees.mono (sees_await (w := w.setQueue l _) hc rfl hnew ?_) ?_) ?_
      · rw [setQueue_self, upgrade_self]
        exact own_head_id hown
      · intro b v hb
        rw [hview] at hb
        exact .upgrade hown hb
      · intro u hu
        rw [own_upgrade, map_rewriteAt_other (by rw [own_head_id hown]; exact hu)]

theorem view_unlock : (w.unlock t l).view t = (w.view t).unlock l := by
  have hrel := releasable_own (w := w) (t := t) (l := l)
  unfold View.unlock
  show _ = match ((w.lock_map_ l).own (w.txns t).txn_id_).find? (fun x => x.2.granted_) with | none => _ | some x => _
  cases hfind : ((w.lock_map_ l).own (w.txns t).txn_id_).find? (fun x => x.2.granted_) with
  | none =>
      rw [hfind] at hrel
      rw [unlock_none hrel]
      exact view_setTxn_self rfl
  | some x =>
      obtain ⟨a, x⟩ := x
      rw [hfind] at hrel
      obtain ⟨-, rfl, -⟩ := mem_own.mp (List.mem_of_find?_eq_some hfind)
      rw [unlock_some hrel]
      have hset := view_setTxn_self (w := w.setQueue l ((w.lock_map_ l).drop a)) (t := t)
        (x := unlockedTxn (w.txns t) l true) rfl
      refine hset.trans ?_
      rw [view_setQueue, own_drop]
      rfl

theorem view_unlock_ne (hu : (w.txns t).txn_id_ ≠ (w.txns u).txn_id_) : (w.unlock t l).view u = w.view u := by
  cases hrel : w.releasable t l with
  | none => rw [unlock_none hrel, view_setTxn_ne (ne_of_ids hu)]
  | some a =>
      have hid := txn_id_of_releasable hrel
      rw [unlock_some hrel]
      refine (view_setTxn_ne (w := w.setQueue l _) (ne_of_ids hu)).trans ?_
      rw [view_setQueue]
      apply View.setRequests_self
      rw [own_drop, List.erase_of_not_mem]
      · rfl
      · intro hmem
        obtain ⟨-, -, hid'⟩ := mem_own.mp hmem
        exact hu (hid.symm.trans hid')

/-- **A step, seen by its actor and by the others.** -/
theorem sees_step (hq : QueuesOk w) (hwaits : WaitsOwn w) (hst : step nw w e w') (hactor : w.actor e = some t) :
    Sees (OwnStep (w.view t) e) w w' t := by
  cases step_cases hst with
  | @lock t' m l =>
      obtain rfl : t' = t := Option.some.inj hactor
      have hnew : (w.view t').calls w.calls.length = none := by simp [World.view]
      by_cases hpass : ((w.txns t').state_ = .default ∨ (w.txns t').state_ = .growing) ∧ World.modeAllowed l m = true
      · rw [lock_passes hpass.1 hpass.2]
        refine ⟨⟨false, ?_, fun h => by cases h⟩, fun u hu => ?_⟩
        · rw [show ({ w.setState t' .growing with calls := w.calls ++ [.entering t' m l] } : World).view t' = _ from
            view_newCall (w := w.setState t' .growing), view_setState]
          have hfilter : (some (Call.entering t' m l)).filter (fun x => x.txn? == some t') = some (.entering t' m l) := by
            simp [Option.filter, Call.txn?]
          rw [hfilter]
          exact .passes hpass.1 hpass.2 hnew
        · refine (view_newCall (w := w.setState t' .growing)).trans ?_
          rw [view_setState_ne _ (ne_of_ids hu)]
          apply View.setCall_self
          have hne : ¬ t' = u := fun h => ne_of_ids hu h.symm
          simp [World.view, Call.txn?, Option.filter, hne]
      · have hview : ∀ u, ({ w.setState t' .aborted with calls := w.calls ++ [.returned false] } : World).view u =
            (w.setState t' .aborted).view u := by
          intro u
          refine (view_newCall (w := w.setState t' .aborted)).trans ?_
          apply View.setCall_self
          simp [World.view, Call.txn?, Option.filter, World.setState, World.setTxn]
        rw [lock_refused hpass]
        refine ⟨⟨true, ?_, fun _ => ⟨w.calls.length, by simp, by simp⟩⟩, fun u hu => ?_⟩
        · rw [hview, view_setState]
          exact .refused
        · rw [hview, view_setState_ne _ (ne_of_ids hu)]
  | @enter c t' m l hc =>
      obtain rfl : t' = t := Option.some.inj ((World.actor_enter hc).symm.trans hactor)
      exact (sees_enter hq hc).mono (fun b v hb => .enter (view_calls_self hc rfl) hb)
  | @wake c t' r site m l hc =>
      obtain rfl : t' = t := Option.some.inj ((World.actor_wake hc).symm.trans hactor)
      exact (sees_await hc rfl (fun h => by cases h) (hwaits c site t' m l r hc).2).mono
        (fun b v hb => .wake (view_calls_self hc rfl) hb)
  | @unlock t' l =>
      obtain rfl : t' = t := Option.some.inj hactor
      refine ⟨⟨false, ?_, fun h => by cases h⟩, fun u hu => view_unlock_ne hu⟩
      rw [view_unlock]
      exact .unlock
  | @setState t' s =>
      obtain rfl : t' = t := Option.some.inj hactor
      refine ⟨⟨false, ?_, fun h => by cases h⟩, fun u hu => ?_⟩
      · rw [view_setState]
        exact .setState
      · rw [view_setState_ne _ (ne_of_ids hu)]

end Simulation

end Lock_manager
end DDBMS
