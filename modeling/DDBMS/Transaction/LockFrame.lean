import DDBMS.Transaction.LockEffective

/-!
# `Transaction.LockFrame` — one transaction among the others

What a step of the lock manager does to a transaction, depending on whose step it is. A step of another transaction
leaves its state, its requests and its calls alone (`untouched_step`). Its own critical section either admits the request,
and then the request is granted (`enter_admits`), or, under no-wait, aborts it (`enter_refused`).
-/

namespace DDBMS
namespace Lock_manager

/-- `T` has a granted request for `l` in mode `m`. -/
def World.HasGranted (w : World) (T : txn_id_t) (l : Lock_data_id) (m : LockMode) : Prop :=
  ∃ r ∈ (w.lock_map_ l).request_queue_, ((w.lock_map_ l).requests r).txn_id_ = T ∧
    ((w.lock_map_ l).requests r).granted_ = true ∧ ((w.lock_map_ l).requests r).lock_mode_ = m

/-- The transaction object that a step is about. -/
def World.actor (w : World) : Event → Option Nat
  | .lock t _ _ | .unlock t _ | .setState t _ => some t
  | .enter c | .wake c =>
    match w.calls[c]? with
    | some (.entering t _ _) | some (.waiting _ t _ _ _) => some t
    | _ => none

theorem World.actor_enter {w : World} {c t : Nat} {m : LockMode} {l : Lock_data_id}
    (hc : w.calls[c]? = some (.entering t m l)) : w.actor (.enter c) = some t := by
  rw [World.actor, hc]

theorem World.actor_wake {w : World} {c t r : Nat} {site : Site} {m : LockMode} {l : Lock_data_id}
    (hc : w.calls[c]? = some (.waiting site t m l r)) : w.actor (.wake c) = some t := by
  rw [World.actor, hc]

/-- The call that a step continues. -/
def Event.call? : Event → Option Nat
  | .enter c | .wake c => some c
  | _ => none

/-- Calls other than `c` are as they were, and so are the transaction `T` and its requests. -/
structure Untouched (w w' : World) (T : txn_id_t) (c : Option Nat) : Prop where
  ids : SameIds w w'.txns
  txns : ∀ u, (w.txns u).txn_id_ = T → w'.txns u = w.txns u
  requests : ∀ l, ∀ r ∈ (w.lock_map_ l).request_queue_, ((w.lock_map_ l).requests r).txn_id_ = T →
    r ∈ (w'.lock_map_ l).request_queue_ ∧ (w'.lock_map_ l).requests r = (w.lock_map_ l).requests r
  calls : ∀ (d : Nat) x, c ≠ some d → w.calls[d]? = some x → w'.calls[d]? = some x

section Untouched

variable {w w' w'' : World} {T : txn_id_t} {c : Option Nat} {d t : Nat} {m : LockMode} {l : Lock_data_id} {r : Nat}
  {nw : Bool}

theorem Untouched.refl : Untouched w w T c :=
  ⟨fun _ => rfl, fun _ _ => rfl, fun _ _ hr _ => ⟨hr, rfl⟩, fun _ _ _ hx => hx⟩

theorem Untouched.trans (h : Untouched w w' T c) (h' : Untouched w' w'' T c) : Untouched w w'' T c := by
  constructor
  · intro u
    exact (h'.ids u).trans (h.ids u)
  · intro u hu
    exact (h'.txns u ((h.ids u).trans hu)).trans (h.txns u hu)
  · intro l r hr hT
    obtain ⟨hr', heq⟩ := h.requests l r hr hT
    obtain ⟨hr'', heq'⟩ := h'.requests l r hr' (by rw [heq]; exact hT)
    exact ⟨hr'', heq'.trans heq⟩
  · intro d x hd hx
    exact h'.calls d x hd (h.calls d x hd hx)

theorem Untouched.setTxn {x : Transaction} (ht : (w.txns t).txn_id_ ≠ T) (hx : x.txn_id_ = (w.txns t).txn_id_) :
    Untouched w (w.setTxn t x) T c := by
  refine ⟨sameIds_setTxn hx, ?_, fun _ _ hr _ => ⟨hr, rfl⟩, fun _ _ _ hx => hx⟩
  intro u hu
  have hne : u ≠ t := by
    rintro rfl
    exact ht hu
  exact if_neg hne

theorem Untouched.setCall {x : Call} : Untouched w (w.setCall d x) T (some d) := by
  refine ⟨fun _ => rfl, fun _ _ => rfl, fun _ _ hr _ => ⟨hr, rfl⟩, ?_⟩
  intro e y he hy
  have hne : d ≠ e := fun h => he (congrArg some h)
  exact (List.getElem?_set_ne hne).trans hy

theorem Untouched.setQueue {q : LockRequestQueue} (h : ∀ r ∈ (w.lock_map_ l).request_queue_,
    ((w.lock_map_ l).requests r).txn_id_ = T → r ∈ q.request_queue_ ∧ q.requests r = (w.lock_map_ l).requests r) :
    Untouched w (w.setQueue l q) T c := by
  refine ⟨fun _ => rfl, fun _ _ => rfl, ?_, fun _ _ _ hx => hx⟩
  intro k r hr hT
  by_cases hk : k = l
  · subst hk
    rw [setQueue_self]
    exact h r hr hT
  · rw [setQueue_ne q hk]
    exact ⟨hr, rfl⟩

theorem Untouched.setState {s : TransactionState} (ht : (w.txns t).txn_id_ ≠ T) : Untouched w (w.setState t s) T c := by
  apply Untouched.setTxn ht
  rfl

theorem Untouched.abort (ht : (w.txns t).txn_id_ ≠ T) : Untouched w (w.abort d t) T (some d) :=
  (Untouched.setState ht).trans Untouched.setCall

theorem Untouched.returnTrue (ht : (w.txns t).txn_id_ ≠ T) : Untouched w (w.returnTrue d t m l) T (some d) := by
  have hset : Untouched w (w.setTxn t ((w.txns t).add_lock_set m l)) T (some d) := by
    apply Untouched.setTxn ht
    rfl
  have h := hset.trans (Untouched.setCall (x := .returned true))
  exact ⟨h.ids, h.txns, h.requests, h.calls⟩

theorem Untouched.granted {site : Site} (ht : (w.txns t).txn_id_ ≠ T)
    (hr : ((w.lock_map_ l).requests r).txn_id_ ≠ T) : Untouched w (w.granted site d t m l r) T (some d) := by
  refine (Untouched.setQueue ?_).trans (Untouched.returnTrue ht)
  intro a ha hT
  have hne : a ≠ r := by
    rintro rfl
    exact hr hT
  have hgrant := grant_ne (q := w.lock_map_ l) hne
  split
  · exact ⟨ha, hgrant⟩
  · exact ⟨ha, hgrant⟩

theorem Untouched.await {site : Site} (ht : (w.txns t).txn_id_ ≠ T)
    (hr : ((w.lock_map_ l).requests r).txn_id_ ≠ T) : Untouched w (w.await nw site d t m l r) T (some d) := by
  rcases await_cases nw w site d t m l r with he | ⟨-, -, he⟩ | he
  · rw [he]
    exact Untouched.abort ht
  · rw [he]
    exact Untouched.granted ht hr
  · rw [he]
    exact Untouched.setCall

theorem Untouched.enter (hq : QueuesOk w) (ht : (w.txns t).txn_id_ ≠ T) :
    Untouched w (w.enter nw d t m l) T (some d) := by
  unfold World.enter
  dsimp only
  split
  · split
    · exact Untouched.setCall
    · exact Untouched.returnTrue ht
  · rename_i hf
    obtain ⟨-, hid, -⟩ := found_pending hf
    exact Untouched.await ht (by rw [hid]; exact ht)
  · exact Untouched.abort ht
  · exact Untouched.abort ht
  · rename_i r hf
    obtain ⟨-, hid, -⟩ := found_upgrade hf
    -- the request that is upgraded is not one of `T`
    have hset : Untouched w (w.setQueue l ((w.lock_map_ l).upgrade r m)) T (some d) := by
      apply Untouched.setQueue
      intro a ha hT
      have hne : a ≠ r := by
        rintro rfl
        exact ht (hid.symm.trans hT)
      exact ⟨ha, upgrade_ne m hne⟩
    refine hset.trans (Untouched.await ht ?_)
    rw [setQueue_self, upgrade_self]
    exact fun h => ht (hid.symm.trans h)
  · have hset : Untouched w (w.setQueue l ((w.lock_map_ l).emplace_back (w.txns t).txn_id_ m)) T (some d) := by
      apply Untouched.setQueue
      -- the new request has a place of its own
      intro a ha _
      have hne : a ≠ (w.lock_map_ l).allocated := by
        have hlt := (hq l).alloc a ha
        omega
      exact ⟨List.mem_append_left _ ha, emplace_back_ne _ m hne⟩
    refine hset.trans (Untouched.await ht ?_)
    rw [setQueue_self, emplace_back_self]
    exact ht

theorem Untouched.lock (ht : (w.txns t).txn_id_ ≠ T) : Untouched w (w.lock t m l) T c := by
  have happend : ∀ (v : World) (x : Call), Untouched w v T c → Untouched w { v with calls := v.calls ++ [x] } T c :=
    fun v x h => ⟨h.ids, h.txns, h.requests, fun d y hd hy => by
      rw [List.getElem?_append_left (List.getElem?_eq_some_iff.mp (h.calls d y hd hy)).1]
      exact h.calls d y hd hy⟩
  have hhead : Untouched w (if (w.txns t).state_ = .default then w.setState t .growing else w) T c := by
    split
    · exact Untouched.setState ht
    · exact Untouched.refl
  unfold World.lock
  dsimp only
  generalize (if (w.txns t).state_ = .default then w.setState t .growing else w) = v at hhead
  have habort : Untouched w (v.setState t .aborted) T c :=
    hhead.trans (Untouched.setState (by rw [hhead.ids t]; exact ht))
  split
  · exact happend _ _ habort
  · split
    · exact happend _ _ habort
    · exact happend _ _ hhead

theorem Untouched.unlock (ht : (w.txns t).txn_id_ ≠ T) : Untouched w (w.unlock t l) T c := by
  have hstate : ∀ v : World, SameIds w v.txns → ∀ s, Untouched v (v.setState t s) T c :=
    fun v hv s => Untouched.setState (by rw [hv t]; exact ht)
  have herase : ∀ v : World, SameIds w v.txns → Untouched v (v.setTxn t ((v.txns t).erase_lock_sets l)) T c :=
    fun v hv => Untouched.setTxn (by rw [hv t]; exact ht) rfl
  have hhead : Untouched w (if (w.txns t).state_ = .growing then w.setState t .shrinking else w) T c := by
    split
    · exact hstate w (fun _ => rfl) _
    · exact Untouched.refl
  unfold World.unlock World.Unlock
  dsimp only
  generalize hv : (if (w.txns t).state_ = .growing then w.setState t .shrinking else w) = v at hhead
  cases hr : v.releasable t l with
  | none =>
      have hsame := hhead.trans (hstate v hhead.ids .aborted)
      exact hsame.trans (herase _ hsame.ids)
  | some a =>
      have hid : ((v.lock_map_ l).requests a).txn_id_ = (v.txns t).txn_id_ := by
        have hfind := List.find?_some hr
        rw [Bool.and_eq_true, beq_iff_eq] at hfind
        exact hfind.1
      have hdrop : Untouched v (v.setQueue l ((v.lock_map_ l).drop a)) T c := by
        apply Untouched.setQueue
        intro b hb hT
        have hne : b ≠ a := by
          rintro rfl
          exact ht ((hhead.ids t).symm.trans (hid.symm.trans hT))
        exact ⟨(List.mem_erase_of_ne hne).mpr hb, rfl⟩
      have hsame := hhead.trans hdrop
      have h := hsame.trans (herase _ hsame.ids)
      exact ⟨h.ids, h.txns, h.requests, h.calls⟩

end Untouched

section Steps

variable {w w' : World} {e : Event} {T : txn_id_t} {nw : Bool}

theorem World.HasGranted.untouched {c : Option Nat} {l : Lock_data_id} {m : LockMode} (h : w.HasGranted T l m)
    (hu : Untouched w w' T c) : w'.HasGranted T l m := by
  obtain ⟨r, hr, hid, hg, hm⟩ := h
  obtain ⟨hr', heq⟩ := hu.requests l r hr hid
  refine ⟨r, hr', ?_⟩
  rw [heq]
  exact ⟨hid, hg, hm⟩

/-- A step of another transaction continues no call of `T`. -/
theorem call_ne {d : Nat} {y : Call} (hst : step nw w e w') (hactor : ∀ t ∈ w.actor e, (w.txns t).txn_id_ ≠ T)
    (hy : w.calls[d]? = some y)
    (hcall : (∃ b, y = .returned b) ∨ ∃ t m l, y = .entering t m l ∧ (w.txns t).txn_id_ = T) : e.call? ≠ some d := by
  intro hd
  cases step_cases hst with
  | lock | unlock | setState => cases hd
  | @enter c t m l hc =>
      obtain rfl := Option.some.inj hd
      obtain rfl := Option.some.inj (hc.symm.trans hy)
      rcases hcall with ⟨b, hb⟩ | ⟨t', m', l', ht, hid⟩
      · cases hb
      · cases ht
        exact hactor t (World.actor_enter hy) hid
  | wake hc =>
      obtain rfl := Option.some.inj hd
      obtain rfl := Option.some.inj (hc.symm.trans hy)
      rcases hcall with ⟨b, hb⟩ | ⟨t', m', l', ht, hid⟩
      · cases hb
      · cases ht

/-- No call is blocked; under no-wait none ever is. -/
def World.NotBlocked (w : World) : Prop := ∀ x ∈ w.calls, x.waitsFor = none

/-- **A step of another transaction.** -/
theorem untouched_step (hq : QueuesOk w) (hblocked : w.NotBlocked)
    (hactor : ∀ t ∈ w.actor e, (w.txns t).txn_id_ ≠ T) (hst : step nw w e w') : Untouched w w' T e.call? := by
  cases step_cases hst with
  | lock => exact Untouched.lock (hactor _ rfl)
  | @enter c t m l hc => exact Untouched.enter hq (hactor t (World.actor_enter hc))
  | wake hc => cases hblocked _ (List.mem_of_getElem? hc)
  | unlock => exact Untouched.unlock (hactor _ rfl)
  | setState => exact Untouched.setState (hactor _ rfl)

/-- Transaction objects keep their ids. -/
theorem sameIds_await {site : Site} {c t : Nat} {m : LockMode} {l : Lock_data_id} {r : Nat} :
    SameIds w (w.await nw site c t m l r).txns := by
  rcases await_cases nw w site c t m l r with he | ⟨-, -, he⟩ | he <;> rw [he]
  · exact sameIds_setTxn rfl
  · exact sameIds_setTxn rfl
  · exact fun _ => rfl

theorem sameIds_enter {c t : Nat} {m : LockMode} {l : Lock_data_id} : SameIds w (w.enter nw c t m l).txns := by
  unfold World.enter
  dsimp only
  split
  · split
    · exact fun _ => rfl
    · exact sameIds_setTxn rfl
  · exact sameIds_await
  · exact sameIds_setTxn rfl
  · exact sameIds_setTxn rfl
  · exact sameIds_await
  · exact sameIds_await

theorem sameIds_step (hst : step nw w e w') : SameIds w w'.txns := by
  cases step_cases hst with
  | @lock t m l =>
      obtain ⟨txns, x, he, hids, -⟩ := lock_cases w t m l
      rw [he]
      exact hids
  | enter => exact sameIds_enter
  | wake => exact sameIds_await
  | @unlock t l =>
      obtain ⟨txns, hids, ⟨-, he⟩ | ⟨a, -, he⟩⟩ := unlock_cases w t l <;> rw [he] <;> exact hids
  | setState => exact sameIds_setTxn rfl

/-- A call returns. -/
theorem NotBlocked.returned (h : w.NotBlocked) (d : Nat) (b : Bool) :
    ∀ x ∈ w.calls.set d (.returned b), x.waitsFor = none := by
  intro x hx
  rcases List.mem_or_eq_of_mem_set hx with hx | rfl
  · exact h x hx
  · rfl

theorem NotBlocked.await {site : Site} {d t : Nat} {m : LockMode} {l : Lock_data_id} {r : Nat}
    (h : w.NotBlocked) : (w.await true site d t m l r).NotBlocked := by
  unfold World.await
  split
  · exact NotBlocked.returned h d false
  · split
    · exact NotBlocked.returned h d true
    · exact NotBlocked.returned h d false

theorem NotBlocked.enter {c t : Nat} {m : LockMode} {l : Lock_data_id} (h : w.NotBlocked) :
    (w.enter true c t m l).NotBlocked := by
  unfold World.enter
  dsimp only
  split
  · split
    · exact NotBlocked.returned h c false
    · exact NotBlocked.returned h c true
  · exact NotBlocked.await h
  · exact NotBlocked.returned h c false
  · exact NotBlocked.returned h c false
  · exact NotBlocked.await h
  · exact NotBlocked.await h

/-- **No-wait.** No call blocks. -/
theorem notBlocked_step (h : w.NotBlocked) (hst : step true w e w') : w'.NotBlocked := by
  cases step_cases hst with
  | @lock t m l =>
      obtain ⟨txns, x, he, -, hx⟩ := lock_cases w t m l
      rw [he]
      intro y hy
      rcases List.mem_append.mp hy with hy | hy
      · exact h y hy
      · -- the new call comes to the latch, or has returned already
        rw [List.mem_singleton.mp hy]
        rcases hx with rfl | rfl <;> rfl
  | enter => exact NotBlocked.enter h
  | wake => exact NotBlocked.await h
  | @unlock t l =>
      obtain ⟨txns, -, ⟨-, he⟩ | ⟨a, -, he⟩⟩ := unlock_cases w t l <;> rw [he] <;> exact h
  | setState => exact h

end Steps

/-! ## The transaction's own critical section -/

/-- The request is there already, or can be granted at once. -/
def World.admits (w : World) (t : Nat) (m : LockMode) (l : Lock_data_id) : Bool :=
  match checkSameTxnLockRequest (w.lock_map_ l) (w.txns t).txn_id_ m with
  | .held => true
  | .pending r => (w.lock_map_ l).checkQueueCompatible r
  | .upgradeConflict | .incompatibleUpgrade => false
  | .upgrade r => ((w.lock_map_ l).upgrade r m).checkQueueCompatible r
  | .notFound => ((w.lock_map_ l).emplace_back (w.txns t).txn_id_ m).checkQueueCompatible (w.lock_map_ l).allocated

/-- What an admitted call leaves: it has returned true, and its transaction has the lock. -/
structure Admitted (w w' : World) (c t : Nat) (m : LockMode) (l : Lock_data_id) : Prop where
  ids : SameIds w w'.txns
  state : (w'.txns t).state_ = (w.txns t).state_
  granted : w'.HasGranted (w.txns t).txn_id_ l m
  others : ∀ k, k ≠ l → w'.lock_map_ k = w.lock_map_ k
  calls : w'.calls = w.calls.set c (.returned true)

section Admitted

variable {w : World} {c t : Nat} {m : LockMode} {l : Lock_data_id} {r : Nat} {nw : Bool}

theorem state_setTxn (x : Transaction) : ((w.setTxn t x).txns t).state_ = x.state_ := by
  simp [World.setTxn]

/-- The head of a call of a transaction that may still lock. -/
theorem lock_admits (hstate : (w.txns t).state_ = .default ∨ (w.txns t).state_ = .growing) (hm : World.modeAllowed l m = true) :
    SameIds w (w.lock t m l).txns ∧ ((w.lock t m l).txns t).state_ = .growing ∧
      (w.lock t m l).lock_map_ = w.lock_map_ ∧ (w.lock t m l).calls = w.calls ++ [.entering t m l] := by
  obtain ⟨v, hv, hids, hgrowing, hmap, hcalls⟩ : ∃ v : World,
      v = (if (w.txns t).state_ = .default then w.setState t .growing else w) ∧ SameIds w v.txns ∧
      (v.txns t).state_ = .growing ∧ v.lock_map_ = w.lock_map_ ∧ v.calls = w.calls := by
    refine ⟨_, rfl, ?_⟩
    rcases hstate with hdefault | hgrowing
    · rw [if_pos hdefault]
      exact ⟨sameIds_setTxn rfl, state_setTxn _, rfl, rfl⟩
    · rw [if_neg (by rw [hgrowing]; decide)]
      exact ⟨fun _ => rfl, hgrowing, rfl, rfl⟩
  have hlock : w.lock t m l = { v with calls := v.calls ++ [.entering t m l] } := by
    unfold World.lock
    rw [← hv]
    dsimp only
    rw [if_neg (not_not.mpr hgrowing), if_neg (by rw [hm]; decide)]
  rw [hlock]
  exact ⟨hids, hgrowing, hmap, by rw [hcalls]⟩

theorem Admitted.returnTrue (h : w.HasGranted (w.txns t).txn_id_ l m) : Admitted w (w.returnTrue c t m l) c t m l :=
  ⟨sameIds_setTxn rfl, state_setTxn _, h, fun _ _ => rfl, rfl⟩

/-- A request of the transaction is granted. -/
theorem Admitted.await {site : Site} (hmem : r ∈ (w.lock_map_ l).request_queue_)
    (hid : ((w.lock_map_ l).requests r).txn_id_ = (w.txns t).txn_id_) (hm : ((w.lock_map_ l).requests r).lock_mode_ = m)
    (hstate : (w.txns t).state_ ≠ .aborted) (hc : (w.lock_map_ l).checkQueueCompatible r = true) :
    Admitted w (w.await nw site c t m l r) c t m l := by
  have hawait : w.await nw site c t m l r = w.granted site c t m l r := by
    rw [World.await, if_neg hstate, if_pos hc]
  rw [hawait]
  have hq : ∀ q : LockRequestQueue, q.request_queue_ = (w.lock_map_ l).request_queue_ →
      q.requests = ((w.lock_map_ l).grant r).requests → Admitted w ((w.setQueue l q).returnTrue c t m l) c t m l := by
    intro q hqueue hreq
    refine ⟨sameIds_setTxn rfl, state_setTxn _, ⟨r, ?_⟩, fun k hk => setQueue_ne q hk, rfl⟩
    rw [returnTrue_lock_map, setQueue_self, hqueue, hreq, grant_self]
    exact ⟨hmem, hid, rfl, hm⟩
  apply hq
  · split <;> rfl
  · split <;> rfl

/-- The same after a change of the queue. -/
theorem Admitted.of_setQueue {q : LockRequestQueue} {w' : World} (h : Admitted (w.setQueue l q) w' c t m l) :
    Admitted w w' c t m l :=
  ⟨h.ids, h.state, h.granted, fun k hk => (h.others k hk).trans (setQueue_ne q hk), h.calls⟩

/-- **An admitted request is granted.** -/
theorem enter_admits (hstate : (w.txns t).state_ ≠ .aborted) (h : w.admits t m l = true) :
    Admitted w (w.enter nw c t m l) c t m l := by
  unfold World.admits at h
  unfold World.enter
  dsimp only
  -- the branches of `World.enter`
  split
  · rename_i hf
    rw [if_neg hstate]
    exact Admitted.returnTrue (found_held hf)
  · rename_i hf
    rw [hf] at h
    obtain ⟨hmem, hid, hm⟩ := found_pending hf
    exact Admitted.await hmem hid hm hstate h
  · rename_i hf
    rw [hf] at h
    cases h
  · rename_i hf
    rw [hf] at h
    cases h
  · rename_i r hf
    rw [hf] at h
    obtain ⟨hmem, hid, -⟩ := found_upgrade hf
    apply Admitted.of_setQueue
    apply Admitted.await
    · rw [setQueue_self]
      exact hmem
    · rw [setQueue_self, upgrade_self]
      exact hid
    · rw [setQueue_self, upgrade_self]
    · exact hstate
    · rw [setQueue_self]
      exact h
  · rename_i hf
    rw [hf] at h
    apply Admitted.of_setQueue
    apply Admitted.await
    · rw [setQueue_self]
      exact List.mem_append_right _ List.mem_cons_self
    · rw [setQueue_self, emplace_back_self]
      rfl
    · rw [setQueue_self, emplace_back_self]
    · exact hstate
    · rw [setQueue_self]
      exact h

/-- **A request that is not admitted** aborts its transaction. -/
theorem enter_refused (h : w.admits t m l = false) : ((w.enter true c t m l).txns t).state_ = .aborted := by
  have hawait : ∀ (v : World) (site : Site) (r : Nat), (v.lock_map_ l).checkQueueCompatible r = false →
      ((v.await true site c t m l r).txns t).state_ = .aborted := by
    intro v site r hc
    rw [World.await, hc, if_neg Bool.false_ne_true, if_pos rfl, ite_self]
    exact state_setTxn _
  unfold World.admits at h
  unfold World.enter
  dsimp only
  split <;> rename_i hf <;> rw [hf] at h
  · cases h
  · exact hawait _ _ _ h
  · exact state_setTxn _
  · exact state_setTxn _
  · exact hawait _ _ _ (by rw [setQueue_self]; exact h)
  · exact hawait _ _ _ (by rw [setQueue_self]; exact h)

end Admitted

end Lock_manager
end DDBMS
