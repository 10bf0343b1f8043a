import DDBMS.Transaction.LockFrame

/-!
# `Transaction.LockNoWait` — what a no-wait call decides and what it leaves behind

Under no-wait a `Lock*` call is its head and one critical section, and then it has returned.

* **The decision** (`noWait_exact`). A transaction without a request in the queue gets the lock exactly when every granted
  request there is compatible; otherwise it is aborted and no request is granted.
* **The queue after a failure** (`failed_call_queue`). The request is appended, or rewritten for an upgrade, before the
  outcome is known, and no `catch` block takes that back. So a failed call leaves the queue as it was exactly when it fails
  before that point.
-/

namespace DDBMS
namespace Lock_manager

namespace LockRequestQueue

/-- The requests of a queue, in order. -/
def requestList (q : LockRequestQueue) : List LockRequest := q.request_queue_.map q.requests

def grantedRequests (q : LockRequestQueue) : List LockRequest := q.requestList.filter fun x => x.granted_

/-- What other calls see of a queue. -/
def contents (q : LockRequestQueue) : List LockRequest × Bool := (q.requestList, q.upgrading_)

end LockRequestQueue

/-! ## The queue as a list of requests -/

section Queue

variable {q : LockRequestQueue} {id : txn_id_t} {m : LockMode}

theorem requestList_emplace_back (hq : QueueOk q) :
    (q.emplace_back id m).requestList = q.requestList ++ [⟨id, m, false⟩] := by
  have hold : ∀ a ∈ q.request_queue_, (q.emplace_back id m).requests a = q.requests a := by
    intro a ha
    have hlt := hq.alloc a ha
    exact emplace_back_ne id m (by omega)
  unfold LockRequestQueue.requestList
  rw [emplace_back_queue, List.map_append, List.map_congr_left hold]
  simp

theorem requestList_grant_emplace_back (hq : QueueOk q) :
    ((q.emplace_back id m).grant q.allocated).requestList = q.requestList ++ [⟨id, m, true⟩] := by
  have hold : ∀ a ∈ q.request_queue_, ((q.emplace_back id m).grant q.allocated).requests a = q.requests a := by
    intro a ha
    have hlt := hq.alloc a ha
    have hne : a ≠ q.allocated := by omega
    rw [grant_ne hne, emplace_back_ne id m hne]
  unfold LockRequestQueue.requestList
  rw [grant_queue, emplace_back_queue, List.map_append, List.map_congr_left hold]
  simp

/-- A new request is compatible with the queue if the granted requests are compatible with its mode. -/
theorem checkQueueCompatible_emplace_back (hq : QueueOk q) :
    (q.emplace_back id m).checkQueueCompatible q.allocated = true ↔
      ∀ x ∈ q.grantedRequests, compatible x.lock_mode_ m = true := by
  rw [checkQueueCompatible_iff, emplace_back_self]
  have hold : ∀ a ∈ q.request_queue_, a ≠ q.allocated := by
    intro a ha
    have hlt := hq.alloc a ha
    omega
  constructor
  · intro h x hx
    obtain ⟨hmem, hg⟩ := List.mem_filter.mp hx
    obtain ⟨a, ha, rfl⟩ := List.mem_map.mp hmem
    have hc := h a (List.mem_append_left _ ha) (hold a ha)
    rw [emplace_back_ne id m (hold a ha)] at hc
    exact hc hg
  · intro h a ha hne hg
    rcases List.mem_append.mp ha with ha | ha
    · rw [emplace_back_ne id m hne] at hg ⊢
      exact h _ (List.mem_filter.mpr ⟨List.mem_map_of_mem ha, hg⟩)
    · exact absurd (List.mem_singleton.mp ha) hne

theorem found_notFound (h : ∀ x ∈ q.requestList, x.txn_id_ ≠ id) : checkSameTxnLockRequest q id m = .notFound := by
  have hnone : q.request_queue_.find? (fun iter => (q.requests iter).txn_id_ == id) = none := by
    rw [List.find?_eq_none]
    intro a ha
    simpa using h _ (List.mem_map_of_mem ha)
  unfold checkSameTxnLockRequest
  rw [hnone]

end Queue

/-! ## The decision -/

/-- The outcome of a critical section that nothing but the granted requests of the queue decides. -/
structure Decided (w w' : World) (c t : Nat) (m : LockMode) (l : Lock_data_id) (accepted : Bool) : Prop where
  calls : w'.calls = w.calls.set c (.returned accepted)
  state : (w'.txns t).state_ = if accepted then (w.txns t).state_ else .aborted
  sets : (w'.txns t).get_lock_set =
    if accepted then ((w.txns t).add_lock_set m l).get_lock_set else (w.txns t).get_lock_set
  granted : (w'.lock_map_ l).grantedRequests =
    (w.lock_map_ l).grantedRequests ++ (if accepted then [⟨(w.txns t).txn_id_, m, true⟩] else [])
  others : ∀ k, k ≠ l → w'.lock_map_ k = w.lock_map_ k

section Decide

variable {w : World} {c t : Nat} {m : LockMode} {l : Lock_data_id} {nw : Bool}

theorem enter_new (h : checkSameTxnLockRequest (w.lock_map_ l) (w.txns t).txn_id_ m = .notFound) :
    w.enter nw c t m l = (w.setQueue l ((w.lock_map_ l).emplace_back (w.txns t).txn_id_ m)).await nw .new c t m l
      (w.lock_map_ l).allocated := by
  unfold World.enter
  dsimp only
  rw [h]

theorem decided_granted (hq : QueueOk (w.lock_map_ l)) {q : LockRequestQueue}
    (hq' : q = (w.lock_map_ l).emplace_back (w.txns t).txn_id_ m) :
    Decided w ((w.setQueue l q).granted .new c t m l (w.lock_map_ l).allocated) c t m l true := by
  subst hq'
  constructor
  · rfl
  · simp [World.granted, World.returnTrue, World.setTxn, World.setCall, World.setQueue, Transaction.add_lock_set]
  · simp [World.granted, World.returnTrue, World.setTxn, World.setCall, World.setQueue]
  · unfold World.granted LockRequestQueue.grantedRequests
    rw [returnTrue_lock_map, setQueue_self, setQueue_self, if_neg (by decide), requestList_grant_emplace_back hq,
      List.filter_append]
    simp
  · intro k hk
    unfold World.granted
    rw [returnTrue_lock_map, setQueue_ne _ hk, setQueue_ne _ hk]

theorem decided_aborted (hq : QueueOk (w.lock_map_ l)) {q : LockRequestQueue}
    (hq' : q = (w.lock_map_ l).emplace_back (w.txns t).txn_id_ m) :
    Decided w ((w.setQueue l q).abort c t) c t m l false := by
  subst hq'
  constructor
  · rfl
  · simp [World.abort, World.setCall, World.setState, World.setTxn]
  · simp [World.abort, World.setCall, World.setState, World.setTxn, World.setQueue]
  · unfold LockRequestQueue.grantedRequests
    rw [abort_lock_map, setQueue_self, requestList_emplace_back hq, List.filter_append]
    simp
  · intro k hk
    rw [abort_lock_map, setQueue_ne _ hk]

/-- Every granted request of another transaction in the queue of `l` is compatible with the mode. -/
def World.OthersCompatible (w : World) (t : Nat) (m : LockMode) (l : Lock_data_id) : Prop :=
  ∀ x ∈ (w.lock_map_ l).grantedRequests, x.txn_id_ ≠ (w.txns t).txn_id_ → compatible x.lock_mode_ m = true

instance : Decidable (w.OthersCompatible t m l) :=
  inferInstanceAs (Decidable (∀ x ∈ (w.lock_map_ l).grantedRequests, _))

/-- **The critical section of a new request under no-wait.** -/
theorem enter_decided (hq : QueuesOk w) (hstate : (w.txns t).state_ ≠ .aborted)
    (hfree : ∀ x ∈ (w.lock_map_ l).requestList, x.txn_id_ ≠ (w.txns t).txn_id_) :
    Decided w (w.enter true c t m l) c t m l (decide (w.OthersCompatible t m l)) := by
  have hcompat : ((w.lock_map_ l).emplace_back (w.txns t).txn_id_ m).checkQueueCompatible (w.lock_map_ l).allocated = true ↔
      w.OthersCompatible t m l := by
    rw [checkQueueCompatible_emplace_back (hq l)]
    constructor
    · intro h x hx _
      exact h x hx
    · intro h x hx
      exact h x hx (hfree x (List.mem_of_mem_filter hx))
  rw [enter_new (found_notFound hfree)]
  unfold World.await
  rw [if_neg (show ((w.setQueue l _).txns t).state_ ≠ .aborted from hstate), setQueue_self]
  by_cases h : w.OthersCompatible t m l
  · rw [if_pos (hcompat.mpr h), decide_eq_true h]
    exact decided_granted (hq l) rfl
  · rw [if_neg (fun hc => h (hcompat.mp hc)), if_pos rfl, decide_eq_false h]
    exact decided_aborted (hq l) rfl

end Decide

/-- **No-wait locking is exact and never blocks.** The head of a call of a `DEFAULT` or `GROWING` transaction passes; and
    when the call comes to its critical section, its transaction still `GROWING` and without a request in the queue, it
    returns there: true, with the request granted, if the granted requests of the others are compatible, else false, with
    the transaction aborted and nothing granted. -/
theorem noWait_exact {txns : Nat → Transaction} {es : List Event} {w : World}
    (h : Run (step true) (World.init txns) es w) {t : Nat} {m : LockMode} {l : Lock_data_id}
    (hstate : (w.txns t).state_ = .default ∨ (w.txns t).state_ = .growing) (hm : World.modeAllowed l m = true) :
    ∃ w₁, step true w (.lock t m l) w₁ ∧ w₁.calls = w.calls ++ [.entering t m l] ∧ w₁.lock_map_ = w.lock_map_ ∧
      (w₁.txns t).state_ = .growing ∧
      ∀ es₁ w₂, Run (step true) w₁ es₁ w₂ → w₂.calls[w.calls.length]? = some (.entering t m l) →
        (w₂.txns t).state_ = .growing → (∀ x ∈ (w₂.lock_map_ l).requestList, x.txn_id_ ≠ (w₂.txns t).txn_id_) →
        ∃ w₃, step true w₂ (.enter w.calls.length) w₃ ∧
          Decided w₂ w₃ w.calls.length t m l (decide (w₂.OthersCompatible t m l)) := by
  obtain ⟨-, hgrowing, hmap, hcalls⟩ := lock_admits hstate hm
  refine ⟨w.lock t m l, rfl, hcalls, hmap, hgrowing, ?_⟩
  intro es₁ w₂ hrun hcall hstate₂ hfree
  have hlock : Run (step true) (World.init txns) (es ++ [.lock t m l]) (w.lock t m l) := Run.tail h rfl
  have hq : QueuesOk w₂ :=
    (hlock.append hrun).invariant (fun _ _ _ hi hst => queuesOk_step hi hst) (queuesOk_init txns)
  refine ⟨w₂.enter true w.calls.length t m l, ?_, ?_⟩
  · simp only [step, FunStep, next, hcall]
  · exact enter_decided hq (by rw [hstate₂]; decide) hfree

/-- Transaction 1 reads a row; 2 asks to read it too, or to write it. -/
theorem noWait_exact_secondCall :
    ∃ w, Run (step true) (World.init someTxns) [LockRow 0 .shared 1 1 1, .enter 0] w ∧
      (∃ w₁ w₃, step true w (LockRow 1 .shared 1 1 1) w₁ ∧ step true w₁ (.enter 1) w₃ ∧
        Decided w₁ w₃ 1 1 .shared someRow true) ∧
      ∃ w₁ w₃, step true w (LockRow 1 .exlucsive 1 1 1) w₁ ∧ step true w₁ (.enter 1) w₃ ∧
        Decided w₁ w₃ 1 1 .exlucsive someRow false := by
  obtain ⟨w, hrun, hw⟩ : ∃ w, Run (step true) (World.init someTxns) [LockRow 0 .shared 1 1 1, .enter 0] w ∧
      (w.calls.length, (w.txns 1).state_, (w.lock_map_ someRow).requestList, (w.txns 1).txn_id_) =
        (1, .default, [⟨1, .shared, true⟩], 2) :=
    Run.exists_of_map (f := fun w : World =>
      (w.calls.length, (w.txns 1).state_, (w.lock_map_ someRow).requestList, (w.txns 1).txn_id_)) (by decide)
  simp only [Prod.mk.injEq] at hw
  obtain ⟨hlen, hstate, hlist, hid⟩ := hw
  have hone : ∀ m, (World.modeAllowed someRow m = true) → ∃ w₁ w₃, step true w (.lock 1 m someRow) w₁ ∧
      step true w₁ (.enter 1) w₃ ∧ Decided w₁ w₃ 1 1 m someRow (compatible .shared m) := by
    intro m hm
    obtain ⟨w₁, hst, hcalls, hmap, hgrowing, hall⟩ := noWait_exact hrun (Or.inl hstate) hm
    rw [hlen] at hall
    have hid₁ : (w₁.txns 1).txn_id_ = 2 := (sameIds_step hst 1).trans hid
    obtain ⟨w₃, hst₃, hdec⟩ := hall [] w₁ Run.refl (by rw [hcalls, ← hlen]; simp) hgrowing (by
      rw [hmap, hlist, hid₁]
      decide)
    refine ⟨w₁, w₃, hst, hst₃, ?_⟩
    have hiff : w₁.OthersCompatible 1 m someRow ↔ compatible .shared m = true := by
      simp [World.OthersCompatible, LockRequestQueue.grantedRequests, hmap, hlist, hid₁]
    simpa [hiff] using hdec
  exact ⟨w, hrun, hone .shared (by decide), hone .exlucsive (by decide)⟩

/-! ## The queue after a failed call -/

/-- The call that a step is about, with its transaction, its mode and its item. -/
def World.target (w : World) : Event → Option (Nat × Nat × LockMode × Lock_data_id)
  | .lock t m l => some (w.calls.length, t, m, l)
  | .enter c | .wake c =>
    match w.calls[c]? with
    | some (.entering t m l) | some (.waiting _ t m l _) => some (c, t, m, l)
    | _ => none
  | _ => none

/-- The transaction's request in the queue, if it has one, is not going to be rewritten, and it has one: it has the mode
    asked for already, or an upgrade is under way, or this upgrade is inadmissible. -/
def World.KeepsQueue (w : World) (t : Nat) (m : LockMode) (l : Lock_data_id) : Prop :=
  ∃ x, (w.lock_map_ l).requestList.find? (fun x => x.txn_id_ == (w.txns t).txn_id_) = some x ∧
    (x.lock_mode_ = m ∨ (w.lock_map_ l).upgrading_ = true ∨ isUpdateCompatible x m = false)

section Failed

variable {w w' : World} {c t : Nat} {m : LockMode} {l : Lock_data_id} {r : Nat}

theorem keepsQueue_iff : w.KeepsQueue t m l ↔
    ∃ r, (w.lock_map_ l).request_queue_.find?
        (fun a => ((w.lock_map_ l).requests a).txn_id_ == (w.txns t).txn_id_) = some r ∧
      (((w.lock_map_ l).requests r).lock_mode_ = m ∨ (w.lock_map_ l).upgrading_ = true ∨
        isUpdateCompatible ((w.lock_map_ l).requests r) m = false) := by
  unfold World.KeepsQueue LockRequestQueue.requestList
  rw [List.find?_map]
  constructor
  · rintro ⟨x, hx, hcond⟩
    obtain ⟨r, hr, rfl⟩ := Option.map_eq_some_iff.mp hx
    exact ⟨r, hr, hcond⟩
  · rintro ⟨r, hr, hcond⟩
    exact ⟨_, Option.map_eq_some_iff.mpr ⟨r, hr, rfl⟩, hcond⟩

/-- The branches of the first look at the queue that rewrite nothing. -/
theorem keepsQueue_iff_found : w.KeepsQueue t m l ↔
    checkSameTxnLockRequest (w.lock_map_ l) (w.txns t).txn_id_ m ≠ .notFound ∧
      ∀ r, checkSameTxnLockRequest (w.lock_map_ l) (w.txns t).txn_id_ m ≠ .upgrade r := by
  rw [keepsQueue_iff]
  unfold checkSameTxnLockRequest
  cases hfind : (w.lock_map_ l).request_queue_.find?
      (fun a => ((w.lock_map_ l).requests a).txn_id_ == (w.txns t).txn_id_) with
  | none => simp
  | some r =>
      by_cases hm : ((w.lock_map_ l).requests r).lock_mode_ = m
      · by_cases hg : ((w.lock_map_ l).requests r).granted_ = true <;> simp [hm, hg]
      · by_cases hu : (w.lock_map_ l).upgrading_ = true
        · simp [hm, hu]
        · by_cases hi : isUpdateCompatible ((w.lock_map_ l).requests r) m = false <;> simp [hm, hu, hi]

/-- A call that fails at the end of a wait leaves the queue as it is then. -/
theorem await_false {site : Site} (hlt : c < w.calls.length)
    (hfalse : (w.await true site c t m l r).calls[c]? = some (.returned false)) :
    (w.await true site c t m l r).lock_map_ = w.lock_map_ := by
  unfold World.await at hfalse ⊢
  split
  · rfl
  · rename_i hs
    rw [if_neg hs] at hfalse
    split
    · rename_i hc
      rw [if_pos hc] at hfalse
      have htrue : (w.granted site c t m l r).calls[c]? = some (.returned true) := List.getElem?_set_self hlt
      rw [htrue] at hfalse
      cases hfalse
    · rfl

/-- An upgrade that has begun shows. -/
theorem upgrade_contents {q : LockRequestQueue} {id : txn_id_t} (h : checkSameTxnLockRequest q id m = .upgrade r) :
    (q.upgrade r m).contents ≠ q.contents := by
  intro heq
  obtain ⟨hmem, -, -⟩ := found_upgrade h
  have hmode : (q.requests r).lock_mode_ ≠ m := by
    intro hm
    unfold checkSameTxnLockRequest at h
    split at h
    · cases h
    · rename_i r' hr
      split at h
      · split at h <;> cases h
      · split at h
        · cases h
        · split at h
          · cases h
          · rename_i hne _ _
            obtain rfl : r' = r := by simpa using h
            exact hne hm
  have hlist : q.request_queue_.map (q.upgrade r m).requests = q.request_queue_.map q.requests := congrArg Prod.fst heq
  have hr := List.map_inj_left.mp hlist r hmem
  rw [upgrade_self] at hr
  exact hmode (congrArg LockRequest.lock_mode_ hr).symm

/-- **The critical section of a call that fails.** -/
theorem enter_false (hq : QueuesOk w) (hlt : c < w.calls.length)
    (hfalse : (w.enter true c t m l).calls[c]? = some (.returned false)) :
    ((w.enter true c t m l).lock_map_ l).contents = (w.lock_map_ l).contents ↔ w.KeepsQueue t m l := by
  rw [keepsQueue_iff_found]
  unfold World.enter at hfalse ⊢
  dsimp only at hfalse ⊢
  split <;> rename_i hf <;> simp only [hf] at hfalse ⊢
  · split at hfalse
    · rename_i hs
      simp [hs]
    · have htrue : (w.returnTrue c t m l).calls[c]? = some (.returned true) := List.getElem?_set_self hlt
      rw [htrue] at hfalse
      cases hfalse
  · rw [await_false hlt hfalse]
    simp
  · simp
  · simp
  · rename_i r
    rw [await_false (w := w.setQueue l _) hlt hfalse, setQueue_self]
    simp [upgrade_contents hf]
  · rw [await_false (w := w.setQueue l _) hlt hfalse, setQueue_self]
    unfold LockRequestQueue.contents
    rw [requestList_emplace_back (hq l)]
    simp

end Failed

/-- **The queue after a failed call.** Under no-wait, a call that returns false leaves the queue of its item as it was
    exactly when it fails at its head, or finds a request of its transaction that it does not rewrite. -/
theorem failed_call_queue {txns : Nat → Transaction} {es : List Event} {w w' : World}
    (h : Run (step true) (World.init txns) es w) {e : Event} (hst : step true w e w') {c t : Nat} {m : LockMode}
    {l : Lock_data_id} (htarget : w.target e = some (c, t, m, l)) (hfalse : w'.calls[c]? = some (.returned false)) :
    (w'.lock_map_ l).contents = (w.lock_map_ l).contents ↔ e = .lock t m l ∨ w.KeepsQueue t m l := by
  cases step_cases hst with
  | @lock t m l =>
      obtain ⟨txns, x, he, -, -⟩ := lock_cases w t m l
      simp only [World.target, Option.some.injEq, Prod.mk.injEq] at htarget
      obtain ⟨rfl, rfl, rfl, rfl⟩ := htarget
      simp [he]
  | @enter c t m l hc =>
      simp only [World.target, hc, Option.some.injEq, Prod.mk.injEq] at htarget
      obtain ⟨rfl, rfl, rfl, rfl⟩ := htarget
      have hq : QueuesOk w := h.invariant (fun _ _ _ hi hst => queuesOk_step hi hst) (queuesOk_init txns)
      have hlt : c < w.calls.length := (List.getElem?_eq_some_iff.mp hc).1
      rw [enter_false hq hlt hfalse]
      simp
  | wake hc =>
      have hblocked : w.NotBlocked :=
        h.invariant (fun _ _ _ hi hst => notBlocked_step hi hst) (fun _ hx => absurd hx List.not_mem_nil)
      cases hblocked _ (List.mem_of_getElem? hc)
  | unlock => cases htarget
  | setState => cases htarget

/-- A writer asks for the shared mode too: an upgrade that is inadmissible. -/
def writerAsksToRead : List Event := [LockRow 0 .exlucsive 1 1 1, .enter 0, LockRow 0 .shared 1 1 1]

theorem failed_call_queue_writerAsksToRead :
    ∃ w w', Run (step true) (World.init someTxns) writerAsksToRead w ∧ step true w (.enter 1) w' ∧
      w'.calls[1]? = some (.returned false) ∧
      ((w'.lock_map_ someRow).contents = (w.lock_map_ someRow).contents ↔
        Event.enter 1 = .lock 0 .shared someRow ∨ w.KeepsQueue 0 .shared someRow) := by
  obtain ⟨w, hrun, hw⟩ : ∃ w, Run (step true) (World.init someTxns) writerAsksToRead w ∧
      (w.calls[1]?, ((next true w (.enter 1)).map fun w' : World => w'.calls[1]?)) =
        (some (Call.entering 0 .shared someRow), some (some (Call.returned false))) :=
    Run.exists_of_map (f := fun w : World => (w.calls[1]?, (next true w (.enter 1)).map fun w' : World => w'.calls[1]?))
      (by decide)
  obtain ⟨hcall, hnext⟩ := Prod.mk.inj hw
  obtain ⟨w', hst, hfalse⟩ := Option.map_eq_some_iff.mp hnext
  refine ⟨w, w', hrun, hst, hfalse, failed_call_queue hrun hst ?_ hfalse⟩
  simp only [World.target, hcall]

/-- A writer, and a second writer that is refused. -/
def secondWriter : List Event := [LockRow 0 .exlucsive 1 1 1, .enter 0, LockRow 1 .exlucsive 1 1 1]

/-- **A refused request stays in the queue.** -/
theorem refused_request_stays :
    ∃ w w', Run (step true) (World.init someTxns) secondWriter w ∧ step true w (.enter 1) w' ∧
      w.target (.enter 1) = some (1, 1, .exlucsive, someRow) ∧ w'.calls[1]? = some (.returned false) ∧
      (w.lock_map_ someRow).contents = ([⟨1, .exlucsive, true⟩], false) ∧
      (w'.lock_map_ someRow).contents = ([⟨1, .exlucsive, true⟩, ⟨2, .exlucsive, false⟩], false) := by
  obtain ⟨w, hrun, hw⟩ : ∃ w, Run (step true) (World.init someTxns) secondWriter w ∧
      (w.calls[1]?, (w.lock_map_ someRow).contents) =
        (some (Call.entering 1 .exlucsive someRow), [⟨1, .exlucsive, true⟩], false) :=
    Run.exists_of_map (f := fun w : World => (w.calls[1]?, (w.lock_map_ someRow).contents)) (by decide)
  obtain ⟨w', hrun', hw'⟩ : ∃ w', Run (step true) (World.init someTxns) (secondWriter ++ [Event.enter 1]) w' ∧
      (w'.calls[1]?, (w'.lock_map_ someRow).contents) =
        (some (Call.returned false), [⟨1, .exlucsive, true⟩, ⟨2, .exlucsive, false⟩], false) :=
    Run.exists_of_map (f := fun w : World => (w.calls[1]?, (w.lock_map_ someRow).contents)) (by decide)
  obtain ⟨v, hv, hst⟩ := hrun'.snoc_inv
  obtain rfl : v = w := Run.functional hv hrun
  obtain ⟨hcall, hbefore⟩ := Prod.mk.inj hw
  obtain ⟨hfalse, hafter⟩ := Prod.mk.inj hw'
  exact ⟨v, w', hrun, hst, by simp only [World.target, hcall], hfalse, hbefore, hafter⟩

end Lock_manager
end DDBMS
