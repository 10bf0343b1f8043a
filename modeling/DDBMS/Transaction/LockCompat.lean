import DDBMS.Transaction.LockManager

/-!
# `Transaction.LockCompat` — granted requests of one queue are compatible

The invariant is about one queue at a time (`QueueOk`): granted requests are pairwise compatible. A queue
changes in five ways only (a new request, an upgrade, a grant, the end of an upgrade, a release), and each
keeps it: new requests and upgrades start ungranted, and the one place that grants, `World.await`, tests the
whole queue in the same critical section. Which call waits where, how often it is woken and what else
happens in between does not matter, so the result holds in both modes and for overlapping calls of one
transaction.
-/

namespace DDBMS
namespace Lock_manager

/-- The compatibility matrix of the modes IS, IX, S, SIX and X. -/
def compatible : LockMode → LockMode → Bool
  | .intentionShared, m | m, .intentionShared => m != .exlucsive
  | .intentionExclusive, .intentionExclusive => true
  | .shared, .shared => true
  | _, _ => false

theorem isLockCompatible_eq (r : LockRequest) (m : LockMode) :
    isLockCompatible r m = compatible r.lock_mode_ m := by
  obtain ⟨id, mode, g⟩ := r
  cases mode <;> cases m <;> rfl

theorem compatible_symm (m n : LockMode) : compatible m n = compatible n m := by
  cases m <;> cases n <;> rfl

/-- What the test of the whole queue says about one other granted request. -/
theorem checkQueueCompatible_iff {q : LockRequestQueue} {request : Nat} :
    q.checkQueueCompatible request = true ↔
      ∀ a ∈ q.request_queue_, a ≠ request → (q.requests a).granted_ = true →
        compatible (q.requests a).lock_mode_ (q.requests request).lock_mode_ = true := by
  unfold LockRequestQueue.checkQueueCompatible
  rw [List.all_eq_true]
  constructor
  · intro h a ha hne hg
    have := h a ha
    rw [isLockCompatible_eq] at this
    simpa [hne, hg] using this
  · intro h a ha
    rw [isLockCompatible_eq]
    by_cases hne : a = request
    · simp [hne]
    · cases hg : (q.requests a).granted_ with
      | false => simp
      | true => simp [h a ha hne hg]

/-- The invariant of one queue: its pointers are allocated, and granted requests are compatible. -/
structure QueueOk (q : LockRequestQueue) : Prop where
  alloc : ∀ a ∈ q.request_queue_, a < q.allocated
  compat : ∀ a ∈ q.request_queue_, ∀ b ∈ q.request_queue_, a ≠ b →
    (q.requests a).granted_ = true → (q.requests b).granted_ = true →
    compatible (q.requests a).lock_mode_ (q.requests b).lock_mode_ = true

/-! ## The five changes of a queue -/

section Queue

variable {q : LockRequestQueue}

@[simp] theorem upgrade_self (r : Nat) (m : LockMode) :
    (q.upgrade r m).requests r = { q.requests r with lock_mode_ := m, granted_ := false } := by
  simp [LockRequestQueue.upgrade]

theorem upgrade_ne {r a : Nat} (m : LockMode) (h : a ≠ r) :
    (q.upgrade r m).requests a = q.requests a := by
  simp [LockRequestQueue.upgrade, h]

@[simp] theorem grant_self (r : Nat) : (q.grant r).requests r = { q.requests r with granted_ := true } := by
  simp [LockRequestQueue.grant]

theorem grant_ne {r a : Nat} (h : a ≠ r) : (q.grant r).requests a = q.requests a := by
  simp [LockRequestQueue.grant, h]

@[simp] theorem grant_queue (r : Nat) : (q.grant r).request_queue_ = q.request_queue_ := rfl

@[simp] theorem upgrade_queue (r : Nat) (m : LockMode) :
    (q.upgrade r m).request_queue_ = q.request_queue_ := rfl

@[simp] theorem emplace_back_self (id : txn_id_t) (m : LockMode) :
    (q.emplace_back id m).requests q.allocated = ⟨id, m, false⟩ := by
  simp [LockRequestQueue.emplace_back]

theorem emplace_back_ne {a : Nat} (id : txn_id_t) (m : LockMode) (h : a ≠ q.allocated) :
    (q.emplace_back id m).requests a = q.requests a := by
  simp [LockRequestQueue.emplace_back, h]

@[simp] theorem emplace_back_queue (id : txn_id_t) (m : LockMode) :
    (q.emplace_back id m).request_queue_ = q.request_queue_ ++ [q.allocated] := rfl

theorem QueueOk.empty : QueueOk {} :=
  ⟨fun _ ha => absurd ha List.not_mem_nil, fun _ ha => absurd ha List.not_mem_nil⟩

theorem QueueOk.emplace_back (h : QueueOk q) (id : txn_id_t) (m : LockMode) :
    QueueOk (q.emplace_back id m) := by
  have hold : ∀ a ∈ (q.emplace_back id m).request_queue_,
      ((q.emplace_back id m).requests a).granted_ = true →
      a ∈ q.request_queue_ ∧ (q.emplace_back id m).requests a = q.requests a := by
    intro a ha hg
    rcases List.mem_append.mp ha with ha | ha
    · have := h.alloc a ha
      exact ⟨ha, emplace_back_ne id m (by omega)⟩
    · rw [List.mem_singleton.mp ha, emplace_back_self] at hg
      cases hg
  constructor
  · intro a ha
    show a < q.allocated + 1
    rcases List.mem_append.mp ha with ha | ha
    · have := h.alloc a ha; omega
    · rw [List.mem_singleton.mp ha]; omega
  · intro a ha b hb hne hga hgb
    obtain ⟨ha', hra⟩ := hold a ha hga
    obtain ⟨hb', hrb⟩ := hold b hb hgb
    rw [hra] at hga ⊢
    rw [hrb] at hgb ⊢
    exact h.compat a ha' b hb' hne hga hgb

theorem QueueOk.upgrade (h : QueueOk q) (r : Nat) (m : LockMode) : QueueOk (q.upgrade r m) := by
  refine ⟨h.alloc, ?_⟩
  intro a ha b hb hne hga hgb
  have har : a ≠ r := by rintro rfl; simp at hga
  have hbr : b ≠ r := by rintro rfl; simp at hgb
  rw [upgrade_ne m har] at hga ⊢
  rw [upgrade_ne m hbr] at hgb ⊢
  exact h.compat a ha b hb hne hga hgb

theorem QueueOk.grant (h : QueueOk q) {r : Nat} (hc : q.checkQueueCompatible r = true) :
    QueueOk (q.grant r) := by
  rw [checkQueueCompatible_iff] at hc
  refine ⟨h.alloc, ?_⟩
  intro a ha b hb hne hga hgb
  by_cases har : a = r
  · subst har
    have hba : b ≠ a := Ne.symm hne
    rw [grant_ne hba] at hgb ⊢
    rw [grant_self, compatible_symm]
    exact hc b hb hba hgb
  · rw [grant_ne har] at hga ⊢
    by_cases hbr : b = r
    · subst hbr
      rw [grant_self]
      exact hc a ha har hga
    · rw [grant_ne hbr] at hgb ⊢
      exact h.compat a ha b hb hne hga hgb

theorem QueueOk.setUpgrading (h : QueueOk q) (u : Bool) : QueueOk { q with upgrading_ := u } :=
  ⟨h.alloc, h.compat⟩

theorem QueueOk.erase (h : QueueOk q) (r : Nat) :
    QueueOk { q with request_queue_ := q.request_queue_.erase r } :=
  ⟨fun a ha => h.alloc a (List.mem_of_mem_erase ha),
    fun a ha b hb => h.compat a (List.mem_of_mem_erase ha) b (List.mem_of_mem_erase hb)⟩

end Queue

/-! ## The queues along a step -/

/-- The queues of a world, whatever its calls, transactions and history are. -/
def QueuesOk (w : World) : Prop := ∀ l, QueueOk (w.lock_map_ l)

section World

variable {w : World}

@[simp] theorem setTxn_lock_map (t : Nat) (x : Transaction) : (w.setTxn t x).lock_map_ = w.lock_map_ := rfl

@[simp] theorem setState_lock_map (t : Nat) (s : TransactionState) :
    (w.setState t s).lock_map_ = w.lock_map_ := rfl

@[simp] theorem setCall_lock_map (c : Nat) (x : Call) : (w.setCall c x).lock_map_ = w.lock_map_ := rfl

@[simp] theorem abort_lock_map (c t : Nat) : (w.abort c t).lock_map_ = w.lock_map_ := rfl

@[simp] theorem returnTrue_lock_map (c t : Nat) (m : LockMode) (l : Lock_data_id) :
    (w.returnTrue c t m l).lock_map_ = w.lock_map_ := rfl

@[simp] theorem setQueue_self (l : Lock_data_id) (q : LockRequestQueue) :
    (w.setQueue l q).lock_map_ l = q := by
  simp [World.setQueue]

theorem setQueue_ne {l k : Lock_data_id} (q : LockRequestQueue) (h : k ≠ l) :
    (w.setQueue l q).lock_map_ k = w.lock_map_ k := by
  simp [World.setQueue, h]

theorem QueuesOk.setQueue (h : QueuesOk w) {l : Lock_data_id} {q : LockRequestQueue} (hq : QueueOk q) :
    QueuesOk (w.setQueue l q) := by
  intro k
  by_cases hk : k = l
  · subst hk; rw [setQueue_self]; exact hq
  · rw [setQueue_ne q hk]; exact h k

theorem QueuesOk.granted (h : QueuesOk w) {site : Site} {c t : Nat} {m : LockMode} {l : Lock_data_id}
    {r : Nat} (hc : (w.lock_map_ l).checkQueueCompatible r = true) :
    QueuesOk (w.granted site c t m l r) := by
  have hg := (h l).grant hc
  have hq : QueueOk (if site = .upgrade then { (w.lock_map_ l).grant r with upgrading_ := false }
      else (w.lock_map_ l).grant r) := by
    split
    · exact hg.setUpgrading false
    · exact hg
  exact fun k => (h.setQueue (l := l) hq) k

/-- The four ways an evaluation of the wait predicate ends. -/
theorem await_cases (nw : Bool) (w : World) (site : Site) (c t : Nat) (m : LockMode) (l : Lock_data_id)
    (r : Nat) :
    w.await nw site c t m l r = w.abort c t ∨
    ((w.txns t).state_ ≠ .aborted ∧ (w.lock_map_ l).checkQueueCompatible r = true ∧
      w.await nw site c t m l r = w.granted site c t m l r) ∨
    w.await nw site c t m l r = w.setCall c (.waiting site t m l r) := by
  unfold World.await
  split
  · exact Or.inl rfl
  · rename_i hs
    split
    · rename_i hc; exact Or.inr (Or.inl ⟨hs, hc, rfl⟩)
    · split
      · exact Or.inl rfl
      · exact Or.inr (Or.inr rfl)

theorem QueuesOk.await (h : QueuesOk w) (nw : Bool) (site : Site) (c t : Nat) (m : LockMode)
    (l : Lock_data_id) (r : Nat) : QueuesOk (w.await nw site c t m l r) := by
  rcases await_cases nw w site c t m l r with he | ⟨-, hc, he⟩ | he <;> rw [he]
  · exact h
  · exact h.granted hc
  · exact h

theorem QueuesOk.enter (h : QueuesOk w) (nw : Bool) (c t : Nat) (m : LockMode) (l : Lock_data_id) :
    QueuesOk (w.enter nw c t m l) := by
  unfold World.enter
  dsimp only
  split
  · split <;> exact h
  · exact h.await nw _ c t m l _
  · exact h
  · exact h
  · exact (h.setQueue ((h l).upgrade _ m)).await nw _ c t m l _
  · exact (h.setQueue ((h l).emplace_back _ m)).await nw _ c t m l _

/-- What the head of a `Lock*` call does: states of transactions, and one more call. -/
theorem lock_cases (w : World) (t : Nat) (m : LockMode) (l : Lock_data_id) :
    ∃ txns x, w.lock t m l = { w with txns := txns, calls := w.calls ++ [x] } ∧
      (∀ u, (txns u).txn_id_ = (w.txns u).txn_id_) ∧ (x = .returned false ∨ x = .entering t m l) := by
  have hset : ∀ (v : World) (s : TransactionState) u,
      ((v.setState t s).txns u).txn_id_ = (v.txns u).txn_id_ := by
    intro v s u
    by_cases hu : u = t
    · subst hu; simp [World.setState, World.setTxn]
    · simp [World.setState, World.setTxn, hu]
  obtain ⟨v, hv, hw, hids⟩ : ∃ v : World,
      v = (if (w.txns t).state_ = .default then w.setState t .growing else w) ∧
      v = { w with txns := v.txns } ∧ ∀ u, (v.txns u).txn_id_ = (w.txns u).txn_id_ := by
    refine ⟨_, rfl, ?_⟩
    split
    · exact ⟨rfl, hset w .growing⟩
    · exact ⟨rfl, fun _ => rfl⟩
  unfold World.lock
  rw [← hv]
  dsimp only
  split
  · exact ⟨_, _, by rw [hw]; rfl, fun u => (hset v .aborted u).trans (hids u), Or.inl rfl⟩
  · split
    · exact ⟨_, _, by rw [hw]; rfl, fun u => (hset v .aborted u).trans (hids u), Or.inl rfl⟩
    · exact ⟨_, _, by rw [hw], hids, Or.inr rfl⟩

/-- The queue after the release of a request. -/
def LockRequestQueue.drop (q : LockRequestQueue) (request : Nat) : LockRequestQueue :=
  { q with request_queue_ := q.request_queue_.erase request }

/-- What an `UnLock*` call does: nothing to the queues when the transaction has no granted request there,
    else the first such request goes. -/
theorem unlock_cases (w : World) (t : Nat) (l : Lock_data_id) :
    ∃ txns, (∀ u, (txns u).txn_id_ = (w.txns u).txn_id_) ∧
      ((w.releasable t l = none ∧ w.unlock t l = { w with txns := txns }) ∨
        ∃ a, w.releasable t l = some a ∧
          w.unlock t l = { w.setQueue l ((w.lock_map_ l).drop a) with
            txns := txns, history := w.history ++ [.unlocked (w.txns t).txn_id_ l] }) := by
  have hset : ∀ (v : World) (x : Transaction), x.txn_id_ = (v.txns t).txn_id_ →
      ∀ u, ((v.setTxn t x).txns u).txn_id_ = (v.txns u).txn_id_ := by
    intro v x hx u
    by_cases hu : u = t
    · subst hu; simp [World.setTxn, hx]
    · simp [World.setTxn, hu]
  obtain ⟨v, hv, hw, hids⟩ : ∃ v : World,
      v = (if (w.txns t).state_ = .growing then w.setState t .shrinking else w) ∧
      v = { w with txns := v.txns } ∧ ∀ u, (v.txns u).txn_id_ = (w.txns u).txn_id_ := by
    refine ⟨_, rfl, ?_⟩
    split
    · exact ⟨rfl, hset w _ rfl⟩
    · exact ⟨rfl, fun _ => rfl⟩
  have hrel : v.releasable t l = w.releasable t l := by
    unfold World.releasable
    rw [hids t, hw]
  unfold World.unlock World.Unlock
  rw [← hv]
  dsimp only
  rw [hrel]
  cases hr : w.releasable t l with
  | none =>
      let v' := v.setState t .aborted
      refine ⟨(v'.setTxn t ((v'.txns t).erase_lock_sets l)).txns, fun u => ?_, Or.inl ⟨rfl, ?_⟩⟩
      · exact ((hset v' ((v'.txns t).erase_lock_sets l) rfl u).trans
          (hset v { v.txns t with state_ := .aborted } rfl u)).trans (hids u)
      · dsimp only
        rw [hw]
        rfl
  | some a =>
      refine ⟨(v.setTxn t ((v.txns t).erase_lock_sets l)).txns, fun u => ?_, Or.inr ⟨a, rfl, ?_⟩⟩
      · exact (hset v ((v.txns t).erase_lock_sets l) rfl u).trans (hids u)
      · dsimp only
        rw [← hids t, hw]
        rfl

theorem QueuesOk.unlock (h : QueuesOk w) (t : Nat) (l : Lock_data_id) : QueuesOk (w.unlock t l) := by
  obtain ⟨txns, -, ⟨-, he⟩ | ⟨a, -, he⟩⟩ := unlock_cases w t l
  · rw [he]; exact h
  · rw [he]; exact fun k => (h.setQueue ((h l).erase a)) k

end World

/-! ## What a step does -/

/-- The branches of a step, with the call it continues. -/
inductive Steps (nw : Bool) (w : World) : Event → World → Prop where
  | lock {t : Nat} {m : LockMode} {l : Lock_data_id} : Steps nw w (.lock t m l) (w.lock t m l)
  | enter {c t : Nat} {m : LockMode} {l : Lock_data_id} (hc : w.calls[c]? = some (.entering t m l)) :
      Steps nw w (.enter c) (w.enter nw c t m l)
  | wake {c t r : Nat} {site : Site} {m : LockMode} {l : Lock_data_id} (hc : w.calls[c]? = some (.waiting site t m l r)) :
      Steps nw w (.wake c) (w.await nw site c t m l r)
  | unlock {t : Nat} {l : Lock_data_id} : Steps nw w (.unlock t l) (w.unlock t l)
  | setState {t : Nat} {s : TransactionState} : Steps nw w (.setState t s) (w.setState t s)

theorem step_cases {nw : Bool} {w w' : World} {e : Event} (hst : step nw w e w') : Steps nw w e w' := by
  cases e with
  | lock t m l =>
      obtain rfl := Option.some.inj hst
      exact .lock
  | enter c =>
      simp only [step, FunStep, next] at hst
      split at hst
      · rename_i hc
        obtain rfl := Option.some.inj hst
        exact .enter hc
      · cases hst
  | wake c =>
      simp only [step, FunStep, next] at hst
      split at hst
      · rename_i hc
        obtain rfl := Option.some.inj hst
        exact .wake hc
      · cases hst
  | unlock t l =>
      obtain rfl := Option.some.inj hst
      exact .unlock
  | setState t s =>
      obtain rfl := Option.some.inj hst
      exact .setState

/-- **Step lemma.** Every step keeps the queues in order. -/
theorem queuesOk_step {nw : Bool} {w w' : World} {e : Event} (h : QueuesOk w) (hst : step nw w e w') :
    QueuesOk w' := by
  cases step_cases hst with
  | @lock t m l =>
      obtain ⟨txns, x, he, -, -⟩ := lock_cases w t m l
      rw [he]
      exact h
  | @enter c => exact h.enter nw c _ _ _
  | @wake c => exact h.await nw _ c _ _ _ _
  | @unlock t l => exact h.unlock t l
  | setState => exact h

theorem queuesOk_init (txns : Nat → Transaction) : QueuesOk (World.init txns) := fun _ => QueueOk.empty

/-- Two granted requests of different transactions in the queue of `l` have compatible modes. -/
def World.GrantsCompatible (w : World) (l : Lock_data_id) : Prop :=
  ∀ a ∈ (w.lock_map_ l).request_queue_, ∀ b ∈ (w.lock_map_ l).request_queue_,
    ((w.lock_map_ l).requests a).granted_ = true → ((w.lock_map_ l).requests b).granted_ = true →
    ((w.lock_map_ l).requests a).txn_id_ ≠ ((w.lock_map_ l).requests b).txn_id_ →
    compatible ((w.lock_map_ l).requests a).lock_mode_ ((w.lock_map_ l).requests b).lock_mode_ = true

/-- The item of the runs below. -/
def someRow : Lock_data_id := { oid_ := 1, p_id_ := 1, row_id_ := 1, type_ := .row }

/-- Transaction object `t` has id `t + 1`. -/
def someTxns (t : Nat) : Transaction := { txn_id_ := UInt64.ofNat (t + 1) }

/-- Two readers, then a writer that has to wait, and one reader upgrades after the other has left. -/
def sharedThenUpgrade : List Event :=
  [LockRow 0 .shared 1 1 1, .enter 0, LockRow 1 .shared 1 1 1, .enter 1, LockRow 2 .exlucsive 1 1 1, .enter 2,
    UnLockRow 1 1 1 1, .wake 2, LockRow 0 .exlucsive 1 1 1, .enter 3]

end Lock_manager
end DDBMS
