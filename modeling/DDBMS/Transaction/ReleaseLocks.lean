import DDBMS.Transaction.UnlockSplit

/-!
# `Transaction.ReleaseLocks` — the end of a transaction gives up its locks

`TransactionManager::ReleaseLocks` (`src/transaction/transaction_manager.cpp`) runs over the twelve lock sets of a
transaction, one loop each, and unlocks what it reads there. The unlock takes the element out of the set under the iterator
and out of its sibling sets.

* **Termination.** The iterator has moved on before its element goes, and the elements behind it stay where they are, so it
  never dangles (`releaseLoop_spec`).
* **Completeness.** A granted request of a transaction that issues its calls one after the other is for an item in one of the
  twelve sets (`Covered`), however the calls of the others overlap and whichever calls failed.
* **The state.** `Unlock` aborts the transaction when it finds no request. After calls that did not fail the sets mirror the
  queues, and every element that a loop reads has its request.
* **Two threads of one transaction** can leave a granted request in none of the sets: the erases of an `UnLock*` come after the
  latch, when the row may be locked again (`overlapping_unlock_leaves_lock`).
-/

namespace DDBMS
namespace Lock_manager

/-! ## The loops -/

/-- The loops of `ReleaseLocks`, in the order of the source. -/
def releaseLoops : List (Lock_data_type × LockMode) :=
  [(.row, .shared), (.row, .exlucsive),
    (.partition, .shared), (.partition, .intentionShared), (.partition, .intentionExclusive), (.partition, .sIx),
    (.partition, .exlucsive),
    (.table, .shared), (.table, .intentionShared), (.table, .intentionExclusive), (.table, .sIx), (.table, .exlucsive)]

/-- The item that the `UnLock*` call of a loop names: the call gets the numbers of the element one by one. -/
def releaseItem : Lock_data_type → Lock_data_id → Lock_data_id
  | .table, l => { oid_ := l.oid_, type_ := .table }
  | .partition, l => { oid_ := l.oid_, p_id_ := l.p_id_, type_ := .partition }
  | .row, l => { oid_ := l.oid_, p_id_ := l.p_id_, row_id_ := l.row_id_, type_ := .row }

/-- One loop: the elements from the iterator on, in the iteration order. Reading an element that is no longer in the set
    would be reading through a dangling iterator. -/
def releaseLoop (t : Nat) (ty : Lock_data_type) (m : LockMode) : List Lock_data_id → World → Option World
  | [], w => some w
  | l :: next_iter, w =>
    if l ∈ (w.txns t).get_lock_set ty m then releaseLoop t ty m next_iter (w.unlock t (releaseItem ty l)) else none

/-- The iteration order of an `unordered_set`: every element once. -/
structure IterationOrder where
  list : Finset Lock_data_id → List Lock_data_id
  nodup : ∀ s, (list s).Nodup
  mem : ∀ s l, l ∈ list s ↔ l ∈ s

/-- The twelve loops. Nothing of the transaction runs beside them, so an `UnLock*` is one step. -/
def ReleaseLocks (order : IterationOrder) (t : Nat) (w : World) : Option World :=
  releaseLoops.foldlM
    (fun w p => releaseLoop t p.1 p.2 (order.list ((w.txns t).get_lock_set p.1 p.2)) w) w

/-! ## Granted requests are covered by lock sets -/

/-- The item as an entry point of its type builds it. -/
def ProperItem (l : Lock_data_id) : Prop := releaseItem l.type_ l = l

instance (l : Lock_data_id) : Decidable (ProperItem l) := inferInstanceAs (Decidable (releaseItem l.type_ l = l))

/-- The call is one of `LockTable`, `LockPartition`, `LockRow` and their `UnLock*`. -/
def Event.Proper : Event → Prop
  | .lock _ _ l | .unlock _ l => ProperItem l
  | _ => True

instance (e : Event) : Decidable e.Proper :=
  match e with
  | .lock _ _ l | .unlock _ l => inferInstanceAs (Decidable (ProperItem l))
  | .enter _ | .wake _ | .setState _ _ => isTrue trivial

/-- At most one request for an item; if it is granted, the item is in a lock set. Sets hold items of their own kind. -/
structure Covered (v : View) : Prop where
  one : ∀ l, v.requests l = [] ∨ ∃ r x, v.requests l = [(r, x)]
  granted : ∀ l r x, v.requests l = [(r, x)] → x.granted_ = true → ∃ m, l ∈ v.txn.get_lock_set l.type_ m
  sets : ∀ ty m l, l ∈ v.txn.get_lock_set ty m → ty = l.type_ ∧ ProperItem l ∧ World.modeAllowed l m = true
  entering : ∀ c t m l, v.calls c = some (.entering t m l) → ProperItem l ∧ World.modeAllowed l m = true
  waiting : ∀ c site t m l r, v.calls c = some (.waiting site t m l r) → ProperItem l ∧ World.modeAllowed l m = true

section Covered

variable {v v' : View} {c t r : Nat} {m : LockMode} {l k : Lock_data_id} {site : Site} {b : Bool} {e : Event} {x : LockRequest}

/-- New calls, the rest as it is. -/
theorem Covered.setCall (h : Covered v) {y : Option Call}
    (hy : ∀ z, y = some z → (∀ t m l, z = .entering t m l → ProperItem l ∧ World.modeAllowed l m = true) ∧
      ∀ site t m l r, z = .waiting site t m l r → ProperItem l ∧ World.modeAllowed l m = true) : Covered (v.setCall c y) := by
  refine ⟨h.one, h.granted, h.sets, ?_, ?_⟩
  · intro d t m l hd
    by_cases hdc : d = c
    · simp only [View.setCall, hdc, if_true] at hd
      exact (hy _ hd).1 t m l rfl
    · simp only [View.setCall, hdc, if_false] at hd
      exact h.entering d t m l hd
  · intro d site t m l r hd
    by_cases hdc : d = c
    · simp only [View.setCall, hdc, if_true] at hd
      exact (hy _ hd).2 site t m l r rfl
    · simp only [View.setCall, hdc, if_false] at hd
      exact h.waiting d site t m l r hd

theorem Covered.endCall (h : Covered v) : Covered (v.setCall c none) :=
  h.setCall (fun z hz => by cases hz)

/-- The requests for one item become a list that is not granted. -/
theorem Covered.setRequests (h : Covered v) {xs : List (Nat × LockRequest)} (hone : xs = [] ∨ ∃ r x, xs = [(r, x)])
    (hgranted : ∀ r x, xs = [(r, x)] → x.granted_ = false) : Covered (v.setRequests l xs) := by
  refine ⟨?_, ?_, h.sets, h.entering, h.waiting⟩
  · intro k
    by_cases hk : k = l
    · simpa [View.setRequests, hk] using hone
    · simpa [View.setRequests, hk] using h.one k
  · intro k r x hreq hg
    by_cases hk : k = l
    · simp only [View.setRequests, hk, if_true] at hreq
      rw [hgranted r x hreq] at hg
      cases hg
    · simp only [View.setRequests, hk, if_false] at hreq
      exact h.granted k r x hreq hg

theorem Covered.returnTrue (h : Covered v) (hl : ProperItem l ∧ World.modeAllowed l m = true) : Covered (v.returnTrue c m l) := by
  have hend := h.endCall (c := c)
  refine ⟨h.one, ?_, ?_, hend.entering, hend.waiting⟩
  · intro k r x hreq hg
    obtain ⟨n, hn⟩ := h.granted k r x hreq hg
    exact ⟨n, mem_add_lock_set.mpr (Or.inr hn)⟩
  · intro ty n k hk
    rcases mem_add_lock_set.mp hk with ⟨rfl, rfl, rfl⟩ | hk
    · exact ⟨rfl, hl⟩
    · exact h.sets ty n k hk

/-- A grant comes with the item in the set of the mode. -/
theorem Covered.grant (h : Covered v) (hl : ProperItem l ∧ World.modeAllowed l m = true) : Covered (v.granted c m l r) := by
  have hset := h.returnTrue (c := c) hl
  refine ⟨?_, ?_, hset.sets, hset.entering, hset.waiting⟩
  · intro k
    by_cases hk : k = l
    · simp only [View.granted, View.returnTrue, View.setCall, View.setRequests, hk, if_true]
      rcases h.one l with hnil | ⟨a, y, hone⟩
      · left
        rw [hnil]
        rfl
      · right
        rw [hone]
        exact ⟨_, _, rfl⟩
    · simpa [View.granted, View.returnTrue, View.setCall, View.setRequests, hk] using h.one k
  · intro k a y hreq hg
    by_cases hk : k = l
    · subst hk
      exact ⟨m, mem_add_lock_set.mpr (Or.inl ⟨rfl, rfl, rfl⟩)⟩
    · simp only [View.granted, View.returnTrue, View.setCall, View.setRequests, hk, if_false] at hreq
      exact hset.granted k a y hreq hg

theorem Covered.setState (h : Covered v) (s : TransactionState) : Covered (v.setState s) :=
  ⟨h.one, h.granted, h.sets, h.entering, h.waiting⟩

theorem Covered.await (h : Covered v) (hl : ProperItem l ∧ World.modeAllowed l m = true) (hst : OwnAwait v site c t m l r b v') :
    Covered v' := by
  cases hst with
  | abort => exact (h.setState .aborted).endCall
  | granted => exact h.grant hl
  | blocked =>
      refine h.setCall (fun z hz => ?_)
      obtain rfl := Option.some.inj hz
      refine ⟨fun _ _ _ hx => (by cases hx), ?_⟩
      intro site' t' m' l' r' hx
      cases hx
      exact hl

theorem Covered.enter (h : Covered v) (hc : v.calls c = some (.entering t m l)) (hst : OwnEnter v c t m l b v') : Covered v' := by
  have hl := h.entering c t m l hc
  cases hst with
  | held => exact h.returnTrue hl
  | heldAborted => exact h.endCall
  | pending _ _ _ hawait => exact h.await hl hawait
  | refused => exact (h.setState .aborted).endCall
  | @upgrade r x xs _ _ hreq hawait =>
      refine Covered.await (h.setRequests ?_ ?_) hl hawait
      · right
        rcases h.one l with hnil | ⟨a, y, hone⟩
        · rw [hnil] at hreq; cases hreq
        · rw [hone]
          exact ⟨_, _, rfl⟩
      · intro a y hay
        rcases h.one l with hnil | ⟨a', y', hone⟩
        · rw [hnil] at hreq; cases hreq
        · rw [hone] at hreq
          cases hreq
          rw [hone] at hay
          simp only [List.map_cons, List.map_nil, rewriteAt, if_true, List.cons.injEq, Prod.mk.injEq, and_true] at hay
          rw [← hay.2]
          rfl
  | new hnil hawait =>
      refine Covered.await (h.setRequests (Or.inr ⟨_, _, rfl⟩) ?_) hl hawait
      intro a y hay
      cases hay
      rfl

theorem Covered.unlock (h : Covered v) : Covered (v.unlock l) := by
  have hsets : ∀ found ty m k, k ∈ (unlockedTxn v.txn l found).get_lock_set ty m →
      ty = k.type_ ∧ ProperItem k ∧ World.modeAllowed k m = true :=
    fun found ty m k hk => h.sets ty m k (mem_unlockedTxn.mp hk).2
  have hothers : ∀ found k, k ≠ l → ∀ r x, v.requests k = [(r, x)] → x.granted_ = true →
      ∃ m, k ∈ (unlockedTxn v.txn l found).get_lock_set k.type_ m := by
    intro found k hk r x hreq hg
    obtain ⟨m, hm⟩ := h.granted k r x hreq hg
    exact ⟨m, mem_unlockedTxn.mpr ⟨fun _ => hk, hm⟩⟩
  unfold View.unlock
  cases hfind : (v.requests l).find? (fun x => x.2.granted_) with
  | none =>
      refine ⟨h.one, ?_, hsets false, h.entering, h.waiting⟩
      intro k r x hreq hg
      by_cases hk : k = l
      · subst hk
        rw [show v.requests k = [(r, x)] from hreq] at hfind
        simp [hg] at hfind
      · exact hothers false k hk r x hreq hg
  | some y =>
      have hnil : (v.requests l).erase y = [] := by
        rcases h.one l with hnil | ⟨a, z, hone⟩
        · rw [hnil]
          rfl
        · have hmem := List.mem_of_find?_eq_some hfind
          rw [hone, List.mem_singleton] at hmem
          rw [hone, hmem]
          simp
      refine ⟨?_, ?_, hsets true, h.entering, h.waiting⟩
      · intro k
        by_cases hk : k = l
        · left
          simpa [View.setRequests, hk] using hnil
        · simpa [View.setRequests, hk] using h.one k
      · intro k r x hreq hg
        by_cases hk : k = l
        · simp only [View.setRequests, hk, if_true, hnil] at hreq
          cases hreq
        · simp only [View.setRequests, hk, if_false] at hreq
          exact hothers true k hk r x hreq hg

/-- **Step lemma.** -/
theorem covered_step (h : Covered v) (hst : OwnStep v e b v') (hproper : e.Proper) : Covered v' := by
  cases hst with
  | refused => exact h.setState .aborted
  | passes _ hm _ =>
      refine (h.setState .growing).setCall (fun z hz => ?_)
      obtain rfl := Option.some.inj hz
      refine ⟨?_, fun site t m l r hx => by cases hx⟩
      intro t' m' l' hx
      cases hx
      exact ⟨hproper, hm⟩
  | enter hc henter => exact h.enter hc henter
  | wake hc hawait => exact h.await (h.waiting _ _ _ _ _ _ hc) hawait
  | unlock => exact h.unlock
  | setState => exact h.setState _

end Covered

/-! ## What the loops do -/

/-- Only the transaction `t` and its requests change. -/
structure OnlyOwn (w w' : World) (t : Nat) : Prop where
  txn_id : (w'.txns t).txn_id_ = (w.txns t).txn_id_
  txns : ∀ u, u ≠ t → w'.txns u = w.txns u
  requests : ∀ l T, T ≠ (w.txns t).txn_id_ → (w'.lock_map_ l).requestList.filter (fun x => x.txn_id_ == T) =
    (w.lock_map_ l).requestList.filter (fun x => x.txn_id_ == T)

section Release

variable {w w' w'' : World} {t : Nat} {ty : Lock_data_type} {m : LockMode} {l : Lock_data_id} {ls : List Lock_data_id}
  {P : View → Prop}

theorem OnlyOwn.refl : OnlyOwn w w t := ⟨rfl, fun _ _ => rfl, fun _ _ _ => rfl⟩

theorem OnlyOwn.trans (h : OnlyOwn w w' t) (h' : OnlyOwn w' w'' t) : OnlyOwn w w'' t := by
  refine ⟨h'.txn_id.trans h.txn_id, ?_, ?_⟩
  · intro u hu
    exact (h'.txns u hu).trans (h.txns u hu)
  · intro l T hT
    exact (h'.requests l T (by rw [h.txn_id]; exact hT)).trans (h.requests l T hT)

theorem onlyOwn_unlock : OnlyOwn w (w.unlock t l) t := by
  cases hrel : w.releasable t l with
  | none =>
      rw [unlock_none hrel]
      exact ⟨by simp [unlockedTxn, Transaction.erase_lock_sets], fun u hu => setTxn_ne _ hu, fun _ _ _ => rfl⟩
  | some a =>
      have hid := txn_id_of_releasable hrel
      rw [unlock_some hrel]
      refine ⟨?_, ?_, ?_⟩
      · simp [World.setTxn, unlockedTxn, Transaction.erase_lock_sets]
      · intro u hu
        exact setTxn_ne (w := w.setQueue l _) _ hu
      · intro k T hT
        show ((w.setQueue l ((w.lock_map_ l).drop a)).lock_map_ k).requestList.filter _ = _
        by_cases hk : k = l
        · subst hk
          rw [setQueue_self, own_requestList, own_requestList, own_drop, List.erase_of_not_mem]
          intro hmem
          obtain ⟨-, -, hT'⟩ := mem_own.mp hmem
          exact hT (hT'.symm.trans hid)
        · rw [setQueue_ne _ hk]

theorem unlock_sets {n : LockMode} {k : Lock_data_id} {ty' : Lock_data_type} :
    k ∈ ((w.unlock t l).txns t).get_lock_set ty' n ↔ (ty' = l.type_ → k ≠ l) ∧ k ∈ (w.txns t).get_lock_set ty' n := by
  have htxn : (w.unlock t l).txns t = ((w.view t).unlock l).txn := by
    rw [← view_unlock]
    rfl
  rw [htxn]
  unfold View.unlock
  split <;> exact mem_unlockedTxn

/-- **One loop.** Its iterator never dangles; the elements that it reads leave the sets of the item's type, and nothing else
    does. What an unlock of an element keeps, the loop keeps. -/
theorem releaseLoop_spec (hP : ∀ v l, P v → (∃ ty m, l ∈ v.txn.get_lock_set ty m) → P (v.unlock l))
    (h : Covered (w.view t)) (hw : P (w.view t)) (hnodup : ls.Nodup) (hmem : ∀ l ∈ ls, l ∈ (w.txns t).get_lock_set ty m) :
    ∃ w', releaseLoop t ty m ls w = some w' ∧ Covered (w'.view t) ∧ P (w'.view t) ∧ OnlyOwn w w' t ∧
      ∀ ty' n k, k ∈ (w'.txns t).get_lock_set ty' n ↔ (ty' = ty → k ∉ ls) ∧ k ∈ (w.txns t).get_lock_set ty' n := by
  induction ls generalizing w with
  | nil => exact ⟨w, rfl, h, hw, OnlyOwn.refl, by simp⟩
  | cons l rest ih =>
      have hl : l ∈ (w.txns t).get_lock_set ty m := hmem l List.mem_cons_self
      obtain ⟨hty, hproper, -⟩ := h.sets ty m l hl
      obtain ⟨hnot, hnodup⟩ := List.nodup_cons.mp hnodup
      have hitem : releaseItem ty l = l := by
        rw [hty]
        exact hproper
      have hrest : ∀ k ∈ rest, k ∈ ((w.unlock t l).txns t).get_lock_set ty m := by
        intro k hk
        rw [unlock_sets]
        refine ⟨fun _ => ?_, hmem k (List.mem_cons_of_mem l hk)⟩
        rintro rfl
        exact hnot hk
      have hcovered : Covered ((w.unlock t l).view t) := by
        rw [view_unlock]
        exact h.unlock
      have hPw : P ((w.unlock t l).view t) := by
        rw [view_unlock]
        exact hP _ l hw ⟨ty, m, hl⟩
      obtain ⟨w', hrun, hcov', hP', hown, hsets⟩ := ih hcovered hPw hnodup hrest
      refine ⟨w', ?_, hcov', hP', onlyOwn_unlock.trans hown, ?_⟩
      · rw [releaseLoop, if_pos hl, hitem]
        exact hrun
      · intro ty' n k
        rw [hsets, unlock_sets, ← hty, List.mem_cons, not_or]
        constructor
        · rintro ⟨h₁, h₂, h₃⟩
          exact ⟨fun he => ⟨h₂ he, h₁ he⟩, h₃⟩
        · rintro ⟨h₁, h₂⟩
          exact ⟨fun he => (h₁ he).2, fun he => (h₁ he).1, h₂⟩

/-- **The loops.** -/
theorem releaseLoops_spec (order : IterationOrder)
    (hP : ∀ v l, P v → (∃ ty m, l ∈ v.txn.get_lock_set ty m) → P (v.unlock l)) (ps : List (Lock_data_type × LockMode))
    (h : Covered (w.view t)) (hw : P (w.view t)) :
    ∃ w', ps.foldlM (fun w p => releaseLoop t p.1 p.2 (order.list ((w.txns t).get_lock_set p.1 p.2)) w) w = some w' ∧
      Covered (w'.view t) ∧ P (w'.view t) ∧ OnlyOwn w w' t ∧
      (∀ ty n k, k ∈ (w'.txns t).get_lock_set ty n → k ∈ (w.txns t).get_lock_set ty n) ∧
      ∀ p ∈ ps, (w'.txns t).get_lock_set p.1 p.2 = ∅ := by
  induction ps generalizing w with
  | nil => exact ⟨w, rfl, h, hw, OnlyOwn.refl, fun _ _ _ hk => hk, fun p hp => absurd hp List.not_mem_nil⟩
  | cons p ps ih =>
      have horder : ∀ l ∈ order.list ((w.txns t).get_lock_set p.1 p.2), l ∈ (w.txns t).get_lock_set p.1 p.2 :=
        fun l hl => (order.mem _ l).mp hl
      obtain ⟨w₁, hloop, hcov, hPw, hown, hsets⟩ := releaseLoop_spec hP h hw (order.nodup _) horder
      obtain ⟨w', hrun, hcov', hP', hown', hsub, hempty⟩ := ih hcov hPw
      refine ⟨w', ?_, hcov', hP', hown.trans hown', ?_, ?_⟩
      · rw [List.foldlM_cons, hloop]
        exact hrun
      · intro ty n k hk
        exact ((hsets ty n k).mp (hsub ty n k hk)).2
      · intro q hq
        rcases List.mem_cons.mp hq with rfl | hq
        · -- emptied by this loop, and no later loop fills it
          rw [Finset.eq_empty_iff_forall_notMem]
          intro k hk
          obtain ⟨hnot, hmem⟩ := (hsets q.1 q.2 k).mp (hsub q.1 q.2 k hk)
          exact hnot rfl ((order.mem _ k).mpr hmem)
        · exact hempty q hq

end Release

/-- Every set that a call fills has its loop. -/
theorem mem_releaseLoops {l : Lock_data_id} {m : LockMode} (h : World.modeAllowed l m = true) :
    (l.type_, m) ∈ releaseLoops := by
  unfold World.modeAllowed at h
  cases hty : l.type_ <;> cases m <;> simp [hty] at h <;> decide

/-! ## Every reachable state -/

/-- The calls are those of the entry points. -/
def SplitEvent.Proper (e : SplitEvent) : Prop := ∀ x ∈ e.event?, x.Proper

instance (e : SplitEvent) : Decidable e.Proper := inferInstanceAs (Decidable (∀ x ∈ e.event?, x.Proper))

/-- The runs of the lock manager: distinct transactions, and items as the entry points build them. -/
def UseOk (used : Finset Nat) (_ : SplitWorld) (e : SplitEvent) : Prop := e.UsedBy used ∧ e.Proper

instance (used : Finset Nat) (s : SplitWorld) (e : SplitEvent) : Decidable (UseOk used s e) :=
  inferInstanceAs (Decidable (_ ∧ _))

/-- In these runs `t` issues its calls one after the other. -/
def SequentialUse (used : Finset Nat) (t : Nat) (s : SplitWorld) (e : SplitEvent) : Prop :=
  UseOk used s e ∧ SequentialFor t s e

instance (used : Finset Nat) (t : Nat) (s : SplitWorld) (e : SplitEvent) : Decidable (SequentialUse used t s e) :=
  inferInstanceAs (Decidable (_ ∧ _))

/-- A step of these runs by which no call of `t` fails. -/
def CleanStep (enable_no_wait : Bool) (used : Finset Nat) (t : Nat) (s : SplitWorld) (e : SplitEvent) (s' : SplitWorld) : Prop :=
  Guarded (SequentialUse used t) (SplitWorld.step enable_no_wait) s e s' ∧
    (s.actor e = some t →
      ∀ c : Nat, s'.world.calls[c]? = some (.returned false) → s.world.calls[c]? = some (.returned false))

/-- What `ReleaseLocks` leaves of transaction `t`. -/
structure AllReleased (w w' : World) (t : Nat) : Prop where
  sets : ∀ p ∈ releaseLoops, (w'.txns t).get_lock_set p.1 p.2 = ∅
  requests : ∀ l, ∀ x ∈ (w'.lock_map_ l).requestList, x.txn_id_ = (w'.txns t).txn_id_ → x.granted_ = false
  others : OnlyOwn w w' t

section Runs

variable {used : Finset Nat} {ids : Nat → txn_id_t} {es : List SplitEvent} {s s' : SplitWorld} {w w' : World} {t : Nat} {nw : Bool}

theorem covered_init : Covered ((World.init (newTxns ids)).view t) := by
  refine ⟨fun l => Or.inl rfl, fun l r x hreq => ?_, ?_, ?_, ?_⟩
  · cases hreq
  · intro ty m l hl
    simp [World.view, World.init, newTxns] at hl
  · intro c t m l hc
    simp [World.view, World.init] at hc
  · intro c site t m l r hc
    simp [World.view, World.init] at hc

theorem settled_init : (SplitWorld.init (newTxns ids)).settled t = (World.init (newTxns ids)).view t :=
  settled_erased (fun _ hx => absurd hx List.not_mem_nil)

theorem covered_run (hids : Set.InjOn ids (used : Set Nat)) (ht : t ∈ used)
    (h : Run (Guarded (SequentialUse used t) (SplitWorld.step nw)) (SplitWorld.init (newTxns ids)) es s) :
    Covered (s.settled t) := by
  refine (h.invariant (I := fun s => InSequence used s t ∧ Covered (s.settled t)) ?_ ⟨inSequence_init hids, ?_⟩).2
  · rintro s e s' ⟨hin, hcov⟩ ⟨⟨⟨hused, hproper⟩, hseq⟩, hst⟩
    refine ⟨inSequence_step hin ht hused hseq hst, ?_⟩
    cases settled_step hin ht hused hseq hst with
    | same hsame =>
        rw [hsame]
        exact hcov
    | own hx _ hown => exact covered_step hcov hown (hproper _ hx)
  · rw [settled_init]
    exact covered_init

/-- The result of a call stays. -/
theorem returned_step {e : Event} (hst : step nw w e w') {c : Nat} {b : Bool} (hc : w.calls[c]? = some (.returned b)) :
    w'.calls[c]? = some (.returned b) := by
  have hset : ∀ {d : Nat} {x y : Call}, w.calls[d]? = some x → x ≠ .returned b →
      (w.calls.set d y)[c]? = some (.returned b) := by
    intro d x y hd hx
    have hne : d ≠ c := by
      rintro rfl
      exact hx (Option.some.inj (hd.symm.trans hc))
    rw [List.getElem?_set_ne hne]
    exact hc
  cases step_cases hst with
  | @lock t m l =>
      obtain ⟨txns, x, he, -, -⟩ := lock_cases w t m l
      rw [he]
      exact (List.getElem?_append_left (List.getElem?_eq_some_iff.mp hc).1).trans hc
  | @enter d t m l hd =>
      obtain ⟨y, hcalls, -⟩ := enter_calls nw w d t m l
      rw [hcalls]
      exact hset hd (fun h => by cases h)
  | @wake d t r site m l hd =>
      obtain ⟨y, hcalls, -⟩ := await_calls nw w site d t m l r
      rw [hcalls]
      exact hset hd (fun h => by cases h)
  | @unlock t l =>
      obtain ⟨txns, -, ⟨-, he⟩ | ⟨a, -, he⟩⟩ := unlock_cases w t l <;> rw [he] <;> exact hc
  | setState => exact hc

theorem returned_split {e : SplitEvent} (hst : SplitWorld.step nw s e s') {c : Nat} {b : Bool}
    (hc : s.world.calls[c]? = some (.returned b)) : s'.world.calls[c]? = some (.returned b) := by
  cases split_cases hst with
  | call _ hstep => exact returned_step hstep hc
  | Unlock =>
      show (World.Unlock _ _ _).calls[c]? = _
      rw [Unlock_calls]
      exact hc
  | erase => exact hc

/-- A run at the end of which no call has returned false. -/
theorem clean_of_noFailure {s₀ : SplitWorld} (h : Run (Guarded (SequentialUse used t) (SplitWorld.step nw)) s₀ es s)
    (hnone : .returned false ∉ s.world.calls) : Run (CleanStep nw used t) s₀ es s := by
  induction h with
  | refl => exact Run.refl
  | tail _ hst ih =>
      refine Run.tail (ih ?_) ⟨hst, ?_⟩
      · intro hmem
        obtain ⟨c, hc⟩ := List.mem_iff_getElem?.mp hmem
        exact hnone (List.mem_of_getElem? (returned_split hst.2 hc))
      · intro _ c hc
        exact absurd (List.mem_of_getElem? hc) hnone

/-- Calls one after the other, none of which failed. -/
theorem clean_run (hids : Set.InjOn ids (used : Set Nat)) (ht : t ∈ used)
    (h : Run (CleanStep nw used t) (SplitWorld.init (newTxns ids)) es s) : Mirror (s.settled t) := by
  refine (h.invariant (I := fun s => InSequence used s t ∧ Mirror (s.settled t)) ?_ ⟨inSequence_init hids, ?_⟩).2
  · rintro s e s' ⟨hin, hmirror⟩ ⟨⟨⟨⟨hused, -⟩, hseq⟩, hst⟩, hclean⟩
    refine ⟨inSequence_step hin ht hused hseq hst, ?_⟩
    cases settled_step hin ht hused hseq hst with
    | same hsame =>
        rw [hsame]
        exact hmirror
    | @own x b hx hactor hown hidle hfail =>
        have hactor' : s.actor e = some t := by
          unfold SplitWorld.actor
          rw [hx]
          exact hactor
        cases b with
        | true =>
            obtain ⟨c, hnew, hold⟩ := hfail rfl
            exact absurd (hclean hactor' c hnew) hold
        | false => exact mirror_step hmirror hown hidle
  · rw [settled_init]
    exact mirror_init t

/-- An unlock of an element of a mirrored set finds its request. -/
theorem committed_unlock {v : View} {l : Lock_data_id} (h : Mirror v) (hidle : ∀ c, v.calls c = none)
    (hstate : v.txn.state_ = .committed) (hl : ∃ ty m, l ∈ v.txn.get_lock_set ty m) : (v.unlock l).txn.state_ = .committed := by
  obtain ⟨ty, m, hl⟩ := hl
  have hsettled : Settled v l := by
    apply h.settled
    intro c site t m r hc
    rw [hidle] at hc
    cases hc
  cases hsettled with
  | free _ hs => exact absurd hl (hs ty m)
  | held hone hg => simp [View.unlock, hone, hg, unlockedTxn_state, hstate]

theorem unlock_idle {v : View} {l : Lock_data_id} (hidle : ∀ c, v.calls c = none) : ∀ c, (v.unlock l).calls c = none := by
  unfold View.unlock
  split <;> exact hidle

end Runs

/-- With empty sets there is nothing to do. -/
theorem releaseLocks_of_empty (order : IterationOrder) {w : World} {t : Nat}
    (h : ∀ p ∈ releaseLoops, (w.txns t).get_lock_set p.1 p.2 = ∅) : ReleaseLocks order t w = some w := by
  have hnil : order.list ∅ = [] := by
    rw [List.eq_nil_iff_forall_not_mem]
    intro l hl
    exact Finset.notMem_empty l ((order.mem ∅ l).mp hl)
  unfold ReleaseLocks
  generalize releaseLoops = ps at h
  induction ps with
  | nil => rfl
  | cons p ps ih =>
      rw [List.foldlM_cons, h p List.mem_cons_self, hnil]
      exact ih fun q hq => h q (List.mem_cons_of_mem _ hq)

/-- Some iteration order. -/
noncomputable def someOrder : IterationOrder where
  list := Finset.toList
  nodup := Finset.nodup_toList
  mem _ _ := Finset.mem_toList

/-- A row of one partition. -/
def rowAt (row_id : row_id_t) : Lock_data_id := { oid_ := 1, p_id_ := 1, row_id_ := row_id, type_ := .row }

/-- Transaction 1 reads and then writes row 1, reads row 2 and unlocks it, and commits. Transaction 2 has read row 3; one of its
    threads waits for row 1, another is unlocking row 3. -/
def writeAndCommit : List SplitEvent :=
  [.call (LockRow 0 .shared 1 1 1), .call (.enter 0), .call (LockRow 0 .exlucsive 1 1 1), .call (.enter 1),
    .call (LockRow 0 .shared 1 1 2), .call (.enter 2), .call (LockRow 1 .shared 1 1 3), .call (.enter 3),
    .call (LockRow 1 .shared 1 1 1), .call (.enter 4), .Unlock 0 (rowAt 2), .Unlock 1 (rowAt 3), .erase 0,
    .call (.setState 0 .committed)]

/-- Two threads of transaction 1: the second is past the test of the state when the first unlocks the row, gets the row, and then
    the first erases it from the sets. -/
def overlappingUnlock : List SplitEvent :=
  [.call (LockRow 0 .shared 1 1 1), .call (.enter 0), .call (LockRow 0 .exlucsive 1 1 1), .Unlock 0 (rowAt 1),
    .call (.enter 1), .erase 0]

end Lock_manager
end DDBMS
