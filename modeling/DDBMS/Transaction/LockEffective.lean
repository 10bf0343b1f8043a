import DDBMS.Lib.Slots
import DDBMS.Transaction.LockCompat

/-!
# `Transaction.LockEffective` — what a granted lock promises afterwards

A `Lock*` call that returned true with mode `m` is a promise: until the transaction unlocks the item, nobody
else is granted a mode that conflicts with `m`. Granted requests are compatible at every moment
(`granted_compatible`), so the promise is kept as long as a granted request stands behind it, with `m` or a
stronger mode.

Two steps can take that request away. An upgrade rewrites it in place and clears `granted_`; if the upgrade
has to wait or fails, nothing guards the old mode. And `Unlock` can drop a request that another call of the
same transaction is still waiting for; that call is granted later although its request is in no queue.
`StepOk` excludes these two. In a run of such steps every promise keeps its request (`Inv`, one preservation
lemma per kind of step), which gives `locks_effective`. Without them it fails, see `upgrade_loses_lock`.
-/

namespace DDBMS
namespace Lock_manager

/-! ## Promises and modes -/

/-- `T` was told that it has `l` in mode `m`, and has not unlocked `l` since. -/
def Holds (history : List Act) (T : txn_id_t) (l : Lock_data_id) (m : LockMode) : Prop :=
  ∃ pre post, history = pre ++ .locked T m l :: post ∧ .unlocked T l ∉ post

theorem holds_snoc {h : List Act} {x : Act} {T : txn_id_t} {l : Lock_data_id} {m : LockMode}
    (hx : Holds (h ++ [x]) T l m) : x = .locked T m l ∨ (x ≠ .unlocked T l ∧ Holds h T l m) := by
  obtain ⟨pre, post, heq, hnot⟩ := hx
  rcases Slots.split_snoc heq with ⟨-, -, hlocked⟩ | ⟨post, rfl, hpre⟩
  · exact Or.inl hlocked.symm
  · simp only [List.mem_append, List.mem_singleton, not_or] at hnot
    exact Or.inr ⟨fun h => hnot.2 h.symm, pre, post, hpre, hnot.1⟩

/-- Mode `M` admits no more company than `m` does. -/
def covers (M m : LockMode) : Prop := ∀ x, compatible M x = true → compatible m x = true

instance (M m : LockMode) : Decidable (covers M m) :=
  decidable_of_iff
    (∀ x ∈ [LockMode.shared, .exlucsive, .intentionShared, .intentionExclusive, .sIx],
      compatible M x = true → compatible m x = true)
    ⟨fun h x => h x (by cases x <;> decide), fun h x _ => h x⟩

theorem covers_refl (m : LockMode) : covers m m := fun _ h => h

theorem covers_trans {a b c : LockMode} (h₁ : covers a b) (h₂ : covers b c) : covers a c :=
  fun x h => h₂ x (h₁ x h)

/-- An upgrade goes to a stronger mode. -/
theorem isUpdateCompatible_covers {r : LockRequest} {m : LockMode} (h : isUpdateCompatible r m = true) :
    covers m r.lock_mode_ := by
  obtain ⟨id, mode, g⟩ := r
  show covers m mode
  cases mode <;> cases m <;> first | decide | simp [isUpdateCompatible] at h

/-! ## What the first look at the queue finds -/

section Found

variable {q : LockRequestQueue} {T : txn_id_t} {m : LockMode} {r : Nat}

theorem find_request (h : q.request_queue_.find? (fun iter => (q.requests iter).txn_id_ == T) = some r) :
    r ∈ q.request_queue_ ∧ (q.requests r).txn_id_ = T :=
  ⟨List.mem_of_find?_eq_some h, by simpa using List.find?_some h⟩

theorem found_held (h : checkSameTxnLockRequest q T m = .held) :
    ∃ r ∈ q.request_queue_, (q.requests r).txn_id_ = T ∧ (q.requests r).granted_ = true ∧
      (q.requests r).lock_mode_ = m := by
  unfold checkSameTxnLockRequest at h
  split at h
  · cases h
  · rename_i r hr
    obtain ⟨hmem, hid⟩ := find_request hr
    split at h
    · rename_i hm
      split at h
      · rename_i hg; exact ⟨r, hmem, hid, hg, hm⟩
      · cases h
    · split at h
      · cases h
      · split at h <;> cases h

theorem found_pending (h : checkSameTxnLockRequest q T m = .pending r) :
    r ∈ q.request_queue_ ∧ (q.requests r).txn_id_ = T ∧ (q.requests r).lock_mode_ = m := by
  unfold checkSameTxnLockRequest at h
  split at h
  · cases h
  · rename_i r' hr
    obtain ⟨hmem, hid⟩ := find_request hr
    split at h
    · rename_i hm
      split at h
      · cases h
      · obtain rfl : r' = r := by simpa using h
        exact ⟨hmem, hid, hm⟩
    · split at h
      · cases h
      · split at h <;> cases h

theorem found_upgrade (h : checkSameTxnLockRequest q T m = .upgrade r) :
    r ∈ q.request_queue_ ∧ (q.requests r).txn_id_ = T ∧ covers m (q.requests r).lock_mode_ := by
  unfold checkSameTxnLockRequest at h
  split at h
  · cases h
  · rename_i r' hr
    obtain ⟨hmem, hid⟩ := find_request hr
    split at h
    · split at h <;> cases h
    · split at h
      · cases h
      · split at h
        · cases h
        · rename_i hu
          obtain rfl : r' = r := by simpa using h
          exact ⟨hmem, hid, isUpdateCompatible_covers (by simpa using hu)⟩

end Found

/-! ## The condition on a step -/

/-- The item and the request a call is blocked for. -/
def Call.waitsFor : Call → Option (Lock_data_id × Nat)
  | .waiting _ _ _ l request => some (l, request)
  | _ => none

/-- The upgrade of a granted request is granted at once: the transaction is not aborted, and every other
    granted request of the queue is compatible with the new mode. -/
def World.UpgradesAtOnce (w : World) (t : Nat) (m : LockMode) (l : Lock_data_id) : Prop :=
  match checkSameTxnLockRequest (w.lock_map_ l) (w.txns t).txn_id_ m with
  | .upgrade r =>
    ((w.lock_map_ l).requests r).granted_ = true →
      (w.txns t).state_ ≠ .aborted ∧
      ∀ a ∈ (w.lock_map_ l).request_queue_, a ≠ r → ((w.lock_map_ l).requests a).granted_ = true →
        isLockCompatible ((w.lock_map_ l).requests a) m = true
  | _ => True

/-- No call is blocked for the request that `Unlock` drops. -/
def World.DropsIdle (w : World) (t : Nat) (l : Lock_data_id) : Prop :=
  match w.releasable t l with
  | some a => ∀ x ∈ w.calls, x.waitsFor ≠ some (l, a)
  | none => True

def StepOk (w : World) : Event → Prop
  | .enter c =>
    match w.calls[c]? with
    | some (.entering t m l) => w.UpgradesAtOnce t m l
    | _ => True
  | .unlock t l => w.DropsIdle t l
  | _ => True

instance (w : World) (t : Nat) (m : LockMode) (l : Lock_data_id) : Decidable (w.UpgradesAtOnce t m l) := by
  unfold World.UpgradesAtOnce
  split <;> infer_instance

instance (w : World) (t : Nat) (l : Lock_data_id) : Decidable (w.DropsIdle t l) := by
  unfold World.DropsIdle
  split <;> infer_instance

instance (w : World) (e : Event) : Decidable (StepOk w e) := by
  unfold StepOk
  split
  · split <;> infer_instance
  · infer_instance
  · infer_instance

/-! ## The invariant -/

/-- Request `r` of the queue belongs to transaction `T` and is at least as strong as `m`. -/
structure Backs (q : LockRequestQueue) (r : Nat) (T : txn_id_t) (m : LockMode) : Prop where
  mem : r ∈ q.request_queue_
  txn_id : (q.requests r).txn_id_ = T
  mode : covers (q.requests r).lock_mode_ m

/-- Behind every promise stands a granted request, and behind every blocked call the request it waits for. -/
structure Inv (w : World) : Prop where
  queues : QueuesOk w
  promise : ∀ l T m, Holds w.history T l m →
    ∃ r, Backs (w.lock_map_ l) r T m ∧ ((w.lock_map_ l).requests r).granted_ = true
  waiting : ∀ (c : Nat) site t m l r, w.calls[c]? = some (.waiting site t m l r) →
    Backs (w.lock_map_ l) r (w.txns t).txn_id_ m

theorem inv_init (txns : Nat → Transaction) : Inv (World.init txns) := by
  refine ⟨queuesOk_init txns, ?_, ?_⟩
  · rintro l T m ⟨pre, post, h, -⟩
    exact absurd h (by simp [World.init])
  · intro c site t m l r h
    simp [World.init] at h

section Steps

variable {w : World}

/-- Transaction objects only change in state and lock sets. -/
def SameIds (w : World) (txns : Nat → Transaction) : Prop := ∀ u, (txns u).txn_id_ = (w.txns u).txn_id_

theorem sameIds_setTxn {t : Nat} {x : Transaction} (hx : x.txn_id_ = (w.txns t).txn_id_) :
    SameIds w (w.setTxn t x).txns := by
  intro u
  by_cases hu : u = t
  · subst hu; simp [World.setTxn, hx]
  · simp [World.setTxn, hu]

/-- New states of the transactions, and calls among which the blocked ones are old. -/
theorem Inv.frame (h : Inv w) (txns : Nat → Transaction) (hids : SameIds w txns) {calls : List Call}
    (hcalls : ∀ (c : Nat) site t m l r, calls[c]? = some (.waiting site t m l r) →
      Backs (w.lock_map_ l) r (w.txns t).txn_id_ m) :
    Inv { w with txns := txns, calls := calls } := by
  refine ⟨h.queues, fun l T m hold => h.promise l T m hold, ?_⟩
  intro c site t m l r hc
  have hb := hcalls c site t m l r hc
  rw [← hids t] at hb
  exact hb

/-- Overwriting one call keeps what is known of the blocked ones. -/
theorem Inv.calls_set (h : Inv w) (c : Nat) {x : Call}
    (hx : ∀ site t m l r, x = .waiting site t m l r → Backs (w.lock_map_ l) r (w.txns t).txn_id_ m) :
    ∀ (c' : Nat) site t m l r, (w.calls.set c x)[c']? = some (.waiting site t m l r) →
      Backs (w.lock_map_ l) r (w.txns t).txn_id_ m := by
  intro c' site t m l r hc'
  rcases Slots.get_set hc' with ⟨-, hwaiting⟩ | ⟨-, hc'⟩
  · exact hx site t m l r hwaiting.symm
  · exact h.waiting c' site t m l r hc'

theorem Inv.setCall (h : Inv w) (c : Nat) {x : Call}
    (hx : ∀ site t m l r, x = .waiting site t m l r → Backs (w.lock_map_ l) r (w.txns t).txn_id_ m) :
    Inv (w.setCall c x) :=
  h.frame w.txns (fun _ => rfl) (h.calls_set c hx)

theorem Inv.abort (h : Inv w) (c t : Nat) : Inv (w.abort c t) :=
  h.frame (w.setState t .aborted).txns (sameIds_setTxn rfl)
    (h.calls_set c (fun _ _ _ _ _ hx => by cases hx))

/-- A call returns true: a new promise, with a granted request behind it. -/
theorem Inv.returnTrue (h : Inv w) (c t : Nat) {m : LockMode} {l : Lock_data_id} {r : Nat}
    (hb : Backs (w.lock_map_ l) r (w.txns t).txn_id_ m) (hg : ((w.lock_map_ l).requests r).granted_ = true) :
    Inv (w.returnTrue c t m l) := by
  have hids : SameIds w (w.setTxn t ((w.txns t).add_lock_set m l)).txns := sameIds_setTxn rfl
  have hf := h.frame _ hids (h.calls_set c (x := .returned true) (fun _ _ _ _ _ hx => by cases hx))
  refine ⟨fun k => hf.queues k, ?_, fun c' site t' n k a hc => hf.waiting c' site t' n k a hc⟩
  intro k T n hold
  rcases holds_snoc hold with hnew | ⟨-, hold⟩
  · obtain ⟨rfl, rfl, rfl⟩ := Act.locked.inj hnew
    refine ⟨r, ⟨hb.mem, ?_, hb.mode⟩, hg⟩
    rw [hids t]
    exact hb.txn_id
  · exact hf.promise k T n hold

/-- A queue changes, its old requests staying at least as strong, and granted where a promise needs it. -/
theorem Inv.setQueue (h : Inv w) {l : Lock_data_id} {q : LockRequestQueue} (hq : QueueOk q)
    (hold : ∀ r ∈ (w.lock_map_ l).request_queue_, r ∈ q.request_queue_ ∧
      (q.requests r).txn_id_ = ((w.lock_map_ l).requests r).txn_id_ ∧
      covers (q.requests r).lock_mode_ ((w.lock_map_ l).requests r).lock_mode_ ∧
      (((w.lock_map_ l).requests r).granted_ = true → (q.requests r).granted_ = true)) :
    Inv (w.setQueue l q) := by
  have hbacks : ∀ k r T m, Backs (w.lock_map_ k) r T m → Backs ((w.setQueue l q).lock_map_ k) r T m := by
    intro k r T m hb
    by_cases hk : k = l
    · subst hk
      obtain ⟨hmem, hid, hmode, -⟩ := hold r hb.mem
      rw [setQueue_self]
      exact ⟨hmem, hid.trans hb.txn_id, covers_trans hmode hb.mode⟩
    · rw [setQueue_ne q hk]
      exact hb
  refine ⟨h.queues.setQueue hq, ?_, ?_⟩
  · intro k T m hp
    obtain ⟨r, hb, hg⟩ := h.promise k T m hp
    refine ⟨r, hbacks k r T m hb, ?_⟩
    by_cases hk : k = l
    · subst hk
      rw [setQueue_self]
      exact (hold r hb.mem).2.2.2 hg
    · rw [setQueue_ne q hk]
      exact hg
  · intro c site t m k r hc
    exact hbacks k r _ m (h.waiting c site t m k r hc)

/-- The grant at the end of a wait. -/
theorem Inv.granted (h : Inv w) (site : Site) (c t : Nat) {m : LockMode} {l : Lock_data_id} {r : Nat}
    (hb : Backs (w.lock_map_ l) r (w.txns t).txn_id_ m) (hc : (w.lock_map_ l).checkQueueCompatible r = true) :
    Inv (w.granted site c t m l r) := by
  obtain ⟨q, hq, hreq, hqueue, hok⟩ : ∃ q, q = (if site = .upgrade then
      { (w.lock_map_ l).grant r with upgrading_ := false } else (w.lock_map_ l).grant r) ∧
      q.requests = ((w.lock_map_ l).grant r).requests ∧
      q.request_queue_ = (w.lock_map_ l).request_queue_ ∧ QueueOk q := by
    have hg := (h.queues l).grant hc
    refine ⟨_, rfl, ?_⟩
    split
    · exact ⟨rfl, rfl, hg.setUpgrading false⟩
    · exact ⟨rfl, rfl, hg⟩
  have hinv : Inv (w.setQueue l q) := by
    refine h.setQueue hok ?_
    intro a ha
    rw [hreq, hqueue]
    by_cases har : a = r
    · subst har
      rw [grant_self]
      exact ⟨ha, rfl, covers_refl _, fun _ => rfl⟩
    · rw [grant_ne har]
      exact ⟨ha, rfl, covers_refl _, id⟩
  show Inv ((w.setQueue l (if site = .upgrade then
      { (w.lock_map_ l).grant r with upgrading_ := false } else (w.lock_map_ l).grant r)).returnTrue c t m l)
  rw [← hq]
  refine hinv.returnTrue c t (r := r) ?_ ?_
  · rw [setQueue_self]
    refine ⟨by rw [hqueue]; exact hb.mem, ?_, ?_⟩ <;> rw [hreq, grant_self]
    · exact hb.txn_id
    · exact hb.mode
  · rw [setQueue_self, hreq, grant_self]

theorem Inv.await (h : Inv w) (nw : Bool) (site : Site) (c t : Nat) {m : LockMode} {l : Lock_data_id}
    {r : Nat} (hb : Backs (w.lock_map_ l) r (w.txns t).txn_id_ m) : Inv (w.await nw site c t m l r) := by
  rcases await_cases nw w site c t m l r with he | ⟨-, hc, he⟩ | he <;> rw [he]
  · exact h.abort c t
  · exact h.granted site c t hb hc
  · refine h.setCall c ?_
    intro site' t' m' l' r' hx
    obtain ⟨rfl, rfl, rfl, rfl, rfl⟩ := Call.waiting.inj hx
    exact hb

/-- A new request. -/
theorem Inv.enter_new (h : Inv w) (nw : Bool) (c t : Nat) (m : LockMode) (l : Lock_data_id) :
    Inv ((w.setQueue l ((w.lock_map_ l).emplace_back (w.txns t).txn_id_ m)).await nw .new c t m l
      (w.lock_map_ l).allocated) := by
  refine Inv.await (h.setQueue ((h.queues l).emplace_back _ m) ?_) nw .new c t ?_
  · intro a ha
    have hne : a ≠ (w.lock_map_ l).allocated := by have := (h.queues l).alloc a ha; omega
    rw [emplace_back_ne _ m hne]
    exact ⟨List.mem_append_left _ ha, rfl, covers_refl _, id⟩
  · rw [setQueue_self]
    refine ⟨by simp, ?_, ?_⟩ <;> rw [emplace_back_self]
    · rfl
    · exact covers_refl m

/-- The start of an upgrade. If the request was granted, the condition on the step has it granted again
    before the latch is given up, so a promise never sees the gap. -/
theorem Inv.enter_upgrade (h : Inv w) (nw : Bool) (c t : Nat) {m : LockMode} {l : Lock_data_id} {r : Nat}
    (hr : checkSameTxnLockRequest (w.lock_map_ l) (w.txns t).txn_id_ m = .upgrade r)
    (hok : w.UpgradesAtOnce t m l) :
    Inv ((w.setQueue l ((w.lock_map_ l).upgrade r m)).await nw .upgrade c t m l r) := by
  obtain ⟨hmem, hid, hmode⟩ := found_upgrade hr
  have hb : Backs ((w.setQueue l ((w.lock_map_ l).upgrade r m)).lock_map_ l) r (w.txns t).txn_id_ m := by
    rw [setQueue_self]
    refine ⟨hmem, ?_, ?_⟩ <;> rw [upgrade_self]
    · exact hid
    · exact covers_refl m
  cases hg : ((w.lock_map_ l).requests r).granted_ with
  | false =>
      refine Inv.await (h.setQueue ((h.queues l).upgrade r m) ?_) nw .upgrade c t hb
      intro a ha
      by_cases har : a = r
      · subst har
        rw [upgrade_self]
        exact ⟨ha, rfl, hmode, fun hga => by rw [hg] at hga; cases hga⟩
      · rw [upgrade_ne m har]
        exact ⟨ha, rfl, covers_refl _, id⟩
  | true =>
      unfold World.UpgradesAtOnce at hok
      rw [hr] at hok
      obtain ⟨hstate, hcompat⟩ := hok hg
      have hc : ((w.lock_map_ l).upgrade r m).checkQueueCompatible r = true := by
        rw [checkQueueCompatible_iff]
        intro a ha hne hga
        rw [upgrade_ne m hne] at hga ⊢
        rw [upgrade_self]
        have := hcompat a ha hne hga
        rwa [isLockCompatible_eq] at this
      have hawait : (w.setQueue l ((w.lock_map_ l).upgrade r m)).await nw .upgrade c t m l r =
          (w.setQueue l ((w.lock_map_ l).upgrade r m)).granted .upgrade c t m l r := by
        unfold World.await
        rw [if_neg (show ((w.setQueue l ((w.lock_map_ l).upgrade r m)).txns t).state_ ≠ .aborted from hstate),
          setQueue_self, if_pos hc]
      rw [hawait]
      -- Upgrade and grant together only strengthen the request.
      have hq : QueueOk { ((w.lock_map_ l).upgrade r m).grant r with upgrading_ := false } :=
        (((h.queues l).upgrade r m).grant hc).setUpgrading false
      have hinv := h.setQueue (l := l) hq (by
        intro a ha
        show a ∈ (w.lock_map_ l).request_queue_ ∧
          ((((w.lock_map_ l).upgrade r m).grant r).requests a).txn_id_ = _ ∧
          covers ((((w.lock_map_ l).upgrade r m).grant r).requests a).lock_mode_ _ ∧
          (_ → ((((w.lock_map_ l).upgrade r m).grant r).requests a).granted_ = true)
        by_cases har : a = r
        · subst har
          rw [grant_self, upgrade_self]
          exact ⟨ha, rfl, hmode, fun _ => rfl⟩
        · rw [grant_ne har, upgrade_ne m har]
          exact ⟨ha, rfl, covers_refl _, id⟩)
      have hsame : (w.setQueue l ((w.lock_map_ l).upgrade r m)).granted .upgrade c t m l r =
          (w.setQueue l { ((w.lock_map_ l).upgrade r m).grant r with upgrading_ := false }).returnTrue
            c t m l := by
        unfold World.granted
        rw [setQueue_self]
        have : (w.setQueue l ((w.lock_map_ l).upgrade r m)).setQueue l
            (if Site.upgrade = Site.upgrade then
              { ((w.lock_map_ l).upgrade r m).grant r with upgrading_ := false }
              else ((w.lock_map_ l).upgrade r m).grant r) =
            w.setQueue l { ((w.lock_map_ l).upgrade r m).grant r with upgrading_ := false } := by
          simp only [World.setQueue, World.mk.injEq, true_and, and_true, if_true]
          funext k
          by_cases hk : k = l <;> simp [hk]
        rw [← this]
      rw [hsame]
      refine hinv.returnTrue c t (r := r) ?_ ?_
      · rw [setQueue_self]
        refine ⟨hmem, ?_, ?_⟩ <;> rw [show ((((w.lock_map_ l).upgrade r m).grant r).requests r) = _ from
            grant_self r, upgrade_self]
        · exact hid
        · exact covers_refl m
      · rw [setQueue_self]; simp

theorem Inv.enter (h : Inv w) (nw : Bool) (c t : Nat) {m : LockMode} {l : Lock_data_id}
    (hok : w.UpgradesAtOnce t m l) : Inv (w.enter nw c t m l) := by
  unfold World.enter
  dsimp only
  split
  · rename_i hf
    split
    · exact h.setCall c (fun _ _ _ _ _ hx => by cases hx)
    · obtain ⟨r, hmem, hid, hg, hm⟩ := found_held hf
      exact h.returnTrue c t ⟨hmem, hid, by rw [hm]; exact covers_refl m⟩ hg
  · rename_i hf
    obtain ⟨hmem, hid, hm⟩ := found_pending hf
    exact h.await nw .same c t ⟨hmem, hid, by rw [hm]; exact covers_refl m⟩
  · exact h.abort c t
  · exact h.abort c t
  · rename_i hf
    exact h.enter_upgrade nw c t hf hok
  · exact h.enter_new nw c t m l

theorem Inv.lock (h : Inv w) (t : Nat) (m : LockMode) (l : Lock_data_id) : Inv (w.lock t m l) := by
  obtain ⟨txns, x, he, hids, hx⟩ := lock_cases w t m l
  rw [he]
  refine h.frame _ hids ?_
  intro c site t' m' l' r' hc
  rcases Slots.get_snoc hc with hc | ⟨-, rfl⟩
  · exact h.waiting c site t' m' l' r' hc
  · rcases hx with hx | hx <;> cases hx

/-- A release takes the promises on the item with it; no blocked call loses its request. -/
theorem Inv.unlock (h : Inv w) {t : Nat} {l : Lock_data_id} (hok : w.DropsIdle t l) :
    Inv (w.unlock t l) := by
  obtain ⟨txns, hids, ⟨-, he⟩ | ⟨a, ha, he⟩⟩ := unlock_cases w t l
  · rw [he]
    exact h.frame _ hids h.waiting
  unfold World.DropsIdle at hok
  rw [ha] at hok
  -- the request that goes is one of this transaction
  have hid : ((w.lock_map_ l).requests a).txn_id_ = (w.txns t).txn_id_ := by
    have := List.find?_some ha
    simp only [Bool.and_eq_true, beq_iff_eq] at this
    exact this.1
  have hkeep : ∀ k r T m, ¬(k = l ∧ r = a) → Backs (w.lock_map_ k) r T m →
      Backs ((w.setQueue l ((w.lock_map_ l).drop a)).lock_map_ k) r T m := by
    intro k r T m hne hb
    by_cases hk : k = l
    · subst hk
      rw [setQueue_self]
      exact ⟨(List.mem_erase_of_ne (fun hr => hne ⟨rfl, hr⟩)).mpr hb.mem, hb.txn_id, hb.mode⟩
    · rw [setQueue_ne _ hk]
      exact hb
  rw [he]
  refine ⟨h.queues.setQueue ((h.queues l).erase a), ?_, ?_⟩
  · intro k T m hold
    rcases holds_snoc hold with hnew | ⟨hne, hold⟩
    · cases hnew
    · obtain ⟨r, hb, hg⟩ := h.promise k T m hold
      -- a promise that stays is of another item or another transaction
      have hra : ¬(k = l ∧ r = a) := by
        rintro ⟨rfl, rfl⟩
        exact hne (by rw [← hid, hb.txn_id])
      have hb' := hkeep k r T m hra hb
      refine ⟨r, ⟨hb'.mem, hb'.txn_id, hb'.mode⟩, ?_⟩
      show (((w.setQueue l ((w.lock_map_ l).drop a)).lock_map_ k).requests r).granted_ = true
      by_cases hk : k = l
      · subst hk; rw [setQueue_self]; exact hg
      · rw [setQueue_ne _ hk]; exact hg
  · intro c site u m k r hc
    have hb := h.waiting c site u m k r hc
    -- no blocked call waits for the request that goes
    have hra : ¬(k = l ∧ r = a) := by
      rintro ⟨rfl, rfl⟩
      exact hok _ (List.mem_of_getElem? hc) rfl
    have hb' := hkeep k r _ m hra hb
    rw [← hids u] at hb'
    exact ⟨hb'.mem, hb'.txn_id, hb'.mode⟩

end Steps

/-- **Step lemma.** -/
theorem inv_step {nw : Bool} {w w' : World} {e : Event} (h : Inv w) (hst : Guarded StepOk (step nw) w e w') :
    Inv w' := by
  obtain ⟨hok, hst⟩ := hst
  cases step_cases hst with
  | @lock t m l => exact h.lock t m l
  | @enter c t m l hc =>
      simp only [StepOk] at hok
      rw [hc] at hok
      exact h.enter nw c t hok
  | @wake c t r site m l hc => exact h.await nw site c t (h.waiting c site t m l r hc)
  | unlock => exact h.unlock hok
  | @setState t s => exact h.frame (w.setState t s).txns (sameIds_setTxn rfl) h.waiting

/-! ## Effective locks -/

/-- While `T` holds `l` in mode `m`, nobody else has a granted request, or the promise, of a conflicting
    mode. -/
structure LocksEffective (w : World) : Prop where
  requests : ∀ l T m, Holds w.history T l m → ∀ a ∈ (w.lock_map_ l).request_queue_,
    ((w.lock_map_ l).requests a).granted_ = true → ((w.lock_map_ l).requests a).txn_id_ ≠ T →
    compatible ((w.lock_map_ l).requests a).lock_mode_ m = true
  promises : ∀ l T m U n, Holds w.history T l m → Holds w.history U l n → U ≠ T → compatible n m = true

theorem Inv.locksEffective {w : World} (h : Inv w) : LocksEffective w := by
  have hreq : ∀ l T m, Holds w.history T l m → ∀ a ∈ (w.lock_map_ l).request_queue_,
      ((w.lock_map_ l).requests a).granted_ = true → ((w.lock_map_ l).requests a).txn_id_ ≠ T →
      compatible ((w.lock_map_ l).requests a).lock_mode_ m = true := by
    intro l T m hold a ha hga hne
    obtain ⟨r, hb, hgr⟩ := h.promise l T m hold
    have har : r ≠ a := fun hra => hne (by rw [← hra]; exact hb.txn_id)
    rw [compatible_symm]
    exact hb.mode _ ((h.queues l).compat r hb.mem a ha har hgr hga)
  refine ⟨hreq, ?_⟩
  intro l T m U n hT hU hne
  obtain ⟨r, hb, hgr⟩ := h.promise l U n hU
  exact hb.mode _ (hreq l T m hT r hb.mem hgr (by rw [hb.txn_id]; exact hne))

/-- **A granted lock stays effective until it is released**, in every run in which no upgrade of a granted
    request has to wait or fails and no request is unlocked while a call is blocked for it. -/
theorem locks_effective {nw : Bool} {txns : Nat → Transaction} {es : List Event} {w : World}
    (h : Run (Guarded StepOk (step nw)) (World.init txns) es w) : LocksEffective w :=
  (h.invariant (fun _ _ _ hi hst => inv_step hi hst) (inv_init txns)).locksEffective

/-- A reader upgrades at once, a second reader has to wait for the release. -/
def upgradeAtOnce : List Event :=
  [LockRow 0 .shared 1 1 1, .enter 0, LockRow 0 .exlucsive 1 1 1, .enter 1, LockRow 1 .shared 1 1 1, .enter 2]

theorem locks_effective_upgradeAtOnce :
    ∃ w, Run (Guarded StepOk (step false)) (World.init someTxns) upgradeAtOnce w ∧
      w.history = [.locked 1 .shared someRow, .locked 1 .exlucsive someRow] ∧ LocksEffective w := by
  obtain ⟨w, hrun, hh⟩ : ∃ w, Run (Guarded StepOk (step false)) (World.init someTxns) upgradeAtOnce w ∧
      w.history = [.locked 1 .shared someRow, .locked 1 .exlucsive someRow] :=
    Run.exists_guarded_of_map (f := World.history) (by decide)
  exact ⟨w, hrun, hh, locks_effective hrun⟩

/-- Transactions 1 and 2 read a row; 1 asks for an upgrade and blocks, so its request is no longer granted;
    2 unlocks, and 3 gets the row in exclusive mode before 1 looks again. -/
def blockedUpgrade : List Event :=
  [LockRow 0 .shared 1 1 1, .enter 0, LockRow 1 .shared 1 1 1, .enter 1, LockRow 0 .exlucsive 1 1 1, .enter 2,
    UnLockRow 1 1 1 1, LockRow 2 .exlucsive 1 1 1, .enter 3]

/-- **A blocked upgrade gives the lock away**: 1 was told that it has the row in shared mode and has not
    unlocked it, and 3 is told that it has the row in exclusive mode. -/
theorem upgrade_loses_lock :
    ∃ w, Run (step false) (World.init someTxns) blockedUpgrade w ∧ ¬ LocksEffective w := by
  obtain ⟨w, hrun, hh⟩ : ∃ w, Run (step false) (World.init someTxns) blockedUpgrade w ∧
      w.history = [.locked 1 .shared someRow, .locked 2 .shared someRow, .unlocked 2 someRow,
        .locked 3 .exlucsive someRow] :=
    Run.exists_of_map (f := World.history) (by decide)
  refine ⟨w, hrun, fun heff => ?_⟩
  have h1 : Holds w.history 1 someRow .shared :=
    ⟨[], [.locked 2 .shared someRow, .unlocked 2 someRow, .locked 3 .exlucsive someRow], hh, by decide⟩
  have h3 : Holds w.history 3 someRow .exlucsive :=
    ⟨[.locked 1 .shared someRow, .locked 2 .shared someRow, .unlocked 2 someRow], [], hh, by decide⟩
  have := heff.promises someRow 1 .shared 3 .exlucsive h1 h3 (by decide)
  exact absurd this (by decide)

end Lock_manager
end DDBMS
