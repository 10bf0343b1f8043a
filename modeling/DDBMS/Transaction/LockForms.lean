import DDBMS.Transaction.LockFrame

/-!
# `Transaction.LockForms` — the operations in closed form

What the head of a call and an unlock make of the world, in one equation for each way they can go, and what the operations on
a queue make of the requests of one transaction in it (`own`). The proofs about views, flags and lock sets rewrite with these
and do not unfold the operations.
-/

namespace DDBMS
namespace Lock_manager

/-! ## The head of a call and an unlock in closed form -/

section Forms

variable {w : World} {t u : Nat} {m : LockMode} {l : Lock_data_id} {a : Nat}

@[simp] theorem setTxn_self (x : Transaction) : (w.setTxn t x).txns t = x := by
  simp [World.setTxn]

theorem setTxn_ne (x : Transaction) (h : u ≠ t) : (w.setTxn t x).txns u = w.txns u := by
  simp [World.setTxn, h]

@[simp] theorem setState_self (s : TransactionState) : (w.setState t s).txns t = { w.txns t with state_ := s } := by
  simp [World.setState]

@[simp] theorem setState_calls (s : TransactionState) : (w.setState t s).calls = w.calls := rfl

@[simp] theorem setState_history (s : TransactionState) : (w.setState t s).history = w.history := rfl

@[simp] theorem setTxn_setTxn (x y : Transaction) : (w.setTxn t x).setTxn t y = w.setTxn t y := by
  simp only [World.setTxn, World.mk.injEq, and_true]
  funext v
  by_cases hv : v = t <;> simp [hv]

@[simp] theorem setState_setState (s s' : TransactionState) : (w.setState t s).setState t s' = w.setState t s' := by
  simp [World.setState]

theorem setTxn_eq_self {x : Transaction} (h : x = w.txns t) : w.setTxn t x = w := by
  subst h
  have htxns : (fun v => if v = t then w.txns t else w.txns v) = w.txns := by
    funext v
    by_cases hv : v = t <;> simp [hv]
  unfold World.setTxn
  rw [htxns]

/-- The head of a call fails. -/
theorem lock_refused
    (h : ¬ (((w.txns t).state_ = .default ∨ (w.txns t).state_ = .growing) ∧ World.modeAllowed l m = true)) :
    w.lock t m l = { w.setState t .aborted with calls := w.calls ++ [.returned false] } := by
  unfold World.lock
  dsimp only
  by_cases hm : World.modeAllowed l m = true
  · have hstate : ¬ ((w.txns t).state_ = .default ∨ (w.txns t).state_ = .growing) := fun hs => h ⟨hs, hm⟩
    obtain ⟨hd, hg⟩ := not_or.mp hstate
    simp [hd, hg]
  · by_cases hd : (w.txns t).state_ = .default
    · simp [hd, hm]
    · simp [hd, hm]

theorem lock_passes (hstate : (w.txns t).state_ = .default ∨ (w.txns t).state_ = .growing)
    (hm : World.modeAllowed l m = true) :
    w.lock t m l = { w.setState t .growing with calls := w.calls ++ [.entering t m l] } := by
  have hset : (if (w.txns t).state_ = .default then w.setState t .growing else w) = w.setState t .growing := by
    rcases hstate with hd | hg
    · rw [if_pos hd]
    · rw [if_neg (by rw [hg]; decide)]
      exact (setTxn_eq_self (by rw [← hg])).symm
  unfold World.lock
  rw [hset]
  simp [hm]

/-- What `Unlock` and the erasures of its callers make of the transaction object. -/
def unlockedTxn (x : Transaction) (l : Lock_data_id) (found : Bool) : Transaction :=
  let state := if found = false then .aborted else if x.state_ = .growing then .shrinking else x.state_
  { x with state_ := state }.erase_lock_sets l

/-- What is released is the request of the transaction. -/
theorem txn_id_of_releasable (h : w.releasable t l = some a) :
    ((w.lock_map_ l).requests a).txn_id_ = (w.txns t).txn_id_ := by
  have hfind := List.find?_some h
  rw [Bool.and_eq_true, beq_iff_eq] at hfind
  exact hfind.1

theorem releasable_setState (s : TransactionState) : (w.setState t s).releasable t l = w.releasable t l := by
  simp [World.releasable]

theorem unlock_none (h : w.releasable t l = none) : w.unlock t l = w.setTxn t (unlockedTxn (w.txns t) l false) := by
  unfold World.unlock World.Unlock
  dsimp only
  by_cases hg : (w.txns t).state_ = .growing
  · rw [if_pos hg, releasable_setState, h]
    simp [unlockedTxn, World.setState]
  · rw [if_neg hg, h]
    simp [unlockedTxn, World.setState]

theorem unlock_some (h : w.releasable t l = some a) :
    w.unlock t l = { (w.setQueue l ((w.lock_map_ l).drop a)).setTxn t (unlockedTxn (w.txns t) l true) with
      history := w.history ++ [.unlocked (w.txns t).txn_id_ l] } := by
  unfold World.unlock World.Unlock
  dsimp only
  by_cases hg : (w.txns t).state_ = .growing
  · rw [if_pos hg, releasable_setState, h]
    simp only [World.setTxn, World.setState, World.setQueue, unlockedTxn, LockRequestQueue.drop, hg, World.mk.injEq]
    refine ⟨?_, trivial, trivial, by simp⟩
    funext x
    by_cases hx : x = t <;> simp [hx]
  · rw [if_neg hg, h]
    simp [World.setTxn, World.setQueue, unlockedTxn, LockRequestQueue.drop, hg]

end Forms

/-! ## The requests of one transaction in a queue -/

namespace LockRequestQueue

/-- The requests of transaction `T`, with their addresses. -/
def own (q : LockRequestQueue) (T : txn_id_t) : List (Nat × LockRequest) :=
  (q.request_queue_.map fun a => (a, q.requests a)).filter fun x => x.2.txn_id_ == T

end LockRequestQueue

/-- A request is rewritten in place. -/
def rewriteAt (r : Nat) (f : LockRequest → LockRequest) (x : Nat × LockRequest) : Nat × LockRequest :=
  if x.1 = r then (x.1, f x.2) else x

/-- The request at the start of an upgrade. -/
def LockRequest.upgraded (m : LockMode) (x : LockRequest) : LockRequest := { x with lock_mode_ := m, granted_ := false }

def LockRequest.grantedNow (x : LockRequest) : LockRequest := { x with granted_ := true }

section Own

variable {q : LockRequestQueue} {T id : txn_id_t} {m : LockMode} {a r : Nat} {x : LockRequest}

theorem mem_own : (a, x) ∈ q.own T ↔ a ∈ q.request_queue_ ∧ q.requests a = x ∧ x.txn_id_ = T := by
  unfold LockRequestQueue.own
  rw [List.mem_filter, List.mem_map]
  constructor
  · rintro ⟨⟨b, hb, heq⟩, hid⟩
    obtain ⟨rfl, rfl⟩ := Prod.mk.inj heq
    exact ⟨hb, rfl, by simpa using hid⟩
  · rintro ⟨ha, rfl, hid⟩
    exact ⟨⟨a, ha, rfl⟩, by simpa using hid⟩

theorem own_emplace_back (hq : QueueOk q) : (q.emplace_back id m).own T =
    q.own T ++ (if id = T then [(q.allocated, ⟨id, m, false⟩)] else []) := by
  have hold : ∀ b ∈ q.request_queue_, (b, (q.emplace_back id m).requests b) = (b, q.requests b) := by
    intro b hb
    have hlt := hq.alloc b hb
    rw [emplace_back_ne id m (by omega)]
  unfold LockRequestQueue.own
  rw [emplace_back_queue, List.map_append, List.map_congr_left hold, List.filter_append]
  by_cases h : id = T <;> simp [h]

/-- One request is rewritten, and keeps its transaction. -/
theorem own_rewrite {q' : LockRequestQueue} {f : LockRequest → LockRequest} (hqueue : q'.request_queue_ = q.request_queue_)
    (hreq : ∀ b, q'.requests b = if b = r then f (q.requests b) else q.requests b) (hf : ∀ x, (f x).txn_id_ = x.txn_id_) :
    q'.own T = (q.own T).map (rewriteAt r f) := by
  unfold LockRequestQueue.own
  rw [hqueue]
  induction q.request_queue_ with
  | nil => simp
  | cons b bs ih =>
      have hid : (q'.requests b).txn_id_ = (q.requests b).txn_id_ := by
        rw [hreq]
        split <;> simp [hf]
      rw [List.map_cons, List.map_cons, List.filter_cons, List.filter_cons, ih]
      simp only [hid]
      split
      · rw [List.map_cons, hreq]
        unfold rewriteAt
        by_cases hb : b = r <;> simp [hb]
      · rfl

theorem own_upgrade : (q.upgrade r m).own T = (q.own T).map (rewriteAt r (LockRequest.upgraded m)) :=
  own_rewrite rfl (fun _ => rfl) (fun _ => rfl)

theorem own_grant : (q.grant r).own T = (q.own T).map (rewriteAt r LockRequest.grantedNow) :=
  own_rewrite rfl (fun _ => rfl) (fun _ => rfl)

/-- A request of another transaction is rewritten. -/
theorem map_rewriteAt_other {f : LockRequest → LockRequest} (h : (q.requests r).txn_id_ ≠ T) :
    (q.own T).map (rewriteAt r f) = q.own T := by
  have hsame : ∀ y ∈ q.own T, rewriteAt r f y = id y := by
    rintro ⟨b, y⟩ hy
    obtain ⟨-, rfl, hid⟩ := mem_own.mp hy
    have hne : b ≠ r := by
      rintro rfl
      exact h hid
    simp [rewriteAt, hne]
  rw [List.map_congr_left hsame, List.map_id]

theorem own_drop : (q.drop r).own T = (q.own T).erase (r, q.requests r) := by
  have hinj : Function.Injective fun b => (b, q.requests b) := fun b c h => congrArg Prod.fst h
  unfold LockRequestQueue.own LockRequestQueue.drop
  rw [List.erase_filter, List.map_erase hinj]

/-- The first look at the queue sees the transaction's own requests and the flag. -/
theorem found_own : checkSameTxnLockRequest q T m =
    match q.own T with
    | [] => .notFound
    | (r, x) :: _ =>
      if x.lock_mode_ = m then
        if x.granted_ then .held else .pending r
      else if q.upgrading_ then .upgradeConflict
      else if isUpdateCompatible x m = false then .incompatibleUpgrade
      else .upgrade r := by
  have hhead : (q.own T).head? =
      (q.request_queue_.find? fun a => (q.requests a).txn_id_ == T).map fun a => (a, q.requests a) := by
    unfold LockRequestQueue.own
    rw [List.head?_filter, List.find?_map]
    rfl
  unfold checkSameTxnLockRequest
  cases hown : q.own T with
  | nil =>
      rw [hown, List.head?_nil, eq_comm, Option.map_eq_none_iff] at hhead
      rw [hhead]
  | cons y ys =>
      rw [hown, List.head?_cons, eq_comm] at hhead
      obtain ⟨r, hr, rfl⟩ := Option.map_eq_some_iff.mp hhead
      rw [hr]

/-- What the first look finds, by the transaction's own requests. -/
inductive FoundOwn (xs : List (Nat × LockRequest)) (m : LockMode) : Found → Prop where
  | notFound (h : xs = []) : FoundOwn xs m .notFound
  | held {r : Nat} {x : LockRequest} {ys : List (Nat × LockRequest)} (h : xs = (r, x) :: ys) (hm : x.lock_mode_ = m)
      (hg : x.granted_ = true) : FoundOwn xs m .held
  | pending {r : Nat} {x : LockRequest} {ys : List (Nat × LockRequest)} (h : xs = (r, x) :: ys) (hm : x.lock_mode_ = m)
      (hg : x.granted_ = false) : FoundOwn xs m (.pending r)
  | upgradeConflict : FoundOwn xs m .upgradeConflict
  | incompatibleUpgrade : FoundOwn xs m .incompatibleUpgrade
  | upgrade {r : Nat} {x : LockRequest} {ys : List (Nat × LockRequest)} (h : xs = (r, x) :: ys) :
      FoundOwn xs m (.upgrade r)

theorem foundOwn : FoundOwn (q.own T) m (checkSameTxnLockRequest q T m) := by
  rw [found_own]
  cases hown : q.own T with
  | nil => exact .notFound rfl
  | cons y ys =>
      obtain ⟨r, x⟩ := y
      dsimp only
      split
      · rename_i hm
        split
        · rename_i hg
          exact .held rfl hm hg
        · rename_i hg
          exact .pending rfl hm (by simpa using hg)
      · split
        · exact .upgradeConflict
        · split
          · exact .incompatibleUpgrade
          · exact .upgrade rfl

theorem releasable_own {w : World} {t : Nat} {l : Lock_data_id} : w.releasable t l =
    (((w.lock_map_ l).own (w.txns t).txn_id_).find? fun x => x.2.granted_).map Prod.fst := by
  unfold World.releasable LockRequestQueue.own
  rw [List.find?_filter, List.find?_map, Option.map_map]
  simp only [Function.comp_def, Option.map_id', Bool.decide_and, Bool.decide_eq_true]

end Own

end Lock_manager
end DDBMS
