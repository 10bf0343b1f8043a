import DDBMS.Lib.WaitFor
import DDBMS.Transaction.LockUpgrading
import DDBMS.Transaction.Serializable

/-!
# `Transaction.LockNotify` — who is woken up, and who waits for whom

A call that blocks on `cv_` sleeps until `notify_all`, which only an `Unlock` that has dropped a request calls. `Notified` adds
to the lock manager which blocked calls have been woken up and have not looked at their predicate again.

* **Why a call sleeps** (`Blocked`). A granted request of its queue excludes it, or an upgrade of such a request is under way:
  an upgrade takes `granted_` away and tells nobody. The new mode covers the old one, so the upgrade, once granted, excludes the
  call as well. A step of another transaction changes nothing of this, or wakes the call up.
* **Nobody sleeps for nothing** (`sleeps_for_a_reason`), unless its transaction is aborted from outside, or an upgrade has failed
  in its queue and left `upgrading_` set.
* **When nothing moves any more**, some sleeper waits for a transaction that is in no call, or there is a cycle of transactions
  each of which waits for the next (`stuck_has_cycle`).
-/

namespace DDBMS
namespace Lock_manager

/-! ## Wake-ups -/

/-- The call is blocked on the condition variable of this queue. -/
def Call.blocksOn (l : Lock_data_id) : Call → Bool
  | .waiting _ _ _ k _ => k == l
  | _ => false

/-- The lock manager, and the blocked calls that have been woken up. -/
structure Notified where
  locks : World
  woken : Finset Nat := ∅

namespace Notified

def init (txns : Nat → Transaction) : Notified := { locks := World.init txns }

/-- `cv_.notify_all()` of the queue of `l`. -/
def notify_all (s : Notified) (l : Lock_data_id) : Finset Nat :=
  s.woken ∪ (Finset.range s.locks.calls.length).filter fun c => s.locks.calls[c]?.any (Call.blocksOn l)

/-- A blocked call may also look at its predicate without a notification. -/
def next (enable_no_wait : Bool) (s : Notified) (e : Event) : Option Notified :=
  (Lock_manager.next enable_no_wait s.locks e).map fun w => {
    locks := w
    woken :=
      match e with
      | .enter c | .wake c => s.woken.erase c
      | .unlock t l => if (s.locks.releasable t l).isSome then s.notify_all l else s.woken
      | .lock _ _ _ | .setState _ _ => s.woken }

end Notified

/-- Other code settles a transaction when it is in no call, or aborts it. -/
def SettlesIdle (w : World) : Event → Prop
  | .setState t s => s = .aborted ∨ w.Idle t
  | _ => True

instance (w : World) (e : Event) : Decidable (SettlesIdle w e) :=
  match e with
  | .setState t s => inferInstanceAs (Decidable (s = .aborted ∨ w.Idle t))
  | .lock _ _ _ | .enter _ | .wake _ | .unlock _ _ => isTrue trivial

def NotifyOk (used : Finset Nat) (s : Notified) (e : Event) : Prop := TwoPhaseOk used s.locks e ∧ SettlesIdle s.locks e

instance (used : Finset Nat) (s : Notified) (e : Event) : Decidable (NotifyOk used s e) :=
  inferInstanceAs (Decidable (_ ∧ _))

/-! ## What blocks a request -/

/-- Request `a` of the queue of `l` excludes request `r`. -/
structure World.Blocks (w : World) (l : Lock_data_id) (a r : Nat) : Prop where
  mem : a ∈ (w.lock_map_ l).request_queue_
  ne : a ≠ r
  excludes : compatible ((w.lock_map_ l).requests a).lock_mode_ ((w.lock_map_ l).requests r).lock_mode_ = false

/-- Call `c` is blocked in the upgrade of request `b`. -/
def World.Upgrades (w : World) (c : Nat) (l : Lock_data_id) (b : Nat) : Prop :=
  ∃ t m, w.calls[c]? = some (.waiting .upgrade t m l b)

inductive Blocked (w : World) (l : Lock_data_id) (r : Nat) : Prop where
  | granted {a : Nat} (h : w.Blocks l a r) (hg : ((w.lock_map_ l).requests a).granted_ = true)
  /-- an upgrade is under way, or has failed -/
  | upgrading (hflag : (w.lock_map_ l).upgrading_ = true) (h : ∀ c b, w.Upgrades c l b → w.Blocks l b r)

/-- Of the calls that are blocked in an upgrade there is one for each queue, and `upgrading_` is set for it. -/
structure OneUpgrade (w : World) : Prop where
  flag : ∀ c l b, w.Upgrades c l b → (w.lock_map_ l).upgrading_ = true
  one : ∀ c d l a b, w.Upgrades c l a → w.Upgrades d l b → c = d

section Blocks

variable {w w' v : World} {a b c d r t : Nat} {m : LockMode} {l k : Lock_data_id} {nw : Bool} {site : Site}

theorem World.Blocks.of_queue (h : w.Blocks l a r) (hq : v.lock_map_ l = w.lock_map_ l) : v.Blocks l a r :=
  ⟨by rw [hq]; exact h.mem, h.ne, by rw [hq]; exact h.excludes⟩

/-- A queue in which no mode has got weaker, and that of `r` is the same. -/
theorem World.Blocks.covers {q : LockRequestQueue} (h : w.Blocks l a r) (hmem : a ∈ q.request_queue_)
    (ha : covers (q.requests a).lock_mode_ ((w.lock_map_ l).requests a).lock_mode_)
    (hr : (q.requests r).lock_mode_ = ((w.lock_map_ l).requests r).lock_mode_) : (w.setQueue l q).Blocks l a r := by
  refine ⟨?_, h.ne, ?_⟩
  · rw [setQueue_self]
    exact hmem
  · rw [setQueue_self, hr]
    have hold := h.excludes
    cases hnew : compatible (q.requests a).lock_mode_ ((w.lock_map_ l).requests r).lock_mode_ with
    | false => rfl
    | true =>
        rw [ha _ hnew] at hold
        cases hold

theorem mode_grant (q : LockRequestQueue) (r a : Nat) : ((q.grant r).requests a).lock_mode_ = (q.requests a).lock_mode_ := by
  by_cases har : a = r
  · subst har
    rw [grant_self]
  · rw [grant_ne har]

/-- A grant keeps what is granted. -/
theorem granted_grant {q : LockRequestQueue} (h : (q.requests a).granted_ = true) : ((q.grant r).requests a).granted_ = true := by
  by_cases har : a = r
  · subst har
    rw [grant_self]
  · rw [grant_ne har]
    exact h

/-- The queue after a wait that has succeeded. -/
def grantedQueue (site : Site) (q : LockRequestQueue) (r : Nat) : LockRequestQueue :=
  if site = .upgrade then { q.grant r with upgrading_ := false } else q.grant r

theorem grantedQueue_queue (q : LockRequestQueue) : (grantedQueue site q r).request_queue_ = q.request_queue_ := by
  unfold grantedQueue
  split <;> rfl

theorem grantedQueue_requests (q : LockRequestQueue) : (grantedQueue site q r).requests = (q.grant r).requests := by
  unfold grantedQueue
  split <;> rfl

theorem grantedQueue_upgrading {q : LockRequestQueue} (h : (grantedQueue site q r).upgrading_ = false) :
    q.upgrading_ = false ∨ site = .upgrade := by
  unfold grantedQueue at h
  split at h
  · rename_i hs
    exact Or.inr hs
  · exact Or.inl h

theorem granted_lock_map : (w.granted site c t m l r).lock_map_ = (w.setQueue l (grantedQueue site (w.lock_map_ l) r)).lock_map_ :=
  rfl

/-- A grant excludes what was excluded. -/
theorem World.Blocks.granted (h : w.Blocks l a b) : (w.granted site c t m k r).Blocks l a b := by
  by_cases hk : l = k
  · subst hk
    have hmode := mode_grant (w.lock_map_ l) r
    refine World.Blocks.of_queue (w := w.setQueue l (grantedQueue site (w.lock_map_ l) r)) (h.covers ?_ ?_ ?_) rfl
    · rw [grantedQueue_queue]
      exact h.mem
    · rw [grantedQueue_requests, hmode]
      exact covers_refl _
    · rw [grantedQueue_requests, hmode]
  · exact h.of_queue (setQueue_ne _ hk)

/-- An upgrade begins while no other one is under way. -/
theorem found_not_upgrading {q : LockRequestQueue} {T : txn_id_t} (hf : checkSameTxnLockRequest q T m = .upgrade r) :
    q.upgrading_ = false := by
  rw [found_own] at hf
  split at hf
  · cases hf
  · split at hf
    · split at hf <;> cases hf
    · split at hf
      · cases hf
      · rename_i hoff
        simpa using hoff

/-- Who is blocked in an upgrade after call `c` has moved on. -/
theorem World.Upgrades.set {x : Call} (h : w'.Upgrades d l b) (hcalls : w'.calls = w.calls.set c x) :
    (d ≠ c ∧ w.Upgrades d l b) ∨ (d = c ∧ ∃ t m, x = .waiting .upgrade t m l b) := by
  obtain ⟨t, m, hd⟩ := h
  rw [hcalls] at hd
  rcases Slots.get_set hd with ⟨hdc, hx⟩ | ⟨hdc, hd⟩
  · exact Or.inr ⟨hdc, t, m, hx.symm⟩
  · exact Or.inl ⟨hdc, t, m, hd⟩

/-- What excludes `r` when call `c` comes to its wait, for request `b` at `site`. -/
inductive BlockedBut (w : World) (c : Nat) (site : Site) (k : Lock_data_id) (b : Nat) (l : Lock_data_id) (r : Nat) : Prop where
  | granted {a : Nat} (h : w.Blocks l a r) (hg : ((w.lock_map_ l).requests a).granted_ = true)
  | upgrading (hflag : (w.lock_map_ l).upgrading_ = true) (h : ∀ d a, d ≠ c → w.Upgrades d l a → w.Blocks l a r)
      (hself : site = .upgrade → k = l → w.Blocks l b r)

/-- **A wait** of another transaction leaves `r` blocked. -/
theorem Blocked.await (h : BlockedBut w c site k b l r) : Blocked (w.await nw site c t m k b) l r := by
  have hsame : ∀ {w' : World} {x : Call}, w'.lock_map_ = w.lock_map_ → w'.calls = w.calls.set c x →
      (∀ u n a, x = .waiting .upgrade u n l a → site = .upgrade ∧ k = l ∧ a = b) → Blocked w' l r := by
    intro w' x hmap hcalls hx
    have hq := congrFun hmap l
    cases h with
    | granted h hg => exact .granted (h.of_queue hq) (by rw [hq]; exact hg)
    | upgrading hflag h hself =>
        refine .upgrading (by rw [hq]; exact hflag) (fun d a hd => ?_)
        rcases World.Upgrades.set hd hcalls with ⟨hdc, hold⟩ | ⟨-, u, n, rfl⟩
        · exact (h d a hdc hold).of_queue hq
        · obtain ⟨hs, hk, rfl⟩ := hx u n a rfl
          exact (hself hs hk).of_queue hq
  rcases await_cases nw w site c t m k b with he | ⟨-, -, he⟩ | he <;> rw [he]
  · exact hsame rfl rfl (fun _ _ _ hx => by cases hx)
  · cases h with
    | @granted a h hg =>
        refine .granted (a := a) h.granted ?_
        rw [granted_lock_map]
        by_cases hk : l = k
        · subst hk
          rw [setQueue_self, grantedQueue_requests]
          exact granted_grant hg
        · rw [setQueue_ne _ hk]
          exact hg
    | upgrading hflag h hself =>
        -- the upgrade that ends now is that of a request that excludes `r`
        by_cases hs : site = .upgrade ∧ k = l
        · obtain ⟨hs, rfl⟩ := hs
          refine .granted (a := b) (hself hs rfl).granted ?_
          rw [granted_lock_map, setQueue_self, grantedQueue_requests, grant_self]
        · refine .upgrading ?_ (fun d a hd => ?_)
          · rw [granted_lock_map]
            by_cases hk : l = k
            · subst hk
              rw [setQueue_self]
              cases hf : (grantedQueue site (w.lock_map_ l) b).upgrading_ with
              | true => rfl
              | false =>
                  rcases grantedQueue_upgrading hf with hoff | hup
                  · rw [hflag] at hoff
                    cases hoff
                  · exact absurd ⟨hup, rfl⟩ hs
            · rw [setQueue_ne _ hk]
              exact hflag
          · rcases World.Upgrades.set hd rfl with ⟨hdc, hold⟩ | ⟨-, u, n, hx⟩
            · exact (h d a hdc hold).granted
            · cases hx
  · refine hsame rfl rfl (fun u n a hx => ?_)
    cases hx
    exact ⟨rfl, rfl, rfl⟩

/-- **A call** of another transaction leaves `r` blocked. -/
theorem Blocked.enter (h : Blocked w l r) (hq : QueuesOk w) (hone : OneUpgrade w) (hc : w.calls[c]? = some (.entering t m k))
    (hr : w.Owns b l r) (hids : (w.txns b).txn_id_ ≠ (w.txns t).txn_id_) : Blocked (w.enter nw c t m k) l r := by
  have hnot : ∀ d a, w.Upgrades d l a → d ≠ c := by
    rintro d a ⟨u, n, hd⟩ rfl
    cases hc.symm.trans hd
  have hbut : ∀ {v : World} {site : Site} {a : Nat}, site ≠ .upgrade → v.calls = w.calls →
      (∀ a, w.Blocks l a r → v.Blocks l a r) →
      (∀ a ∈ (w.lock_map_ l).request_queue_, ((w.lock_map_ l).requests a).granted_ = true →
        ((v.lock_map_ l).requests a).granted_ = true) →
      (v.lock_map_ l).upgrading_ = (w.lock_map_ l).upgrading_ → BlockedBut v c site k a l r := by
    intro v site a hsite hcalls hblocks hgranted hflag
    cases h with
    | granted h hg => exact .granted (hblocks _ h) (hgranted _ h.mem hg)
    | upgrading hf h =>
        refine .upgrading (hflag.trans hf) (fun d a _ hd => hblocks a (h d a ?_)) (fun hs => absurd hs hsite)
        obtain ⟨u, n, hd⟩ := hd
        exact ⟨u, n, hcalls ▸ hd⟩
  have hsame : ∀ {w' : World} {x : Bool}, w'.lock_map_ = w.lock_map_ → w'.calls = w.calls.set c (.returned x) →
      Blocked w' l r := by
    intro w' x hmap hcalls
    have hql := congrFun hmap l
    cases h with
    | granted h hg => exact .granted (h.of_queue hql) (by rw [hql]; exact hg)
    | upgrading hf h =>
        refine .upgrading (by rw [hql]; exact hf) (fun d a hd => ?_)
        rcases World.Upgrades.set hd hcalls with ⟨-, hold⟩ | ⟨-, u, n, hx⟩
        · exact (h d a hold).of_queue hql
        · cases hx
  unfold World.enter
  dsimp only
  split
  · split
    · exact hsame rfl rfl
    · exact hsame rfl rfl
  · exact Blocked.await (hbut (by decide) rfl (fun _ h => h) (fun _ _ h => h) rfl)
  · exact hsame rfl rfl
  · exact hsame rfl rfl
  · rename_i r' hf
    obtain ⟨hmem', hid', hcovers⟩ := found_upgrade hf
    have hflag := found_not_upgrading hf
    apply Blocked.await
    by_cases hk : l = k
    · subst hk
      have hrr : r ≠ r' := by
        rintro rfl
        exact hids (hr.2.symm.trans hid')
      have hblocks : ∀ {a}, w.Blocks l a r → (w.setQueue l ((w.lock_map_ l).upgrade r' m)).Blocks l a r := by
        intro a ha
        refine ha.covers ha.mem ?_ ?_
        · by_cases har : a = r'
          · subst har
            rw [upgrade_self]
            exact hcovers
          · rw [upgrade_ne m har]
            exact covers_refl _
        · rw [upgrade_ne m hrr]
      cases h with
      | upgrading hf _ =>
          rw [hflag] at hf
          cases hf
      | @granted a ha hg =>
          by_cases har : a = r'
          · subst har
            -- the request that excludes `r` is the one that is upgraded
            refine .upgrading (by rw [setQueue_self]; rfl) (fun d a' _ hd => ?_) (fun _ _ => hblocks ha)
            obtain ⟨u, n, hd⟩ := hd
            have hset := hone.flag d l a' ⟨u, n, hd⟩
            rw [hflag] at hset
            cases hset
          · refine .granted (hblocks ha) ?_
            rw [setQueue_self, upgrade_ne m har]
            exact hg
    · have hql := setQueue_ne (w := w) ((w.lock_map_ k).upgrade r' m) hk
      cases h with
      | granted h hg => exact .granted (h.of_queue hql) (by rw [hql]; exact hg)
      | upgrading hf h =>
          exact .upgrading (by rw [hql]; exact hf) (fun d a _ hd => (h d a hd).of_queue hql) (fun _ hkl => absurd hkl.symm hk)
  · apply Blocked.await
    by_cases hk : l = k
    · subst hk
      have hold : ∀ {a}, a < (w.lock_map_ l).allocated →
          ((w.lock_map_ l).emplace_back (w.txns t).txn_id_ m).requests a = (w.lock_map_ l).requests a :=
        fun ha => emplace_back_ne _ m (by omega)
      refine hbut (by decide) rfl (fun a ha => ha.covers ?_ ?_ ?_) (fun a ha hg => ?_) ?_
      · exact List.mem_append_left _ ha.mem
      · rw [hold ((hq l).alloc a ha.mem)]
        exact covers_refl _
      · rw [hold hr.1]
      · rw [setQueue_self, hold ((hq l).alloc a ha)]
        exact hg
      · rw [setQueue_self]
        rfl
    · have hql := setQueue_ne (w := w) ((w.lock_map_ k).emplace_back (w.txns t).txn_id_ m) hk
      exact hbut (by decide) rfl (fun a ha => ha.of_queue hql) (fun a _ hg => by rw [hql]; exact hg) (by rw [hql])

/-- A step that does not concern the queue. -/
theorem Blocked.of_same (h : Blocked w l r) (hq : v.lock_map_ l = w.lock_map_ l)
    (hup : ∀ d b, v.Upgrades d l b → w.Upgrades d l b) : Blocked v l r := by
  cases h with
  | granted h hg => exact .granted (h.of_queue hq) (by rw [hq]; exact hg)
  | upgrading hf h => exact .upgrading (by rw [hq]; exact hf) (fun d b hd => (h d b (hup d b hd)).of_queue hq)

/-- A call that comes to its wait and blocks. -/
theorem blocked_of_await {site' : Site} {t' : Nat} {m' : LockMode}
    (h : (w.await nw site c t m k b).calls[c]? = some (.waiting site' t' m' l r)) (hlt : c < w.calls.length) :
    Blocked (w.await nw site c t m k b) l r := by
  have hset : ∀ x : Call, (w.calls.set c x)[c]? = some x := fun x => Slots.get_set_self (List.getElem?_eq_getElem hlt)
  unfold World.await at h ⊢
  split
  · rename_i hs
    rw [if_pos hs] at h
    cases (hset _).symm.trans h
  · rename_i hs
    rw [if_neg hs] at h
    split
    · rename_i hcompat
      rw [if_pos hcompat] at h
      cases (hset _).symm.trans h
    · rename_i hcompat
      rw [if_neg hcompat] at h
      split
      · rename_i hnw
        rw [if_pos hnw] at h
        cases (hset _).symm.trans h
      · rename_i hnw
        rw [if_neg hnw] at h
        cases (hset _).symm.trans h
        -- the predicate has been false
        rw [checkQueueCompatible_iff] at hcompat
        push Not at hcompat
        obtain ⟨a, ha, hne, hg, hexcl⟩ := hcompat
        exact .granted (a := a) ⟨ha, hne, by simpa using hexcl⟩ hg

end Blocks

/-! ## Upgrades -/

section Upgrades

variable {w w' v : World} {b c t : Nat} {m : LockMode} {k : Lock_data_id} {nw : Bool} {site : Site} {e : Event}

/-- **A wait.** The other upgrades stay, and at the end of an upgrade there is no other one in its queue. -/
theorem OneUpgrade.await (hflag : ∀ d l a, d ≠ c → w.Upgrades d l a → (w.lock_map_ l).upgrading_ = true)
    (hone : ∀ d e l a a', d ≠ c → e ≠ c → w.Upgrades d l a → w.Upgrades e l a' → d = e)
    (hself : site = .upgrade → (w.lock_map_ k).upgrading_ = true ∧ ∀ d a, d ≠ c → ¬ w.Upgrades d k a) :
    OneUpgrade (w.await nw site c t m k b) := by
  have hreturned : ∀ {w' : World} {x : Bool}, w'.calls = w.calls.set c (.returned x) →
      (∀ d l a, d ≠ c → w.Upgrades d l a → (w'.lock_map_ l).upgrading_ = true) → OneUpgrade w' := by
    intro w' x hcalls hflag'
    have hold : ∀ {d l a}, w'.Upgrades d l a → d ≠ c ∧ w.Upgrades d l a := by
      intro d l a hd
      rcases World.Upgrades.set hd hcalls with h | ⟨-, u, n, hx⟩
      · exact h
      · cases hx
    exact ⟨fun d l a hd => hflag' d l a (hold hd).1 (hold hd).2,
      fun d e l a a' hd he => hone d e l a a' (hold hd).1 (hold he).1 (hold hd).2 (hold he).2⟩
  rcases await_cases nw w site c t m k b with he | ⟨-, -, he⟩ | he <;> rw [he]
  · exact hreturned rfl hflag
  · refine hreturned rfl (fun d l a hdc hd => ?_)
    rw [granted_lock_map]
    by_cases hk : l = k
    · subst hk
      rw [setQueue_self]
      cases hf : (grantedQueue site (w.lock_map_ l) b).upgrading_ with
      | true => rfl
      | false =>
          rcases grantedQueue_upgrading hf with hoff | hup
          · rw [hflag d l a hdc hd] at hoff
            cases hoff
          · exact absurd hd ((hself hup).2 d a hdc)
    · rw [setQueue_ne _ hk]
      exact hflag d l a hdc hd
  · have hold : ∀ {d l a}, (w.setCall c (.waiting site t m k b)).Upgrades d l a →
        (d ≠ c ∧ w.Upgrades d l a) ∨ (d = c ∧ site = .upgrade ∧ l = k) := by
      intro d l a hd
      rcases World.Upgrades.set hd rfl with h | ⟨hdc, u, n, hx⟩
      · exact Or.inl h
      · cases hx
        exact Or.inr ⟨hdc, rfl, rfl⟩
    constructor
    · intro d l a hd
      rcases hold hd with ⟨hdc, hd⟩ | ⟨-, hs, rfl⟩
      · exact hflag d l a hdc hd
      · exact (hself hs).1
    · intro d e l a a' hd he
      rcases hold hd with ⟨hdc, hold₁⟩ | ⟨hdc, hs, hl⟩
      · rcases hold he with ⟨hec, hold₂⟩ | ⟨-, hs, hl⟩
        · exact hone d e l a a' hdc hec hold₁ hold₂
        · exact absurd (hl ▸ hold₁) ((hself hs).2 d a hdc)
      · rcases hold he with ⟨hec, hold₂⟩ | ⟨hec, -, -⟩
        · exact absurd (hl ▸ hold₂) ((hself hs).2 e a' hec)
        · exact hdc.trans hec.symm

/-- A change that starts no upgrade and clears no flag. -/
theorem OneUpgrade.of_same (h : OneUpgrade w) (hup : ∀ d l a, v.Upgrades d l a → w.Upgrades d l a)
    (hflag : ∀ l, (v.lock_map_ l).upgrading_ = (w.lock_map_ l).upgrading_) : OneUpgrade v :=
  ⟨fun d l a hd => (hflag l).trans (h.flag d l a (hup d l a hd)),
    fun d e l a a' hd he => h.one d e l a a' (hup d l a hd) (hup e l a' he)⟩

theorem upgrades_setCall {x : Bool} {d a : Nat} {l : Lock_data_id} (hcalls : v.calls = w.calls.set c (.returned x))
    (hd : v.Upgrades d l a) : w.Upgrades d l a := by
  rcases World.Upgrades.set hd hcalls with ⟨-, h⟩ | ⟨-, u, n, hx⟩
  · exact h
  · cases hx

theorem OneUpgrade.enter (h : OneUpgrade w) (hc : w.calls[c]? = some (.entering t m k)) :
    OneUpgrade (w.enter nw c t m k) := by
  have hawait : ∀ {v : World} {site : Site} {r : Nat}, v.calls = w.calls →
      (∀ l, (w.lock_map_ l).upgrading_ = true → (v.lock_map_ l).upgrading_ = true) →
      (site = .upgrade → (v.lock_map_ k).upgrading_ = true ∧ (w.lock_map_ k).upgrading_ = false) →
      OneUpgrade (v.await nw site c t m k r) := by
    intro v site r hcalls hflag hself
    have hup : ∀ {d l a}, v.Upgrades d l a → w.Upgrades d l a := by
      rintro d l a ⟨u, n, hd⟩
      exact ⟨u, n, hcalls ▸ hd⟩
    refine OneUpgrade.await (fun d l a _ hd => hflag l (h.flag d l a (hup hd)))
      (fun d e l a a' _ _ hd he => h.one d e l a a' (hup hd) (hup he)) (fun hs => ⟨(hself hs).1, fun d a _ hd => ?_⟩)
    have hset := h.flag d k a (hup hd)
    rw [(hself hs).2] at hset
    cases hset
  have hreturned : ∀ {w' : World} {x : Bool}, w'.lock_map_ = w.lock_map_ → w'.calls = w.calls.set c (.returned x) →
      OneUpgrade w' :=
    fun hmap hcalls => h.of_same (fun _ _ _ hd => upgrades_setCall hcalls hd) (fun l => by rw [hmap])
  unfold World.enter
  dsimp only
  split
  · split
    · exact hreturned rfl rfl
    · exact hreturned rfl rfl
  · exact hawait rfl (fun _ h => h) (fun hs => by cases hs)
  · exact hreturned rfl rfl
  · exact hreturned rfl rfl
  · rename_i r hf
    refine hawait rfl (fun l hl => ?_) (fun _ => ⟨by rw [setQueue_self]; rfl, found_not_upgrading hf⟩)
    by_cases hk : l = k
    · subst hk
      rw [setQueue_self]
      rfl
    · rw [setQueue_ne _ hk]
      exact hl
  · exact hawait rfl (fun l hl => (setQueue_upgrading (q := (w.lock_map_ k).emplace_back (w.txns t).txn_id_ m) rfl).trans hl)
      (fun hs => by cases hs)

theorem oneUpgrade_step (h : OneUpgrade w) (hst : step nw w e w') : OneUpgrade w' := by
  cases step_cases hst with
  | @lock t m l =>
      obtain ⟨txns, x, he, -, hx⟩ := lock_cases w t m l
      rw [he]
      refine h.of_same ?_ (fun _ => rfl)
      rintro d k a ⟨u, n, hd⟩
      rcases Slots.get_snoc hd with hd | ⟨-, rfl⟩
      · exact ⟨u, n, hd⟩
      · rcases hx with hx | hx <;> cases hx
  | enter hc => exact h.enter hc
  | @wake c t r site m l hc =>
      refine OneUpgrade.await (fun d k a _ hd => h.flag d k a hd) (fun d e k a a' _ _ hd he => h.one d e k a a' hd he) ?_
      rintro rfl
      have hup : w.Upgrades c l r := ⟨t, m, hc⟩
      exact ⟨h.flag c l r hup, fun d a hdc hd => hdc (h.one d c l a r hd hup)⟩
  | @unlock t l =>
      obtain ⟨txns, -, ⟨-, he⟩ | ⟨a, -, he⟩⟩ := unlock_cases w t l <;> rw [he]
      · exact h.of_same (fun _ _ _ hd => hd) (fun _ => rfl)
      · exact h.of_same (fun _ _ _ hd => hd) (fun k => setQueue_upgrading (q := (w.lock_map_ l).drop a) rfl)
  | setState => exact h.of_same (fun _ _ _ hd => hd) (fun _ => rfl)

end Upgrades

/-! ## Owners -/

/-- Every request in a queue is one of a transaction of the run. -/
def Owned (used : Finset Nat) (w : World) : Prop := ∀ l, ∀ a ∈ (w.lock_map_ l).request_queue_, ∃ t ∈ used, w.Owns t l a

/-- A transaction that is blocked has its request in the queue. -/
def Queued (v : View) : Prop :=
  ∀ (c : Nat) site t m l r, v.calls c = some (.waiting site t m l r) → ∃ x, (r, x) ∈ v.requests l

section Owners

variable {used : Finset Nat} {w w' : World} {c t r : Nat} {m : LockMode} {k l : Lock_data_id} {nw : Bool} {site : Site}
  {e : Event} {v v' : View} {b : Bool}

theorem Owned.of_keeps (h : Owned used w) (hk : KeepsOwners w w')
    (hq : ∀ l, ∀ a ∈ (w'.lock_map_ l).request_queue_, a ∈ (w.lock_map_ l).request_queue_) : Owned used w' := by
  intro l a ha
  obtain ⟨t, ht, hown⟩ := h l a (hq l a ha)
  exact ⟨t, ht, hk t l a hown⟩

theorem Owned.await (h : Owned used w) : Owned used (w.await nw site c t m k r) := by
  rcases await_cases nw w site c t m k r with he | ⟨-, -, he⟩ | he <;> rw [he]
  · exact h.of_keeps keepsOwners_abort (fun _ _ ha => ha)
  · refine h.of_keeps keepsOwners_granted (fun l a ha => ?_)
    rw [granted_lock_map] at ha
    by_cases hk : l = k
    · subst hk
      rw [setQueue_self, grantedQueue_queue] at ha
      exact ha
    · rw [setQueue_ne _ hk] at ha
      exact ha
  · exact h.of_keeps (keepsOwners_txns (fun _ => rfl) rfl) (fun _ _ ha => ha)

theorem Owned.enter (h : Owned used w) (ht : t ∈ used) : Owned used (w.enter nw c t m k) := by
  unfold World.enter
  dsimp only
  split
  · split
    · exact h.of_keeps (keepsOwners_txns (fun _ => rfl) rfl) (fun _ _ ha => ha)
    · exact h.of_keeps (keepsOwners_txns (sameIds_setTxn rfl) rfl) (fun _ _ ha => ha)
  · exact h.await
  · exact h.of_keeps keepsOwners_abort (fun _ _ ha => ha)
  · exact h.of_keeps keepsOwners_abort (fun _ _ ha => ha)
  · refine (h.of_keeps keepsOwners_upgrade (fun l a ha => ?_)).await
    by_cases hk : l = k
    · subst hk
      rw [setQueue_self] at ha
      exact ha
    · rw [setQueue_ne _ hk] at ha
      exact ha
  · have hkeeps : KeepsOwners w (w.setQueue k ((w.lock_map_ k).emplace_back (w.txns t).txn_id_ m)) := keepsOwners_emplace_back
    refine Owned.await fun l a ha => ?_
    by_cases hk : l = k
    · subst hk
      rw [setQueue_self, emplace_back_queue] at ha
      rcases List.mem_append.mp ha with ha | ha
      · obtain ⟨u, hu, hown⟩ := h l a ha
        exact ⟨u, hu, hkeeps u l a hown⟩
      · -- the new request is that of `t`
        obtain rfl := List.mem_singleton.mp ha
        refine ⟨t, ht, ?_⟩
        unfold World.Owns
        rw [setQueue_self, emplace_back_self]
        exact ⟨Nat.lt_succ_self _, rfl⟩
    · rw [setQueue_ne _ hk] at ha
      obtain ⟨u, hu, hown⟩ := h l a ha
      exact ⟨u, hu, hkeeps u l a hown⟩

theorem owned_step (h : Owned used w) (hsound : Sound used w) (hst : step nw w e w') : Owned used w' := by
  cases step_cases hst with
  | @lock t m l =>
      obtain ⟨txns, x, he, hids, -⟩ := lock_cases w t m l
      rw [he]
      exact h.of_keeps (keepsOwners_txns hids rfl) (fun _ _ ha => ha)
  | @enter c t m l hc => exact h.enter (hsound.calls _ (List.mem_of_getElem? hc) t rfl)
  | wake => exact h.await
  | @unlock t l =>
      obtain ⟨txns, hids, ⟨-, he⟩ | ⟨a, -, he⟩⟩ := unlock_cases w t l <;> rw [he]
      · exact h.of_keeps (keepsOwners_txns hids rfl) (fun _ _ ha => ha)
      · have hdrop : KeepsOwners w (w.setQueue l ((w.lock_map_ l).drop a)) :=
          keepsOwners_setQueue (Nat.le_refl _) (fun _ _ => rfl)
        refine h.of_keeps (hdrop.trans (keepsOwners_txns hids rfl)) (fun k b hb => ?_)
        change b ∈ ((w.setQueue l ((w.lock_map_ l).drop a)).lock_map_ k).request_queue_ at hb
        by_cases hk : k = l
        · subst hk
          rw [setQueue_self] at hb
          exact List.mem_of_mem_erase hb
        · rw [setQueue_ne _ hk] at hb
          exact hb
  | setState => exact h.of_keeps (keepsOwners_txns (sameIds_setTxn rfl) rfl) (fun _ _ ha => ha)

theorem Queued.setCall (h : Queued v) {y : Option Call}
    (hy : ∀ site t m l r, y = some (.waiting site t m l r) → ∃ x, (r, x) ∈ v.requests l) : Queued (v.setCall c y) := by
  intro d site t m l r hd
  simp only [View.setCall] at hd
  split at hd
  · exact hy site t m l r hd
  · exact h d site t m l r hd

theorem Queued.rewrite (h : Queued v) (f : LockRequest → LockRequest) :
    Queued (v.setRequests l ((v.requests l).map (rewriteAt r f))) := by
  intro d site t m k a hd
  obtain ⟨x, hx⟩ := h d site t m k a hd
  by_cases hk : k = l
  · subst hk
    have hmem : rewriteAt r f (a, x) ∈ (v.requests k).map (rewriteAt r f) := List.mem_map_of_mem hx
    have hfst : rewriteAt r f (a, x) = (a, (rewriteAt r f (a, x)).2) := by
      unfold rewriteAt
      split <;> rfl
    rw [hfst] at hmem
    exact ⟨_, by simpa only [View.setRequests, if_pos] using hmem⟩
  · exact ⟨x, by simpa [View.setRequests, hk] using hx⟩

theorem Queued.await (h : Queued v) (hr : ∃ x, (r, x) ∈ v.requests l) (hst : OwnAwait v site c t m l r b v') : Queued v' := by
  cases hst with
  | abort => exact Queued.setCall (v := v.setState .aborted) h (fun _ _ _ _ _ hy => by cases hy)
  | granted => exact Queued.setCall (h.rewrite (r := r) (l := l) LockRequest.grantedNow) (fun _ _ _ _ _ hy => by cases hy)
  | blocked =>
      refine h.setCall (fun site' t' m' l' r' hy => ?_)
      cases hy
      exact hr

theorem queued_step (h : Queued v) (hst : OwnStep v e b v') (hidle : (∃ t l, e = .unlock t l) → ∀ c, v.calls c = none) :
    Queued v' := by
  cases hst with
  | refused => exact h
  | passes => exact Queued.setCall (v := v.setState .growing) h (fun _ _ _ _ _ hy => by cases hy)
  | @enter c t m l b v' hc henter =>
      cases henter with
      | held => exact h.setCall (fun _ _ _ _ _ hy => by cases hy)
      | heldAborted => exact h.setCall (fun _ _ _ _ _ hy => by cases hy)
      | @pending r x xs b v' hown _ _ hawait =>
          exact h.await ⟨x, by rw [hown]; exact List.mem_cons_self⟩ hawait
      | refused => exact Queued.setCall (v := v.setState .aborted) h (fun _ _ _ _ _ hy => by cases hy)
      | @upgrade r x xs b v' hown hawait =>
          refine (h.rewrite _).await ?_ hawait
          rw [hown]
          exact ⟨LockRequest.upgraded m x, by simp [View.setRequests, rewriteAt]⟩
      | @new a b v' hown hawait =>
          refine Queued.await ?_ ⟨⟨v.txn.txn_id_, m, false⟩, by simp [View.setRequests]⟩ hawait
          intro d site t' m' k r hd
          obtain ⟨x, hx⟩ := h d site t' m' k r hd
          have hk : k ≠ l := by
            rintro rfl
            rw [hown] at hx
            cases hx
          exact ⟨x, by simpa [View.setRequests, hk] using hx⟩
  | wake hc hawait => exact h.await (h _ _ _ _ _ _ hc) hawait
  | @unlock t l =>
      have hnone := hidle ⟨t, l, rfl⟩
      have hcalls : (v.unlock l).calls = v.calls := by
        unfold View.unlock
        split <;> rfl
      intro c site u n k r hc
      rw [hcalls, hnone c] at hc
      cases hc
  | setState => exact h

end Owners

/-! ## One step -/

section Step

variable {used : Finset Nat} {w w' : World} {c t u r : Nat} {m : LockMode} {l : Lock_data_id} {nw : Bool} {site : Site}
  {e : Event} {s s' : Notified}

/-- A call is blocked since this step, or it was blocked before. -/
theorem waiting_of_step (hst : step nw w e w') (hc : w'.calls[c]? = some (.waiting site t m l r)) :
    e.call? = some c ∨ w.calls[c]? = some (.waiting site t m l r) := by
  have hset : ∀ {d : Nat} {y : Call}, w'.calls = w.calls.set d y → some d = some c ∨ w.calls[c]? = some (.waiting site t m l r) := by
    intro d y hcalls
    rw [hcalls] at hc
    rcases Slots.get_set hc with ⟨rfl, -⟩ | ⟨-, hold⟩
    · exact Or.inl rfl
    · exact Or.inr hold
  cases step_cases hst with
  | @lock u n k =>
      obtain ⟨txns, x, he, -, hx⟩ := lock_cases w u n k
      rw [he] at hc
      rcases Slots.get_snoc hc with hold | ⟨-, rfl⟩
      · exact Or.inr hold
      · rcases hx with hx | hx <;> cases hx
  | @enter d u n k =>
      obtain ⟨y, hcalls, -⟩ := enter_calls nw w d u n k
      exact hset hcalls
  | @wake d u b site' n k =>
      obtain ⟨y, hcalls, -⟩ := await_calls nw w site' d u n k b
      exact hset hcalls
  | @unlock u k =>
      obtain ⟨txns, -, ⟨-, he⟩ | ⟨a, -, he⟩⟩ := unlock_cases w u k <;> rw [he] at hc <;> exact Or.inr hc
  | setState => exact Or.inr hc

/-- The call that has looked at its predicate and blocks has found it false. -/
theorem blocked_of_step (hst : step nw w e w') (hcall : e.call? = some c)
    (hc : w'.calls[c]? = some (.waiting site t m l r)) : Blocked w' l r := by
  cases step_cases hst with
  | lock | unlock | setState => cases hcall
  | @wake d u b site' n k hd =>
      obtain rfl := Option.some.inj hcall
      exact blocked_of_await hc (List.getElem?_eq_some_iff.mp hd).1
  | @enter d u n k hd =>
      obtain rfl := Option.some.inj hcall
      have hlt : d < w.calls.length := (List.getElem?_eq_some_iff.mp hd).1
      have hno : ∀ {v : World} {b : Bool}, v.calls = w.calls.set d (.returned b) →
          v.calls[d]? ≠ some (.waiting site t m l r) := by
        intro v b hcalls hv
        rw [hcalls, Slots.get_set_self hd] at hv
        cases hv
      unfold World.enter at hc ⊢
      dsimp only at hc ⊢
      generalize checkSameTxnLockRequest (w.lock_map_ k) (w.txns u).txn_id_ n = found at hc ⊢
      cases found with
      | held =>
          dsimp only at hc
          split at hc
          · exact absurd hc (hno rfl)
          · exact absurd hc (hno rfl)
      | pending => exact blocked_of_await hc hlt
      | upgradeConflict => exact absurd hc (hno rfl)
      | incompatibleUpgrade => exact absurd hc (hno rfl)
      | upgrade => exact blocked_of_await hc hlt
      | notFound => exact blocked_of_await hc hlt

/-- **A step of another transaction** leaves a request blocked, unless it drops one from the queue. -/
theorem Blocked.step (h : Blocked w l r) (hq : QueuesOk w) (hone : OneUpgrade w) (hst : step nw w e w')
    (hr : w.Owns t l r) (hactor : ∀ u ∈ w.actor e, (w.txns t).txn_id_ ≠ (w.txns u).txn_id_)
    (hdrop : ∀ u, e = .unlock u l → w.releasable u l = none) : Blocked w' l r := by
  cases step_cases hst with
  | @lock u n k =>
      obtain ⟨txns, x, he, -, hx⟩ := lock_cases w u n k
      rw [he]
      refine h.of_same rfl ?_
      rintro d b ⟨u', n', hd⟩
      rcases Slots.get_snoc hd with hold | ⟨-, rfl⟩
      · exact ⟨u', n', hold⟩
      · rcases hx with hx | hx <;> cases hx
  | @enter d u n k hd => exact h.enter hq hone hd hr (hactor u (World.actor_enter hd))
  | @wake d u b site' n k hd =>
      apply Blocked.await
      cases h with
      | granted h hg => exact .granted h hg
      | upgrading hf h =>
          refine .upgrading hf (fun d' a _ hd' => h d' a hd') ?_
          rintro rfl rfl
          exact h d b ⟨u, n, hd⟩
  | @unlock u k =>
      obtain ⟨txns, -, ⟨-, he⟩ | ⟨a, hrel, he⟩⟩ := unlock_cases w u k
      · rw [he]
        exact h.of_same rfl (fun _ _ hd => hd)
      · have hk : l ≠ k := by
          rintro rfl
          rw [hdrop u rfl] at hrel
          cases hrel
        rw [he]
        exact h.of_same (setQueue_ne _ hk) (fun _ _ hd => hd)
  | setState => exact h.of_same rfl (fun _ _ hd => hd)

/-- A transaction in a call does nothing else meanwhile, unless it is aborted. -/
theorem aborted_of_busy (hst : step nw w e w') (hactor : w.actor e = some t) (hidle : SequentialOk w e)
    (hsettles : SettlesIdle w e) (hbusy : ¬ w.Idle t)
    (hcall : ∀ (d : Nat) y, w.calls[d]? = some y → y.txn? = some t → e.call? ≠ some d) : (w'.txns t).state_ = .aborted := by
  cases step_cases hst with
  | lock | unlock =>
      obtain rfl := Option.some.inj hactor
      exact absurd hidle hbusy
  | enter hd =>
      obtain rfl := Option.some.inj ((World.actor_enter hd).symm.trans hactor)
      exact absurd rfl (hcall _ _ hd rfl)
  | wake hd =>
      obtain rfl := Option.some.inj ((World.actor_wake hd).symm.trans hactor)
      exact absurd rfl (hcall _ _ hd rfl)
  | setState =>
      obtain rfl := Option.some.inj hactor
      obtain rfl := hsettles.resolve_right hbusy
      simp

/-- A blocked call that nobody has woken up has a reason to sleep. -/
def Attentive (s : Notified) : Prop :=
  ∀ (c : Nat) site t m l r, s.locks.calls[c]? = some (.waiting site t m l r) → c ∉ s.woken →
    (s.locks.txns t).state_ = .aborted ∨ Blocked s.locks l r

structure Watched (used : Finset Nat) (s : Notified) : Prop where
  sound : Sound used s.locks
  views : ∀ t ∈ used, Single (s.locks.view t) ∧ Begun (s.locks.view t) ∧ Queued (s.locks.view t)
  owned : Owned used s.locks
  upgrades : OneUpgrade s.locks
  attentive : Attentive s

/-- What a step does to the wake-ups. -/
theorem notified_cases (hst : Notified.next nw s e = some s') : step nw s.locks e s'.locks ∧
    (∀ c ∈ s.woken, e.call? ≠ some c → c ∈ s'.woken) ∧
    ∀ u l, e = .unlock u l → s.locks.releasable u l ≠ none → s'.woken = s.notify_all l := by
  obtain ⟨w', hw, rfl⟩ := Option.map_eq_some_iff.mp hst
  refine ⟨hw, ?_, ?_⟩
  · intro c hc hcall
    cases e with
    | lock | setState => exact hc
    | enter d | wake d => exact Finset.mem_erase.mpr ⟨fun hcd => hcall (congrArg some hcd.symm), hc⟩
    | unlock u l =>
        dsimp only
        split
        · exact Finset.mem_union_left _ hc
        · exact hc
  · rintro u l rfl hrel
    exact if_pos (Option.isSome_iff_ne_none.mpr hrel)

/-- **An `Unlock` wakes up** who is blocked at its queue. -/
theorem mem_notify_all (hc : s.locks.calls[c]? = some (.waiting site t m l r)) : c ∈ s.notify_all l := by
  refine Finset.mem_union_right _ (Finset.mem_filter.mpr ⟨?_, ?_⟩)
  · exact Finset.mem_range.mpr (List.getElem?_eq_some_iff.mp hc).1
  · rw [hc]
    simp [Call.blocksOn]

theorem attentive_step (h : Watched used s) (hok : NotifyOk used s e) (hst : Notified.next nw s e = some s') :
    Attentive s' := by
  obtain ⟨⟨hused, hidle, hgrowing⟩, hsettles⟩ := hok
  obtain ⟨hlocks, hkeeps, hnotifies⟩ := notified_cases hst
  intro c site t m l r hc hsleep
  by_cases hcall : e.call? = some c
  · exact Or.inr (blocked_of_step hlocks hcall hc)
  · -- the call was blocked before, and is not woken up now
    have hold := (waiting_of_step hlocks hc).resolve_left hcall
    have hsleep' : c ∉ s.woken := fun hmem => hsleep (hkeeps c hmem hcall)
    have ht : t ∈ used := h.sound.calls _ (List.mem_of_getElem? hold) t rfl
    have hbusy : ¬ s.locks.Idle t := fun hnone => by
      have := idle_view.mp hnone c
      rw [view_calls_self hold rfl] at this
      cases this
    obtain ⟨u, hactor⟩ := exists_actor hlocks
    have hu := h.sound.actor_mem hlocks hused hactor
    by_cases hut : t = u
    · subst hut
      left
      refine aborted_of_busy hlocks hactor hidle hsettles hbusy (fun d y hd hy hdc => hcall ?_)
      rw [hdc]
      refine congrArg some ((h.views t ht).1.call d c ?_ ?_)
      · rw [view_calls_self hd hy]
        exact Option.some_ne_none _
      · rw [view_calls_self hold rfl]
        exact Option.some_ne_none _
    · have hids := h.sound.ids_ne hu ht hut
      rcases h.attentive c site t m l r hold hsleep' with haborted | hblocked
      · left
        have hview := (sees_step h.sound.queues h.sound.waits hlocks hactor).others t hids
        exact (congrArg (fun v => v.txn.state_) hview).trans haborted
      · right
        refine hblocked.step h.sound.queues h.upgrades hlocks (h.sound.waits c site t m l r hold) ?_ ?_
        · intro v hv
          obtain rfl := Option.some.inj (hactor.symm.trans hv)
          exact hids.symm
        · rintro v rfl
          by_contra hrel
          rw [hnotifies v l rfl hrel] at hsleep
          exact hsleep (mem_notify_all hold)

/-- **Step lemma.** -/
theorem watched_step (h : Watched used s) (hst : Guarded (NotifyOk used) (FunStep (Notified.next nw)) s e s') :
    Watched used s' := by
  obtain ⟨hok, hst⟩ := hst
  have hlocks := (notified_cases hst).1
  refine ⟨sound_step h.sound hok.1.1 hlocks, ?_, owned_step h.owned h.sound hlocks, oneUpgrade_step h.upgrades hlocks,
    attentive_step h hok hst⟩
  refine forall_view_step (P := fun v => Single v ∧ Begun v ∧ Queued v) h.sound hok.1.1 h.views hlocks ?_
  intro t ht b v' hactor hown
  obtain ⟨hsingle, hbegun, hqueued⟩ := h.views t ht
  obtain ⟨⟨-, hidle, hgrowing⟩, -⟩ := hok
  refine ⟨single_step hsingle hown ?_, begun_step hbegun hown hgrowing, queued_step hqueued hown ?_⟩
  · rintro ⟨u, m, l, rfl⟩
    obtain rfl : u = t := Option.some.inj hactor
    exact idle_view.mp hidle
  · rintro ⟨u, l, rfl⟩
    obtain rfl : u = t := Option.some.inj hactor
    exact idle_view.mp hidle

theorem watched_run {txns : Nat → Transaction} (hids : Set.InjOn (fun t => (txns t).txn_id_) (used : Set Nat))
    {es : List Event} (h : Run (Guarded (NotifyOk used) (FunStep (Notified.next nw))) (Notified.init txns) es s) :
    Watched used s := by
  refine h.invariant (fun _ _ _ hi hst => watched_step hi hst) ⟨sound_init hids, ?_, ?_, ?_, ?_⟩
  · intro t _
    have hnone : ∀ c, ((World.init txns).view t).calls c = none := by simp [World.view, World.init]
    refine ⟨⟨fun l => Or.inl rfl, fun c d hc => absurd (hnone c) hc⟩, ?_, fun c site u m l r hc => ?_⟩
    · rintro (⟨l, hl⟩ | ⟨c, hc⟩)
      · exact absurd rfl hl
      · exact absurd (hnone c) hc
    · cases (hnone c).symm.trans hc
  · intro l a ha
    exact absurd ha List.not_mem_nil
  · constructor
    · rintro c l b ⟨t, m, hc⟩
      cases hc
    · rintro c d l a b ⟨t, m, hc⟩
      cases hc
  · intro c site t m l r hc
    cases hc

end Step

/-! ## Who waits for whom -/

/-- A call of `t` is blocked for a request that a request of `u` excludes, a granted one or one that is being upgraded. -/
def World.WaitsFor (w : World) (t u : Nat) : Prop :=
  u ≠ t ∧ ∃ (c : Nat) (site : Site) (m : LockMode) (l : Lock_data_id) (r a : Nat),
    w.calls[c]? = some (.waiting site t m l r) ∧ w.Blocks l a r ∧
    ((w.lock_map_ l).requests a).txn_id_ = (w.txns u).txn_id_ ∧
    (((w.lock_map_ l).requests a).granted_ = true ∨ ∃ d, w.Upgrades d l a)

/-- Call `c` has returned, or is blocked and has not been woken up. -/
def Notified.settled (s : Notified) (c : Nat) : Bool :=
  match s.locks.calls[c]? with
  | some (.entering _ _ _) => false
  | some (.waiting _ _ _ _ _) => c ∉ s.woken
  | _ => true

/-- Nothing moves any more, until a transaction that is in no call does something. -/
def Notified.Quiet (s : Notified) : Prop := ∀ c < s.locks.calls.length, s.settled c = true

instance (s : Notified) : Decidable s.Quiet := inferInstanceAs (Decidable (∀ c < _, _))

/-- No blocked call is let down: its transaction is not aborted, and no failed upgrade has left the flag of its queue set. -/
def World.Undisturbed (w : World) : Prop :=
  ∀ (c : Nat) site t m l r, w.calls[c]? = some (.waiting site t m l r) →
    (w.txns t).state_ ≠ .aborted ∧ ((w.lock_map_ l).upgrading_ = true → ∃ d b, w.Upgrades d l b)

section Main

variable {used : Finset Nat} {txns : Nat → Transaction} {es : List Event} {s : Notified} {c t r a : Nat} {m : LockMode}
  {l : Lock_data_id} {nw : Bool} {site : Site}

/-- What excludes the request of a transaction is a request of another one. -/
theorem Watched.waitsFor (h : Watched used s) (hc : s.locks.calls[c]? = some (.waiting site t m l r))
    (ha : s.locks.Blocks l a r)
    (hwhy : ((s.locks.lock_map_ l).requests a).granted_ = true ∨ ∃ d, s.locks.Upgrades d l a) :
    ∃ u ∈ used, s.locks.WaitsFor t u := by
  obtain ⟨u, hu, hown⟩ := h.owned l a ha.mem
  have ht : t ∈ used := h.sound.calls _ (List.mem_of_getElem? hc) t rfl
  refine ⟨u, hu, ?_, c, site, m, l, r, a, hc, ha, hown.2, hwhy⟩
  rintro rfl
  -- a transaction has one request for an item
  obtain ⟨hsingle, -, hqueued⟩ := h.views u ht
  obtain ⟨x, hx⟩ := hqueued c site u m l r (view_calls_self hc rfl)
  have hmem : (a, (s.locks.lock_map_ l).requests a) ∈ (s.locks.view u).requests l := mem_own.mpr ⟨ha.mem, rfl, hown.2⟩
  rcases hsingle.request l with hnil | ⟨b, y, hone⟩
  · rw [hnil] at hx
    cases hx
  · rw [hone] at hx hmem
    have hrb := congrArg Prod.fst (List.mem_singleton.mp hx)
    have hab := congrArg Prod.fst (List.mem_singleton.mp hmem)
    exact ha.ne (hab.trans hrb.symm)

/-- **Nobody sleeps for nothing.** A blocked call that has not been woken up waits for another transaction, which has a lock that
    excludes its request or is upgrading such a lock; or its transaction has been aborted, or an upgrade of its item has failed
    and left `upgrading_` set. -/
theorem sleeps_for_a_reason (hids : Set.InjOn (fun t => (txns t).txn_id_) (used : Set Nat))
    (h : Run (Guarded (NotifyOk used) (FunStep (Notified.next nw))) (Notified.init txns) es s)
    (hc : s.locks.calls[c]? = some (.waiting site t m l r)) (hsleep : c ∉ s.woken) :
    (∃ u ∈ used, s.locks.WaitsFor t u) ∨ (s.locks.txns t).state_ = .aborted ∨
      ((s.locks.lock_map_ l).upgrading_ = true ∧ ∀ d b, ¬ s.locks.Upgrades d l b) := by
  have hw := watched_run hids h
  rcases hw.attentive c site t m l r hc hsleep with haborted | hblocked
  · exact Or.inr (Or.inl haborted)
  · cases hblocked with
    | granted ha hg => exact Or.inl (hw.waitsFor hc ha (Or.inl hg))
    | upgrading hflag hup =>
        by_cases hsome : ∃ d b, s.locks.Upgrades d l b
        · obtain ⟨d, b, hd⟩ := hsome
          exact Or.inl (hw.waitsFor hc (hup d b hd) (Or.inr ⟨d, hd⟩))
        · exact Or.inr (Or.inr ⟨hflag, fun d b hd => hsome ⟨d, b, hd⟩⟩)

/-- **A standstill is a deadlock**, or the fault of a transaction that is in no call: when nothing moves any more, every
    transaction in a call waits, directly or through others, for one that is in no call or for one on a cycle. -/
theorem stuck_has_cycle (hids : Set.InjOn (fun t => (txns t).txn_id_) (used : Set Nat))
    (h : Run (Guarded (NotifyOk used) (FunStep (Notified.next nw))) (Notified.init txns) es s) (hquiet : s.Quiet)
    (hundisturbed : s.locks.Undisturbed) (ht : t ∈ used) :
    ∃ u ∈ used, Relation.ReflTransGen s.locks.WaitsFor t u ∧
      (s.locks.Idle u ∨ Relation.TransGen s.locks.WaitsFor u u) := by
  have hw := watched_run hids h
  refine WaitFor.exists_end_or_cycle (fun t ht => ?_) ht
  by_cases hidle : s.locks.Idle t
  · exact Or.inl hidle
  · right
    obtain ⟨c, hcall⟩ : ∃ c, (s.locks.view t).calls c ≠ none := by
      by_contra hnone
      push Not at hnone
      exact hidle (idle_view.mpr hnone)
    obtain ⟨x, hx, hxt⟩ : ∃ x, s.locks.calls[c]? = some x ∧ x.txn? = some t := by
      obtain ⟨x, hx⟩ := Option.ne_none_iff_exists'.mp hcall
      obtain ⟨hx, hxt⟩ := Option.filter_eq_some_iff.mp hx
      exact ⟨x, hx, by simpa using hxt⟩
    have hsettled := hquiet c (List.getElem?_eq_some_iff.mp hx).1
    unfold Notified.settled at hsettled
    rw [hx] at hsettled
    cases x with
    | entering => cases hsettled
    | returned => cases hxt
    | waiting site u m l r =>
        obtain rfl : u = t := Option.some.inj hxt
        obtain ⟨hstate, hflag⟩ := hundisturbed c site u m l r hx
        have hsleep : c ∉ s.woken := by simpa using hsettled
        rcases hw.attentive c site u m l r hx hsleep with haborted | hblocked
        · exact absurd haborted hstate
        · cases hblocked with
          | granted ha hg => exact hw.waitsFor hx ha (Or.inl hg)
          | upgrading hset hup =>
              obtain ⟨d, b, hd⟩ := hflag hset
              exact hw.waitsFor hx (hup d b hd) (Or.inr ⟨d, hd⟩)

end Main

/-- Two transactions have a row each, and ask for the row of the other. -/
def crossed : List Event :=
  [LockRow 0 .exlucsive 1 1 1, .enter 0, LockRow 1 .exlucsive 1 1 2, .enter 1, LockRow 0 .shared 1 1 2, .enter 2,
    LockRow 1 .shared 1 1 1, .enter 3]

theorem run_crossed : ∃ s, Run (Guarded (NotifyOk (Finset.range 3)) (FunStep (Notified.next false)))
    (Notified.init someTxns) crossed s ∧ s.Quiet ∧ s.locks.Undisturbed ∧ 2 ∉ s.woken ∧
      s.locks.calls[2]? = some (.waiting .new 0 .shared { oid_ := 1, p_id_ := 1, row_id_ := 2, type_ := .row } 1) := by
  obtain ⟨s, hrun, hs⟩ : ∃ s, Run (Guarded (NotifyOk (Finset.range 3)) (FunStep (Notified.next false)))
      (Notified.init someTxns) crossed s ∧
      (s.locks.calls, s.woken, (s.locks.txns 0).state_, (s.locks.txns 1).state_,
        (s.locks.lock_map_ { oid_ := 1, p_id_ := 1, row_id_ := 1, type_ := .row }).upgrading_,
        (s.locks.lock_map_ { oid_ := 1, p_id_ := 1, row_id_ := 2, type_ := .row }).upgrading_) =
      ([.returned true, .returned true,
        .waiting .new 0 .shared { oid_ := 1, p_id_ := 1, row_id_ := 2, type_ := .row } 1,
        .waiting .new 1 .shared { oid_ := 1, p_id_ := 1, row_id_ := 1, type_ := .row } 1],
        ∅, .growing, .growing, false, false) :=
    Run.exists_guarded_of_map (f := fun s : Notified => (s.locks.calls, s.woken, (s.locks.txns 0).state_,
      (s.locks.txns 1).state_, (s.locks.lock_map_ { oid_ := 1, p_id_ := 1, row_id_ := 1, type_ := .row }).upgrading_,
      (s.locks.lock_map_ { oid_ := 1, p_id_ := 1, row_id_ := 2, type_ := .row }).upgrading_)) (by decide)
  simp only [Prod.mk.injEq] at hs
  obtain ⟨hcalls, hwoken, hs₀, hs₁, hf₁, hf₂⟩ := hs
  refine ⟨s, hrun, ?_, ?_, by simp [hwoken], by rw [hcalls]; rfl⟩
  · intro c hc
    rw [hcalls] at hc
    unfold Notified.settled
    rw [hcalls, hwoken]
    have hlt : c < 4 := hc
    interval_cases c <;> rfl
  · intro c site t m l r hc
    have hlt := (List.getElem?_eq_some_iff.mp hc).1
    rw [hcalls] at hc hlt
    have hlt : c < 4 := hlt
    interval_cases c
    · cases hc
    · cases hc
    · cases hc
      exact ⟨by rw [hs₀]; decide, fun hflag => by rw [hf₂] at hflag; cases hflag⟩
    · cases hc
      exact ⟨by rw [hs₁]; decide, fun hflag => by rw [hf₁] at hflag; cases hflag⟩

theorem sleeps_for_a_reason_crossed : ∃ s, Run (Guarded (NotifyOk (Finset.range 3)) (FunStep (Notified.next false)))
    (Notified.init someTxns) crossed s ∧
      ((∃ u ∈ Finset.range 3, s.locks.WaitsFor 0 u) ∨ (s.locks.txns 0).state_ = .aborted ∨
        ((s.locks.lock_map_ { oid_ := 1, p_id_ := 1, row_id_ := 2, type_ := .row }).upgrading_ = true ∧
          ∀ d b, ¬ s.locks.Upgrades d { oid_ := 1, p_id_ := 1, row_id_ := 2, type_ := .row } b)) := by
  obtain ⟨s, hrun, -, -, hsleep, hc⟩ := run_crossed
  exact ⟨s, hrun, sleeps_for_a_reason someTxns_injOn hrun hc hsleep⟩

theorem stuck_has_cycle_crossed : ∃ s, Run (Guarded (NotifyOk (Finset.range 3)) (FunStep (Notified.next false)))
    (Notified.init someTxns) crossed s ∧ ∃ u ∈ Finset.range 3, Relation.ReflTransGen s.locks.WaitsFor 0 u ∧
      (s.locks.Idle u ∨ Relation.TransGen s.locks.WaitsFor u u) := by
  obtain ⟨s, hrun, hquiet, hundisturbed, -⟩ := run_crossed
  exact ⟨s, hrun, stuck_has_cycle someTxns_injOn hrun hquiet hundisturbed (by decide)⟩

end Lock_manager
end DDBMS
