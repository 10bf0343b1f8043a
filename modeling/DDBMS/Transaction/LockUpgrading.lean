import DDBMS.Transaction.LockSound

/-!
# `Transaction.LockUpgrading` — what `upgrading_` stands for

The flag of a queue is set when an upgrade begins, before an arbitrary wait, and it is cleared in one place, where the
upgrade is granted. An upgrade that ends in an exception leaves it set, and from then on every upgrade of the item fails
with `UPGRADE_CONFLICT`.

So the flag means that an upgrade is pending as long as no upgrade fails (`UpgradeOk`): none is refused when it begins, and
no transaction is aborted while it is blocked in one. A step that meets the condition takes no blocked upgrade away without
clearing the flag (`flagOk_step`).
-/

namespace DDBMS
namespace Lock_manager

/-- The transaction that is blocked in an upgrade. -/
def Call.upgrader : Call → Option Nat
  | .waiting .upgrade t _ _ _ => some t
  | _ => none

def World.Upgrading (w : World) (t : Nat) : Prop := ∃ x ∈ w.calls, x.upgrader = some t

/-- `t` is blocked in an upgrade of its request `r` in the queue of `l`, and is not aborted. -/
structure World.UpgradeWaits (w : World) (l : Lock_data_id) (t : Nat) (m : LockMode) (r : Nat) : Prop where
  call : .waiting .upgrade t m l r ∈ w.calls
  state : (w.txns t).state_ ≠ .aborted
  mem : r ∈ (w.lock_map_ l).request_queue_
  txn_id : ((w.lock_map_ l).requests r).txn_id_ = (w.txns t).txn_id_

/-- The flag of a queue is set only while somebody is blocked in an upgrade there. -/
def FlagOk (w : World) : Prop :=
  ∀ l, (w.lock_map_ l).upgrading_ = true → ∃ t m r, w.UpgradeWaits l t m r

/-! ## The condition on a step -/

/-- The critical section of a call refuses no upgrade that it begins, and aborts no transaction that is blocked in one. -/
def World.EntersUpgradeOk (enable_no_wait : Bool) (w : World) (t : Nat) (m : LockMode) (l : Lock_data_id) : Prop :=
  match checkSameTxnLockRequest (w.lock_map_ l) (w.txns t).txn_id_ m with
  | .upgrade r =>
    (w.txns t).state_ ≠ .aborted ∧
      (enable_no_wait = true → ((w.lock_map_ l).upgrade r m).checkQueueCompatible r = true)
  | .upgradeConflict | .incompatibleUpgrade => ¬ w.Upgrading t
  | _ => True

/-- `Unlock` drops no request whose upgrade is pending, and aborts no transaction that is blocked in one. -/
def World.UnlocksUpgradeOk (w : World) (t : Nat) (l : Lock_data_id) : Prop :=
  match w.releasable t l with
  | some a => ∀ x ∈ w.calls, x.upgrader = none ∨ x.waitsFor ≠ some (l, a)
  | none => ¬ w.Upgrading t

def UpgradeOk (enable_no_wait : Bool) (w : World) : Event → Prop
  | .lock t m l =>
    w.Upgrading t → ((w.txns t).state_ = .default ∨ (w.txns t).state_ = .growing) ∧ World.modeAllowed l m = true
  | .enter c =>
    match w.calls[c]? with
    | some (.entering t m l) => w.EntersUpgradeOk enable_no_wait t m l
    | _ => True
  | .wake _ => True
  | .unlock t l => w.UnlocksUpgradeOk t l
  | .setState t s => w.Upgrading t → s ≠ .aborted

instance (w : World) (t : Nat) : Decidable (w.Upgrading t) :=
  inferInstanceAs (Decidable (∃ x ∈ w.calls, x.upgrader = some t))

instance (nw : Bool) (w : World) (t : Nat) (m : LockMode) (l : Lock_data_id) : Decidable (w.EntersUpgradeOk nw t m l) :=
  match h : checkSameTxnLockRequest (w.lock_map_ l) (w.txns t).txn_id_ m with
  | .upgrade r =>
    decidable_of_iff
      ((w.txns t).state_ ≠ .aborted ∧ (nw = true → ((w.lock_map_ l).upgrade r m).checkQueueCompatible r = true))
      (by simp only [World.EntersUpgradeOk, h])
  | .upgradeConflict => decidable_of_iff (¬ w.Upgrading t) (by simp only [World.EntersUpgradeOk, h])
  | .incompatibleUpgrade => decidable_of_iff (¬ w.Upgrading t) (by simp only [World.EntersUpgradeOk, h])
  | .notFound => isTrue (by simp only [World.EntersUpgradeOk, h])
  | .held => isTrue (by simp only [World.EntersUpgradeOk, h])
  | .pending _ => isTrue (by simp only [World.EntersUpgradeOk, h])

instance (w : World) (t : Nat) (l : Lock_data_id) : Decidable (w.UnlocksUpgradeOk t l) :=
  match h : w.releasable t l with
  | some a =>
    decidable_of_iff (∀ x ∈ w.calls, x.upgrader = none ∨ x.waitsFor ≠ some (l, a))
      (by simp only [World.UnlocksUpgradeOk, h])
  | none => decidable_of_iff (¬ w.Upgrading t) (by simp only [World.UnlocksUpgradeOk, h])

instance (nw : Bool) (w : World) (e : Event) : Decidable (UpgradeOk nw w e) :=
  match e with
  | .lock t m l =>
    inferInstanceAs (Decidable (w.Upgrading t →
      ((w.txns t).state_ = .default ∨ (w.txns t).state_ = .growing) ∧ World.modeAllowed l m = true))
  | .enter c =>
    match h : w.calls[c]? with
    | some (.entering t m l) => decidable_of_iff (w.EntersUpgradeOk nw t m l) (by simp only [UpgradeOk, h])
    | some (.waiting ..) => isTrue (by simp only [UpgradeOk, h])
    | some (.returned _) => isTrue (by simp only [UpgradeOk, h])
    | none => isTrue (by simp only [UpgradeOk, h])
  | .wake _ => isTrue trivial
  | .unlock t l => inferInstanceAs (Decidable (w.UnlocksUpgradeOk t l))
  | .setState t s => inferInstanceAs (Decidable (w.Upgrading t → s ≠ .aborted))

/-! ## Steps that keep the blocked upgrades -/

/-- What is blocked in an upgrade in `w` still is in `w'`. -/
def KeepsUpgrades (w w' : World) (l : Lock_data_id) : Prop := ∀ t m r, w.UpgradeWaits l t m r → w'.UpgradeWaits l t m r

section Keeps

variable {w w' w'' : World} {c t r : Nat} {m : LockMode} {l k : Lock_data_id} {nw : Bool} {site : Site}

theorem World.UpgradeWaits.upgrading (h : w.UpgradeWaits l t m r) : w.Upgrading t := ⟨_, h.call, rfl⟩

theorem KeepsUpgrades.trans (h : KeepsUpgrades w w' l) (h' : KeepsUpgrades w' w'' l) : KeepsUpgrades w w'' l :=
  fun t m r hw => h' t m r (h t m r hw)

/-- New transaction states, none of which becomes `ABORTED` under a blocked upgrade. -/
theorem KeepsUpgrades.txns {txns : Nat → Transaction} (hids : SameIds w txns)
    (hstate : ∀ u, w.Upgrading u → (w.txns u).state_ ≠ .aborted → (txns u).state_ ≠ .aborted) :
    KeepsUpgrades w { w with txns := txns } l := by
  intro u n a hw
  exact ⟨hw.call, hstate u hw.upgrading hw.state, hw.mem, hw.txn_id.trans (hids u).symm⟩

theorem KeepsUpgrades.setTxn {x : Transaction} (hid : x.txn_id_ = (w.txns t).txn_id_)
    (hstate : w.Upgrading t → (w.txns t).state_ ≠ .aborted → x.state_ ≠ .aborted) : KeepsUpgrades w (w.setTxn t x) l := by
  apply KeepsUpgrades.txns (sameIds_setTxn hid)
  intro u hu hs
  by_cases hut : u = t
  · subst hut
    simpa [World.setTxn] using hstate hu hs
  · simpa [World.setTxn, hut] using hs

/-- A call that is no blocked upgrade of `l` moves on. -/
theorem KeepsUpgrades.setCall {x y : Call} (hc : w.calls[c]? = some y)
    (hy : ∀ u n a, y = .waiting .upgrade u n l a → (w.txns u).state_ = .aborted) : KeepsUpgrades w (w.setCall c x) l := by
  intro u n a hw
  refine ⟨?_, hw.state, hw.mem, hw.txn_id⟩
  obtain ⟨d, hd⟩ := List.mem_iff_getElem?.mp hw.call
  have hne : d ≠ c := by
    rintro rfl
    exact hw.state (hy u n a (Option.some.inj (hc.symm.trans hd)))
  exact List.mem_of_getElem? ((List.getElem?_set_ne hne.symm).trans hd)

theorem KeepsUpgrades.setQueue {q : LockRequestQueue} (h : ∀ a ∈ (w.lock_map_ l).request_queue_,
    a ∈ q.request_queue_ ∧ (q.requests a).txn_id_ = ((w.lock_map_ l).requests a).txn_id_) :
    KeepsUpgrades w (w.setQueue l q) k := by
  intro u n a hw
  by_cases hk : k = l
  · subst hk
    obtain ⟨hmem, hid⟩ := h a hw.mem
    exact ⟨hw.call, hw.state, by rw [setQueue_self]; exact hmem, by rw [setQueue_self]; exact hid.trans hw.txn_id⟩
  · exact ⟨hw.call, hw.state, by rw [setQueue_ne q hk]; exact hw.mem, by rw [setQueue_ne q hk]; exact hw.txn_id⟩

theorem KeepsUpgrades.emplace_back (hq : QueuesOk w) :
    KeepsUpgrades w (w.setQueue l ((w.lock_map_ l).emplace_back (w.txns t).txn_id_ m)) k := by
  apply KeepsUpgrades.setQueue
  intro a ha
  have hlt := (hq l).alloc a ha
  have hne : a ≠ (w.lock_map_ l).allocated := by omega
  exact ⟨List.mem_append_left _ ha, by rw [emplace_back_ne _ m hne]⟩

theorem KeepsUpgrades.upgrade : KeepsUpgrades w (w.setQueue l ((w.lock_map_ l).upgrade r m)) k := by
  apply KeepsUpgrades.setQueue
  intro a ha
  by_cases har : a = r
  · subst har
    exact ⟨ha, by rw [upgrade_self]⟩
  · exact ⟨ha, by rw [upgrade_ne m har]⟩

theorem KeepsUpgrades.returnTrue {y : Call} (hc : w.calls[c]? = some y)
    (hy : ∀ u n a, y ≠ .waiting .upgrade u n l a) : KeepsUpgrades w (w.returnTrue c t m k) l := by
  have hset : KeepsUpgrades w (w.setTxn t ((w.txns t).add_lock_set m k)) l := KeepsUpgrades.setTxn rfl (fun _ hs => hs)
  have hcall : KeepsUpgrades (w.setTxn t ((w.txns t).add_lock_set m k))
      ((w.setTxn t ((w.txns t).add_lock_set m k)).setCall c (.returned true)) l :=
    KeepsUpgrades.setCall hc (fun u n a h => absurd h (hy u n a))
  exact fun u n a hw => ⟨(hcall u n a (hset u n a hw)).call, (hset u n a hw).state, hw.mem, (hset u n a hw).txn_id⟩

theorem KeepsUpgrades.granted {y : Call} (hc : w.calls[c]? = some y) (hy : ∀ u n a, y ≠ .waiting .upgrade u n l a) :
    KeepsUpgrades w (w.granted site c t m k r) l := by
  have hq : ∀ q : LockRequestQueue, q.request_queue_ = (w.lock_map_ k).request_queue_ →
      q.requests = ((w.lock_map_ k).grant r).requests → KeepsUpgrades w ((w.setQueue k q).returnTrue c t m k) l := by
    intro q hqueue hreq
    have hset : KeepsUpgrades w (w.setQueue k q) l := by
      apply KeepsUpgrades.setQueue
      intro a ha
      rw [hqueue, hreq]
      by_cases har : a = r
      · subst har
        exact ⟨ha, by rw [grant_self]⟩
      · exact ⟨ha, by rw [grant_ne har]⟩
    exact hset.trans (KeepsUpgrades.returnTrue hc hy)
  apply hq
  · split <;> rfl
  · split <;> rfl

/-- A transaction that is aborted already, or is in no upgrade, gives up a call. -/
theorem KeepsUpgrades.abort {y : Call} (hc : w.calls[c]? = some y)
    (hy : ∀ u n a, y = .waiting .upgrade u n l a → (w.txns u).state_ = .aborted)
    (hstate : w.Upgrading t → (w.txns t).state_ = .aborted) : KeepsUpgrades w (w.abort c t) l := by
  have hset : KeepsUpgrades w (w.setState t .aborted) l :=
    KeepsUpgrades.setTxn rfl (fun hu hs => absurd (hstate hu) hs)
  intro u n a hw
  have hcall := KeepsUpgrades.setCall (w := w) (x := .returned false) hc hy u n a hw
  exact ⟨hcall.call, (hset u n a hw).state, hw.mem, (hset u n a hw).txn_id⟩

end Keeps

/-! ## The flag along a step -/

section Flag

variable {w w' : World} {c t r : Nat} {m : LockMode} {l k : Lock_data_id} {nw : Bool} {site : Site} {y : Call}

/-- A step that sets no flag and keeps the blocked upgrades where the flag stays. -/
theorem FlagOk.of_keeps (h : FlagOk w)
    (hkeeps : ∀ l, (w'.lock_map_ l).upgrading_ = true → (w.lock_map_ l).upgrading_ = true ∧ KeepsUpgrades w w' l) :
    FlagOk w' := by
  intro l hflag
  obtain ⟨hold, hk⟩ := hkeeps l hflag
  obtain ⟨u, n, a, hw⟩ := h l hold
  exact ⟨u, n, a, hk u n a hw⟩

theorem setQueue_upgrading {q : LockRequestQueue} (hq : q.upgrading_ = (w.lock_map_ l).upgrading_) :
    ((w.setQueue l q).lock_map_ k).upgrading_ = (w.lock_map_ k).upgrading_ := by
  by_cases hk : k = l
  · subst hk
    rw [setQueue_self, hq]
  · rw [setQueue_ne q hk]

/-- The end of a wait clears the flag of an upgrade and no other. -/
theorem granted_upgrading (hflag : ((w.granted site c t m l r).lock_map_ k).upgrading_ = true) :
    (w.lock_map_ k).upgrading_ = true ∧ (site = .upgrade → k ≠ l) := by
  unfold World.granted at hflag
  rw [returnTrue_lock_map] at hflag
  by_cases hk : k = l
  · subst hk
    rw [setQueue_self] at hflag
    split at hflag
    · cases hflag
    · rename_i hsite
      exact ⟨hflag, fun h => absurd h hsite⟩
  · rw [setQueue_ne _ hk] at hflag
    exact ⟨hflag, fun _ => hk⟩

/-- The first wait of a call, when it has set no flag. -/
theorem FlagOk.await (h : FlagOk w) (hc : w.calls[c]? = some (.entering t m l))
    (hnw : nw = true → ¬ w.Upgrading t) : FlagOk (w.await nw site c t m l r) := by
  unfold World.await
  split
  · rename_i hs
    exact h.of_keeps (fun k hk => ⟨hk, KeepsUpgrades.abort hc (fun u n a hy => by cases hy) (fun _ => hs)⟩)
  · split
    · exact h.of_keeps (fun k hk =>
        ⟨(granted_upgrading hk).1, KeepsUpgrades.granted hc (fun u n a hy => by cases hy)⟩)
    · split
      · rename_i hnw'
        exact h.of_keeps (fun k hk =>
          ⟨hk, KeepsUpgrades.abort hc (fun u n a hy => by cases hy) (fun hu => absurd hu (hnw hnw'))⟩)
      · exact h.of_keeps (fun k hk => ⟨hk, KeepsUpgrades.setCall hc (fun u n a hy => by cases hy)⟩)

/-- **An upgrade begins.** It is granted at once, and the flag is clear again, or it is blocked. -/
theorem FlagOk.enter_upgrade (h : FlagOk w) (hc : w.calls[c]? = some (.entering t m l))
    (hf : checkSameTxnLockRequest (w.lock_map_ l) (w.txns t).txn_id_ m = .upgrade r)
    (hstate : (w.txns t).state_ ≠ .aborted)
    (hnw : nw = true → ((w.lock_map_ l).upgrade r m).checkQueueCompatible r = true) :
    FlagOk ((w.setQueue l ((w.lock_map_ l).upgrade r m)).await nw .upgrade c t m l r) := by
  obtain ⟨hmem, hid, -⟩ := found_upgrade hf
  obtain ⟨v, hv⟩ : ∃ v, v = w.setQueue l ((w.lock_map_ l).upgrade r m) := ⟨_, rfl⟩
  have hkeeps : ∀ k, KeepsUpgrades w v k := by
    intro k
    rw [hv]
    exact KeepsUpgrades.upgrade
  have hcv : v.calls[c]? = some (.entering t m l) := by rw [hv]; exact hc
  have hsv : (v.txns t).state_ ≠ .aborted := by rw [hv]; exact hstate
  have hvl : v.lock_map_ l = (w.lock_map_ l).upgrade r m := by rw [hv, setQueue_self]
  have hvk : ∀ k, k ≠ l → v.lock_map_ k = w.lock_map_ k := by
    intro k hk
    rw [hv, setQueue_ne _ hk]
  have hother : ∀ k v', k ≠ l → (v.lock_map_ k).upgrading_ = true → KeepsUpgrades v v' k → ∃ u n a, v'.UpgradeWaits k u n a := by
    intro k v' hk hflag hv'
    rw [hvk k hk] at hflag
    obtain ⟨u, n, a, hw⟩ := h k hflag
    exact ⟨u, n, a, hv' u n a (hkeeps k u n a hw)⟩
  rw [← hv]
  unfold World.await
  rw [if_neg hsv]
  split
  · intro k hflag
    obtain ⟨hold, hne⟩ := granted_upgrading hflag
    exact hother k _ (hne rfl) hold (KeepsUpgrades.granted hcv (fun u n a hy => by cases hy))
  · rename_i hcompat
    split
    · rename_i hnw'
      rw [hvl] at hcompat
      exact absurd (hnw hnw') hcompat
    · intro k hflag
      by_cases hk : k = l
      · subst hk
        refine ⟨t, m, r, Slots.mem_set_self hcv, hsv, ?_, ?_⟩
        · rw [setCall_lock_map, hvl]
          exact hmem
        · rw [setCall_lock_map, hvl, upgrade_self]
          rw [hv]
          exact hid
      · exact hother k _ hk hflag (KeepsUpgrades.setCall hcv (fun u n a hy => by cases hy))

theorem FlagOk.enter (h : FlagOk w) (hq : QueuesOk w) (hblocked : nw = true → w.NotBlocked)
    (hc : w.calls[c]? = some (.entering t m l)) (hok : w.EntersUpgradeOk nw t m l) : FlagOk (w.enter nw c t m l) := by
  have hnw : nw = true → ¬ w.Upgrading t := by
    rintro hnw ⟨x, hx, hup⟩
    have hnone := hblocked hnw x hx
    cases x with
    | waiting => cases hnone
    | entering | returned => cases hup
  unfold World.EntersUpgradeOk at hok
  unfold World.enter
  dsimp only
  split <;> rename_i hf <;> rw [hf] at hok
  · split
    · exact h.of_keeps (fun k hk => ⟨hk, KeepsUpgrades.setCall hc (fun u n a hy => by cases hy)⟩)
    · exact h.of_keeps (fun k hk => ⟨hk, KeepsUpgrades.returnTrue hc (fun u n a hy => by cases hy)⟩)
  · exact h.await hc hnw
  · exact h.of_keeps (fun k hk => ⟨hk, KeepsUpgrades.abort hc (fun u n a hy => by cases hy) (fun hu => absurd hu hok)⟩)
  · exact h.of_keeps (fun k hk => ⟨hk, KeepsUpgrades.abort hc (fun u n a hy => by cases hy) (fun hu => absurd hu hok)⟩)
  · exact h.enter_upgrade hc hf hok.1 hok.2
  · have hset : FlagOk (w.setQueue l ((w.lock_map_ l).emplace_back (w.txns t).txn_id_ m)) :=
      h.of_keeps (fun k hk =>
        ⟨(setQueue_upgrading (q := (w.lock_map_ l).emplace_back (w.txns t).txn_id_ m) rfl).symm.trans hk,
          KeepsUpgrades.emplace_back hq⟩)
    exact hset.await hc hnw

/-- A blocked call looks at its predicate again. -/
theorem FlagOk.wake (h : FlagOk w) (hblocked : nw = true → w.NotBlocked)
    (hc : w.calls[c]? = some (.waiting site t m l r)) : FlagOk (w.await nw site c t m l r) := by
  unfold World.await
  split
  · rename_i hs
    refine h.of_keeps (fun k hk => ⟨hk, KeepsUpgrades.abort hc ?_ (fun _ => hs)⟩)
    intro u n a hy
    cases hy
    exact hs
  · split
    · refine h.of_keeps (fun k hk => ?_)
      obtain ⟨hold, hne⟩ := granted_upgrading hk
      refine ⟨hold, KeepsUpgrades.granted hc ?_⟩
      intro u n a hy
      cases hy
      exact hne rfl rfl
    · split
      · rename_i hnw
        cases hblocked hnw _ (List.mem_of_getElem? hc)
      · have hsame : w.setCall c (.waiting site t m l r) = w := by
          unfold World.setCall
          rw [Slots.set_self hc]
        rw [hsame]
        exact h

theorem FlagOk.lock (h : FlagOk w)
    (hok : w.Upgrading t → ((w.txns t).state_ = .default ∨ (w.txns t).state_ = .growing) ∧ World.modeAllowed l m = true) :
    FlagOk (w.lock t m l) := by
  have happend : ∀ (v : World) (x : Call), v.calls = w.calls → (∀ k, KeepsUpgrades w v k) → v.lock_map_ = w.lock_map_ →
      FlagOk { v with calls := w.calls ++ [x] } := by
    intro v x hcalls hv hmap
    refine h.of_keeps (fun k hk => ⟨by rw [← hmap]; exact hk, ?_⟩)
    intro u n a hw
    have hvw := hv k u n a hw
    exact ⟨List.mem_append_left _ hw.call, hvw.state, hvw.mem, hvw.txn_id⟩
  by_cases hpass : ((w.txns t).state_ = .default ∨ (w.txns t).state_ = .growing) ∧ World.modeAllowed l m = true
  · rw [lock_passes hpass.1 hpass.2]
    exact happend _ _ rfl (fun k => KeepsUpgrades.setTxn rfl (fun _ _ hs => by cases hs)) rfl
  · have hno : ¬ w.Upgrading t := fun hu => hpass (hok hu)
    rw [lock_refused hpass]
    exact happend _ _ rfl (fun k => KeepsUpgrades.setTxn rfl (fun hu => absurd hu hno)) rfl

theorem FlagOk.unlock (h : FlagOk w) (hok : w.UnlocksUpgradeOk t l) : FlagOk (w.unlock t l) := by
  unfold World.UnlocksUpgradeOk at hok
  cases hrel : w.releasable t l with
  | none =>
      rw [hrel] at hok
      rw [unlock_none hrel]
      exact h.of_keeps (fun k hk => ⟨hk, KeepsUpgrades.setTxn rfl (fun hu => absurd hu hok)⟩)
  | some a =>
      rw [hrel] at hok
      have hdrop : ∀ k, KeepsUpgrades w (w.setQueue l ((w.lock_map_ l).drop a)) k := by
        intro k u n b hw
        by_cases hk : k = l
        · subst hk
          -- the request that goes is not the one whose upgrade is pending
          have hne : b ≠ a := by
            rintro rfl
            rcases hok _ hw.call with hnone | hne
            · cases hnone
            · exact hne rfl
          refine ⟨hw.call, hw.state, ?_, ?_⟩ <;> rw [setQueue_self]
          · exact (List.mem_erase_of_ne hne).mpr hw.mem
          · exact hw.txn_id
        · exact ⟨hw.call, hw.state, by rw [setQueue_ne _ hk]; exact hw.mem, by rw [setQueue_ne _ hk]; exact hw.txn_id⟩
      have hstate : (w.txns t).state_ ≠ .aborted → (unlockedTxn (w.txns t) l true).state_ ≠ .aborted := by
        intro hs
        simp only [unlockedTxn, Transaction.erase_lock_sets]
        split
        · rename_i hf
          cases hf
        · split
          · decide
          · exact hs
      have hset : ∀ k, KeepsUpgrades (w.setQueue l ((w.lock_map_ l).drop a))
          ((w.setQueue l ((w.lock_map_ l).drop a)).setTxn t (unlockedTxn (w.txns t) l true)) k :=
        fun k => KeepsUpgrades.setTxn rfl (fun _ hs => hstate hs)
      rw [unlock_some hrel]
      refine h.of_keeps (fun k hk => ⟨?_, ?_⟩)
      · exact (setQueue_upgrading (q := (w.lock_map_ l).drop a) rfl).symm.trans hk
      · intro u n b hw
        have hwait := (hdrop k).trans (hset k) u n b hw
        exact ⟨hwait.call, hwait.state, hwait.mem, hwait.txn_id⟩

/-- **Step lemma.** -/
theorem flagOk_step {e : Event} (h : FlagOk w) (hq : QueuesOk w) (hblocked : nw = true → w.NotBlocked)
    (hst : Guarded (UpgradeOk nw) (step nw) w e w') : FlagOk w' := by
  obtain ⟨hok, hst⟩ := hst
  cases step_cases hst with
  | lock => exact h.lock hok
  | @enter c t m l hc =>
      simp only [UpgradeOk] at hok
      rw [hc] at hok
      exact h.enter hq hblocked hc hok
  | wake hc => exact h.wake hblocked hc
  | unlock => exact h.unlock hok
  | setState => exact h.of_keeps (fun k hk => ⟨hk, KeepsUpgrades.setTxn rfl (fun hu _ => hok hu)⟩)

end Flag

/-! ## Runs -/

theorem flagOk_init (txns : Nat → Transaction) : FlagOk (World.init txns) := fun l hflag => by cases hflag

theorem flagOk_run {nw : Bool} {txns : Nat → Transaction} {es : List Event} {w : World}
    (h : Run (Guarded (UpgradeOk nw) (step nw)) (World.init txns) es w) :
    FlagOk w ∧ QueuesOk w ∧ (nw = true → w.NotBlocked) := by
  refine h.invariant (I := fun w => FlagOk w ∧ QueuesOk w ∧ (nw = true → w.NotBlocked)) ?_ ?_
  · rintro s e s' ⟨hflag, hq, hblocked⟩ hst
    refine ⟨flagOk_step hflag hq hblocked hst, queuesOk_step hq hst.2, ?_⟩
    rintro rfl
    exact notBlocked_step (hblocked rfl) hst.2
  · exact ⟨flagOk_init txns, queuesOk_init txns, fun _ x hx => absurd hx List.not_mem_nil⟩

/-- What the flags of a world stand for: pending upgrades, and so, under no-wait, nothing that an upgrade conflicts with. -/
structure FlagsMeanPending (enable_no_wait : Bool) (w : World) : Prop where
  pending : ∀ l, (w.lock_map_ l).upgrading_ = true → ∃ t m r, w.UpgradeWaits l t m r
  noConflict : enable_no_wait = true → ∀ l T m, checkSameTxnLockRequest (w.lock_map_ l) T m ≠ .upgradeConflict

/-- **The flag means that an upgrade is pending**, in every run in which no upgrade fails. -/
theorem upgrading_means_pending {nw : Bool} {txns : Nat → Transaction} {es : List Event} {w : World}
    (h : Run (Guarded (UpgradeOk nw) (step nw)) (World.init txns) es w) : FlagsMeanPending nw w := by
  obtain ⟨hflag, -, hblocked⟩ := flagOk_run h
  refine ⟨hflag, ?_⟩
  intro hnw l T m hconflict
  have hset : (w.lock_map_ l).upgrading_ = true := by
    rw [found_own] at hconflict
    split at hconflict
    · cases hconflict
    · split at hconflict
      · split at hconflict <;> cases hconflict
      · split at hconflict
        · assumption
        · split at hconflict <;> cases hconflict
  obtain ⟨t, m, r, hwaits⟩ := hflag l hset
  cases hblocked hnw _ hwaits.call

/-- Two readers, one of which waits for an upgrade. -/
def pendingUpgrade : List Event :=
  [LockRow 0 .shared 1 1 1, .enter 0, LockRow 1 .shared 1 1 1, .enter 1, LockRow 0 .exlucsive 1 1 1, .enter 2]

theorem upgrading_means_pending_pendingUpgrade :
    ∃ w, Run (Guarded (UpgradeOk false) (step false)) (World.init someTxns) pendingUpgrade w ∧
      (w.lock_map_ someRow).upgrading_ = true ∧ FlagsMeanPending false w := by
  obtain ⟨w, hrun, hflag⟩ : ∃ w, Run (Guarded (UpgradeOk false) (step false)) (World.init someTxns) pendingUpgrade w ∧
      (w.lock_map_ someRow).upgrading_ = true :=
    Run.exists_guarded_of_map (f := fun w : World => (w.lock_map_ someRow).upgrading_) (by decide)
  exact ⟨w, hrun, hflag, upgrading_means_pending hrun⟩

/-- **A failed upgrade leaves the flag set.** Under no-wait the upgrade of the first reader fails; nobody is blocked, the
    flag is set, and the upgrade of the second reader will fail with `UPGRADE_CONFLICT`. -/
theorem failed_upgrade_leaves_flag :
    ∃ w, Run (step true) (World.init someTxns) pendingUpgrade w ∧ (w.lock_map_ someRow).upgrading_ = true ∧
      (∀ t m r, ¬ w.UpgradeWaits someRow t m r) ∧
      checkSameTxnLockRequest (w.lock_map_ someRow) 2 .exlucsive = .upgradeConflict := by
  obtain ⟨w, hrun, hw⟩ : ∃ w, Run (step true) (World.init someTxns) pendingUpgrade w ∧
      ((w.lock_map_ someRow).upgrading_, w.calls, checkSameTxnLockRequest (w.lock_map_ someRow) 2 .exlucsive) =
        (true, [.returned true, .returned true, .returned false], .upgradeConflict) :=
    Run.exists_of_map (f := fun w : World =>
      ((w.lock_map_ someRow).upgrading_, w.calls, checkSameTxnLockRequest (w.lock_map_ someRow) 2 .exlucsive)) (by decide)
  simp only [Prod.mk.injEq] at hw
  obtain ⟨hflag, hcalls, hconflict⟩ := hw
  refine ⟨w, hrun, hflag, ?_, hconflict⟩
  intro t m r hwaits
  have hcall := hwaits.call
  rw [hcalls] at hcall
  simp at hcall

end Lock_manager
end DDBMS
