import DDBMS.Transaction.LockNoWait
import DDBMS.Transaction.TwoPhase

/-!
# `Transaction.LockSets` — the lock sets of a transaction mirror the queues

A transaction that issues its calls sequentially and never fails has, for every item, either nothing, or one granted request
in the queue and the item in the lock set of the request's mode (`Settled`). The one exception is the item that its one call
in progress is blocked for: there its request is not granted yet (`Mirror.waiting`).

An upgrade adds the item to a second set and leaves it in the first, an unlock takes it out of all of them. Only a call that
fails breaks the mirror (`mirror_step`), and then the transaction is aborted.
-/

namespace DDBMS
namespace Lock_manager

/-- Nothing of the item, or one granted request and the item in the set of its mode. -/
inductive Settled (v : View) (l : Lock_data_id) : Prop where
  | free (h : v.requests l = []) (hs : ∀ ty m, l ∉ v.txn.get_lock_set ty m)
  | held {r : Nat} {x : LockRequest} (h : v.requests l = [(r, x)]) (hg : x.granted_ = true)
      (hs : l ∈ v.txn.get_lock_set l.type_ x.lock_mode_)

structure Mirror (v : View) : Prop where
  one : ∀ c c', v.calls c ≠ none → v.calls c' ≠ none → c = c'
  types : ∀ ty m l, l ∈ v.txn.get_lock_set ty m → ty = l.type_
  waiting : ∀ c site t m l r, v.calls c = some (.waiting site t m l r) →
    ∃ x, v.requests l = [(r, x)] ∧ x.granted_ = false ∧ x.lock_mode_ = m
  settled : ∀ l, (∀ c site t m r, v.calls c ≠ some (.waiting site t m l r)) → Settled v l

section Sets

variable {x : Transaction} {m n : LockMode} {l k : Lock_data_id} {ty : Lock_data_type} {found : Bool}

theorem mem_add_lock_set : k ∈ (x.add_lock_set m l).get_lock_set ty n ↔
    (ty = l.type_ ∧ n = m ∧ k = l) ∨ k ∈ x.get_lock_set ty n := by
  unfold Transaction.add_lock_set
  by_cases h : ty = l.type_ ∧ n = m
  · simp [h]
  · simp only [if_neg h]
    constructor
    · exact Or.inr
    · rintro (⟨h₁, h₂, -⟩ | h')
      · exact absurd ⟨h₁, h₂⟩ h
      · exact h'

theorem mem_unlockedTxn : k ∈ (unlockedTxn x l found).get_lock_set ty n ↔
    (ty = l.type_ → k ≠ l) ∧ k ∈ x.get_lock_set ty n := by
  unfold unlockedTxn Transaction.erase_lock_sets
  by_cases h : ty = l.type_
  · simp [h]
  · simp [h]

end Sets

section Mirror

variable {v v' : View} {c t r : Nat} {m : LockMode} {l k : Lock_data_id} {site : Site} {b : Bool} {e : Event} {x : LockRequest}

/-- `Settled` is about the requests for the item and the lock sets it is in. -/
theorem Settled.congr (h : Settled v k) (hr : v'.requests k = v.requests k)
    (hs : ∀ ty m, k ∈ v'.txn.get_lock_set ty m ↔ k ∈ v.txn.get_lock_set ty m) : Settled v' k := by
  cases h with
  | free h hn => exact .free (hr.trans h) (fun ty m hk => hn ty m ((hs ty m).mp hk))
  | held h hg hk => exact .held (hr.trans h) hg ((hs _ _).mpr hk)

theorem Settled.returnTrue_ne (h : Settled v k) (hk : k ≠ l) : Settled (v.returnTrue c m l) k := by
  refine h.congr rfl ?_
  intro ty n
  show k ∈ (v.txn.add_lock_set m l).get_lock_set ty n ↔ _
  rw [mem_add_lock_set]
  simp [hk]

/-- A transaction inside no call is settled everywhere. -/
theorem Mirror.of_idle (hidle : ∀ c, v.calls c = none) (htypes : ∀ ty m l, l ∈ v.txn.get_lock_set ty m → ty = l.type_)
    (h : ∀ l, Settled v l) : Mirror v := by
  refine ⟨?_, htypes, ?_, fun l _ => h l⟩
  · intro c c' hc
    exact absurd (hidle c) hc
  · intro c site t m l r hc
    rw [hidle] at hc
    cases hc

theorem types_add_lock_set (htypes : ∀ ty m l, l ∈ v.txn.get_lock_set ty m → ty = l.type_) :
    ∀ ty n k, k ∈ (v.txn.add_lock_set m l).get_lock_set ty n → ty = k.type_ := by
  intro ty n k hk
  rcases mem_add_lock_set.mp hk with ⟨rfl, -, rfl⟩ | hk
  · rfl
  · exact htypes ty n k hk

/-- **The end of a wait, or one more block.** The request of the call is there, not granted; everything else is settled. -/
theorem mirror_await (hcalls : ∀ d, d ≠ c → v.calls d = none)
    (htypes : ∀ ty m l, l ∈ v.txn.get_lock_set ty m → ty = l.type_) (hreq : v.requests l = [(r, x)])
    (hg : x.granted_ = false) (hm : x.lock_mode_ = m) (hothers : ∀ k, k ≠ l → Settled v k)
    (hst : OwnAwait v site c t m l r false v') : Mirror v' := by
  cases hst with
  | granted =>
      have hidle : ∀ d, (v.granted c m l r).calls d = none := by
        intro d
        by_cases hd : d = c
        · simp [View.granted, View.returnTrue, View.setCall, hd]
        · simp [View.granted, View.returnTrue, View.setCall, View.setRequests, hd, hcalls d hd]
      refine Mirror.of_idle hidle (types_add_lock_set htypes) ?_
      intro k
      by_cases hk : k = l
      · subst hk
        refine .held (r := r) (x := x.grantedNow) ?_ rfl ?_
        · simp [View.granted, View.returnTrue, View.setCall, View.setRequests, hreq, rewriteAt]
        · exact mem_add_lock_set.mpr (Or.inl ⟨rfl, hm, rfl⟩)
      · refine Settled.returnTrue_ne ((hothers k hk).congr ?_ (fun _ _ => Iff.rfl)) hk
        simp [View.setRequests, hk]
  | blocked =>
      refine ⟨?_, htypes, ?_, ?_⟩
      · intro d d' hd hd'
        have hone : ∀ d, (v.setCall c (some (.waiting site t m l r))).calls d ≠ none → d = c := by
          intro d hd
          by_contra hne
          simp [View.setCall, hne, hcalls d hne] at hd
        rw [hone d hd, hone d' hd']
      · intro d site' t' m' l' r' hd
        by_cases hdc : d = c
        · simp only [View.setCall, hdc, if_true, Option.some.injEq, Call.waiting.injEq] at hd
          obtain ⟨-, -, rfl, rfl, rfl⟩ := hd
          exact ⟨x, hreq, hg, hm⟩
        · simp [View.setCall, hdc, hcalls d hdc] at hd
      · intro k hk
        have hkl : k ≠ l := by
          rintro rfl
          exact hk c site t m r (by simp [View.setCall])
        exact (hothers k hkl).congr rfl (fun _ _ => Iff.rfl)

/-- Only the call in progress may wait. -/
theorem Mirror.calls_ne (h : Mirror v) {y : Call} (hc : v.calls c = some y) : ∀ d, d ≠ c → v.calls d = none := by
  intro d hd
  by_contra hne
  exact hd (h.one d c hne (by rw [hc]; exact Option.some_ne_none _))

/-- A call at its first critical section waits for nothing, so everything is settled. -/
theorem Mirror.settled_entering (h : Mirror v) (hc : v.calls c = some (.entering t m l)) : ∀ k, Settled v k := by
  intro k
  apply h.settled
  intro d site t' m' r hd
  by_cases hdc : d = c
  · rw [hdc, hc] at hd
    cases hd
  · rw [h.calls_ne hc d hdc] at hd
    cases hd

theorem mirror_enter (h : Mirror v) (hc : v.calls c = some (.entering t m l)) (hst : OwnEnter v c t m l false v') :
    Mirror v' := by
  have hall := h.settled_entering hc
  have hcalls := h.calls_ne hc
  have hset : ∀ {y : LockRequest} {a : Nat} k, k ≠ l → Settled (v.setRequests l [(a, y)]) k := by
    intro y a k hk
    exact (hall k).congr (by simp [View.setRequests, hk]) (fun _ _ => Iff.rfl)
  cases hst with
  | @held r x xs hreq hm hg =>
      have hidle : ∀ d, (v.returnTrue c m l).calls d = none := by
        intro d
        by_cases hd : d = c
        · simp [View.returnTrue, View.setCall, hd]
        · simp [View.returnTrue, View.setCall, hd, hcalls d hd]
      refine Mirror.of_idle hidle (types_add_lock_set h.types) ?_
      intro k
      by_cases hk : k = l
      · subst hk
        cases hall k with
        | free hnil => rw [hnil] at hreq; cases hreq
        | held hone hg' hs => exact .held hone hg' (mem_add_lock_set.mpr (Or.inr hs))
      · exact (hall k).returnTrue_ne hk
  | pending hreq hm hg hawait =>
      -- no request of the transaction is left ungranted
      cases hall l with
      | free hnil => rw [hnil] at hreq; cases hreq
      | held hone hg' hs =>
          rw [hone] at hreq
          cases hreq
          rw [hg'] at hg
          cases hg
  | @upgrade r x xs _ _ hreq hawait =>
      cases hall l with
      | free hnil => rw [hnil] at hreq; cases hreq
      | held hone hg' hs =>
          rw [hone] at hreq
          cases hreq
          have hmap : [(r, x)].map (rewriteAt r (LockRequest.upgraded m)) = [(r, x.upgraded m)] := by simp [rewriteAt]
          rw [hone, hmap] at hawait
          have hreq' : (v.setRequests l [(r, x.upgraded m)]).requests l = [(r, x.upgraded m)] := by simp [View.setRequests]
          exact mirror_await (v := v.setRequests l _) hcalls h.types hreq' rfl rfl hset hawait
  | @new a _ _ hnil hawait =>
      have hreq' : (v.setRequests l [(a, ⟨v.txn.txn_id_, m, false⟩)]).requests l = [(a, ⟨v.txn.txn_id_, m, false⟩)] := by
        simp [View.setRequests]
      exact mirror_await (v := v.setRequests l _) hcalls h.types hreq' rfl rfl hset hawait

theorem mirror_unlock (h : Mirror v) (hidle : ∀ c, v.calls c = none) : Mirror (v.unlock l) := by
  have hall : ∀ k, Settled v k := by
    intro k
    apply h.settled
    intro c site t m r hc
    rw [hidle] at hc
    cases hc
  have htypes : ∀ found ty m k, k ∈ (unlockedTxn v.txn l found).get_lock_set ty m → ty = k.type_ :=
    fun found ty m k hk => h.types ty m k (mem_unlockedTxn.mp hk).2
  have hnone : ∀ found ty m, l ∉ (unlockedTxn v.txn l found).get_lock_set ty m := by
    intro found ty m hl
    obtain ⟨hne, hmem⟩ := mem_unlockedTxn.mp hl
    exact hne (h.types ty m l hmem) rfl
  have hothers : ∀ found k, k ≠ l → ∀ ty m,
      k ∈ (unlockedTxn v.txn l found).get_lock_set ty m ↔ k ∈ v.txn.get_lock_set ty m := by
    intro found k hk ty m
    rw [mem_unlockedTxn]
    simp [hk]
  unfold View.unlock
  cases hfind : (v.requests l).find? (fun x => x.2.granted_) with
  | none =>
      refine Mirror.of_idle hidle (htypes false) ?_
      intro k
      by_cases hk : k = l
      · subst hk
        cases hall k with
        | free hnil => exact .free hnil (hnone false)
        | held hone hg => simp [hone, hg] at hfind
      · exact (hall k).congr rfl (hothers false k hk)
  | some y =>
      refine Mirror.of_idle hidle (htypes true) ?_
      intro k
      by_cases hk : k = l
      · subst hk
        refine .free ?_ (hnone true)
        cases hall k with
        | free hnil => simp [hnil] at hfind
        | held hone hg =>
            simp only [hone, List.find?_cons, hg, Option.some.injEq] at hfind
            simp [View.setRequests, hone, hfind]
      · refine (hall k).congr ?_ (hothers true k hk)
        simp [View.setRequests, hk]

/-- **Step lemma.** A step of a sequential transaction keeps the mirror, unless it ends a call that fails. -/
theorem mirror_step (h : Mirror v) (hst : OwnStep v e false v')
    (hseq : (∃ t m l, e = .lock t m l) ∨ (∃ t l, e = .unlock t l) → ∀ c, v.calls c = none) : Mirror v' := by
  cases hst with
  | @passes c t m l hstate hm hc =>
      have hidle := hseq (Or.inl ⟨t, m, l, rfl⟩)
      have hentering : ∀ d y, ((v.setState .growing).setCall c (some (.entering t m l))).calls d = some y →
          d = c ∧ y = .entering t m l := by
        intro d y hd
        by_cases hdc : d = c
        · simp only [View.setCall, hdc, if_true, Option.some.injEq] at hd
          exact ⟨hdc, hd.symm⟩
        · simp [View.setCall, View.setState, hdc, hidle d] at hd
      refine ⟨?_, h.types, ?_, ?_⟩
      · intro d d' hd hd'
        obtain ⟨y, hy⟩ := Option.ne_none_iff_exists'.mp hd
        obtain ⟨y', hy'⟩ := Option.ne_none_iff_exists'.mp hd'
        rw [(hentering d y hy).1, (hentering d' y' hy').1]
      · intro d site t' m' l' r hd
        cases (hentering d _ hd).2
      · intro k _
        refine (h.settled k ?_).congr rfl (fun _ _ => Iff.rfl)
        intro d site t' m' r hd
        rw [hidle] at hd
        cases hd
  | enter hc henter => exact mirror_enter h hc henter
  | @wake c t r site m l _ _ hc hawait =>
      obtain ⟨x, hreq, hg, hm⟩ := h.waiting c site t m l r hc
      refine mirror_await (h.calls_ne hc) h.types hreq hg hm ?_ hawait
      intro k hk
      apply h.settled
      intro d site' t' m' r' hd
      by_cases hdc : d = c
      · rw [hdc, hc] at hd
        cases hd
        exact hk rfl
      · rw [h.calls_ne hc d hdc] at hd
        cases hd
  | unlock => exact mirror_unlock h (hseq (Or.inr ⟨_, _, rfl⟩))
  | setState =>
      exact ⟨h.one, h.types, h.waiting, fun k hk => (h.settled k hk).congr rfl (fun _ _ => Iff.rfl)⟩

end Mirror

/-! ## Every interleaving -/

/-- A transaction as its constructor leaves it. -/
def newTxns (ids : Nat → txn_id_t) (t : Nat) : Transaction := { txn_id_ := ids t }

/-- The lock manager's own calls, not the states that other code sets. -/
def Event.LockCall : Event → Prop
  | .setState _ _ => False
  | _ => True

instance (e : Event) : Decidable e.LockCall :=
  match e with
  | .setState _ _ => isFalse id
  | .lock _ _ _ | .enter _ | .wake _ | .unlock _ _ => isTrue trivial

def MirrorOk (used : Finset Nat) (w : World) (e : Event) : Prop := e.UsedBy used ∧ SequentialOk w e ∧ e.LockCall

instance (used : Finset Nat) (w : World) (e : Event) : Decidable (MirrorOk used w e) :=
  inferInstanceAs (Decidable (_ ∧ _ ∧ _))

section Aborted

variable {v v' : View} {c t r : Nat} {m : LockMode} {l : Lock_data_id} {site : Site} {b : Bool} {e : Event}

/-- A call that fails leaves its transaction aborted. -/
theorem aborted_of_failed (hst : OwnStep v e true v') : v'.txn.state_ = .aborted := by
  have hawait : ∀ {v : View} {site c t m l r}, OwnAwait v site c t m l r true v' → v'.txn.state_ = .aborted := by
    intro v site c t m l r h
    cases h with
    | abort => rfl
  cases hst with
  | refused => rfl
  | enter hc h =>
      cases h with
      | heldAborted hs => exact hs
      | pending _ _ _ h => exact hawait h
      | refused => rfl
      | upgrade _ h => exact hawait h
      | new _ h => exact hawait h
  | wake hc h => exact hawait h

/-- `ABORTED` is final for the lock manager. -/
theorem aborted_step (h : v.txn.state_ = .aborted) (hst : OwnStep v e b v') (hcall : e.LockCall) :
    v'.txn.state_ = .aborted := by
  cases hst with
  | refused => rfl
  | passes hstate =>
      rcases hstate with hd | hg
      · rw [h] at hd; cases hd
      · rw [h] at hg; cases hg
  | enter _ henter =>
      rcases henter.state with hs | hs
      · exact hs.trans h
      · exact hs
  | wake _ hawait =>
      rcases hawait.state with hs | hs
      · exact hs.trans h
      · exact hs
  | @unlock t l =>
      unfold View.unlock
      split <;> simp [unlockedTxn_state, h]
  | setState => exact absurd hcall id

end Aborted

section World

variable {used : Finset Nat} {w w' : World} {t : Nat} {nw : Bool} {e : Event} {l : Lock_data_id}

/-- Who starts a call or unlocks is inside no call. -/
theorem sequential_idle (hseq : SequentialOk w e) (hactor : w.actor e = some t)
    (he : (∃ t m l, e = .lock t m l) ∨ ∃ t l, e = .unlock t l) : ∀ c, (w.view t).calls c = none := by
  rcases he with ⟨u, m, l, rfl⟩ | ⟨u, l, rfl⟩ <;> obtain rfl := Option.some.inj hactor <;> exact idle_view.mp hseq

theorem mirror_init {ids : Nat → txn_id_t} (t : Nat) : Mirror ((World.init (newTxns ids)).view t) := by
  apply Mirror.of_idle
  · intro c
    simp [World.view, World.init]
  · intro ty m l hl
    simp [World.view, World.init, newTxns] at hl
  · intro l
    refine .free rfl ?_
    intro ty m hl
    simp [World.view, World.init, newTxns] at hl

theorem mirror_run {ids : Nat → txn_id_t} (hids : Set.InjOn ids (used : Set Nat)) {es : List Event}
    (h : Run (Guarded (MirrorOk used) (step nw)) (World.init (newTxns ids)) es w) :
    Sound used w ∧ ∀ t ∈ used, (w.txns t).state_ = .aborted ∨ Mirror (w.view t) := by
  refine h.invariant (I := fun w => Sound used w ∧ ∀ t ∈ used, (w.txns t).state_ = .aborted ∨ Mirror (w.view t)) ?_
    ⟨sound_init hids, fun t _ => Or.inr (mirror_init t)⟩
  rintro s e s' ⟨hsound, hmirror⟩ ⟨⟨hused, hseq, hcall⟩, hst⟩
  refine ⟨sound_step hsound hused hst, ?_⟩
  refine forall_view_step (P := fun v => v.txn.state_ = .aborted ∨ Mirror v) hsound hused hmirror hst ?_
  intro t ht b v' hactor hown
  cases b with
  | true => exact Or.inl (aborted_of_failed hown)
  | false =>
      rcases hmirror t ht with habort | hm
      · exact Or.inl (aborted_step habort hown hcall)
      · exact Or.inr (mirror_step hm hown (sequential_idle hseq hactor))

theorem own_requestList {q : LockRequestQueue} {T : txn_id_t} :
    q.requestList.filter (fun x => x.txn_id_ == T) = (q.own T).map Prod.snd := by
  unfold LockRequestQueue.requestList LockRequestQueue.own
  rw [List.filter_map, List.filter_map, List.map_map]
  rfl

/-- The lock sets of a transaction and the queue of an item say the same. -/
structure SetsMirrorQueue (w : World) (t : Nat) (l : Lock_data_id) : Prop where
  iff : (∃ ty m, l ∈ (w.txns t).get_lock_set ty m) ↔ ∃ x ∈ (w.lock_map_ l).requestList, x.txn_id_ = (w.txns t).txn_id_
  one : ∀ y ∈ (w.lock_map_ l).requestList, y.txn_id_ = (w.txns t).txn_id_ →
    ∃ x, (w.lock_map_ l).requestList.filter (fun x => x.txn_id_ == (w.txns t).txn_id_) = [x] ∧ x.granted_ = true ∧
      l ∈ (w.txns t).get_lock_set l.type_ x.lock_mode_

theorem Settled.setsMirrorQueue (h : Settled (w.view t) l) : SetsMirrorQueue w t l := by
  have hlist := own_requestList (q := w.lock_map_ l) (T := (w.txns t).txn_id_)
  cases h with
  | free hnil hs =>
      have hown : (w.lock_map_ l).own (w.txns t).txn_id_ = [] := hnil
      rw [hown, List.map_nil, List.filter_eq_nil_iff] at hlist
      have hnone : ∀ x ∈ (w.lock_map_ l).requestList, x.txn_id_ ≠ (w.txns t).txn_id_ := by
        intro x hx hid
        exact hlist x hx (by simpa using hid)
      refine ⟨⟨?_, ?_⟩, ?_⟩
      · rintro ⟨ty, m, hl⟩
        exact absurd hl (hs ty m)
      · rintro ⟨x, hx, hid⟩
        exact absurd hid (hnone x hx)
      · intro y hy hid
        exact absurd hid (hnone y hy)
  | @held r x hone hg hs =>
      have hown : (w.lock_map_ l).own (w.txns t).txn_id_ = [(r, x)] := hone
      rw [hown] at hlist
      refine ⟨⟨fun _ => ?_, fun _ => ⟨_, _, hs⟩⟩, fun _ _ _ => ⟨x, hlist, hg, hs⟩⟩
      have hx : x ∈ (w.lock_map_ l).requestList.filter (fun x => x.txn_id_ == (w.txns t).txn_id_) := by
        rw [hlist]
        exact List.mem_cons_self
      obtain ⟨hmem, hid⟩ := List.mem_filter.mp hx
      exact ⟨x, hmem, by simpa using hid⟩

/-- **Lock sets mirror the queues**: for every transaction that is `GROWING` or `SHRINKING` and inside no call, and every
    item, in every reachable state. -/
theorem lock_sets_mirror {ids : Nat → txn_id_t} (hids : Set.InjOn ids (used : Set Nat)) {es : List Event}
    (h : Run (Guarded (MirrorOk used) (step nw)) (World.init (newTxns ids)) es w) (ht : t ∈ used) (hidle : w.Idle t)
    (hstate : (w.txns t).state_ = .growing ∨ (w.txns t).state_ = .shrinking) (l : Lock_data_id) : SetsMirrorQueue w t l := by
  obtain ⟨-, hmirror⟩ := mirror_run hids h
  rcases hmirror t ht with habort | hm
  · rw [habort] at hstate
    rcases hstate with hs | hs <;> cases hs
  · apply Settled.setsMirrorQueue
    apply hm.settled
    intro c site t' m r hc
    rw [idle_view.mp hidle] at hc
    cases hc

end World

def someIds (t : Nat) : txn_id_t := UInt64.ofNat (t + 1)

theorem someIds_injOn : Set.InjOn someIds ((Finset.range 3 : Finset Nat) : Set Nat) := someTxns_injOn

/-- Transaction 1 reads a row and then writes it; 2 has to wait for it. -/
def readThenWrite : List Event :=
  [LockRow 0 .shared 1 1 1, .enter 0, LockRow 0 .exlucsive 1 1 1, .enter 1, LockRow 1 .shared 1 1 1, .enter 2]

theorem lock_sets_mirror_readThenWrite :
    ∃ w, Run (Guarded (MirrorOk (Finset.range 3)) (step false)) (World.init (newTxns someIds)) readThenWrite w ∧
      (w.lock_map_ someRow).requestList = [⟨1, .exlucsive, true⟩, ⟨2, .shared, false⟩] ∧ SetsMirrorQueue w 0 someRow := by
  obtain ⟨w, hrun, hw⟩ : ∃ w, Run (Guarded (MirrorOk (Finset.range 3)) (step false)) (World.init (newTxns someIds))
      readThenWrite w ∧ ((w.lock_map_ someRow).requestList, (w.txns 0).state_, decide (w.Idle 0)) =
        ([⟨1, .exlucsive, true⟩, ⟨2, .shared, false⟩], .growing, true) :=
    Run.exists_guarded_of_map (f := fun w : World =>
      ((w.lock_map_ someRow).requestList, (w.txns 0).state_, decide (w.Idle 0))) (by decide)
  simp only [Prod.mk.injEq, decide_eq_true_eq] at hw
  obtain ⟨hlist, hstate, hidle⟩ := hw
  exact ⟨w, hrun, hlist, lock_sets_mirror someIds_injOn hrun (by decide) hidle (Or.inl hstate) someRow⟩

end Lock_manager
end DDBMS
