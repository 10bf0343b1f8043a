import DDBMS.Transaction.ClusterOperators

/-!
# `Transaction.ClusterOrder` — the order of transactions that operate on several nodes

On each node the operations are serializable (`BenchmarkService.operations_serializable`), but two nodes may have two orders.
They do not (`distributed_serializable`): one order of the transactions is right on every node. The nodes are sites of one machine
of two-phase locking (`Serial.Sites`): who has lost a lock on one node sends nothing to any (`Barred`).

The order is also that of time (`distributed_order_follows_time`): who has given up a lock keeps his place, and who comes later
stands behind him.
-/

namespace DDBMS
namespace Benchmark_Txn

open BenchmarkService (OP_TYPE Request Free Served Standing Follows Shows path firstKey secondKey)
open Lock_manager (Access someTxns someTxns_injOn)

/-! ## One order for all nodes -/

abbrev Machine := Serial.Sites Nat Nat Lock_data_id LockMode (Access Bytes (Option Bytes))

/-- The nodes and the machine of two-phase locking in the same state. `m n` is what the store of node `n` shows. -/
structure Agrees (used : Finset Nat) (w : World) (m : Nat → Bytes → Option Bytes) (a : Machine) : Prop where
  inv : ∀ n, Serial.Locking.Inv (Lock_manager.discipline path) (a.site n)
  held : ∀ n, ∀ t ∈ used, a.held n t = ((w.nodes n).lock.view t).held
  unused : ∀ n t, t ∉ used → ∀ l, a.held n t l = none
  closed : ∀ t, a.closed t → Barred used w t
  begun : ∀ n, ∀ t ∈ used, Lock_manager.Begun ((w.nodes n).lock.view t)
  log : ∀ n, a.log n = (w.nodes n).accesses
  done : ∀ n, Serial.execute Access.apply (w.nodes n).accesses (fun _ => none) = some (m n)

/-- An operation of the transaction has come to a node. -/
def Arrived (w : World) (t : Nat) : Prop := ∃ n, ∃ x ∈ (w.nodes n).requests, x.txn = t

/-- The transaction has operated on a key of a node, and holds no lock on the way to it any more. -/
def Done (w : World) (t : Nat) : Prop :=
  ∃ n, ∃ x ∈ (w.nodes n).accesses, x.t = t ∧ ∀ l ∈ path x.key, ((w.nodes n).lock.view t).held l = none

/-- What a step from `w` does to the order. -/
structure Reorders (w : World) (a a' : Machine) : Prop where
  keeps : Serial.Locking.Keeps a.closed a'.closed a.order a'.order
  arrived : ∀ u ∈ a'.order, u ∈ a.order ∨ Arrived w u

/-- What holds between the steps. -/
structure Coherent (snappy : Snappy) (used : Finset Nat) (w : World) : Prop where
  inTurn : InTurn used w
  agrees : ∃ m a, (∀ n, Follows snappy (w.nodes n) (m n)) ∧ Agrees used w m a

section Order

variable {snappy : Snappy} {nw : Bool} {used : Finset Nat} {ops : Nat → List BenchMark_Operator} {w w' : World} {t n : Nat}
  {v₀ v : BenchmarkService.World} {e : BenchmarkService.Event} {m : Nat → Bytes → Option Bytes} {a : Machine}

/-- The nodes stay as they are. -/
theorem Agrees.turn (h : Agrees used w m a) (hnodes : w'.nodes = w.nodes) (hbarred : ∀ u, Barred used w u → Barred used w' u) :
    Agrees used w' m a where
  inv := h.inv
  held := by
    rw [hnodes]
    exact h.held
  unused := h.unused
  closed u hu := hbarred u (h.closed u hu)
  begun := by
    rw [hnodes]
    exact h.begun
  log := by
    rw [hnodes]
    exact h.log
  done := by
    rw [hnodes]
    exact h.done

/-- **An access** on node `n`, or none. -/
theorem Agrees.access (h : Agrees used w m a) {xs : List (Access Bytes (Option Bytes))} {m' : Bytes → Option Bytes}
    (hnodes : w'.nodes = Function.update w.nodes n v) (hlock : v.lock = (w.nodes n).lock)
    (haccesses : v.accesses = (w.nodes n).accesses ++ xs) (happly : Serial.execute Access.apply xs (m n) = some m')
    (hxs : xs = [] ∨ ∃ x, xs = [x] ∧ x.t ∈ used ∧
      x.op.permitted ((w.nodes n).lock.view x.t).held (path x.key) = true)
    (hbarred : ∀ u, Barred used w u → Barred used w' u) :
    Agrees used w' (Function.update m n m') (a.set n { a.site n with log := (a.site n).log ++ xs }) := by
  have hview : ∀ k, (w'.nodes k).lock = (w.nodes k).lock :=
    forall_nodes (fun k v => v.lock = (w.nodes k).lock) hnodes hlock fun _ _ => rfl
  have hheld : ∀ k, (a.set n { a.site n with log := (a.site n).log ++ xs }).held k = a.held k := by
    intro k
    exact congrFun (Function.update_eq_self n a.held) k
  refine ⟨?_, ?_, ?_, fun u hu => hbarred u (h.closed u hu), ?_, ?_, ?_⟩
  · rcases hxs with rfl | ⟨x, rfl, hx, hpermits⟩
    · rw [List.append_nil, show ({ a.site n with log := (a.site n).log } : Serial.Locking _ _ _ _) = a.site n from rfl,
        Serial.Sites.set_site]
      exact h.inv
    · refine Serial.Sites.inv_step h.inv (.access x ?_)
      show x.op.permitted (a.held n x.t) (path x.key) = true
      rw [h.held n x.t hx]
      exact hpermits
  · intro k u hu
    rw [hheld, hview]
    exact h.held k u hu
  · intro k u hu
    rw [hheld]
    exact h.unused k u hu
  · intro k u hu
    rw [hview]
    exact h.begun k u hu
  · refine forall_nodes (fun k v => Function.update a.log n (a.log n ++ xs) k = v.accesses) hnodes ?_ ?_
    · rw [Function.update_self, haccesses, h.log n]
    · intro k hk
      rw [Function.update_of_ne hk]
      exact h.log k
  · refine forall_nodes (fun k v => Serial.execute Access.apply v.accesses (fun _ => none) = some (Function.update m n m' k))
      hnodes ?_ ?_
    · rw [Function.update_self, haccesses, Serial.execute_append, h.done n]
      exact happly
    · intro k hk
      rw [Function.update_of_ne hk]
      exact h.done k

/-- **A step of the lock manager** of node `n`. -/
theorem Agrees.lock (h : Agrees used w m a) (hturn : InTurn used w) {e : Lock_manager.Event}
    (hok : Lock_manager.TwoPhaseOk used (w.nodes n).lock e) (hup : Lock_manager.NoUpgradeBlocks nw (w.nodes n).lock e)
    (hst : Lock_manager.next nw (w.nodes n).lock e = some v.lock) (hnodes : w'.nodes = Function.update w.nodes n v)
    (haccesses : v.accesses = (w.nodes n).accesses) (hbarred : ∀ u, Barred used w u → Barred used w' u)
    (hlost : ∀ t ∈ used, (w.nodes n).lock.actor e = some t → Lock_manager.Released (v.lock.view t) →
      Lock_manager.Lost ((w.nodes n).lock.view t) (v.lock.view t) → Barred used w' t) :
    ∃ a', Agrees used w' m a' ∧ Reorders w a a' := by
  have hserved := hturn.served n
  obtain ⟨t, hactor⟩ := Lock_manager.exists_actor hst
  have ht := hserved.sound.actor_mem hst hok.1 hactor
  have horderly : ∀ u ∈ used, Lock_manager.Single ((w.nodes n).lock.view u) ∧ Lock_manager.Begun ((w.nodes n).lock.view u) :=
    fun u hu => ⟨hserved.single u hu, h.begun n u hu⟩
  -- who is barred is inside no call
  obtain ⟨b, hstep, hheld, hunused, hlog, hclosed, horder⟩ := Lock_manager.locking_step (a := a.site n) path (h.held n)
    (h.unused n) (fun c hc hcl => hc (Lock_manager.idle_view.mp ((h.closed t hcl).idle n) c)) hserved.sound (horderly t ht) hok
    hup hst hactor
  have horderly' := Lock_manager.orderly_step hserved.sound horderly hok hst
  have hkeeps : Serial.Locking.Keeps a.closed b.closed a.order b.order := by
    rcases hstep with rfl | hstep
    · exact Serial.Locking.keeps_refl _ _
    · exact Serial.Locking.keeps_step hstep
  -- who is inside a call has a request
  have harrived : ∀ u ∈ b.order, u ∈ a.order ∨ Arrived w u := by
    intro u hu
    refine (horder u hu).imp_right ?_
    rintro ⟨rfl, c, hc⟩
    by_contra hnone
    refine hc (Lock_manager.idle_view.mp (hserved.idle u ht fun x hx _ htxn => hnone ⟨n, x, hx, htxn⟩) c)
  refine ⟨a.set n b, ⟨?_, ?_, ?_, ?_, ?_, ?_, ?_⟩, hkeeps, harrived⟩
  · rcases hstep with rfl | hstep
    · rw [Serial.Sites.set_site]
      exact h.inv
    · exact Serial.Sites.inv_step h.inv hstep
  · refine forall_nodes (fun k v => ∀ t ∈ used, Function.update a.held n b.held k t = (v.lock.view t).held) hnodes ?_ ?_
    · rw [Function.update_self]
      exact hheld
    · intro k hk
      rw [Function.update_of_ne hk]
      exact h.held k
  · exact (Function.forall_update_iff a.held fun _ held => ∀ t, t ∉ used → ∀ l, held t l = none).mpr
      ⟨hunused, fun k _ => h.unused k⟩
  · intro u hu
    rcases hclosed u hu with hold | ⟨rfl, hreleased, hl⟩
    · exact hbarred u (h.closed u hold)
    · exact hlost u ht hactor hreleased hl
  · exact forall_nodes (fun _ v => ∀ t ∈ used, Lock_manager.Begun (v.lock.view t)) hnodes (fun u hu => (horderly' u hu).2)
      fun k _ => h.begun k
  · refine forall_nodes (fun k v => Function.update a.log n b.log k = v.accesses) hnodes ?_ ?_
    · rw [Function.update_self, haccesses, hlog]
      exact h.log n
    · intro k hk
      rw [Function.update_of_ne hk]
      exact h.log k
  · refine forall_nodes (fun k v => Serial.execute Access.apply v.accesses (fun _ => none) = some (m k)) hnodes ?_
      fun k _ => h.done k
    rw [haccesses]
    exact h.done n

/-- A lock call that starts loses nothing. -/
theorem not_lost_of_call {lock lock' : Lock_manager.World} {u : Nat} {mode : LockMode} {l : Lock_data_id}
    (hsound : Lock_manager.Sound used lock) (hst : Lock_manager.next nw lock (.lock u mode l) = some lock')
    (hactor : lock.actor (.lock u mode l) = some t) : ¬ Lock_manager.Lost (lock.view t) (lock'.view t) := by
  obtain ⟨b, hown, -⟩ := (Lock_manager.sees_step hsound.queues hsound.waits hst hactor).own
  rintro ⟨k, n, hn, hnone⟩
  generalize lock'.view t = v' at hown hnone
  cases hown with
  | refused => cases hn.symm.trans hnone
  | passes => cases hn.symm.trans hnone

/-- **A step of a node.** -/
theorem Agrees.node (h : Agrees used w m a) (hinTurn : InTurn used w)
    (hfollows : ∀ n, Follows snappy (w.nodes n) (m n)) (hinv : snappy.Inverts) (hok : BenchmarkService.Ok snappy used (w.nodes n) e)
    (hphases : BenchmarkService.TwoPhaseOk nw (w.nodes n) e)
    (hst : BenchmarkService.next snappy nw (w.nodes n) e = some v) (hnodes : w'.nodes = Function.update w.nodes n v)
    (hbarred : ∀ u, Barred used w u → Barred used w' u)
    (hlost : ∀ t ∈ used, ∀ e', e = .lock e' → (w.nodes n).lock.actor e' = some t → Lock_manager.Released (v.lock.view t) →
      Lock_manager.Lost ((w.nodes n).lock.view t) (v.lock.view t) → Barred used w' t) :
    ∃ m' a', (∀ k, Follows snappy (w'.nodes k) (m' k)) ∧ Agrees used w' m' a' ∧ Reorders w a a' := by
  have hserved := hinTurn.served n
  obtain ⟨m', hfollows', hshows⟩ := BenchmarkService.follows_step hinv hserved (hfollows n) hok.2 hst
  have hfollowsAll : ∀ k, Follows snappy (w'.nodes k) (Function.update m n m' k) := by
    refine forall_nodes (fun k v => Follows snappy v (Function.update m n m' k)) hnodes ?_ ?_
    · rw [Function.update_self]
      exact hfollows'
    · intro k hk
      rw [Function.update_of_ne hk]
      exact hfollows k
  have hstays : Reorders w a a := ⟨Serial.Locking.keeps_refl _ _, fun u hu => Or.inl hu⟩
  rcases BenchmarkService.lock_step hserved hst hok.1 hphases with hlock | ⟨haccesses, e', hwhich, hok', hup, hlock⟩
  · cases hshows with
    | same haccesses hm =>
        have hnone : v.accesses = (w.nodes n).accesses ++ [] := by
          rw [haccesses, List.append_nil]
        refine ⟨_, _, hfollowsAll, h.access hnodes hlock hnone ?_ (Or.inl rfl) hbarred, hstays.keeps, hstays.arrived⟩
        rw [hm]
        rfl
    | @access x op hx hphase hop hread haccesses happly =>
        refine ⟨_, _, hfollowsAll, h.access hnodes hlock haccesses ?_ (Or.inr ⟨_, rfl, hserved.txns x hx, ?_⟩) hbarred,
          hstays.keeps, hstays.arrived⟩
        · simp [Serial.execute, happly]
        · have hhas := ((hserved.standing x hx).has hphase).2
          exact BenchmarkService.permitted_of_has hhas (hserved.rows x hx) hop
  · have hm : m' = m n := by
      cases hshows with
      | same _ hm => exact hm
      | access _ _ _ _ hnew _ =>
          have hlen := congrArg List.length (haccesses.symm.trans hnew)
          rw [List.length_append, List.length_singleton] at hlen
          omega
    rw [hm, Function.update_eq_self] at hfollowsAll
    obtain ⟨a', hagrees', hreorders⟩ := h.lock hinTurn hok' hup hlock hnodes haccesses hbarred (by
      intro t ht hactor hreleased hl
      rcases hwhich with ⟨u, mode, l, rfl⟩ | rfl
      · exact absurd hl (not_lost_of_call hserved.sound hlock hactor)
      · exact hlost t ht e' rfl hactor hreleased hl)
    exact ⟨m, a', hfollowsAll, hagrees', hreorders⟩

/-- **Step lemma.** -/
theorem Agrees.step {e : Event} (h : Agrees used w m a) (hinTurn : InTurn used w)
    (hfollows : ∀ n, Follows snappy (w.nodes n) (m n)) (hinv : snappy.Inverts)
    (hst : Guarded (Ok snappy nw used) (FunStep (next snappy nw ops)) w e w') :
    ∃ m' a', (∀ k, Follows snappy (w'.nodes k) (m' k)) ∧ Agrees used w' m' a' ∧ Reorders w a a' := by
  have hbarred : ∀ u, Barred used w u → Barred used w' u := fun u hu => hu.step hinTurn hst
  have hquiet : w'.nodes = w.nodes →
      ∃ m' a', (∀ k, Follows snappy (w'.nodes k) (m' k)) ∧ Agrees used w' m' a' ∧ Reorders w a a' := by
    intro hnodes
    refine ⟨m, a, ?_, h.turn hnodes hbarred, Serial.Locking.keeps_refl _ _, fun u hu => Or.inl hu⟩
    rw [hnodes]
    exact hfollows
  obtain ⟨hok, hst⟩ := hst
  cases e with
  | send t =>
      obtain ⟨i, -, ⟨op, rfl⟩ | rfl⟩ := next_send hst
      · exact hquiet rfl
      · exact hquiet rfl
  | lose t =>
      obtain rfl := Option.some.inj hst
      exact hquiet rfl
  | respond t =>
      obtain ⟨i, n, p, x, ok, -, -, -, rfl⟩ := next_respond hst
      exact hquiet rfl
  | fail t =>
      obtain rfl := next_fail hst
      exact hquiet rfl
  | deliver t =>
      obtain ⟨op, v, hop, hnode, rfl⟩ := next_deliver hst
      have hlock : BenchmarkService.LockOk used (w.nodes op.node_id) (.SendOperator t op.op_type op.key op.value) :=
        ⟨hok, hinTurn.message t op hop op.node_id⟩
      exact h.node hinTurn hfollows hinv ⟨hlock, trivial⟩ trivial hnode rfl hbarred (fun t _ e' he => by cases he)
  | node n e =>
      obtain ⟨-, v, hnode, rfl⟩ := next_node hst
      refine h.node hinTurn hfollows hinv hok.1 hok.2.1 hnode rfl hbarred ?_
      rintro t ht e' rfl hactor hreleased hl
      cases BenchmarkService.next_cases hnode with
      | lock hlock => exact barred_of_lost hinTurn hok hlock hactor ht hreleased hl

theorem request_stays (hst : BenchmarkService.next snappy nw v₀ e = some v) (h : ∃ x ∈ v₀.requests, x.txn = t) :
    ∃ x ∈ v.requests, x.txn = t := by
  obtain ⟨x, hx, htxn⟩ := h
  by_cases hsend : ∃ u op_type key value, e = .SendOperator u op_type key value
  · obtain ⟨u, op_type, key, value, rfl⟩ := hsend
    cases BenchmarkService.next_cases hst with
    | SendOperator => exact ⟨x, List.mem_append_left _ hx, htxn⟩
  · obtain ⟨p, hp⟩ := List.mem_iff_getElem?.mp hx
    have hgo := goesOn_step hst (fun u op_type key value he => hsend ⟨u, op_type, key, value, he⟩) t
    obtain ⟨y, hy, hytxn⟩ := hgo.stays p x hp htxn
    exact ⟨y, List.mem_of_getElem? hy, hytxn⟩

theorem Arrived.step {e : Event} (h : Arrived w t) (hst : FunStep (next snappy nw ops) w e w') : Arrived w' t := by
  obtain ⟨k, hk⟩ := h
  have hnode : ∀ {n v e}, BenchmarkService.next snappy nw (w.nodes n) e = some v → w'.nodes = Function.update w.nodes n v →
      Arrived w' t := by
    intro n v e hst hnodes
    refine ⟨k, ?_⟩
    rw [hnodes]
    by_cases hkn : k = n
    · subst hkn
      rw [Function.update_self]
      exact request_stays hst hk
    · rw [Function.update_of_ne hkn]
      exact hk
  cases e with
  | send t =>
      obtain ⟨i, -, ⟨op, rfl⟩ | rfl⟩ := next_send hst
      · exact ⟨k, hk⟩
      · exact ⟨k, hk⟩
  | lose t =>
      obtain rfl := Option.some.inj hst
      exact ⟨k, hk⟩
  | respond t =>
      obtain ⟨i, n, p, x, ok, -, -, -, rfl⟩ := next_respond hst
      exact ⟨k, hk⟩
  | fail t =>
      obtain rfl := next_fail hst
      exact ⟨k, hk⟩
  | deliver t =>
      obtain ⟨op, v, -, hv, rfl⟩ := next_deliver hst
      exact hnode hv rfl
  | node n e =>
      obtain ⟨-, v, hv, rfl⟩ := next_node hst
      exact hnode hv rfl

/-- Who is done is closed, and in the order. -/
theorem Agrees.done_closed (h : Agrees used w m a) (hdone : Done w t) : a.closed t ∧ t ∈ a.order := by
  obtain ⟨n, x, hx, rfl, hnone⟩ := hdone
  rw [← h.log n] at hx
  refine ⟨(h.inv n).closed_of_access hx fun g hpermits => ?_, (h.inv n).owners x hx⟩
  obtain ⟨l, hl, k, hk⟩ := Lock_manager.Operation.exists_held_on_path hpermits
  refine ⟨l, k, hk, ?_⟩
  show a.held n x.t l = none
  by_cases ht : x.t ∈ used
  · rw [h.held n x.t ht]
    exact hnone l hl
  · exact h.unused n x.t ht l

/-- What holds behind a run: who was done before another came stands in front of him. -/
structure Timely (snappy : Snappy) (nw : Bool) (used : Finset Nat) (ops : Nat → List BenchMark_Operator) (w₀ : World)
    (es : List Event) (w : World) : Prop where
  run : Run (FunStep (next snappy nw ops)) w₀ es w
  inTurn : InTurn used w
  agrees : ∃ m a, (∀ n, Follows snappy (w.nodes n) (m n)) ∧ Agrees used w m a ∧
    (∀ u ∈ a.order, Arrived w u) ∧
    ∀ es₁ es₂ w₁, es = es₁ ++ es₂ → Run (FunStep (next snappy nw ops)) w₀ es₁ w₁ → ∀ t u, Done w₁ t → ¬ Arrived w₁ u →
      a.closed t ∧ t ∈ a.order ∧ (u ∉ a.order ∨ [t, u].Sublist a.order)

/-- **Step lemma.** -/
theorem timely_step {w₀ : World} {es : List Event} {e : Event} (hinv : snappy.Inverts) (h : Timely snappy nw used ops w₀ es w)
    (hst : Guarded (Ok snappy nw used) (FunStep (next snappy nw ops)) w e w') : Timely snappy nw used ops w₀ (es ++ [e]) w' := by
  obtain ⟨m, a, hfollows, hagrees, harrived, hbefore⟩ := h.agrees
  obtain ⟨m', a', hfollows', hagrees', hreorders⟩ := hagrees.step h.inTurn hfollows hinv hst
  have harrived' : ∀ u ∈ a'.order, Arrived w' u := by
    intro u hu
    rcases hreorders.arrived u hu with hu | hu
    · exact (harrived u hu).step hst.2
    · exact hu.step hst.2
  have hrun := Run.tail h.run hst.2
  refine ⟨hrun, inTurn_step h.inTurn hst, m', a', hfollows', hagrees', harrived', ?_⟩
  intro es₁ es₂ w₁ hes hrun₁ t u hdone hnew
  rcases List.eq_nil_or_concat es₂ with rfl | ⟨es₂, e', rfl⟩
  · -- the moment is now
    rw [List.append_nil] at hes
    subst hes
    obtain rfl := hrun.functional hrun₁
    obtain ⟨hclosed, ht⟩ := hagrees'.done_closed hdone
    exact ⟨hclosed, ht, Or.inl fun hu => hnew (harrived' u hu)⟩
  · rw [List.concat_eq_append, ← List.append_assoc] at hes
    obtain ⟨rfl, -⟩ := List.append_inj' hes rfl
    obtain ⟨hclosed, ht, hu⟩ := hbefore es₁ es₂ w₁ rfl hrun₁ t u hdone hnew
    exact ⟨hreorders.keeps.stays t hclosed, hreorders.keeps.mem t ht, hreorders.keeps.before t u hclosed ht hu⟩

theorem coherent_step {e : Event} (hinv : snappy.Inverts) (h : Coherent snappy used w)
    (hst : Guarded (Ok snappy nw used) (FunStep (next snappy nw ops)) w e w') : Coherent snappy used w' := by
  obtain ⟨m, a, hfollows, hagrees⟩ := h.agrees
  obtain ⟨m', a', hfollows', hagrees', -⟩ := hagrees.step h.inTurn hfollows hinv hst
  exact ⟨inTurn_step h.inTurn hst, m', a', hfollows', hagrees'⟩

/-- The order of the machine is right on node `n`. -/
theorem Agrees.serial (h : Agrees used w m a) (hinv : snappy.Inverts)
    (hfollows : Follows snappy (w.nodes n) (m n)) :
    (∀ x ∈ (w.nodes n).accesses, x.t ∈ a.order) ∧
      ∃ m, Serial.execute Access.apply (Serial.serial Access.t a.order (w.nodes n).accesses) (fun _ => none) = some m ∧
        ∀ key, (w.nodes n).kv.store.get snappy key = some (lookupResult (m key)) := by
  refine ⟨fun x hx => ?_, m n, ?_, fun key => hfollows.told.get hinv key⟩
  · rw [← h.log n] at hx
    exact (h.inv n).owners x hx
  · rw [← h.done n, ← h.log n]
    exact ((h.inv n).serial_answers fun _ => none).symm

variable {lockTxns : Nat → Nat → DDBMS.Transaction} {kvTxns : Nat → Nat → KVStore.Transaction}
  {log_buffer flush_buffer : Nat → Vector UInt8 LOG_BUFFER_SIZE} {s₀ : KVStore_beta} {es : List Event}

theorem agrees_init : Agrees used (World.init lockTxns kvTxns (fun n => LogManager.World.init (log_buffer n) (flush_buffer n)) s₀)
    (fun _ _ => none) Serial.Sites.init := by
  refine ⟨fun _ => Serial.Locking.inv_init _, fun n t _ => rfl, fun _ _ _ _ => rfl, fun t h => h.elim, ?_, fun n => rfl,
    fun n => rfl⟩
  rintro n t - (⟨l, hl⟩ | ⟨c, hc⟩)
  · exact absurd rfl hl
  · simp [World.init, BenchmarkService.World.init, Lock_manager.World.view, Lock_manager.World.init] at hc

theorem coherent_init (hids : ∀ n, Set.InjOn (fun t => (lockTxns n t).txn_id_) (used : Set Nat))
    (hopen : KVStore_beta.new {} = some s₀) : Coherent snappy used
      (World.init lockTxns kvTxns (fun n => LogManager.World.init (log_buffer n) (flush_buffer n)) s₀) :=
  ⟨inTurn_init hids _ _ _, fun _ _ => none, Serial.Sites.init, fun _ => BenchmarkService.follows_init hopen, agrees_init⟩

theorem timely_init (hids : ∀ n, Set.InjOn (fun t => (lockTxns n t).txn_id_) (used : Set Nat))
    (hopen : KVStore_beta.new {} = some s₀) : Timely snappy nw used ops
      (World.init lockTxns kvTxns (fun n => LogManager.World.init (log_buffer n) (flush_buffer n)) s₀) []
      (World.init lockTxns kvTxns (fun n => LogManager.World.init (log_buffer n) (flush_buffer n)) s₀) where
  run := Run.refl
  inTurn := inTurn_init hids _ _ _
  agrees := by
    refine ⟨fun _ _ => none, Serial.Sites.init, fun _ => BenchmarkService.follows_init hopen, agrees_init,
      fun u hu => absurd hu List.not_mem_nil, ?_⟩
    rintro es₁ es₂ w₁ hes hrun₁ t u ⟨n, x, hx, -⟩
    obtain ⟨rfl, -⟩ := List.append_eq_nil_iff.mp hes.symm
    obtain rfl := hrun₁.nil_inv
    exact absurd hx List.not_mem_nil

end Order

/-! ## Runs

Transaction 1 reads a key on node 0 and then on node 1, while 0 puts another one on both. -/

section Rounds

open BenchmarkService (AllOk begun somePut someGet lockBoth overlap operateBoth)

variable {used : Finset Nat} {snappy : Snappy} {nw : Bool} {ops : Nat → List BenchMark_Operator} {w : World} {t i n p : Nat}
  {op : BenchMark_Operator} {x : Request} {v v' : BenchmarkService.World} {es : List BenchmarkService.Event}

/-- An operation is sent, and its node gets it. -/
theorem run_send (ht : t ∈ used) (hloop : w.loops t = .next i) (hmessage : w.messages t = none) (hop : (ops t)[i]? = some op)
    (hnode : BenchmarkService.next snappy nw (w.nodes op.node_id) (.SendOperator t op.op_type op.key op.value) = some v) :
    ∃ w', Run (Guarded (Ok snappy nw used) (FunStep (next snappy nw ops))) w [.send t, .deliver t] w' ∧
      w'.nodes = Function.update w.nodes op.node_id v ∧
      w'.loops = Function.update w.loops t (.served i op.node_id (w.nodes op.node_id).requests.length) ∧
      w'.messages = w.messages := by
  have hsend : next snappy nw ops w (.send t) = some { w with
      loops := Function.update w.loops t (.sent i)
      messages := Function.update w.messages t (some op) } := by
    simp [next, hloop, hop]
  have hserved : Loop.delivered op.node_id (w.nodes op.node_id).requests.length (.sent i) =
      .served i op.node_id (w.nodes op.node_id).requests.length := rfl
  refine ⟨⟨Function.update w.nodes op.node_id v, Function.update w.loops t _, w.messages⟩,
    Run.cons ⟨trivial, hsend⟩ (Run.single ⟨ht, ?_⟩), rfl, rfl, rfl⟩
  simp [FunStep, next, hnode, hserved, ← hmessage]

/-- The loop goes on when the operation has returned `true`. -/
theorem next_of_response (hloop : w.loops t = .served i n p) (hx : (w.nodes n).requests[p]? = some x)
    (hphase : x.phase = .returned true) :
    next snappy nw ops w (.respond t) = some { w with loops := Function.update w.loops t (.next (i + 1)) } := by
  simp [next, hloop, hx, hphase]

/-- The conditions of a node. -/
def NodeOk (snappy : Snappy) (nw : Bool) (used : Finset Nat) (v : BenchmarkService.World) (e : BenchmarkService.Event) : Prop :=
  BenchmarkService.Ok snappy used v e ∧ BenchmarkService.TwoPhaseOk nw v e

/-- A node goes on, and gives up no locks. -/
theorem run_node (ops : Nat → List BenchMark_Operator)
    (h : Run (Guarded (NodeOk snappy nw used) (FunStep (BenchmarkService.next snappy nw))) v es v')
    (hsend : ∀ e ∈ es, ∀ t op_type key value, e ≠ .SendOperator t op_type key value)
    (hunlock : ∀ e ∈ es, ∀ t l, e ≠ .lock (.unlock t l)) (hn : w.nodes n = v) :
    ∃ w', Run (Guarded (Ok snappy nw used) (FunStep (next snappy nw ops))) w
        (es.map (.node n)) w' ∧
      w'.nodes = Function.update w.nodes n v' ∧ w'.loops = w.loops ∧ w'.messages = w.messages := by
  induction h with
  | refl => exact ⟨w, Run.refl, by rw [← hn, Function.update_eq_self], rfl, rfl⟩
  | @tail u v' es e hrun hst ih =>
      obtain ⟨w', hrun', hnodes, hloops, hmessages⟩ :=
        ih (fun e he => hsend e (List.mem_append_left _ he)) (fun e he => hunlock e (List.mem_append_left _ he))
      have hlast : e ∈ es ++ [e] := List.mem_append_right _ (List.mem_singleton_self e)
      have hu : w'.nodes n = u := by
        rw [hnodes]
        exact Function.update_self ..
      obtain ⟨⟨hok, hphases⟩, hst⟩ := hst
      rw [← hu] at hok hphases hst
      have hnext : next snappy nw ops w' (.node n e) =
          some { w' with nodes := Function.update w'.nodes n v' } := by
        cases e with
        | SendOperator => exact absurd rfl (hsend _ hlast _ _ _ _)
        | lock | answer | operate | search | log | wake | spill | add | store | finish =>
            exact Option.map_eq_some_iff.mpr ⟨v', hst, rfl⟩
      rw [List.map_append]
      refine ⟨_, Run.tail hrun' ⟨⟨hok, hphases, fun t l he => absurd he (hunlock e hlast t l)⟩, hnext⟩, ?_, hloops, hmessages⟩
      show Function.update w'.nodes n v' = _
      rw [hnodes, Function.update_idem]

/-- The operations of the two transactions. -/
def bothNodes : Nat → List BenchMark_Operator
  | 0 => [⟨0, .Put, firstKey, [55]⟩, ⟨1, .Put, firstKey, [55]⟩]
  | 1 => [⟨0, .Get, secondKey, []⟩, ⟨1, .Get, secondKey, []⟩]
  | _ => []

/-- Both transactions operate on node `n`. -/
def operateOn (n : Nat) : List Event :=
  [.send 0, .deliver 0] ++ ([.send 1, .deliver 1] ++
    ((lockBoth.drop 2 ++ operateBoth).map (.node n) ++ [.respond 0, .respond 1]))

/-- Both loops get their responses. -/
theorem run_respond (h₀ : w.loops 0 = .served i n 0) (h₁ : w.loops 1 = .served i n 1)
    (hrequests : (w.nodes n).requests = [somePut (.returned true), someGet (.returned true)]) :
    Run (Guarded (Ok snappy nw used) (FunStep (next snappy nw ops))) w [.respond 0, .respond 1]
      ⟨w.nodes, Function.update (Function.update w.loops 0 (.next (i + 1))) 1 (.next (i + 1)), w.messages⟩ := by
  have hput : (w.nodes n).requests[0]? = some (somePut (.returned true)) := by rw [hrequests]; rfl
  have hget : (w.nodes n).requests[1]? = some (someGet (.returned true)) := by rw [hrequests]; rfl
  have h₁' : Function.update w.loops 0 (.next (i + 1)) 1 = .served i n 1 := (Function.update_of_ne one_ne_zero ..).trans h₁
  exact Run.cons ⟨trivial, next_of_response h₀ hput rfl⟩ (Run.single ⟨trivial, next_of_response h₁' hget rfl⟩)

theorem run_operateOn {s₀ : KVStore_beta} (hopen : KVStore_beta.new {} = some s₀) (hn : w.nodes n = begun s₀)
    (hloops : ∀ t < 2, w.loops t = .next i) (hmessages : ∀ t, w.messages t = none)
    (hput : (bothNodes 0)[i]? = some ⟨n, .Put, firstKey, [55]⟩) (hget : (bothNodes 1)[i]? = some ⟨n, .Get, secondKey, []⟩) :
    ∃ w', Run (Guarded (Ok SnappyLiterals.snappy true (Finset.range 3)) (FunStep (next SnappyLiterals.snappy true bothNodes))) w
        (operateOn n) w' ∧ (w'.nodes n).accesses = [⟨0, firstKey, .write (some [55])⟩, ⟨1, secondKey, .read none⟩] ∧
      (∀ m, m ≠ n → w'.nodes m = w.nodes m) ∧ (∀ t < 2, w'.loops t = .next (i + 1)) ∧ ∀ t, w'.messages t = none := by
  obtain ⟨lock, hlock⟩ := BenchmarkService.run_lockBoth s₀
  obtain ⟨kv, hoperate, -⟩ := BenchmarkService.run_operateBoth hopen lock
  -- the two requests, and the rest of the run of the node
  obtain ⟨v₁, hfirst, hrest⟩ := hlock.cons_inv
  obtain ⟨v₂, hsecond, hrest⟩ := hrest.cons_inv
  have hlen : v₁.requests.length = 1 := by
    cases BenchmarkService.next_cases hfirst.2 with
    | SendOperator => rfl
  rw [← hn] at hfirst
  obtain ⟨w₁, hrun₁, hnodes₁, hloops₁, hmessages₁⟩ :=
    run_send (Finset.mem_range.mpr (show 0 < 3 by decide)) (hloops 0 (by decide)) (hmessages 0) hput hfirst.2
  have hn₁ : w₁.nodes n = v₁ := by
    rw [hnodes₁]
    exact Function.update_self ..
  have hloop₁ : w₁.loops 1 = .next i := by
    rw [hloops₁]
    exact hloops 1 (by decide)
  rw [← hn₁] at hsecond
  obtain ⟨w₂, hrun₂, hnodes₂, hloops₂, hmessages₂⟩ :=
    run_send (Finset.mem_range.mpr (show 1 < 3 by decide)) hloop₁ ((congrFun hmessages₁ 1).trans (hmessages 1)) hget hsecond.2
  rw [hn₁, hlen, hloops₁, hn] at hloops₂
  rw [hnodes₁, Function.update_idem] at hnodes₂
  have hn₂ : w₂.nodes n = v₂ := by
    rw [hnodes₂]
    exact Function.update_self ..
  have hnodeOk : ∀ v e v', Guarded AllOk (FunStep (BenchmarkService.next SnappyLiterals.snappy true)) v e v' →
      Guarded (NodeOk SnappyLiterals.snappy true (Finset.range 3)) (FunStep (BenchmarkService.next SnappyLiterals.snappy true))
        v e v' :=
    fun _ _ _ hg => ⟨⟨hg.1.1, hg.1.2.2⟩, hg.2⟩
  obtain ⟨w₃, hrun₃, hnodes₃, hloops₃, hmessages₃⟩ :=
    run_node bothNodes ((hrest.append hoperate).mono hnodeOk) (by simp [operateBoth, overlap]) (by simp [operateBoth, overlap]) hn₂
  rw [hnodes₂, Function.update_idem] at hnodes₃
  have hn₃ : w₃.nodes n = BenchmarkService.bothAt lock kv (.returned true) (.returned true)
      [⟨0, firstKey, .write (some [55])⟩, ⟨1, secondKey, .read none⟩] := by
    rw [hnodes₃]
    exact Function.update_self ..
  have hserved₀ : w₃.loops 0 = .served i n 0 := by
    rw [hloops₃, hloops₂]
    rfl
  have hserved₁ : w₃.loops 1 = .served i n 1 := by
    rw [hloops₃, hloops₂]
    rfl
  refine ⟨_, hrun₁.append (hrun₂.append (hrun₃.append (run_respond hserved₀ hserved₁ (by rw [hn₃]; rfl)))), ?_, ?_, ?_, ?_⟩
  · show (w₃.nodes n).accesses = _
    rw [hn₃]
    rfl
  · intro m hm
    show w₃.nodes m = _
    rw [hnodes₃]
    exact Function.update_of_ne hm ..
  · intro t ht
    interval_cases t
    · rfl
    · rfl
  · intro t
    show w₃.messages t = none
    rw [hmessages₃, hmessages₂, hmessages₁]
    exact hmessages t

end Rounds

/-! On node 0 transaction 1 reads a key and gives up its lock, and then 2 reads it. -/

section Gets

variable {used : Finset Nat} {w : World} {t : Nat} {l₁ l₂ : Lock_manager.World} {v : BenchmarkService.World}

/-- A request that reads `secondKey`. -/
def getOf (t : Nat) (phase : BenchmarkService.Phase) : Request := ⟨t, .Get, secondKey, [], 2, phase⟩

/-- A node on which a read of transaction `t` has come to `phase`. -/
def readAt (lock : Lock_manager.World) (v : BenchmarkService.World) (t : Nat) (phase : BenchmarkService.Phase)
    (accesses : List (Access Bytes (Option Bytes))) : BenchmarkService.World :=
  ⟨lock, v.kv, v.disk, v.requests ++ [getOf t phase], v.accesses ++ accesses⟩

/-- The node has no table, and nobody writes. -/
structure NoTables (v : BenchmarkService.World) : Prop where
  mutex : v.kv.mutex_ = none
  spill : v.disk.spill = none
  memtable : v.kv.store.memtable_.contains secondKey = some false
  ssts : v.view.ssts = []

theorem noTables_begun {s₀ : KVStore_beta} (hopen : KVStore_beta.new {} = some s₀) : NoTables (BenchmarkService.begun s₀) := by
  have hr : Represents SnappyLiterals.snappy s₀ {} := represents_empty hopen
  exact ⟨rfl, rfl, hr.memtable.contains secondKey, BenchmarkService.view_ssts_empty rfl hr rfl⟩

theorem NoTables.readAt (h : NoTables v) (lock : Lock_manager.World) (t : Nat) (phase : BenchmarkService.Phase)
    (accesses : List (Access Bytes (Option Bytes))) : NoTables (readAt lock v t phase accesses) :=
  ⟨h.mutex, h.spill, h.memtable, h.ssts⟩

/-- What a node does with a read that gets its lock at once. -/
theorem steps_get {snappy : Snappy} (h₁ : Lock_manager.next true v.lock (Lock_manager.LockRow t .shared 0 0 2) = some l₁)
    (h₂ : Lock_manager.next true l₁ (.enter v.lock.calls.length) = some l₂)
    (hlock : l₂.calls[v.lock.calls.length]? = some (.returned true)) (hempty : NoTables v) :
    BenchmarkService.next snappy true v (.SendOperator t .Get secondKey []) =
        some (readAt l₁ v t (.locking v.lock.calls.length) []) ∧
      BenchmarkService.next snappy true (readAt l₁ v t (.locking v.lock.calls.length) []) (.lock (.enter v.lock.calls.length)) =
        some (readAt l₂ v t (.locking v.lock.calls.length) []) ∧
      BenchmarkService.next snappy true (readAt l₂ v t (.locking v.lock.calls.length) []) (.answer v.requests.length) =
        some (readAt l₂ v t .locked []) ∧
      BenchmarkService.next snappy true (readAt l₂ v t .locked []) (.operate v.requests.length fun _ => 0) =
        some (readAt l₂ v t (.getting .unlocked) []) ∧
      BenchmarkService.next snappy true (readAt l₂ v t (.getting .unlocked) []) (.search v.requests.length 0) =
        some (readAt l₂ v t (.getting (.loop 0 0 v.view.buffer)) []) ∧
      BenchmarkService.next snappy true (readAt l₂ v t (.getting (.loop 0 0 v.view.buffer)) []) (.search v.requests.length 0) =
        some (readAt l₂ v t (.returned true) [⟨t, secondKey, .read none⟩]) := by
  have hrow : BenchmarkService.rowOf secondKey = .ok 2 := rfl
  have hx : ∀ phase, (v.requests ++ [getOf t phase])[v.requests.length]? = some (getOf t phase) :=
    fun _ => List.getElem?_concat_length
  have hset : ∀ phase phase', (v.requests ++ [getOf t phase]).set v.requests.length (getOf t phase') =
      v.requests ++ [getOf t phase'] := fun _ _ => by simp
  -- the request goes on
  have hphase : ∀ (lock : Lock_manager.World) phase phase', (readAt lock v t phase []).setPhase v.requests.length (getOf t phase)
      phase' = readAt lock v t phase' [] := by
    intro lock phase phase'
    exact congrArg (fun requests => (⟨lock, v.kv, v.disk, requests, v.accesses ++ []⟩ : BenchmarkService.World)) (hset _ phase')
  have hview : (readAt l₂ v t (.getting .unlocked) []).view = v.view := BenchmarkService.view_congr rfl rfl
  refine ⟨?_, ?_, ?_, ?_, ?_, ?_⟩
  · simp [BenchmarkService.next, hrow, OP_TYPE.mode, h₁, getOf, readAt]
  · simp [BenchmarkService.next, h₂, readAt]
  · rw [← hphase l₂ (.locking v.lock.calls.length) .locked]
    exact BenchmarkService.next_granted (hx _) rfl hlock
  · rw [← hphase l₂ .locked (.getting .unlocked)]
    exact BenchmarkService.next_unlock (hx _) rfl rfl hempty.mutex hempty.spill hempty.memtable
  · rw [← hphase l₂ (.getting .unlocked) (.getting (.loop 0 0 v.view.buffer)), ← hview]
    exact BenchmarkService.next_begin (hx _) rfl (by rw [hview]; exact hempty.ssts)
  · refine (BenchmarkService.next_leave (hx _) rfl).trans (congrArg some ?_)
    rw [show readAt l₂ v t (.returned true) [⟨t, secondKey, .read none⟩] =
      (readAt l₂ v t (.returned true) []).access (getOf t (.returned true)) (.read none) by
        simp [readAt, BenchmarkService.World.access, getOf], ← hphase l₂ (.getting (.loop 0 0 v.view.buffer)) (.returned true)]
    rfl

/-- Transaction `t` reads `secondKey` on node 0. -/
def readOn (t c p : Nat) : List Event :=
  [.send t, .deliver t] ++
    ([.lock (.enter c), .answer p, .operate p fun _ => 0, .search p 0, .search p 0].map (.node 0) ++ [.respond t])

/-- The lock is free, and nobody waits. -/
theorem run_get (ops : Nat → List BenchMark_Operator) {snappy : Snappy} (ht : t ∈ used) (hloop : w.loops t = .next 0)
    (hmessage : w.messages t = none) (hop : (ops t)[0]? = some ⟨0, .Get, secondKey, []⟩) (hn : w.nodes 0 = v)
    (h₁ : Lock_manager.next true v.lock (Lock_manager.LockRow t .shared 0 0 2) = some l₁)
    (h₂ : Lock_manager.next true l₁ (.enter v.lock.calls.length) = some l₂)
    (hlock : l₂.calls[v.lock.calls.length]? = some (.returned true)) (hempty : NoTables v) :
    ∃ w', Run (Guarded (Ok snappy true used) (FunStep (next snappy true ops))) w
        (readOn t v.lock.calls.length v.requests.length) w' ∧
      w'.nodes = Function.update w.nodes 0 (readAt l₂ v t (.returned true) [⟨t, secondKey, .read none⟩]) ∧
      w'.loops = Function.update w.loops t (.next 1) ∧ w'.messages = w.messages := by
  obtain ⟨hsend, henter, hanswer, hoperate, hbegin, hleave⟩ := @steps_get _ _ _ _ snappy h₁ h₂ hlock hempty
  subst hn
  obtain ⟨w₁, hrun₁, hnodes₁, hloops₁, hmessages₁⟩ := run_send ht hloop hmessage hop hsend
  have hn₁ : w₁.nodes 0 = readAt l₁ (w.nodes 0) t (.locking (w.nodes 0).lock.calls.length) [] := by
    rw [hnodes₁]
    exact Function.update_self (0 : Nat) _ w.nodes
  have hlockOk : ∀ v c, NodeOk snappy true used v (.lock (.enter c)) := by
    intro v c
    have hlock : BenchmarkService.LockOk used v (.lock (.enter c)) := by
      refine ⟨?_, ?_, ?_⟩
      · intro t ht
        cases ht
      · intro t m l h
        cases h
      · intro t l h
        cases h
    exact ⟨⟨hlock, trivial⟩, trivial, fun _ _ _ _ _ _ => Or.inl rfl⟩
  have hanswerOk : ∀ v p, NodeOk snappy true used v (.answer p) := fun v p => ⟨⟨trivial, trivial⟩, trivial⟩
  have hx : ∀ phase, ((w.nodes 0).requests ++ [getOf t phase])[(w.nodes 0).requests.length]? = some (getOf t phase) :=
    fun _ => List.getElem?_concat_length
  have hoperateOk : NodeOk snappy true used (readAt l₂ (w.nodes 0) t .locked [])
      (.operate (w.nodes 0).requests.length fun _ => 0) := by
    refine ⟨⟨trivial, fun y hy => ?_⟩, trivial⟩
    obtain rfl := Option.some.inj ((hx .locked).symm.trans hy)
    show 32 + 4 + 0 < 2 ^ 31
    decide
  -- no table is visited
  have hsearchOk : ∀ pc, (∀ i last buffer, pc = .loop i last buffer → ¬ i < last) →
      NodeOk snappy true used (readAt l₂ (w.nodes 0) t (.getting pc) []) (.search (w.nodes 0).requests.length 0) := by
    intro pc hpc
    refine ⟨⟨trivial, fun y hy pc' hphase => ?_⟩, trivial⟩
    obtain rfl := Option.some.inj ((hx (.getting pc)).symm.trans hy)
    obtain rfl := BenchmarkService.Phase.getting.inj hphase
    cases pc with
    | loop i last buffer => exact fun hi => absurd hi (hpc i last buffer rfl)
    | unlocked | returned | failed => trivial
  have hbeginOk := hsearchOk .unlocked fun _ _ _ h => by cases h
  have hleaveOk := hsearchOk (.loop 0 0 (w.nodes 0).view.buffer) fun i last buffer h => by
    obtain ⟨rfl, rfl, -⟩ := KVStoreReaders.Pc.loop.inj h
    exact Nat.lt_irrefl 0
  obtain ⟨w₂, hrun₂, hnodes₂, hloops₂, hmessages₂⟩ := run_node ops
    (Run.cons ⟨hlockOk _ _, henter⟩ (Run.cons ⟨hanswerOk _ _, hanswer⟩ (Run.cons ⟨hoperateOk, hoperate⟩
      (Run.cons ⟨hbeginOk, hbegin⟩ (Run.single ⟨hleaveOk, hleave⟩))))) (by simp) (by simp) hn₁
  rw [hnodes₁, Function.update_idem] at hnodes₂
  have hserved : w₂.loops t = .served 0 0 (w.nodes 0).requests.length := by
    rw [hloops₂, hloops₁]
    exact Function.update_self ..
  have hdone : (w₂.nodes 0).requests[(w.nodes 0).requests.length]? = some (getOf t (.returned true)) := by
    rw [hnodes₂, Function.update_self]
    exact List.getElem?_concat_length
  refine ⟨_, hrun₁.append (hrun₂.append (Run.single ⟨trivial, next_of_response hserved hdone rfl⟩)), hnodes₂, ?_,
    hmessages₂.trans hmessages₁⟩
  show Function.update w₂.loops t (.next 1) = _
  rw [hloops₂, hloops₁, Function.update_idem]

end Gets

/-- The row of `secondKey`. -/
def secondRow : Lock_data_id := { oid_ := 0, p_id_ := 0, row_id_ := 2, type_ := .row }

theorem run_lockTwice : ∃ l₁ l₂ l₃ l₄ l₅ : Lock_manager.World,
    Lock_manager.next true (Lock_manager.World.init someTxns) (Lock_manager.LockRow 1 .shared 0 0 2) = some l₁ ∧
      Lock_manager.next true l₁ (.enter 0) = some l₂ ∧ l₂.calls = [.returned true] ∧
      Lock_manager.next true l₂ (.unlock 1 secondRow) = some l₃ ∧ (l₃.view 1).held secondRow = none ∧
      l₃.calls = [.returned true] ∧ Lock_manager.next true l₃ (Lock_manager.LockRow 2 .shared 0 0 2) = some l₄ ∧
      Lock_manager.next true l₄ (.enter 1) = some l₅ ∧ l₅.calls = [.returned true, .returned true] :=
  ⟨_, _, _, _, _, rfl, rfl, rfl, rfl, rfl, rfl, rfl, rfl, rfl⟩

/-- Transactions 1 and 2 read a key of node 0. -/
def bothRead : Nat → List BenchMark_Operator
  | 1 => [⟨0, .Get, secondKey, []⟩]
  | 2 => [⟨0, .Get, secondKey, []⟩]
  | _ => []

/-- Transaction 1 reads, and is done. -/
def readAndUnlock : List Event := readOn 1 0 0 ++ [.send 1, .node 0 (.lock (.unlock 1 secondRow))]

theorem run_readAndUnlock {w : World} {s₀ : KVStore_beta} {l₁ l₂ l₃ : Lock_manager.World} (hopen : KVStore_beta.new {} = some s₀)
    (hn : ∀ n, w.nodes n = BenchmarkService.begun s₀) (hloop : w.loops 1 = .next 0) (hmessage : w.messages 1 = none)
    (h₁ : Lock_manager.next true (Lock_manager.World.init someTxns) (Lock_manager.LockRow 1 .shared 0 0 2) = some l₁)
    (h₂ : Lock_manager.next true l₁ (.enter 0) = some l₂) (hcalls : l₂.calls = [.returned true])
    (h₃ : Lock_manager.next true l₂ (.unlock 1 secondRow) = some l₃) :
    ∃ w', Run (Guarded (Ok SnappyLiterals.snappy true (Finset.range 3)) (FunStep (next SnappyLiterals.snappy true bothRead))) w
        readAndUnlock w' ∧
      w'.nodes = Function.update w.nodes 0
        (readAt l₃ (BenchmarkService.begun s₀) 1 (.returned true) [⟨1, secondKey, .read none⟩]) ∧
      w'.loops = Function.update w.loops 1 .ended ∧ w'.messages = w.messages := by
  have hone : 1 ∈ Finset.range 3 := by decide
  obtain ⟨w₁, hrun₁, hnodes₁, hloops₁, hmessages₁⟩ := run_get bothRead hone hloop hmessage rfl (hn 0) h₁ h₂
    (by rw [hcalls]; rfl) (noTables_begun hopen)
  have hend : next SnappyLiterals.snappy true bothRead w₁ (.send 1) =
      some { w₁ with loops := Function.update w₁.loops 1 .ended } := by
    simp [next, hloops₁, bothRead]
  have hn₁ : w₁.nodes 0 = readAt l₂ (BenchmarkService.begun s₀) 1 (.returned true) [⟨1, secondKey, .read none⟩] := by
    rw [hnodes₁]
    exact Function.update_self (0 : Nat) _ w.nodes
  have hunlock : next SnappyLiterals.snappy true bothRead { w₁ with loops := Function.update w₁.loops 1 .ended }
      (.node 0 (.lock (.unlock 1 secondRow))) = some ⟨Function.update w₁.nodes 0
        (readAt l₃ (BenchmarkService.begun s₀) 1 (.returned true) [⟨1, secondKey, .read none⟩]),
          Function.update w₁.loops 1 .ended, w₁.messages⟩ := by
    simp [next, hn₁, BenchmarkService.next, h₃, readAt]
  -- nothing is under way any more
  have hquiet : ∀ n, Free (w₁.nodes n).requests 1 := by
    rw [hnodes₁]
    refine (Function.forall_update_iff w.nodes fun _ v => Free v.requests 1).mpr ⟨?_, ?_⟩
    · intro x hx hbusy
      obtain rfl := List.mem_singleton.mp hx
      cases hbusy
    · intro n _ x hx
      rw [hn n] at hx
      exact absurd hx List.not_mem_nil
  have hunlockOk : Ok SnappyLiterals.snappy true (Finset.range 3) { w₁ with loops := Function.update w₁.loops 1 .ended }
      (.node 0 (.lock (.unlock 1 secondRow))) := by
    have hlock : BenchmarkService.LockOk (Finset.range 3) (w₁.nodes 0) (.lock (.unlock 1 secondRow)) := by
      refine ⟨?_, ?_, ?_⟩
      · rintro t ht
        obtain rfl : 1 = t := Option.some.inj ht
        exact hone
      · intro t m l h
        cases h
      · rintro t l h
        obtain ⟨rfl, -⟩ := Lock_manager.Event.unlock.inj h
        exact hquiet 0
    refine ⟨⟨hlock, trivial⟩, ⟨trivial, fun _ _ _ _ _ _ => Or.inl rfl⟩, ?_⟩
    rintro t l h
    obtain ⟨rfl, -⟩ := Lock_manager.Event.unlock.inj (BenchmarkService.Event.lock.inj h)
    exact ⟨Function.update_self (1 : Nat) _ w₁.loops, (congrFun hmessages₁ 1).trans hmessage, hquiet⟩
  refine ⟨_, hrun₁.append (Run.cons ⟨trivial, hend⟩ (Run.single ⟨hunlockOk, hunlock⟩)), ?_, ?_, hmessages₁⟩
  · rw [hnodes₁, Function.update_idem]
  · rw [hloops₁, Function.update_idem]

theorem run_readTwice {w : World} {s₀ : KVStore_beta} (hopen : KVStore_beta.new {} = some s₀)
    (hn : ∀ n, w.nodes n = BenchmarkService.begun s₀) (hloops : ∀ t, w.loops t = .next 0) (hmessages : ∀ t, w.messages t = none) :
    ∃ w₁ w₂, Run (Guarded (Ok SnappyLiterals.snappy true (Finset.range 3)) (FunStep (next SnappyLiterals.snappy true bothRead))) w
        readAndUnlock w₁ ∧
      Run (Guarded (Ok SnappyLiterals.snappy true (Finset.range 3)) (FunStep (next SnappyLiterals.snappy true bothRead))) w₁
        (readOn 2 1 1) w₂ ∧ Done w₁ 1 ∧ ¬ Arrived w₁ 2 ∧
      (w₂.nodes 0).accesses = [⟨1, secondKey, .read none⟩, ⟨2, secondKey, .read none⟩] := by
  obtain ⟨l₁, l₂, l₃, l₄, l₅, h₁, h₂, hcalls₂, h₃, hheld, hcalls₃, h₄, h₅, hcalls₅⟩ := run_lockTwice
  obtain ⟨w₁, hrun₁, hnodes₁, hloops₁, hmessages₁⟩ := run_readAndUnlock hopen hn (hloops 1) (hmessages 1) h₁ h₂ hcalls₂ h₃
  have hn₁ : w₁.nodes 0 = readAt l₃ (BenchmarkService.begun s₀) 1 (.returned true) [⟨1, secondKey, .read none⟩] := by
    rw [hnodes₁]
    exact Function.update_self (0 : Nat) _ w.nodes
  have hloop₁ : w₁.loops 2 = .next 0 := by
    rw [hloops₁]
    exact hloops 2
  have h₅' : Lock_manager.next true l₄ (.enter l₃.calls.length) = some l₅ := by
    rw [hcalls₃]
    exact h₅
  have hgranted : l₅.calls[l₃.calls.length]? = some (.returned true) := by
    rw [hcalls₃, hcalls₅]
    rfl
  obtain ⟨w₂, hrun₂, hnodes₂, -⟩ := run_get bothRead (show 2 ∈ Finset.range 3 by decide) hloop₁
    ((congrFun hmessages₁ 2).trans (hmessages 2)) rfl hn₁ h₄ h₅' hgranted
    ((noTables_begun hopen).readAt ..)
  refine ⟨w₁, w₂, hrun₁, ?_, ⟨0, ⟨1, secondKey, .read none⟩, ?_, rfl, ?_⟩, ?_, ?_⟩
  · have hlen : l₃.calls.length = 1 := by
      rw [hcalls₃]
      rfl
    rw [show (readAt l₃ _ _ _ _).lock.calls.length = 1 from hlen] at hrun₂
    exact hrun₂
  · rw [hn₁]
    exact List.mem_singleton_self _
  · rw [hn₁]
    intro l hl
    obtain rfl := List.mem_singleton.mp hl
    exact hheld
  · have hfirst : ∀ n, ∀ x ∈ (w₁.nodes n).requests, x.txn ≠ 2 := by
      rw [hnodes₁]
      refine (Function.forall_update_iff w.nodes fun _ v => ∀ x ∈ v.requests, x.txn ≠ 2).mpr ⟨?_, ?_⟩
      · intro x hx
        rw [List.mem_singleton.mp hx]
        decide
      · intro n _ x hx
        rw [hn n] at hx
        exact absurd hx List.not_mem_nil
    rintro ⟨n, x, hx, htxn⟩
    exact hfirst n x hx htxn
  · rw [hnodes₂, Function.update_self]
    rfl

/-! ## Results -/

section Results

variable {snappy : Snappy} {nw : Bool} {used : Finset Nat} {ops : Nat → List BenchMark_Operator} {w : World}
  {lockTxns : Nat → Nat → DDBMS.Transaction} {kvTxns : Nat → Nat → KVStore.Transaction}
  {log_buffer flush_buffer : Nat → Vector UInt8 LOG_BUFFER_SIZE} {s₀ : KVStore_beta} {es : List Event}

/-- **Serializability of distributed transactions.** In every run of the loops and the nodes, whatever operations are late or
    lost, there is one order of the transactions for all nodes: in this order, one transaction after the other, the operations
    read on each node what they have read, from an empty store on, and make the store that the node has. -/
theorem distributed_serializable (hinv : snappy.Inverts)
    (hids : ∀ n, Set.InjOn (fun t => (lockTxns n t).txn_id_) (used : Set Nat)) (hopen : KVStore_beta.new {} = some s₀)
    (h : Run (Guarded (Ok snappy nw used) (FunStep (next snappy nw ops)))
      (World.init lockTxns kvTxns (fun n => LogManager.World.init (log_buffer n) (flush_buffer n)) s₀) es w) :
    ∃ order : List Nat, order.Nodup ∧ ∀ n, (∀ x ∈ (w.nodes n).accesses, x.t ∈ order) ∧
      ∃ m, Serial.execute Access.apply (Serial.serial Access.t order (w.nodes n).accesses) (fun _ => none) = some m ∧
        ∀ key, (w.nodes n).kv.store.get snappy key = some (lookupResult (m key)) := by
  obtain ⟨-, m, a, hfollows, hagrees⟩ := h.invariant (fun _ _ _ hi hst => coherent_step hinv hi hst) (coherent_init hids hopen)
  exact ⟨a.order, (hagrees.inv 0).nodup, fun n => hagrees.serial hinv (hfollows n)⟩

theorem distributed_serializable_twoNodes : ∃ s₀ w,
    Run (Guarded (Ok SnappyLiterals.snappy true (Finset.range 3)) (FunStep (next SnappyLiterals.snappy true bothNodes)))
      (World.init (fun _ => someTxns) (fun _ _ => { txn_id_ := 1 })
        (fun _ => LogManager.World.init LogManager.zeros LogManager.zeros) s₀) (operateOn 0 ++ operateOn 1) w ∧
      (∀ n < 2, (w.nodes n).accesses = [⟨0, firstKey, .write (some [55])⟩, ⟨1, secondKey, .read none⟩]) ∧
      ∃ order : List Nat, order.Nodup ∧ ∀ n, (∀ x ∈ (w.nodes n).accesses, x.t ∈ order) ∧
        ∃ m, Serial.execute Access.apply (Serial.serial Access.t order (w.nodes n).accesses) (fun _ => none) = some m ∧
          ∀ key, (w.nodes n).kv.store.get SnappyLiterals.snappy key = some (lookupResult (m key)) := by
  obtain ⟨s₀, hopen⟩ : ∃ s₀, KVStore_beta.new {} = some s₀ := ⟨_, rfl⟩
  obtain ⟨w₁, hrun₁, haccesses₁, hothers₁, hloops₁, hmessages₁⟩ := run_operateOn (i := 0) (n := 0)
    (w := World.init (fun _ => someTxns) (fun _ _ => { txn_id_ := 1 })
      (fun _ => LogManager.World.init LogManager.zeros LogManager.zeros) s₀) hopen rfl (fun _ _ => rfl) (fun _ => rfl) rfl rfl
  obtain ⟨w₂, hrun₂, haccesses₂, hothers₂, -⟩ := run_operateOn (n := 1) hopen (hothers₁ 1 one_ne_zero) hloops₁ hmessages₁ rfl rfl
  have hrun := hrun₁.append hrun₂
  refine ⟨s₀, w₂, hrun, ?_, distributed_serializable SnappyLiterals.inverts (fun _ => someTxns_injOn) hopen hrun⟩
  intro n hn
  interval_cases n
  · rw [hothers₂ 0 zero_ne_one]
    exact haccesses₁
  · exact haccesses₂

/-- **The order follows time.** The order can be one in which every transaction that had given up the locks of an operation at
    some moment of the run stands before all those of which no operation had arrived by then, whichever nodes they operate on. -/
theorem distributed_order_follows_time (hinv : snappy.Inverts)
    (hids : ∀ n, Set.InjOn (fun t => (lockTxns n t).txn_id_) (used : Set Nat)) (hopen : KVStore_beta.new {} = some s₀)
    (h : Run (Guarded (Ok snappy nw used) (FunStep (next snappy nw ops)))
      (World.init lockTxns kvTxns (fun n => LogManager.World.init (log_buffer n) (flush_buffer n)) s₀) es w) :
    ∃ order : List Nat, order.Nodup ∧
      (∀ n, (∀ x ∈ (w.nodes n).accesses, x.t ∈ order) ∧
        ∃ m, Serial.execute Access.apply (Serial.serial Access.t order (w.nodes n).accesses) (fun _ => none) = some m ∧
          ∀ key, (w.nodes n).kv.store.get snappy key = some (lookupResult (m key))) ∧
      ∀ es₁ es₂ w₁, es = es₁ ++ es₂ → Run (FunStep (next snappy nw ops))
          (World.init lockTxns kvTxns (fun n => LogManager.World.init (log_buffer n) (flush_buffer n)) s₀) es₁ w₁ →
        ∀ t u, Done w₁ t → ¬ Arrived w₁ u → u ∈ order → [t, u].Sublist order := by
  have htimely := h.history (timely_init hids hopen) fun _ _ _ _ hi hst => timely_step hinv hi hst
  obtain ⟨m, a, hfollows, hagrees, -, hbefore⟩ := htimely.agrees
  refine ⟨a.order, (hagrees.inv 0).nodup, fun n => hagrees.serial hinv (hfollows n), ?_⟩
  intro es₁ es₂ w₁ hes hrun₁ t u hdone hnew hu
  obtain ⟨-, -, hout | hsub⟩ := hbefore es₁ es₂ w₁ hes hrun₁ t u hdone hnew
  · exact absurd hu hout
  · exact hsub

theorem distributed_order_follows_time_readTwice : ∃ s₀ w,
    Run (Guarded (Ok SnappyLiterals.snappy true (Finset.range 3)) (FunStep (next SnappyLiterals.snappy true bothRead)))
      (World.init (fun _ => someTxns) (fun _ _ => { txn_id_ := 1 })
        (fun _ => LogManager.World.init LogManager.zeros LogManager.zeros) s₀) (readAndUnlock ++ readOn 2 1 1) w ∧
      (w.nodes 0).accesses = [⟨1, secondKey, .read none⟩, ⟨2, secondKey, .read none⟩] ∧
      ∃ order : List Nat, order.Nodup ∧
        (∀ n, (∀ x ∈ (w.nodes n).accesses, x.t ∈ order) ∧
          ∃ m, Serial.execute Access.apply (Serial.serial Access.t order (w.nodes n).accesses) (fun _ => none) = some m ∧
            ∀ key, (w.nodes n).kv.store.get SnappyLiterals.snappy key = some (lookupResult (m key))) ∧
        [1, 2].Sublist order := by
  obtain ⟨s₀, hopen⟩ : ∃ s₀, KVStore_beta.new {} = some s₀ := ⟨_, rfl⟩
  obtain ⟨w₁, w₂, hrun₁, hrun₂, hdone, hnew, haccesses⟩ := run_readTwice
    (w := World.init (fun _ => someTxns) (fun _ _ => { txn_id_ := 1 })
      (fun _ => LogManager.World.init LogManager.zeros LogManager.zeros) s₀) hopen (fun _ => rfl) (fun _ => rfl) (fun _ => rfl)
  have hrun := hrun₁.append hrun₂
  obtain ⟨order, hnodup, hserial, htime⟩ :=
    distributed_order_follows_time SnappyLiterals.inverts (fun _ => someTxns_injOn) hopen hrun
  have hmem : 2 ∈ order := by
    refine (hserial 0).1 ⟨2, secondKey, .read none⟩ ?_
    rw [haccesses]
    exact List.mem_cons_of_mem _ (List.mem_singleton_self _)
  exact ⟨s₀, w₂, hrun, haccesses, order, hnodup, hserial,
    htime readAndUnlock (readOn 2 1 1) w₁ rfl hrun₁.of_guarded 1 2 hdone hnew hmem⟩

end Results

end Benchmark_Txn
end DDBMS
