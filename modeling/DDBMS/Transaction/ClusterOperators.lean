import DDBMS.Transaction.OperatorRuns

/-!
# `Transaction.ClusterOperators` — transactions that operate on several nodes

`Benchmark_Txn::Generate` (`test/benchmark/benchmark_txn.cpp`) sends the operations of a transaction to nodes, one after the other,
and stops when one fails. A node is that of `OperatorService`. Messages may come late or never, also when the sender has given up,
but not twice; other code gives up locks when the loop is over and nothing of the transaction is under way any more.

Between the steps a transaction has at most one operation under way (`InTurn`), and one that has lost a lock on some node sends
nothing to any and gets into no lock call (`Barred`).
-/

namespace DDBMS
namespace Benchmark_Txn

open BenchmarkService (OP_TYPE Request Free Served Standing)

/-! ## The system -/

structure BenchMark_Operator where
  /-- the node; in the source its place in the `distributed_node_set` of the transaction -/
  node_id : Nat
  op_type : OP_TYPE
  key : Bytes
  value : Bytes
  deriving DecidableEq, Repr

/-- Where the loop of `Generate` over the operations stands. -/
inductive Loop where
  /-- operation `i` is next -/
  | next (i : Nat)
  /-- it has been sent -/
  | sent (i : Nat)
  /-- it is request `p` of node `n` -/
  | served (i n p : Nat)
  /-- `break`, or no operation is left -/
  | ended
  deriving DecidableEq, Repr

/-- The node has got the operation that the loop waits for, or has given up on. -/
def Loop.delivered (n p : Nat) : Loop → Loop
  | .sent i => .served i n p
  | loop => loop

structure World where
  nodes : Nat → BenchmarkService.World
  /-- the loop of each transaction -/
  loops : Nat → Loop := fun _ => .next 0
  /-- the operation that is on its way to its node -/
  messages : Nat → Option BenchMark_Operator := fun _ => none

inductive Event where
  /-- the loop of transaction `t` goes on -/
  | send (t : Nat)
  | deliver (t : Nat)
  | lose (t : Nat)
  /-- the response comes -/
  | respond (t : Nat)
  /-- `cntl.Failed()` -/
  | fail (t : Nat)
  /-- node `n` goes on -/
  | node (n : Nat) (e : BenchmarkService.Event)

def World.init (lockTxns : Nat → Nat → DDBMS.Transaction) (kvTxns : Nat → Nat → KVStore.Transaction)
    (logs : Nat → LogManager.World) (store : KVStore_beta) : World where
  nodes n := BenchmarkService.World.init (lockTxns n) (kvTxns n) (logs n) store

section Next

variable (snappy : Snappy) (enable_no_wait : Bool) (ops : Nat → List BenchMark_Operator)

def next (w : World) : Event → Option World
  | .send t =>
    match w.loops t with
    | .next i =>
      match (ops t)[i]? with
      | some op => some { w with
          loops := Function.update w.loops t (.sent i)
          messages := Function.update w.messages t (some op) }
      | none => some { w with loops := Function.update w.loops t .ended }
    | _ => none
  | .deliver t => do
    let op ← w.messages t
    let node := w.nodes op.node_id
    let node' ← BenchmarkService.next snappy enable_no_wait node (.SendOperator t op.op_type op.key op.value)
    some {
      nodes := Function.update w.nodes op.node_id node'
      loops := Function.update w.loops t ((w.loops t).delivered op.node_id node.requests.length)
      messages := Function.update w.messages t none }
  | .lose t => some { w with messages := Function.update w.messages t none }
  | .respond t =>
    match w.loops t with
    | .served i n p => do
      let x ← (w.nodes n).requests[p]?
      match x.phase with
      | .returned ok => some { w with loops := Function.update w.loops t (if ok then .next (i + 1) else .ended) }
      | _ => none
    | _ => none
  | .fail t =>
    match w.loops t with
    | .sent _ | .served _ _ _ => some { w with loops := Function.update w.loops t .ended }
    | _ => none
  -- operations come from the loops
  | .node _ (.SendOperator _ _ _ _) => none
  | .node n e => (BenchmarkService.next snappy enable_no_wait (w.nodes n) e).map fun node =>
      { w with nodes := Function.update w.nodes n node }

end Next

/-- No request of the transaction is under way on any node. -/
def Quiet (w : World) (t : Nat) : Prop := ∀ n, Free (w.nodes n).requests t

/-- The conditions of the nodes hold, and the locks of a transaction are given up at its end. -/
def Ok (snappy : Snappy) (nw : Bool) (used : Finset Nat) (w : World) : Event → Prop
  | .deliver t => t ∈ used
  | .node n e => BenchmarkService.Ok snappy used (w.nodes n) e ∧ BenchmarkService.TwoPhaseOk nw (w.nodes n) e ∧
      ∀ t l, e = .lock (.unlock t l) → w.loops t = .ended ∧ w.messages t = none ∧ Quiet w t
  | .send _ | .lose _ | .respond _ | .fail _ => True

section Cases

variable {snappy : Snappy} {nw : Bool} {ops : Nat → List BenchMark_Operator} {w w' : World} {t n : Nat}
  {e : BenchmarkService.Event}

theorem next_send (h : next snappy nw ops w (.send t) = some w') : ∃ i, w.loops t = .next i ∧
    ((∃ op, w' = { w with
        loops := Function.update w.loops t (.sent i)
        messages := Function.update w.messages t (some op) }) ∨
      w' = { w with loops := Function.update w.loops t .ended }) := by
  simp only [next] at h
  split at h
  · rename_i i hloop
    split at h
    · rename_i op _
      exact ⟨i, hloop, Or.inl ⟨op, (Option.some.inj h).symm⟩⟩
    · exact ⟨i, hloop, Or.inr (Option.some.inj h).symm⟩
  · cases h

theorem next_deliver (h : next snappy nw ops w (.deliver t) = some w') : ∃ op node', w.messages t = some op ∧
    BenchmarkService.next snappy nw (w.nodes op.node_id) (.SendOperator t op.op_type op.key op.value) = some node' ∧
      w' = {
        nodes := Function.update w.nodes op.node_id node'
        loops := Function.update w.loops t ((w.loops t).delivered op.node_id (w.nodes op.node_id).requests.length)
        messages := Function.update w.messages t none } := by
  obtain ⟨op, hop, h⟩ := Option.bind_eq_some_iff.mp h
  obtain ⟨node', hnode, h⟩ := Option.bind_eq_some_iff.mp h
  exact ⟨op, node', hop, hnode, (Option.some.inj h).symm⟩

theorem next_respond (h : next snappy nw ops w (.respond t) = some w') : ∃ i n p x ok, w.loops t = .served i n p ∧
    (w.nodes n).requests[p]? = some x ∧ x.phase = .returned ok ∧
      w' = { w with loops := Function.update w.loops t (if ok then .next (i + 1) else .ended) } := by
  simp only [next] at h
  split at h
  · rename_i i n p hloop
    obtain ⟨x, hx, h⟩ := Option.bind_eq_some_iff.mp h
    split at h
    · rename_i ok hphase
      exact ⟨i, n, p, x, ok, hloop, hx, hphase, (Option.some.inj h).symm⟩
    · cases h
  · cases h

theorem next_fail (h : next snappy nw ops w (.fail t) = some w') :
    w' = { w with loops := Function.update w.loops t .ended } := by
  simp only [next] at h
  split at h
  · exact (Option.some.inj h).symm
  · exact (Option.some.inj h).symm
  · cases h

theorem next_node (h : next snappy nw ops w (.node n e) = some w') :
    (∀ t op_type key value, e ≠ .SendOperator t op_type key value) ∧
      ∃ node', BenchmarkService.next snappy nw (w.nodes n) e = some node' ∧
        w' = { w with nodes := Function.update w.nodes n node' } := by
  cases e with
  | SendOperator => cases h
  | lock | answer | operate | search | log | wake | spill | add | store | finish =>
      obtain ⟨node', hnode, rfl⟩ := Option.map_eq_some_iff.mp h
      exact ⟨fun _ _ _ _ he => (nomatch he), node', hnode, rfl⟩

end Cases

/-! ## One operation at a time -/

/-- No request of the transaction is under way but number `p` of node `n`. -/
def Only (w : World) (t n p : Nat) : Prop :=
  ∀ (m q : Nat) (x : Request), (w.nodes m).requests[q]? = some x → x.phase.busy = true → x.txn = t → m = n ∧ q = p

/-- What is under way for a transaction whose loop stands there. -/
def PacedAt (w : World) (t : Nat) : Loop → Prop
  | .next _ => w.messages t = none ∧ Quiet w t
  | .sent _ => Quiet w t
  | .served _ n p => w.messages t = none ∧ (∃ x, (w.nodes n).requests[p]? = some x ∧ x.txn = t) ∧ Only w t n p
  | .ended => ∃ n p, Only w t n p

def Paced (w : World) (t : Nat) : Prop := PacedAt w t (w.loops t)

/-- What holds of the requests between the steps. -/
structure InTurn (used : Finset Nat) (w : World) : Prop where
  served : ∀ n, Served used (w.nodes n).lock (w.nodes n).requests
  message : ∀ t op, w.messages t = some op → Quiet w t
  paced : ∀ t, Paced w t

section Turns

variable {snappy : Snappy} {nw : Bool} {used : Finset Nat} {ops : Nat → List BenchMark_Operator} {w w' : World} {t u n p : Nat}
  {v v' : BenchmarkService.World} {e : BenchmarkService.Event}

theorem Quiet.only (h : Quiet w t) (n p : Nat) : Only w t n p :=
  fun m _ x hx hbusy htxn => absurd htxn (h m x (List.mem_of_getElem? hx) hbusy)

/-- Who has only a request that is done has none. -/
theorem Only.quiet (h : Only w t n p) (hdone : ∀ x, (w.nodes n).requests[p]? = some x → x.phase.busy = false) : Quiet w t := by
  intro m x hx hbusy htxn
  obtain ⟨q, hq⟩ := List.mem_iff_getElem?.mp hx
  obtain ⟨rfl, rfl⟩ := h m q x hq hbusy htxn
  rw [hdone x hq] at hbusy
  cases hbusy

theorem Only.free (h : Only w t n p) {m : Nat} (hm : m ≠ n) : Free (w.nodes m).requests t := by
  intro x hx hbusy htxn
  obtain ⟨q, hq⟩ := List.mem_iff_getElem?.mp hx
  exact hm (h m q x hq hbusy htxn).1

theorem PacedAt.only {loop : Loop} (h : PacedAt w t loop) : ∃ n p, Only w t n p := by
  cases loop with
  | next => exact ⟨0, 0, h.2.only 0 0⟩
  | sent => exact ⟨0, 0, Quiet.only h 0 0⟩
  | served i n p => exact ⟨n, p, h.2.2⟩
  | ended => exact h

theorem inTurn_init {lockTxns : Nat → Nat → DDBMS.Transaction}
    (hids : ∀ n, Set.InjOn (fun t => (lockTxns n t).txn_id_) (used : Set Nat)) (kvTxns : Nat → Nat → KVStore.Transaction)
    (logs : Nat → LogManager.World) (store : KVStore_beta) : InTurn used (World.init lockTxns kvTxns logs store) where
  served n := BenchmarkService.served_init (hids n)
  message t op h := by cases h
  paced t := ⟨rfl, fun n x hx => absurd hx List.not_mem_nil⟩

/-- The requests of a transaction on a node are those that it had, further on. -/
structure GoesOn (u : Nat) (xs ys : List Request) : Prop where
  stays : ∀ (p : Nat) (x : Request), xs[p]? = some x → x.txn = u → ∃ y, ys[p]? = some y ∧ y.txn = u
  comes : ∀ (p : Nat) (y : Request), ys[p]? = some y → y.txn = u → y.phase.busy = true →
    ∃ x, xs[p]? = some x ∧ x.txn = u ∧ x.phase.busy = true

theorem goesOn_refl (u : Nat) (xs : List Request) : GoesOn u xs xs :=
  ⟨fun _ x hx htxn => ⟨x, hx, htxn⟩, fun _ y hy htxn hbusy => ⟨y, hy, htxn, hbusy⟩⟩

theorem goesOn_set {xs : List Request} {x : Request} (hx : xs[p]? = some x) (hbusy : x.phase.busy = true)
    (phase : BenchmarkService.Phase) (u : Nat) : GoesOn u xs (xs.set p { x with phase := phase }) where
  stays q y hy htxn := by
    by_cases hq : q = p
    · subst hq
      obtain rfl := Option.some.inj (hx.symm.trans hy)
      exact ⟨_, Slots.get_set_self hx, htxn⟩
    · exact ⟨y, (List.getElem?_set_ne (Ne.symm hq)).trans hy, htxn⟩
  comes q y hy htxn hybusy := by
    rcases Slots.get_set hy with ⟨rfl, rfl⟩ | ⟨-, hold⟩
    · exact ⟨x, hx, htxn, hbusy⟩
    · exact ⟨y, hold, htxn, hybusy⟩

theorem goesOn_snoc (xs : List Request) {x : Request} (hne : x.txn ≠ u) : GoesOn u xs (xs ++ [x]) where
  stays _ y hy htxn := ⟨y, (List.getElem?_append_left (List.getElem?_eq_some_iff.mp hy).1).trans hy, htxn⟩
  comes _ y hy htxn hbusy := by
    rcases Slots.get_snoc hy with hold | ⟨-, rfl⟩
    · exact ⟨y, hold, htxn, hbusy⟩
    · exact absurd htxn hne

/-- A step of a node that is no new request. -/
theorem goesOn_step (hst : BenchmarkService.next snappy nw v e = some v')
    (hsend : ∀ t op_type key value, e ≠ .SendOperator t op_type key value) (u : Nat) : GoesOn u v.requests v'.requests := by
  cases BenchmarkService.next_cases hst with
  | SendOperator => exact absurd rfl (hsend _ _ _ _)
  | lock | log | wake | spill | add | store => exact goesOn_refl u _
  | get hx hphase | search hx hphase =>
      rw [BenchmarkService.sought_requests]
      exact goesOn_set hx (by rw [hphase]; rfl) _ u
  | granted hx hphase | refused hx hphase | put hx hphase | del hx hphase | absent hx hphase | finish hx hphase =>
      exact goesOn_set hx (by rw [hphase]; rfl) _ u

theorem Quiet.goesOn (h : Quiet w u) (hgo : ∀ m, GoesOn u (w.nodes m).requests (w'.nodes m).requests) : Quiet w' u := by
  intro m y hy hbusy htxn
  obtain ⟨q, hq⟩ := List.mem_iff_getElem?.mp hy
  obtain ⟨x, hx, htxn, hbusy⟩ := (hgo m).comes q y hq htxn hbusy
  exact h m x (List.mem_of_getElem? hx) hbusy htxn

theorem Only.goesOn (h : Only w u n p) (hgo : ∀ m, GoesOn u (w.nodes m).requests (w'.nodes m).requests) : Only w' u n p := by
  intro m q y hy hbusy htxn
  obtain ⟨x, hx, htxn, hbusy⟩ := (hgo m).comes q y hy htxn hbusy
  exact h m q x hx hbusy htxn

theorem PacedAt.goesOn {loop : Loop} (h : PacedAt w u loop) (hgo : ∀ m, GoesOn u (w.nodes m).requests (w'.nodes m).requests)
    (hmessage : w.messages u = none → w'.messages u = none) : PacedAt w' u loop := by
  cases loop with
  | next => exact ⟨hmessage h.1, h.2.goesOn hgo⟩
  | sent => exact Quiet.goesOn h hgo
  | served i n p =>
      obtain ⟨hnone, ⟨x, hx, htxn⟩, honly⟩ := h
      exact ⟨hmessage hnone, (hgo n).stays p x hx htxn, honly.goesOn hgo⟩
  | ended =>
      obtain ⟨m, q, honly⟩ := h
      exact ⟨m, q, honly.goesOn hgo⟩

theorem Paced.goesOn (h : Paced w u) (hgo : ∀ m, GoesOn u (w.nodes m).requests (w'.nodes m).requests)
    (hloop : w'.loops u = w.loops u) (hmessage : w'.messages u = w.messages u) : Paced w' u := by
  unfold Paced
  rw [hloop]
  exact PacedAt.goesOn h hgo fun hnone => hmessage.trans hnone

theorem paced_of {loop : Loop} (hloop : w.loops t = loop) : Paced w t ↔ PacedAt w t loop := by
  unfold Paced
  rw [hloop]

/-- The loop of `t` has moved, or a message of it. -/
theorem InTurn.turn {loop : Loop} (h : InTurn used w) (hloop : w'.loops t = loop) (hpaced : PacedAt w' t loop)
    (hmessage : ∀ op, w'.messages t = some op → Quiet w' t)
    (hserved : ∀ n, Served used (w'.nodes n).lock (w'.nodes n).requests)
    (hgo : ∀ u, u ≠ t → ∀ m, GoesOn u (w.nodes m).requests (w'.nodes m).requests)
    (hothers : ∀ u, u ≠ t → w'.loops u = w.loops u ∧ w'.messages u = w.messages u) : InTurn used w' where
  served := hserved
  message u op hop := by
    by_cases hut : u = t
    · subst hut
      exact hmessage op hop
    · rw [(hothers u hut).2] at hop
      exact (h.message u op hop).goesOn (hgo u hut)
  paced u := by
    by_cases hut : u = t
    · subst hut
      exact (paced_of hloop).mpr hpaced
    · exact (h.paced u).goesOn (hgo u hut) (hothers u hut).1 (hothers u hut).2

/-- What holds of the nodes when node `n` has moved. -/
theorem forall_nodes (P : Nat → BenchmarkService.World → Prop) (hnodes : w'.nodes = Function.update w.nodes n v) (hself : P n v)
    (hothers : ∀ m, m ≠ n → P m (w.nodes m)) (m : Nat) : P m (w'.nodes m) := by
  rw [hnodes]
  exact (Function.forall_update_iff w.nodes P).mpr ⟨hself, hothers⟩ m

theorem goesOn_update (hnodes : w'.nodes = Function.update w.nodes n v) (hgo : GoesOn u (w.nodes n).requests v.requests)
    (m : Nat) : GoesOn u (w.nodes m).requests (w'.nodes m).requests :=
  forall_nodes (fun m v => GoesOn u (w.nodes m).requests v.requests) hnodes hgo (fun _ _ => goesOn_refl u _) m

theorem served_update (h : InTurn used w) (hnodes : w'.nodes = Function.update w.nodes n v)
    (hserved : Served used v.lock v.requests) (m : Nat) : Served used (w'.nodes m).lock (w'.nodes m).requests :=
  forall_nodes (fun _ v => Served used v.lock v.requests) hnodes hserved (fun m _ => h.served m) m

/-- The request of a delivered operation is the only one of its transaction. -/
theorem Quiet.delivered (h : Quiet w t) {x : Request} (hrequests : v.requests = (w.nodes n).requests ++ [x])
    (hnodes : w'.nodes = Function.update w.nodes n v) : Only w' t n (w.nodes n).requests.length := by
  intro m q y hy hbusy htxn
  rw [hnodes] at hy
  by_cases hm : m = n
  · subst hm
    rw [Function.update_self, hrequests] at hy
    rcases Slots.get_snoc hy with hold | ⟨rfl, -⟩
    · exact absurd htxn (h m y (List.mem_of_getElem? hold) hbusy)
    · exact ⟨rfl, rfl⟩
  · rw [Function.update_of_ne hm] at hy
    exact absurd htxn (h m y (List.mem_of_getElem? hy) hbusy)

/-- What a node does with a delivered operation. -/
theorem requests_of_send {op : BenchMark_Operator}
    (hst : BenchmarkService.next snappy nw v (.SendOperator t op.op_type op.key op.value) = some v') :
    ∃ x, v'.requests = v.requests ++ [x] ∧ x.txn = t := by
  cases BenchmarkService.next_cases hst with
  | SendOperator hrow hlock => exact ⟨_, rfl, rfl⟩

/-- **Step lemma.** -/
theorem inTurn_step {e : Event} (h : InTurn used w) (hst : Guarded (Ok snappy nw used) (FunStep (next snappy nw ops)) w e w') :
    InTurn used w' := by
  obtain ⟨hok, hst⟩ := hst
  have hne : ∀ {β : Type} {f : Nat → β} {t u : Nat} {x : β}, u ≠ t → Function.update f t x u = f u :=
    fun hut => Function.update_of_ne hut _ _
  cases e with
  | send t =>
      obtain ⟨i, hloop, hcases⟩ := next_send hst
      obtain ⟨hnone, hquiet⟩ := (paced_of hloop).mp (h.paced t)
      rcases hcases with ⟨op, rfl⟩ | rfl
      · exact h.turn (t := t) (Function.update_self ..) hquiet (fun _ _ => hquiet) h.served (fun u _ m => goesOn_refl u _)
          (fun u hut => ⟨hne hut, hne hut⟩)
      · exact h.turn (t := t) (Function.update_self ..) ⟨0, 0, hquiet.only 0 0⟩ (fun _ _ => hquiet) h.served
          (fun u _ m => goesOn_refl u _) (fun u hut => ⟨hne hut, rfl⟩)
  | deliver t =>
      obtain ⟨op, v, hop, hnode, rfl⟩ := next_deliver hst
      have hquiet := h.message t op hop
      obtain ⟨x, hrequests, htxn⟩ := requests_of_send hnode
      have hlock : BenchmarkService.LockOk used (w.nodes op.node_id) (.SendOperator t op.op_type op.key op.value) :=
        ⟨hok, hquiet op.node_id⟩
      have hserved := BenchmarkService.served_step (h.served op.node_id) hlock hnode
      refine h.turn (t := t) (Function.update_self ..) ?_ (fun op' hop' => ?_) (served_update h rfl hserved)
        (fun u hut m => goesOn_update rfl ?_ m) (fun u hut => ⟨hne hut, hne hut⟩)
      · have honly : Only ⟨Function.update w.nodes op.node_id v,
            Function.update w.loops t ((w.loops t).delivered op.node_id (w.nodes op.node_id).requests.length),
            Function.update w.messages t none⟩ t op.node_id (w.nodes op.node_id).requests.length :=
          hquiet.delivered hrequests rfl
        have hpaced := h.paced t
        unfold Paced at hpaced
        cases hloop : w.loops t with
        | next i =>
            rw [hloop] at hpaced
            cases hop.symm.trans hpaced.1
        | sent i =>
            refine ⟨Function.update_self .., ⟨x, ?_, htxn⟩, hloop ▸ honly⟩
            show (Function.update w.nodes op.node_id v op.node_id).requests[_]? = some x
            rw [Function.update_self, hrequests]
            exact List.getElem?_concat_length
        | served i m p =>
            rw [hloop] at hpaced
            cases hop.symm.trans hpaced.1
        | ended => exact ⟨_, _, hloop ▸ honly⟩
      · cases (Function.update_self ..).symm.trans hop'
      · rw [hrequests]
        exact goesOn_snoc _ (htxn ▸ Ne.symm hut)
  | lose t =>
      obtain rfl := Option.some.inj hst
      refine h.turn (t := t) rfl ?_ (fun op hop => ?_) h.served (fun u _ m => goesOn_refl u _) (fun u hut => ⟨rfl, hne hut⟩)
      · exact PacedAt.goesOn (h.paced t) (fun m => goesOn_refl t _) fun _ => Function.update_self ..
      · cases (Function.update_self ..).symm.trans hop
  | respond t =>
      obtain ⟨i, n, p, x, ok, hloop, hx, hphase, rfl⟩ := next_respond hst
      obtain ⟨hnone, -, honly⟩ := (paced_of hloop).mp (h.paced t)
      have hquiet : Quiet w t := by
        refine honly.quiet fun y hy => ?_
        obtain rfl := Option.some.inj (hx.symm.trans hy)
        rw [hphase]
        rfl
      refine h.turn (t := t) (Function.update_self ..) ?_ (fun _ _ => hquiet) h.served (fun u _ m => goesOn_refl u _)
        (fun u hut => ⟨hne hut, rfl⟩)
      cases ok with
      | true => exact ⟨hnone, hquiet⟩
      | false => exact ⟨n, p, honly⟩
  | fail t =>
      obtain rfl := next_fail hst
      exact h.turn (t := t) (Function.update_self ..) (PacedAt.only (h.paced t)) (h.message t) h.served
        (fun u _ m => goesOn_refl u _) (fun u hut => ⟨hne hut, rfl⟩)
  | node n e =>
      obtain ⟨hsend, v, hnode, hw'⟩ := next_node hst
      have hnodes : w'.nodes = Function.update w.nodes n v := congrArg World.nodes hw'
      have hmessages : w'.messages = w.messages := by rw [hw']
      have hloops : w'.loops = w.loops := by rw [hw']
      have hgo : ∀ u m, GoesOn u (w.nodes m).requests (w'.nodes m).requests :=
        fun u => goesOn_update hnodes (goesOn_step hnode hsend u)
      refine ⟨served_update h hnodes (BenchmarkService.served_step (h.served n) hok.1.1 hnode), fun t op hop => ?_, fun t => ?_⟩
      · rw [hmessages] at hop
        exact (h.message t op hop).goesOn (hgo t)
      · exact (h.paced t).goesOn (hgo t) (congrFun hloops t) (congrFun hmessages t)

end Turns

/-! ## Who has lost a lock -/

/-- The lock of request `p` is refused. -/
def Refused (v : BenchmarkService.World) (p : Nat) : Prop :=
  ∃ x, v.requests[p]? = some x ∧
    (x.phase = .returned false ∨ ∃ c, x.phase = .locking c ∧ v.lock.calls[c]? = some (.returned false))

/-- The loop sends nothing more. -/
def Stopped (nodes : Nat → BenchmarkService.World) : Loop → Prop
  | .next _ | .sent _ => False
  | .served _ n p => Refused (nodes n) p
  | .ended => True

/-- The transaction is inside no lock call on any node, and gets into none. -/
structure Barred (used : Finset Nat) (w : World) (t : Nat) : Prop where
  mem : t ∈ used
  idle : ∀ n, (w.nodes n).lock.Idle t
  message : w.messages t = none
  loop : Stopped w.nodes (w.loops t)

section Barred

variable {snappy : Snappy} {nw : Bool} {used : Finset Nat} {ops : Nat → List BenchMark_Operator} {w w' : World} {t u n p : Nat}
  {v v' : BenchmarkService.World} {e : BenchmarkService.Event}

/-- A refused request stays so. -/
theorem Refused.step (h : Refused v p) (hst : BenchmarkService.next snappy nw v e = some v') : Refused v' p := by
  obtain ⟨x, hx, hphase⟩ := h
  -- another request goes on
  have hother : ∀ {q : Nat} {y : Request}, q ≠ p → (v.requests.set q y)[p]? = some x :=
    fun hqp => (List.getElem?_set_ne hqp).trans hx
  have hholds : ∀ {q : Nat} {y : Request}, v.requests[q]? = some y → y.phase.holds = true → q ≠ p := by
    rintro q y hy hholds rfl
    obtain rfl := Option.some.inj (hx.symm.trans hy)
    rcases hphase with hphase | ⟨c, hphase, -⟩ <;> rw [hphase] at hholds <;> cases hholds
  cases BenchmarkService.next_cases hst with
  | SendOperator hrow hlock =>
      refine ⟨x, (List.getElem?_append_left (List.getElem?_eq_some_iff.mp hx).1).trans hx, hphase.imp_right ?_⟩
      rintro ⟨c, hc, hfalse⟩
      exact ⟨c, hc, Lock_manager.returned_step hlock hfalse⟩
  | lock hlock =>
      refine ⟨x, hx, hphase.imp_right ?_⟩
      rintro ⟨c, hc, hfalse⟩
      exact ⟨c, hc, Lock_manager.returned_step hlock hfalse⟩
  | @granted q c y hy hyphase htrue =>
      refine ⟨x, hother ?_, hphase⟩
      rintro rfl
      obtain rfl := Option.some.inj (hx.symm.trans hy)
      rcases hphase with hphase | ⟨d, hphase, hfalse⟩
      · cases hphase.symm.trans hyphase
      · obtain rfl := BenchmarkService.Phase.locking.inj (hphase.symm.trans hyphase)
        cases hfalse.symm.trans htrue
  | @refused q c y hy hyphase hfalse =>
      by_cases hqp : q = p
      · subst hqp
        exact ⟨_, Slots.get_set_self hy, Or.inl rfl⟩
      · exact ⟨x, hother hqp, hphase⟩
  | get hy hyphase | search hy hyphase =>
      refine ⟨x, ?_, by rw [BenchmarkService.sought_lock]; exact hphase⟩
      rw [BenchmarkService.sought_requests]
      exact hother (hholds hy (by rw [hyphase]; rfl))
  | put hy hyphase | del hy hyphase | absent hy hyphase | finish hy hyphase =>
      exact ⟨x, hother (hholds hy (by rw [hyphase]; rfl)), hphase⟩
  | log | wake | spill | add | store => exact ⟨x, hx, hphase⟩

theorem Stopped.update {loop : Loop} (h : Stopped w.nodes loop) (hst : BenchmarkService.next snappy nw (w.nodes n) e = some v) :
    Stopped (Function.update w.nodes n v) loop := by
  cases loop with
  | next | sent => exact h
  | ended => trivial
  | served i m p =>
      show Refused (Function.update w.nodes n v m) p
      by_cases hm : m = n
      · subst hm
        rw [Function.update_self]
        exact Refused.step h hst
      · rw [Function.update_of_ne hm]
        exact h

/-- Who is inside no lock call gets into one by a new request only. -/
theorem idle_node (hserved : Served used v.lock v.requests) (hok : BenchmarkService.LockOk used v e) (hu : u ∈ used)
    (hsend : ∀ op_type key value, e ≠ .SendOperator u op_type key value) (hst : BenchmarkService.next snappy nw v e = some v')
    (hidle : v.lock.Idle u) : v'.lock.Idle u := by
  cases BenchmarkService.next_cases hst with
  | @SendOperator t op_type key value row_id lock hrow hlock =>
      have hused : (Lock_manager.LockRow t op_type.mode 0 0 row_id).UsedBy used := by
        intro x hx
        obtain rfl : t = x := Option.some.inj hx
        exact hok.1
      refine BenchmarkService.idle_step hserved.sound hu hused hidle hlock ?_
      rintro m l he
      obtain ⟨rfl, -⟩ := Lock_manager.Event.lock.inj he
      exact hsend _ _ _ rfl
  | lock hlock => exact BenchmarkService.idle_step hserved.sound hu hok.1 hidle hlock (hok.2.1 u)
  | granted | refused | put | del | absent | log | wake | spill | add | store | finish => exact hidle
  | get | search =>
      rw [BenchmarkService.sought_lock]
      exact hidle

theorem idle_update (hturn : InTurn used w) (hok : BenchmarkService.LockOk used (w.nodes n) e) (hu : u ∈ used)
    (hsend : ∀ op_type key value, e ≠ .SendOperator u op_type key value)
    (hst : BenchmarkService.next snappy nw (w.nodes n) e = some v) (hnodes : w'.nodes = Function.update w.nodes n v)
    (hidle : ∀ m, (w.nodes m).lock.Idle u) (m : Nat) : (w'.nodes m).lock.Idle u :=
  forall_nodes (fun _ v => v.lock.Idle u) hnodes (idle_node (hturn.served n) hok hu hsend hst (hidle n)) (fun m _ => hidle m) m

/-- **Step lemma.** -/
theorem Barred.step {e : Event} (h : Barred used w u) (hturn : InTurn used w)
    (hst : Guarded (Ok snappy nw used) (FunStep (next snappy nw ops)) w e w') : Barred used w' u := by
  obtain ⟨hok, hst⟩ := hst
  have hstopped := h.loop
  have hne : ∀ {β : Type} {f : Nat → β} {t u : Nat} {x : β}, u ≠ t → Function.update f t x u = f u :=
    fun hut => Function.update_of_ne hut _ _
  have hloop : ∀ {t : Nat} {loop : Loop}, u ≠ t → Stopped w.nodes (Function.update w.loops t loop u) := by
    intro t loop hut
    rw [hne hut]
    exact hstopped
  cases e with
  | send t =>
      obtain ⟨i, hnext, hcases⟩ := next_send hst
      have hut : u ≠ t := by
        rintro rfl
        rw [hnext] at hstopped
        exact hstopped
      rcases hcases with ⟨op, rfl⟩ | rfl
      · exact ⟨h.mem, h.idle, (hne hut).trans h.message, hloop hut⟩
      · exact ⟨h.mem, h.idle, h.message, hloop hut⟩
  | deliver t =>
      obtain ⟨op, v, hop, hnode, rfl⟩ := next_deliver hst
      have hut : u ≠ t := by
        rintro rfl
        cases h.message.symm.trans hop
      have hlock : BenchmarkService.LockOk used (w.nodes op.node_id) (.SendOperator t op.op_type op.key op.value) :=
        ⟨hok, hturn.message t op hop op.node_id⟩
      refine ⟨h.mem, idle_update hturn hlock h.mem ?_ hnode rfl h.idle, (hne hut).trans h.message, Stopped.update (hloop hut) hnode⟩
      rintro op_type key value he
      obtain ⟨rfl, -⟩ := BenchmarkService.Event.SendOperator.inj he
      exact hut rfl
  | lose t =>
      obtain rfl := Option.some.inj hst
      refine ⟨h.mem, h.idle, ?_, hstopped⟩
      by_cases hut : u = t
      · subst hut
        exact Function.update_self ..
      · exact (hne hut).trans h.message
  | respond t =>
      obtain ⟨i, n, p, x, ok, hserved, hx, hphase, rfl⟩ := next_respond hst
      refine ⟨h.mem, h.idle, h.message, ?_⟩
      by_cases hut : u = t
      · subst hut
        rw [hserved] at hstopped
        obtain ⟨y, hy, hrefused⟩ := hstopped
        obtain rfl := Option.some.inj (hx.symm.trans hy)
        rcases hrefused with hfalse | ⟨c, hlocking, -⟩
        · obtain rfl := BenchmarkService.Phase.returned.inj (hphase.symm.trans hfalse)
          show Stopped w.nodes (Function.update w.loops u .ended u)
          rw [Function.update_self]
          trivial
        · cases hphase.symm.trans hlocking
      · exact hloop hut
  | fail t =>
      obtain rfl := next_fail hst
      refine ⟨h.mem, h.idle, h.message, ?_⟩
      by_cases hut : u = t
      · subst hut
        show Stopped w.nodes (Function.update w.loops u .ended u)
        rw [Function.update_self]
        trivial
      · exact hloop hut
  | node n e =>
      obtain ⟨hsend, v, hnode, rfl⟩ := next_node hst
      exact ⟨h.mem, idle_update hturn hok.1.1 h.mem (fun _ _ _ => hsend _ _ _ _) hnode rfl h.idle, h.message, hstopped.update hnode⟩

/-- **A lock is lost** by an unlock, when nothing is under way, or by the call that a request is in. That is refused, and the
    transaction has nothing else under way. -/
theorem barred_of_lost {lock : Lock_manager.World} {e : Lock_manager.Event} (hturn : InTurn used w)
    (hok : Ok snappy nw used w (.node n (.lock e))) (hst : Lock_manager.next nw (w.nodes n).lock e = some lock)
    (hactor : (w.nodes n).lock.actor e = some t) (ht : t ∈ used) (hreleased : Lock_manager.Released (lock.view t))
    (hlost : Lock_manager.Lost ((w.nodes n).lock.view t) (lock.view t)) :
    Barred used { w with nodes := Function.update w.nodes n { w.nodes n with lock := lock } } t := by
  obtain ⟨⟨⟨hused, hnew, hunlockFree⟩, -⟩, -, hunlock⟩ := hok
  have hserved := hturn.served n
  -- the transaction is inside no call when it has nothing on the other nodes
  have hidle : (∀ m, m ≠ n → Free (w.nodes m).requests t) →
      ∀ m, (Function.update w.nodes n { w.nodes n with lock := lock } m).lock.Idle t := by
    intro hfree
    refine (Function.forall_update_iff w.nodes fun _ v => v.lock.Idle t).mpr ⟨?_, ?_⟩
    · rw [Lock_manager.idle_view]
      exact hreleased.idle
    · intro m hm
      exact (hturn.served m).idle t ht (hfree m hm)
  cases he : e.call? with
  | none =>
      cases Lock_manager.step_cases hst with
      | enter | wake => cases he
      | @lock u m l => exact absurd rfl (hnew u m l)
      | @setState u s =>
          obtain rfl : u = t := Option.some.inj hactor
          obtain ⟨l, m, hm, hnone⟩ := hlost
          rw [Lock_manager.view_setState, Lock_manager.held_setState] at hnone
          cases hm.symm.trans hnone
      | @unlock u l =>
          obtain rfl : u = t := Option.some.inj hactor
          obtain ⟨hended, hmessage, hquiet⟩ := hunlock u l rfl
          refine ⟨ht, hidle fun m _ => hquiet m, hmessage, ?_⟩
          show Stopped _ (w.loops u)
          rw [hended]
          trivial
  | some c =>
      have hbusy := Lock_manager.busy_of_call hst hactor he
      have hnotIdle : ¬ (w.nodes n).lock.Idle t := fun hidle => hbusy (Lock_manager.idle_view.mp hidle c)
      -- the request that the call is of
      obtain ⟨x, hx, hxbusy, rfl⟩ : ∃ x ∈ (w.nodes n).requests, x.phase.busy = true ∧ x.txn = t := by
        by_contra hnone
        refine hnotIdle (hserved.idle t ht fun x hx hxbusy htxn => hnone ⟨x, hx, hxbusy, htxn⟩)
      obtain ⟨p, hp⟩ := List.mem_iff_getElem?.mp hx
      have hpaced := hturn.paced x.txn
      obtain ⟨n₀, p₀, honly⟩ := PacedAt.only hpaced
      obtain ⟨rfl, rfl⟩ := honly n p x hp hxbusy rfl
      have hmessage : w.messages x.txn = none := by
        cases hm : w.messages x.txn with
        | none => rfl
        | some op => exact absurd rfl (hturn.message x.txn op hm n x hx hxbusy)
      have hrefused : Refused { w.nodes n with lock := lock } p := by
        obtain ⟨b, hown, -⟩ := (Lock_manager.sees_step hserved.sound.queues hserved.sound.waits hst hactor).own
        have hafter := (hserved.lockStep hused hnew hunlockFree hst).standing x hx
        have hbefore := hserved.standing x hx
        unfold Standing at hbefore hafter
        cases hphase : x.phase with
        | returned ok =>
            rw [hphase] at hxbusy
            cases hxbusy
        | locked | storing | getting =>
            rw [hphase] at hbefore
            exact absurd hbefore.1 hnotIdle
        | locking d =>
            rw [hphase] at hbefore hafter
            rcases hbefore with hasks | ⟨hi, -⟩
            · obtain rfl := (hserved.single x.txn ht).call _ _ hbusy hasks.busy
              rcases hafter with hasks' | ⟨-, hfalse | ⟨-, k, hk, -⟩⟩
              · exact absurd (hreleased.idle c) hasks'.busy
              · exact ⟨x, hp, Or.inr ⟨c, hphase, hfalse⟩⟩
              · -- the call has got its item, and left the others alone
                obtain ⟨l, m, hm, hnone⟩ := hlost
                by_cases hl : l = x.item
                · subst hl
                  cases hk.symm.trans hnone
                · have hsame := hasks.frame hown he hl
                  unfold Lock_manager.View.held at hm hnone
                  rw [hsame] at hnone
                  cases hm.symm.trans hnone
            · exact absurd hi hnotIdle
      refine ⟨ht, hidle fun m hm => honly.free hm, hmessage, ?_⟩
      show Stopped _ (w.loops x.txn)
      unfold Paced at hpaced
      cases hloop : w.loops x.txn with
      | next i =>
          rw [hloop] at hpaced
          exact absurd rfl (hpaced.2 n x hx hxbusy)
      | sent i =>
          rw [hloop] at hpaced
          exact absurd rfl (hpaced n x hx hxbusy)
      | ended => trivial
      | served i m q =>
          rw [hloop] at hpaced
          obtain ⟨rfl, rfl⟩ := hpaced.2.2 n p x hp hxbusy rfl
          show Refused (Function.update w.nodes n _ n) p
          rw [Function.update_self]
          exact hrefused

end Barred

end Benchmark_Txn
end DDBMS
