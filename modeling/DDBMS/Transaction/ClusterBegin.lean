import DDBMS.MetaServer.OracleUnique
import DDBMS.Transaction.LocalBegin

/-!
# `Transaction.ClusterBegin` — the ids of the transactions of all nodes

Any number of nodes begin transactions, each with an id from the one meta server (`LocalBegin` is a node, `Oracle` the server).
`getTimestampFromServer` sends a request, which the server may get more than once, since the channel retries, or never. Each time
it calls `getTimeStamp`. A response may get lost, and come after any other one; a call of `Begin` takes one response to its own
request, or fails. The server may crash and start again at any time.

What `LocalBegin` asks of the timestamps of a node is true here: the server never hands out a timestamp twice, to whichever node
(`ids_unique`). And ids follow time: a transaction that begins when another one has its id gets a larger one, on any two nodes
(`ids_follow_time`). Both hold as long as the restarts of the server are safe (`Oracle.SafeStep`), and are about calls that the
server has answered: what a node makes up for itself is in `LocalBegin`.
-/

namespace DDBMS
namespace ClusterBegin

open LocalBegin (Rpc FreshTimestamp UniqueIds Answered)
open Oracle (Ordered Stamp Earlier)

/-! ## The system -/

/-- A call of `getTimestampFromServer` on a node; `call` is the object that it has led to. -/
structure Request where
  node : Nat
  call : Option Nat := none
  deriving DecidableEq, Repr

structure World where
  oracle : Oracle.World
  nodes : Nat → LocalBegin.State := fun _ => {}
  requests : List Request := []
  /-- the request that a call of `getTimeStamp` is for -/
  serving : Nat → Nat := fun _ => 0
  /-- the responses of the server, each to a request -/
  responses : List (Nat × UInt64) := []

def World.init (file : Option UInt64) : World where
  oracle := Oracle.World.init file

inductive Event where
  /-- a node calls `Begin` and sends a request -/
  | Begin (node : Nat)
  /-- the server gets request `i`, and calls `getTimeStamp` as its call `c` -/
  | GetTimeStamp (i c : Nat)
  /-- any other step of the server -/
  | oracle (e : Oracle.Event)
  /-- request `i` gets response `k` -/
  | receive (i k : Nat)
  /-- request `i` gets none -/
  | fail (i : Nat) (rpc : Rpc)
  /-- a node inserts the object of its call `i` into `txn_map` -/
  | insert (node i : Nat)

/-- What a step of the server returns, from which call of `getTimeStamp`. -/
def answers (v v' : Oracle.World) : Oracle.Event → List (Nat × UInt64)
  | .lock c =>
    match v.calls c with
    -- the retries are used up
    | .loop i => if Oracle.maxRetryCount ≤ i then [(c, 0)] else []
    | _ => []
  | .test c => (v'.returned.drop v.returned.length).map fun r => (c, r.ts)
  | _ => []

/-- How the RPC has ended, with this timestamp in the response. -/
def rpcOf (timestamp : UInt64) : Rpc := if timestamp = 0 then .exhausted else .succeeds timestamp

/-- `getTimestampFromServer` returns for request `i`, and `Begin` makes the object. -/
def World.finish (w : World) (i : Nat) (q : Request) (rpc : Rpc) : Option World :=
  (LocalBegin.step (w.nodes q.node) (.Begin rpc)).map fun s =>
    { w with
      nodes := Function.update w.nodes q.node s
      requests := w.requests.set i { q with call := some (w.nodes q.node).calls.length } }

def next (w : World) : Event → Option World
  | .Begin node => some { w with requests := w.requests ++ [{ node := node }] }
  | .GetTimeStamp i c =>
    if i < w.requests.length then
      (Oracle.next w.oracle (.call c)).map fun v => { w with oracle := v, serving := Function.update w.serving c i }
    else none
  -- nothing else calls `getTimeStamp`
  | .oracle (.call _) => none
  | .oracle e =>
    (Oracle.next w.oracle e).map fun v =>
      { w with oracle := v, responses := w.responses ++ (answers w.oracle v e).map fun a => (w.serving a.1, a.2) }
  | .receive i k => do
    let q ← w.requests[i]?
    let (j, timestamp) ← w.responses[k]?
    if q.call = none ∧ j = i then w.finish i q (rpcOf timestamp) else none
  | .fail i rpc => do
    let q ← w.requests[i]?
    if q.call = none ∧ (rpc = .channelFails ∨ rpc = .fails) then w.finish i q rpc else none
  | .insert node i => (LocalBegin.step (w.nodes node) (.insert i)).map fun s =>
      { w with nodes := Function.update w.nodes node s }

/-- The restarts of the server are safe. -/
def Ok (w : World) : Event → Prop
  | .oracle e => Oracle.SafeStep w.oracle e
  | .Begin _ | .GetTimeStamp _ _ | .receive _ _ | .fail _ _ | .insert _ _ => True

instance (w : World) : ∀ e, Decidable (Ok w e)
  | .oracle e => inferInstanceAs (Decidable (Oracle.SafeStep w.oracle e))
  | .Begin _ | .GetTimeStamp _ _ | .receive _ _ | .fail _ _ | .insert _ _ => inferInstanceAs (Decidable True)

/-! ## What the server returns -/

section Answers

variable {v v' : Oracle.World} {e : Oracle.Event}

/-- A step returns a timestamp, or zeros. -/
theorem answers_cases (hst : Oracle.step v e v') :
    (v'.returned = v.returned ∧ ∀ a ∈ answers v v' e, v.calls a.1 ≠ .out ∧ a.2 = 0) ∨
      ∃ c i seq p l, v.calls c = .drawn i seq p l ∧ v'.returned = v.returned ++ [⟨v.epoch, seq, Oracle.composeTS p l⟩] ∧
        answers v v' e = [(c, Oracle.composeTS p l)] := by
  have hquiet : v'.returned = v.returned → answers v v' e = [] →
      v'.returned = v.returned ∧ ∀ a ∈ answers v v' e, v.calls a.1 ≠ .out ∧ a.2 = 0 := by
    intro hsame hnone
    refine ⟨hsame, fun a ha => ?_⟩
    rw [hnone] at ha
    cases ha
  cases e with
  | boot uninit now =>
      obtain ⟨-, rfl⟩ := Oracle.step_boot hst
      exact Or.inl (hquiet rfl rfl)
  | update now =>
      obtain ⟨-, rfl⟩ := Oracle.step_update hst
      refine Or.inl (hquiet ?_ rfl)
      rcases Oracle.update_cases v now with ⟨-, hu⟩ | ⟨n, -, ⟨-, hu⟩ | ⟨-, hu⟩⟩ <;> rw [hu]
  | save => obtain ⟨n, ⟨-, rfl⟩ | ⟨-, rfl⟩⟩ := Oracle.step_save hst <;> exact Or.inl (hquiet rfl rfl)
  | install =>
      obtain ⟨n, -, rfl⟩ := Oracle.step_install hst
      exact Or.inl (hquiet rfl rfl)
  | crash =>
      obtain rfl := Oracle.step_crash hst
      exact Or.inl (hquiet rfl rfl)
  | call c =>
      obtain ⟨-, rfl⟩ := Oracle.step_call hst
      exact Or.inl (hquiet rfl rfl)
  | lock c =>
      obtain ⟨i, hc, hv⟩ := Oracle.step_lock hst
      refine Or.inl ⟨?_, fun a ha => ?_⟩
      · rcases hv with rfl | ⟨-, rfl⟩ <;> rfl
      · simp only [answers, hc] at ha
        split at ha
        · obtain rfl := List.mem_singleton.mp ha
          rw [hc]
          exact ⟨Oracle.Call.noConfusion, rfl⟩
        · cases ha
  | test c =>
      obtain ⟨i, seq, p, l, hc, rfl | ⟨-, -, rfl⟩⟩ := Oracle.step_test hst
      · refine Or.inl (hquiet rfl ?_)
        simp only [answers, List.drop_length, List.map_nil]
      · refine Or.inr ⟨c, i, seq, p, l, hc, rfl, ?_⟩
        simp only [answers, List.drop_left, List.map_cons, List.map_nil]

end Answers

/-! ## The invariant -/

/-- What the timestamps of the nodes have to do with those of the server. -/
structure Linked (w : World) : Prop where
  oracle : Ordered w.oracle
  /-- each timestamp is in one response -/
  sent : w.oracle.returned.map Stamp.ts = (w.responses.filter fun r => r.2 ≠ 0).map Prod.snd
  serving : ∀ c, w.oracle.calls c ≠ .out → w.serving c < w.requests.length
  asked : ∀ r ∈ w.responses, r.1 < w.requests.length
  calls : ∀ n j c t, (w.nodes n).calls[j]? = some c → c.rpc = .succeeds t →
    t ≠ 0 ∧ ∃ i, w.requests[i]? = some ⟨n, some j⟩ ∧ (i, t) ∈ w.responses
  nodes : ∀ n, LocalBegin.Inv (w.nodes n)
  objects : ∀ k n j : Nat, w.requests[k]? = some ⟨n, some j⟩ → j < (w.nodes n).calls.length
  owners : ∀ k k' n j : Nat, w.requests[k]? = some ⟨n, some j⟩ → w.requests[k']? = some ⟨n, some j⟩ → k = k'

section Step

variable {w w' : World} {e : Event}

theorem linked_init (file : Option UInt64) : Linked (World.init file) where
  oracle := Oracle.ordered_init file
  sent := rfl
  serving _ h := absurd rfl h
  asked _ hr := by cases hr
  calls _ _ _ _ hc := by cases hc
  nodes _ := LocalBegin.inv_init
  objects _ _ _ hk := by cases hk
  owners _ _ _ _ hk := by cases hk

/-- A timestamp is a response to one request. -/
theorem Linked.one_request (h : Linked w) {i j : Nat} {t : UInt64} (ht : t ≠ 0) (hi : (i, t) ∈ w.responses)
    (hj : (j, t) ∈ w.responses) : i = j := by
  have hnodup := h.oracle.distinct
  rw [h.sent] at hnodup
  have hmem : ∀ {k}, (k, t) ∈ w.responses → (k, t) ∈ w.responses.filter fun r => r.2 ≠ 0 :=
    fun hk => List.mem_filter.mpr ⟨hk, decide_eq_true ht⟩
  exact congrArg Prod.fst (List.inj_on_of_nodup_map hnodup (hmem hi) (hmem hj) rfl)

theorem Linked.stamp (h : Linked w) {r : Nat × UInt64} (hr : r ∈ w.responses) (ht : r.2 ≠ 0) :
    ∃ s ∈ w.oracle.returned, s.ts = r.2 := by
  have hmem : r.2 ∈ w.oracle.returned.map Stamp.ts := by
    rw [h.sent]
    exact List.mem_map_of_mem (List.mem_filter.mpr ⟨hr, decide_eq_true ht⟩)
  exact List.mem_map.mp hmem

/-- The server takes a step. -/
theorem Linked.serve (h : Linked w) {e : Oracle.Event} {v : Oracle.World} (hok : Oracle.SafeStep w.oracle e)
    (hcall : ∀ c, e ≠ .call c) (hst : Oracle.next w.oracle e = some v) :
    Linked { w with
      oracle := v
      responses := w.responses ++ (answers w.oracle v e).map fun a => (w.serving a.1, a.2) } := by
  have hordered := Oracle.ordered_step h.oracle ⟨hok, hst⟩
  refine ⟨hordered, ?_, ?_, ?_, ?_, h.nodes, h.objects, h.owners⟩
  · show v.returned.map Stamp.ts = List.map Prod.snd (List.filter _ (w.responses ++ _))
    rw [List.filter_append, List.map_append, ← h.sent]
    rcases answers_cases hst with ⟨hsame, hzero⟩ | ⟨c, i, seq, p, l, -, hreturned, hanswers⟩
    · have hnone : (((answers w.oracle v e).map fun a => (w.serving a.1, a.2)).filter fun r => r.2 ≠ 0) = [] := by
        refine List.filter_eq_nil_iff.mpr fun r hr => ?_
        obtain ⟨a, ha, rfl⟩ := List.mem_map.mp hr
        simp [(hzero a ha).2]
      rw [hsame, hnone, List.map_nil, List.append_nil]
    · have hne : Oracle.composeTS p l ≠ 0 := by
        refine hordered.nonzero ⟨w.oracle.epoch, seq, Oracle.composeTS p l⟩ ?_
        rw [hreturned]
        exact List.mem_append_right _ (List.mem_singleton_self _)
      rw [hreturned, hanswers, List.map_append]
      simp [hne]
  · intro c hc
    refine h.serving c fun hout => hc ?_
    exact Oracle.out_stays hcall hst hout
  · intro r hr
    rcases List.mem_append.mp hr with hr | hr
    · exact h.asked r hr
    · obtain ⟨a, ha, rfl⟩ := List.mem_map.mp hr
      refine h.serving a.1 ?_
      rcases answers_cases hst with ⟨-, hzero⟩ | ⟨c, i, seq, p, l, hc, -, hanswers⟩
      · exact (hzero a ha).1
      · rw [hanswers] at ha
        obtain rfl := List.mem_singleton.mp ha
        rw [hc]
        exact Oracle.Call.noConfusion
  · intro n j c t hc ht
    obtain ⟨hne, i, hi, hmem⟩ := h.calls n j c t hc ht
    exact ⟨hne, i, hi, List.mem_append_left _ hmem⟩

/-- A request has ended, and the node has an object. -/
theorem Linked.finish (h : Linked w) {i : Nat} {q : Request} {rpc : Rpc} (hq : w.requests[i]? = some q) (hcall : q.call = none)
    (hrpc : ∀ t, rpc = .succeeds t → t ≠ 0 ∧ (i, t) ∈ w.responses) (hst : w.finish i q rpc = some w') : Linked w' := by
  obtain ⟨s, hs, rfl⟩ := Option.map_eq_some_iff.mp hst
  -- what other calls have got stays theirs
  have hold : ∀ n j c t, (w.nodes n).calls[j]? = some c → c.rpc = .succeeds t →
      t ≠ 0 ∧ ∃ k, k ≠ i ∧ w.requests[k]? = some ⟨n, some j⟩ ∧ (k, t) ∈ w.responses := by
    intro n j c t hc ht
    obtain ⟨hne, k, hk, hmem⟩ := h.calls n j c t hc ht
    refine ⟨hne, k, ?_, hk, hmem⟩
    rintro rfl
    obtain rfl := Option.some.inj (hq.symm.trans hk)
    cases hcall
  have hfresh : FreshTimestamp (w.nodes q.node) (.Begin rpc) := by
    cases rpc with
    | succeeds t =>
        obtain ⟨hne, hmem⟩ := hrpc t rfl
        refine ⟨hne, fun c hc ht => ?_⟩
        obtain ⟨j, hj⟩ := List.mem_iff_getElem?.mp hc
        obtain ⟨-, k, hki, -, hk⟩ := hold q.node j c t hj ht
        exact hki (h.one_request hne hk hmem)
    | channelFails | fails | exhausted => trivial
  have hinv := (h.nodes q.node).step ⟨hfresh, hs⟩
  obtain rfl := Option.some.inj hs
  have hlen : (w.requests.set i { q with call := some (w.nodes q.node).calls.length }).length = w.requests.length :=
    List.length_set
  -- the object of a request is the new one, or an old one
  have hobject : ∀ k n j : Nat, (w.requests.set i { q with call := some (w.nodes q.node).calls.length })[k]? = some ⟨n, some j⟩ →
      (k = i ∧ n = q.node ∧ j = (w.nodes q.node).calls.length) ∨
        (w.requests[k]? = some ⟨n, some j⟩ ∧ j < (w.nodes n).calls.length) := by
    intro k n j hk
    rcases Slots.get_set hk with ⟨rfl, hnew⟩ | ⟨-, hk⟩
    · obtain ⟨hn, hj⟩ := Request.mk.inj hnew
      exact Or.inl ⟨rfl, hn, Option.some.inj hj⟩
    · exact Or.inr ⟨hk, h.objects k n j hk⟩
  refine ⟨h.oracle, h.sent, ?_, ?_, ?_, ?_, ?_, ?_⟩
  · intro c hc
    show w.serving c < (w.requests.set i _).length
    rw [hlen]
    exact h.serving c hc
  · intro r hr
    show r.1 < (w.requests.set i _).length
    rw [hlen]
    exact h.asked r hr
  · intro n j c t hc ht
    have hkeep : (w.nodes n).calls[j]? = some c → t ≠ 0 ∧ ∃ k,
        (w.requests.set i { q with call := some (w.nodes q.node).calls.length })[k]? = some ⟨n, some j⟩ ∧
          (k, t) ∈ w.responses := by
      intro hc
      obtain ⟨hne, k, hki, hk, hmem⟩ := hold n j c t hc ht
      exact ⟨hne, k, (List.getElem?_set_ne (Ne.symm hki)).trans hk, hmem⟩
    change (Function.update w.nodes q.node _ n).calls[j]? = some c at hc
    by_cases hn : n = q.node
    · subst hn
      rw [Function.update_self] at hc
      rcases Slots.get_snoc hc with hc | ⟨rfl, rfl⟩
      · exact hkeep hc
      · obtain ⟨hne, hmem⟩ := hrpc t ht
        exact ⟨hne, i, Slots.get_set_self hq, hmem⟩
    · rw [Function.update_of_ne hn] at hc
      exact hkeep hc
  · exact (Function.forall_update_iff w.nodes fun _ s => LocalBegin.Inv s).mpr ⟨hinv, fun n _ => h.nodes n⟩
  · intro k n j hk
    show j < (Function.update w.nodes q.node _ n).calls.length
    by_cases hn : n = q.node
    · subst hn
      rw [Function.update_self, List.length_append, List.length_singleton]
      rcases hobject k q.node j hk with ⟨-, -, rfl⟩ | ⟨-, hlt⟩ <;> omega
    · rw [Function.update_of_ne hn]
      rcases hobject k n j hk with ⟨-, heq, -⟩ | ⟨-, hlt⟩
      · exact absurd heq hn
      · exact hlt
  · intro k k' n j hk hk'
    rcases hobject k n j hk with ⟨hki, hn, hj⟩ | ⟨hk, hlt⟩ <;> rcases hobject k' n j hk' with ⟨hki', hn', hj'⟩ | ⟨hk', hlt'⟩
    · rw [hki, hki']
    · rw [hn, hj] at hlt'
      exact absurd hlt' (Nat.lt_irrefl _)
    · rw [hn', hj'] at hlt
      exact absurd hlt (Nat.lt_irrefl _)
    · exact h.owners k k' n j hk hk'

theorem rpcOf_succeeds {t t' : UInt64} (h : rpcOf t = .succeeds t') : t' = t ∧ t ≠ 0 := by
  unfold rpcOf at h
  split at h
  · cases h
  · rename_i hne
    obtain rfl := Rpc.succeeds.inj h
    exact ⟨rfl, hne⟩

theorem next_oracle {e : Oracle.Event} (hst : next w (.oracle e) = some w') :
    (∀ c, e ≠ .call c) ∧ ∃ v, Oracle.next w.oracle e = some v ∧ w' = { w with
      oracle := v
      responses := w.responses ++ (answers w.oracle v e).map fun a => (w.serving a.1, a.2) } := by
  cases e with
  | call c => cases hst
  | boot | update | save | install | crash | lock | test =>
      obtain ⟨v, hv, rfl⟩ := Option.map_eq_some_iff.mp hst
      exact ⟨fun _ => Oracle.Event.noConfusion, v, hv, rfl⟩

theorem next_receive {i k : Nat} (hst : next w (.receive i k) = some w') :
    ∃ q t, w.requests[i]? = some q ∧ q.call = none ∧ (i, t) ∈ w.responses ∧ w.finish i q (rpcOf t) = some w' := by
  obtain ⟨q, hq, hst⟩ := Option.bind_eq_some_iff.mp hst
  obtain ⟨⟨j, t⟩, hr, hst⟩ := Option.bind_eq_some_iff.mp hst
  dsimp only at hst
  split at hst
  · rename_i hcond
    obtain ⟨hcall, rfl⟩ := hcond
    exact ⟨q, t, hq, hcall, List.mem_of_getElem? hr, hst⟩
  · cases hst

theorem next_fail {i : Nat} {rpc : Rpc} (hst : next w (.fail i rpc) = some w') :
    ∃ q, w.requests[i]? = some q ∧ q.call = none ∧ (rpc = .channelFails ∨ rpc = .fails) ∧ w.finish i q rpc = some w' := by
  obtain ⟨q, hq, hst⟩ := Option.bind_eq_some_iff.mp hst
  split at hst
  · rename_i hcond
    exact ⟨q, hq, hcond.1, hcond.2, hst⟩
  · cases hst

theorem next_getTimeStamp {i c : Nat} (hst : next w (.GetTimeStamp i c) = some w') :
    i < w.requests.length ∧ ∃ v, Oracle.next w.oracle (.call c) = some v ∧
      w' = { w with oracle := v, serving := Function.update w.serving c i } := by
  simp only [next] at hst
  split at hst
  · rename_i hi
    obtain ⟨v, hv, rfl⟩ := Option.map_eq_some_iff.mp hst
    exact ⟨hi, v, hv, rfl⟩
  · cases hst

/-- A node sends a request. -/
theorem Linked.begin (h : Linked w) (node : Nat) : Linked { w with requests := w.requests ++ [{ node := node }] } := by
  have hlt : ∀ {i}, i < w.requests.length → i < (w.requests ++ [({ node := node } : Request)]).length := by
    intro i hi
    rw [List.length_append]
    omega
  -- the new request has not ended
  have hold : ∀ k n j : Nat, (w.requests ++ [({ node := node } : Request)])[k]? = some ⟨n, some j⟩ →
      w.requests[k]? = some ⟨n, some j⟩ := by
    intro k n j hk
    rcases Slots.get_snoc hk with hk | ⟨-, hnew⟩
    · exact hk
    · cases hnew
  refine ⟨h.oracle, h.sent, fun c hc => hlt (h.serving c hc), fun r hr => hlt (h.asked r hr), ?_, h.nodes,
    fun k n j hk => h.objects k n j (hold k n j hk), fun k k' n j hk hk' => h.owners k k' n j (hold k n j hk) (hold k' n j hk')⟩
  intro n j c t hc ht
  obtain ⟨hne, i, hi, hmem⟩ := h.calls n j c t hc ht
  exact ⟨hne, i, (List.getElem?_append_left (List.getElem?_eq_some_iff.mp hi).1).trans hi, hmem⟩

/-- The server gets a request. -/
theorem Linked.getTimeStamp (h : Linked w) {i c : Nat} {v : Oracle.World} (hi : i < w.requests.length)
    (hst : Oracle.next w.oracle (.call c) = some v) :
    Linked { w with oracle := v, serving := Function.update w.serving c i } := by
  have hok : Oracle.SafeStep w.oracle (.call c) := trivial
  have hordered := Oracle.ordered_step h.oracle ⟨hok, hst⟩
  obtain ⟨-, rfl⟩ := Oracle.step_call hst
  refine ⟨hordered, h.sent, ?_, h.asked, h.calls, h.nodes, h.objects, h.owners⟩
  intro d hd
  show Function.update w.serving c i d < w.requests.length
  by_cases hdc : d = c
  · subst hdc
    rw [Function.update_self]
    exact hi
  · rw [Function.update_of_ne hdc]
    change Oracle.setCall w.oracle.calls c _ d ≠ .out at hd
    rw [Oracle.setCall_ne _ _ hdc] at hd
    exact h.serving d hd

/-- A node registers an object. -/
theorem Linked.insert (h : Linked w) {node i : Nat} {s : LocalBegin.State}
    (hst : LocalBegin.step (w.nodes node) (.insert i) = some s) :
    Linked { w with nodes := Function.update w.nodes node s } := by
  have hfresh : FreshTimestamp (w.nodes node) (.insert i) := trivial
  have hinv := (h.nodes node).step ⟨hfresh, hst⟩
  have hsame : ∀ (j : Nat) (c : LocalBegin.Call), s.calls[j]? = some c →
      ∃ c₀, (w.nodes node).calls[j]? = some c₀ ∧ c₀.rpc = c.rpc := by
    intro j c hc
    obtain ⟨c₀, hc₀, hrest⟩ := Option.bind_eq_some_iff.mp hst
    split at hrest
    · obtain rfl := Option.some.inj hrest
      rcases Slots.get_set hc with ⟨rfl, rfl⟩ | ⟨-, hc⟩
      · exact ⟨c₀, hc₀, rfl⟩
      · exact ⟨c, hc, rfl⟩
    · cases hrest
  have hlen : s.calls.length = (w.nodes node).calls.length := by
    obtain ⟨c₀, -, hrest⟩ := Option.bind_eq_some_iff.mp hst
    split at hrest
    · obtain rfl := Option.some.inj hrest
      exact List.length_set
    · cases hrest
  refine ⟨h.oracle, h.sent, h.serving, h.asked, ?_, ?_, ?_, h.owners⟩
  · intro n j c t hc ht
    change (Function.update w.nodes node s n).calls[j]? = some c at hc
    by_cases hn : n = node
    · subst hn
      rw [Function.update_self] at hc
      obtain ⟨c₀, hc₀, hrpc⟩ := hsame j c hc
      exact h.calls n j c₀ t hc₀ (hrpc.trans ht)
    · rw [Function.update_of_ne hn] at hc
      exact h.calls n j c t hc ht
  · exact (Function.forall_update_iff w.nodes fun _ s => LocalBegin.Inv s).mpr ⟨hinv, fun n _ => h.nodes n⟩
  · intro k n j hk
    have hlengths : ∀ n, (Function.update w.nodes node s n).calls.length = (w.nodes n).calls.length :=
      (Function.forall_update_iff w.nodes fun n s => s.calls.length = (w.nodes n).calls.length).mpr ⟨hlen, fun _ _ => rfl⟩
    show j < (Function.update w.nodes node s n).calls.length
    rw [hlengths]
    exact h.objects k n j hk

/-- **Step lemma.** -/
theorem linked_step (h : Linked w) (hst : Guarded Ok (FunStep next) w e w') : Linked w' := by
  obtain ⟨hok, hst⟩ := hst
  cases e with
  | Begin node =>
      obtain rfl := Option.some.inj hst
      exact h.begin node
  | GetTimeStamp i c =>
      obtain ⟨hi, v, hv, rfl⟩ := next_getTimeStamp hst
      exact h.getTimeStamp hi hv
  | oracle e =>
      obtain ⟨hcall, v, hv, rfl⟩ := next_oracle hst
      exact h.serve hok hcall hv
  | receive i k =>
      obtain ⟨q, t, hq, hcall, hmem, hst⟩ := next_receive hst
      refine h.finish hq hcall (fun t' ht' => ?_) hst
      obtain ⟨rfl, hne⟩ := rpcOf_succeeds ht'
      exact ⟨hne, hmem⟩
  | fail i rpc =>
      obtain ⟨q, hq, hcall, hrpc, hst⟩ := next_fail hst
      refine h.finish hq hcall (fun t' ht' => ?_) hst
      rcases hrpc with rfl | rfl <;> cases ht'
  | insert node i =>
      obtain ⟨s, hs, rfl⟩ := Option.map_eq_some_iff.mp hst
      exact h.insert hs

/-- **Run lemma.** -/
theorem linked_run {file : Option UInt64} {es : List Event} (h : Run (Guarded Ok (FunStep next)) (World.init file) es w) :
    Linked w :=
  h.invariant (fun _ _ _ hi hst => linked_step hi hst) (linked_init file)

end Step

/-! ## Unique ids -/

section Unique

variable {file : Option UInt64} {es : List Event} {w : World}

/-- **Ids are unique in the cluster.** In every run, whatever requests and responses are lost, delayed and repeated, and over any
    number of safe restarts of the server: the ids of a node are unique if and only if the server has answered it, and calls of
    any two nodes that the server has answered have different ids. -/
theorem ids_unique (h : Run (Guarded Ok (FunStep next)) (World.init file) es w) :
    (∀ n, UniqueIds (w.nodes n) ↔ Answered (w.nodes n)) ∧
      ∀ (n m i j : Nat) (c d : LocalBegin.Call) (t t' : UInt64), (w.nodes n).calls[i]? = some c → (w.nodes m).calls[j]? = some d →
        c.rpc = .succeeds t → d.rpc = .succeeds t' → c.txn_id_ = d.txn_id_ → n = m ∧ i = j := by
  have hlinked := linked_run h
  refine ⟨fun n => ⟨fun hu => hu.answered (hlinked.nodes n), fun ha => ha.uniqueIds (hlinked.nodes n)⟩, ?_⟩
  intro n m i j c d t t' hc hd ht ht' hid
  rw [LocalBegin.Call.txn_id_, LocalBegin.Call.txn_id_, ht, ht'] at hid
  obtain rfl : t = t' := hid
  obtain ⟨hne, k, hk, hmem⟩ := hlinked.calls n i c t hc ht
  obtain ⟨-, k', hk', hmem'⟩ := hlinked.calls m j d t hd ht'
  obtain rfl := hlinked.one_request hne hmem hmem'
  obtain ⟨hn, hi⟩ := Request.mk.inj (Option.some.inj (hk.symm.trans hk'))
  exact ⟨hn, Option.some.inj hi⟩

/-- Node 0 begins a transaction, with an id from the first process of the server. -/
def firstBegin : List Event :=
  [.Begin 0, .oracle (.boot ⟨7, 7⟩ 100), .oracle .save, .oracle .install, .GetTimeStamp 0 0, .oracle (.lock 0),
    .oracle (.test 0), .receive 0 0, .insert 0 0]

/-- The server starts again, and gets the request of node 1 twice. -/
def secondBegin : List Event :=
  [.Begin 1, .oracle .crash, .oracle (.boot ⟨9, 9⟩ 102), .oracle .save, .oracle .install, .GetTimeStamp 1 0, .GetTimeStamp 1 1,
    .oracle (.lock 1), .oracle (.lock 0), .oracle (.test 0), .oracle (.test 1), .receive 1 1, .insert 1 0]

/-- The run, and where it stands between the two transactions. -/
theorem run_begins : ∃ w w', Run (Guarded Ok (FunStep next)) (World.init none) firstBegin w ∧
    Run (Guarded Ok (FunStep next)) w secondBegin w' ∧ (w.nodes 0).calls = [⟨.succeeds (Oracle.composeTS 100 1), true⟩] ∧
      w.requests = [⟨0, some 0⟩] ∧ (w'.nodes 0).calls = [⟨.succeeds (Oracle.composeTS 100 1), true⟩] ∧
      (w'.nodes 1).calls = [⟨.succeeds (Oracle.composeTS 102 2), true⟩] ∧ w'.requests = [⟨0, some 0⟩, ⟨1, some 0⟩] := by
  obtain ⟨w, hrun, hw⟩ : ∃ w, Run (Guarded Ok (FunStep next)) (World.init none) firstBegin w ∧
      ((w.nodes 0).calls, w.requests) = ([⟨.succeeds (Oracle.composeTS 100 1), true⟩], [⟨0, some 0⟩]) :=
    Run.exists_guarded_of_map (f := fun w : World => ((w.nodes 0).calls, w.requests)) (by decide)
  obtain ⟨w', hrun', hw'⟩ : ∃ w', Run (Guarded Ok (FunStep next)) (World.init none) (firstBegin ++ secondBegin) w' ∧
      ((w'.nodes 0).calls, (w'.nodes 1).calls, w'.requests) = ([⟨.succeeds (Oracle.composeTS 100 1), true⟩],
        [⟨.succeeds (Oracle.composeTS 102 2), true⟩], [⟨0, some 0⟩, ⟨1, some 0⟩]) :=
    Run.exists_guarded_of_map (f := fun w : World => ((w.nodes 0).calls, (w.nodes 1).calls, w.requests)) (by decide)
  obtain ⟨v, hfirst, hsecond⟩ := hrun'.split
  obtain rfl := hfirst.of_guarded.functional hrun.of_guarded
  obtain ⟨hcalls, hrequests⟩ := Prod.mk.inj hw
  obtain ⟨hzero, hrest⟩ := Prod.mk.inj hw'
  obtain ⟨hone, hboth⟩ := Prod.mk.inj hrest
  exact ⟨v, w', hrun, hsecond, hcalls, hrequests, hzero, hone, hboth⟩

theorem ids_unique_begins : ∃ w, Run (Guarded Ok (FunStep next)) (World.init none) (firstBegin ++ secondBegin) w ∧
    (UniqueIds (w.nodes 1) ↔ Answered (w.nodes 1)) ∧ ∃ c d, (w.nodes 0).calls = [c] ∧ (w.nodes 1).calls = [d] ∧
      c.txn_id_ ≠ d.txn_id_ := by
  obtain ⟨w, w', hfirst, hsecond, -, -, hzero, hone, -⟩ := run_begins
  have hrun := hfirst.append hsecond
  obtain ⟨hnodes, hdistinct⟩ := ids_unique hrun
  refine ⟨w', hrun, hnodes 1, _, _, hzero, hone, fun hid => ?_⟩
  obtain ⟨hn, -⟩ := hdistinct 0 1 0 0 _ _ _ _ (by rw [hzero]; rfl) (by rw [hone]; rfl) rfl rfl hid
  cases hn

end Unique

/-! ## Ids follow time -/

/-- Requests from number `N` on are served by critical sections from `a` on. -/
structure Later (a : Nat × Nat) (N : Nat) (w : World) : Prop where
  now : ¬ Earlier w.oracle.place a
  drawn : ∀ c i seq p l, w.oracle.calls c = .drawn i seq p l → N ≤ w.serving c → ¬ Earlier (w.oracle.epoch, seq) a
  responses : ∀ r ∈ w.responses, N ≤ r.1 → r.2 ≠ 0 → ∃ s ∈ w.oracle.returned, s.ts = r.2 ∧ ¬ Earlier s.place a

section Time

variable {w w' : World} {a : Nat × Nat} {N : Nat} {e : Event}

theorem Linked.later (h : Linked w) : Later w.oracle.place w.requests.length w where
  now := by
    unfold Earlier
    omega
  drawn c i seq p l hc hle := by
    have hlt := h.serving c (by rw [hc]; exact Oracle.Call.noConfusion)
    omega
  responses r hr hle := by
    have hlt := h.asked r hr
    omega

/-- The server takes a step. -/
theorem Later.serve (h : Later a N w) {e : Oracle.Event} {v : Oracle.World} (hst : Oracle.next w.oracle e = some v) :
    Later a N { w with
      oracle := v
      responses := w.responses ++ (answers w.oracle v e).map fun a => (w.serving a.1, a.2) } := by
  refine ⟨Oracle.place_mono hst h.now, ?_, ?_⟩
  · intro c i seq p l hc hle
    obtain ⟨hepoch, hold | rfl⟩ := Oracle.drawn_cases hst hc
    · show ¬ Earlier (v.epoch, seq) a
      rw [hepoch]
      exact h.drawn c i seq p l hold hle
    · show ¬ Earlier (v.epoch, w.oracle.draws.length) a
      rw [hepoch]
      exact h.now
  · intro r hr hle hne
    rcases answers_cases hst with ⟨hsame, hzero⟩ | ⟨c, i, seq, p, l, hc, hreturned, hanswers⟩
    · rcases List.mem_append.mp hr with hr | hr
      · show ∃ s ∈ v.returned, _
        rw [hsame]
        exact h.responses r hr hle hne
      · obtain ⟨b, hb, rfl⟩ := List.mem_map.mp hr
        exact absurd (hzero b hb).2 hne
    · show ∃ s ∈ v.returned, _
      rw [hreturned]
      rcases List.mem_append.mp hr with hr | hr
      · obtain ⟨s, hs, hrest⟩ := h.responses r hr hle hne
        exact ⟨s, List.mem_append_left _ hs, hrest⟩
      · rw [hanswers] at hr
        obtain rfl := List.mem_singleton.mp hr
        exact ⟨_, List.mem_append_right _ (List.mem_singleton_self _), rfl, h.drawn c i seq p l hc hle⟩

theorem Later.congr (h : Later a N w) (horacle : w'.oracle = w.oracle) (hserving : w'.serving = w.serving)
    (hresponses : w'.responses = w.responses) : Later a N w' := by
  constructor
  · rw [horacle]
    exact h.now
  · rw [horacle, hserving]
    exact h.drawn
  · rw [horacle, hresponses]
    exact h.responses

theorem Later.finish (h : Later a N w) {i : Nat} {q : Request} {rpc : Rpc} (hst : w.finish i q rpc = some w') : Later a N w' := by
  obtain ⟨s, -, rfl⟩ := Option.map_eq_some_iff.mp hst
  exact h.congr rfl rfl rfl

/-- **Step lemma.** -/
theorem later_step (h : Later a N w) (hst : next w e = some w') : Later a N w' := by
  cases e with
  | Begin node =>
      obtain rfl := Option.some.inj hst
      exact h.congr rfl rfl rfl
  | GetTimeStamp i c =>
      obtain ⟨-, v, hv, rfl⟩ := next_getTimeStamp hst
      obtain ⟨-, rfl⟩ := Oracle.step_call hv
      refine ⟨h.now, ?_, h.responses⟩
      intro d j seq p l hd hle
      obtain ⟨hdc, hold⟩ := Oracle.drawn_of_setCall (fun _ _ _ _ => Oracle.Call.noConfusion) hd
      refine h.drawn d j seq p l hold ?_
      change N ≤ Function.update w.serving c i d at hle
      rwa [Function.update_of_ne hdc] at hle
  | oracle e =>
      obtain ⟨-, v, hv, rfl⟩ := next_oracle hst
      exact h.serve hv
  | receive i k =>
      obtain ⟨q, t, -, -, -, hst⟩ := next_receive hst
      exact h.finish hst
  | fail i rpc =>
      obtain ⟨q, -, -, -, hst⟩ := next_fail hst
      exact h.finish hst
  | insert node i =>
      obtain ⟨s, -, rfl⟩ := Option.map_eq_some_iff.mp hst
      exact h.congr rfl rfl rfl

/-- What the server has returned stays returned. -/
theorem returned_step {s : Stamp} (hs : s ∈ w.oracle.returned) (hst : next w e = some w') : s ∈ w'.oracle.returned := by
  cases e with
  | Begin node =>
      obtain rfl := Option.some.inj hst
      exact hs
  | GetTimeStamp i c =>
      obtain ⟨-, v, hv, rfl⟩ := next_getTimeStamp hst
      obtain ⟨-, rfl⟩ := Oracle.step_call hv
      exact hs
  | oracle e =>
      obtain ⟨-, v, hv, rfl⟩ := next_oracle hst
      show s ∈ v.returned
      rcases answers_cases hv with ⟨hsame, -⟩ | ⟨c, i, seq, p, l, -, hreturned, -⟩
      · rw [hsame]
        exact hs
      · rw [hreturned]
        exact List.mem_append_left _ hs
  | receive i k =>
      obtain ⟨q, t, -, -, -, hst⟩ := next_receive hst
      obtain ⟨x, -, rfl⟩ := Option.map_eq_some_iff.mp hst
      exact hs
  | fail i rpc =>
      obtain ⟨q, -, -, -, hst⟩ := next_fail hst
      obtain ⟨x, -, rfl⟩ := Option.map_eq_some_iff.mp hst
      exact hs
  | insert node i =>
      obtain ⟨x, -, rfl⟩ := Option.map_eq_some_iff.mp hst
      exact hs

/-- **Ids follow time.** A transaction that begins, on whichever node, when another one has got its id from the server gets a
    larger id from it, whatever the restarts of the server in between. -/
theorem ids_follow_time {file : Option UInt64} {es es' : List Event} (h : Run (Guarded Ok (FunStep next)) (World.init file) es w)
    (h' : Run (Guarded Ok (FunStep next)) w es' w') {n m i j k : Nat} {c d : LocalBegin.Call} {t t' : UInt64}
    (hc : (w.nodes n).calls[i]? = some c) (ht : c.rpc = .succeeds t) (hd : (w'.nodes m).calls[j]? = some d)
    (ht' : d.rpc = .succeeds t') (hk : w'.requests[k]? = some ⟨m, some j⟩) (hlater : w.requests.length ≤ k) :
    c.txn_id_ < d.txn_id_ := by
  have hlinked := linked_run h
  have hlinked' := linked_run (h.append h')
  obtain ⟨hne, k₀, -, hmem⟩ := hlinked.calls n i c t hc ht
  obtain ⟨s, hs, rfl⟩ := hlinked.stamp hmem hne
  have hs' : s ∈ w'.oracle.returned := h'.invariant (I := fun v => s ∈ v.oracle.returned)
    (fun _ _ _ hin hst => returned_step hin hst.2) hs
  have hafter := h'.invariant (I := Later w.oracle.place w.requests.length) (fun _ _ _ hi hst => later_step hi hst.2)
    hlinked.later
  obtain ⟨hne', k', hk', hmem'⟩ := hlinked'.calls m j d t' hd ht'
  obtain rfl : k' = k := hlinked'.owners k' k m j hk' hk
  obtain ⟨r, hr, rfl, hplace⟩ := hafter.responses _ hmem' hlater hne'
  rw [LocalBegin.Call.txn_id_, LocalBegin.Call.txn_id_, ht, ht']
  exact hlinked'.oracle.lt hs' hr ((hlinked.oracle.earlier hs).trans_le hplace)

theorem ids_follow_time_begins : ∃ w w', Run (Guarded Ok (FunStep next)) (World.init none) firstBegin w ∧
    Run (Guarded Ok (FunStep next)) w secondBegin w' ∧ ∃ c d, (w.nodes 0).calls = [c] ∧ (w'.nodes 1).calls = [d] ∧
      c.txn_id_ < d.txn_id_ := by
  obtain ⟨w, w', hfirst, hsecond, hcalls, hrequests, -, hone, hboth⟩ := run_begins
  refine ⟨w, w', hfirst, hsecond, _, _, hcalls, hone, ?_⟩
  exact ids_follow_time hfirst hsecond (n := 0) (m := 1) (i := 0) (j := 0) (k := 1) (by rw [hcalls]; rfl) rfl
    (by rw [hone]; rfl) rfl (by rw [hboth]; rfl) (by rw [hrequests]; rfl)

end Time

end ClusterBegin
end DDBMS
