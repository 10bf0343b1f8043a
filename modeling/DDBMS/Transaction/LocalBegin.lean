import Mathlib.Logic.Function.Basic
import DDBMS.Lib.Run
import DDBMS.Lib.Slots
import DDBMS.Recovery.LogRecord

/-!
# `Transaction.LocalBegin` — the ids of local transactions

`TransactionManager::Begin` without an id and `getTimestampFromServer` (`transaction/transaction_manager.cpp`). The id of the
transaction is a timestamp of the meta server; a call that has none takes what stands in its place, and registers the
transaction under it: -1 when the channel is not initialised, the default of the response when the RPC fails, and the 0 of a
server that has given up.

Any number of calls are in `Begin` at a time. Each makes its object and inserts it into `txn_map` under the exclusive lock.
The log record of a `Begin` is in `LogChains`.
-/

namespace DDBMS
namespace LocalBegin

/-- How the call of the meta server ends. -/
inductive Rpc where
  /-- `channel.Init` fails -/
  | channelFails
  /-- `cntl.Failed()` -/
  | fails
  /-- `getTimeStamp` has used up its retries and answers 0 -/
  | exhausted
  | succeeds (timestamp : UInt64)
  deriving DecidableEq, Repr

/-- The default of the field `timestamp` of a response. -/
def defaultTimestamp : UInt64 := 0

def getTimestampFromServer : Rpc → UInt64
  | .channelFails => -1
  | .fails => defaultTimestamp
  | .exhausted => 0
  | .succeeds timestamp => timestamp

/-- A call of `Begin`, with its object behind `getTimestampFromServer`. -/
structure Call where
  rpc : Rpc
  registered : Bool := false
  deriving DecidableEq, Repr

def Call.txn_id_ (c : Call) : txn_id_t := getTimestampFromServer c.rpc

/-- `txn_map` has the calls that have made the objects. -/
structure State where
  calls : List Call := []
  txn_map : txn_id_t → Option Nat := fun _ => none

inductive Event where
  /-- a call makes its object -/
  | Begin (rpc : Rpc)
  /-- call `i` inserts it, and returns -/
  | insert (i : Nat)
  deriving DecidableEq, Repr

def step (s : State) : Event → Option State
  | .Begin rpc => some { s with calls := s.calls ++ [{ rpc := rpc }] }
  | .insert i => do
    let c ← s.calls[i]?
    if c.registered = false then
      some { calls := s.calls.set i { c with registered := true },
             txn_map := Function.update s.txn_map c.txn_id_ (some i) }
    else none

/-! ## Unique ids -/

/-- Transactions that have begun have different ids, and none is registered under the invalid one. -/
structure UniqueIds (s : State) : Prop where
  distinct : ∀ (i j : Nat) (c c' : Call), s.calls[i]? = some c → s.calls[j]? = some c' → c.registered = true →
    c'.registered = true → c.txn_id_ = c'.txn_id_ → i = j
  valid : s.txn_map INVALID_TXN_ID = none

/-- A timestamp of the server is not 0, and no call has had it before. -/
def FreshTimestamp (s : State) : Event → Prop
  | .Begin (.succeeds timestamp) => timestamp ≠ 0 ∧ ∀ c ∈ s.calls, c.rpc ≠ .succeeds timestamp
  | _ => True

instance instDecidableFreshTimestamp (s : State) : (e : Event) → Decidable (FreshTimestamp s e)
  | .Begin (.succeeds timestamp) =>
    inferInstanceAs (Decidable (timestamp ≠ 0 ∧ ∀ c ∈ s.calls, c.rpc ≠ .succeeds timestamp))
  | .Begin .channelFails | .Begin .fails | .Begin .exhausted | .insert _ => inferInstanceAs (Decidable True)

/-- Every call that has returned has had an answer of the server that is a timestamp, except that one may have had no
    channel; in this case no call has had the timestamp `2 ^ 64 - 1`. -/
structure Answered (s : State) : Prop where
  answered : ∀ c ∈ s.calls, c.registered = true → c.rpc ≠ .fails ∧ c.rpc ≠ .exhausted
  once : ∀ (i j : Nat) (c c' : Call), s.calls[i]? = some c → s.calls[j]? = some c' → c.registered = true →
    c'.registered = true → c.rpc = .channelFails → c'.rpc = .channelFails → i = j
  last : ∀ c ∈ s.calls, ∀ c' ∈ s.calls, c.registered = true → c'.registered = true → c.rpc = .channelFails →
    c'.rpc ≠ .succeeds (-1)

variable {s s' : State} {e : Event}

/-- What is known in every state. -/
structure Inv (s : State) : Prop where
  registered : ∀ (i : Nat) (c : Call), s.calls[i]? = some c → c.registered = true → s.txn_map c.txn_id_ ≠ none
  map : ∀ id i, s.txn_map id = some i → ∃ c, s.calls[i]? = some c ∧ c.registered = true ∧ c.txn_id_ = id
  nonzero : ∀ (c : Call) timestamp, c ∈ s.calls → c.rpc = .succeeds timestamp → timestamp ≠ 0
  fresh : ∀ (i j : Nat) (c c' : Call) timestamp, s.calls[i]? = some c → s.calls[j]? = some c' →
    c.rpc = .succeeds timestamp → c'.rpc = .succeeds timestamp → i = j

theorem inv_init : Inv {} := by
  constructor
  · intro i c hc
    cases hc
  · intro id i hi
    cases hi
  · intro c timestamp hc
    cases hc
  · intro i j c c' timestamp hc
    cases hc

theorem Inv.begin (h : Inv s) {rpc : Rpc} (hfresh : FreshTimestamp s (.Begin rpc)) :
    Inv { s with calls := s.calls ++ [{ rpc := rpc }] } := by
  have hold : ∀ timestamp, rpc = .succeeds timestamp →
      timestamp ≠ 0 ∧ ∀ c ∈ s.calls, c.rpc ≠ .succeeds timestamp := by
    rintro timestamp rfl
    exact hfresh
  constructor
  · intro i c hc hreg
    rcases Slots.get_snoc hc with hc | ⟨-, rfl⟩
    · exact h.registered i c hc hreg
    · cases hreg
  · intro id i hi
    obtain ⟨c, hc, hreg⟩ := h.map id i hi
    exact ⟨c, (List.getElem?_append_left (List.getElem?_eq_some_iff.mp hc).1).trans hc, hreg⟩
  · intro c timestamp hc hrpc
    rcases List.mem_append.mp hc with hc | hc
    · exact h.nonzero c timestamp hc hrpc
    · obtain rfl := List.mem_singleton.mp hc
      exact (hold timestamp hrpc).1
  · intro i j c c' timestamp hc hc' hrpc hrpc'
    rcases Slots.get_snoc hc with hc | ⟨hi, rfl⟩
    · rcases Slots.get_snoc hc' with hc' | ⟨-, rfl⟩
      · exact h.fresh i j c c' timestamp hc hc' hrpc hrpc'
      · exact absurd hrpc ((hold timestamp hrpc').2 c (List.mem_of_getElem? hc))
    · rcases Slots.get_snoc hc' with hc' | ⟨hj, rfl⟩
      · exact absurd hrpc' ((hold timestamp hrpc).2 c' (List.mem_of_getElem? hc'))
      · rw [hi, hj]

theorem Inv.insert (h : Inv s) {i : Nat} {c : Call} (hc : s.calls[i]? = some c) :
    Inv ⟨s.calls.set i { c with registered := true }, Function.update s.txn_map c.txn_id_ (some i)⟩ := by
  -- a call has the answer that it had
  have hsame : ∀ (j : Nat) (c' : Call), (s.calls.set i { c with registered := true })[j]? = some c' →
      ∃ c₀, s.calls[j]? = some c₀ ∧ c₀.rpc = c'.rpc := by
    intro j c' hc'
    rcases Slots.get_set hc' with ⟨rfl, rfl⟩ | ⟨-, hc'⟩
    · exact ⟨c, hc, rfl⟩
    · exact ⟨c', hc', rfl⟩
  constructor
  · intro j c' hc' hreg
    show Function.update s.txn_map c.txn_id_ (some i) c'.txn_id_ ≠ none
    rw [Function.update_apply]
    split
    · exact Option.some_ne_none i
    · rename_i hne
      rcases Slots.get_set hc' with ⟨-, rfl⟩ | ⟨-, hc'⟩
      · exact absurd rfl hne
      · exact h.registered j c' hc' hreg
  · intro id j hj
    change Function.update s.txn_map c.txn_id_ (some i) id = some j at hj
    rw [Function.update_apply] at hj
    split at hj
    · rename_i hid
      obtain rfl := Option.some.inj hj
      exact ⟨_, Slots.get_set_self hc, rfl, hid.symm⟩
    · obtain ⟨c', hc', hreg, hid⟩ := h.map id j hj
      by_cases hji : j = i
      · subst hji
        obtain rfl := Option.some.inj (hc.symm.trans hc')
        exact ⟨_, Slots.get_set_self hc, rfl, hid⟩
      · exact ⟨c', (List.getElem?_set_ne (Ne.symm hji)).trans hc', hreg, hid⟩
  · intro c' timestamp hc' hrpc
    obtain ⟨j, hj⟩ := List.mem_iff_getElem?.mp hc'
    obtain ⟨c₀, hc₀, heq⟩ := hsame j c' hj
    exact h.nonzero c₀ timestamp (List.mem_of_getElem? hc₀) (heq.trans hrpc)
  · intro j k c₁ c₂ timestamp h₁ h₂ hrpc₁ hrpc₂
    obtain ⟨c₁', h₁', heq₁⟩ := hsame j c₁ h₁
    obtain ⟨c₂', h₂', heq₂⟩ := hsame k c₂ h₂
    exact h.fresh j k c₁' c₂' timestamp h₁' h₂' (heq₁.trans hrpc₁) (heq₂.trans hrpc₂)

theorem Inv.step (h : Inv s) (hst : Guarded FreshTimestamp (FunStep step) s e s') : Inv s' := by
  obtain ⟨hfresh, hst⟩ := hst
  cases e with
  | Begin rpc =>
      obtain rfl := Option.some.inj hst
      exact h.begin hfresh
  | insert i =>
      obtain ⟨c, hc, hrest⟩ := Option.bind_eq_some_iff.mp hst
      split at hrest
      · obtain rfl := Option.some.inj hrest
        exact h.insert hc
      · cases hrest

/-! ## Exactly when -/

theorem UniqueIds.answered (h : UniqueIds s) (hI : Inv s) : Answered s := by
  constructor
  · intro c hc hreg
    obtain ⟨i, hi⟩ := List.mem_iff_getElem?.mp hc
    have hne : c.txn_id_ ≠ INVALID_TXN_ID := by
      intro hid
      apply hI.registered i c hi hreg
      rw [hid]
      exact h.valid
    constructor
    · intro hrpc
      exact hne (by rw [Call.txn_id_, hrpc]; rfl)
    · intro hrpc
      exact hne (by rw [Call.txn_id_, hrpc]; rfl)
  · intro i j c c' hc hc' hreg hreg' hrpc hrpc'
    apply h.distinct i j c c' hc hc' hreg hreg'
    rw [Call.txn_id_, Call.txn_id_, hrpc, hrpc']
  · intro c hc c' hc' hreg hreg' hrpc hrpc'
    obtain ⟨i, hi⟩ := List.mem_iff_getElem?.mp hc
    obtain ⟨j, hj⟩ := List.mem_iff_getElem?.mp hc'
    have hid : c.txn_id_ = c'.txn_id_ := by
      rw [Call.txn_id_, Call.txn_id_, hrpc, hrpc']
      rfl
    obtain rfl := h.distinct i j c c' hi hj hreg hreg' hid
    obtain rfl := Option.some.inj (hi.symm.trans hj)
    rw [hrpc] at hrpc'
    cases hrpc'

theorem Answered.uniqueIds (h : Answered s) (hI : Inv s) : UniqueIds s := by
  constructor
  · intro i j c c' hc hc' hreg hreg' hid
    have hmem := List.mem_of_getElem? hc
    have hmem' := List.mem_of_getElem? hc'
    obtain ⟨hfails, hexhausted⟩ := h.answered c hmem hreg
    obtain ⟨hfails', hexhausted'⟩ := h.answered c' hmem' hreg'
    rw [Call.txn_id_, Call.txn_id_] at hid
    cases hrpc : c.rpc with
    | fails => exact absurd hrpc hfails
    | exhausted => exact absurd hrpc hexhausted
    | channelFails =>
        cases hrpc' : c'.rpc with
        | fails => exact absurd hrpc' hfails'
        | exhausted => exact absurd hrpc' hexhausted'
        | channelFails => exact h.once i j c c' hc hc' hreg hreg' hrpc hrpc'
        | succeeds timestamp =>
            rw [hrpc, hrpc'] at hid
            obtain rfl : -1 = timestamp := hid
            exact absurd hrpc' (h.last c hmem c' hmem' hreg hreg' hrpc)
    | succeeds timestamp =>
        cases hrpc' : c'.rpc with
        | fails => exact absurd hrpc' hfails'
        | exhausted => exact absurd hrpc' hexhausted'
        | channelFails =>
            rw [hrpc, hrpc'] at hid
            obtain rfl : timestamp = -1 := hid
            exact absurd hrpc (h.last c' hmem' c hmem hreg' hreg hrpc')
        | succeeds timestamp' =>
            rw [hrpc, hrpc'] at hid
            obtain rfl : timestamp = timestamp' := hid
            exact hI.fresh i j c c' timestamp hc hc' hrpc hrpc'
  · cases hmap : s.txn_map INVALID_TXN_ID with
    | none => rfl
    | some i =>
        obtain ⟨c, hc, hreg, hid⟩ := hI.map _ i hmap
        obtain ⟨hfails, hexhausted⟩ := h.answered c (List.mem_of_getElem? hc) hreg
        rw [Call.txn_id_] at hid
        cases hrpc : c.rpc with
        | fails => exact absurd hrpc hfails
        | exhausted => exact absurd hrpc hexhausted
        | channelFails =>
            rw [hrpc] at hid
            exact absurd hid (by decide)
        | succeeds timestamp =>
            rw [hrpc] at hid
            exact absurd hid (hI.nonzero c timestamp (List.mem_of_getElem? hc) hrpc)

/-- **Local transaction ids are unique** if and only if the server has answered, for any outcomes and in any order. -/
theorem unique_ids_iff {es : List Event} (hrun : Run (Guarded FreshTimestamp (FunStep step)) {} es s) :
    UniqueIds s ↔ Answered s := by
  have hI : Inv s := hrun.invariant (fun _ _ _ h hst => h.step hst) inv_init
  exact ⟨fun h => h.answered hI, fun h => h.uniqueIds hI⟩

/-- Two answers, and a channel that cannot be initialised between them. -/
def answers : List Event := [.Begin (.succeeds 5), .Begin .channelFails, .insert 1, .insert 0, .Begin (.succeeds 6), .insert 2]

theorem unique_ids_answers : ∃ s, Run (Guarded FreshTimestamp (FunStep step)) {} answers s ∧ UniqueIds s := by
  obtain ⟨s, hrun, hcalls⟩ : ∃ s, Run (Guarded FreshTimestamp (FunStep step)) {} answers s ∧
      s.calls = [⟨.succeeds 5, true⟩, ⟨.channelFails, true⟩, ⟨.succeeds 6, true⟩] :=
    Run.exists_guarded_of_map (f := State.calls) (by decide)
  have hone : ∀ (i : Nat) (c : Call), s.calls[i]? = some c → c.rpc = .channelFails → i = 1 := by
    intro i c hc hrpc
    rw [hcalls] at hc
    rcases i with _ | _ | _ | i
    · obtain rfl := Option.some.inj hc
      cases hrpc
    · rfl
    · obtain rfl := Option.some.inj hc
      cases hrpc
    · cases hc
  refine ⟨s, hrun, (unique_ids_iff hrun).mpr ⟨?_, ?_, ?_⟩⟩
  · rw [hcalls]
    decide
  · rintro i j c c' hc hc' - - hrpc hrpc'
    rw [hone i c hc hrpc, hone j c' hc' hrpc']
  · rw [hcalls]
    decide

/-- Two transactions begin while the server cannot be reached. -/
theorem ids_collide : ∃ s, Run (Guarded FreshTimestamp (FunStep step)) {} [.Begin .fails, .insert 0, .Begin .fails, .insert 1] s ∧
    ¬ UniqueIds s := by
  obtain ⟨s, hrun, hcalls⟩ : ∃ s, Run (Guarded FreshTimestamp (FunStep step)) {}
      [.Begin .fails, .insert 0, .Begin .fails, .insert 1] s ∧ s.calls = [⟨.fails, true⟩, ⟨.fails, true⟩] :=
    Run.exists_guarded_of_map (f := State.calls) (by decide)
  refine ⟨s, hrun, fun h => ?_⟩
  have hij := h.distinct 0 1 ⟨.fails, true⟩ ⟨.fails, true⟩ (by rw [hcalls]; rfl) (by rw [hcalls]; rfl) rfl rfl rfl
  cases hij

end LocalBegin
end DDBMS
