import DDBMS.Recovery.CrashStore
import DDBMS.Storage.MemtableBound
import DDBMS.Transaction.OperatorService

/-!
# `Transaction.OperatorStore` — the store follows the log

`KVStore::put` and `KVStore::del` log a write first and store it later, so two writes of a key could be stored in the other
order than they are logged. The row lock keeps them apart: from the append of a record to its store its request is the only one
at the key. So the store has for every key what the log says (`Told`), but for a write that is logged and not stored yet.

That the store is a map is what the conditions of `StoreOk` on a step are for; without them it is not
(`Storage.KVStoreMap`). Other users of the log write no operations.
-/

namespace DDBMS
namespace BenchmarkService

open Restart (effect replay)
open KVStore (afterPutLog_calls afterDelLog_calls)
open KVStore_beta (IsMap)
open LogManager (Logs SameWaits logs_append logs_wake)
open Lock_manager (Access Operation)

/-! ## Records -/

/-- What a record does to the store: it writes the key. -/
def Writes (r : LogRecord) (key : Bytes) (value : Option Bytes) : Prop := ∀ kv, effect kv r = Function.update kv key value

/-- The record is none of an operation. -/
def Silent (r : LogRecord) : Prop := ∀ kv, effect kv r = kv

section Records

variable {log log' : LogManager.World} {r : LogRecord} {rs : List LogRecord} {key value : Bytes} {p : Nat}
  {txn : KVStore.Transaction}

theorem effect_setLsn (kv : Bytes → Option Bytes) (r : LogRecord) (lsn : Int) : effect kv (r.SetLsn lsn) = effect kv r := rfl

theorem effect_insert (kv : Bytes → Option Bytes) (h : r.log_type_ = .INSERT) :
    effect kv r = Function.update kv r.key (some r.value) := by
  rw [effect, h]

theorem effect_delete (kv : Bytes → Option Bytes) (h : r.log_type_ = .DELETE) :
    effect kv r = Function.update kv r.key none := by
  rw [effect, h]

theorem replay_snoc (rs : List LogRecord) (r : LogRecord) : replay (rs ++ [r]) = effect (replay rs) r := by
  simp [replay]

theorem silent_of_not_tuple (h : ¬ r.IsTuple) : Silent r := by
  intro kv
  funext key
  exact Restart.effect_of_ne kv (fun htuple => absurd htuple h)

theorem writes_putRecord (h : 32 + key.length + value.length < 2 ^ 31) :
    Writes (KVStore.putRecord txn key value) key (some value) := by
  intro kv
  rw [← effect_setLsn kv _ INVALID_LSN, effect_insert kv rfl, KVStore.putRecord, LogRecord.key_ofStrings (by omega),
    LogRecord.value_ofStrings (by omega)]

theorem writes_delRecord {inMem : Bool} {stale : Nat → UInt8} (h : key.length < 2 ^ 32) :
    Writes (KVStore.delRecord txn key value inMem stale) key none := by
  intro kv
  rw [← effect_setLsn kv _ INVALID_LSN, effect_delete kv rfl, KVStore.delRecord, LogRecord.key_ofStrings h]

end Records

/-! ## The store as a map -/

section Map

variable {c : Contents} {m : Bytes → Option Bytes} {key value : Bytes}

/-- A value for a key of the memtable. -/
theorem visible_mem_put (h : IsMap c m) (k : Bytes) :
    visible (((SortedAssoc.put key value c.mem).lookup k).or (firstHit c.ssts k)) =
      Function.update m key (visible (some value)) k := by
  by_cases hk : k = key
  · subst hk
    rw [SortedAssoc.lookup_put_self, Option.some_or, Function.update_self]
  · rw [SortedAssoc.lookup_put_ne hk, Function.update_of_ne hk]
    exact h k

theorem isMap_put (h : IsMap c m) (hok : c.Spills key value → AgreesOn (SortedAssoc.put key value c.mem) c.ssts) :
    IsMap (c.put key value) (Function.update m key (visible (some value))) := by
  intro k
  by_cases hs : c.Spills key value
  · rw [Contents.put_of_spills hs, Contents.value, List.lookup_nil, Option.none_or, (hok hs).firstHit_append]
    exact visible_mem_put h k
  · rw [Contents.put_of_not_spills hs]
    exact visible_mem_put h k

theorem isMap_tombstone (h : IsMap c m) :
    IsMap { c with mem := SortedAssoc.put key [] c.mem } (Function.update m key none) := visible_mem_put h

theorem isMap_erase (h : IsMap c m) (hold : ∀ v, firstHit c.ssts key = some v → v = []) :
    IsMap { c with mem := SortedAssoc.erase key c.mem } (Function.update m key none) := by
  intro k
  show visible (((SortedAssoc.erase key c.mem).lookup k).or (firstHit c.ssts k)) = _
  by_cases hk : k = key
  · subst hk
    rw [SortedAssoc.lookup_erase_self, Option.none_or, Function.update_self, visible_eq_none]
    exact hold
  · rw [SortedAssoc.lookup_erase_ne hk, Function.update_of_ne hk]
    exact h k

theorem seen_lookupResult (o : Option Bytes) : seen (lookupResult o) = o := by
  cases o <;> rfl

end Map

/-! ## What the store has of the log -/

/-- The record of a call is in the log, or waits to be; who is in no call writes nothing. -/
def Backed (log : LogManager.World) (p : Nat) : KVStore.Call → Prop
  | .idle => ∀ r, log.waiting p = some r → Silent r
  | .putLog _ key value _ => ∃ r, log.waiting p = some r ∧ Writes r key (some value)
  | .delLog _ key _ _ _ => ∃ r, log.waiting p = some r ∧ Writes r key none
  | .putStore _ _ _ | .delStore _ _ _ => log.waiting p = none

/-- The call is that of the request. -/
def Serves (x : Request) : KVStore.Call → Prop
  | .idle => True
  | .putLog _ key value _ => x.op_type = .Put ∧ key = x.key ∧ value = x.value
  | .putStore key _ _ => x.op_type = .Put ∧ key = x.key
  | .delLog _ key _ _ _ | .delStore key _ _ => x.op_type = .Del ∧ key = x.key

/-- The store shows `m`, and what it has to do with the log. -/
structure Told (snappy : Snappy) (kv : KVStore.World) (requests : List Request) (m : Bytes → Option Bytes) : Prop where
  shows : ∃ c, Represents snappy kv.store c ∧ IsMap c m
  backed : ∀ p, Backed kv.log p (kv.calls p)
  serves : ∀ p, kv.calls p ≠ .idle → ∃ x, requests[p]? = some x ∧ x.phase = .storing ∧ Serves x (kv.calls p)
  pending : ∀ p key value, pending? (kv.calls p) = some (key, value) →
    visible (replay kv.log.appended key) = visible value
  settled : ∀ key, (∀ p value, pending? (kv.calls p) ≠ some (key, value)) → m key = visible (replay kv.log.appended key)

/-- The steps that keep the store a map and the log its own: a `put` that spills agrees with the older tables, a key that is
    deleted in the memtable has no value in a table, a search visits no table that is not written and no memory that `ssts_` has
    given up, and other users of the log write no operations. Records are smaller than `2 ^ 31` bytes. -/
def StoreOk (snappy : Snappy) (w : World) : Event → Prop
  | .log (.append _ r) => ¬ r.IsTuple
  | .operate p _ => ∀ x ∈ w.requests[p]?, 32 + x.key.length + x.value.length < 2 ^ 31
  | .search p _ => ∀ x ∈ w.requests[p]?, ∀ pc, x.phase = .getting pc → KVStoreReaders.SearchOk w.view pc
  | .store p ones =>
    match w.kv.calls p with
    | .putStore key value _ => KVStore_beta.StepOk snappy ⟨w.kv.store, []⟩ (.put key value ones)
    | .delStore key true _ => ∀ v, w.kv.store.search snappy key = some (true, v) → v = []
    | _ => True
  | _ => True

section Step

variable {snappy : Snappy} {nw : Bool} {used : Finset Nat} {w w' : World} {kv kv' : KVStore.World} {p q : Nat} {x y : Request}
  {e : Event} {m : Bytes → Option Bytes} {r : LogRecord} {key : Bytes} {value : Option Bytes} {requests requests' : List Request}
  {lock : Lock_manager.World}

theorem Serves.of_pending {call : KVStore.Call} (h : Serves x call) (hpending : pending? call = some (key, value)) :
    key = x.key ∧ x.op_type ≠ .Get := by
  cases call with
  | idle | putLog | delLog => cases hpending
  | putStore k v lsn =>
      obtain ⟨rfl, -⟩ := Prod.mk.inj (Option.some.inj hpending)
      exact ⟨h.2, by rw [h.1]; decide⟩
  | delStore k inMem lsn =>
      obtain ⟨rfl, -⟩ := Prod.mk.inj (Option.some.inj hpending)
      exact ⟨h.2, by rw [h.1]; decide⟩

/-- A request that is not in the store has no call there. -/
theorem Told.idle (h : Told snappy kv requests m) (hx : requests[p]? = some x) (hphase : x.phase ≠ .storing) :
    kv.calls p = .idle := by
  by_contra hbusy
  obtain ⟨y, hy, hstoring, -⟩ := h.serves p hbusy
  obtain rfl := Option.some.inj (hx.symm.trans hy)
  exact hphase hstoring

/-- A write that is logged and not stored is one of the request that is at the key. -/
theorem Told.pending_mine (h : Told snappy kv requests m) (hserved : Served used lock requests)
    (hx : requests[p]? = some x) (hphase : x.phase.holds = true)
    (hq : pending? (kv.calls q) = some (x.key, value)) : p = q := by
  have hbusy : kv.calls q ≠ .idle := by
    intro hidle
    rw [hidle] at hq
    cases hq
  obtain ⟨y, hy, hstoring, hserves⟩ := h.serves q hbusy
  obtain ⟨hkey, hop⟩ := hserves.of_pending hq
  exact (hserved.exclusive hy hx (by rw [hstoring]; rfl) hphase hkey.symm hop).symm

/-- What a request that is not storing has locked is settled. -/
theorem Told.not_pending (h : Told snappy kv requests m) (hserved : Served used lock requests) (hx : x ∈ requests)
    (hphase : x.phase.holds = true) (hne : x.phase ≠ .storing) : pending? (kv.calls q) ≠ some (x.key, value) := by
  intro hq
  obtain ⟨p, hp⟩ := List.mem_iff_getElem?.mp hx
  obtain rfl := h.pending_mine hserved hp hphase hq
  rw [h.idle hp hne] at hq
  cases hq

/-- The requests of the calls in the store are the same. -/
theorem Told.congr (h : Told snappy kv requests m)
    (hsame : ∀ p x, requests[p]? = some x → x.phase = .storing → kv.calls p ≠ .idle → requests'[p]? = some x) :
    Told snappy kv requests' m where
  shows := h.shows
  backed := h.backed
  serves p hbusy := by
    obtain ⟨x, hx, hphase, hserves⟩ := h.serves p hbusy
    exact ⟨x, hsame p x hx hphase hbusy, hphase, hserves⟩
  pending := h.pending
  settled := h.settled

theorem Told.setPhase {phase : Phase} (h : Told snappy kv requests m) (hx : requests[p]? = some x)
    (hidle : kv.calls p = .idle) : Told snappy kv (requests.set p { x with phase := phase }) m := by
  refine h.congr fun q y hy _ hbusy => ?_
  have hqp : q ≠ p := by
    rintro rfl
    exact hbusy hidle
  rw [List.getElem?_set_ne (Ne.symm hqp)]
  exact hy

/-- **A write is logged**, or waits to be. -/
theorem Told.write (h : Told snappy kv requests m) (hserved : Served used lock requests) (hx : requests[p]? = some x)
    (hphase : x.phase.holds = true) (hnot : pending? (kv.calls p) = none)
    (hr : Writes r x.key value) (hlogs : Logs kv.log kv'.log p r) (hsame : SameWaits kv.log kv'.log p)
    (hstore : kv'.store = kv.store) (hcalls : ∀ q, q ≠ p → kv'.calls q = kv.calls q)
    (hwaits : kv'.log.waiting p = some r → pending? (kv'.calls p) = none ∧ Backed kv'.log p (kv'.calls p))
    (happends : kv'.log.waiting p = none → pending? (kv'.calls p) = some (x.key, value) ∧ Backed kv'.log p (kv'.calls p))
    (hserves : Serves x (kv'.calls p)) : Told snappy kv' (requests.set p { x with phase := .storing }) m where
  shows := by
    rw [hstore]
    exact h.shows
  backed q := by
    by_cases hqp : q = p
    · subst hqp
      cases hlogs with
      | waits hwait => exact (hwaits hwait).2
      | appends hwait => exact (happends hwait).2
    · have hback := h.backed q
      rw [hcalls q hqp]
      unfold Backed at hback ⊢
      rw [hsame q hqp]
      exact hback
  serves q hbusy := by
    by_cases hqp : q = p
    · subst hqp
      exact ⟨_, Slots.get_set_self hx, rfl, hserves⟩
    · rw [hcalls q hqp] at hbusy ⊢
      obtain ⟨y, hy, hyphase, hyserves⟩ := h.serves q hbusy
      refine ⟨y, ?_, hyphase, hyserves⟩
      rw [List.getElem?_set_ne (Ne.symm hqp)]
      exact hy
  pending q k v hq := by
    by_cases hqp : q = p
    · subst hqp
      cases hlogs with
      | waits hwait =>
          rw [(hwaits hwait).1] at hq
          cases hq
      | appends hwait lsn happended =>
          obtain ⟨rfl, rfl⟩ := Prod.mk.inj (Option.some.inj ((happends hwait).1.symm.trans hq))
          rw [happended, replay_snoc, effect_setLsn, hr, Function.update_self]
    · rw [hcalls q hqp] at hq
      have hold := h.pending q k v hq
      have hne : k ≠ x.key := by
        rintro rfl
        exact hqp (h.pending_mine hserved hx hphase hq).symm
      cases hlogs with
      | waits hwait happended =>
          rw [happended]
          exact hold
      | appends hwait lsn happended =>
          rw [happended, replay_snoc, effect_setLsn, hr, Function.update_of_ne hne]
          exact hold
  settled k hk := by
    have hold : ∀ q v, pending? (kv.calls q) ≠ some (k, v) := by
      intro q v hq
      by_cases hqp : q = p
      · subst hqp
        rw [hnot] at hq
        cases hq
      · exact hk q v (by rw [hcalls q hqp]; exact hq)
    rw [h.settled k hold]
    cases hlogs with
    | waits hwait happended => rw [happended]
    | appends hwait lsn happended =>
        have hne : k ≠ x.key := by
          rintro rfl
          exact hk p value (happends hwait).1
        rw [happended, replay_snoc, effect_setLsn, hr, Function.update_of_ne hne]

/-- **The log goes on** without a word about operations. -/
theorem Told.silent {log : LogManager.World} (h : Told snappy kv requests m)
    (hwaits : ∀ q, log.waiting q = kv.log.waiting q ∨
      kv.calls q = .idle ∧ ∀ r, log.waiting q = some r → Silent r)
    (happended : log.appended = kv.log.appended ∨ ∃ r, log.appended = kv.log.appended ++ [r] ∧ Silent r) :
    Told snappy { kv with log := log } requests m := by
  have hreplay : replay log.appended = replay kv.log.appended := by
    rcases happended with heq | ⟨r, heq, hr⟩
    · rw [heq]
    · rw [heq, replay_snoc, hr]
  refine ⟨h.shows, fun q => ?_, h.serves, fun q k v hq => ?_, fun k hk => ?_⟩
  · show Backed log q (kv.calls q)
    rcases hwaits q with heq | ⟨hidle, hsilent⟩
    · have hback := h.backed q
      unfold Backed at hback ⊢
      rw [heq]
      exact hback
    · rw [hidle]
      exact hsilent
  · show visible (replay log.appended k) = visible v
    rw [hreplay]
    exact h.pending q k v hq
  · show m k = visible (replay log.appended k)
    rw [hreplay]
    exact h.settled k hk

/-- **A write is stored.** -/
theorem Told.stored (h : Told snappy kv requests m) (hpending : pending? (kv.calls p) = some (key, value))
    (hlog : kv'.log = kv.log) (hidle : kv'.calls p = .idle) (hcalls : ∀ q, q ≠ p → kv'.calls q = kv.calls q)
    (hshows : ∃ c, Represents snappy kv'.store c ∧ IsMap c (Function.update m key (visible value))) :
    Told snappy kv' requests (Function.update m key (visible value)) where
  shows := hshows
  backed q := by
    rw [hlog]
    by_cases hqp : q = p
    · subst hqp
      have hback := h.backed q
      rw [hidle]
      intro r hr
      cases hcall : kv.calls q with
      | idle | putLog | delLog =>
          rw [hcall] at hpending
          cases hpending
      | putStore | delStore =>
          rw [hcall] at hback
          have hnone : kv.log.waiting q = none := hback
          rw [hnone] at hr
          cases hr
    · rw [hcalls q hqp]
      exact h.backed q
  serves q hbusy := by
    have hqp : q ≠ p := by
      rintro rfl
      exact hbusy hidle
    rw [hcalls q hqp] at hbusy ⊢
    exact h.serves q hbusy
  pending q k v hq := by
    have hqp : q ≠ p := by
      rintro rfl
      rw [hidle] at hq
      cases hq
    rw [hlog]
    rw [hcalls q hqp] at hq
    exact h.pending q k v hq
  settled k hk := by
    rw [hlog]
    by_cases hkey : k = key
    · subst hkey
      rw [Function.update_self]
      exact (h.pending p k value hpending).symm
    · rw [Function.update_of_ne hkey]
      refine h.settled k fun q v hq => ?_
      by_cases hqp : q = p
      · subst hqp
        exact hkey (Prod.mk.inj (Option.some.inj (hq.symm.trans hpending))).1
      · exact hk q v (by rw [hcalls q hqp]; exact hq)

/-- What a step does to the map that the store shows: an access of a request that is at its key, or nothing. -/
inductive Shows (w w' : World) (m m' : Bytes → Option Bytes) : Prop where
  | same (haccesses : w'.accesses = w.accesses) (hm : m' = m)
  | access {x : Request} {op : Operation (Option Bytes)} (hx : x ∈ w.requests) (hphase : x.phase.holds = true)
      (hop : x.op_type ≠ .Get ∨ ∃ v, op = .read v) (hread : (∃ v, op = .read v) → x.phase ≠ .storing)
      (haccesses : w'.accesses = w.accesses ++ [⟨x.txn, x.key, op⟩])
      (happly : Access.apply ⟨x.txn, x.key, op⟩ m = some m')

/-- What `get` returns. -/
theorem Told.get (h : Told snappy kv requests m) (hinv : snappy.Inverts) (key : Bytes) :
    kv.store.get snappy key = some (lookupResult (m key)) := by
  obtain ⟨c, hc, hm⟩ := h.shows
  rw [hc.get hinv, hm]

/-- A thread in `AppendLogRecord` that is in no call of the store. -/
theorem Told.log_silent {log : LogManager.World} {e : LogManager.Event} (h : Told snappy kv requests m)
    (hok : ∀ t r, e = .append t r → ¬ r.IsTuple) (hidle : ∀ t ∈ KVStore.logThread e, kv.calls t = .idle)
    (hlog : LogManager.next kv.log e = some log) : Told snappy { kv with log := log } requests m := by
  have hthread : ∀ {t : Nat} {r : LogRecord}, kv.calls t = .idle → Silent r → Logs kv.log log t r → SameWaits kv.log log t →
      Told snappy { kv with log := log } requests m := by
    intro t r ht hr hlogs hsame
    cases hlogs with
    | waits hwait happended =>
        refine h.silent (fun q => ?_) (Or.inl happended)
        by_cases hqt : q = t
        · subst hqt
          refine Or.inr ⟨ht, fun s hs => ?_⟩
          obtain rfl := Option.some.inj (hwait.symm.trans hs)
          exact hr
        · exact Or.inl (hsame q hqt)
    | appends hwait lsn happended =>
        refine h.silent (fun q => ?_) (Or.inr ⟨_, happended, hr⟩)
        by_cases hqt : q = t
        · subst hqt
          refine Or.inr ⟨ht, fun s hs => ?_⟩
          rw [hwait] at hs
          cases hs
        · exact Or.inl (hsame q hqt)
  cases e with
  | append t r =>
      obtain ⟨hlogs, hsame⟩ := logs_append hlog
      exact hthread (hidle t rfl) (silent_of_not_tuple (hok t r rfl)) hlogs hsame
  | wake t =>
      have ht := hidle t rfl
      have hback := h.backed t
      rw [ht] at hback
      cases hwaiting : kv.log.waiting t with
      | none =>
          simp only [LogManager.next, hwaiting] at hlog
          cases hlog
      | some r =>
          obtain ⟨hlogs, hsame⟩ := logs_wake hlog hwaiting
          exact hthread ht (hback r hwaiting) hlogs hsame
  | swap | write | store | reset =>
      have hsame : log.waiting = kv.log.waiting ∧ log.appended = kv.log.appended := by
        cases LogManager.next_cases hlog <;> exact ⟨rfl, rfl⟩
      exact h.silent (fun q => Or.inl (by rw [hsame.1])) (Or.inl hsame.2)

/-- `put` and `del` behind their call of `AppendLogRecord`. -/
theorem Told.after_log {log : LogManager.World} (call : KVStore.Call) (lsnCall : Int → KVStore.Call)
    (h : Told snappy kv requests m) (hserved : Served used lock requests) (hx : requests[p]? = some x)
    (hphase : x.phase.holds = true) (hnot : pending? (kv.calls p) = none) (hr : Writes r x.key value)
    (hlogs : Logs kv.log log p r) (hsame : SameWaits kv.log log p) (hlog : kv'.log = log) (hstore : kv'.store = kv.store)
    (hcalls : ∀ q, q ≠ p → kv'.calls q = kv.calls q)
    (hcall : kv'.calls p = if (log.waiting p).isSome then call else lsnCall kv.log.mgr.next_lsn_)
    (hwaits : pending? call = none ∧ (log.waiting p = some r → Backed log p call) ∧ Serves x call)
    (happends : ∀ lsn, pending? (lsnCall lsn) = some (x.key, value) ∧ (log.waiting p = none → Backed log p (lsnCall lsn)) ∧
      Serves x (lsnCall lsn)) : Told snappy kv' (requests.set p { x with phase := .storing }) m := by
  subst hlog
  have hserves : Serves x (kv'.calls p) := by
    rw [hcall]
    split
    · exact hwaits.2.2
    · exact (happends _).2.2
  refine h.write hserved hx hphase hnot hr hlogs hsame hstore hcalls (fun hwait => ?_) (fun hnone => ?_) hserves
  · rw [hcall, if_pos (by rw [hwait]; rfl)]
    exact ⟨hwaits.1, hwaits.2.1 hwait⟩
  · rw [hcall, if_neg (by rw [hnone]; decide)]
    exact ⟨(happends _).1, (happends _).2.1 hnone⟩

/-! ### The calls of the store -/

/-- **`put`** up to its store. -/
theorem Told.afterPutLog {t : Nat} {add_writeset : Bool} {log : LogManager.World} (h : Told snappy kv requests m)
    (hserved : Served used lock requests) (hx : requests[p]? = some x) (hphase : x.phase.holds = true)
    (hop : x.op_type = .Put) (hnot : pending? (kv.calls p) = none) (hr : Writes r x.key (some x.value))
    (hlogs : Logs kv.log log p r) (hsame : SameWaits kv.log log p) :
    Told snappy (kv.afterPutLog p t x.key x.value add_writeset log) (requests.set p { x with phase := .storing }) m := by
  refine Told.after_log (.putLog t x.key x.value add_writeset) (.putStore x.key x.value) h hserved hx hphase hnot hr hlogs hsame
    (KVStore.afterPutLog_log _ _ _ _ _ _ _) (KVStore.afterPutLog_store _ _ _ _ _ _ _) (fun q hq => ?_) ?_
    ⟨rfl, fun hwait => ⟨r, hwait, hr⟩, hop, rfl, rfl⟩ (fun lsn => ⟨rfl, id, hop, rfl⟩)
  · rw [afterPutLog_calls, if_neg hq]
  · rw [afterPutLog_calls, if_pos rfl]

/-- **`del`** up to its store. -/
theorem Told.afterDelLog {t : Nat} {v : Bytes} {inMem add_writeset : Bool} {log : LogManager.World}
    (h : Told snappy kv requests m) (hserved : Served used lock requests) (hx : requests[p]? = some x)
    (hphase : x.phase.holds = true) (hop : x.op_type = .Del) (hnot : pending? (kv.calls p) = none)
    (hr : Writes r x.key none) (hlogs : Logs kv.log log p r) (hsame : SameWaits kv.log log p) :
    Told snappy (kv.afterDelLog p t x.key v inMem add_writeset log) (requests.set p { x with phase := .storing }) m := by
  refine Told.after_log (.delLog t x.key v inMem add_writeset) (.delStore x.key inMem) h hserved hx hphase hnot hr hlogs hsame
    (KVStore.afterDelLog_log _ _ _ _ _ _ _ _) (KVStore.afterDelLog_store _ _ _ _ _ _ _ _) (fun q hq => ?_) ?_
    ⟨rfl, fun hwait => ⟨r, hwait, hr⟩, hop, rfl⟩ (fun lsn => ⟨rfl, id, hop, rfl⟩)
  · rw [afterDelLog_calls, if_neg hq]
  · rw [afterDelLog_calls, if_pos rfl]

/-- A `put` that spills agrees with the older tables, and has a number. -/
theorem StoreOk.spills {c : Contents} {k v : Bytes} {lsn : Int} {ones : Nat} (hok : StoreOk snappy w (.store p ones))
    (hinv : snappy.Inverts) (hc : Represents snappy w.kv.store c) (hcall : w.kv.calls p = .putStore k v lsn)
    (hs : c.Spills k v) : AgreesOn (SortedAssoc.put k v c.mem) c.ssts ∧ c.ssts.length + 1 < 2 ^ 64 := by
  unfold StoreOk at hok
  dsimp only at hok
  rw [hcall] at hok
  obtain ⟨m', hm', hholds⟩ := hc.memtable.put k v ones
  obtain ⟨hagrees, hno⟩ := hok m' hm' (by rw [hholds.space]; exact hs)
  exact ⟨(hc.agrees_iff hinv hholds).mp hagrees, by rw [← hc.disk.no_eq]; exact hno⟩

/-- **The store** of a write. -/
theorem Told.store {ones : Nat} (hinv : snappy.Inverts) (h : Told snappy w.kv w.requests m)
    (hok : StoreOk snappy w (.store p ones)) (hpending : pending? (w.kv.calls p) = some (key, value))
    (hkv : KVStore.next snappy w.kv (.store p ones) = some kv') :
    Told snappy kv' w.requests (Function.update m key (visible value)) := by
  obtain ⟨c, hc, hm⟩ := h.shows
  have hothers : ∀ (kv : KVStore.World) q, q ≠ p → (kv.setCall p .idle).calls q = kv.calls q :=
    fun kv q hq => if_neg hq
  cases KVStore.next_cases hkv with
  | @storePut _ _ k v lsn memtable store hcall hmem hstore =>
      have hspill := hok.spills hinv hc hcall
      rw [hcall] at hpending
      obtain ⟨rfl, rfl⟩ := Prod.mk.inj (Option.some.inj hpending)
      refine h.stored (p := p) (by rw [hcall]; rfl) (KVStore.noteSpill_log _ _ _) ?_ (fun q hq => ?_) ?_
      · rw [KVStore.noteSpill_calls]
        exact if_pos rfl
      · rw [KVStore.noteSpill_calls]
        exact hothers _ q hq
      · rw [KVStore.noteSpill_store]
        exact ⟨_, hc.put (fun hs => (hspill hs).2) hstore, isMap_put hm (fun hs => (hspill hs).1)⟩
  | @storeDelMem _ _ k lsn memtable b hcall hmem =>
      unfold StoreOk at hok
      dsimp only at hok
      rw [hcall] at hok hpending
      obtain ⟨rfl, rfl⟩ := Prod.mk.inj (Option.some.inj hpending)
      obtain ⟨memtable', hmem', hholds⟩ := hc.memtable.del k
      obtain ⟨rfl, -⟩ := Prod.mk.inj (Option.some.inj (hmem.symm.trans hmem'))
      have hold : ∀ v, firstHit c.ssts k = some v → v = [] := by
        intro v hv
        exact hok v (by rw [hc.search hinv, hv]; rfl)
      exact h.stored (p := p) (by rw [hcall]; rfl) rfl (if_pos rfl) (hothers _)
        ⟨{ c with mem := SortedAssoc.erase k c.mem }, ⟨hholds, hc.disk⟩, isMap_erase hm hold⟩
  | @storeDelDisk _ _ k lsn memtable hcall hmem =>
      rw [hcall] at hpending
      obtain ⟨rfl, rfl⟩ := Prod.mk.inj (Option.some.inj hpending)
      obtain ⟨memtable', hmem', hholds⟩ := hc.memtable.put k [] ones
      obtain rfl := Option.some.inj (hmem.symm.trans hmem')
      exact h.stored (p := p) (by rw [hcall]; rfl) rfl (if_pos rfl) (hothers _)
        ⟨{ c with mem := SortedAssoc.put k [] c.mem }, ⟨hholds, hc.disk⟩, isMap_tombstone hm⟩

end Step

end BenchmarkService
end DDBMS
