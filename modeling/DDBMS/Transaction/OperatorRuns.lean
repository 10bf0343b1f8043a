import DDBMS.Transaction.OperatorSearch

/-!
# `Transaction.OperatorRuns` — what the operations of transactions come to

A node starts with an empty store and a new log, and transactions send it operations in any interleaving.

* `get_says_log`: a key has in the store the value that the log says, unless a write of it is logged and not stored yet; under
  its lock no request sees such a key.
* `crash_keeps_store`: after a crash, recovery has for each key the value that the store had, if its records are flushed.
* `operations_serializable`: the transactions one after the other read the same values, and leave the same store. This is about
  two-phase transactions; the node gives back no locks of its own, and undoes nothing when a lock is refused.
-/

namespace DDBMS
namespace BenchmarkService

open LogRecord (InRange)
open Lock_manager (Access Operation Serially System SystemOk NoUpgradeBlocks covers compatible someTxns someTxns_injOn)
open Restart (replay)

/-! ## Conditions on the steps -/

/-- The transactions and the other users keep to their sides. -/
def Ok (snappy : Snappy) (used : Finset Nat) (w : World) (e : Event) : Prop := LockOk used w e ∧ StoreOk snappy w e

/-- Recovery can read what is logged: LSNs last, pairs have room in the log buffer, and other users log records that can be
    read back. -/
def LogOk (w : World) (e : Event) : Prop :=
  w.kv.log.appended.length < 2 ^ 31 - 1 ∧
    match e with
    | .log (.append _ r) => Restart.Loggable r
    | .operate p _ => ∀ x ∈ w.requests[p]?, RoomFor x.key x.value
    | _ => True

/-- No other code starts the growing phase, and upgrades do not block. -/
def TwoPhaseOk (nw : Bool) (w : World) : Event → Prop
  | .lock e => e.LeavesGrowing ∧ NoUpgradeBlocks nw w.lock e
  | _ => True

section Steps

variable {snappy : Snappy} {nw : Bool} {used : Finset Nat} {w w' : World} {x : Request} {op : Operation (Option Bytes)}
  {v : Lock_manager.View} {m : Bytes → Option Bytes} {store : Bytes → Option Bytes} {e : Event}

/-- A step is one of the store, or leaves the store alone. -/
theorem kv_step (h : next snappy nw w e = some w') (hok : LogOk w e) :
    w'.kv = w.kv ∨ ∃ e', Guarded KVStore.RecordsOk (FunStep (KVStore.next snappy)) w.kv e' w'.kv := by
  obtain ⟨hlen, hok⟩ := hok
  cases next_cases h with
  | SendOperator | lock | granted | refused | spill | add | finish => exact Or.inl rfl
  | get | search => exact Or.inl (sought_kv ..)
  | put hx hphase hop hkv => exact Or.inr ⟨_, ⟨hlen, hok _ hx⟩, hkv⟩
  | del hx hphase hop hspill hkv | absent hx hphase hop hspill hkv => exact Or.inr ⟨_, ⟨hlen, trivial⟩, hkv⟩
  | @log e kv hkv =>
      refine Or.inr ⟨.log e, ⟨hlen, ?_⟩, hkv⟩
      cases e with
      | append t r => exact hok
      | wake | swap | write | store | reset => trivial
  | wake hkv | store hx hpending hdisk hkv => exact Or.inr ⟨_, ⟨hlen, trivial⟩, hkv⟩

/-- A step is one of the lock manager by two-phase locking, the lock of a new request or what other code does, or leaves it
    alone. -/
theorem lock_step (hserved : Served used w.lock w.requests) (h : next snappy nw w e = some w') (hok : LockOk used w e)
    (hphases : TwoPhaseOk nw w e) : w'.lock = w.lock ∨ w'.accesses = w.accesses ∧
      ∃ e', ((∃ t m l, e' = .lock t m l) ∨ e = .lock e') ∧ Lock_manager.TwoPhaseOk used w.lock e' ∧
        NoUpgradeBlocks nw w.lock e' ∧ Lock_manager.next nw w.lock e' = some w'.lock := by
  cases next_cases h with
  | @SendOperator t op_type key value row_id lock hrow hlock =>
      obtain ⟨ht, hfree⟩ := hok
      have hidle : Lock_manager.SequentialOk w.lock (Lock_manager.LockRow t op_type.mode 0 0 row_id) :=
        hserved.idle t ht hfree
      have hused : (Lock_manager.LockRow t op_type.mode 0 0 row_id).UsedBy used := by
        intro u hu
        obtain rfl : t = u := Option.some.inj hu
        exact ht
      have hup : NoUpgradeBlocks nw w.lock (Lock_manager.LockRow t op_type.mode 0 0 row_id) :=
        fun c hc => absurd hc (Option.not_mem_none c)
      exact Or.inr ⟨rfl, _, Or.inl ⟨_, _, _, rfl⟩, ⟨hused, hidle, trivial⟩, hup, hlock⟩
  | @lock e lock hlock =>
      obtain ⟨hused, hnew, hunlock⟩ := hok
      refine Or.inr ⟨rfl, e, Or.inr rfl, ⟨hused, ?_, hphases.1⟩, hphases.2, hlock⟩
      cases e with
      | lock t m l => exact absurd rfl (hnew t m l)
      | unlock t l => exact hserved.idle t (hused t rfl) (hunlock t l rfl)
      | enter | wake | setState => trivial
  | granted | refused | put | del | absent | log | wake | spill | add | store | finish => exact Or.inl rfl
  | get | search => exact Or.inl (sought_lock ..)

/-- The lock of a key. -/
def path (key : Bytes) : List Lock_data_id :=
  match rowOf key with
  | .ok row_id => [{ oid_ := 0, p_id_ := 0, row_id_ := row_id, type_ := .row }]
  | .error _ => []

/-- The lock of a request permits its operation. -/
theorem permitted_of_has (h : v.Has x.item x.mode) (hrow : rowOf x.key = .ok x.row_id)
    (hop : x.op_type ≠ .Get ∨ ∃ value, op = .read value) : op.permitted v.held (path x.key) = true := by
  obtain ⟨n, hheld, hcovers⟩ := h
  have hpath : path x.key = [x.item] := by
    unfold path
    rw [hrow]
    rfl
  have hcovered : op.coveredBy n = true := by
    rcases hop with hop | ⟨value, rfl⟩
    · have hmode : x.mode = .exlucsive := by
        unfold Request.mode
        cases hx : x.op_type with
        | Get => exact absurd hx hop
        | Put | Del => rfl
      rw [hmode] at hcovers
      have hshared := hcovers .intentionShared
      cases n <;> simp [compatible] at hshared
      cases op <;> rfl
    · -- whatever covers a shared or an exclusive lock excludes intentions to write
      have hnone : compatible n .intentionExclusive = false := by
        rw [Bool.eq_false_iff]
        intro hn
        have := hcovers _ hn
        unfold Request.mode at this
        cases hx : x.op_type <;> rw [hx] at this <;> cases this
      cases n <;> simp [compatible] at hnone <;> rfl
  rw [hpath]
  simp [Operation.permitted, hheld, hcovered]

/-- The locks of the node, and what its store shows. -/
def World.system (w : World) (m : Bytes → Option Bytes) : System Bytes (Option Bytes) := ⟨w.lock, m, w.accesses⟩

/-- **Step lemma.** -/
theorem serial_step (hserved : Served used w.lock w.requests) (h : Serially path used store (w.system m))
    {m' : Bytes → Option Bytes} (hst : next snappy nw w e = some w') (hok : LockOk used w e) (hphases : TwoPhaseOk nw w e)
    (hshows : Shows w w' m m') : Serially path used store (w'.system m') := by
  rcases lock_step hserved hst hok hphases with hlock | ⟨haccesses, e', -, hok', hup, hlock⟩
  · cases hshows with
    | same haccesses hm =>
        unfold World.system at h ⊢
        rw [hlock, haccesses, hm]
        exact h
    | @access x op hx hphase hop hread haccesses happly =>
        have hnext : (System.next nw (w.system m) (.access ⟨x.txn, x.key, op⟩)) = some (w'.system m') := by
          unfold World.system
          rw [hlock, haccesses]
          exact Option.map_eq_some_iff.mpr ⟨m', happly, rfl⟩
        have hhas := ((hserved.standing x hx).has hphase).2
        have hsystem : SystemOk path used nw (w.system m) (.access ⟨x.txn, x.key, op⟩) :=
          ⟨hserved.txns x hx, permitted_of_has hhas (hserved.rows x hx) hop⟩
        exact Lock_manager.serially_step h ⟨hsystem, hnext⟩
  · cases hshows with
    | same _ hm =>
        have hnext : (System.next nw (w.system m) (.lock e')) = some (w'.system m') := by
          unfold World.system
          rw [haccesses, hm]
          exact Option.map_eq_some_iff.mpr ⟨w'.lock, hlock, rfl⟩
        have hsystem : SystemOk path used nw (w.system m) (.lock e') := ⟨hok', hup⟩
        exact Lock_manager.serially_step h ⟨hsystem, hnext⟩
    | access _ _ _ _ hnew _ =>
        have hlen := congrArg List.length (haccesses.symm.trans hnew)
        rw [List.length_append, List.length_singleton] at hlen
        omega

end Steps

/-! ## Runs -/

section Runs

variable {snappy : Snappy} {nw : Bool} {used : Finset Nat} {lockTxns : Nat → DDBMS.Transaction}
  {kvTxns : Nat → KVStore.Transaction} {a b : Vector UInt8 LOG_BUFFER_SIZE} {s₀ : KVStore_beta} {es : List Event} {w : World}

theorem follows_init (hopen : KVStore_beta.new {} = some s₀) :
    Follows snappy (World.init lockTxns kvTxns (LogManager.World.init a b) s₀) fun _ => none where
  told := {
    shows := ⟨{}, represents_empty hopen, fun _ => rfl⟩
    backed := fun p r h => by cases h
    serves := fun p h => absurd rfl h
    pending := fun p key value h => by cases h
    settled := fun key _ => rfl }
  searching := {
    spill := fun s h => by cases h
    searches := fun x hx => absurd hx List.not_mem_nil }

/-- **Run lemma.** -/
theorem follows_run (hinv : snappy.Inverts) (hids : Set.InjOn (fun t => (lockTxns t).txn_id_) (used : Set Nat))
    (hopen : KVStore_beta.new {} = some s₀)
    (h : Run (Guarded (Ok snappy used) (FunStep (next snappy nw)))
      (World.init lockTxns kvTxns (LogManager.World.init a b) s₀) es w) :
    Served used w.lock w.requests ∧ ∃ m, Follows snappy w m := by
  refine h.invariant (I := fun w => Served used w.lock w.requests ∧ ∃ m, Follows snappy w m) ?_
    ⟨served_init hids, _, follows_init hopen⟩
  rintro w e w' ⟨hserved, m, hfollows⟩ ⟨⟨hlock, hstore⟩, hst⟩
  obtain ⟨m', hfollows', -⟩ := follows_step hinv hserved hfollows hstore hst
  exact ⟨served_step hserved hlock hst, m', hfollows'⟩

theorem recoverable_run (hinv : snappy.Inverts) (hopen : KVStore_beta.new {} = some s₀)
    (hprev : ∀ x, InRange (kvTxns x).prev_lsn_)
    (h : Run (Guarded LogOk (FunStep (next snappy nw))) (World.init lockTxns kvTxns (LogManager.World.init a b) s₀) es w) :
    KVStore.Recoverable snappy w.kv := by
  refine h.invariant (I := fun w => KVStore.Recoverable snappy w.kv) ?_ (KVStore.recoverable_init a b hopen hprev)
  rintro w e w' hrec ⟨hok, hst⟩
  rcases kv_step hst hok with heq | ⟨e', hstep⟩
  · rw [heq]
    exact hrec
  · exact KVStore.recoverable_step hinv hrec hstep

end Runs

/-! ### Building runs -/

section Build

variable {snappy : Snappy} {nw : Bool} {w : World} {x : Request} {p ones : Nat} {stale : Nat → UInt8} {kv : KVStore.World}
  {key : Bytes} {value : Option Bytes} {pc : KVStoreReaders.Pc} {no : UInt64} {disk : Disk}

theorem next_granted {c : Nat} (hx : w.requests[p]? = some x) (hphase : x.phase = .locking c)
    (hc : w.lock.calls[c]? = some (.returned true)) : next snappy nw w (.answer p) = some (w.setPhase p x .locked) := by
  simp [next, hx, hphase, hc]

/-- `get` does not find the key in the memtable. -/
theorem next_unlock (hx : w.requests[p]? = some x) (hphase : x.phase = .locked) (hop : x.op_type = .Get)
    (hmutex : w.kv.mutex_ = none) (hspill : w.disk.spill = none) (hcontains : w.kv.store.memtable_.contains x.key = some false) :
    next snappy nw w (.operate p stale) = some (w.setPhase p x (.getting .unlocked)) := by
  have hlook : KVStoreReaders.lookPc w.kv.store x.key = some .unlocked := by
    rw [KVStoreReaders.lookPc, hcontains]
    rfl
  exact next_get hx hphase hop hmutex hspill hlook

/-- The search begins where there is no table. -/
theorem next_begin (hx : w.requests[p]? = some x) (hphase : x.phase = .getting .unlocked) (hssts : w.view.ssts = []) :
    next snappy nw w (.search p no) = some (w.setPhase p x (.getting (.loop 0 0 w.view.buffer))) := by
  have hbegin : KVStoreReaders.searchPc snappy w.view x.key no .unlocked = some (.loop 0 0 w.view.buffer) := by
    rw [KVStoreReaders.searchPc, hssts, List.length_nil]
  exact next_search hx hphase hbegin

/-- The search is at its end. -/
theorem next_leave {i buffer : Nat} (hx : w.requests[p]? = some x) (hphase : x.phase = .getting (.loop i i buffer)) :
    next snappy nw w (.search p no) = some ((w.setPhase p x (.returned true)).access x (.read none)) := by
  have hleave : KVStoreReaders.searchPc snappy w.view x.key no (.loop i i buffer) =
      some (.returned (KVStoreReaders.finalResult (false, []))) := if_neg (Nat.lt_irrefl i)
  exact next_search hx hphase hleave

theorem next_put (hx : w.requests[p]? = some x) (hphase : x.phase = .locked) (hop : x.op_type = .Put)
    (hkv : KVStore.next snappy w.kv (.put p x.txn x.key x.value true) = some kv) :
    next snappy nw w (.operate p stale) = some { w.setPhase p x .storing with kv := kv } := by
  simp [next, operate, hx, hphase, hop, hkv]

/-- A `put` that does not spill. -/
theorem stored_of_small {c : Contents} {k v : Bytes} {lsn : Int} (hspill : w.disk.spill = none)
    (hr : Represents snappy w.kv.store c) (hcall : w.kv.calls p = .putStore k v lsn) (hsmall : ¬ c.Spills k v) :
    w.stored? p ones = some w.disk := by
  obtain ⟨m, hm, hholds⟩ := hr.memtable.put k v ones
  have hspace : ¬ m.space > StorageOption.SSTABLE_SPACE := by
    rw [hholds.space]
    exact hsmall
  have hspills : w.spills p ones = false := by
    unfold World.spills
    rw [hcall]
    simp only [hm, Option.any_some, decide_eq_false_iff_not]
    exact hspace
  unfold World.stored?
  rw [hspill]
  simp [hspills]

/-- The store of a new directory has no tables. -/
theorem view_ssts_empty {c : Contents} (hspill : w.disk.spill = none) (hr : Represents snappy w.kv.store c) (hc : c.ssts = []) :
    w.view.ssts = [] := by
  have htables := hr.disk.tables
  rw [hc] at htables
  rw [view_of_none hspill]
  exact List.forall₂_nil_right_iff.mp htables

theorem next_finish (hx : w.requests[p]? = some x) (hphase : x.phase = .storing) (hidle : w.kv.calls p = .idle) :
    next snappy nw w (.finish p) = some (w.setPhase p x (.returned true)) := by
  simp [next, hx, hphase, hidle]

end Build

/-! ### A run

Transaction 1 reads one key while 0 puts another one, and the record of the put is flushed. -/

/-- The keys `key1` and `key2`. -/
def firstKey : Bytes := [107, 101, 121, 49]

def secondKey : Bytes := [107, 101, 121, 50]

def somePut (phase : Phase) : Request := ⟨0, .Put, firstKey, [55], 1, phase⟩

def someGet (phase : Phase) : Request := ⟨1, .Get, secondKey, [], 2, phase⟩

/-- The record of the put. -/
def someRecord : LogRecord := KVStore.putRecord { txn_id_ := 1 } firstKey [55]

theorem someRecord_sized : someRecord.Sized := (KVStore.putRecord_sized _ (by decide)).1

theorem length_someRecord : someRecord.encode.length = 37 := KVStore.length_putRecord _ (by decide)

def begun (s₀ : KVStore_beta) : World :=
  World.init someTxns (fun _ => { txn_id_ := 1 }) (LogManager.World.init LogManager.zeros LogManager.zeros) s₀

/-- The two requests, with the store in state `kv`. -/
def bothAt (lock : Lock_manager.World) (kv : KVStore.World) (put get : Phase) (accesses : List (Access Bytes (Option Bytes))) :
    World :=
  ⟨lock, kv, {}, [somePut put, someGet get], accesses⟩

/-- All conditions of this module. -/
def AllOk (w : World) (e : Event) : Prop :=
  Ok SnappyLiterals.snappy (Finset.range 3) w e ∧ LogOk w e ∧ TwoPhaseOk true w e

/-- Both transactions get their locks. -/
def lockBoth : List Event :=
  [.SendOperator 0 .Put firstKey [55], .SendOperator 1 .Get secondKey [], .lock (.enter 1), .lock (.enter 0), .answer 1,
    .answer 0]

theorem run_lockBoth (s₀ : KVStore_beta) : ∃ lock,
    Run (Guarded AllOk (FunStep (next SnappyLiterals.snappy true))) (begun s₀) lockBoth
      (bothAt lock (begun s₀).kv .locked .locked []) := by
  have hlog : (begun s₀).kv.log.appended.length < 2 ^ 31 - 1 := by
    show 0 < 2 ^ 31 - 1
    decide
  have hsend : ∀ {w : World} {t : Nat} {op_type : OP_TYPE} {key value : Bytes}, w.kv = (begun s₀).kv → t < 3 →
      Free w.requests t → AllOk w (.SendOperator t op_type key value) := by
    intro w t op_type key value hkv ht hfree
    exact ⟨⟨⟨Finset.mem_range.mpr ht, hfree⟩, trivial⟩, ⟨by rw [hkv]; exact hlog, trivial⟩, trivial⟩
  have henter : ∀ {w : World} {c : Nat}, w.kv = (begun s₀).kv → AllOk w (.lock (.enter c)) := by
    intro w c hkv
    have hlock : LockOk (Finset.range 3) w (.lock (.enter c)) := by
      refine ⟨?_, ?_, ?_⟩
      · intro t ht
        cases ht
      · intro t m l h
        cases h
      · intro t l h
        cases h
    exact ⟨⟨hlock, trivial⟩, ⟨by rw [hkv]; exact hlog, trivial⟩, trivial, fun _ _ _ _ _ _ => Or.inl rfl⟩
  have hanswer : ∀ {w : World} {p : Nat}, w.kv = (begun s₀).kv → AllOk w (.answer p) :=
    fun hkv => ⟨⟨trivial, trivial⟩, ⟨by rw [hkv]; exact hlog, trivial⟩, trivial⟩
  have hfree : Free [somePut (.locking 0)] 1 := by
    intro x hx _
    rw [List.mem_singleton.mp hx]
    decide
  exact ⟨_, Run.cons ⟨hsend rfl (by decide) (fun x hx => absurd hx List.not_mem_nil), rfl⟩
    (Run.cons ⟨hsend rfl (by decide) hfree, rfl⟩ (Run.cons ⟨henter rfl, rfl⟩ (Run.cons ⟨henter rfl, rfl⟩
      (Run.cons ⟨hanswer rfl, rfl⟩ (Run.single ⟨hanswer rfl, rfl⟩)))))⟩

/-- The put comes to the store. -/
theorem run_put {s₀ : KVStore_beta} (hopen : KVStore_beta.new {} = some s₀) : ∃ kv kv',
    KVStore.next SnappyLiterals.snappy (begun s₀).kv (.put 0 0 firstKey [55] true) = some kv ∧
      KVStore.next SnappyLiterals.snappy kv (.store 0 0) = some kv' ∧ kv.calls 0 = .putStore firstKey [55] 0 ∧
      kv.store = s₀ ∧ kv.log = (begun s₀).kv.log.appendNow 0 someRecord ∧ kv'.log = kv.log ∧ ∀ p, kv'.calls p = .idle := by
  have hr : Represents SnappyLiterals.snappy s₀ {} := represents_empty hopen
  obtain ⟨happend, hquiet⟩ := LogManager.next_append (t := 0) (LogManager.inv_init LogManager.zeros LogManager.zeros)
    (LogManager.quiet_init _ _) someRecord_sized (by rw [length_someRecord, LOG_BUFFER_SIZE_eq]; decide)
  obtain ⟨m, hm, -⟩ := hr.memtable.put firstKey [55] 0
  obtain ⟨s, hs⟩ := hr.put_isSome SnappyLiterals.grows firstKey [55] 0 (by decide)
  obtain ⟨kv, kv', hput, hstore, hlog, hs₀, hcalls, hlog', -, hidle⟩ :=
    KVStore.put_steps (w := (begun s₀).kv) (x := 0) rfl rfl happend (congrFun hquiet.waiting 0) hm hs true
  refine ⟨kv, kv', hput, hstore, hcalls 0, hs₀, hlog, hlog'.trans hlog.symm, fun p => ?_⟩
  rw [hidle]
  split <;> rfl

/-- Transaction 1 has begun its search when 0 puts its key. -/
def overlap : List Event := [.operate 1 fun _ => 0, .operate 0 fun _ => 0, .search 1 0, .store 0 0]

theorem run_overlap {s₀ : KVStore_beta} (hopen : KVStore_beta.new {} = some s₀) (lock : Lock_manager.World) :
    ∃ kv, Run (Guarded AllOk (FunStep (next SnappyLiterals.snappy true))) (bothAt lock (begun s₀).kv .locked .locked [])
        overlap (bothAt lock kv .storing (.getting (.loop 0 0 0)) [⟨0, firstKey, .write (some [55])⟩]) ∧
      kv.log = (begun s₀).kv.log.appendNow 0 someRecord ∧ ∀ p, kv.calls p = .idle := by
  have hr : Represents SnappyLiterals.snappy s₀ {} := represents_empty hopen
  obtain ⟨kv, kv', hput, hstore, hcall, hs₀, hlog, hlog', hidle⟩ := run_put hopen
  have hrkv : Represents SnappyLiterals.snappy kv.store {} := by
    rw [hs₀]
    exact hr
  have hpending : pending? (kv.calls 0) = some (firstKey, some [55]) := by rw [hcall]; rfl
  have h₁ : next SnappyLiterals.snappy true (bothAt lock (begun s₀).kv .locked .locked []) (.operate 1 fun _ => 0) =
      some (bothAt lock (begun s₀).kv .locked (.getting .unlocked) []) :=
    next_unlock (x := someGet .locked) rfl rfl rfl rfl rfl (hr.memtable.contains secondKey)
  have h₂ : next SnappyLiterals.snappy true (bothAt lock (begun s₀).kv .locked (.getting .unlocked) [])
      (.operate 0 fun _ => 0) = some (bothAt lock kv .storing (.getting .unlocked) []) :=
    next_put (x := somePut .locked) rfl rfl rfl hput
  have h₃ : next SnappyLiterals.snappy true (bothAt lock kv .storing (.getting .unlocked) []) (.search 1 0) =
      some (bothAt lock kv .storing (.getting (.loop 0 0 0)) []) :=
    next_begin (x := someGet (.getting .unlocked)) rfl rfl (view_ssts_empty rfl hrkv rfl)
  have hdisk : (bothAt lock kv .storing (.getting (.loop 0 0 0)) []).stored? 0 0 = some {} :=
    stored_of_small rfl hrkv hcall (by decide)
  have h₄ : next SnappyLiterals.snappy true (bothAt lock kv .storing (.getting (.loop 0 0 0)) []) (.store 0 0) =
      some (bothAt lock kv' .storing (.getting (.loop 0 0 0)) [⟨0, firstKey, .write (visible (some [55]))⟩]) :=
    next_store (x := somePut .storing) rfl hpending hdisk hstore
  have hlen : (begun s₀).kv.log.appended.length < 2 ^ 31 - 1 := by
    show 0 < 2 ^ 31 - 1
    decide
  have hlen' : kv.log.appended.length < 2 ^ 31 - 1 := by
    rw [hlog]
    show 1 < 2 ^ 31 - 1
    decide
  -- the requests are small
  have hsmall : ∀ {w : World} {x : Request} {p : Nat}, w.kv = (begun s₀).kv → w.requests[p]? = some x →
      x.key.length + x.value.length ≤ 8 → AllOk w (.operate p fun _ => 0) := by
    intro w x p hw hx hle
    have hsize := LOG_BUFFER_SIZE_eq
    have hroom : ∀ y ∈ w.requests[p]?, RoomFor y.key y.value := by
      intro y hy
      obtain rfl := Option.some.inj (hx.symm.trans hy)
      unfold RoomFor
      omega
    refine ⟨⟨trivial, fun y hy => ?_⟩, ⟨by rw [hw]; exact hlen, hroom⟩, trivial⟩
    have := hroom y hy
    unfold RoomFor at this
    omega
  have hsearch : StoreOk SnappyLiterals.snappy (bothAt lock kv .storing (.getting .unlocked) []) (.search 1 0) := by
    intro x hx pc hphase
    obtain rfl := Option.some.inj hx
    obtain rfl := Phase.getting.inj hphase
    trivial
  have hspill : StoreOk SnappyLiterals.snappy (bothAt lock kv .storing (.getting (.loop 0 0 0)) []) (.store 0 0) := by
    unfold StoreOk bothAt
    dsimp only
    rw [hcall]
    exact KVStore_beta.stepOk_put (c := {}) hrkv (by decide) 0
  exact ⟨kv', Run.cons ⟨hsmall rfl rfl (by decide), h₁⟩ (Run.cons ⟨hsmall rfl rfl (by decide), h₂⟩
    (Run.cons ⟨⟨⟨trivial, hsearch⟩, ⟨hlen', trivial⟩, trivial⟩, h₃⟩
      (Run.single ⟨⟨⟨trivial, hspill⟩, ⟨hlen', trivial⟩, trivial⟩, h₄⟩))), hlog'.trans hlog, hidle⟩

/-- The search comes to its end. -/
theorem guarded_leave (lock : Lock_manager.World) {kv : KVStore.World} (put : Phase)
    (accesses : List (Access Bytes (Option Bytes))) (hlen : kv.log.appended.length < 2 ^ 31 - 1) :
    Guarded AllOk (FunStep (next SnappyLiterals.snappy true)) (bothAt lock kv put (.getting (.loop 0 0 0)) accesses) (.search 1 0)
      (bothAt lock kv put (.returned true) (accesses ++ [⟨1, secondKey, .read none⟩])) := by
  refine ⟨⟨⟨trivial, ?_⟩, ⟨hlen, trivial⟩, trivial⟩, next_leave (x := someGet (.getting (.loop 0 0 0))) rfl rfl⟩
  intro x hx pc hphase
  obtain rfl := Option.some.inj hx
  obtain rfl := Phase.getting.inj hphase
  exact fun hlast => absurd hlast (Nat.lt_irrefl 0)

/-- Transaction 1 reads its key, and 0 puts its one. -/
def operateBoth : List Event := overlap ++ [.search 1 0, .finish 0]

theorem run_operateBoth {s₀ : KVStore_beta} (hopen : KVStore_beta.new {} = some s₀) (lock : Lock_manager.World) :
    ∃ kv, Run (Guarded AllOk (FunStep (next SnappyLiterals.snappy true))) (bothAt lock (begun s₀).kv .locked .locked [])
        operateBoth
        (bothAt lock kv (.returned true) (.returned true) [⟨0, firstKey, .write (some [55])⟩, ⟨1, secondKey, .read none⟩]) ∧
      kv.log = (begun s₀).kv.log.appendNow 0 someRecord ∧ ∀ p, kv.calls p = .idle := by
  obtain ⟨kv, hrun, hlog, hidle⟩ := run_overlap hopen lock
  have hlen : kv.log.appended.length < 2 ^ 31 - 1 := by
    rw [hlog]
    show 1 < 2 ^ 31 - 1
    decide
  have hfinish : next SnappyLiterals.snappy true
      (bothAt lock kv .storing (.returned true) [⟨0, firstKey, .write (some [55])⟩, ⟨1, secondKey, .read none⟩]) (.finish 0) =
        some (bothAt lock kv (.returned true) (.returned true)
          [⟨0, firstKey, .write (some [55])⟩, ⟨1, secondKey, .read none⟩]) :=
    next_finish (x := somePut .storing) rfl rfl (hidle 0)
  exact ⟨kv, hrun.append (Run.cons (guarded_leave _ _ _ hlen)
    (Run.single ⟨⟨⟨trivial, trivial⟩, ⟨hlen, trivial⟩, trivial⟩, hfinish⟩)), hlog, hidle⟩

/-- The log is flushed. -/
def flush : List Event := [.log .swap, .log .write, .log .store, .log .reset]

theorem run_flush {w : World} (hlog : w.kv.log = (LogManager.World.init LogManager.zeros LogManager.zeros).appendNow 0 someRecord) :
    ∃ log, Run (Guarded AllOk (FunStep (next SnappyLiterals.snappy true))) w flush { w with kv := { w.kv with log := log } } ∧
      LogManager.Quiet log 0 ∧ log.appended = [someRecord.SetLsn 0] ∧ log.mgr.persistent_lsn_ = 0 := by
  obtain ⟨-, hquiet⟩ := LogManager.next_append (t := 0) (LogManager.inv_init LogManager.zeros LogManager.zeros)
    (LogManager.quiet_init _ _) someRecord_sized (by rw [length_someRecord, LOG_BUFFER_SIZE_eq]; decide)
  rw [← hlog] at hquiet
  obtain ⟨w₁, w₂, w₃, w₄, h₁, h₂, h₃, h₄, hquiet', happended, -, hpersistent⟩ :=
    LogManager.flush_steps hquiet (by rw [length_someRecord]; decide)
  have hone : w.kv.log.appended = [someRecord.SetLsn 0] := by
    rw [hlog]
    rfl
  have hzero : w.kv.log.mgr.next_lsn_ = 1 := by
    rw [hlog]
    rfl
  have hstep : ∀ {e : LogManager.Event} {log log' : LogManager.World}, e.Flushes → log.appended = [someRecord.SetLsn 0] →
      LogManager.next log e = some log' → Guarded AllOk (FunStep (next SnappyLiterals.snappy true))
        { w with kv := { w.kv with log := log } } (.log e) { w with kv := { w.kv with log := log' } } := by
    intro e log log' he hlen hst
    have hthread : KVStore.logThread e = none := by
      cases e with
      | append | wake => exact he.elim
      | swap | write | store | reset => rfl
    refine ⟨⟨⟨trivial, ?_⟩, ⟨?_, ?_⟩, trivial⟩,
      Option.map_eq_some_iff.mpr ⟨_, KVStore.next_log (w := { w.kv with log := log }) hthread hst, rfl⟩⟩
    · cases e with
      | append => exact he.elim
      | wake | swap | write | store | reset => trivial
    · show log.appended.length < _
      rw [hlen]
      show 1 < 2 ^ 31 - 1
      decide
    · cases e with
      | append => exact he.elim
      | wake | swap | write | store | reset => trivial
  have ha₁ := (LogManager.flush_frame h₁ trivial).1.trans hone
  have ha₂ := (LogManager.flush_frame h₂ trivial).1.trans ha₁
  have ha₃ := (LogManager.flush_frame h₃ trivial).1.trans ha₂
  refine ⟨w₄, Run.cons (hstep trivial hone h₁) (Run.cons (hstep trivial ha₁ h₂) (Run.cons (hstep trivial ha₂ h₃)
    (Run.single (hstep trivial ha₃ h₄)))), hquiet', happended.trans hone, ?_⟩
  rw [hpersistent, hzero]
  decide

/-- Both transactions operate, and the record is flushed. -/
def putAndGet : List Event := lockBoth ++ (operateBoth ++ flush)

theorem run_putAndGet : ∃ s₀ w, KVStore_beta.new {} = some s₀ ∧
    Run (Guarded AllOk (FunStep (next SnappyLiterals.snappy true))) (begun s₀) putAndGet w ∧
      (∀ p, w.kv.calls p = .idle) ∧ w.accesses = [⟨0, firstKey, .write (some [55])⟩, ⟨1, secondKey, .read none⟩] ∧
      w.kv.log.appended = [someRecord.SetLsn 0] ∧ w.kv.log.mgr.persistent_lsn_ = 0 ∧
      Restart.FileOk { log := w.kv.log } 0 := by
  obtain ⟨s₀, hopen⟩ : ∃ s₀, KVStore_beta.new {} = some s₀ := ⟨_, rfl⟩
  obtain ⟨lock, hlock⟩ := run_lockBoth s₀
  obtain ⟨kv, hoperate, hlog, hidle⟩ := run_operateBoth hopen lock
  obtain ⟨log, hflush, hquiet, happended, hpersistent⟩ := run_flush (w := bothAt lock kv (.returned true) (.returned true) _) hlog
  have hrun := hlock.append (hoperate.append hflush)
  have hrec := recoverable_run SnappyLiterals.inverts hopen (fun _ => by decide) (hrun.mono fun _ _ _ hg => ⟨hg.1.2.1, hg.2⟩)
  refine ⟨s₀, _, hopen, hrun, hidle, rfl, happended, hpersistent,
    Restart.fileOk_flushed hrec.log hquiet ?_ ?_⟩
  · rw [happended, RecoveryManager.sizesOf, List.map_singleton, LogRecord.length_encode_setLsn, length_someRecord]
    decide
  · rw [happended, RecoveryManager.bytesOf_cons, RecoveryManager.bytesOf_nil, List.append_nil,
      LogRecord.length_encode_setLsn, length_someRecord]
    decide

/-! ## Results -/

section Results

variable {snappy : Snappy} {nw : Bool} {used : Finset Nat} {lockTxns : Nat → DDBMS.Transaction}
  {kvTxns : Nat → KVStore.Transaction} {a b : Vector UInt8 LOG_BUFFER_SIZE} {s₀ : KVStore_beta} {es : List Event} {w : World}

theorem settled_of_idle {w : World} (h : ∀ p, w.kv.calls p = .idle) (key : Bytes) :
    ∀ p value, pending? (w.kv.calls p) ≠ some (key, value) := by
  intro p value hp
  rw [h p] at hp
  cases hp

/-- **The store follows the log.** A key has the value that the log says, if no write of it is between its record and the store,
    or if a request has its lock and is about to operate or searches for it. And an operation reads the value that the log says,
    whatever its search has overlapped. -/
theorem get_says_log (hinv : snappy.Inverts) (hids : Set.InjOn (fun t => (lockTxns t).txn_id_) (used : Set Nat))
    (hopen : KVStore_beta.new {} = some s₀)
    (h : Run (Guarded (Ok snappy used) (FunStep (next snappy nw)))
      (World.init lockTxns kvTxns (LogManager.World.init a b) s₀) es w) :
    (∀ key, (∀ p value, pending? (w.kv.calls p) ≠ some (key, value)) ∨
        (∃ x ∈ w.requests, (x.phase = .locked ∨ ∃ pc, x.phase = .getting pc) ∧ x.key = key) →
      w.kv.store.get snappy key = some (lookupResult (visible (replay w.kv.log.appended key)))) ∧
    ∀ e w' t key value, Guarded (Ok snappy used) (FunStep (next snappy nw)) w e w' →
      w'.accesses = w.accesses ++ [⟨t, key, .read value⟩] → value = visible (replay w.kv.log.appended key) := by
  obtain ⟨hserved, m, hfollows⟩ := follows_run hinv hids hopen h
  refine ⟨fun key hkey => ?_, fun e w' t key value hst hread => ?_⟩
  · have hsettled : ∀ p value, pending? (w.kv.calls p) ≠ some (key, value) := by
      rcases hkey with hkey | ⟨x, hx, hphase | ⟨pc, hphase⟩, rfl⟩
      · exact hkey
      · exact fun q value => hfollows.told.not_pending hserved hx (by rw [hphase]; rfl) (by rw [hphase]; exact Phase.noConfusion)
      · exact fun q value => hfollows.told.not_pending hserved hx (by rw [hphase]; rfl) (by rw [hphase]; exact Phase.noConfusion)
    rw [hfollows.told.get hinv, hfollows.told.settled key hsettled]
  · obtain ⟨m', -, hshows⟩ := follows_step hinv hserved hfollows hst.1.2 hst.2
    cases hshows with
    | same haccesses hm =>
        have hlen := congrArg List.length (haccesses.symm.trans hread)
        rw [List.length_append, List.length_singleton] at hlen
        omega
    | @access x op hx hphase hop hstoring haccesses happly =>
        obtain ⟨rfl, rfl, rfl⟩ :=
          Access.mk.inj (List.singleton_inj.mp (List.append_cancel_left (haccesses.symm.trans hread)))
        rw [← hfollows.told.settled x.key fun q value => hfollows.told.not_pending hserved hx hphase (hstoring ⟨_, rfl⟩)]
        by_contra hne
        simp [Access.apply, Ne.symm hne] at happly

theorem get_says_log_overlap : ∃ s₀ w w', KVStore_beta.new {} = some s₀ ∧
    Run (Guarded (Ok SnappyLiterals.snappy (Finset.range 3)) (FunStep (next SnappyLiterals.snappy true))) (begun s₀)
      (lockBoth ++ overlap) w ∧
    w.kv.store.get SnappyLiterals.snappy firstKey = some (lookupResult (visible (replay w.kv.log.appended firstKey))) ∧
    next SnappyLiterals.snappy true w (.search 1 0) = some w' ∧ w'.accesses = w.accesses ++ [⟨1, secondKey, .read none⟩] ∧
    none = visible (replay w.kv.log.appended secondKey) := by
  obtain ⟨s₀, hopen⟩ : ∃ s₀, KVStore_beta.new {} = some s₀ := ⟨_, rfl⟩
  obtain ⟨lock, hlock⟩ := run_lockBoth s₀
  obtain ⟨kv, hoverlap, hlog, hidle⟩ := run_overlap hopen lock
  have hleave := guarded_leave lock .storing [⟨0, firstKey, .write (some [55])⟩]
    (show kv.log.appended.length < 2 ^ 31 - 1 by rw [hlog]; show 1 < 2 ^ 31 - 1; decide)
  have hrun : Run (Guarded (Ok SnappyLiterals.snappy (Finset.range 3)) (FunStep (next SnappyLiterals.snappy true))) (begun s₀)
      (lockBoth ++ overlap) _ := (hlock.append hoverlap).mono fun _ _ _ hg => ⟨hg.1.1, hg.2⟩
  obtain ⟨hstore, hreads⟩ := get_says_log SnappyLiterals.inverts someTxns_injOn hopen hrun
  exact ⟨s₀, _, _, hopen, hrun, hstore firstKey (Or.inl (settled_of_idle hidle _)), hleave.2, rfl,
    hreads _ _ _ _ _ ⟨hleave.1.1, hleave.2⟩ rfl⟩

/-- **A crash keeps the store.** Recovery has for each key whose records are flushed the value that the store had, if no write of
    the key was between its record and the store. -/
theorem crash_keeps_store (hinv : snappy.Inverts) (hids : Set.InjOn (fun t => (lockTxns t).txn_id_) (used : Set Nat))
    (hopen : KVStore_beta.new {} = some s₀) (hprev : ∀ x, InRange (kvTxns x).prev_lsn_)
    (h : Run (Guarded (fun w e => Ok snappy used w e ∧ LogOk w e) (FunStep (next snappy nw)))
      (World.init lockTxns kvTxns (LogManager.World.init a b) s₀) es w) {k : Nat} (hfile : Restart.FileOk { log := w.kv.log } k)
    (log_buffer flush_buffer buffer : Vector UInt8 LOG_BUFFER_SIZE) :
    ∃ w', Restart.next { log := w.kv.log } (.crash k log_buffer flush_buffer buffer) = some w' ∧
      ∀ key, (∀ r ∈ w.kv.log.appended, r.IsTuple → r.key = key → r.lsn_ ≤ w.kv.log.mgr.persistent_lsn_) →
        (∀ p value, pending? (w.kv.calls p) ≠ some (key, value)) →
        w.kv.store.get snappy key = some (lookupResult (visible (w'.kv_ key))) := by
  obtain ⟨-, m, hfollows⟩ := follows_run hinv hids hopen (h.mono fun _ _ _ hg => ⟨hg.1.1, hg.2⟩)
  have hrec := recoverable_run hinv hopen hprev (h.mono fun _ _ _ hg => ⟨hg.1.2, hg.2⟩)
  obtain ⟨d, hd⟩ := hrec.abstracts
  obtain ⟨w', hnext, hreplay⟩ := Restart.crash_replay hrec.log hd hfile log_buffer flush_buffer buffer
  refine ⟨w', hnext, ?_⟩
  intro key hflushed hsettled
  rw [hfollows.told.get hinv, hfollows.told.settled key hsettled, hreplay key hflushed]

theorem crash_keeps_store_putAndGet : ∃ s₀ w w', KVStore_beta.new {} = some s₀ ∧
    Run (Guarded (fun w e => Ok SnappyLiterals.snappy (Finset.range 3) w e ∧ LogOk w e)
      (FunStep (next SnappyLiterals.snappy true))) (begun s₀) putAndGet w ∧
      Restart.next { log := w.kv.log } (.crash 0 LogManager.zeros LogManager.zeros LogManager.zeros) = some w' ∧
      w.kv.store.get SnappyLiterals.snappy firstKey = some (lookupResult (visible (w'.kv_ firstKey))) := by
  obtain ⟨s₀, w, hopen, hrun, hidle, -, happended, hpersistent, hfile⟩ := run_putAndGet
  have hok : Run (Guarded (fun w e => Ok SnappyLiterals.snappy (Finset.range 3) w e ∧ LogOk w e)
      (FunStep (next SnappyLiterals.snappy true))) (begun s₀) putAndGet w :=
    hrun.mono fun _ _ _ hg => ⟨⟨hg.1.1, hg.1.2.1⟩, hg.2⟩
  have hprev : InRange INVALID_LSN := by decide
  obtain ⟨w', hnext, hkeeps⟩ := crash_keeps_store SnappyLiterals.inverts someTxns_injOn hopen (fun _ => hprev) hok hfile
    LogManager.zeros LogManager.zeros LogManager.zeros
  refine ⟨s₀, w, w', hopen, hok, hnext, hkeeps firstKey ?_ (settled_of_idle hidle _)⟩
  intro r hr _ _
  rw [happended] at hr
  rw [List.mem_singleton.mp hr, hpersistent]
  exact Int.le_refl 0

/-- **Serializability.** There is an order of the transactions in which, one after the other, their operations read what they
    have read, from an empty store on, and make the store that the node has. -/
theorem operations_serializable (hinv : snappy.Inverts) (hids : Set.InjOn (fun t => (lockTxns t).txn_id_) (used : Set Nat))
    (hopen : KVStore_beta.new {} = some s₀)
    (h : Run (Guarded (fun w e => Ok snappy used w e ∧ TwoPhaseOk nw w e) (FunStep (next snappy nw)))
      (World.init lockTxns kvTxns (LogManager.World.init a b) s₀) es w) :
    ∃ order : List Nat, order.Nodup ∧ (∀ a ∈ w.accesses, a.t ∈ order) ∧
      ∃ m, Serial.execute Access.apply (Serial.serial Access.t order w.accesses) (fun _ => none) = some m ∧
        ∀ key, w.kv.store.get snappy key = some (lookupResult (m key)) := by
  obtain ⟨-, m, hfollows, hserial⟩ := h.invariant (I := fun w => Served used w.lock w.requests ∧ ∃ m,
      Follows snappy w m ∧ Serially path used (fun _ => none) (w.system m)) (by
    rintro w e w' ⟨hserved, m, hfollows, hserial⟩ ⟨⟨⟨hlock, hstore⟩, hphases⟩, hst⟩
    obtain ⟨m', hfollows', hshows⟩ := follows_step hinv hserved hfollows hstore hst
    exact ⟨served_step hserved hlock hst, m', hfollows', serial_step hserved hserial hst hlock hphases hshows⟩)
    ⟨served_init hids, _, follows_init hopen, Lock_manager.serially_init hids _⟩
  obtain ⟨order, hnodup, howners, hexecute⟩ := hserial.serial_order
  exact ⟨order, hnodup, howners, m, hexecute, fun key => hfollows.told.get hinv key⟩

theorem operations_serializable_putAndGet : ∃ s₀ w, KVStore_beta.new {} = some s₀ ∧
    Run (Guarded (fun w e => Ok SnappyLiterals.snappy (Finset.range 3) w e ∧ TwoPhaseOk true w e)
      (FunStep (next SnappyLiterals.snappy true))) (begun s₀) putAndGet w ∧
      w.accesses = [⟨0, firstKey, .write (some [55])⟩, ⟨1, secondKey, .read none⟩] ∧
      ∃ order : List Nat, order.Nodup ∧ (∀ a ∈ w.accesses, a.t ∈ order) ∧
        ∃ m, Serial.execute Access.apply (Serial.serial Access.t order w.accesses) (fun _ => none) = some m ∧
          ∀ key, w.kv.store.get SnappyLiterals.snappy key = some (lookupResult (m key)) := by
  obtain ⟨s₀, w, hopen, hrun, -, haccesses, -⟩ := run_putAndGet
  have hok : Run (Guarded (fun w e => Ok SnappyLiterals.snappy (Finset.range 3) w e ∧ TwoPhaseOk true w e)
      (FunStep (next SnappyLiterals.snappy true))) (begun s₀) putAndGet w :=
    hrun.mono fun _ _ _ hg => ⟨⟨hg.1.1, hg.1.2.2⟩, hg.2⟩
  exact ⟨s₀, w, hopen, hok, haccesses, operations_serializable SnappyLiterals.inverts someTxns_injOn hopen hok⟩

end Results

end BenchmarkService
end DDBMS
