import DDBMS.Recovery.RedoStore

/-!
# `Recovery.StoreReplay` — the store through any number of crashes

`put` stores what its record says, `del` stores what its record says, and a `del` that finds nothing logs nothing. So the store is
what `Redo` makes of the log (`Follows`), whether it answers like a map or not, as long as the calls store in the order in which
they have logged (`InTurn`): behind its record a call stores before the next one logs.

A crash leaves a prefix of the log, and the next process goes on with the store that `Redo` builds of it. So it does through any
number of crashes (`store_is_redone`), and a crash after a flush gives the same store back: the same tables, byte for byte, and
the same pairs in the memtable (`crash_rebuilds`).
-/

namespace DDBMS
namespace StoreReplay

open KVStore (Call found RecordsOk Recoverable putRecord delRecord logThread afterPutLog_calls afterDelLog_calls)
open KVStore_beta (Same same_new)
open LogManager (Logs SameWaits logs_append logs_wake)
open LogRecord (InRange)
open RecoveryManager (redoStore redoAll Redoes AllEnd complete)

/-! ## The system -/

inductive Event where
  | kv (e : KVStore.Event)
  /-- the process dies `k` bytes into a write, and the next one recovers in a new directory, with three buffers of unknown
      contents, some height draws, and some new transactions -/
  | crash (k : Nat) (log_buffer flush_buffer buffer : Vector UInt8 LOG_BUFFER_SIZE) (heights : List Nat)
      (ids : Nat → txn_id_t)

def next (snappy : Snappy) (w : KVStore.World) : Event → Option KVStore.World
  | .kv e => KVStore.next snappy w e
  | .crash k log_buffer flush_buffer buffer heights ids => do
    let w' ← Restart.next { log := w.log } (.crash k log_buffer flush_buffer buffer)
    let store ← KVStore_beta.new {}
    -- the log of the new process has the records that `RedoLog` has been called with
    let store ← redoAll snappy store (w'.log.appended.zip heights)
    some (KVStore.World.init w'.log store fun x => { txn_id_ := ids x })

/-- The call has logged, and comes to the memtable next. -/
def Storing : Call → Prop
  | .putStore _ _ _ | .delStore _ _ _ => True
  | .idle | .putLog _ _ _ _ | .delLog _ _ _ _ _ => False

/-- A call logs when no other is between its record and the store, and other users of the log write no operations. -/
def InTurn (w : KVStore.World) : KVStore.Event → Prop
  | .put _ _ _ _ _ | .del _ _ _ _ _ | .wake _ => ∀ u, ¬ Storing (w.calls u)
  | .log (.append _ r) => ¬ r.IsTuple
  | .log _ | .store _ _ => True

/-- The conditions of `CrashStore` and `InTurn`. At a crash the transactions have ended, in the part of the log that is left. -/
def Ok (w : KVStore.World) : Event → Prop
  | .kv e => RecordsOk w e ∧ InTurn w e
  | .crash k _ _ _ heights _ => Restart.FileOk { log := w.log } k ∧ w.log.appended.length ≤ heights.length ∧
      AllEnd (complete (Restart.World.crashFile { log := w.log } k).length w.log.appended)

/-! ## The invariant -/

/-- The record is that of the call; who is in no call logs no operation. -/
def RecordOf (r : LogRecord) : Call → Prop
  | .idle => ¬ r.IsTuple
  | .putLog _ key value _ | .putStore key value _ => r.log_type_ = .INSERT ∧ r.key = key ∧ r.value = value
  | .delLog _ key _ _ _ | .delStore key _ _ => r.log_type_ = .DELETE ∧ r.key = key

/-- The key that `del` has looked up, and whether it is in the memtable. -/
def deletes? : Call → Option (Bytes × Bool)
  | .delLog _ key _ inMem _ => some (key, inMem)
  | .delStore key inMem _ => some (key, inMem)
  | .idle | .putLog _ _ _ _ | .putStore _ _ _ => none

/-- The store is what `Redo` makes of the log, but for the record of a call that is yet to store. -/
inductive Follows (snappy : Snappy) (w : KVStore.World) : Prop where
  | stored (hnone : ∀ u, ¬ Storing (w.calls u)) (hredo : Redoes snappy w.log.appended w.store)
  | storing {t : Nat} {pre post : List LogRecord} {r : LogRecord} (halone : ∀ u, Storing (w.calls u) ↔ u = t)
      (happended : w.log.appended = pre ++ r :: post) (hrecord : RecordOf r (w.calls t)) (hpost : ∀ s ∈ post, ¬ s.IsTuple)
      (hredo : Redoes snappy pre w.store)

structure Replayed (snappy : Snappy) (w : KVStore.World) : Prop where
  waits : ∀ t r, w.log.waiting t = some r → ¬ Storing (w.calls t) ∧ RecordOf r (w.calls t)
  /-- `del` holds `mutex_`, so what it has looked up stays -/
  deletes : ∀ t key inMem, deletes? (w.calls t) = some (key, inMem) →
    w.mutex_ = some t ∧ ∃ value, found snappy w.store key = some (some (inMem, value))
  follows : Follows snappy w

section Step

variable {snappy : Snappy} {w w' : KVStore.World} {log : LogManager.World} {t x : Nat} {r : LogRecord} {c : Call}
  {key value : Bytes} {inMem add_writeset : Bool} {store : KVStore_beta} {ones : Nat}

theorem recordOf_setLsn (lsn : Int) : RecordOf (r.SetLsn lsn) c ↔ RecordOf r c := by
  cases c <;> exact Iff.rfl

theorem recordOf_put {txn : KVStore.Transaction} (hroom : RoomFor key value) (y : Nat) (b : Bool) :
    RecordOf (putRecord txn key value) (.putLog y key value b) := by
  have hsize := LOG_BUFFER_SIZE_eq
  unfold RoomFor at hroom
  rw [← recordOf_setLsn INVALID_LSN]
  exact ⟨rfl, LogRecord.key_ofStrings (by omega), LogRecord.value_ofStrings (by omega)⟩

theorem recordOf_del {txn : KVStore.Transaction} {stale : Nat → UInt8} (hroom : RoomFor key value) (y : Nat) (b : Bool) :
    RecordOf (delRecord txn key value inMem stale) (.delLog y key value inMem b) := by
  have hsize := LOG_BUFFER_SIZE_eq
  unfold RoomFor at hroom
  rw [← recordOf_setLsn INVALID_LSN]
  exact ⟨rfl, LogRecord.key_ofStrings (by omega)⟩

theorem Follows.of_none (h : Follows snappy w) (hnone : ∀ u, ¬ Storing (w.calls u)) : Redoes snappy w.log.appended w.store := by
  cases h with
  | stored _ hredo => exact hredo
  | storing halone => exact absurd ((halone _).mpr rfl) (hnone _)

/-! ### The log -/

/-- A thread that is in no call hands a record to the log. -/
theorem Replayed.idle (h : Replayed snappy w) (ht : w.calls t = .idle) (hr : ¬ r.IsTuple) (hlogs : Logs w.log log t r)
    (hsame : SameWaits w.log log t) : Replayed snappy { w with log := log } where
  waits u s hs := by
    by_cases hu : u = t
    · subst hu
      show ¬ Storing (w.calls u) ∧ RecordOf s (w.calls u)
      rw [ht]
      cases hlogs with
      | waits hwait =>
          obtain rfl := Option.some.inj (hwait.symm.trans hs)
          exact ⟨id, hr⟩
      | appends hwait => nomatch hwait.symm.trans hs
    · exact h.waits u s ((hsame u hu).symm.trans hs)
  deletes := h.deletes
  follows := by
    have hsilent : ∀ lsn, ∀ s ∈ [r.SetLsn lsn], ¬ s.IsTuple := by
      intro lsn s hs
      rw [List.mem_singleton.mp hs]
      exact hr
    cases hlogs with
    | waits _ happended =>
        cases h.follows with
        | stored hnone hredo => exact .stored hnone (by rw [happended]; exact hredo)
        | storing halone hsplit hrecord hpost hredo => exact .storing halone (happended.trans hsplit) hrecord hpost hredo
    | appends _ lsn happended =>
        cases h.follows with
        | stored hnone hredo => exact .stored hnone (by rw [happended]; exact hredo.silent (hsilent lsn))
        | @storing t' pre post r' halone hsplit hrecord hpost hredo =>
            have hsplit' : log.appended = pre ++ r' :: (post ++ [r.SetLsn lsn]) := by
              rw [happended, hsplit, List.append_assoc, List.cons_append]
            refine .storing halone hsplit' hrecord (fun s hs => ?_) hredo
            rcases List.mem_append.mp hs with hs | hs
            · exact hpost s hs
            · exact hsilent lsn s hs

/-- **A step of the log** by the flush thread or another user. -/
theorem Replayed.logStep {e : LogManager.Event} (h : Replayed snappy w) (hturn : InTurn w (.log e))
    (hidle : ∀ u ∈ logThread e, w.calls u = .idle) (hlog : LogManager.next w.log e = some log) :
    Replayed snappy { w with log := log } := by
  cases e with
  | append t r =>
      obtain ⟨hlogs, hsame⟩ := logs_append hlog
      exact h.idle (hidle t rfl) hturn hlogs hsame
  | wake t =>
      have ht := hidle t rfl
      obtain ⟨r, hr, -⟩ := LogManager.wake_cases hlog
      have hrecord := (h.waits t r hr).2
      rw [ht] at hrecord
      obtain ⟨hlogs, hsame⟩ := logs_wake hlog hr
      exact h.idle ht hrecord hlogs hsame
  | swap | write | store | reset =>
      obtain ⟨happended, hwaiting, -⟩ := LogManager.flush_frame hlog trivial
      refine ⟨fun u s hs => h.waits u s ((congrFun hwaiting u).symm.trans hs), h.deletes, ?_⟩
      cases h.follows with
      | stored hnone hredo => exact .stored hnone (by rw [happended]; exact hredo)
      | storing halone hsplit hrecord hpost hredo => exact .storing halone (happended.trans hsplit) hrecord hpost hredo

/-- **A call logs**, or waits for room, and goes on as `c`. -/
theorem Replayed.logs (h : Replayed snappy w) (hturn : ∀ u, ¬ Storing (w.calls u)) (hlogs : Logs w.log w'.log t r)
    (hsame : SameWaits w.log w'.log t) (hstore : w'.store = w.store)
    (hcalls : ∀ u, w'.calls u = if u = t then c else w.calls u) (hrecord : RecordOf r c)
    (hstoring : Storing c ↔ w'.log.waiting t = none)
    (hdeletes : ∀ u key inMem, deletes? (w'.calls u) = some (key, inMem) →
      w'.mutex_ = some u ∧ ∃ value, found snappy w'.store key = some (some (inMem, value))) : Replayed snappy w' where
  waits u s hs := by
    rw [hcalls]
    by_cases hu : u = t
    · subst hu
      rw [if_pos rfl]
      cases hlogs with
      | waits hwait =>
          obtain rfl := Option.some.inj (hwait.symm.trans hs)
          exact ⟨fun hc => Option.some_ne_none _ (hs.symm.trans (hstoring.mp hc)), hrecord⟩
      | appends hwait => nomatch hwait.symm.trans hs
    · rw [if_neg hu]
      exact h.waits u s ((hsame u hu).symm.trans hs)
  deletes := hdeletes
  follows := by
    have hredo := h.follows.of_none hturn
    rw [← hstore] at hredo
    cases hlogs with
    | waits hwait happended =>
        refine .stored (fun u => ?_) (by rw [happended]; exact hredo)
        rw [hcalls]
        split
        · rw [hstoring, hwait]
          exact (Option.some_ne_none r)
        · exact hturn u
    | appends hwait lsn happended =>
        have halone : ∀ u, Storing (w'.calls u) ↔ u = t := by
          intro u
          rw [hcalls]
          split
          · rename_i hu
            exact iff_of_true (hstoring.mpr hwait) hu
          · rename_i hu
            exact iff_of_false (hturn u) hu
        refine .storing halone happended ?_ (fun s hs => absurd hs List.not_mem_nil) hredo
        rw [hcalls, if_pos rfl, recordOf_setLsn]
        exact hrecord

/-- `put` behind its call of `AppendLogRecord`. -/
theorem Replayed.afterPutLog (h : Replayed snappy w) (hturn : ∀ u, ¬ Storing (w.calls u))
    (hrecord : RecordOf r (.putLog x key value add_writeset)) (hlogs : Logs w.log log t r) (hsame : SameWaits w.log log t) :
    Replayed snappy (w.afterPutLog t x key value add_writeset log) := by
  rw [← KVStore.afterPutLog_log w t x key value add_writeset log] at hlogs hsame
  refine h.logs hturn hlogs hsame (KVStore.afterPutLog_store ..) (afterPutLog_calls w t x key value add_writeset log) ?_ ?_ ?_
  · split <;> exact hrecord
  · rw [KVStore.afterPutLog_log]
    cases log.waiting t with
    | none => exact iff_of_true trivial rfl
    | some s => exact iff_of_false id (Option.some_ne_none s)
  · intro u k b hu
    rw [KVStore.afterPutLog_mutex, KVStore.afterPutLog_store]
    refine h.deletes u k b ?_
    rw [afterPutLog_calls] at hu
    split at hu
    · split at hu <;> cases hu
    · exact hu

/-- `del` behind its call of `AppendLogRecord`. -/
theorem Replayed.afterDelLog (h : Replayed snappy w) (hturn : ∀ u, ¬ Storing (w.calls u))
    (hmutex : w.mutex_ = none ∨ w.mutex_ = some t) (hfound : ∃ v, found snappy w.store key = some (some (inMem, v)))
    (hrecord : RecordOf r (.delLog x key value inMem add_writeset)) (hlogs : Logs w.log log t r)
    (hsame : SameWaits w.log log t) : Replayed snappy (w.afterDelLog t x key value inMem add_writeset log) := by
  rw [← KVStore.afterDelLog_log w t x key value inMem add_writeset log] at hlogs hsame
  refine h.logs hturn hlogs hsame (KVStore.afterDelLog_store ..) (afterDelLog_calls w t x key value inMem add_writeset log)
    ?_ ?_ ?_
  · split <;> exact hrecord
  · rw [KVStore.afterDelLog_log]
    cases log.waiting t with
    | none => exact iff_of_true trivial rfl
    | some s => exact iff_of_false id (Option.some_ne_none s)
  · intro u k b hu
    rw [KVStore.afterDelLog_mutex, KVStore.afterDelLog_store]
    rw [afterDelLog_calls] at hu
    split at hu
    · rename_i hut
      have hk : some (key, inMem) = some (k, b) := by
        split at hu <;> exact hu
      obtain ⟨rfl, rfl⟩ := Prod.mk.inj (Option.some.inj hk)
      exact ⟨by rw [hut], hfound⟩
    · -- another `del` would hold the mutex
      rename_i hut
      obtain ⟨hheld, -⟩ := h.deletes u k b hu
      rcases hmutex with hnone | hmine
      · nomatch hnone.symm.trans hheld
      · exact absurd (Option.some.inj (hheld.symm.trans hmine)) hut

/-! ### The store -/

/-- **A call stores** what its record says. -/
theorem Replayed.stores (h : Replayed snappy w) (ones : Nat) (hcall : Storing (w.calls t))
    (hredo : ∀ s, RecordOf s (w.calls t) → redoStore snappy w.store (s, ones) = some store) (hlog : w'.log = w.log)
    (hstore : w'.store = store) (hcalls : ∀ u, w'.calls u = if u = t then .idle else w.calls u)
    (hdeletes : ∀ u, u ≠ t → deletes? (w.calls u) = none) : Replayed snappy w' where
  waits u s hs := by
    rw [hlog] at hs
    obtain ⟨hnot, hrecord⟩ := h.waits u s hs
    rw [hcalls]
    split
    · rename_i hu
      subst hu
      exact absurd hcall hnot
    · exact ⟨hnot, hrecord⟩
  deletes u k b hu := by
    rw [hcalls] at hu
    split at hu
    · cases hu
    · rename_i hut
      rw [hdeletes u hut] at hu
      cases hu
  follows := by
    cases h.follows with
    | stored hnone => exact absurd hcall (hnone t)
    | @storing t' pre post s halone hsplit hrecord hpost hpre =>
        obtain rfl := (halone t).mp hcall
        refine .stored (fun u => ?_) ?_
        · rw [hcalls]
          split
          · exact id
          · rename_i hu
            exact fun hstoring => hu ((halone u).mp hstoring)
        · rw [hlog, hstore, hsplit, ← List.singleton_append, ← List.append_assoc]
          exact (hpre.snoc (hredo s hrecord)).silent hpost

theorem deletes_none (h : Replayed snappy w) (hmutex : w.mutex_ = none) (u : Nat) : deletes? (w.calls u) = none := by
  cases hu : deletes? (w.calls u) with
  | none => rfl
  | some k => nomatch hmutex.symm.trans (h.deletes u k.1 k.2 hu).1

theorem deletes_other (h : Replayed snappy w) (hcall : deletes? (w.calls t) = some (key, inMem)) (u : Nat) (hu : u ≠ t) :
    deletes? (w.calls u) = none := by
  cases hdel : deletes? (w.calls u) with
  | none => rfl
  | some k =>
      have hmine := (h.deletes t key inMem hcall).1
      exact absurd (Option.some.inj ((h.deletes u k.1 k.2 hdel).1.symm.trans hmine)) hu

/-- What `del` of `KVStore_beta` does to a key that has been found. -/
theorem del_of_found {v : Bytes} (hfound : found snappy store key = some (some (inMem, v))) :
    store.del snappy key ones = if inMem then
        (store.memtable_.del key).map fun m => ({ store with memtable_ := m.1 }, true)
      else (store.memtable_.put key [] ones).map fun m => ({ store with memtable_ := m }, true) := by
  unfold found at hfound
  unfold KVStore_beta.del
  obtain ⟨contained, hcontained, hfound⟩ := Option.bind_eq_some_iff.mp hfound
  rw [hcontained, Option.bind_eq_bind, Option.bind_some]
  split at hfound
  · rename_i hin
    obtain ⟨result, -, hres⟩ := Option.bind_eq_some_iff.mp hfound
    obtain ⟨rfl, -⟩ := Prod.mk.inj (Option.some.inj (Option.some.inj hres))
    rw [if_pos hin, if_pos rfl]
    cases store.memtable_.del key <;> rfl
  · rename_i hin
    obtain ⟨result, hresult, hres⟩ := Option.bind_eq_some_iff.mp hfound
    rw [if_neg hin, hresult, Option.bind_eq_bind, Option.bind_some]
    split at hres
    · rename_i hvalue
      obtain ⟨rfl, -⟩ := Prod.mk.inj (Option.some.inj (Option.some.inj hres))
      rw [if_pos hvalue, if_neg Bool.false_ne_true]
      cases store.memtable_.put key [] ones <;> rfl
    · nomatch hres

/-- **Step lemma.** -/
theorem replayed_step {e : KVStore.Event} (h : Replayed snappy w) (hturn : InTurn w e)
    (hroom : ∀ t x key value b, e = .put t x key value b → RoomFor key value)
    (hfits : ∀ key inMem value, found snappy w.store key = some (some (inMem, value)) → RoomFor key value)
    (hst : KVStore.next snappy w e = some w') : Replayed snappy w' := by
  cases KVStore.next_cases hst with
  | log hidle hlog => exact h.logStep hturn hidle hlog
  | @put t x key value b log hlog =>
      obtain ⟨hlogs, hsame⟩ := logs_append hlog
      exact h.afterPutLog hturn (recordOf_put (hroom t x key value b rfl) x b) hlogs hsame
  | absent => exact h
  | @del t x key value stale inMem b log hfound hlog =>
      have hmutex : w.mutex_ = none := by
        simp only [KVStore.next] at hst
        split at hst
        · rename_i hfree
          exact hfree.2
        · cases hst
      obtain ⟨hlogs, hsame⟩ := logs_append hlog
      exact h.afterDelLog hturn (Or.inl hmutex) ⟨value, hfound⟩ (recordOf_del (hfits key inMem value hfound) x b) hlogs hsame
  | @wakePut t x key value b log hcall hlog =>
      obtain ⟨r, hr, -⟩ := LogManager.wake_cases hlog
      have hrecord := (h.waits t r hr).2
      rw [hcall] at hrecord
      obtain ⟨hlogs, hsame⟩ := logs_wake hlog hr
      exact h.afterPutLog hturn hrecord hlogs hsame
  | @wakeDel t x key value inMem b log hcall hlog =>
      obtain ⟨r, hr, -⟩ := LogManager.wake_cases hlog
      have hrecord := (h.waits t r hr).2
      rw [hcall] at hrecord
      obtain ⟨hmutex, hfound⟩ := h.deletes t key inMem (by rw [hcall]; rfl)
      obtain ⟨hlogs, hsame⟩ := logs_wake hlog hr
      exact h.afterDelLog hturn (Or.inr hmutex) hfound hrecord hlogs hsame
  | @storePut t ones key value lsn memtable store hcall hmem hstore =>
      have hmutex : w.mutex_ = none := by
        simp only [KVStore.next, hcall] at hst
        split at hst
        · assumption
        · cases hst
      refine h.stores (t := t) ones (by rw [hcall]; trivial) (fun s hs => ?_) (KVStore.noteSpill_log ..)
        (KVStore.noteSpill_store ..) (fun u => KVStore.noteSpill_calls ..) (fun u _ => deletes_none h hmutex u)
      rw [hcall] at hs
      obtain ⟨htype, rfl, rfl⟩ := hs
      simp only [redoStore, htype]
      exact hstore
  | @storeDelMem t ones key lsn memtable b hcall hmem =>
      have hdel : deletes? (w.calls t) = some (key, true) := by rw [hcall]; rfl
      obtain ⟨-, v, hfound⟩ := h.deletes t key true hdel
      refine h.stores (t := t) ones (by rw [hcall]; trivial) (fun s hs => ?_) rfl rfl (fun _ => rfl)
        (deletes_other h hdel)
      rw [hcall] at hs
      obtain ⟨htype, rfl⟩ := hs
      simp only [redoStore, htype, del_of_found hfound, if_pos, hmem, Option.map_some]
  | @storeDelDisk t ones key lsn memtable hcall hmem =>
      have hdel : deletes? (w.calls t) = some (key, false) := by rw [hcall]; rfl
      obtain ⟨-, v, hfound⟩ := h.deletes t key false hdel
      refine h.stores (t := t) ones (by rw [hcall]; trivial) (fun s hs => ?_) rfl rfl (fun _ => rfl)
        (deletes_other h hdel)
      rw [hcall] at hs
      obtain ⟨htype, rfl⟩ := hs
      simp only [redoStore, htype, del_of_found hfound, Bool.false_eq_true, if_false, hmem, Option.map_some]

/-! ### A crash -/

variable {k : Nat} {a b buffer : Vector UInt8 LOG_BUFFER_SIZE} {heights : List Nat} {ids : Nat → txn_id_t}

theorem crash_cases (hst : next snappy w (.crash k a b buffer heights ids) = some w') :
    ∃ v s₀ s, Restart.next { log := w.log } (.crash k a b buffer) = some v ∧ KVStore_beta.new {} = some s₀ ∧
      redoAll snappy s₀ (v.log.appended.zip heights) = some s ∧
      w' = KVStore.World.init v.log s fun x => { txn_id_ := ids x } := by
  simp only [next, Option.bind_eq_bind, Option.bind_eq_some_iff, Option.some.injEq] at hst
  obtain ⟨v, hv, s₀, hopen, s, hs, rfl⟩ := hst
  exact ⟨v, s₀, s, hv, hopen, hs, rfl⟩

theorem recoverable_crash (h : Recoverable snappy w) (hok : Ok w (.crash k a b buffer heights ids))
    (hst : next snappy w (.crash k a b buffer heights ids) = some w') : Recoverable snappy w' := by
  obtain ⟨v, s₀, s, hv, hopen, hs, rfl⟩ := crash_cases hst
  obtain ⟨v', hv', hsurvives⟩ := Restart.survives h.log hok.1 a b buffer
  obtain rfl := Option.some.inj (hv'.symm.trans hv)
  obtain ⟨d, hd⟩ := h.abstracts
  obtain ⟨d', -, hd'⟩ := Restart.simulates_survives hd hsurvives
  have hsound := Restart.sound_survives h.log hsurvives
  have hroom := RecoveryManager.redoAll_room (represents_empty hopen).finds ⟨by simp, by simp⟩
    (fun call hcall => hsound.records _ (List.of_mem_zip hcall).1) hs
  have hinvalid : InRange INVALID_LSN := by decide
  exact ⟨⟨hsound.inv, hsound.records, hsound.waiting, hsound.length⟩, ⟨d', hd'.records, hd'.file⟩,
    ⟨hsound.inv, hroom, fun _ => trivial⟩, fun _ => hinvalid⟩

theorem replayed_crash (h : Recoverable snappy w) (hok : Ok w (.crash k a b buffer heights ids))
    (hst : next snappy w (.crash k a b buffer heights ids) = some w') : Replayed snappy w' := by
  obtain ⟨v, s₀, s, hv, hopen, hs, rfl⟩ := crash_cases hst
  obtain ⟨v', hv', hsurvives⟩ := Restart.survives h.log hok.1 a b buffer
  obtain rfl := Option.some.inj (hv'.symm.trans hv)
  have hlen : v'.log.appended.length ≤ heights.length := Nat.le_trans hsurvives.isPrefix.length_le hok.2.1
  obtain ⟨t, ht, hsame⟩ := RecoveryManager.redoAll_same (same_new hopen) rfl hs
  obtain rfl := Option.some.inj (hs.symm.trans ht)
  refine ⟨?_, fun _ _ _ hcall => (nomatch hcall), .stored (fun _ => id) ⟨s₀, _, s, hopen, List.map_fst_zip hlen, hs, hsame⟩⟩
  intro u r hr
  have hnone : v'.log.waiting u = none := congrFun hsurvives.starts.waiting u
  nomatch hnone.symm.trans hr

end Step

/-! ## Runs -/

section Runs

variable {snappy : Snappy} {a b : Vector UInt8 LOG_BUFFER_SIZE} {s₀ : KVStore_beta} {txns : Nat → KVStore.Transaction}
  {es : List Event} {w : KVStore.World}

theorem replayed_init (hopen : KVStore_beta.new {} = some s₀) :
    Replayed snappy (KVStore.World.init (LogManager.World.init a b) s₀ txns) where
  waits _ _ hr := by cases hr
  deletes _ _ _ hcall := by cases hcall
  follows := .stored (fun _ => id) (Redoes.nil hopen)

/-- **Run lemma.** -/
theorem replayed_run (hinv : snappy.Inverts) (hopen : KVStore_beta.new {} = some s₀) (hprev : ∀ x, InRange (txns x).prev_lsn_)
    (h : Run (Guarded Ok (FunStep (next snappy))) (KVStore.World.init (LogManager.World.init a b) s₀ txns) es w) :
    Recoverable snappy w ∧ Replayed snappy w := by
  refine h.invariant (I := fun w => Recoverable snappy w ∧ Replayed snappy w) ?_
    ⟨KVStore.recoverable_init a b hopen hprev, replayed_init hopen⟩
  rintro w e w' ⟨hrec, hrep⟩ ⟨hok, hst⟩
  cases e with
  | kv e =>
      obtain ⟨hrecords, hturn⟩ := hok
      refine ⟨KVStore.recoverable_step hinv hrec ⟨hrecords, hst⟩, replayed_step hrep hturn ?_ ?_ hst⟩
      · rintro t x key value b rfl
        exact hrecords.2
      · intro key inMem value hfound
        obtain ⟨c, hc, hroom⟩ := hrec.fitting.store
        rw [hc.found hinv] at hfound
        exact hroom.found (Option.some.inj hfound)
  | crash => exact ⟨recoverable_crash hrec hok hst, replayed_crash hrec hok hst⟩

/-- Recovery has nothing to undo, so that `ARIES` is `Redo`. -/
theorem crash_aries (h : Recoverable snappy w) {k : Nat} {buffer : Vector UInt8 LOG_BUFFER_SIZE} {heights : List Nat}
    {ids : Nat → txn_id_t} (hok : Ok w (.crash k a b buffer heights ids))
    {order : List RecoveryManager.ActiveTxn → List RecoveryManager.ActiveTxn} (horder : order [] = []) :
    let file := Restart.World.crashFile { log := w.log } k
    RecoveryManager.ARIES order (file.length + 2) (RecoveryManager.init file buffer) =
      RecoveryManager.Redo (file.length + 2) (RecoveryManager.init file buffer) := by
  obtain ⟨hfile, -, hend⟩ := hok
  have hlen := hfile.length
  have hwhole := hfile.whole
  have hpre := RecoveryManager.isPrefix_complete (Restart.World.crashFile { log := w.log } k).length w.log.appended
  generalize complete (Restart.World.crashFile { log := w.log } k).length w.log.appended = rs at hpre hwhole hend
  rw [hwhole] at hlen
  dsimp only
  rw [hwhole]
  exact RecoveryManager.aries_eq_redo (fun r hr => h.log.records r (hpre.subset hr)) (h.log.inOrder.of_prefix hpre) hend hlen
    horder buffer

end Runs

/-! ### A run

A transaction puts a pair and ends, and its records are flushed. -/

section Example

open LogManager (zeros)
open SnappyLiterals (snappy)

def someRecord : LogRecord := putRecord { txn_id_ := 1 } [107] [55]

def commitRecord : LogRecord := LogRecord.ofTxn 1 INVALID_LSN .COMMIT

theorem roomFor_some : RoomFor [107] [55] := by
  unfold RoomFor
  rw [LOG_BUFFER_SIZE_eq]
  decide

theorem someRecord_loggable : Restart.Loggable someRecord := KVStore.loggable_putRecord (by decide) roomFor_some

theorem length_someRecord : someRecord.encode.length = 34 := KVStore.length_putRecord _ (by decide)

theorem length_commitRecord : commitRecord.encode.length = 24 := by
  rw [LogRecord.length_encode]
  rfl

theorem commitRecord_loggable : Restart.Loggable commitRecord where
  constructed := .txn 1 INVALID_LSN .COMMIT INVALID_LSN (Or.inr (Or.inl rfl))
  stored := rfl
  prev_lsn := by decide
  lt := by
    rw [length_commitRecord, LOG_BUFFER_SIZE_eq]
    decide
  type := by decide

def begun (s₀ : KVStore_beta) : KVStore.World :=
  KVStore.World.init (LogManager.World.init zeros zeros) s₀ fun _ => { txn_id_ := 1 }

def putAndCommit : List Event :=
  [.kv (.put 0 0 [107] [55] true), .kv (.store 0 0), .kv (.log (.append 0 commitRecord)), .kv (.log .swap), .kv (.log .write),
    .kv (.log .store), .kv (.log .reset)]

/-- A step of the log, next to an idle store. -/
theorem guarded_log {w : KVStore.World} {v v' : LogManager.World} {e : LogManager.Event} (hidle : ∀ t, w.calls t = .idle)
    (hlen : v.appended.length ≤ 2) (he : ∀ t r, e = .append t r → r = commitRecord) (hst : LogManager.next v e = some v') :
    Guarded Ok (FunStep (next snappy)) { w with log := v } (.kv (.log e)) { w with log := v' } := by
  refine ⟨⟨⟨Nat.lt_of_le_of_lt hlen (by decide), ?_⟩, ?_⟩, ?_⟩
  · cases e with
    | append t r =>
        rw [he t r rfl]
        exact commitRecord_loggable
    | wake | swap | write | store | reset => trivial
  · cases e with
    | append t r =>
        rw [he t r rfl]
        show ¬ commitRecord.IsTuple
        decide
    | wake | swap | write | store | reset => trivial
  · show KVStore.next snappy { w with log := v } (.log e) = _
    rw [KVStore.next, if_pos fun t _ => hidle t]
    exact Option.map_eq_some_iff.mpr ⟨v', hst, rfl⟩

theorem run_putAndCommit {s₀ : KVStore_beta} (hopen : KVStore_beta.new {} = some s₀) :
    ∃ w, Run (Guarded Ok (FunStep (next snappy))) (begun s₀) putAndCommit w ∧ (∀ t, w.calls t = .idle) ∧
      LogManager.Quiet w.log 0 ∧ w.log.appended = [someRecord.SetLsn 0, commitRecord.SetLsn 1] ∧
      w.log.mgr.persistent_lsn_ = 1 := by
  have hsize := LOG_BUFFER_SIZE_eq
  have hinv := LogManager.inv_init zeros zeros
  have hsized := someRecord_loggable.sized
  obtain ⟨happend, hquiet⟩ := LogManager.next_append (t := 0) hinv (LogManager.quiet_init zeros zeros) hsized
    (by rw [length_someRecord]; omega)
  have hinv' := LogManager.inv_step hinv ⟨show LogManager.SizedRecords _ (.append 0 someRecord) from hsized, happend⟩
  obtain ⟨hcommit, hquiet'⟩ := LogManager.next_append (t := 0) hinv' hquiet commitRecord_loggable.sized
    (by rw [length_someRecord, length_commitRecord]; omega)
  obtain ⟨l₁, l₂, l₃, l₄, h₁, h₂, h₃, h₄, hdone, happended, -, hpersistent⟩ :=
    LogManager.flush_steps hquiet' (by rw [length_someRecord]; omega)
  -- the put
  have hr : Represents snappy s₀ {} := represents_empty hopen
  obtain ⟨m, hm, -⟩ := hr.memtable.put [107] [55] 0
  obtain ⟨s, hs⟩ := hr.put_isSome SnappyLiterals.grows [107] [55] 0 (by decide)
  obtain ⟨w₁, w₂, hput, hstore, hlog₁, -, -, hlog, -, hcalls⟩ :=
    KVStore.put_steps (w := begun s₀) (x := 0) rfl rfl happend (congrFun hquiet.waiting 0) hm hs true
  have hidle : ∀ t, w₂.calls t = .idle := by
    intro t
    rw [hcalls]
    split <;> rfl
  -- the log from there on
  rw [← hlog] at hcommit h₁ happended
  have hno : ∀ {e : LogManager.Event}, e.Flushes → ∀ t r, e = .append t r → r = commitRecord := by
    rintro e he t r rfl
    exact he.elim
  have htwo : (w₂.log.appendNow 0 commitRecord).appended = [someRecord.SetLsn 0, commitRecord.SetLsn 1] := by
    rw [hlog]
    rfl
  have ha₁ := (LogManager.flush_frame h₁ trivial).1.trans htwo
  have ha₂ := (LogManager.flush_frame h₂ trivial).1.trans ha₁
  have ha₃ := (LogManager.flush_frame h₃ trivial).1.trans ha₂
  have hzero : (begun s₀).log.appended.length = 0 := rfl
  have hone : ∀ {w : KVStore.World}, w.log = (LogManager.World.init zeros zeros).appendNow 0 someRecord →
      w.log.appended.length = 1 := by
    rintro w hw
    rw [hw]
    rfl
  refine ⟨{ w₂ with log := l₄ }, Run.cons ⟨⟨⟨?_, roomFor_some⟩, fun _ => id⟩, hput⟩
    (Run.cons ⟨⟨⟨?_, trivial⟩, trivial⟩, hstore⟩
      (Run.cons (guarded_log (v := w₂.log) hidle ?_ (fun t r h => (LogManager.Event.append.inj h).2.symm) hcommit)
        (Run.cons (guarded_log hidle (by rw [htwo]; rfl) (hno trivial) h₁)
          (Run.cons (guarded_log hidle (by rw [ha₁]; rfl) (hno trivial) h₂)
            (Run.cons (guarded_log hidle (by rw [ha₂]; rfl) (hno trivial) h₃)
              (Run.single (guarded_log hidle (by rw [ha₃]; rfl) (hno trivial) h₄))))))),
    hidle, hdone, happended.trans htwo, hpersistent⟩
  · rw [hzero]
    decide
  · rw [hone hlog₁]
    decide
  · rw [hone hlog]
    decide

theorem ok_putAndCommit {s₀ : KVStore_beta} {w : KVStore.World} (hopen : KVStore_beta.new {} = some s₀)
    (hrun : Run (Guarded Ok (FunStep (next snappy))) (begun s₀) putAndCommit w) (hquiet : LogManager.Quiet w.log 0)
    (happended : w.log.appended = [someRecord.SetLsn 0, commitRecord.SetLsn 1]) :
    Ok w (.crash 0 zeros zeros zeros [0, 0] fun _ => 2) := by
  have hsound := (replayed_run SnappyLiterals.inverts hopen (fun _ => by decide) hrun).1.log
  refine ⟨Restart.fileOk_flushed hsound hquiet ?_ ?_, ?_, ?_⟩
  · rw [happended]
    simp only [RecoveryManager.sizesOf, List.map_cons, List.map_nil, LogRecord.length_encode_setLsn, length_someRecord,
      length_commitRecord]
    decide
  · rw [happended]
    simp only [RecoveryManager.bytesOf_cons, RecoveryManager.bytesOf_nil, List.length_append, List.length_nil,
      LogRecord.length_encode_setLsn, length_someRecord, length_commitRecord]
    decide
  · rw [happended]
    rfl
  · rw [Restart.complete_flushed hsound hquiet, happended]
    show AllEnd ([someRecord.SetLsn 0] ++ [commitRecord.SetLsn 1])
    refine RecoveryManager.allEnd_one (t := 1) ⟨rfl, Or.inl rfl⟩ ?_
    intro s hs
    rw [List.mem_singleton.mp hs]
    rfl

end Example

/-! ## Results -/

section Results

variable {snappy : Snappy} {a b : Vector UInt8 LOG_BUFFER_SIZE} {s₀ : KVStore_beta} {txns : Nat → KVStore.Transaction}
  {es : List Event} {w : KVStore.World}

theorem storing_of_idle (h : ∀ t, w.calls t = .idle) (t : Nat) : ¬ Storing (w.calls t) := by
  rw [h]
  exact id

/-- **The store is what `Redo` makes of the log**, after any number of crashes: in every reachable state with no call between its
    record and the store, `Redo` of the log in a new directory, with any heights, gives the tables byte for byte and the pairs of
    the memtable. -/
theorem store_is_redone (hinv : snappy.Inverts) (hopen : KVStore_beta.new {} = some s₀)
    (hprev : ∀ x, InRange (txns x).prev_lsn_)
    (h : Run (Guarded Ok (FunStep (next snappy))) (KVStore.World.init (LogManager.World.init a b) s₀ txns) es w)
    (hnone : ∀ t, ¬ Storing (w.calls t)) (calls : List (LogRecord × Nat)) (hcalls : calls.map Prod.fst = w.log.appended) :
    ∃ t, redoAll snappy s₀ calls = some t ∧ Same w.store t :=
  ((replayed_run hinv hopen hprev h).2.follows.of_none hnone).all hopen hcalls

theorem store_is_redone_putAndCommit : ∃ s₀ w t, KVStore_beta.new {} = some s₀ ∧
    Run (Guarded Ok (FunStep (next SnappyLiterals.snappy))) (begun s₀) putAndCommit w ∧
      redoAll SnappyLiterals.snappy s₀ [(someRecord.SetLsn 0, 3), (commitRecord.SetLsn 1, 5)] = some t ∧ Same w.store t := by
  obtain ⟨s₀, hopen⟩ : ∃ s₀, KVStore_beta.new {} = some s₀ := ⟨_, rfl⟩
  obtain ⟨w, hrun, hidle, -, happended, -⟩ := run_putAndCommit hopen
  obtain ⟨t, ht, hsame⟩ := store_is_redone SnappyLiterals.inverts hopen (fun _ => by decide) hrun (storing_of_idle hidle)
    [(someRecord.SetLsn 0, 3), (commitRecord.SetLsn 1, 5)] happended.symm
  exact ⟨s₀, w, t, hopen, hrun, ht, hsame⟩

/-- **A crash gives the store back.** In every reachable state with no call between its record and the store, the next process
    starts, and its log is a prefix that has each record up to `persistent_lsn_`. When these are all, it has the same tables, byte
    for byte, the same pairs in the memtable, and so the same answer for each key. -/
theorem crash_rebuilds (hinv : snappy.Inverts) (hopen : KVStore_beta.new {} = some s₀) (hprev : ∀ x, InRange (txns x).prev_lsn_)
    (h : Run (Guarded Ok (FunStep (next snappy))) (KVStore.World.init (LogManager.World.init a b) s₀ txns) es w)
    (hnone : ∀ t, ¬ Storing (w.calls t)) {k : Nat} {c d buffer : Vector UInt8 LOG_BUFFER_SIZE} {heights : List Nat}
    {ids : Nat → txn_id_t} (hok : Ok w (.crash k c d buffer heights ids)) :
    ∃ w', next snappy w (.crash k c d buffer heights ids) = some w' ∧ w'.log.appended <+: w.log.appended ∧
      (∀ r ∈ w.log.appended, r.lsn_ ≤ w.log.mgr.persistent_lsn_ → r ∈ w'.log.appended) ∧
      ((∀ r ∈ w.log.appended, r.lsn_ ≤ w.log.mgr.persistent_lsn_) → Same w.store w'.store ∧
        ∀ key, w'.store.get snappy key = w.store.get snappy key) := by
  obtain ⟨hrec, hrep⟩ := replayed_run hinv hopen hprev h
  have hredo := hrep.follows.of_none hnone
  obtain ⟨v, hv, hsurvives⟩ := Restart.survives hrec.log hok.1 c d buffer
  obtain ⟨e, he⟩ := hrec.abstracts
  have hlen : v.log.appended.length ≤ heights.length := Nat.le_trans hsurvives.isPrefix.length_le hok.2.1
  have hzip : (v.log.appended.zip heights).map Prod.fst = v.log.appended := List.map_fst_zip hlen
  obtain ⟨t, ht⟩ := hredo.of_prefix hsurvives.isPrefix
  obtain ⟨s, hs, -⟩ := ht.all hopen hzip
  have hkeeps : ∀ r ∈ w.log.appended, r.lsn_ ≤ w.log.mgr.persistent_lsn_ → r ∈ v.log.appended :=
    fun r hr hle => hsurvives.keeps hrec.log he hr hle
  refine ⟨KVStore.World.init v.log s fun x => { txn_id_ := ids x }, ?_, hsurvives.isPrefix, hkeeps, ?_⟩
  · simp only [next, hv, hopen, hs, Option.bind_eq_bind, Option.bind_some]
  · intro hflushed
    -- a prefix with all records is the whole log
    have hall : v.log.appended = w.log.appended := by
      have hnodup : w.log.appended.Nodup := hrec.log.inOrder.nodup
      exact hsurvives.isPrefix.eq_of_length_le
        (hnodup.subperm fun r hr => hkeeps r hr (hflushed r hr)).length_le
    obtain ⟨t', ht', hsame⟩ := hredo.all hopen (hzip.trans hall)
    obtain rfl := Option.some.inj (hs.symm.trans ht')
    exact ⟨hsame, hsame.get⟩

theorem crash_rebuilds_putAndCommit : ∃ s₀ w w', KVStore_beta.new {} = some s₀ ∧
    Run (Guarded Ok (FunStep (next SnappyLiterals.snappy))) (begun s₀) putAndCommit w ∧
      next SnappyLiterals.snappy w (.crash 0 LogManager.zeros LogManager.zeros LogManager.zeros [0, 0] fun _ => 2) = some w' ∧
      Same w.store w'.store ∧ ∀ key, w'.store.get SnappyLiterals.snappy key = w.store.get SnappyLiterals.snappy key := by
  obtain ⟨s₀, hopen⟩ : ∃ s₀, KVStore_beta.new {} = some s₀ := ⟨_, rfl⟩
  obtain ⟨w, hrun, hidle, hquiet, happended, hpersistent⟩ := run_putAndCommit hopen
  obtain ⟨w', hnext, -, -, hsame⟩ := crash_rebuilds SnappyLiterals.inverts hopen (fun _ => by decide) hrun
    (storing_of_idle hidle) (ok_putAndCommit hopen hrun hquiet happended)
  refine ⟨s₀, w, w', hopen, hrun, hnext, hsame ?_⟩
  intro r hr
  rw [happended] at hr
  rw [hpersistent]
  rcases List.mem_pair.mp hr with rfl | rfl <;> decide

end Results

end StoreReplay
end DDBMS
