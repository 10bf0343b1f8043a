import DDBMS.Storage.KVStoreNew
import DDBMS.Recovery.LogManagerDurable

/-!
# `Storage.KVStoreLogged` — what the log has of the store

The invariant of the logged store (`Inv`): the log has a record for each key of the memtable and of the tables, with the
LSN that the history gives it, and for each call between its log record and its store; the records of the tables are
published. A call of `KVStore::put` returns from the log before the flush thread has written its record, so the last
part needs the condition `FlushedFirst`: at each spill the flush thread has already published the LSNs of all entries
of the memtable.
-/

namespace DDBMS
namespace KVStore

variable {snappy : Snappy}

/-- The step meets the condition: a `put` that spills the memtable finds the LSNs of all its entries, the new one
    included, at most `persistent_lsn_`. Records are smaller than `2 ^ 31` bytes. -/
def FlushedFirst (snappy : Snappy) (w : World) : Event → Prop
  | .log e => LogManager.SizedRecords w.log e
  | .put _ _ key value _ => 32 + key.length + value.length < 2 ^ 31
  | .del _ _ key _ _ => ∀ inMem value, found snappy w.store key = some (some (inMem, value)) →
      32 + key.length + value.length < 2 ^ 31
  | .wake _ => True
  | .store t ones => ∀ key value lsn, w.calls t = .putStore key value lsn →
      ∀ memtable, w.store.memtable_.put key value ones = some memtable →
        memtable.space > StorageOption.SSTABLE_SPACE →
        ∀ e ∈ SortedAssoc.put key lsn w.memLsns, e.2 ≤ w.log.mgr.persistent_lsn_

/-- The record of a call is logged, or waits to be. -/
def Call.Backed (log : LogManager.World) (t : Nat) : Call → Prop
  | .idle => True
  | .putLog _ key _ _ | .delLog _ key _ _ _ => ∃ r, log.waiting t = some r ∧ r.key = key
  | .putStore key _ lsn | .delStore key _ lsn => log.Logged key lsn

structure Inv (w : World) : Prop where
  log : LogManager.Inv w.log
  calls : ∀ t, (w.calls t).Backed w.log t
  mem : ∀ e ∈ w.memLsns, w.log.Logged e.1 e.2
  tables : ∀ table ∈ w.tables, ∀ e ∈ table, w.log.Logged e.1 e.2 ∧ e.2 ≤ w.log.mgr.persistent_lsn_

theorem inv_init {log : LogManager.World} (h : LogManager.Inv log) (store : KVStore_beta) (txns : Nat → Transaction) :
    Inv (World.init log store txns) where
  log := h
  calls _ := trivial
  mem _ he := by cases he
  tables _ ht := by cases ht

/-! ## What a step does -/

/-- The branches of a step, with what each has found. -/
inductive Steps (snappy : Snappy) (w : World) : Event → World → Prop where
  | log {e : LogManager.Event} {log : LogManager.World} (hidle : ∀ t ∈ logThread e, w.calls t = .idle)
      (hlog : LogManager.next w.log e = some log) : Steps snappy w (.log e) { w with log := log }
  | put {t x : Nat} {key value : Bytes} {add_writeset : Bool} {log : LogManager.World}
      (hlog : LogManager.next w.log (.append t (putRecord (w.txns x) key value)) = some log) :
      Steps snappy w (.put t x key value add_writeset) (w.afterPutLog t x key value add_writeset log)
  /-- the key is not there -/
  | absent {t x : Nat} {key : Bytes} {stale : Nat → UInt8} {add_writeset : Bool} :
      Steps snappy w (.del t x key stale add_writeset) w
  | del {t x : Nat} {key value : Bytes} {stale : Nat → UInt8} {inMem add_writeset : Bool} {log : LogManager.World}
      (hfound : found snappy w.store key = some (some (inMem, value)))
      (hlog : LogManager.next w.log (.append t (delRecord (w.txns x) key value inMem stale)) = some log) :
      Steps snappy w (.del t x key stale add_writeset) (w.afterDelLog t x key value inMem add_writeset log)
  | wakePut {t x : Nat} {key value : Bytes} {add_writeset : Bool} {log : LogManager.World}
      (hcall : w.calls t = .putLog x key value add_writeset) (hlog : LogManager.next w.log (.wake t) = some log) :
      Steps snappy w (.wake t) (w.afterPutLog t x key value add_writeset log)
  | wakeDel {t x : Nat} {key value : Bytes} {inMem add_writeset : Bool} {log : LogManager.World}
      (hcall : w.calls t = .delLog x key value inMem add_writeset) (hlog : LogManager.next w.log (.wake t) = some log) :
      Steps snappy w (.wake t) (w.afterDelLog t x key value inMem add_writeset log)
  | storePut {t ones : Nat} {key value : Bytes} {lsn : Int} {memtable : SkipList} {store : KVStore_beta}
      (hcall : w.calls t = .putStore key value lsn) (hmem : w.store.memtable_.put key value ones = some memtable)
      (hstore : w.store.put snappy key value ones = some store) :
      Steps snappy w (.store t ones) (({ w.setCall t .idle with store := store }).noteSpill
        (SortedAssoc.put key lsn w.memLsns) (memtable.space > StorageOption.SSTABLE_SPACE))
  | storeDelMem {t ones : Nat} {key : Bytes} {lsn : Int} {memtable : SkipList} {b : Bool}
      (hcall : w.calls t = .delStore key true lsn) (hmem : w.store.memtable_.del key = some (memtable, b)) :
      Steps snappy w (.store t ones) { w.setCall t .idle with
        store := { w.store with memtable_ := memtable }
        mutex_ := none
        memLsns := SortedAssoc.erase key w.memLsns }
  | storeDelDisk {t ones : Nat} {key : Bytes} {lsn : Int} {memtable : SkipList}
      (hcall : w.calls t = .delStore key false lsn) (hmem : w.store.memtable_.put key [] ones = some memtable) :
      Steps snappy w (.store t ones) { w.setCall t .idle with
        store := { w.store with memtable_ := memtable }
        mutex_ := none
        memLsns := SortedAssoc.put key lsn w.memLsns }

theorem next_cases {w w' : World} {e : Event} (h : next snappy w e = some w') : Steps snappy w e w' := by
  cases e with
  | log e =>
      simp only [next] at h
      split at h
      · rename_i hidle
        obtain ⟨log', hlog, rfl⟩ := Option.map_eq_some_iff.mp h
        exact .log hidle hlog
      · cases h
  | put t x key value add_writeset =>
      simp only [next] at h
      split at h
      · obtain ⟨log', hlog, rfl⟩ := Option.map_eq_some_iff.mp h
        exact .put hlog
      · cases h
  | del t x key stale add_writeset =>
      simp only [next] at h
      split at h
      · obtain ⟨res, hfound, h⟩ := Option.bind_eq_some_iff.mp h
        cases res with
        | none =>
            obtain rfl := Option.some.inj h
            exact .absent
        | some res =>
            obtain ⟨log', hlog, rfl⟩ := Option.map_eq_some_iff.mp h
            exact .del hfound hlog
      · cases h
  | wake t =>
      simp only [next] at h
      split at h
      · rename_i hcall
        obtain ⟨log', hlog, rfl⟩ := Option.map_eq_some_iff.mp h
        exact .wakePut hcall hlog
      · rename_i hcall
        obtain ⟨log', hlog, rfl⟩ := Option.map_eq_some_iff.mp h
        exact .wakeDel hcall hlog
      · cases h
  | store t ones =>
      simp only [next] at h
      split at h
      · rename_i hcall
        split at h
        · obtain ⟨memtable, hmem, h⟩ := Option.bind_eq_some_iff.mp h
          obtain ⟨store, hstore, h⟩ := Option.bind_eq_some_iff.mp h
          obtain rfl := Option.some.inj h
          exact .storePut hcall hmem hstore
        · cases h
      · rename_i hcall
        obtain ⟨⟨memtable, b⟩, hmem, h⟩ := Option.bind_eq_some_iff.mp h
        obtain rfl := Option.some.inj h
        exact .storeDelMem hcall hmem
      · rename_i hcall
        obtain ⟨memtable, hmem, h⟩ := Option.bind_eq_some_iff.mp h
        obtain rfl := Option.some.inj h
        exact .storeDelDisk hcall hmem
      · cases h

/-! ## Records -/

/-- The records the store logs know their size, and name the key. -/
theorem ofStrings_sized {txn_id : txn_id_t} {prev_lsn : Int} {type : LogRecordType} {key value : Bytes}
    (htype : type = .INSERT ∨ type = .DELETE) (hlen : 32 + key.length + value.length < 2 ^ 31) :
    (LogRecord.ofStrings txn_id prev_lsn type key value).Sized ∧
      (LogRecord.ofStrings txn_id prev_lsn type key value).key = key := by
  have hself := LogRecord.setLsn_self (LogRecord.ofStrings txn_id prev_lsn type key value)
  have hkey : (LogRecord.ofStrings txn_id prev_lsn type key value).key = key := by
    rw [← hself]
    apply LogRecord.key_ofStrings
    omega
  refine ⟨(LogRecord.constructed_ofStrings htype).sized ?_, hkey⟩
  rw [← hself, LogRecord.length_encode_ofStrings htype (by omega) (by omega), LogRecord.HEADER_SIZE]
  omega

theorem putRecord_sized (txn : Transaction) {key value : Bytes} (hlen : 32 + key.length + value.length < 2 ^ 31) :
    (putRecord txn key value).Sized ∧ (putRecord txn key value).key = key :=
  ofStrings_sized (Or.inl rfl) hlen

theorem length_putRecord (txn : Transaction) {key value : Bytes} (hlen : 32 + key.length + value.length < 2 ^ 31) :
    (putRecord txn key value).encode.length = 32 + key.length + value.length := by
  have hself := LogRecord.setLsn_self (putRecord txn key value)
  rw [← hself, putRecord, LogRecord.length_encode_ofStrings (Or.inl rfl) (by omega) (by omega), LogRecord.HEADER_SIZE]
  omega

theorem delRecord_sized (txn : Transaction) {key value : Bytes} (inMem : Bool) (stale : Nat → UInt8)
    (hlen : 32 + key.length + value.length < 2 ^ 31) :
    (delRecord txn key value inMem stale).Sized ∧ (delRecord txn key value inMem stale).key = key := by
  apply ofStrings_sized (Or.inr rfl)
  -- the stale bytes are as many as the value has
  have hval : (if inMem then (List.range value.length).map stale else value).length = value.length := by
    split
    · rw [List.length_map, List.length_range]
    · rfl
  rw [hval]
  exact hlen

/-! ## Frames -/

section Frames

variable {log log' : LogManager.World} {e : LogManager.Event} {w : World} {t : Nat}

/-- A thread that does not take the step waits for what it waited for. -/
theorem next_waiting {u : Nat} (hst : LogManager.next log e = some log') (hu : logThread e ≠ some u) :
    log'.waiting u = log.waiting u := by
  apply LogManager.next_waiting hst
  · rintro r rfl
    exact hu rfl
  · rintro rfl
    exact hu rfl

/-- A step of the log keeps what it backs, for the threads that do not take it. -/
theorem Call.Backed.next {c : Call} {u : Nat} (h : c.Backed log u) (hst : LogManager.next log e = some log')
    (hu : logThread e ≠ some u) : c.Backed log' u := by
  have hwaiting := next_waiting hst hu
  cases c with
  | idle => trivial
  | putLog x key value add_writeset =>
      obtain ⟨r, hr, hkey⟩ := h
      exact ⟨r, by rw [hwaiting, hr], hkey⟩
  | delLog x key value inMem add_writeset =>
      obtain ⟨r, hr, hkey⟩ := h
      exact ⟨r, by rw [hwaiting, hr], hkey⟩
  | putStore key value lsn => exact LogManager.World.Logged.next h hst
  | delStore key inMem lsn => exact LogManager.World.Logged.next h hst

/-- A step of the log in a call of thread `t`, which goes on as `c`. -/
theorem Inv.logStep {w' : World} {c : Call} (h : Inv w) (hlen : w.log.appended.length < 2 ^ 31)
    (hsized : LogManager.SizedRecords w.log e) (hst : LogManager.next w.log e = some log')
    (hthread : ∀ u, logThread e = some u → u = t) (hc : c.Backed log' t) (hlog : w'.log = log')
    (hcalls : ∀ u, w'.calls u = if u = t then c else w.calls u) (hmem : w'.memLsns = w.memLsns)
    (htables : w'.tables = w.tables) : Inv w' := by
  have hle := h.log.persistent_le hlen hst
  subst hlog
  constructor
  · exact LogManager.inv_step h.log ⟨hsized, hst⟩
  · intro u
    rw [hcalls]
    by_cases hu : u = t
    · rw [if_pos hu, hu]
      exact hc
    · rw [if_neg hu]
      exact (h.calls u).next hst (fun heq => hu (hthread u heq))
  · intro x hx
    rw [hmem] at hx
    exact (h.mem x hx).next hst
  · intro table ht x hx
    rw [htables] at ht
    obtain ⟨hlogged, hlsn⟩ := h.tables table ht x hx
    exact ⟨hlogged.next hst, le_trans hlsn hle⟩

/-- `put` behind its call of `AppendLogRecord`. -/
theorem Inv.afterPutLog {x : Nat} {key value : Bytes} {add_writeset : Bool} (h : Inv w)
    (hlen : w.log.appended.length < 2 ^ 31) (hsized : LogManager.SizedRecords w.log e)
    (hst : LogManager.next w.log e = some log') (hthread : ∀ u, logThread e = some u → u = t)
    (hres : ∃ r, r.key = key ∧
      (log'.waiting t = some r ∨ (log'.waiting t = none ∧ log'.Logged r.key w.log.mgr.next_lsn_))) :
    Inv (w.afterPutLog t x key value add_writeset log') := by
  obtain ⟨r, rfl, hr | ⟨hnone, hlogged⟩⟩ := hres
  · rw [World.afterPutLog, hr, Option.isSome_some, if_pos rfl]
    have hc : (Call.putLog x r.key value add_writeset).Backed log' t := ⟨r, hr, rfl⟩
    exact h.logStep hlen hsized hst hthread hc rfl (fun _ => rfl) rfl rfl
  · rw [World.afterPutLog, hnone, Option.isSome_none, if_neg Bool.false_ne_true]
    have hc : (Call.putStore r.key value w.log.mgr.next_lsn_).Backed log' t := hlogged
    exact h.logStep hlen hsized hst hthread hc rfl (fun _ => rfl) rfl rfl

/-- `del` behind its call of `AppendLogRecord`. -/
theorem Inv.afterDelLog {x : Nat} {key value : Bytes} {inMem add_writeset : Bool} (h : Inv w)
    (hlen : w.log.appended.length < 2 ^ 31) (hsized : LogManager.SizedRecords w.log e)
    (hst : LogManager.next w.log e = some log') (hthread : ∀ u, logThread e = some u → u = t)
    (hres : ∃ r, r.key = key ∧
      (log'.waiting t = some r ∨ (log'.waiting t = none ∧ log'.Logged r.key w.log.mgr.next_lsn_))) :
    Inv (w.afterDelLog t x key value inMem add_writeset log') := by
  obtain ⟨r, rfl, hr | ⟨hnone, hlogged⟩⟩ := hres
  · rw [World.afterDelLog, hr, Option.isSome_some, if_pos rfl]
    have hc : (Call.delLog x r.key value inMem add_writeset).Backed log' t := ⟨r, hr, rfl⟩
    exact h.logStep hlen hsized hst hthread hc rfl (fun _ => rfl) rfl rfl
  · rw [World.afterDelLog, hnone, Option.isSome_none, if_neg Bool.false_ne_true]
    have hc : (Call.delStore r.key inMem w.log.mgr.next_lsn_).Backed log' t := hlogged
    exact h.logStep hlen hsized hst hthread hc rfl (fun _ => rfl) rfl rfl

/-- A call ends, and the log stays. -/
theorem Inv.endCall {w' : World} (h : Inv w) (t : Nat) (hlog : w'.log = w.log)
    (hcalls : ∀ u, w'.calls u = if u = t then .idle else w.calls u)
    (hmem : ∀ x ∈ w'.memLsns, w.log.Logged x.1 x.2)
    (htables : ∀ table ∈ w'.tables, ∀ x ∈ table, w.log.Logged x.1 x.2 ∧ x.2 ≤ w.log.mgr.persistent_lsn_) :
    Inv w' := by
  constructor
  · rw [hlog]
    exact h.log
  · intro u
    rw [hcalls, hlog]
    split
    · trivial
    · exact h.calls u
  · rw [hlog]
    exact hmem
  · rw [hlog]
    exact htables

end Frames

theorem afterPutLog_log (w : World) (t x : Nat) (key value : Bytes) (add_writeset : Bool) (log : LogManager.World) :
    (w.afterPutLog t x key value add_writeset log).log = log := by
  unfold World.afterPutLog
  split <;> rfl

theorem afterDelLog_log (w : World) (t x : Nat) (key value : Bytes) (inMem add_writeset : Bool)
    (log : LogManager.World) : (w.afterDelLog t x key value inMem add_writeset log).log = log := by
  unfold World.afterDelLog
  split <;> rfl

theorem afterPutLog_store (w : World) (t x : Nat) (key value : Bytes) (add_writeset : Bool) (log : LogManager.World) :
    (w.afterPutLog t x key value add_writeset log).store = w.store := by
  unfold World.afterPutLog
  split <;> rfl

theorem afterPutLog_calls (w : World) (t x : Nat) (key value : Bytes) (add_writeset : Bool) (log : LogManager.World) (u : Nat) :
    (w.afterPutLog t x key value add_writeset log).calls u =
      if u = t then if (log.waiting t).isSome then .putLog x key value add_writeset else .putStore key value w.log.mgr.next_lsn_
      else w.calls u := by
  unfold World.afterPutLog
  split <;> rfl

theorem afterDelLog_calls (w : World) (t x : Nat) (key value : Bytes) (inMem add_writeset : Bool) (log : LogManager.World)
    (u : Nat) : (w.afterDelLog t x key value inMem add_writeset log).calls u =
      if u = t then
        if (log.waiting t).isSome then .delLog x key value inMem add_writeset else .delStore key inMem w.log.mgr.next_lsn_
      else w.calls u := by
  unfold World.afterDelLog
  split <;> rfl

theorem afterPutLog_mutex (w : World) (t x : Nat) (key value : Bytes) (add_writeset : Bool) (log : LogManager.World) :
    (w.afterPutLog t x key value add_writeset log).mutex_ = w.mutex_ := by
  unfold World.afterPutLog
  split <;> rfl

theorem afterDelLog_mutex (w : World) (t x : Nat) (key value : Bytes) (inMem add_writeset : Bool)
    (log : LogManager.World) : (w.afterDelLog t x key value inMem add_writeset log).mutex_ = some t := by
  unfold World.afterDelLog
  split <;> rfl

theorem noteSpill_log (w : World) (memLsns : List (Bytes × Int)) (spilled : Bool) :
    (w.noteSpill memLsns spilled).log = w.log := by
  unfold World.noteSpill
  split <;> rfl

theorem afterDelLog_store (w : World) (t x : Nat) (key value : Bytes) (inMem add_writeset : Bool)
    (log : LogManager.World) : (w.afterDelLog t x key value inMem add_writeset log).store = w.store := by
  unfold World.afterDelLog
  split <;> rfl

theorem noteSpill_store (w : World) (memLsns : List (Bytes × Int)) (spilled : Bool) :
    (w.noteSpill memLsns spilled).store = w.store := by
  unfold World.noteSpill
  split <;> rfl

theorem noteSpill_calls (w : World) (memLsns : List (Bytes × Int)) (spilled : Bool) (u : Nat) :
    (w.noteSpill memLsns spilled).calls u = w.calls u := by
  unfold World.noteSpill
  split <;> rfl

/-- The log takes a step of the flush thread next to the store. -/
theorem next_log {w : World} {e : LogManager.Event} {log' : LogManager.World} (he : logThread e = none)
    (h : LogManager.next w.log e = some log') : next snappy w (.log e) = some { w with log := log' } := by
  simp only [next, he, h, Option.map_some]
  rw [if_pos (fun t ht => by cases ht)]

/-- A whole `put` of thread `t`, with room in the log and `mutex_` free. -/
theorem put_steps {w : World} {t x : Nat} {key value : Bytes} {log : LogManager.World} {m : SkipList} {store : KVStore_beta}
    (hidle : w.calls t = .idle) (hmutex : w.mutex_ = none)
    (happend : LogManager.next w.log (.append t (putRecord (w.txns x) key value)) = some log) (hwait : log.waiting t = none)
    {ones : Nat} (hmem : w.store.memtable_.put key value ones = some m)
    (hstore : w.store.put snappy key value ones = some store) (add_writeset : Bool) :
    ∃ w₁ w₂, next snappy w (.put t x key value add_writeset) = some w₁ ∧ next snappy w₁ (.store t ones) = some w₂ ∧
      w₁.log = log ∧ w₁.store = w.store ∧
      (∀ u, w₁.calls u = if u = t then .putStore key value w.log.mgr.next_lsn_ else w.calls u) ∧
      w₂.log = log ∧ w₂.store = store ∧ ∀ u, w₂.calls u = if u = t then .idle else w.calls u := by
  have hput : next snappy w (.put t x key value add_writeset) = some (w.afterPutLog t x key value add_writeset log) := by
    rw [next, if_pos hidle, happend, Option.map_some]
  have hcalls := afterPutLog_calls w t x key value add_writeset log
  have hlog := afterPutLog_log w t x key value add_writeset log
  have hfree := (afterPutLog_mutex w t x key value add_writeset log).trans hmutex
  have hsame := afterPutLog_store w t x key value add_writeset log
  rw [hwait, Option.isSome_none, if_neg Bool.false_ne_true] at hcalls
  generalize w.afterPutLog t x key value add_writeset log = w₁ at hput hcalls hlog hfree hsame
  refine ⟨w₁, ({ w₁.setCall t .idle with store := store } : World).noteSpill
    (SortedAssoc.put key w.log.mgr.next_lsn_ w₁.memLsns) (m.space > StorageOption.SSTABLE_SPACE), hput, ?_, hlog, hsame, hcalls,
    (noteSpill_log ..).trans hlog, noteSpill_store .., fun u => ?_⟩
  · have hcall : w₁.calls t = .putStore key value w.log.mgr.next_lsn_ := by rw [hcalls, if_pos rfl]
    rw [next, hcall]
    dsimp only
    rw [if_pos hfree, hsame, hmem, hstore]
    rfl
  · rw [noteSpill_calls]
    show (if u = t then _ else w₁.calls u) = _
    rw [hcalls]
    split <;> rfl

/-! ## Steps and runs -/

/-- A put into the memtable keeps its entries logged. -/
theorem Inv.mem_put {w : World} (h : Inv w) {key : Bytes} {lsn : Int} (hl : w.log.Logged key lsn) :
    ∀ e ∈ SortedAssoc.put key lsn w.memLsns, w.log.Logged e.1 e.2 := by
  intro e he
  rcases SortedAssoc.mem_put he with rfl | he
  · exact hl
  · exact h.mem e he

/-- A step of the log next to the store. -/
theorem Inv.ofLog {w : World} {e : LogManager.Event} {log' : LogManager.World} (h : Inv w)
    (hlen : w.log.appended.length < 2 ^ 31) (hsized : LogManager.SizedRecords w.log e)
    (hidle : ∀ t ∈ logThread e, w.calls t = .idle) (hlog : LogManager.next w.log e = some log') :
    Inv { w with log := log' } := by
  have hle := h.log.persistent_le hlen hlog
  constructor
  · exact LogManager.inv_step h.log ⟨hsized, hlog⟩
  · intro u
    by_cases hu : logThread e = some u
    · -- the thread is not in a call of the store
      show (w.calls u).Backed log' u
      rw [hidle u hu]
      trivial
    · exact (h.calls u).next hlog hu
  · exact fun x hx => (h.mem x hx).next hlog
  · intro table ht x hx
    obtain ⟨hlogged, hlsn⟩ := h.tables table ht x hx
    exact ⟨hlogged.next hlog, le_trans hlsn hle⟩

/-- The record that a thread waits with is its own. -/
theorem wake_backed {log log' : LogManager.World} {t : Nat} {key : Bytes} (hbacked : ∃ r, log.waiting t = some r ∧ r.key = key)
    (hlog : LogManager.next log (.wake t) = some log') : ∃ r, r.key = key ∧
      (log'.waiting t = some r ∨ (log'.waiting t = none ∧ log'.Logged r.key log.mgr.next_lsn_)) := by
  obtain ⟨r, hr, hres⟩ := LogManager.wake_result hlog
  obtain ⟨r', hr', hkey⟩ := hbacked
  obtain rfl := Option.some.inj (hr.symm.trans hr')
  exact ⟨r, hkey, hres⟩

/-- **Step lemma.** -/
theorem inv_step {w w' : World} {e : Event} (h : Inv w) (hlen : w.log.appended.length < 2 ^ 31)
    (hst : Guarded (FlushedFirst snappy) (FunStep (next snappy)) w e w') : Inv w' := by
  obtain ⟨hok, hst⟩ := hst
  cases next_cases hst with
  | log hidle hlog => exact h.ofLog hlen hok hidle hlog
  | @put t x key value add_writeset log' hlog =>
      obtain ⟨hsized, hkey⟩ := putRecord_sized (w.txns x) hok
      apply h.afterPutLog hlen (e := .append t (putRecord (w.txns x) key value)) hsized hlog
      · exact fun u hu => (Option.some.inj hu).symm
      · exact ⟨_, hkey, LogManager.append_result hlog⟩
  | absent => exact h
  | @del t x key value stale inMem add_writeset log' hfound hlog =>
      obtain ⟨hsized, hkey⟩ := delRecord_sized (w.txns x) inMem stale (hok inMem value hfound)
      apply h.afterDelLog hlen (e := .append t (delRecord (w.txns x) key value inMem stale)) hsized hlog
      · exact fun u hu => (Option.some.inj hu).symm
      · exact ⟨_, hkey, LogManager.append_result hlog⟩
  | @wakePut t x key value add_writeset log' hcall hlog =>
      have hbacked := h.calls t
      rw [hcall] at hbacked
      apply h.afterPutLog hlen (e := .wake t) trivial hlog
      · exact fun u hu => (Option.some.inj hu).symm
      · exact wake_backed hbacked hlog
  | @wakeDel t x key value inMem add_writeset log' hcall hlog =>
      have hbacked := h.calls t
      rw [hcall] at hbacked
      apply h.afterDelLog hlen (e := .wake t) trivial hlog
      · exact fun u hu => (Option.some.inj hu).symm
      · exact wake_backed hbacked hlog
  | @storePut t ones key value lsn memtable store hcall hput =>
      have hbacked := h.calls t
      rw [hcall] at hbacked
      have hmem := h.mem_put hbacked
      by_cases hspill : memtable.space > StorageOption.SSTABLE_SPACE
      · -- the memtable becomes a table: the condition says that its LSNs are published
        rw [decide_eq_true hspill]
        refine h.endCall t ?_ ?_ ?_ ?_
        · rfl
        · exact fun _ => rfl
        · intro x hx
          cases hx
        · intro table ht x hx
          rcases List.mem_append.mp ht with ht | ht
          · exact h.tables table ht x hx
          · obtain rfl := List.mem_singleton.mp ht
            exact ⟨hmem x hx, hok key value lsn hcall memtable hput hspill x hx⟩
      · rw [decide_eq_false hspill]
        exact h.endCall t rfl (fun _ => rfl) hmem h.tables
  | @storeDelMem t =>
      exact h.endCall t rfl (fun _ => rfl) (fun x hx => h.mem x (List.mem_filter.mp hx).1) h.tables
  | @storeDelDisk t ones key lsn memtable hcall =>
      have hbacked := h.calls t
      rw [hcall] at hbacked
      exact h.endCall t rfl (fun _ => rfl) (h.mem_put hbacked) h.tables

/-- A step of the store only appends to the log. -/
theorem next_appended {w w' : World} {e : Event} (hst : next snappy w e = some w') :
    ∃ rs, w'.log.appended = w.log.appended ++ rs := by
  have hsame : ∃ rs, w.log.appended = w.log.appended ++ rs := ⟨[], by rw [List.append_nil]⟩
  cases next_cases hst with
  | log hidle hlog => exact LogManager.next_appended hlog
  | put hlog | wakePut hcall hlog =>
      rw [afterPutLog_log]
      exact LogManager.next_appended hlog
  | del hfound hlog | wakeDel hcall hlog =>
      rw [afterDelLog_log]
      exact LogManager.next_appended hlog
  | storePut hcall hmem hstore =>
      rw [noteSpill_log]
      exact hsame
  | absent | storeDelMem hcall hmem | storeDelDisk hcall hmem => exact hsame

/-- **Run lemma.** -/
theorem inv_run {log : LogManager.World} {store : KVStore_beta} {txns : Nat → Transaction} {es : List Event}
    {w : World} (hlog : LogManager.Inv log)
    (h : Run (Guarded (FlushedFirst snappy) (FunStep (next snappy))) (World.init log store txns) es w)
    (hlen : w.log.appended.length < 2 ^ 31) : Inv w := by
  revert hlen
  refine h.invariant (I := fun w => w.log.appended.length < 2 ^ 31 → Inv w) ?_ ?_
  · intro w e w' ih hst hlen
    obtain ⟨rs, hrs⟩ := next_appended hst.2
    rw [hrs, List.length_append] at hlen
    exact inv_step (ih (by omega)) (by omega) hst
  · exact fun _ => inv_init hlog store txns

end KVStore
end DDBMS
