import DDBMS.Storage.KVStoreLogged
import DDBMS.Storage.KVStoreRefine

/-!
# `Storage.KVStoreRoom` — what is in the store has room in the log

A key and a value come into the store behind their log record, and `AppendLogRecord` waits until the record fits the log
buffer. So whatever a reader finds (`Finds`) could be logged once more, which `del` does: in every run, `Fitting` holds.
-/

namespace DDBMS

open SortedAssoc

/-! ## What a reader finds -/

/-- A record of the key and the value is smaller than the log buffer. -/
def RoomFor (key value : Bytes) : Prop := 32 + key.length + value.length < LOG_BUFFER_SIZE

structure Contents.HasRoom (c : Contents) : Prop where
  mem : ∀ e ∈ c.mem, RoomFor e.1 e.2
  ssts : ∀ es ∈ c.ssts, ∀ e ∈ es, RoomFor e.1 e.2

section Finds

variable {snappy : Snappy} {s s' : KVStore_beta} {c : Contents} {m : SkipList} {es : List (Bytes × Bytes)}
  {key value : Bytes} {ones : Nat} {b : Bool}

/-- A new table may even take the number of an old one. -/
theorem Finds.addTable (h : Finds snappy s c) (hm : m.Holds es) (hadd : s.addTable snappy m = some s') :
    ∃ ssts, Finds snappy s' ⟨es, ssts⟩ ∧ ∀ es' ∈ ssts, es' = es ∨ es' ∈ c.ssts := by
  simp only [KVStore_beta.addTable, DiskStorage.add, LevelZero.add, Option.bind_eq_bind, Option.bind_eq_some_iff] at hadd
  obtain ⟨⟨d, dir⟩, ⟨⟨l, dir₁⟩, ⟨file, hfile, hl⟩, hd⟩, hs⟩ := hadd
  obtain ⟨rfl, rfl⟩ := Prod.mk.inj (Option.some.inj hl)
  obtain ⟨rfl, rfl⟩ := Prod.mk.inj (Option.some.inj hd)
  obtain rfl := Option.some.inj hs
  generalize hno : s.diskstorage_.no_ = no
  have hall : ∀ n ∈ s.diskstorage_.level0_.ssts_ ++ [no], ∃ es', (es' = es ∨ es' ∈ c.ssts) ∧ Sorted es' ∧
      ∃ f, (if n = no then some file else s.dir.sst n) = some f ∧ IsTable snappy f es' := by
    intro n hn
    by_cases hnew : n = no
    · exact ⟨es, Or.inl rfl, hm.sorted, file, if_pos hnew, TableBuilder.create_sstable_some hm hfile⟩
    · have hold : n ∈ s.diskstorage_.level0_.ssts_ := by simpa [hnew] using hn
      obtain ⟨i, hi, rfl⟩ := List.getElem_of_mem hold
      have hlen := h.tables.length_eq
      obtain ⟨hsorted, f, hf, htable⟩ := h.tables.get hi (by omega)
      exact ⟨_, Or.inr (List.getElem_mem _), hsorted, f, by rw [if_neg hnew]; exact hf, htable⟩
  choose! ssts hssts using hall
  refine ⟨(s.diskstorage_.level0_.ssts_ ++ [no]).map ssts, ⟨hm, ?_⟩, ?_⟩
  · rw [List.forall₂_map_right_iff, List.forall₂_same]
    exact fun n hn => (hssts n hn).2
  · intro es' hes'
    obtain ⟨n, hn, rfl⟩ := List.mem_map.mp hes'
    exact (hssts n hn).1

theorem Contents.HasRoom.mem_put (h : c.HasRoom) (hroom : RoomFor key value) :
    ∀ e ∈ SortedAssoc.put key value c.mem, RoomFor e.1 e.2 := by
  intro e he
  rcases SortedAssoc.mem_put he with rfl | he
  · exact hroom
  · exact h.mem e he

theorem Finds.put (h : Finds snappy s c) (hc : c.HasRoom) (hroom : RoomFor key value)
    (hput : s.put snappy key value ones = some s') : ∃ c', Finds snappy s' c' ∧ c'.HasRoom := by
  obtain ⟨m, hm, hholds⟩ := h.memtable.put key value ones
  have hmem := hc.mem_put hroom
  simp only [KVStore_beta.put, hm, Option.bind_eq_bind, Option.bind_some] at hput
  split at hput
  · obtain ⟨u, hu, hres⟩ := Option.bind_eq_some_iff.mp hput
    obtain rfl := Option.some.inj hres
    obtain ⟨ssts, hfinds, hnew⟩ := h.addTable hholds hu
    refine ⟨⟨[], ssts⟩, ⟨SkipList.Holds.clear _, hfinds.tables⟩, by simp, ?_⟩
    intro es' hes'
    rcases hnew es' hes' with rfl | hold
    · exact hmem
    · exact hc.ssts es' hold
  · obtain rfl := Option.some.inj hput
    exact ⟨⟨_, c.ssts⟩, ⟨hholds, h.tables⟩, hmem, hc.ssts⟩

/-- The key is taken out of the memtable. -/
theorem Finds.erase (h : Finds snappy s c) (hdel : s.memtable_.del key = some (m, b)) :
    Finds snappy { s with memtable_ := m } { c with mem := erase key c.mem } := by
  obtain ⟨m', hm, hholds⟩ := h.memtable.del key
  obtain rfl := (Prod.mk.inj (Option.some.inj (hdel.symm.trans hm))).1
  exact ⟨hholds, h.tables⟩

/-- A tombstone is put into the memtable. -/
theorem Finds.tombstone (h : Finds snappy s c) (hput : s.memtable_.put key [] ones = some m) :
    Finds snappy { s with memtable_ := m } { c with mem := SortedAssoc.put key [] c.mem } := by
  obtain ⟨m', hm, hholds⟩ := h.memtable.put key [] ones
  obtain rfl := Option.some.inj (hput.symm.trans hm)
  exact ⟨hholds, h.tables⟩

end Finds

/-- What `del` looks up. -/
def Contents.found (c : Contents) (key : Bytes) : Option (Bool × Bytes) :=
  match c.mem.lookup key with
  | some v => some (true, v)
  | none => (visible (firstHit c.ssts key)).map fun v => (false, v)

theorem Finds.found {snappy : Snappy} {s : KVStore_beta} {c : Contents} (h : Finds snappy s c)
    (hinv : snappy.Inverts) (key : Bytes) : KVStore.found snappy s key = some (c.found key) := by
  unfold KVStore.found Contents.found
  rw [h.memtable.contains, Option.bind_eq_bind, Option.bind_some]
  cases hm : c.mem.lookup key with
  | some v =>
      rw [h.memtable.get, hm]
      rfl
  | none =>
      rw [h.search hinv]
      cases hs : firstHit c.ssts key with
      | none => rfl
      | some v => by_cases hv : v = [] <;> simp [lookupResult, visible, Option.filter, hv]

theorem Contents.HasRoom.found {c : Contents} {key value : Bytes} {inMem : Bool} (h : c.HasRoom)
    (hfound : c.found key = some (inMem, value)) : RoomFor key value := by
  unfold Contents.found at hfound
  cases hm : c.mem.lookup key with
  | some v =>
      rw [hm] at hfound
      obtain ⟨-, rfl⟩ := Prod.mk.inj (Option.some.inj hfound)
      obtain ⟨l₁, l₂, hsplit, -⟩ := List.lookup_eq_some_iff.mp hm
      exact h.mem (key, v) (by rw [hsplit]; simp)
  | none =>
      rw [hm] at hfound
      obtain ⟨v, hv, hres⟩ := Option.map_eq_some_iff.mp hfound
      obtain ⟨-, rfl⟩ := Prod.mk.inj hres
      obtain ⟨es, hes, hlook⟩ := List.exists_of_findSome?_eq_some (Option.filter_eq_some_iff.mp hv).1
      obtain ⟨l₁, l₂, hsplit, -⟩ := List.lookup_eq_some_iff.mp hlook
      exact h.ssts es hes (key, v) (by rw [hsplit]; simp)

namespace KVStore

variable {snappy : Snappy} {c : Contents}

/-- The records that are logged know their size, an `int32_t`. -/
def ShortRecords (w : World) : Event → Prop
  | .log e => LogManager.SizedRecords w.log e
  | .put _ _ key value _ => 32 + key.length + value.length < 2 ^ 31
  | .del _ _ _ _ _ | .wake _ | .store _ _ => True

/-- What is on its way into the store has room in the log buffer. -/
def Call.Fits (log : LogManager.World) (t : Nat) : Call → Prop
  | .idle => True
  | .putLog _ key value _ => ∃ r, log.waiting t = some r ∧ r.encode.length = 32 + key.length + value.length
  | .putStore key value _ => RoomFor key value
  | .delLog _ key _ _ _ | .delStore key _ _ => RoomFor key []

structure Fitting (snappy : Snappy) (w : World) : Prop where
  log : LogManager.Inv w.log
  store : ∃ c, Finds snappy w.store c ∧ c.HasRoom
  calls : ∀ t, (w.calls t).Fits w.log t

/-! ### One step -/

theorem appendNow_result (log : LogManager.World) (t : Nat) (r : LogRecord) : (log.appendNow t r).waiting t = none ∧
    (log.appendNow t r).appended = log.appended ++ [r.SetLsn log.mgr.next_lsn_] := by
  constructor
  · rw [LogManager.appendNow_waiting, if_pos rfl]
  · exact LogManager.appendNow_appended

section Fits

variable {log log' : LogManager.World} {e : LogManager.Event} {w : World} {t : Nat} {r : LogRecord}

theorem Call.Fits.next {call : Call} {u : Nat} (h : call.Fits log u) (hst : LogManager.next log e = some log')
    (hu : logThread e ≠ some u) : call.Fits log' u := by
  cases call with
  | putLog x key value add_writeset =>
      obtain ⟨r, hr, hlen⟩ := h
      exact ⟨r, (next_waiting hst hu).trans hr, hlen⟩
  | idle | delLog | putStore | delStore => exact h

/-- A record that has been appended had room. -/
theorem append_room (hI : LogManager.Inv log) (hr : r.Sized) (hst : LogManager.next log (.append t r) = some log') :
    log'.waiting t = some r ∨ log'.waiting t = none ∧ r.encode.length < LOG_BUFFER_SIZE := by
  cases LogManager.next_cases hst with
  | wait => exact Or.inl (if_pos rfl)
  | append _ hroom =>
      have := (LogManager.not_full_iff hr hI.offset).mp hroom
      exact Or.inr ⟨(appendNow_result log t r).1, by omega⟩

theorem wake_room (hI : LogManager.Inv log) (hwait : log.waiting t = some r)
    (hst : LogManager.next log (.wake t) = some log') :
    log'.waiting t = some r ∨ log'.waiting t = none ∧ r.encode.length < LOG_BUFFER_SIZE := by
  cases LogManager.next_cases hst with
  | sleep => exact Or.inl hwait
  | wake hr hroom =>
      obtain rfl := Option.some.inj (hwait.symm.trans hr)
      have := (LogManager.not_full_iff (hI.waiting t _ hwait) hI.offset).mp hroom
      exact Or.inr ⟨(appendNow_result log t _).1, by omega⟩

theorem delRecord_fits (txn : Transaction) {key value : Bytes} (inMem : Bool) (stale : Nat → UInt8)
    (hroom : RoomFor key value) : (delRecord txn key value inMem stale).Sized ∧
      (delRecord txn key value inMem stale).encode.length < LOG_BUFFER_SIZE := by
  have hsize := LOG_BUFFER_SIZE_eq
  unfold RoomFor at hroom
  have hsized := (delRecord_sized txn inMem stale (show 32 + key.length + value.length < 2 ^ 31 by omega)).1
  refine ⟨hsized, ?_⟩
  have hself := LogRecord.setLsn_self (delRecord txn key value inMem stale)
  have hlen : (if inMem then (List.range value.length).map stale else value).length = value.length := by
    split <;> simp
  rw [← hself, delRecord, LogRecord.length_encode_ofStrings (Or.inr rfl) (by omega) (by omega), hlen,
    LogRecord.HEADER_SIZE]
  omega

end Fits

section Invariant

variable {w w' : World} {t x : Nat} {key value : Bytes} {inMem add_writeset : Bool} {log' : LogManager.World}
  {e : LogManager.Event} {call : Call}

/-- The log takes a step in a call of thread `t`, which goes on as `call`. -/
theorem Fitting.logStep (h : Fitting snappy w) (hsized : LogManager.SizedRecords w.log e)
    (hst : LogManager.next w.log e = some log') (hthread : ∀ u, logThread e = some u → u = t)
    (hcall : call.Fits log' t) (hlog : w'.log = log') (hcalls : ∀ u, w'.calls u = if u = t then call else w.calls u)
    (hstore : w'.store = w.store) : Fitting snappy w' := by
  subst hlog
  refine ⟨LogManager.inv_step h.log ⟨hsized, hst⟩, by rw [hstore]; exact h.store, ?_⟩
  intro u
  rw [hcalls]
  by_cases hu : u = t
  · rw [if_pos hu, hu]
    exact hcall
  · rw [if_neg hu]
    exact (h.calls u).next hst (fun heq => hu (hthread u heq))

theorem Fitting.afterPutLog {r : LogRecord} (h : Fitting snappy w) (hsized : LogManager.SizedRecords w.log e)
    (hst : LogManager.next w.log e = some log') (hthread : ∀ u, logThread e = some u → u = t)
    (hr : r.encode.length = 32 + key.length + value.length)
    (hres : log'.waiting t = some r ∨ log'.waiting t = none ∧ r.encode.length < LOG_BUFFER_SIZE) :
    Fitting snappy (w.afterPutLog t x key value add_writeset log') := by
  rcases hres with hwait | ⟨hnone, hroom⟩
  · have hcall : (Call.putLog x key value add_writeset).Fits log' t := ⟨r, hwait, hr⟩
    rw [World.afterPutLog, hwait, if_pos Option.isSome_some]
    exact h.logStep hsized hst hthread hcall rfl (fun _ => rfl) rfl
  · have hcall : (Call.putStore key value w.log.mgr.next_lsn_).Fits log' t := by
      rw [hr] at hroom
      exact hroom
    rw [World.afterPutLog, hnone, if_neg (by simp)]
    exact h.logStep hsized hst hthread hcall rfl (fun _ => rfl) rfl

theorem Fitting.afterDelLog (h : Fitting snappy w) (hsized : LogManager.SizedRecords w.log e)
    (hst : LogManager.next w.log e = some log') (hthread : ∀ u, logThread e = some u → u = t)
    (hroom : RoomFor key []) : Fitting snappy (w.afterDelLog t x key value inMem add_writeset log') := by
  have hlog : (Call.delLog x key value inMem add_writeset).Fits log' t := hroom
  have hstore : (Call.delStore key inMem w.log.mgr.next_lsn_).Fits log' t := hroom
  unfold World.afterDelLog
  split
  · exact h.logStep hsized hst hthread hlog rfl (fun _ => rfl) rfl
  · exact h.logStep hsized hst hthread hstore rfl (fun _ => rfl) rfl

/-- A call has ended in the store. -/
theorem Fitting.endCall (h : Fitting snappy w) (t : Nat) (hlog : w'.log = w.log)
    (hcalls : ∀ u, w'.calls u = if u = t then .idle else w.calls u)
    (hstore : ∃ c, Finds snappy w'.store c ∧ c.HasRoom) : Fitting snappy w' := by
  refine ⟨by rw [hlog]; exact h.log, hstore, ?_⟩
  intro u
  rw [hcalls, hlog]
  split
  · trivial
  · exact h.calls u

/-- **Step lemma.** -/
theorem Fitting.step {e : Event} (hinv : snappy.Inverts) (h : Fitting snappy w)
    (hst : Guarded ShortRecords (FunStep (next snappy)) w e w') : Fitting snappy w' := by
  obtain ⟨hok, hst⟩ := hst
  obtain ⟨c, hc, hroom⟩ := h.store
  cases next_cases hst with
  | @log e log' hidle hlog =>
      refine ⟨LogManager.inv_step h.log ⟨hok, hlog⟩, h.store, ?_⟩
      intro u
      by_cases hu : logThread e = some u
      · -- the thread is not in a call of the store
        show (w.calls u).Fits log' u
        rw [hidle u hu]
        trivial
      · exact (h.calls u).next hlog hu
  | @put t x key value aw log' hlog =>
      have hsized := (putRecord_sized (w.txns x) hok).1
      apply h.afterPutLog (e := .append t (putRecord (w.txns x) key value)) hsized hlog
      · exact fun u hu => (Option.some.inj hu).symm
      · exact length_putRecord (w.txns x) hok
      · exact append_room h.log hsized hlog
  | absent => exact h
  | @del t x key value stale inMem aw log' hfound hlog =>
      rw [hc.found hinv] at hfound
      have hfits := hroom.found (Option.some.inj hfound)
      have hsized := (delRecord_fits (w.txns x) inMem stale hfits).1
      apply h.afterDelLog (e := .append t (delRecord (w.txns x) key value inMem stale)) hsized hlog
      · exact fun u hu => (Option.some.inj hu).symm
      · unfold RoomFor at hfits ⊢
        rw [List.length_nil]
        omega
  | @wakePut t x key value aw log' hcall hlog =>
      have hfits := h.calls t
      rw [hcall] at hfits
      obtain ⟨r, hwait, hr⟩ := hfits
      apply h.afterPutLog (e := .wake t) trivial hlog
      · exact fun u hu => (Option.some.inj hu).symm
      · exact hr
      · exact wake_room h.log hwait hlog
  | @wakeDel t x key value inMem aw log' hcall hlog =>
      have hfits := h.calls t
      rw [hcall] at hfits
      apply h.afterDelLog (e := .wake t) trivial hlog
      · exact fun u hu => (Option.some.inj hu).symm
      · exact hfits
  | @storePut t ones key value lsn memtable store hcall hmem hstore =>
      have hfits := h.calls t
      rw [hcall] at hfits
      refine h.endCall t (noteSpill_log ..) (fun u => noteSpill_calls ..) ?_
      rw [noteSpill_store]
      exact hc.put hroom hfits hstore
  | @storeDelMem t ones key lsn memtable b hcall hmem =>
      refine h.endCall t rfl (fun _ => rfl) ⟨_, hc.erase hmem, ?_, hroom.ssts⟩
      exact fun e he => hroom.mem e (List.mem_filter.mp he).1
  | @storeDelDisk t ones key lsn memtable hcall hmem =>
      have hfits := h.calls t
      rw [hcall] at hfits
      exact h.endCall t rfl (fun _ => rfl) ⟨_, hc.tombstone hmem, hroom.mem_put hfits, hroom.ssts⟩

/-- **Run lemma.** -/
theorem fitting_run {a b : Vector UInt8 LOG_BUFFER_SIZE} {store : KVStore_beta} {txns : Nat → Transaction}
    {es : List Event} (hinv : snappy.Inverts) (hopen : KVStore_beta.new {} = some store)
    (h : Run (Guarded ShortRecords (FunStep (next snappy))) (World.init (LogManager.World.init a b) store txns) es w) :
    Fitting snappy w := by
  apply h.invariant (I := Fitting snappy) (fun _ _ _ hi hst => hi.step hinv hst)
  refine ⟨LogManager.inv_init a b, ⟨{}, (represents_empty hopen).finds, by simp, by simp⟩, fun _ => trivial⟩

end Invariant

end KVStore
end DDBMS
