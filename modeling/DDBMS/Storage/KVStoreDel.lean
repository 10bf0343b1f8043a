import DDBMS.Storage.KVStoreRoom
import DDBMS.Storage.KVStoreWriteAhead

/-!
# `Storage.KVStoreDel` — what a logged `del` does

A delete is exact (`DelExact`) when it returns true for the keys that have a value and for no other, leaves no value behind,
and logs what it takes out. `KVStore::del` asks the memtable whether it has the key, and not what is there: it returns
true for a tombstone. And it only removes the key from the memtable, so that the value of a table shows again. It is
exact if and only if neither happens (`DelOk`).
-/

namespace DDBMS

open SortedAssoc

/-! ## On the contents -/

namespace Contents

variable {c : Contents} {key k : Bytes}

/-- If the memtable has the key then with a value, and no table has one. -/
def DelOk (c : Contents) (key : Bytes) : Prop :=
  ∀ v, c.mem.lookup key = some v → v ≠ [] ∧ visible (firstHit c.ssts key) = none

theorem value_del_ne (hk : k ≠ key) : (c.del key).1.value k = c.value k := by
  unfold del
  split
  · simp only [value, lookup_erase_ne hk]
  · split
    · simp only [value, lookup_put_ne hk]
    · rfl

/-- The result says whether there was a value, and none is left, if and only if `DelOk`. -/
theorem del_hides_iff : ((c.del key).2 = (visible (c.value key)).isSome ∧ visible ((c.del key).1.value key) = none) ↔
    c.DelOk key := by
  unfold del DelOk
  cases hm : c.mem.lookup key with
  | some v =>
      have hbefore : c.value key = some v := by rw [value, hm, Option.some_or]
      have hafter : ({ c with mem := erase key c.mem } : Contents).value key = firstHit c.ssts key := by
        rw [value, lookup_erase_self, Option.none_or]
      rw [if_pos Option.isSome_some, hbefore, hafter]
      constructor
      · rintro ⟨hseen, hgone⟩ v' hv'
        obtain rfl := Option.some.inj hv'
        refine ⟨?_, hgone⟩
        rintro rfl
        simp [visible] at hseen
      · intro h
        obtain ⟨hv, hgone⟩ := h v rfl
        exact ⟨by rw [visible_some hv]; rfl, hgone⟩
  | none =>
      have hbefore : c.value key = firstHit c.ssts key := by rw [value, hm, Option.none_or]
      rw [if_neg (by simp), hbefore]
      refine iff_of_true ?_ (fun v hv => by cases hv)
      -- a tombstone goes over the value of a table
      by_cases hs : (visible (firstHit c.ssts key)).isSome = true
      · rw [if_pos hs]
        refine ⟨hs.symm, ?_⟩
        rw [value, lookup_put_self]
        rfl
      · rw [if_neg hs, hbefore]
        rw [Bool.not_eq_true] at hs
        exact ⟨hs.symm, Option.not_isSome_iff_eq_none.mp (by simp [hs])⟩

/-- `del`, by what it looks up. -/
theorem del_found (c : Contents) (key : Bytes) : c.del key = match c.found key with
    | some (true, _) => ({ c with mem := erase key c.mem }, true)
    | some (false, _) => ({ c with mem := SortedAssoc.put key [] c.mem }, true)
    | none => (c, false) := by
  unfold del found
  cases hm : c.mem.lookup key with
  | some v => rw [if_pos Option.isSome_some]
  | none =>
      rw [if_neg (by simp)]
      cases hs : visible (firstHit c.ssts key) with
      | some v => rw [if_pos Option.isSome_some, Option.map_some]
      | none => rw [if_neg (by simp), Option.map_none]

theorem value_found {b : Bool} {v : Bytes} (h : c.found key = some (b, v)) : c.value key = some v := by
  unfold found at h
  unfold value
  cases hm : c.mem.lookup key with
  | some v' =>
      rw [hm] at h
      obtain ⟨-, rfl⟩ := Prod.mk.inj (Option.some.inj h)
      rfl
  | none =>
      rw [hm] at h
      obtain ⟨v', hv', hres⟩ := Option.map_eq_some_iff.mp h
      obtain ⟨-, rfl⟩ := Prod.mk.inj hres
      rw [Option.none_or]
      exact (Option.filter_eq_some_iff.mp hv').1

end Contents

namespace KVStore

/-! ## One call -/

/-- Next to a call of thread `t` there is only the flush thread. -/
def Alone (t : Nat) (_ : World) : Event → Prop
  | .wake u => u = t
  | .log e => e.Flushes
  | .put _ _ _ _ _ | .del _ _ _ _ _ | .store _ _ => False

/-- Thread `t` is in no call, and may take `mutex_`. -/
structure World.Ready (w : World) (t : Nat) : Prop where
  idle : w.calls t = .idle
  waiting : w.log.waiting t = none
  mutex : w.mutex_ = none

/-- A call of `del` by thread `t` for transaction `x`, from its start to its end. `result` is what it returns. -/
inductive DelCall (snappy : Snappy) (t x : Nat) (key : Bytes) (stale : Nat → UInt8) (w : World) :
    (result : Bool) → World → Prop
  | absent {w' : World} (hdel : next snappy w (.del t x key stale true) = some w') (hcall : w'.calls t = .idle) :
      DelCall snappy t x key stale w false w'
  | deleted {w₁ w₂ w' : World} {es : List Event} {ones : Nat}
      (hdel : next snappy w (.del t x key stale true) = some w₁) (hcall : w₁.calls t ≠ .idle)
      (hwait : Run (Guarded (Alone t) (FunStep (next snappy))) w₁ es w₂)
      (hstore : next snappy w₂ (.store t ones) = some w') : DelCall snappy t x key stale w true w'

/-- Behind its start, the call waits in `AppendLogRecord`, or its record is in the log. -/
inductive Deleting (w : World) (t x : Nat) (key : Bytes) (inMem : Bool) (value : Bytes) (r : LogRecord) (w' : World) : Prop
  | waiting (call : w'.calls t = .delLog x key value inMem true) (wait : w'.log.waiting t = some r)
      (appended : w'.log.appended = w.log.appended) (txns : w'.txns = w.txns) (store : w'.store = w.store)
  | logged (lsn : Int) (call : w'.calls t = .delStore key inMem lsn) (wait : w'.log.waiting t = none)
      (appended : w'.log.appended = w.log.appended ++ [r.SetLsn lsn])
      (txn : w'.txns x = (w.txns x).logged lsn ⟨.DELETE_TUPLE, key, value⟩ true) (store : w'.store = w.store)

variable {snappy : Snappy}

section Call

variable {w w₁ w₂ w' : World} {t x : Nat} {key value : Bytes} {stale : Nat → UInt8} {inMem result : Bool} {r : LogRecord}
  {log' : LogManager.World} {e : Event} {es : List Event}

theorem setCall_self (w : World) (t : Nat) (call : Call) : (w.setCall t call).calls t = call := if_pos rfl

/-- `AppendLogRecord` has returned, or goes on waiting. -/
theorem deleting_afterDelLog (hlog : w₁.log.appended = w.log.appended) (htxns : w₁.txns = w.txns)
    (hstore : w₁.store = w.store)
    (hres : log'.waiting t = some r ∧ log'.appended = w₁.log.appended ∨
      log'.waiting t = none ∧ log'.appended = w₁.log.appended ++ [r.SetLsn w₁.log.mgr.next_lsn_]) :
    Deleting w t x key inMem value r (w₁.afterDelLog t x key value inMem true log') := by
  unfold World.afterDelLog
  rcases hres with ⟨hwait, happ⟩ | ⟨hnone, happ⟩
  · rw [hwait, if_pos Option.isSome_some]
    exact .waiting (setCall_self ..) hwait (happ.trans hlog) htxns hstore
  · rw [hnone, if_neg (by simp)]
    refine .logged w₁.log.mgr.next_lsn_ (setCall_self ..) hnone ?_ ?_ hstore
    · rw [← hlog]
      exact happ
    · rw [← htxns]
      exact if_pos rfl

/-- The first half of the call. -/
theorem deleting_del (hfound : found snappy w.store key = some (some (inMem, value)))
    (hdel : next snappy w (.del t x key stale true) = some w₁) :
    Deleting w t x key inMem value (delRecord (w.txns x) key value inMem stale) w₁ := by
  simp only [next] at hdel
  split at hdel
  · simp only [hfound, Option.bind_eq_bind, Option.bind_some] at hdel
    obtain ⟨log', hlog, rfl⟩ := Option.map_eq_some_iff.mp hdel
    apply deleting_afterDelLog rfl rfl rfl
    obtain ⟨-, rfl | rfl⟩ := LogManager.append_cases hlog
    · exact Or.inl ⟨if_pos rfl, rfl⟩
    · exact Or.inr (appendNow_result w.log t _)
  · cases hdel

/-- The call goes on waiting, wakes up, or stands where it stood. -/
theorem Deleting.step (h : Deleting w t x key inMem value r w₁)
    (hst : Guarded (Alone t) (FunStep (next snappy)) w₁ e w₂) : Deleting w t x key inMem value r w₂ := by
  obtain ⟨hown, hst⟩ := hst
  cases next_cases hst with
  | log hidle hlog =>
      obtain ⟨happ, hwaiting, -⟩ := LogManager.flush_frame hlog hown
      cases h with
      | waiting hcall hwait happ' htxns hstore =>
          exact .waiting hcall ((congrFun hwaiting t).trans hwait) (happ.trans happ') htxns hstore
      | logged lsn hcall hwait happ' htxn hstore =>
          exact .logged lsn hcall ((congrFun hwaiting t).trans hwait) (happ.trans happ') htxn hstore
  | @wakePut u y key' value' aw log' hcall' hlog =>
      obtain rfl : u = t := hown
      cases h with
      | waiting hcall => cases hcall'.symm.trans hcall
      | logged lsn hcall => cases hcall'.symm.trans hcall
  | @wakeDel u y key' value' inMem' aw log' hcall' hlog =>
      obtain rfl : u = t := hown
      cases h with
      | waiting hcall hwait happ htxns hstore =>
          obtain ⟨rfl, rfl, rfl, rfl, rfl⟩ := Call.delLog.inj (hcall'.symm.trans hcall)
          apply deleting_afterDelLog happ htxns hstore
          obtain ⟨r', hr', rfl | rfl⟩ := LogManager.wake_cases hlog
          · exact Or.inl ⟨hwait, rfl⟩
          · obtain rfl := Option.some.inj (hwait.symm.trans hr')
            exact Or.inr (appendNow_result w₁.log u _)
      | logged lsn hcall => cases hcall'.symm.trans hcall
  | put | absent | del | storePut | storeDelMem | storeDelDisk => exact hown.elim

theorem Deleting.run (h : Deleting w t x key inMem value r w₁)
    (hrun : Run (Guarded (Alone t) (FunStep (next snappy))) w₁ es w₂) : Deleting w t x key inMem value r w₂ :=
  hrun.invariant (I := Deleting w t x key inMem value r) (fun _ _ _ hi hst => hi.step hst) h

/-- The call is over: what `AppendLogRecord` has done is still there, and the key is out of the store. -/
theorem Deleting.store {c : Contents} {ones : Nat} (h : Deleting w t x key inMem value r w₂) (hc : Finds snappy w.store c)
    (hfound : c.found key = some (inMem, value)) (hst : next snappy w₂ (.store t ones) = some w') :
    Finds snappy w'.store (c.del key).1 ∧ w'.Ready t ∧ ∃ lsn, w'.log.appended = w.log.appended ++ [r.SetLsn lsn] ∧
      w'.txns x = (w.txns x).logged lsn ⟨.DELETE_TUPLE, key, value⟩ true := by
  rw [Contents.del_found, hfound]
  cases h with
  | waiting call =>
      cases next_cases hst with
      | storePut hcall | storeDelMem hcall | storeDelDisk hcall => cases hcall.symm.trans call
  | logged lsn call hwait happ htxn hstore =>
      rw [← hstore] at hc
      cases next_cases hst with
      | storePut hcall => cases hcall.symm.trans call
      | storeDelMem hcall hmem =>
          obtain ⟨rfl, rfl, rfl⟩ := Call.delStore.inj (hcall.symm.trans call)
          exact ⟨hc.erase hmem, ⟨setCall_self .., hwait, rfl⟩, _, happ, htxn⟩
      | storeDelDisk hcall hmem =>
          obtain ⟨rfl, rfl, rfl⟩ := Call.delStore.inj (hcall.symm.trans call)
          exact ⟨hc.tombstone hmem, ⟨setCall_self .., hwait, rfl⟩, _, happ, htxn⟩

theorem Deleting.busy (h : Deleting w t x key inMem value r w₁) : w₁.calls t ≠ .idle := by
  cases h with
  | waiting call => simp [call]
  | logged lsn call => simp [call]

theorem del_absent (hfound : found snappy w.store key = some none)
    (hdel : next snappy w (.del t x key stale true) = some w₁) : w₁ = w := by
  simp only [next] at hdel
  split at hdel
  · simp only [hfound, Option.bind_eq_bind, Option.bind_some] at hdel
    exact (Option.some.inj hdel).symm
  · cases hdel

/-- What a call of `del` does, by what it looks up. -/
structure Deleted (snappy : Snappy) (w : World) (c : Contents) (t x : Nat) (key : Bytes) (stale : Nat → UInt8)
    (w' : World) : Prop where
  ready : w'.Ready t
  store : Finds snappy w'.store (c.del key).1
  absent : c.found key = none → w' = w
  logged : ∀ inMem value, c.found key = some (inMem, value) → ∃ lsn,
    w'.log.appended = w.log.appended ++ [(delRecord (w.txns x) key value inMem stale).SetLsn lsn] ∧
    w'.txns x = (w.txns x).logged lsn ⟨.DELETE_TUPLE, key, value⟩ true

theorem DelCall.spec {c : Contents} (hinv : snappy.Inverts) (hc : Finds snappy w.store c) (hready : w.Ready t)
    (h : DelCall snappy t x key stale w result w') :
    result = (c.del key).2 ∧ Deleted snappy w c t x key stale w' := by
  have hlook := hc.found hinv key
  cases hfound : c.found key with
  | none =>
      rw [hfound] at hlook
      have hdel := Contents.del_found c key
      rw [hfound] at hdel
      cases h with
      | absent hnext hcall =>
          obtain rfl := del_absent hlook hnext
          rw [hdel]
          exact ⟨rfl, hready, by rw [hdel]; exact hc, fun _ => rfl, fun _ _ hsome => (by cases hfound.symm.trans hsome)⟩
      | deleted hnext hcall =>
          obtain rfl := del_absent hlook hnext
          exact absurd hready.idle hcall
  | some p =>
      obtain ⟨inMem, value⟩ := p
      rw [hfound] at hlook
      have hdel : (c.del key).2 = true := by
        rw [Contents.del_found, hfound]
        cases inMem <;> rfl
      cases h with
      | absent hnext hcall => exact absurd hcall (deleting_del hlook hnext).busy
      | deleted hnext hcall hwait hstore =>
          obtain ⟨hfinds, hafter, hlogged⟩ := ((deleting_del hlook hnext).run hwait).store hc hfound hstore
          refine ⟨hdel.symm, hafter, hfinds, fun hnone => (by cases hfound.symm.trans hnone), ?_⟩
          intro inMem' value' hsome
          obtain ⟨rfl, rfl⟩ := Prod.mk.inj (Option.some.inj (hfound.symm.trans hsome))
          exact hlogged

/-! ### The call returns -/

/-- The flush thread works on next to the store. -/
theorem run_flushes {fs : List LogManager.Event}
    (hrun : Run (Guarded (fun _ e => e.Flushes) (FunStep LogManager.next)) w.log fs log') :
    Run (Guarded (Alone t) (FunStep (next snappy))) w (fs.map .log) { w with log := log' } := by
  induction hrun with
  | refl => exact Run.refl
  | @tail _ _ _ f _ hst ih =>
      rw [List.map_append]
      refine Run.tail ih ⟨hst.1, next_log ?_ hst.2⟩
      cases f with
      | append | wake => exact hst.1.elim
      | swap | write | store | reset => rfl

/-- When the record is in the log, the rest of the call cannot fail. -/
theorem Deleting.ends {c : Contents} {lsn : Int} (hc : Finds snappy w.store c) (hcall : w₂.calls t = .delStore key inMem lsn)
    (hstore : w₂.store = w.store) : ∃ w', next snappy w₂ (.store t 0) = some w' := by
  rw [← hstore] at hc
  cases inMem with
  | true =>
      obtain ⟨m, hm, -⟩ := hc.memtable.del key
      simp only [next, hcall, hm, Option.bind_eq_bind, Option.bind_some]
      exact ⟨_, rfl⟩
  | false =>
      obtain ⟨m, hm, -⟩ := hc.memtable.put key [] 0
      simp only [next, hcall, hm, Option.bind_eq_bind, Option.bind_some]
      exact ⟨_, rfl⟩

/-- The wait ends: the flush thread empties the buffer, and then the record fits. -/
theorem Deleting.wakes (h : Deleting w t x key inMem value r w₁) (hsized : r.Sized)
    (hroom : r.encode.length < LOG_BUFFER_SIZE) : ∃ es w₂ lsn, Run (Guarded (Alone t) (FunStep (next snappy))) w₁ es w₂ ∧
      w₂.calls t = .delStore key inMem lsn ∧ w₂.store = w.store := by
  cases h with
  | logged lsn call hwait happ htxn hstore => exact ⟨[], w₁, lsn, Run.refl, call, hstore⟩
  | waiting call hwait happ htxns hstore =>
      obtain ⟨fs, log', hrun, hoff⟩ := LogManager.drains w₁.log
      have hflush : Run (Guarded (Alone t) (FunStep (next snappy))) _ (fs.map Event.log) { w₁ with log := log' } := run_flushes hrun
      have hwait' : log'.waiting t = some r := by
        refine hrun.invariant (I := fun log => log.waiting t = some r) ?_ hwait
        intro log e log' hlog hst
        exact (congrFun (LogManager.flush_frame hst.2 hst.1).2.1 t).trans hlog
      have hfits : ¬ log'.mgr.Full r := by
        have hzero : log'.mgr.log_buffer_write_offset_ < LOG_BUFFER_SIZE := by omega
        rw [LogManager.not_full_iff hsized hzero]
        omega
      have hwake : next snappy { w₁ with log := log' } (.wake t) =
          some (World.afterDelLog { w₁ with log := log' } t x key value inMem true (log'.appendNow t r)) := by
        simp only [next, call, LogManager.next, hwait', if_neg hfits, Option.map_some]
      have hown : Alone t { w₁ with log := log' } (.wake t) := rfl
      refine ⟨_, _, log'.mgr.next_lsn_, hflush.append (Run.single ⟨hown, hwake⟩), ?_, ?_⟩
      · rw [World.afterDelLog, (appendNow_result log' t r).1, if_neg (by simp)]
        exact setCall_self ..
      · rw [afterDelLog_store]
        exact hstore

theorem delCall_returns {c : Contents} (hinv : snappy.Inverts) (hc : Finds snappy w.store c) (hroom : c.HasRoom)
    (hready : w.Ready t) : ∃ result w', DelCall snappy t x key stale w result w' := by
  obtain ⟨hidle, hwait, hmutex⟩ := hready
  have hlook := hc.found hinv key
  cases hfound : c.found key with
  | none =>
      have hdel : next snappy w (.del t x key stale true) = some w := by
        rw [hfound] at hlook
        simp only [next, hidle, hmutex, and_self, if_true, hlook, Option.bind_eq_bind, Option.bind_some]
      exact ⟨false, w, .absent hdel hidle⟩
  | some p =>
      obtain ⟨inMem, value⟩ := p
      rw [hfound] at hlook
      obtain ⟨hsized, hlt⟩ := delRecord_fits (w.txns x) inMem stale (hroom.found hfound)
      obtain ⟨log', hlog⟩ : ∃ log', LogManager.next w.log (.append t (delRecord (w.txns x) key value inMem stale)) =
          some log' := by
        simp only [LogManager.next, hwait, ne_eq, not_true_eq_false, if_false]
        split <;> exact ⟨_, rfl⟩
      have hdel : next snappy w (.del t x key stale true) = some (w.afterDelLog t x key value inMem true log') := by
        simp only [next, hidle, hmutex, and_self, if_true, hlook, hlog, Option.bind_eq_bind, Option.bind_some,
          Option.map_some]
      have hdeleting := deleting_del hlook hdel
      obtain ⟨es, w₂, lsn, hrun, hcall, hstore⟩ :
          ∃ es w₂ lsn, Run (Guarded (Alone t) (FunStep (next snappy))) _ es w₂ ∧ _ ∧ _ := hdeleting.wakes hsized hlt
      obtain ⟨w', hend⟩ := Deleting.ends hc hcall hstore
      exact ⟨true, w', .deleted hdel hdeleting.busy hrun hend⟩

end Call

/-! ## Exact deletes -/

/-- The key is not in the memtable, or it has a value there and none in the tables. -/
def DelOk (snappy : Snappy) (s : KVStore_beta) (key : Bytes) : Prop :=
  ∀ v, s.memtable_.get key = some (true, v) → v ≠ [] ∧ ∀ v', s.search snappy key = some (true, v') → v' = []

/-- What a call of `del` should do, in every course that it may take next to the flush thread. -/
structure DelExact (snappy : Snappy) (w : World) (t x : Nat) (key : Bytes) (stale : Nat → UInt8) : Prop where
  returns : ∃ result w', DelCall snappy t x key stale w result w'
  result : ∀ result w', DelCall snappy t x key stale w result w' →
    (result = true ↔ ∃ v, w.store.get snappy key = some (true, v))
  logged : ∀ w', DelCall snappy t x key stale w true w' → ∃ r v,
    w'.log.appended = w.log.appended ++ [r] ∧ r.log_type_ = .DELETE ∧ r.key_ = key ∧
    w.store.get snappy key = some (true, v) ∧
    (w'.txns x).write_set_ = (w.txns x).write_set_ ++ [⟨.DELETE_TUPLE, key, v⟩]
  gone : ∀ w', DelCall snappy t x key stale w true w' → w'.store.get snappy key = some (false, [])
  unchanged : ∀ w', DelCall snappy t x key stale w false w' → w' = w
  others : ∀ result w', DelCall snappy t x key stale w result w' → ∀ k ≠ key,
    w'.store.get snappy k = w.store.get snappy k

section Exact

variable {w w' : World} {t x : Nat} {key : Bytes} {stale : Nat → UInt8} {c : Contents} {s : KVStore_beta}

theorem delOk_iff (hinv : snappy.Inverts) (hc : Finds snappy s c) : DelOk snappy s key ↔ c.DelOk key := by
  unfold DelOk Contents.DelOk
  simp only [hc.memtable.get, hc.search hinv, Option.some.injEq, lookupResult_eq_true, visible_eq_none]

theorem get_true_iff (hinv : snappy.Inverts) (hc : Finds snappy s c) :
    (∃ v, s.get snappy key = some (true, v)) ↔ (visible (c.value key)).isSome = true := by
  simp only [hc.get hinv, Option.some.injEq, lookupResult_eq_true, Option.isSome_iff_exists]

theorem get_false_iff (hinv : snappy.Inverts) (hc : Finds snappy s c) :
    s.get snappy key = some (false, []) ↔ visible (c.value key) = none := by
  rw [hc.get hinv, Option.some.injEq]
  cases visible (c.value key) <;> simp [lookupResult]

/-- The DELETE record, and the write record of what `get` returned. -/
theorem Deleted.exact (h : Deleted snappy w c t x key stale w') (hinv : snappy.Inverts) (hc : Finds snappy w.store c)
    (hsome : (c.del key).2 = true) (hseen : (visible (c.value key)).isSome = true) : ∃ r v,
      w'.log.appended = w.log.appended ++ [r] ∧ r.log_type_ = .DELETE ∧ r.key_ = key ∧
      w.store.get snappy key = some (true, v) ∧
      (w'.txns x).write_set_ = (w.txns x).write_set_ ++ [⟨.DELETE_TUPLE, key, v⟩] := by
  cases hfound : c.found key with
  | none =>
      rw [Contents.del_found, hfound] at hsome
      cases hsome
  | some p =>
      obtain ⟨inMem, value⟩ := p
      obtain ⟨lsn, happ, htxn⟩ := h.logged inMem value hfound
      have hvalue := Contents.value_found hfound
      obtain ⟨v, hv⟩ := Option.isSome_iff_exists.mp hseen
      obtain rfl : value = v := by
        rw [hvalue] at hv
        exact Option.some.inj (Option.filter_eq_some_iff.mp hv).1
      refine ⟨_, value, happ, rfl, rfl, ?_, by rw [htxn]; rfl⟩
      rw [hc.get hinv, hv]
      rfl

/-- **A delete is exact** if and only if the key is not in the memtable, or has a value there and none in the tables. -/
theorem delExact_of_finds (hinv : snappy.Inverts) (hc : Finds snappy w.store c) (hroom : c.HasRoom) (hready : w.Ready t) :
    DelExact snappy w t x key stale ↔ DelOk snappy w.store key := by
  rw [delOk_iff hinv hc, ← Contents.del_hides_iff]
  have hspec : ∀ result w', DelCall snappy t x key stale w result w' →
      result = (c.del key).2 ∧ Deleted snappy w c t x key stale w' := fun _ _ h => h.spec hinv hc hready
  constructor
  · intro hexact
    obtain ⟨result, w', hcall⟩ := hexact.returns
    obtain ⟨hresult, hdeleted⟩ := hspec result w' hcall
    have htrue := hexact.result result w' hcall
    rw [get_true_iff hinv hc, hresult, Bool.eq_iff_iff.symm] at htrue
    refine ⟨htrue, ?_⟩
    cases result with
    | true => exact (get_false_iff hinv hdeleted.store).mp (hexact.gone w' hcall)
    | false =>
        obtain rfl := hexact.unchanged w' hcall
        rw [← get_false_iff hinv hdeleted.store, get_false_iff hinv hc, ← Option.not_isSome_iff_eq_none, ← htrue, ← hresult]
        simp
  · rintro ⟨htrue, hgone⟩
    constructor
    · exact delCall_returns hinv hc hroom hready
    · intro result w' hcall
      rw [get_true_iff hinv hc, ← htrue, (hspec result w' hcall).1]
    · intro w' hcall
      obtain ⟨hresult, hdeleted⟩ := hspec true w' hcall
      exact hdeleted.exact hinv hc hresult.symm (htrue.symm.trans hresult.symm)
    · intro w' hcall
      exact (get_false_iff hinv (hspec true w' hcall).2.store).mpr hgone
    · intro w' hcall
      obtain ⟨hresult, hdeleted⟩ := hspec false w' hcall
      apply hdeleted.absent
      rw [Contents.del_found] at hresult
      cases hfound : c.found key with
      | none => rfl
      | some p =>
          rw [hfound] at hresult
          obtain ⟨_ | _, value⟩ := p <;> cases hresult
    · intro result w' hcall k hk
      rw [(hspec result w' hcall).2.store.get hinv, hc.get hinv, Contents.value_del_ne hk]

end Exact

/-- The values that are put are not empty. -/
def Event.PutsValue : Event → Prop
  | .put _ _ _ value _ => value ≠ []
  | .log _ | .del _ _ _ _ _ | .wake _ | .store _ _ => True

/-- The calls that spill the memtable, all by thread 0. -/
def spillCalls : List Event :=
  (List.range 46).flatMap (putRound wideValue) ++ [.put 0 0 [UInt8.ofNat 46] wideValue true, .store 0 0] ++ flush

theorem spillCalls_putValues : ∀ e ∈ spillCalls, e.PutsValue := by
  have hvalue : wideValue ≠ [] := by
    rw [Ne, ← List.length_eq_zero_iff, length_wideValue]
    decide
  intro e he
  simp only [spillCalls, putRound, flush, List.mem_append, List.mem_flatMap, List.mem_cons, List.not_mem_nil, or_false] at he
  rcases he with (⟨n, -, (rfl | rfl) | rfl | rfl | rfl | rfl⟩ | rfl | rfl) | rfl | rfl | rfl | rfl <;>
    first | exact hvalue | trivial

theorem shortRecords_of_flushedFirst {w w' : World} {e : Event}
    (h : Guarded (FlushedFirst snappy) (FunStep (next snappy)) w e w') :
    Guarded ShortRecords (FunStep (next snappy)) w e w' := by
  refine ⟨?_, h.2⟩
  cases e with
  | log e => exact h.1
  | put => exact h.1
  | del | wake | store => trivial

/-- The 47 keys that have been put are in a table, and the memtable is empty. -/
theorem exists_spilled : ∃ s₀ w, KVStore_beta.new {} = some s₀ ∧
    Run (Guarded ShortRecords (FunStep (next SnappyLiterals.snappy))) (start s₀) spillCalls w ∧ w.Ready 0 ∧
    Finds SnappyLiterals.snappy w.store ⟨[], [keyed (fun _ => wideValue) 47]⟩ := by
  obtain ⟨s₀, hopen⟩ : ∃ s₀, KVStore_beta.new {} = some s₀ := ⟨_, rfl⟩
  obtain ⟨w, hrun, hlog, hcall, hw⟩ := run_putRounds length_wideValue hopen (le_refl 46)
  obtain ⟨w₁, hput, hlog₁, hcall₁, hw₁⟩ := next_put length_wideValue hlog hcall (by decide)
  obtain ⟨w₂, hstore, hlogeq, hcall₂, -, hspilled⟩ := next_store length_wideValue (by decide) (hw₁ hw) hcall₁
  obtain ⟨-, hmutex, hfinds⟩ := hspilled rfl
  rw [← hlogeq] at hlog₁
  obtain ⟨log', hflush, hlog'⟩ := run_flush hlog₁ (by decide) (by decide)
  have hlast : Guarded ShortRecords (FunStep (next SnappyLiterals.snappy)) w₁ (.store 0 0) w₂ := ⟨trivial, hstore⟩
  refine ⟨s₀, { w₂ with log := log' }, hopen, ?_, ⟨hcall₂, congrFun hlog'.quiet.waiting 0, hmutex⟩, hfinds.finds⟩
  exact ((hrun.mono fun _ _ _ h => shortRecords_of_flushedFirst h).append
    (Run.cons (shortRecords_of_flushedFirst hput) (Run.single hlast))).append
      (hflush.mono fun _ _ _ h => shortRecords_of_flushedFirst h)

/-- A call of `del` is part of a run. -/
theorem DelCall.run {w w' : World} {t x : Nat} {key : Bytes} {stale : Nat → UInt8} {result : Bool}
    (h : DelCall snappy t x key stale w result w') : ∃ es, (∀ e ∈ es, e.PutsValue) ∧
      Run (Guarded ShortRecords (FunStep (next snappy))) w es w' := by
  have hstart : ∀ w, ShortRecords w (.del t x key stale true) := fun _ => trivial
  cases h with
  | absent hdel => exact ⟨[_], by simp [Event.PutsValue], Run.single ⟨hstart w, hdel⟩⟩
  | @deleted w₁ w₂ _ es ones hdel hcall hwait hstore =>
      have hend : ShortRecords w₂ (.store t ones) := trivial
      have hvalues : ∀ e ∈ es, e.PutsValue := by
        refine hwait.history (I := fun es _ => ∀ e ∈ es, e.PutsValue) (by simp) ?_
        intro es w e w' hes hst e' he'
        rcases List.mem_append.mp he' with he' | he'
        · exact hes e' he'
        · obtain rfl := List.mem_singleton.mp he'
          cases e' with
          | put => exact hst.1.elim
          | log | del | wake | store => trivial
      have hshort : ∀ w e w', Guarded (Alone t) (FunStep (next snappy)) w e w' →
          Guarded ShortRecords (FunStep (next snappy)) w e w' := by
        intro w e w' hst
        refine ⟨?_, hst.2⟩
        cases e with
        | log e =>
            cases e with
            | append => exact hst.1.elim
            | wake | swap | write | store | reset => trivial
        | put => exact hst.1.elim
        | del | wake | store => trivial
      refine ⟨.del t x key stale true :: (es ++ [.store t ones]), ?_, ?_⟩
      · intro e he
        rcases List.mem_cons.mp he with rfl | he
        · trivial
        · rcases List.mem_append.mp he with he | he
          · exact hvalues e he
          · obtain rfl := List.mem_singleton.mp he
            trivial
      · exact Run.cons ⟨hstart w, hdel⟩ ((hwait.mono hshort).append (Run.single ⟨hend, hstore⟩))

end KVStore
end DDBMS
