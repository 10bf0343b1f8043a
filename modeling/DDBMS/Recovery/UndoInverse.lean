import DDBMS.Recovery.RecoveryManager
import DDBMS.Storage.KVStoreDel

/-!
# `Recovery.UndoInverse` — when undo gives back the store

`KVStore::put` and `KVStore::del` log what they do, and `UndoLog` of that record should give back the store as it was before,
with a compensation record that says what it has changed (`TakesBack`). An `INSERT` record does not have the value that the
key had before, and undo removes the key. Undo of a `DELETE` record puts the key in the place of the value, while the
compensation record has the logged value; and for a key of the memtable, the logged value is what a freed string has left.
So undo takes back a put of a new key, and a delete of a key that is its own value (`Invertible`).
-/

namespace DDBMS
namespace RecoveryManager

/-- A logged call of the store. `del` says whether the key is in the memtable, and what freed memory holds. -/
inductive Operation where
  | put (key value : Bytes)
  | del (key : Bytes) (inMem : Bool) (stale : Nat → UInt8)

/-- The record it logs on a store that holds `kv`. A `del` of a key that is not there logs nothing. -/
def Operation.record (txn : KVStore.Transaction) (kv : Bytes → Option Bytes) : Operation → Option LogRecord
  | .put key value => some (KVStore.putRecord txn key value)
  | .del key inMem stale => (kv key).map fun value => KVStore.delRecord txn key value inMem stale

def perform (rm : RecoveryManager) : Operation → RecoveryManager
  | .put key value => rm.put key value
  | .del key _ _ => rm.del key

/-- The record is of the change from one store to the other. -/
def Describes (r : LogRecord) (before after : Bytes → Option Bytes) : Prop :=
  match r.log_type_ with
  | .INSERT => after = Function.update before r.key (some r.value)
  | .DELETE => before r.key = some r.value ∧ after = Function.update before r.key none
  | _ => after = before

/-- `UndoLog` takes the operation back, and logs what it has done. -/
structure TakesBack (rm : RecoveryManager) (op : Operation) (r : LogRecord) : Prop where
  store : ((rm.perform op).UndoLog r).kv_ = rm.kv_
  compensation : ∃ c, ((rm.perform op).UndoLog r).appended = rm.appended ++ [c] ∧
    Describes c (rm.perform op).kv_ ((rm.perform op).UndoLog r).kv_

/-- The key is new, or the value to be deleted is the key itself and was read from a table, or is still in memory. -/
def Operation.Invertible (kv : Bytes → Option Bytes) : Operation → Prop
  | .put key value => kv key = none ∧ key.length < 2 ^ 32 ∧ value.length < 2 ^ 32
  | .del key inMem stale =>
    kv key = some key ∧ key.length < 2 ^ 32 ∧ (inMem = true → (List.range key.length).map stale = key)

section UndoLog

variable {rm : RecoveryManager} {r : LogRecord}

/-- Only the bytes that the size counts are read back. -/
theorem take_size_iff {b : Bytes} : b.take (UInt32.ofNat b.length).toNat = b ↔ b.length < 2 ^ 32 := by
  rw [List.take_eq_self_iff, UInt32.toNat_ofNat']
  have := Nat.mod_lt b.length (Nat.two_pow_pos 32)
  constructor
  · omega
  · intro hlt
    rw [Nat.mod_eq_of_lt hlt]

/-- The compensation record has the key and the value of the record. -/
theorem compensate_appended (rm : RecoveryManager) (r : LogRecord) (type : LogRecordType) : ∃ c : LogRecord,
    (rm.compensate r type).appended = rm.appended ++ [c] ∧ c.log_type_ = type ∧ c.key = r.key ∧ c.value = r.value := by
  generalize hprev : (rm.active_txn_.lookup r.txn_id_).getD 0 = prev_lsn
  refine ⟨(LogRecord.ofTuple r.txn_id_ prev_lsn type r.key_size_ r.key_ r.value_size_ r.value_).SetLsn rm.next_lsn_,
    ?_, rfl, LogRecord.key_ofTuple .., LogRecord.value_ofTuple ..⟩
  simp only [compensate, hprev, AppendLogRecord, setLast]

theorem undoLog_insert (h : r.log_type_ = .INSERT) : (rm.UndoLog r).kv_ = Function.update rm.kv_ r.key none ∧
    ∃ c, (rm.UndoLog r).appended = rm.appended ++ [c] ∧ c.log_type_ = .DELETE ∧ c.key = r.key ∧ c.value = r.value := by
  unfold UndoLog
  rw [h]
  exact ⟨rfl, compensate_appended (rm.del r.key) r .DELETE⟩

theorem undoLog_delete (h : r.log_type_ = .DELETE) : (rm.UndoLog r).kv_ = Function.update rm.kv_ r.key (some r.key) ∧
    ∃ c, (rm.UndoLog r).appended = rm.appended ++ [c] ∧ c.log_type_ = .INSERT ∧ c.key = r.key ∧ c.value = r.value := by
  unfold UndoLog
  rw [h]
  exact ⟨rfl, compensate_appended (rm.put r.key r.key) r .INSERT⟩

/-- With what `UndoLog` leaves in the store, and the one record it appends. -/
theorem takesBack_iff {op : Operation} {kv : Bytes → Option Bytes} {c : LogRecord} {P : Prop}
    (hkv : ((rm.perform op).UndoLog r).kv_ = kv) (happ : ((rm.perform op).UndoLog r).appended = rm.appended ++ [c])
    (hdescribes : Describes c (rm.perform op).kv_ ((rm.perform op).UndoLog r).kv_ ↔ P) :
    TakesBack rm op r ↔ kv = rm.kv_ ∧ P := by
  constructor
  · rintro ⟨hstore, c', happ', hc'⟩
    obtain rfl := (List.cons.inj (List.append_cancel_left (happ.symm.trans happ'))).1
    exact ⟨hkv.symm.trans hstore, hdescribes.mp hc'⟩
  · rintro ⟨hstore, hc⟩
    exact ⟨hkv.trans hstore, c, happ, hdescribes.mpr hc⟩

/-- Undo of an `INSERT` record. -/
theorem takesBack_insert {op : Operation} (h : r.log_type_ = .INSERT) (hlog : (rm.perform op).appended = rm.appended) :
    TakesBack rm op r ↔ Function.update (rm.perform op).kv_ r.key none = rm.kv_ ∧ (rm.perform op).kv_ r.key = some r.value := by
  obtain ⟨hkv, c, happ, htype, hkey, hvalue⟩ := @undoLog_insert (rm.perform op) r h
  have hdescribes : Describes c (rm.perform op).kv_ ((rm.perform op).UndoLog r).kv_ ↔
      (rm.perform op).kv_ r.key = some r.value := by
    unfold Describes
    rw [htype, hkey, hvalue, hkv]
    exact and_iff_left rfl
  exact takesBack_iff hkv (by rw [happ, hlog]) hdescribes

/-- Undo of a `DELETE` record. -/
theorem takesBack_delete {op : Operation} (h : r.log_type_ = .DELETE) (hlog : (rm.perform op).appended = rm.appended) :
    TakesBack rm op r ↔ Function.update (rm.perform op).kv_ r.key (some r.key) = rm.kv_ ∧ r.value = r.key := by
  obtain ⟨hkv, c, happ, htype, hkey, hvalue⟩ := @undoLog_delete (rm.perform op) r h
  have hdescribes : Describes c (rm.perform op).kv_ ((rm.perform op).UndoLog r).kv_ ↔ r.value = r.key := by
    unfold Describes
    rw [htype, hkey, hvalue, hkv]
    constructor
    · intro heq
      have hsame := congrFun heq r.key
      rw [Function.update_self, Function.update_self] at hsame
      exact (Option.some.inj hsame).symm
    · rintro heq
      rw [heq]
  exact takesBack_iff hkv (by rw [happ, hlog]) hdescribes

end UndoLog

/-! ## The condition -/

section Invertible

variable {rm : RecoveryManager} {key value : Bytes} {lsn : Int} {txn : KVStore.Transaction}

theorem takesBack_put : TakesBack rm (.put key value) ((KVStore.putRecord txn key value).SetLsn lsn) ↔
    (Operation.put key value).Invertible rm.kv_ := by
  generalize hr : (KVStore.putRecord txn key value).SetLsn lsn = r
  have htype : r.log_type_ = .INSERT := by subst hr; rfl
  have hkey : r.key = key ↔ key.length < 2 ^ 32 := by subst hr; exact take_size_iff
  have hvalue : r.value = value ↔ value.length < 2 ^ 32 := by subst hr; exact take_size_iff
  rw [takesBack_insert htype rfl]
  show Function.update (Function.update rm.kv_ key (some value)) r.key none = rm.kv_ ∧
    Function.update rm.kv_ key (some value) r.key = some r.value ↔ rm.kv_ key = none ∧ _ ∧ _
  rw [← hkey, ← hvalue]
  constructor
  · rintro ⟨hstore, hold⟩
    -- what undo removes was not there before
    have hnone : rm.kv_ r.key = none := by rw [← hstore, Function.update_self]
    have hsame : r.key = key := by
      by_contra hne
      rw [Function.update_of_ne hne, hnone] at hold
      cases hold
    rw [hsame, Function.update_self] at hold
    exact ⟨by rw [← hsame]; exact hnone, hsame, (Option.some.inj hold).symm⟩
  · rintro ⟨hnone, hsame, hval⟩
    rw [hsame, hval, Function.update_idem, ← hnone, Function.update_eq_self, Function.update_self]
    exact ⟨rfl, rfl⟩

theorem takesBack_del {inMem : Bool} {stale : Nat → UInt8} (hfound : rm.kv_ key = some value) :
    TakesBack rm (.del key inMem stale) ((KVStore.delRecord txn key value inMem stale).SetLsn lsn) ↔
      (Operation.del key inMem stale).Invertible rm.kv_ := by
  generalize hlogged : (if inMem then (List.range value.length).map stale else value) = logged
  generalize hr : (KVStore.delRecord txn key value inMem stale).SetLsn lsn = r
  have htype : r.log_type_ = .DELETE := by subst hr; rfl
  have hkey : r.key = key ↔ key.length < 2 ^ 32 := by subst hr; exact take_size_iff
  have hvalue : r.value = logged.take (UInt32.ofNat logged.length).toNat := by subst hr hlogged; rfl
  rw [takesBack_delete htype rfl]
  show Function.update (Function.update rm.kv_ key none) r.key (some r.key) = rm.kv_ ∧ _ ↔ rm.kv_ key = some key ∧ _ ∧ _
  rw [← hkey]
  constructor
  · rintro ⟨hstore, hold⟩
    have hsame : r.key = key := by
      by_contra hne
      have hgone := congrFun hstore key
      rw [Function.update_of_ne (Ne.symm hne), Function.update_self, hfound] at hgone
      cases hgone
    have hself : rm.kv_ key = some key := by
      rw [← hstore, hsame, Function.update_self]
    refine ⟨hself, hsame, ?_⟩
    rintro rfl
    obtain rfl := Option.some.inj (hfound.symm.trans hself)
    rw [if_pos rfl] at hlogged
    -- what was logged has the length of the key, so all of it is read back
    have hlt : logged.length < 2 ^ 32 := by
      rw [← hlogged, List.length_map, List.length_range]
      exact hkey.mp hsame
    rw [hsame, hvalue, take_size_iff.mpr hlt, ← hlogged] at hold
    exact hold
  · rintro ⟨hself, hsame, hmem⟩
    obtain rfl := Option.some.inj (hfound.symm.trans hself)
    have hlog : logged = value := by
      rw [← hlogged]
      split
      · rename_i hin
        exact hmem hin
      · rfl
    rw [hsame, hvalue, hlog, Function.update_idem, take_size_iff, ← hkey, ← hself, Function.update_eq_self]
    exact ⟨rfl, hsame⟩

end Invertible

/-- **Undo takes an operation back** if and only if it is a put of a new key, or a delete of a key that is its own value
    and was logged as such. -/
theorem undo_inverts_iff (rm : RecoveryManager) (op : Operation) (txn : KVStore.Transaction) (lsn : Int) (r : LogRecord)
    (hlog : op.record txn rm.kv_ = some r) : TakesBack rm op (r.SetLsn lsn) ↔ op.Invertible rm.kv_ := by
  cases op with
  | put key value =>
      obtain rfl := Option.some.inj hlog
      exact takesBack_put
  | del key inMem stale =>
      obtain ⟨value, hfound, rfl⟩ := Option.map_eq_some_iff.mp hlog
      exact takesBack_del hfound

/-- A new key is put. -/
theorem undo_inverts_iff_newKey : TakesBack (init [] (Vector.replicate _ 0)) (.put [97] [49])
    ((KVStore.putRecord { txn_id_ := 1 } [97] [49]).SetLsn 0) :=
  (undo_inverts_iff (init [] (Vector.replicate _ 0)) (.put [97] [49]) { txn_id_ := 1 } 0 _ rfl).mpr
    ⟨rfl, by decide, by decide⟩

/-- **An overwritten value is lost**, and a deleted one comes back as the key. -/
theorem undo_loses_before_image : ∃ (rm : RecoveryManager) (txn : KVStore.Transaction) (lsn : Int), rm.kv_ [97] = some [49] ∧
    ¬ TakesBack rm (.put [97] [50]) ((KVStore.putRecord txn [97] [50]).SetLsn lsn) ∧
    ¬ TakesBack rm (.del [97] false fun _ => 0) ((KVStore.delRecord txn [97] [49] false fun _ => 0).SetLsn lsn) := by
  have hkv : ((init [] (Vector.replicate _ 0)).put [97] [49]).kv_ [97] = some [49] := by simp [put]
  refine ⟨(init [] (Vector.replicate _ 0)).put [97] [49], { txn_id_ := 1 }, 0, hkv, ?_, ?_⟩
  · rw [takesBack_put]
    rintro ⟨hnone, -⟩
    cases hkv.symm.trans hnone
  · rw [takesBack_del hkv]
    rintro ⟨hself, -⟩
    exact absurd (Option.some.inj (hkv.symm.trans hself)) (by decide)

/-! ## The store logs such operations -/

/-- The map that readers of some contents see. -/
def shown (c : Contents) (key : Bytes) : Option Bytes := visible (c.value key)

/-- A call of `KVStore::del` that is exact logs the record of the operation, and performs it. -/
theorem delCall_operation {snappy : Snappy} (hinv : snappy.Inverts) {w w' : KVStore.World} {c : Contents} {t x : Nat}
    {key : Bytes} {stale : Nat → UInt8} (hc : Finds snappy w.store c) (hready : w.Ready t)
    (hok : KVStore.DelOk snappy w.store key) (h : KVStore.DelCall snappy t x key stale w true w') :
    ∃ inMem r lsn c', (Operation.del key inMem stale).record (w.txns x) (shown c) = some r ∧
      w'.log.appended = w.log.appended ++ [r.SetLsn lsn] ∧ Finds snappy w'.store c' ∧
      shown c' = Function.update (shown c) key none := by
  obtain ⟨hresult, hdeleted⟩ := h.spec hinv hc hready
  obtain ⟨hseen, hgone⟩ := Contents.del_hides_iff.mpr ((KVStore.delOk_iff hinv hc).mp hok)
  cases hfound : c.found key with
  | none =>
      rw [Contents.del_found, hfound] at hresult
      cases hresult
  | some p =>
      obtain ⟨inMem, value⟩ := p
      obtain ⟨lsn, happ, -⟩ := hdeleted.logged inMem value hfound
      have hvalue : shown c key = some value := by
        rw [← hresult] at hseen
        obtain ⟨v, hv⟩ := Option.isSome_iff_exists.mp hseen.symm
        have hsame := (Option.filter_eq_some_iff.mp hv).1
        rw [Contents.value_found hfound] at hsame
        rw [Option.some.inj hsame]
        exact hv
      refine ⟨inMem, _, lsn, (c.del key).1, ?_, happ, hdeleted.store, ?_⟩
      · rw [Operation.record, hvalue, Option.map_some]
      · funext k
        by_cases hk : k = key
        · rw [hk, Function.update_self]
          exact hgone
        · rw [Function.update_of_ne hk, shown, Contents.value_del_ne hk]
          rfl

end RecoveryManager
end DDBMS
