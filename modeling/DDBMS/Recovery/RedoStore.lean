import DDBMS.Recovery.CrashStore
import DDBMS.Recovery.RecoveryInDoubt
import DDBMS.Storage.KVStoreHeights

/-!
# `Recovery.RedoStore` — the store that recovery builds

`kv_` is a `KVStore`. `RedoLog` calls the `put` and the `del` that it has from `KVStore_beta`, so `Redo` builds a memtable and
tables, in a new directory: `redoAll`, on the records that are handed to `RedoLog`. A store is what `Redo` makes of some records
(`Redoes`) if it is the same but for the heights in the memtable. What has been redone once can be redone again, with any heights
(`Redoes.all`), and up to any record (`Redoes.of_prefix`).

`Undo` calls the store for the transactions of `active_txn_` only. Where each transaction has ended there are none, and `ARIES` is
`Redo` (`aries_eq_redo`).
-/

namespace DDBMS

namespace RecoveryManager

open KVStore_beta (Same same_new)

/-- What `RedoLog` calls of the store for a record; the number is the height draw of the memtable. -/
def redoStore (snappy : Snappy) (s : KVStore_beta) (c : LogRecord × Nat) : Option KVStore_beta :=
  match c.1.log_type_ with
  | .INSERT => s.put snappy c.1.key c.1.value c.2
  | .DELETE => (s.del snappy c.1.key c.2).map Prod.fst
  | _ => some s

/-- All calls of `Redo`. -/
def redoAll (snappy : Snappy) (s : KVStore_beta) (calls : List (LogRecord × Nat)) : Option KVStore_beta :=
  calls.foldlM (redoStore snappy) s

/-- The store is what `Redo` makes of the records, in a new directory. -/
def Redoes (snappy : Snappy) (rs : List LogRecord) (s : KVStore_beta) : Prop :=
  ∃ s₀ calls t, KVStore_beta.new {} = some s₀ ∧ calls.map Prod.fst = rs ∧ redoAll snappy s₀ calls = some t ∧ Same s t

section Redoes

variable {snappy : Snappy} {s s' t s₀ : KVStore_beta} {r : LogRecord} {rs p q : List LogRecord} {ones : Nat}
  {calls calls' : List (LogRecord × Nat)}

theorem redoStore_silent (s : KVStore_beta) (hr : ¬ r.IsTuple) (ones : Nat) : redoStore snappy s (r, ones) = some s := by
  unfold redoStore
  cases htype : r.log_type_ with
  | INSERT => exact absurd (Or.inl htype) hr
  | DELETE => exact absurd (Or.inr htype) hr
  | INVALID | CREATE_TABLE | DROP_TABLE | BEGIN | COMMIT | ABORT | PREPARED => rfl

/-- **One record.** -/
theorem redoStore_same (h : Same s t) (ones' : Nat) (hredo : redoStore snappy s (r, ones) = some s') :
    ∃ t', redoStore snappy t (r, ones') = some t' ∧ Same s' t' := by
  unfold redoStore at hredo ⊢
  cases htype : r.log_type_ with
  | INSERT =>
      simp only [htype] at hredo ⊢
      exact h.put ones' hredo
  | DELETE =>
      simp only [htype] at hredo ⊢
      obtain ⟨⟨u, b⟩, hdel, rfl⟩ := Option.map_eq_some_iff.mp hredo
      obtain ⟨t', ht', hsame⟩ := h.del ones' hdel
      exact ⟨t', Option.map_eq_some_iff.mpr ⟨(t', b), ht', rfl⟩, hsame⟩
  | INVALID | CREATE_TABLE | DROP_TABLE | BEGIN | COMMIT | ABORT | PREPARED =>
      simp only [htype] at hredo ⊢
      obtain rfl := Option.some.inj hredo
      exact ⟨t, rfl, h⟩

/-- **All records.** By induction on the calls. -/
theorem redoAll_same (h : Same s t) (hcalls : calls.map Prod.fst = calls'.map Prod.fst)
    (hredo : redoAll snappy s calls = some s') : ∃ t', redoAll snappy t calls' = some t' ∧ Same s' t' := by
  induction calls generalizing s t calls' with
  | nil =>
      obtain rfl := List.map_eq_nil_iff.mp hcalls.symm
      obtain rfl := Option.some.inj hredo
      exact ⟨t, rfl, h⟩
  | cons c calls ih =>
      obtain ⟨⟨r, ones'⟩, rest, rfl, rfl, hrest⟩ := List.map_eq_cons_iff.mp hcalls.symm
      rw [redoAll, List.foldlM_cons] at hredo
      obtain ⟨u, hu, hredo⟩ := Option.bind_eq_some_iff.mp hredo
      obtain ⟨v, hv, hsame⟩ := redoStore_same h ones' hu
      obtain ⟨t', ht', hsame'⟩ := ih hsame hrest.symm hredo
      refine ⟨t', ?_, hsame'⟩
      rw [redoAll, List.foldlM_cons, hv]
      exact ht'

theorem Redoes.nil (hopen : KVStore_beta.new {} = some s) : Redoes snappy [] s :=
  ⟨s, [], s, hopen, rfl, rfl, same_new hopen⟩

/-- The next record. -/
theorem Redoes.snoc (h : Redoes snappy rs s) (hredo : redoStore snappy s (r, ones) = some s') :
    Redoes snappy (rs ++ [r]) s' := by
  obtain ⟨s₀, calls, t, hopen, hcalls, hall, hsame⟩ := h
  obtain ⟨t', ht', hsame'⟩ := redoStore_same hsame ones hredo
  refine ⟨s₀, calls ++ [(r, ones)], t', hopen, ?_, ?_, hsame'⟩
  · rw [List.map_append, hcalls, List.map_singleton]
  · unfold redoAll at hall ⊢
    rw [List.foldlM_append, hall, Option.bind_eq_bind, Option.bind_some, List.foldlM_cons, ht']
    rfl

/-- Records of other users of the log. -/
theorem Redoes.silent (h : Redoes snappy rs s) (hq : ∀ r ∈ q, ¬ r.IsTuple) : Redoes snappy (rs ++ q) s := by
  induction q generalizing rs with
  | nil =>
      rw [List.append_nil]
      exact h
  | cons r q ih =>
      have hr := h.snoc (redoStore_silent s (hq r List.mem_cons_self) 0)
      rw [← List.singleton_append, ← List.append_assoc]
      exact ih hr (fun r hr => hq r (List.mem_cons_of_mem _ hr))

/-- `Redo` makes the store of the records whatever heights it draws. -/
theorem Redoes.all (h : Redoes snappy rs s) (hopen : KVStore_beta.new {} = some s₀) (hcalls : calls.map Prod.fst = rs) :
    ∃ t, redoAll snappy s₀ calls = some t ∧ Same s t := by
  obtain ⟨u₀, calls', u, hopen', hcalls', hall, hsame⟩ := h
  obtain rfl := Option.some.inj (hopen'.symm.trans hopen)
  obtain ⟨t, ht, hsame'⟩ := redoAll_same (same_new hopen) (hcalls'.trans hcalls.symm) hall
  exact ⟨t, ht, hsame.trans hsame'⟩

/-- What has been redone has been redone up to any record. -/
theorem Redoes.of_prefix (h : Redoes snappy rs s) (hp : p <+: rs) : ∃ t, Redoes snappy p t := by
  obtain ⟨q, rfl⟩ := hp
  obtain ⟨s₀, calls, u, hopen, hcalls, hall, -⟩ := h
  obtain ⟨before, after, rfl, rfl, -⟩ := List.map_eq_append_iff.mp hcalls
  rw [redoAll, List.foldlM_append] at hall
  obtain ⟨t, ht, -⟩ := Option.bind_eq_some_iff.mp hall
  obtain ⟨t', ht', hsame⟩ := redoAll_same (same_new hopen) rfl ht
  obtain rfl := Option.some.inj (ht.symm.trans ht')
  exact ⟨t, s₀, before, t, hopen, rfl, ht, hsame⟩

end Redoes

/-! ### What is redone has room -/

section Room

variable {snappy : Snappy} {s s' : KVStore_beta} {c : Contents} {r : LogRecord} {ones : Nat} {calls : List (LogRecord × Nat)}

theorem roomFor_of_loggable (h : Restart.Loggable r) (htuple : r.IsTuple) : RoomFor r.key r.value := by
  have hlen := LogManager.length_key_value htuple
  have hlt := h.lt
  have hheader : LogRecord.HEADER_SIZE = 24 := rfl
  unfold RoomFor
  omega

theorem redoStore_room (h : Finds snappy s c) (hroom : c.HasRoom) (hr : Restart.Loggable r)
    (hredo : redoStore snappy s (r, ones) = some s') : ∃ c', Finds snappy s' c' ∧ c'.HasRoom := by
  unfold redoStore at hredo
  cases htype : r.log_type_ with
  | INSERT =>
      simp only [htype] at hredo
      exact h.put hroom (roomFor_of_loggable hr (Or.inl htype)) hredo
  | DELETE =>
      simp only [htype] at hredo
      obtain ⟨⟨u, b⟩, hdel, rfl⟩ := Option.map_eq_some_iff.mp hredo
      obtain ⟨contained, -, hdel⟩ := Option.bind_eq_some_iff.mp hdel
      split at hdel
      · obtain ⟨⟨m, b'⟩, hm, hu⟩ := Option.bind_eq_some_iff.mp hdel
        obtain ⟨rfl, -⟩ := Prod.mk.inj (Option.some.inj hu)
        exact ⟨_, h.erase hm, fun e he => hroom.mem e (List.mem_filter.mp he).1, hroom.ssts⟩
      · obtain ⟨result, -, hdel⟩ := Option.bind_eq_some_iff.mp hdel
        split at hdel
        · obtain ⟨m, hm, hu⟩ := Option.bind_eq_some_iff.mp hdel
          obtain ⟨rfl, -⟩ := Prod.mk.inj (Option.some.inj hu)
          have htomb : RoomFor r.key [] := by
            have := roomFor_of_loggable hr (Or.inr htype)
            unfold RoomFor at this ⊢
            rw [List.length_nil]
            omega
          exact ⟨_, h.tombstone hm, hroom.mem_put htomb, hroom.ssts⟩
        · obtain ⟨rfl, -⟩ := Prod.mk.inj (Option.some.inj hdel)
          exact ⟨c, h, hroom⟩
  | INVALID | CREATE_TABLE | DROP_TABLE | BEGIN | COMMIT | ABORT | PREPARED =>
      simp only [htype] at hredo
      obtain rfl := Option.some.inj hredo
      exact ⟨c, h, hroom⟩

theorem redoAll_room (h : Finds snappy s c) (hroom : c.HasRoom) (hcalls : ∀ call ∈ calls, Restart.Loggable call.1)
    (hredo : redoAll snappy s calls = some s') : ∃ c', Finds snappy s' c' ∧ c'.HasRoom := by
  induction calls generalizing s c with
  | nil =>
      obtain rfl := Option.some.inj hredo
      exact ⟨c, h, hroom⟩
  | cons call calls ih =>
      rw [redoAll, List.foldlM_cons] at hredo
      obtain ⟨u, hu, hredo⟩ := Option.bind_eq_some_iff.mp hredo
      obtain ⟨c', hc', hroom'⟩ := redoStore_room h hroom (hcalls call List.mem_cons_self) hu
      exact ih hc' hroom' (fun call hcall => hcalls call (List.mem_cons_of_mem _ hcall)) hredo

end Room

/-! ### Transactions that have ended -/

/-- The last record of each transaction ends it. -/
def AllEnd (rs : List LogRecord) : Prop :=
  ∀ p r q, rs = p ++ r :: q → (∀ s ∈ q, s.txn_id_ ≠ r.txn_id_) → Ends r.txn_id_ r

section AllEnd

variable {rm : RecoveryManager} {rs : List LogRecord} {t : txn_id_t} {pos : Nat}

/-- One transaction, with its last record. -/
theorem allEnd_one {r : LogRecord} (hends : Ends t r) (hrs : ∀ s ∈ rs, s.txn_id_ = t) : AllEnd (rs ++ [r]) := by
  intro p s q hsplit hq
  have hall : ∀ u ∈ p ++ s :: q, u.txn_id_ = t := by
    rw [← hsplit]
    intro u hu
    rcases List.mem_append.mp hu with hu | hu
    · exact hrs u hu
    · rw [List.mem_singleton.mp hu]
      exact hends.1
  have hs : s.txn_id_ = t := hall s (List.mem_append_right _ List.mem_cons_self)
  -- nothing is behind the record, so it is the last one
  obtain rfl : q = [] := by
    refine List.eq_nil_iff_forall_not_mem.mpr fun u hu => hq u hu ?_
    rw [hs]
    exact hall u (List.mem_append_right _ (List.mem_cons_of_mem _ hu))
  obtain ⟨-, hr⟩ := List.append_inj' hsplit rfl
  obtain rfl := (List.cons.inj hr).1
  rw [hs]
  exact hends

/-- A transaction of `active_txn_` has a record that does not end it, and none behind it. -/
theorem handAll_last (hback : ∀ r ∈ rs, r.readBack = r) (h : t ∈ (handAll rm pos rs).active_txn_) :
    t ∈ rm.active_txn_ ∨ ∃ p r q, rs = p ++ r :: q ∧ r.txn_id_ = t ∧ ¬ Ends t r ∧ ∀ s ∈ q, s.txn_id_ ≠ t := by
  induction rs using List.reverseRecOn with
  | nil => exact Or.inl h
  | append_singleton rs r ih =>
      have hr : r.readBack = r := hback r (List.mem_append_right _ List.mem_cons_self)
      rw [handAll_append, handAll, handAll, hand, hr] at h
      generalize hbefore : handAll rm pos rs = rm' at h ih
      have hins : t ∈ rm'.active_txn_.insert r.txn_id_ r.lsn_ → r.txn_id_ = t ∨ t ∈ rm'.active_txn_ := by
        intro hmem
        rcases (AList.mem_insert _).mp hmem with rfl | hmem
        · exact Or.inl rfl
        · exact Or.inr hmem
      -- the record is the last one of the transaction, and does not end it, or it is one of another transaction
      have hcases : (r.txn_id_ = t ∧ ¬ Ends t r) ∨ (r.txn_id_ ≠ t ∧ t ∈ rm'.active_txn_) := by
        have hopen : ¬ (r.log_type_ = .COMMIT ∨ r.log_type_ = .ABORT) → t ∈ rm'.active_txn_.insert r.txn_id_ r.lsn_ →
            (r.txn_id_ = t ∧ ¬ Ends t r) ∨ (r.txn_id_ ≠ t ∧ t ∈ rm'.active_txn_) := by
          intro htype hmem
          by_cases ht : r.txn_id_ = t
          · exact Or.inl ⟨ht, fun hends => htype hends.2⟩
          · exact Or.inr ⟨ht, (hins hmem).resolve_left ht⟩
        have hend : t ∈ (rm'.active_txn_.insert r.txn_id_ r.lsn_).erase r.txn_id_ → r.txn_id_ ≠ t ∧ t ∈ rm'.active_txn_ := by
          intro hmem
          obtain ⟨hne, hmem⟩ := AList.mem_erase.mp hmem
          exact ⟨Ne.symm hne, (hins hmem).resolve_left (Ne.symm hne)⟩
        unfold RedoLog at h
        cases htype : r.log_type_ with
        | COMMIT | ABORT =>
            simp only [htype] at h
            exact Or.inr (hend h)
        | BEGIN =>
            simp only [htype] at h
            refine hopen (by rw [htype]; decide) ?_
            rcases (AList.mem_insert _).mp h with rfl | hmem
            · exact (AList.mem_insert _).mpr (Or.inl rfl)
            · exact hmem
        | INVALID | CREATE_TABLE | DROP_TABLE | INSERT | DELETE | PREPARED =>
            simp only [htype] at h
            exact hopen (by rw [htype]; decide) h
      rcases hcases with ⟨ht, hends⟩ | ⟨ht, hmem⟩
      · exact Or.inr ⟨rs, r, [], rfl, ht, hends, fun s hs => absurd hs List.not_mem_nil⟩
      · rcases ih (fun s hs => hback s (List.mem_append_left _ hs)) hmem with hold | ⟨p, r', q, rfl, ht', hends, hq⟩
        · exact Or.inl hold
        · refine Or.inr ⟨p, r', q ++ [r], by rw [List.append_assoc, List.cons_append], ht', hends, ?_⟩
          intro s hs
          rcases List.mem_append.mp hs with hs | hs
          · exact hq s hs
          · rw [List.mem_singleton.mp hs]
            exact ht

theorem handAll_ended (hback : ∀ r ∈ rs, r.readBack = r) (hend : AllEnd rs) (hrm : rm.active_txn_ = ∅) :
    (handAll rm pos rs).active_txn_ = ∅ := by
  refine AList.ext (List.eq_nil_iff_forall_not_mem.mpr ?_)
  intro e he
  have hmem : e.1 ∈ (handAll rm pos rs).active_txn_ := AList.mem_keys.mpr (List.mem_map_of_mem he)
  rcases handAll_last hback hmem with hmem | ⟨p, r, q, hsplit, ht, hends, hq⟩
  · rw [hrm] at hmem
    exact AList.notMem_empty _ hmem
  · rw [← ht] at hends hq
    exact hends (hend p r q hsplit hq)

/-- `Undo` of nothing. -/
theorem Undo_none {order : List ActiveTxn → List ActiveTxn} {fuel : Nat} (horder : order [] = []) (hfuel : 0 < fuel)
    (hactive : rm.active_txn_ = ∅) : Undo order fuel rm = some rm := by
  obtain ⟨fuel, rfl⟩ := Nat.exists_eq_succ_of_ne_zero (Nat.ne_of_gt hfuel)
  have hempty : rm.active_txn_.entries = [] := by
    rw [hactive]
    rfl
  have hloop : undoLoop (fuel + 1) rm (([] : List Int).toFinset) = some rm := rfl
  rw [Undo, hempty, List.map_nil, hloop, Option.bind_eq_bind, Option.bind_some, hempty, horder]
  rfl

/-- **`ARIES`** is `Redo` when all transactions have ended. -/
theorem aries_eq_redo (hrs : ∀ r ∈ rs, Restart.Loggable r) (horder : Restart.InOrder rs) (hend : AllEnd rs)
    (hlen : (bytesOf rs).length < 2 ^ 31) {order : List ActiveTxn → List ActiveTxn} (hnil : order [] = [])
    (buffer : Vector UInt8 LOG_BUFFER_SIZE) :
    ARIES order ((bytesOf rs).length + 2) (init (bytesOf rs) buffer) =
      Redo ((bytesOf rs).length + 2) (init (bytesOf rs) buffer) := by
  have hcount := length_le_bytesOf rs
  have hreadable := horder.readable hrs (by omega)
  rcases Redo_spec hreadable (by omega) (show rs.length + 1 < (bytesOf rs).length + 2 by omega) buffer with
    ⟨hnone, -⟩ | ⟨⟨b, -, hredo⟩, -⟩
  · rw [ARIES, hnone]
    rfl
  · have hempty : (init (bytesOf rs) buffer).active_txn_ = ∅ := rfl
    have hactive : (afterRedo rs b buffer).active_txn_ = ∅ := handAll_ended (fun r hr => (hrs r hr).readBack) hend hempty
    rw [ARIES, hredo, Option.bind_eq_bind, Option.bind_some]
    exact Undo_none hnil (Nat.succ_pos _) hactive

end AllEnd

end RecoveryManager
end DDBMS
