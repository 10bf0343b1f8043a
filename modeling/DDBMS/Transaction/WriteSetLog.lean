import DDBMS.Transaction.LogChains

/-!
# `Transaction.WriteSetLog` — the write set and the log of a transaction

A call of `put` or `del` writes a log record, and afterwards a write record. In the worlds of `LogChains`, where the steps of
other transactions and of the flush thread stand anywhere between the two, the write set of a transaction has the operations
of its `INSERT` and `DELETE` records in their order, but for the one that is logged and not noted yet (`SameStory`).

That a `DELETE` record has the value that the key has until the memtable is changed needs that the value is read from a
string that still exists. `del` takes the value of a key of the memtable from a temporary string, for the log only, so the
record is right as long as such a value is empty (`LiveValue`).
-/

namespace DDBMS
namespace TransactionManager

/-- The write records of a call. -/
def Op.writes : Op → List WriteRecord
  | .Begin => []
  | .put key _ _ => [⟨.INSERT_TUPLE, key, []⟩]
  | .del key value _ _ => [⟨.DELETE_TUPLE, key, value⟩]

def Op.add_writeset : Op → Bool
  | .Begin => true
  | .put _ _ add_writeset => add_writeset
  | .del _ _ _ add_writeset => add_writeset

/-- The operation of a log record, as a write set has it. -/
def writesOf (r : LogRecord) : List WriteRecord :=
  match r.log_type_ with
  | .INSERT => [⟨.INSERT_TUPLE, r.key, []⟩]
  | .DELETE => [⟨.DELETE_TUPLE, r.key, r.value⟩]
  | _ => []

def Call.op : Call → Option Op
  | .idle => none
  | .append _ op => some op
  | .appended _ op => some op
  | .logged op => some op

/-- What is in the log and not yet in the write set. -/
def Client.pending (c : Client) : List WriteRecord :=
  match c.call with
  | .appended _ op | .logged op => op.writes
  | .idle | .append _ _ => []

/-- Write set and log of a transaction tell the same story. -/
structure SameStory (snappy : Snappy) (w : World) (c : Client) : Prop where
  writes : (links.own w.log.appended c.txn.txn_id_).flatMap writesOf = c.txn.write_set_ ++ c.pending
  /-- up to the deletion, the key has the value that is logged -/
  deletes : ∀ key value inMem add_writeset, c.call.op = some (.del key value inMem add_writeset) →
    KVStore.found snappy w.store key = some (some (inMem, value))
  /-- what `AppendLogRecord` reads does not depend on what the memory of a dead string holds -/
  alive : ∀ r key value inMem add_writeset, c.call = .append r (.del key value inMem add_writeset) →
    ∀ stale, r = KVStore.delRecord c.txn key value inMem stale

/-- The calls of transaction `x` extend the write set. -/
def Event.Notes (x : Nat) : Event → Prop
  | .put y _ _ add_writeset | .del y _ _ add_writeset => y = x → add_writeset = true
  | _ => True

/-- A value that `del` finds has a string that lives on, or no bytes; the record has less than `2 ^ 31` bytes. -/
def LiveFound (key : Bytes) : Option (Option (Bool × Bytes)) → Prop
  | some (some (inMem, value)) => (inMem = true → value = []) ∧ 32 + key.length + value.length < 2 ^ 31
  | _ => True

/-- Transaction `x` does not delete a key that the memtable has with a value. -/
def LiveValue (snappy : Snappy) (x : Nat) (w : World) : Event → Prop
  | .put y key value _ => y = x → 32 + key.length + value.length < 2 ^ 31
  | .del y key _ _ => y = x → LiveFound key (KVStore.found snappy w.store key)
  | _ => True

/-- Transaction `x` has its own id, and extends the write set at each call. -/
def Notes (x : Nat) (w : World) (e : Event) : Prop := IdsDiffer w e ∧ e.Notes x

instance instDecidableEventNotes (x : Nat) : (e : Event) → Decidable (e.Notes x)
  | .put y _ _ add_writeset | .del y _ _ add_writeset => inferInstanceAs (Decidable (y = x → add_writeset = true))
  | .Begin _ | .AppendLogRecord _ | .set_prev_lsn _ | .finish _ _ | .flush _ => inferInstanceAs (Decidable True)

instance instDecidableNotes (x : Nat) (w : World) (e : Event) : Decidable (Notes x w e) :=
  inferInstanceAs (Decidable (_ ∧ _))

instance instDecidableLiveFound (key : Bytes) : (o : Option (Option (Bool × Bytes))) → Decidable (LiveFound key o)
  | some (some (inMem, value)) =>
    inferInstanceAs (Decidable ((inMem = true → value = []) ∧ 32 + key.length + value.length < 2 ^ 31))
  | some none | none => inferInstanceAs (Decidable True)

instance instDecidableLiveValue (snappy : Snappy) (x : Nat) (w : World) : (e : Event) → Decidable (LiveValue snappy x w e)
  | .put y key value _ => inferInstanceAs (Decidable (y = x → 32 + key.length + value.length < 2 ^ 31))
  | .del y key _ _ => inferInstanceAs (Decidable (y = x → LiveFound key (KVStore.found snappy w.store key)))
  | .Begin _ | .AppendLogRecord _ | .set_prev_lsn _ | .finish _ _ | .flush _ => inferInstanceAs (Decidable True)

variable {snappy : Snappy} {w w' : World} {log' : LogManager.World} {x y : Nat} {c c' : Client} {r : LogRecord} {op : Op}
  {txn : KVStore.Transaction} {key value : Bytes} {inMem add_writeset : Bool} {stale : Nat → UInt8}

/-! ## Records -/

theorem writesOf_setLsn (r : LogRecord) (lsn : Int) : writesOf (r.SetLsn lsn) = writesOf r := rfl

theorem writesOf_insert (h : r.log_type_ = .INSERT) : writesOf r = [⟨.INSERT_TUPLE, r.key, []⟩] := by
  rw [writesOf, h]

theorem writesOf_delete (h : r.log_type_ = .DELETE) : writesOf r = [⟨.DELETE_TUPLE, r.key, r.value⟩] := by
  rw [writesOf, h]

theorem writesOf_putRecord (h : key.length < 2 ^ 32) :
    writesOf (KVStore.putRecord txn key value) = [⟨.INSERT_TUPLE, key, []⟩] := by
  rw [← writesOf_setLsn _ INVALID_LSN, writesOf_insert rfl, KVStore.putRecord, LogRecord.key_ofStrings h]

/-- Without bytes of a dead string the record has the value. -/
theorem delRecord_live (h : inMem = true → value = []) (stale : Nat → UInt8) :
    KVStore.delRecord txn key value inMem stale = LogRecord.ofStrings txn.txn_id_ txn.prev_lsn_ .DELETE key value := by
  rw [KVStore.delRecord]
  cases inMem with
  | false => rfl
  | true =>
      rw [h rfl]
      rfl

theorem writesOf_delRecord (hkey : key.length < 2 ^ 32) (hvalue : value.length < 2 ^ 32) (h : inMem = true → value = []) :
    writesOf (KVStore.delRecord txn key value inMem stale) = [⟨.DELETE_TUPLE, key, value⟩] := by
  rw [delRecord_live h, ← writesOf_setLsn _ INVALID_LSN, writesOf_delete rfl, LogRecord.key_ofStrings hkey,
    LogRecord.value_ofStrings hvalue]

/-! ## What a step does -/

theorem del_cases (h : next snappy w (.del x key stale add_writeset) = some w') :
    w' = w ∨ ∃ c inMem value, w.clients[x]? = some c ∧ c.call = .idle ∧ w.mutex_ = none ∧
      KVStore.found snappy w.store key = some (some (inMem, value)) ∧
      w' = { w.setClient x { c with
        call := .append (KVStore.delRecord c.txn key value inMem stale) (.del key value inMem add_writeset) } with
        mutex_ := some x } := by
  obtain ⟨c, hc, hrest⟩ := Option.bind_eq_some_iff.mp h
  split at hrest
  · rename_i hidle
    obtain ⟨found, hfound, hrest⟩ := Option.bind_eq_some_iff.mp hrest
    cases found with
    | none => exact .inl (Option.some.inj hrest).symm
    | some found => exact .inr ⟨c, found.1, found.2, hc, hidle.1, hidle.2, hfound, (Option.some.inj hrest).symm⟩
  · cases hrest

/-- The client behind a call. -/
def Client.finished (c : Client) : Op → Client
  | .Begin => { c with call := .idle }
  | .put key _ add_writeset => c.written ⟨.INSERT_TUPLE, key, []⟩ add_writeset
  | .del key value _ add_writeset => c.written ⟨.DELETE_TUPLE, key, value⟩ add_writeset

/-- `finish` changes the store with the mutex only, which `del` gives back. -/
theorem World.finish_effect {ones : Nat} (h : w.finish snappy x ones c op = some w') :
    w'.log = w.log ∧ w'.clients = w.clients.set x (c.finished op) ∧
      ((w'.mutex_ = w.mutex_ ∧ (w'.store = w.store ∨ w.mutex_ = none)) ∨
        ((∃ key value inMem add_writeset, op = .del key value inMem add_writeset) ∧ w'.mutex_ = none)) := by
  cases op with
  | Begin =>
      obtain rfl := Option.some.inj h
      exact ⟨rfl, rfl, .inl ⟨rfl, .inl rfl⟩⟩
  | put key value add_writeset =>
      simp only [World.finish] at h
      split at h
      · rename_i hmutex
        obtain ⟨store, -, hres⟩ := Option.bind_eq_some_iff.mp h
        obtain rfl := Option.some.inj hres
        exact ⟨rfl, rfl, .inl ⟨rfl, .inr hmutex⟩⟩
      · cases h
  | del key value inMem add_writeset =>
      have hdel : ∃ memtable, some { w.setClient x (c.written ⟨.DELETE_TUPLE, key, value⟩ add_writeset) with
          store := { w.store with memtable_ := memtable }, mutex_ := none } = some w' := by
        simp only [World.finish] at h
        split at h
        · obtain ⟨memtable, -, hres⟩ := Option.bind_eq_some_iff.mp h
          exact ⟨memtable, hres⟩
        · obtain ⟨memtable, -, hres⟩ := Option.bind_eq_some_iff.mp h
          exact ⟨memtable, hres⟩
      obtain ⟨memtable, hres⟩ := hdel
      obtain rfl := Option.some.inj hres
      exact ⟨rfl, rfl, .inr ⟨⟨key, value, inMem, add_writeset, rfl⟩, rfl⟩⟩

theorem finished_txn (c : Client) (op : Op) : (c.finished op).txn.txn_id_ = c.txn.txn_id_ := by cases op <;> rfl

theorem finished_call (c : Client) (op : Op) : (c.finished op).call = .idle := by cases op <;> rfl

/-- A call that extends the write set notes what was logged. -/
theorem finished_writes (h : op.add_writeset = true) : (c.finished op).txn.write_set_ = c.txn.write_set_ ++ op.writes := by
  cases op with
  | Begin => exact (List.append_nil _).symm
  | put key value add_writeset | del key value inMem add_writeset => exact if_pos h

/-! ## The threads -/

def Call.Deletes (call : Call) : Prop :=
  ∃ key value inMem add_writeset, call.op = some (.del key value inMem add_writeset)

/-- A thread waits for the log with the record of its call. -/
def Client.Waits (log : LogManager.World) (y : Nat) (c : Client) : Prop :=
  match c.call with
  | .append r _ => r.txn_id_ = c.txn.txn_id_ ∧ ∀ s, log.waiting y = some s → s = r
  | _ => log.waiting y = none

/-- Ids tell transactions apart, and a transaction in `del` has the mutex. -/
structure Threads (w : World) : Prop where
  ids : ∀ (i j : Nat) c d, w.clients[i]? = some c → w.clients[j]? = some d → c.txn.txn_id_ = d.txn.txn_id_ → i = j
  known : ∀ r ∈ w.log.appended, ∃ c ∈ w.clients, c.txn.txn_id_ = r.txn_id_
  waiting : ∀ y, w.clients.length ≤ y → w.log.waiting y = none
  calls : ∀ (y : Nat) c, w.clients[y]? = some c → c.Waits w.log y
  mutex : ∀ (y : Nat) c, w.clients[y]? = some c → c.call.Deletes → w.mutex_ = some y

theorem Client.Waits.append (h : c.Waits log' y) (hcall : c.call = .append r op) :
    r.txn_id_ = c.txn.txn_id_ ∧ ∀ s, log'.waiting y = some s → s = r := by
  rw [Client.Waits, hcall] at h
  exact h

theorem Client.Waits.none (h : c.Waits log' y) (hcall : ∀ r op, c.call ≠ .append r op) : log'.waiting y = none := by
  rw [Client.Waits] at h
  split at h
  · rename_i r op heq
    exact absurd heq (hcall r op)
  · exact h

theorem Client.Waits.congr {log : LogManager.World} (h : c.Waits log y) (hwaiting : log'.waiting y = log.waiting y) :
    c.Waits log' y := by
  rw [Client.Waits] at h ⊢
  rw [hwaiting]
  exact h

theorem Threads.init (a b : Vector UInt8 LOG_BUFFER_SIZE) (store : KVStore_beta) : Threads (World.init a b store) where
  ids _ _ _ _ hc := nomatch hc
  known _ hr := nomatch hr
  waiting _ _ := rfl
  calls _ _ hc := nomatch hc
  mutex _ _ hc := nomatch hc

/-- Client `y` goes on; the log stays. -/
theorem Threads.set (h : Threads w) (c' : Client) (hc : w.clients[y]? = some c) (hid : c'.txn.txn_id_ = c.txn.txn_id_)
    (hwaits : c'.Waits w.log y) (hlog : w'.log = w.log) (hclients : w'.clients = w.clients.set y c')
    (hself : c'.call.Deletes → w'.mutex_ = some y)
    (hothers : ∀ (z : Nat) d, z ≠ y → w.clients[z]? = some d → d.call.Deletes → w'.mutex_ = some z) : Threads w' := by
  refine ⟨?_, ?_, ?_, ?_, ?_⟩
  · rw [hclients]
    exact ids_set h.ids hc hid
  · rw [hlog, hclients]
    exact known_set c' h.known hc hid
  · intro z hz
    rw [hclients, List.length_set] at hz
    rw [hlog]
    exact h.waiting z hz
  · intro z d hd
    rw [hclients] at hd
    rw [hlog]
    rcases Slots.get_set hd with ⟨rfl, rfl⟩ | ⟨-, hd⟩
    · exact hwaits
    · exact h.calls z d hd
  · intro z d hd hdel
    rw [hclients] at hd
    rcases Slots.get_set hd with ⟨rfl, rfl⟩ | ⟨hz, hd⟩
    · exact hself hdel
    · exact hothers z d hz hd hdel

theorem Threads.begin {txn_id : txn_id_t} (h : Threads w) (hids : ∀ c ∈ w.clients, c.txn.txn_id_ ≠ txn_id) :
    Threads { w with clients := w.clients ++
      [⟨{ txn_id_ := txn_id }, .append (beginRecord { txn_id_ := txn_id }) .Begin⟩] } := by
  refine ⟨ids_snoc h.ids hids, ?_, ?_, ?_, ?_⟩
  · intro r hr
    obtain ⟨c, hc, hid⟩ := h.known r hr
    exact ⟨c, List.mem_append_left _ hc, hid⟩
  · intro y hy
    rw [List.length_append] at hy
    exact h.waiting y (Nat.le_of_add_right_le hy)
  · intro y d hd
    rcases Slots.get_snoc hd with hd | ⟨rfl, rfl⟩
    · exact h.calls y d hd
    · refine ⟨rfl, fun s hs => ?_⟩
      rw [h.waiting _ (Nat.le_refl _)] at hs
      cases hs
  · intro y d hd hdel
    rcases Slots.get_snoc hd with hd | ⟨rfl, rfl⟩
    · exact h.mutex y d hd hdel
    · obtain ⟨key, value, inMem, add_writeset, hop⟩ := hdel
      cases hop

/-- The record of client `y` is appended, or waits. -/
theorem Threads.appends (h : Threads w) (hc : w.clients[y]? = some c) (hcall : c.call = .append r op)
    (hlog : LogManager.next w.log (logEvent w.log y r) = some log') :
    Threads { w with log := log' } ∧
      ((log'.appended = w.log.appended ∧ (log'.waiting y).isSome) ∨
        (log'.appended = w.log.appended ++ [r.SetLsn w.log.mgr.next_lsn_] ∧ log'.waiting y = none)) := by
  obtain ⟨hid, hwaiting⟩ := (h.calls y c hc).append hcall
  have hlt : y < w.clients.length := (List.getElem?_eq_some_iff.mp hc).1
  -- the waiting of `y` is that of its record, and the others wait as before
  have hcalls : (∀ z, z ≠ y → log'.waiting z = w.log.waiting z) → (∀ s, log'.waiting y = some s → s = r) →
      ∀ (z : Nat) d, w.clients[z]? = some d → d.Waits log' z := by
    intro hothers hself z d hd
    by_cases hz : z = y
    · subst hz
      obtain rfl := Option.some.inj (hd.symm.trans hc)
      rw [Client.Waits, hcall]
      exact ⟨hid, hself⟩
    · exact (h.calls z d hd).congr (hothers z hz)
  rcases next_logEvent hwaiting hlog with ⟨happended, -, hwait⟩ | rfl
  · have hself : log'.waiting y = some r := (hwait y).trans (if_pos rfl)
    have hothers : ∀ z, z ≠ y → log'.waiting z = w.log.waiting z := fun z hz => (hwait z).trans (if_neg hz)
    refine ⟨⟨h.ids, happended ▸ h.known, fun z hz => ?_, hcalls hothers fun s hs => ?_, h.mutex⟩, .inl ⟨happended, ?_⟩⟩
    · exact (hothers z (hlt.trans_le hz).ne').trans (h.waiting z hz)
    · exact (Option.some.inj (hself.symm.trans hs)).symm
    · rw [hself]
      rfl
  · have happended := LogManager.appendNow_appended (w := w.log) (t := y) (r := r)
    have hwait := LogManager.appendNow_waiting (w := w.log) (t := y) (r := r)
    have hself : (w.log.appendNow y r).waiting y = none := (hwait y).trans (if_pos rfl)
    have hothers : ∀ z, z ≠ y → (w.log.appendNow y r).waiting z = w.log.waiting z := fun z hz => (hwait z).trans (if_neg hz)
    refine ⟨⟨h.ids, fun s hs => ?_, fun z hz => ?_, hcalls hothers fun s hs => ?_, h.mutex⟩, .inr ⟨happended, hself⟩⟩
    · rw [happended] at hs
      rcases List.mem_append.mp hs with hs | hs
      · exact h.known s hs
      · rw [List.mem_singleton.mp hs]
        exact ⟨c, List.mem_of_getElem? hc, hid.symm⟩
    · exact (hothers z (hlt.trans_le hz).ne').trans (h.waiting z hz)
    · rw [hself] at hs
      cases hs

/-- One transaction at most is in `del`. -/
theorem Threads.del_unique (h : Threads w) (hc : w.clients[x]? = some c) (hdel : c.call.Deletes)
    (hc' : w.clients[y]? = some c') (hdel' : c'.call.Deletes) : x = y :=
  Option.some.inj ((h.mutex x c hc hdel).symm.trans (h.mutex y c' hc' hdel'))

/-- The rest of the call of `y`. -/
theorem Threads.finish {ones : Nat} (h : Threads w) (hc : w.clients[y]? = some c) (hcall : c.call = .logged op)
    (hfinish : w.finish snappy y ones c op = some w') : Threads w' := by
  obtain ⟨hlog, hclients, heffect⟩ := World.finish_effect hfinish
  have hwaiting : w.log.waiting y = none := (h.calls y c hc).none fun r op heq => by cases hcall.symm.trans heq
  refine h.set (c.finished op) hc (finished_txn c op) ?_ hlog hclients ?_ fun z d hz hd hdel => ?_
  · rw [Client.Waits, finished_call]
    exact hwaiting
  · rintro ⟨key, value, inMem, add_writeset, hop⟩
    rw [finished_call] at hop
    cases hop
  · rcases heffect with ⟨hsame, -⟩ | ⟨⟨key, value, inMem, add_writeset, rfl⟩, -⟩
    · exact hsame.trans (h.mutex z d hd hdel)
    · exact absurd (h.del_unique hd hdel hc ⟨key, value, inMem, add_writeset, hcall ▸ rfl⟩) hz

/-- The call of `del` takes the mutex. -/
theorem Threads.del (h : Threads w) (hstep : next snappy w (.del y key stale add_writeset) = some w') : Threads w' := by
  rcases del_cases hstep with rfl | ⟨c, inMem, value, hc, hidle, hnone, -, rfl⟩
  · exact h
  · have hwaiting := (h.calls y c hc).none fun r op heq => by cases hidle.symm.trans heq
    refine h.set { c with call := .append _ (.del key value inMem add_writeset) } hc rfl ⟨rfl, fun s hs => ?_⟩ rfl rfl
      (fun _ => rfl) fun z d _ hd hdel => ?_
    · cases hwaiting.symm.trans hs
    · cases (h.mutex z d hd hdel).symm.trans hnone

/-- **One step.** -/
theorem Threads.step {e : Event} (h : Threads w) (hids : IdsDiffer w e) (hstep : next snappy w e = some w') : Threads w' := by
  cases e with
  | Begin txn_id =>
      cases next_cases hstep
      exact h.begin hids
  | put y key value add_writeset =>
      cases next_cases hstep with
      | @put _ c _ _ _ hc hidle =>
          have hwaiting := (h.calls y c hc).none fun r op heq => by cases hidle.symm.trans heq
          refine h.set { c with call := .append _ (.put key value add_writeset) } hc rfl ⟨rfl, fun s hs => ?_⟩ rfl rfl ?_
            fun z d _ hd hdel => h.mutex z d hd hdel
          · cases hwaiting.symm.trans hs
          · rintro ⟨key, value, inMem, add_writeset, hop⟩
            cases hop
  | del y key stale add_writeset => exact h.del hstep
  | AppendLogRecord y =>
      cases next_cases hstep with
      | wait hc hcall hlog hwaits => exact (h.appends hc hcall hlog).1
      | @append _ c r op log hc hcall hlog hreturns =>
          obtain ⟨hthreads, happends⟩ := h.appends hc hcall hlog
          have hnone : log.waiting y = none := Option.isNone_iff_eq_none.mp (by simpa using hreturns)
          refine hthreads.set { c with call := .appended w.log.mgr.next_lsn_ op } hc rfl hnone rfl rfl (fun hdel => ?_)
            fun z d _ hd hdel => h.mutex z d hd hdel
          refine h.mutex y c hc ?_
          rw [hcall]
          exact hdel
  | set_prev_lsn y =>
      cases next_cases hstep with
      | @set_prev_lsn _ c lsn op hc hcall =>
          have hwaiting := (h.calls y c hc).none fun r op heq => by cases hcall.symm.trans heq
          refine h.set ⟨{ c.txn with prev_lsn_ := lsn }, .logged op⟩ hc rfl hwaiting rfl rfl (fun hdel => ?_)
            fun z d _ hd hdel => h.mutex z d hd hdel
          refine h.mutex y c hc ?_
          rw [hcall]
          exact hdel
  | finish y ones =>
      cases next_cases hstep with
      | finish hc hcall hfinish => exact h.finish hc hcall hfinish
  | flush e =>
      cases next_cases hstep with
      | flush he hlog =>
          obtain ⟨happended, hwaiting, -⟩ := LogManager.flush_frame hlog (flushes he)
          refine ⟨h.ids, happended ▸ h.known, fun z hz => ?_, fun z d hd => (h.calls z d hd).congr (hwaiting ▸ rfl), h.mutex⟩
          exact (congrFun hwaiting z).trans (h.waiting z hz)

/-! ## The story of one transaction -/

/-- The story of a transaction that extends its write set, with the record that it is about to append. -/
structure Tells (snappy : Snappy) (w : World) (c : Client) : Prop where
  story : SameStory snappy w c
  record : ∀ r op, c.call = .append r op → writesOf r = op.writes
  notes : ∀ op, c.call.op = some op → op.add_writeset = true

/-- What others do leaves the records of a transaction alone, and the store as long as it has the mutex. -/
theorem Tells.frame (h : Tells snappy w c)
    (hown : links.own w'.log.appended c.txn.txn_id_ = links.own w.log.appended c.txn.txn_id_)
    (hstore : c.call.Deletes → w'.store = w.store) : Tells snappy w' c := by
  refine ⟨⟨?_, fun key value inMem add_writeset hop => ?_, h.story.alive⟩, h.record, h.notes⟩
  · rw [hown]
    exact h.story.writes
  · rw [hstore ⟨key, value, inMem, add_writeset, hop⟩]
    exact h.story.deletes key value inMem add_writeset hop

/-- Between two calls nothing is pending. -/
theorem Tells.idle (hwrites : (links.own w.log.appended c.txn.txn_id_).flatMap writesOf = c.txn.write_set_)
    (hidle : c.call = .idle) : Tells snappy w c := by
  have hpending : c.pending = [] := by rw [Client.pending, hidle]
  refine ⟨⟨?_, fun key value inMem add_writeset hop => ?_, fun r key value inMem add_writeset hcall => ?_⟩,
    fun r op hcall => ?_, fun op hop => ?_⟩
  · rw [hpending, List.append_nil]
    exact hwrites
  · rw [hidle] at hop
    cases hop
  · cases hidle.symm.trans hcall
  · cases hidle.symm.trans hcall
  · rw [hidle] at hop
    cases hop

theorem Tells.writes_idle (h : Tells snappy w c) (hidle : c.call = .idle) :
    (links.own w.log.appended c.txn.txn_id_).flatMap writesOf = c.txn.write_set_ := by
  have hpending : c.pending = [] := by rw [Client.pending, hidle]
  have hwrites := h.story.writes
  rwa [hpending, List.append_nil] at hwrites

/-- A call that is about to append its record. -/
theorem Tells.call (hwrites : (links.own w.log.appended c.txn.txn_id_).flatMap writesOf = c.txn.write_set_)
    (hrecord : writesOf r = op.writes) (hnotes : op.add_writeset = true)
    (hdel : ∀ key value inMem add_writeset, op = .del key value inMem add_writeset →
      KVStore.found snappy w.store key = some (some (inMem, value)) ∧
      ∀ stale, r = KVStore.delRecord c.txn key value inMem stale) : Tells snappy w { c with call := .append r op } := by
  refine ⟨⟨?_, fun key value inMem add_writeset hop => ?_, fun s key value inMem add_writeset hcall => ?_⟩,
    fun s op' hcall => ?_, fun op' hop => ?_⟩
  · exact hwrites.trans (List.append_nil _).symm
  · exact (hdel key value inMem add_writeset (Option.some.inj hop)).1
  · obtain ⟨rfl, rfl⟩ := Call.append.inj hcall
    exact (hdel key value inMem add_writeset rfl).2
  · obtain ⟨rfl, rfl⟩ := Call.append.inj hcall
    exact hrecord
  · obtain rfl := Option.some.inj hop
    exact hnotes

/-- The record is in the log; the write record is to come. -/
theorem Tells.appended (h : Tells snappy w c) (hcall : c.call = .append r op) (hid : r.txn_id_ = c.txn.txn_id_) {lsn : Int}
    (happended : w'.log.appended = w.log.appended ++ [r.SetLsn lsn]) (hstore : w'.store = w.store) :
    Tells snappy w' { c with call := .appended lsn op } := by
  have hown : links.own w'.log.appended c.txn.txn_id_ = links.own w.log.appended c.txn.txn_id_ ++ [r.SetLsn lsn] := by
    rw [happended, ← hid]
    exact BackLinks.own_snoc_self _ (r.SetLsn lsn)
  have hpending : c.pending = [] := by rw [Client.pending, hcall]
  have hwrites := h.story.writes
  rw [hpending, List.append_nil] at hwrites
  refine ⟨⟨?_, fun key value inMem add_writeset hop => ?_, fun _ _ _ _ _ hcall => (by cases hcall)⟩,
    fun _ _ hcall => (by cases hcall), fun op' hop => ?_⟩
  · show (links.own w'.log.appended c.txn.txn_id_).flatMap writesOf = c.txn.write_set_ ++ op.writes
    rw [hown, List.flatMap_append, hwrites, List.flatMap_singleton, writesOf_setLsn, h.record r op hcall]
  · rw [hstore]
    refine h.story.deletes key value inMem add_writeset ?_
    rw [hcall]
    exact hop
  · refine h.notes op' ?_
    rw [hcall]
    exact hop

theorem Tells.set_prev_lsn {lsn : Int} (h : Tells snappy w c) (hcall : c.call = .appended lsn op) :
    Tells snappy w ⟨{ c.txn with prev_lsn_ := lsn }, .logged op⟩ := by
  have hpending : c.pending = op.writes := by rw [Client.pending, hcall]
  refine ⟨⟨?_, fun key value inMem add_writeset hop => ?_, fun _ _ _ _ _ hcall => (by cases hcall)⟩,
    fun _ _ hcall => (by cases hcall), fun op' hop => ?_⟩
  · show (links.own w.log.appended c.txn.txn_id_).flatMap writesOf = c.txn.write_set_ ++ op.writes
    rw [h.story.writes, hpending]
  · refine h.story.deletes key value inMem add_writeset ?_
    rw [hcall]
    exact hop
  · refine h.notes op' ?_
    rw [hcall]
    exact hop

/-- The write record of what is in the log. -/
theorem Tells.finished (h : Tells snappy w c) (hcall : c.call = .logged op) (hlog : w'.log = w.log) :
    Tells snappy w' (c.finished op) := by
  have hpending : c.pending = op.writes := by rw [Client.pending, hcall]
  have hnotes : op.add_writeset = true := h.notes op (by rw [hcall]; rfl)
  apply Tells.idle _ (finished_call c op)
  rw [hlog, finished_txn, finished_writes hnotes, ← hpending]
  exact h.story.writes

/-- What another client, or the log, does to the records of `c`. -/
theorem own_others (hc : w.clients[x]? = some c) {d : Client} (hd : w.clients[y]? = some d) (hyx : y ≠ x) (h : Threads w)
    (hid : r.txn_id_ = d.txn.txn_id_) {lsn : Int} :
    links.own (w.log.appended ++ [r.SetLsn lsn]) c.txn.txn_id_ = links.own w.log.appended c.txn.txn_id_ := by
  apply BackLinks.own_snoc_other
  intro heq
  exact hyx (h.ids y x d c hd hc (hid.symm.trans heq))

/-- A new transaction has told nothing. -/
theorem tells_begin {txn_id : txn_id_t} (hthreads : Threads w) (hids : ∀ c ∈ w.clients, c.txn.txn_id_ ≠ txn_id) :
    Tells snappy w ⟨{ txn_id_ := txn_id }, .append (beginRecord { txn_id_ := txn_id }) .Begin⟩ := by
  have hown : links.own w.log.appended txn_id = [] := own_fresh hthreads.known hids
  have hwrites : (links.own w.log.appended txn_id).flatMap writesOf = [] := by
    rw [hown]
    rfl
  exact Tells.call (c := ⟨{ txn_id_ := txn_id }, .idle⟩) hwrites rfl rfl fun _ _ _ _ hop => by cases hop

/-- A transaction that puts. -/
theorem Tells.put (h : Tells snappy w c) (hidle : c.call = .idle) (hlen : 32 + key.length + value.length < 2 ^ 31)
    (hnotes : add_writeset = true) :
    Tells snappy w { c with call := .append (KVStore.putRecord c.txn key value) (.put key value add_writeset) } :=
  Tells.call (h.writes_idle hidle) (writesOf_putRecord (by omega)) hnotes fun _ _ _ _ hop => by cases hop

/-- A transaction that deletes what it finds. -/
theorem Tells.del (h : Tells snappy w c) (hidle : c.call = .idle)
    (hfound : KVStore.found snappy w.store key = some (some (inMem, value)))
    (hlive : LiveFound key (KVStore.found snappy w.store key)) (hnotes : add_writeset = true) :
    Tells snappy w { c with
      call := .append (KVStore.delRecord c.txn key value inMem stale) (.del key value inMem add_writeset) } := by
  rw [hfound] at hlive
  obtain ⟨hdead, hlen⟩ := hlive
  refine Tells.call (h.writes_idle hidle) (writesOf_delRecord (by omega) (by omega) hdead) hnotes
    fun key' value' inMem' add_writeset' hop => ?_
  obtain ⟨rfl, rfl, rfl, rfl⟩ := Op.del.inj hop
  exact ⟨hfound, fun stale' => (delRecord_live hdead stale).trans (delRecord_live hdead stale').symm⟩

/-- The call of another transaction ends: the store changes with the mutex, which a transaction in `del` has. -/
theorem Threads.store_kept {ones : Nat} (h : Threads w) (hc : w.clients[y]? = some c) (hcall : c.call = .logged op)
    (hfinish : w.finish snappy y ones c op = some w') (hx : w.clients[x]? = some c') (hxy : x ≠ y)
    (hdel : c'.call.Deletes) : w'.store = w.store := by
  obtain ⟨-, -, heffect⟩ := World.finish_effect hfinish
  rcases heffect with ⟨-, hstore | hnone⟩ | ⟨⟨key, value, inMem, add_writeset, rfl⟩, -⟩
  · exact hstore
  · cases (h.mutex x c' hx hdel).symm.trans hnone
  · exact absurd (h.del_unique hx hdel hc ⟨key, value, inMem, add_writeset, hcall ▸ rfl⟩) hxy

/-- **One step.** -/
theorem Tells.step {e : Event} (hthreads : Threads w) (h : ∀ c, w.clients[x]? = some c → Tells snappy w c)
    (hnotes : Notes x w e) (hlive : LiveValue snappy x w e) (hstep : next snappy w e = some w') :
    ∀ c, w'.clients[x]? = some c → Tells snappy w' c := by
  intro c' hc'
  cases e with
  | Begin txn_id =>
      cases next_cases hstep
      rcases Slots.get_snoc hc' with hc | ⟨-, rfl⟩
      · exact (h c' hc).frame rfl fun _ => rfl
      · exact (tells_begin hthreads hnotes.1).frame rfl fun _ => rfl
  | put y key value add_writeset =>
      cases next_cases hstep with
      | @put _ c _ _ _ hc hidle =>
          rcases Slots.get_set hc' with ⟨rfl, rfl⟩ | ⟨-, hc'⟩
          · exact ((h c hc).put hidle (hlive rfl) (hnotes.2 rfl)).frame rfl fun _ => rfl
          · exact (h c' hc').frame rfl fun _ => rfl
  | del y key stale add_writeset =>
      rcases del_cases hstep with rfl | ⟨c, inMem, value, hc, hidle, -, hfound, rfl⟩
      · exact h c' hc'
      · rcases Slots.get_set hc' with ⟨rfl, rfl⟩ | ⟨-, hc'⟩
        · exact ((h c hc).del hidle hfound (hlive rfl) (hnotes.2 rfl)).frame rfl fun _ => rfl
        · exact (h c' hc').frame rfl fun _ => rfl
  | AppendLogRecord y =>
      cases next_cases hstep with
      | @wait _ c r op log hc hcall hlog hwaits =>
          rcases (hthreads.appends hc hcall hlog).2 with ⟨happended, -⟩ | ⟨-, hnone⟩
          · exact (h c' hc').frame (congrArg (links.own · _) happended) fun _ => rfl
          · rw [hnone] at hwaits
            cases hwaits
      | @append _ c r op log hc hcall hlog hreturns =>
          obtain ⟨hid, -⟩ := (hthreads.calls y c hc).append hcall
          rcases (hthreads.appends hc hcall hlog).2 with ⟨-, hsome⟩ | ⟨happended, -⟩
          · cases hreturns.symm.trans hsome
          · rcases Slots.get_set hc' with ⟨rfl, rfl⟩ | ⟨hyx, hc'⟩
            · exact (h c hc).appended hcall hid happended rfl
            · refine (h c' hc').frame ?_ fun _ => rfl
              exact (congrArg (links.own · _) happended).trans (own_others hc' hc (Ne.symm hyx) hthreads hid)
  | set_prev_lsn y =>
      cases next_cases hstep with
      | @set_prev_lsn _ c lsn op hc hcall =>
          rcases Slots.get_set hc' with ⟨rfl, rfl⟩ | ⟨-, hc'⟩
          · exact ((h c hc).set_prev_lsn hcall).frame rfl fun _ => rfl
          · exact (h c' hc').frame rfl fun _ => rfl
  | finish y ones =>
      cases next_cases hstep with
      | @finish _ _ c op _ hc hcall hfinish =>
          obtain ⟨hlog, hclients, -⟩ := World.finish_effect hfinish
          rw [hclients] at hc'
          rcases Slots.get_set hc' with ⟨rfl, rfl⟩ | ⟨hxy, hc'⟩
          · exact (h c hc).finished hcall hlog
          · exact (h c' hc').frame (by rw [hlog]) (hthreads.store_kept hc hcall hfinish hc' hxy)
  | flush e =>
      cases next_cases hstep with
      | flush he hlog =>
          obtain ⟨happended, -⟩ := LogManager.flush_frame hlog (flushes he)
          exact (h c' hc').frame (congrArg (links.own · _) happended) fun _ => rfl

/-! ## Runs -/

/-- **Write set and log tell the same story** in every run in which the transaction does not delete a key that the memtable
    has with a value. -/
theorem writeSet_sameStory {a b : Vector UInt8 LOG_BUFFER_SIZE} {store : KVStore_beta} {es : List Event} {w : World} {x : Nat}
    (h : Run (Guarded (fun w e => Notes x w e ∧ LiveValue snappy x w e) (FunStep (next snappy))) (World.init a b store) es w) :
    ∀ c, w.clients[x]? = some c → SameStory snappy w c := by
  have hinv : Threads w ∧ ∀ c, w.clients[x]? = some c → Tells snappy w c := by
    apply h.invariant (I := fun w => Threads w ∧ ∀ c, w.clients[x]? = some c → Tells snappy w c)
    · rintro s e t ⟨hthreads, htells⟩ ⟨⟨hnotes, hlive⟩, hstep⟩
      exact ⟨hthreads.step hnotes.1 hstep, Tells.step hthreads htells hnotes hlive hstep⟩
    · exact ⟨.init a b store, fun _ hc => nomatch hc⟩
  exact fun c hc => (hinv.2 c hc).story

/-- A store with nothing in it. -/
def emptyStore : KVStore_beta := ⟨SkipList.new, ⟨0, ⟨[], 0, 0⟩⟩, {}⟩

/-- A store with one key, in a table. -/
def oneTable : KVStore_beta :=
  ⟨SkipList.new, ⟨1, ⟨[0], 1, 1⟩⟩, { sst := fun no => if no = 0 then
      (SkipList.new.put [5] [6] 0).bind (TableBuilder.create_sstable SnappyLiterals.snappy) else none }⟩

/-- Two transactions in turns; the first one puts a key without a value and deletes it, and deletes the key of the table. -/
def deleteTwo : List Event :=
  [.Begin 7, .Begin 8, .AppendLogRecord 1, .AppendLogRecord 0, .set_prev_lsn 0, .set_prev_lsn 1, .finish 1 0, .finish 0 0,
    .put 0 [1] [] true, .put 1 [3] [4] false, .AppendLogRecord 0, .AppendLogRecord 1, .set_prev_lsn 0, .finish 0 0,
    .del 0 [1] (fun _ => 9) true, .AppendLogRecord 0, .set_prev_lsn 1, .set_prev_lsn 0, .finish 0 0,
    .del 0 [5] (fun _ => 9) true, .AppendLogRecord 0, .set_prev_lsn 0, .finish 0 0]

/-- The write set has all three operations. -/
theorem writeSet_sameStory_deleteTwo :
    ∃ w, Run (Guarded (fun w e => Notes 0 w e ∧ LiveValue SnappyLiterals.snappy 0 w e) (FunStep (next SnappyLiterals.snappy)))
        (World.init LogManager.zeros LogManager.zeros oneTable) deleteTwo w ∧
      w.clients.map (fun c => c.txn.write_set_) =
        [[⟨.INSERT_TUPLE, [1], []⟩, ⟨.DELETE_TUPLE, [1], []⟩, ⟨.DELETE_TUPLE, [5], [6]⟩], []] ∧
      ∀ c, w.clients[0]? = some c → SameStory SnappyLiterals.snappy w c := by
  obtain ⟨w, hrun, hwrites⟩ : ∃ w, Run (Guarded (fun w e => Notes 0 w e ∧ LiveValue SnappyLiterals.snappy 0 w e)
        (FunStep (next SnappyLiterals.snappy))) (World.init LogManager.zeros LogManager.zeros oneTable) deleteTwo w ∧
      w.clients.map (fun c => c.txn.write_set_) =
        [[⟨.INSERT_TUPLE, [1], []⟩, ⟨.DELETE_TUPLE, [1], []⟩, ⟨.DELETE_TUPLE, [5], [6]⟩], []] :=
    Run.exists_guarded_of_map (f := fun w : World => w.clients.map fun c => c.txn.write_set_) (by decide +kernel)
  exact ⟨w, hrun, hwrites, writeSet_sameStory hrun⟩

/-- A key is put and deleted. -/
def deleteFresh : List Event :=
  [.Begin 7, .AppendLogRecord 0, .set_prev_lsn 0, .finish 0 0,
    .put 0 [1] [2] true, .AppendLogRecord 0, .set_prev_lsn 0, .finish 0 0,
    .del 0 [1] (fun _ => 9) true, .AppendLogRecord 0, .set_prev_lsn 0, .finish 0 0]

/-- The write set has the value, and the log has what the memory of the dead string holds. -/
theorem not_sameStory_deleteFresh :
    ∃ w c, Run (Guarded (Notes 0) (FunStep (next SnappyLiterals.snappy)))
        (World.init LogManager.zeros LogManager.zeros emptyStore) deleteFresh w ∧
      w.clients[0]? = some c ∧ ¬ SameStory SnappyLiterals.snappy w c := by
  obtain ⟨w, hrun, hstory⟩ : ∃ w, Run (Guarded (Notes 0) (FunStep (next SnappyLiterals.snappy)))
        (World.init LogManager.zeros LogManager.zeros emptyStore) deleteFresh w ∧
      w.clients[0]?.map (fun c => (c.txn.write_set_ ++ c.pending,
        (links.own w.log.appended c.txn.txn_id_).flatMap writesOf)) =
      some ([⟨.INSERT_TUPLE, [1], []⟩, ⟨.DELETE_TUPLE, [1], [2]⟩], [⟨.INSERT_TUPLE, [1], []⟩, ⟨.DELETE_TUPLE, [1], [9]⟩]) :=
    Run.exists_guarded_of_map (f := fun w : World => w.clients[0]?.map fun c => (c.txn.write_set_ ++ c.pending,
      (links.own w.log.appended c.txn.txn_id_).flatMap writesOf)) (by decide +kernel)
  obtain ⟨c, hc, hpair⟩ := Option.map_eq_some_iff.mp hstory
  obtain ⟨hwrites, hrecords⟩ := Prod.mk.inj hpair
  refine ⟨w, c, hrun, hc, fun h => ?_⟩
  have heq := h.writes
  rw [hwrites, hrecords] at heq
  exact absurd heq (by decide)

end TransactionManager
end DDBMS
