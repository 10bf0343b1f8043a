import DDBMS.Recovery.CrashRestart
import DDBMS.Storage.KVStoreRoom

/-!
# `Recovery.CrashStore` — what a crash gives back of the store

`KVStore` logs a record for each `put` and each `del`, and recovery makes a store of the records it reads. A pair that has room
in the log buffer is logged in a record that can be read back, and so is what `del` finds, since it has had room before
(`Fitting`). So every crash of a process with a store is recovered from (`Recoverable`), and a key all of whose records are
flushed has the value that the whole log says (`crash_replay`).
-/

namespace DDBMS
namespace Restart

variable {w w' : World} {r : LogRecord} {rs p : List LogRecord} {key : Bytes}

/-- A record of another key, or of none. -/
theorem effect_of_ne (kv : Bytes → Option Bytes) (h : r.IsTuple → r.key ≠ key) : effect kv r key = kv key := by
  unfold effect
  cases ht : r.log_type_ with
  | INSERT => exact Function.update_of_ne (Ne.symm (h (Or.inl ht))) _ _
  | DELETE => exact Function.update_of_ne (Ne.symm (h (Or.inr ht))) _ _
  | INVALID | CREATE_TABLE | DROP_TABLE | BEGIN | COMMIT | ABORT | PREPARED => rfl

theorem foldl_effect_of_ne (h : ∀ r ∈ rs, r.IsTuple → r.key ≠ key) (kv : Bytes → Option Bytes) :
    rs.foldl effect kv key = kv key := by
  induction rs generalizing kv with
  | nil => rfl
  | cons r rs ih =>
      rw [List.foldl_cons, ih (fun s hs => h s (List.mem_cons_of_mem _ hs)), effect_of_ne kv (h r List.mem_cons_self)]

/-- A prefix of a log that has all records of a key. -/
theorem replay_prefix (hp : p <+: rs) (horder : InOrder rs) (h : ∀ r ∈ rs, r.IsTuple → r.key = key → r ∈ p) :
    replay p key = replay rs key := by
  obtain ⟨q, rfl⟩ := hp
  have hnodup := horder.nodup
  have hrest : ∀ r ∈ q, r.IsTuple → r.key ≠ key := by
    intro r hr htuple hkey
    exact (List.disjoint_of_nodup_append hnodup) (h r (List.mem_append_right _ hr) htuple hkey) hr
  rw [replay, replay, List.foldl_append, foldl_effect_of_ne hrest]

/-- **A crash** gives back the keys all of whose records are flushed. -/
theorem crash_replay {a : DurableLog LogRecord} (h : Sound w) (ha : Abstracts w a) {k : Nat} (hok : FileOk w k)
    (b c buffer : Vector UInt8 LOG_BUFFER_SIZE) : ∃ w', next w (.crash k b c buffer) = some w' ∧
      ∀ key, (∀ r ∈ w.log.appended, r.IsTuple → r.key = key → r.lsn_ ≤ w.log.mgr.persistent_lsn_) →
        w'.kv_ key = replay w.log.appended key := by
  obtain ⟨w', hnext, hs⟩ := survives h hok b c buffer
  refine ⟨w', hnext, ?_⟩
  intro key hkey
  rw [hs.starts.kv]
  exact replay_prefix hs.isPrefix h.inOrder (fun r hr htuple heq => hs.keeps h ha hr (hkey r hr htuple heq))

end Restart

namespace KVStore

open LogRecord (InRange)
open Restart (Loggable Sound Abstracts)

theorem inRange_wrap32 (n : Int) : InRange (wrap32 n) := by
  have hle := Int.le_bmod (x := n) (m := 2 ^ 32) (by decide)
  have hlt := Int.bmod_lt (x := n) (m := 2 ^ 32) (by decide)
  unfold InRange wrap32
  omega

/-! ## Records -/

section Records

variable {txn_id : txn_id_t} {prev_lsn : Int} {type : LogRecordType} {txn : Transaction} {key value : Bytes}

/-- What the store logs for a pair that has room. -/
theorem loggable_ofStrings (htype : type = .INSERT ∨ type = .DELETE) (hprev : InRange prev_lsn) (hroom : RoomFor key value) :
    Loggable (LogRecord.ofStrings txn_id prev_lsn type key value) := by
  have hsize := LOG_BUFFER_SIZE_eq
  unfold RoomFor at hroom
  have hself := LogRecord.setLsn_self (LogRecord.ofStrings txn_id prev_lsn type key value)
  refine ⟨LogRecord.constructed_ofStrings htype, ?_, hprev, ?_, ?_⟩
  · refine LogRecord.stored_of_eq ?_ ?_
    · rw [← hself]
      exact LogRecord.key_ofStrings (by omega)
    · rw [← hself]
      exact LogRecord.value_ofStrings (by omega)
  · rw [← hself, LogRecord.length_encode_ofStrings htype (by omega) (by omega), LogRecord.HEADER_SIZE]
    omega
  · show type ≠ .PREPARED
    rcases htype with rfl | rfl <;> decide

theorem loggable_putRecord (hprev : InRange txn.prev_lsn_) (hroom : RoomFor key value) : Loggable (putRecord txn key value) :=
  loggable_ofStrings (Or.inl rfl) hprev hroom

theorem loggable_delRecord (inMem : Bool) (stale : Nat → UInt8) (hprev : InRange txn.prev_lsn_) (hroom : RoomFor key value) :
    Loggable (delRecord txn key value inMem stale) := by
  refine loggable_ofStrings (Or.inr rfl) hprev ?_
  unfold RoomFor at hroom ⊢
  -- the stale bytes are as many as the value has
  split
  · rw [List.length_map, List.length_range]
    exact hroom
  · exact hroom

end Records

/-! ## Runs of the store -/

/-- LSNs last, what is put has room in the log buffer, and other users log records that can be read back. -/
def RecordsOk (w : World) (e : Event) : Prop :=
  w.log.appended.length < 2 ^ 31 - 1 ∧
    match e with
    | .log (.append _ r) => Loggable r
    | .put _ _ key value _ => RoomFor key value
    | _ => True

/-- Every crash of the process can be recovered from. -/
structure Recoverable (snappy : Snappy) (w : World) : Prop where
  log : Sound { log := w.log }
  abstracts : ∃ a, Abstracts { log := w.log } a
  fitting : Fitting snappy w
  prev_lsn : ∀ x, InRange (w.txns x).prev_lsn_

section Steps

variable {snappy : Snappy} {w w' : World} {e : Event} {log : LogManager.World} {t x : Nat} {key value : Bytes}
  {inMem add_writeset : Bool}

theorem recoverable_init (a b : Vector UInt8 LOG_BUFFER_SIZE) {store : KVStore_beta} {txns : Nat → Transaction}
    (hopen : KVStore_beta.new {} = some store) (hprev : ∀ x, InRange (txns x).prev_lsn_) :
    Recoverable snappy (World.init (LogManager.World.init a b) store txns) where
  log := Restart.sound_init a b
  abstracts := ⟨_, Restart.abstracts_init a b⟩
  fitting := ⟨LogManager.inv_init a b, ⟨{}, (represents_empty hopen).finds, by simp, by simp⟩, fun _ => trivial⟩
  prev_lsn := hprev

theorem RecordsOk.shortRecords (h : RecordsOk w e) : ShortRecords w e := by
  obtain ⟨-, h⟩ := h
  cases e with
  | log e =>
      cases e with
      | append t r => exact h.sized
      | wake | swap | write | store | reset => trivial
  | put t x key value add_writeset =>
      have hsize := LOG_BUFFER_SIZE_eq
      have hroom : 32 + key.length + value.length < LOG_BUFFER_SIZE := h
      show 32 + key.length + value.length < 2 ^ 31
      omega
  | del | wake | store => trivial

/-- The log takes a step. -/
theorem Recoverable.logStep {e : LogManager.Event} (h : Recoverable snappy w) (hlen : w.log.appended.length < 2 ^ 31 - 1)
    (hok : ∀ t r, e = .append t r → Loggable r) (hlog : LogManager.next w.log e = some log) :
    Sound { log := log } ∧ ∃ a, Abstracts { log := log } a := by
  obtain ⟨a, ha⟩ := h.abstracts
  obtain ⟨hsound, a', -, ha'⟩ := Restart.simulates_step (e := .log e) h.log ha
    ⟨⟨hlen, hok⟩, Option.map_eq_some_iff.mpr ⟨log, hlog, rfl⟩⟩
  exact ⟨hsound, a', ha'⟩

theorem afterPutLog_prev_lsn (hprev : ∀ x, InRange (w.txns x).prev_lsn_) (hnext : InRange w.log.mgr.next_lsn_) (y : Nat) :
    InRange ((w.afterPutLog t x key value add_writeset log).txns y).prev_lsn_ := by
  unfold World.afterPutLog
  split
  · exact hprev y
  · show InRange (if y = x then _ else w.txns y).prev_lsn_
    split
    · exact hnext
    · exact hprev y

theorem afterDelLog_prev_lsn (hprev : ∀ x, InRange (w.txns x).prev_lsn_) (hnext : InRange w.log.mgr.next_lsn_) (y : Nat) :
    InRange ((w.afterDelLog t x key value inMem add_writeset log).txns y).prev_lsn_ := by
  unfold World.afterDelLog
  split
  · exact hprev y
  · show InRange (if y = x then _ else w.txns y).prev_lsn_
    split
    · exact hnext
    · exact hprev y

/-- **Step lemma.** -/
theorem recoverable_step (hinv : snappy.Inverts) (h : Recoverable snappy w)
    (hst : Guarded RecordsOk (FunStep (next snappy)) w e w') : Recoverable snappy w' := by
  obtain ⟨hok, hst⟩ := hst
  have hfitting := h.fitting.step hinv ⟨hok.shortRecords, hst⟩
  have hnext : InRange w.log.mgr.next_lsn_ := by
    rw [h.log.inv.next_lsn]
    exact inRange_wrap32 _
  have hwake : ∀ {t}, ∀ u r, LogManager.Event.wake t = .append u r → Loggable r := fun _ _ heq => by cases heq
  obtain ⟨hlen, hok⟩ := hok
  cases next_cases hst with
  | @log e log hidle hlog =>
      have hloggable : ∀ t r, e = .append t r → Loggable r := by
        rintro t r rfl
        exact hok
      obtain ⟨hsound, ha⟩ := h.logStep hlen hloggable hlog
      exact ⟨hsound, ha, hfitting, h.prev_lsn⟩
  | @put t x key value add_writeset log hlog =>
      have hloggable : ∀ u r, LogManager.Event.append t (putRecord (w.txns x) key value) = .append u r → Loggable r := by
        rintro u r heq
        obtain ⟨-, rfl⟩ := LogManager.Event.append.inj heq
        exact loggable_putRecord (h.prev_lsn x) hok
      obtain ⟨hsound, ha⟩ := h.logStep hlen hloggable hlog
      rw [← afterPutLog_log w t x key value add_writeset log] at hsound ha
      exact ⟨hsound, ha, hfitting, afterPutLog_prev_lsn h.prev_lsn hnext⟩
  | absent => exact h
  | @del t x key value stale inMem add_writeset log hfound hlog =>
      obtain ⟨c, hc, hroom⟩ := h.fitting.store
      rw [hc.found hinv] at hfound
      have hloggable : ∀ u r, LogManager.Event.append t (delRecord (w.txns x) key value inMem stale) = .append u r →
          Loggable r := by
        rintro u r heq
        obtain ⟨-, rfl⟩ := LogManager.Event.append.inj heq
        exact loggable_delRecord inMem stale (h.prev_lsn x) (hroom.found (Option.some.inj hfound))
      obtain ⟨hsound, ha⟩ := h.logStep hlen hloggable hlog
      rw [← afterDelLog_log w t x key value inMem add_writeset log] at hsound ha
      exact ⟨hsound, ha, hfitting, afterDelLog_prev_lsn h.prev_lsn hnext⟩
  | @wakePut t x key value add_writeset log hcall hlog =>
      obtain ⟨hsound, ha⟩ := h.logStep hlen hwake hlog
      rw [← afterPutLog_log w t x key value add_writeset log] at hsound ha
      exact ⟨hsound, ha, hfitting, afterPutLog_prev_lsn h.prev_lsn hnext⟩
  | @wakeDel t x key value inMem add_writeset log hcall hlog =>
      obtain ⟨hsound, ha⟩ := h.logStep hlen hwake hlog
      rw [← afterDelLog_log w t x key value inMem add_writeset log] at hsound ha
      exact ⟨hsound, ha, hfitting, afterDelLog_prev_lsn h.prev_lsn hnext⟩
  | @storePut t ones key value lsn memtable store hcall hmem hstore =>
      have hlog : ∀ memLsns spilled, (({ w.setCall t .idle with store := store } : World).noteSpill memLsns spilled).log =
          w.log ∧ (({ w.setCall t .idle with store := store } : World).noteSpill memLsns spilled).txns = w.txns := by
        intro memLsns spilled
        unfold World.noteSpill
        split <;> exact ⟨rfl, rfl⟩
      obtain ⟨hlog, htxns⟩ := hlog (SortedAssoc.put key lsn w.memLsns) (memtable.space > StorageOption.SSTABLE_SPACE)
      refine ⟨?_, ?_, hfitting, ?_⟩
      · rw [hlog]
        exact h.log
      · rw [hlog]
        exact h.abstracts
      · rw [htxns]
        exact h.prev_lsn
  | storeDelMem | storeDelDisk => exact ⟨h.log, h.abstracts, hfitting, h.prev_lsn⟩

end Steps

end KVStore
end DDBMS
