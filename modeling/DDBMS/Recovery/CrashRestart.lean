import DDBMS.Lib.DurableLog
import DDBMS.Recovery.LogManagerDurable
import DDBMS.Recovery.TornTail

/-!
# `Recovery.CrashRestart` — the log through any number of crashes

A process appends to the log, from any threads, until it dies. What is in the buffers is lost, and a write in flight is cut
somewhere. The next process opens the file with a new log manager, `Redo` builds its store from the file, and sets the next
LSN. What `Undo` appends then is appended like any other record.

With a file that `Redo` can read (`FileOk`) the next process starts, and its log is a prefix of the old one (`restart_spec`).
Process after process, the log is a `DurableLog` (`simulates_step`): the durable records are those in the file. So the LSNs stay
the positions of the records, and a record up to `persistent_lsn_`, which is what `Flush` waits for, is redone by every later
recovery.
-/

namespace DDBMS
namespace Restart

open LogRecord (encode InRange)
open RecoveryManager (bytesOf sizesOf bytesOf_cons bytesOf_append complete Inside Redo calls)

/-! ## The system -/

/-- The log of the process that runs, and the store that its recovery has built. -/
structure World where
  log : LogManager.World
  kv_ : Bytes → Option Bytes := fun _ => none

inductive Event where
  | log (e : LogManager.Event)
  /-- the process dies `k` bytes into a write, and the next one recovers, with three buffers of unknown contents -/
  | crash (k : Nat) (log_buffer flush_buffer buffer : Vector UInt8 LOG_BUFFER_SIZE)

def World.init (log_buffer flush_buffer : Vector UInt8 LOG_BUFFER_SIZE) : World where
  log := LogManager.World.init log_buffer flush_buffer

/-- The file that a crash leaves. -/
def World.crashFile (w : World) (k : Nat) : Bytes := w.log.mgr.log_file ++ w.log.inFlight.take k

/-- A new process on a log file. It knows of the log what `Redo` has read. -/
def restart (log_file : Bytes) (log_buffer flush_buffer buffer : Vector UInt8 LOG_BUFFER_SIZE) : Option World := do
  let rm ← Redo (log_file.length + 2) (RecoveryManager.init log_file buffer)
  some {
    log := {
      mgr := {
        log_buffer_ := log_buffer.toList
        flush_buffer_ := flush_buffer.toList
        -- SetNextLsn
        next_lsn_ := rm.next_lsn_
        log_file := log_file }
      appended := rm.handed.map Prod.fst }
    kv_ := rm.kv_ }

def next (w : World) : Event → Option World
  | .log e => (LogManager.next w.log e).map fun log => { w with log := log }
  | .crash k log_buffer flush_buffer buffer => restart (w.crashFile k) log_buffer flush_buffer buffer

/-- A record of a transaction: built by a constructor, smaller than the buffer, and of a type that can be read back. -/
structure Loggable (r : LogRecord) : Prop where
  constructed : r.Constructed
  stored : r.stored = r
  prev_lsn : InRange r.prev_lsn_
  lt : r.encode.length < LOG_BUFFER_SIZE
  type : r.log_type_ ≠ .PREPARED

/-- The file that a crash leaves ends with a record, the probes of `Redo` stay in its buffer, and the size of the file is an
    `int`. -/
structure FileOk (w : World) (k : Nat) : Prop where
  whole : w.crashFile k = bytesOf (complete (w.crashFile k).length w.log.appended)
  inside : Inside 0 (sizesOf (complete (w.crashFile k).length w.log.appended))
  length : (w.crashFile k).length < 2 ^ 31

def Ok (w : World) : Event → Prop
  | .log e => w.log.appended.length < 2 ^ 31 - 1 ∧ ∀ t r, e = .append t r → Loggable r
  | .crash k _ _ _ => FileOk w k

/-! ## Records -/

section Records

variable {r : LogRecord} {rs p q : List LogRecord} {n : Nat}

theorem Loggable.setLsn (h : Loggable r) (lsn : Int) : Loggable (r.SetLsn lsn) where
  constructed := h.constructed.setLsn lsn
  stored := congrArg (LogRecord.SetLsn · lsn) h.stored
  prev_lsn := h.prev_lsn
  lt := by
    rw [LogRecord.length_encode_setLsn]
    exact h.lt
  type := h.type

theorem Loggable.sized (h : Loggable r) : r.Sized := by
  have hlt := h.lt
  rw [LOG_BUFFER_SIZE_eq] at hlt
  exact h.constructed.sized (by omega)

theorem Loggable.readable (h : Loggable r) (hlsn : InRange r.lsn_) : r.Readable :=
  ⟨h.constructed, hlsn, h.prev_lsn, h.lt⟩

theorem Loggable.readBack (h : Loggable r) : r.readBack = r := by
  rw [LogRecord.readBack_of_ne h.type, h.stored]

/-- Prefixes of a log of the same size are the same. -/
theorem prefix_eq_of_length (hp : p <+: rs) (hq : q <+: rs) (hlen : (bytesOf p).length = (bytesOf q).length) : p = q := by
  have hshorter : ∀ {p q : List LogRecord}, p <+: q → (bytesOf p).length = (bytesOf q).length → p = q := by
    intro p q hpq hlen
    obtain ⟨post, rfl⟩ := hpq
    rw [bytesOf_append, List.length_append] at hlen
    have hpost := RecoveryManager.length_le_bytesOf post
    obtain rfl : post = [] := List.length_eq_zero_iff.mp (by omega)
    exact (List.append_nil p).symm
  rcases List.prefix_or_prefix_of_prefix hp hq with hpq | hqp
  · exact hshorter hpq hlen
  · exact (hshorter hqp hlen.symm).symm

/-- The records that are whole in a file begin with those that the file begins with. -/
theorem prefix_complete (h : p <+: rs) (hlen : (bytesOf p).length ≤ n) : p <+: complete n rs := by
  induction p generalizing rs n with
  | nil => exact List.nil_prefix
  | cons r p ih =>
      obtain ⟨post, rfl⟩ := h
      rw [bytesOf_cons, List.length_append] at hlen
      rw [List.cons_append, complete, if_pos (by omega), List.prefix_cons_inj]
      exact ih (List.prefix_append p post) (by omega)

/-- The records of a log have their positions as LSNs. -/
def InOrder (rs : List LogRecord) : Prop := rs.map LogRecord.lsn_ = (List.range rs.length).map fun k : Nat => (k : Int)

theorem InOrder.of_prefix (h : InOrder rs) (hp : p <+: rs) : InOrder p := by
  obtain ⟨q, rfl⟩ := hp
  unfold InOrder at h ⊢
  rw [List.map_append, List.length_append, List.range_add, List.map_append] at h
  exact (List.append_inj h (by rw [List.length_map, List.length_map, List.length_range])).1

theorem inOrder_snoc : InOrder (rs ++ [r]) ↔ InOrder rs ∧ r.lsn_ = rs.length := by
  unfold InOrder
  rw [List.map_append, List.length_append, List.length_singleton, List.range_succ, List.map_append]
  constructor
  · intro h
    obtain ⟨hrs, hr⟩ := List.append_inj h (by rw [List.length_map, List.length_map, List.length_range])
    exact ⟨hrs, (List.cons.inj hr).1⟩
  · rintro ⟨hrs, hr⟩
    rw [hrs, List.map_singleton, List.map_singleton, hr]

theorem InOrder.nodup (h : InOrder rs) : rs.Nodup := by
  refine List.Nodup.of_map LogRecord.lsn_ ?_
  rw [h]
  exact List.nodup_range.map Nat.cast_injective

theorem InOrder.getElem? (h : InOrder rs) (hr : r ∈ rs) : ∃ i, i < rs.length ∧ rs[i]? = some r ∧ r.lsn_ = i := by
  obtain ⟨i, hi⟩ := List.mem_iff_getElem?.mp hr
  have hlt : i < rs.length := (List.getElem?_eq_some_iff.mp hi).1
  refine ⟨i, hlt, hi, ?_⟩
  have hget := congrArg (fun l => l[i]?) h
  simp only [List.getElem?_map, hi, List.getElem?_range hlt] at hget
  exact Option.some.inj hget

theorem InOrder.readable (h : InOrder rs) (hrs : ∀ r ∈ rs, Loggable r) (hlen : rs.length ≤ 2 ^ 31) : ∀ r ∈ rs, r.Readable := by
  intro r hr
  obtain ⟨i, hi, -, heq⟩ := h.getElem? hr
  exact (hrs r hr).readable ⟨by omega, by omega⟩

/-- The next LSN is the number of records. -/
theorem InOrder.maxLsn (h : InOrder rs) : RecoveryManager.maxLsn INVALID_LSN rs + 1 = rs.length := by
  induction rs using List.reverseRecOn with
  | nil => rfl
  | append_singleton rs r ih =>
      obtain ⟨hrs, hr⟩ := inOrder_snoc.mp h
      have hmax := ih hrs
      have hsnoc : RecoveryManager.maxLsn INVALID_LSN (rs ++ [r]) = max (RecoveryManager.maxLsn INVALID_LSN rs) r.lsn_ :=
        RecoveryManager.maxLsn_append rs [r] INVALID_LSN
      rw [hsnoc, hr, List.length_append, List.length_singleton]
      push_cast
      omega

end Records

/-! ## What `Redo` does to the store -/

/-- What a record does to the store. -/
def effect (kv : Bytes → Option Bytes) (r : LogRecord) : Bytes → Option Bytes :=
  match r.log_type_ with
  | .INSERT => Function.update kv r.key (some r.value)
  | .DELETE => Function.update kv r.key none
  | _ => kv

/-- The store that some records make of an empty one. -/
def replay (rs : List LogRecord) : Bytes → Option Bytes := rs.foldl effect fun _ => none

section Replay

variable {rm : RecoveryManager} {r : LogRecord} {rs : List LogRecord} {pos : Nat}

theorem RedoLog_effect (rm : RecoveryManager) (r : LogRecord) : (rm.RedoLog r).kv_ = effect rm.kv_ r := by
  unfold RecoveryManager.RedoLog effect
  cases r.log_type_ <;> rfl

theorem handAll_effect (h : ∀ r ∈ rs, r.readBack = r) : (RecoveryManager.handAll rm pos rs).kv_ = rs.foldl effect rm.kv_ := by
  induction rs generalizing rm pos with
  | nil => rfl
  | cons r rs ih =>
      have hr : (rm.hand pos r).kv_ = effect rm.kv_ r := by
        rw [RecoveryManager.hand, h r List.mem_cons_self, RedoLog_effect]
        rfl
      rw [RecoveryManager.handAll, ih (fun s hs => h s (List.mem_cons_of_mem _ hs)), hr, List.foldl_cons]

theorem map_calls (h : ∀ r ∈ rs, r.readBack = r) : (calls LogRecord.readBack pos rs).map Prod.fst = rs := by
  induction rs generalizing pos with
  | nil => rfl
  | cons r rs ih =>
      rw [calls, List.map_cons, ih (fun s hs => h s (List.mem_cons_of_mem _ hs)), h r List.mem_cons_self]

end Replay

/-! ## The next process -/

section Recover

variable {rs : List LogRecord} {w w' : World} {k : Nat}

/-- What a process starts with, when the log has these records. -/
structure Starts (rs : List LogRecord) (w : World) : Prop where
  appended : w.log.appended = rs
  waiting : w.log.waiting = fun _ => none
  pieces : LogManager.Pieces w.log rs [] []
  inv : LogManager.Inv w.log
  kv : w.kv_ = replay rs

/-- **Recovery** of the records of a log. -/
theorem restart_spec (hrs : ∀ r ∈ rs, Loggable r) (horder : InOrder rs) (hinside : Inside 0 (sizesOf rs))
    (hlen : (bytesOf rs).length < 2 ^ 31) (a b buffer : Vector UInt8 LOG_BUFFER_SIZE) :
    ∃ w, restart (bytesOf rs) a b buffer = some w ∧ Starts rs w := by
  have hcount := RecoveryManager.length_le_bytesOf rs
  have hreadable := horder.readable hrs (by omega)
  have hback : ∀ r ∈ rs, r.readBack = r := fun r hr => (hrs r hr).readBack
  have hshort : ∀ r ∈ rs, r.lsn_ < 2 ^ 31 - 1 := by
    intro r hr
    obtain ⟨i, hi, -, heq⟩ := horder.getElem? hr
    -- a record takes more than one byte
    have hheader := r.header_le_encode
    have hsize : LogRecord.HEADER_SIZE = 24 := rfl
    obtain ⟨pre, post, rfl⟩ := List.append_of_mem hr
    have hpre := RecoveryManager.length_le_bytesOf pre
    have hpost := RecoveryManager.length_le_bytesOf post
    rw [bytesOf_append, bytesOf_cons, List.length_append, List.length_append] at hlen
    rw [List.length_append, List.length_cons] at hi
    omega
  rcases RecoveryManager.Redo_spec hreadable (by omega) (show rs.length + 1 < (bytesOf rs).length + 2 by omega) buffer with
    ⟨-, hbad⟩ | ⟨⟨c, -, hredo⟩, -⟩
  · exact absurd ⟨hinside, hlen, hshort⟩ hbad
  · have hhanded : (RecoveryManager.afterRedo rs c buffer).handed.map Prod.fst = rs := by
      have hcalls : (RecoveryManager.afterRedo rs c buffer).handed = calls LogRecord.readBack 0 rs :=
        RecoveryManager.handAll_handed hreadable
      rw [hcalls, map_calls hback]
    have hkv : (RecoveryManager.afterRedo rs c buffer).kv_ = replay rs := handAll_effect hback
    have hnext : (RecoveryManager.afterRedo rs c buffer).next_lsn_ = rs.length := horder.maxLsn
    refine ⟨_, by rw [restart, hredo]; rfl, hhanded, rfl, ?_, ?_, hkv⟩
    · exact ⟨by rw [hhanded, List.append_nil, List.append_nil], rfl, rfl, List.take_zero, rfl, 0, Nat.zero_le _, rfl⟩
    · have hpos : 0 < LOG_BUFFER_SIZE := by simp [LOG_BUFFER_SIZE_eq]
      refine ⟨Vector.length_toList, Vector.length_toList, hpos, hpos, ?_, ?_, ?_, rs, [], [], ?_⟩
      · intro t r h
        cases h
      · show (RecoveryManager.afterRedo rs c buffer).next_lsn_ = wrap32 ((RecoveryManager.afterRedo rs c buffer).handed.map
          Prod.fst).length
        rw [hnext, hhanded, wrap32_of_lt (by omega) (by omega)]
      · show ((RecoveryManager.afterRedo rs c buffer).handed.map Prod.fst).map LogRecord.lsn_ = _
        rw [hhanded, horder]
        refine List.map_congr_left fun i hi => ?_
        have hi := List.mem_range.mp hi
        rw [wrap32_of_lt (by omega) (by omega)]
      · exact ⟨by rw [hhanded, List.append_nil, List.append_nil], rfl, rfl, List.take_zero, rfl, 0, Nat.zero_le _, rfl⟩

end Recover

/-! ## Runs -/

/-- The records of the process can be recovered. -/
structure Sound (w : World) : Prop where
  inv : LogManager.Inv w.log
  records : ∀ r ∈ w.log.appended, Loggable r
  waiting : ∀ t r, w.log.waiting t = some r → Loggable r
  length : w.log.appended.length < 2 ^ 31

/-- The log is that of the abstract one, and the file has its durable records. -/
structure Abstracts (w : World) (a : DurableLog LogRecord) : Prop where
  records : w.log.appended = a.records
  file : w.log.mgr.log_file = bytesOf a.kept

section Steps

variable {w w' : World} {a : DurableLog LogRecord} {e : Event}

theorem Sound.inOrder (h : Sound w) : InOrder w.log.appended := h.inv.inOrder (Nat.le_of_lt h.length)

/-- The pieces of the log, of which the first one is durable. -/
theorem Abstracts.pieces (h : Abstracts w a) (hw : LogManager.Inv w.log) :
    ∃ flying buffered, LogManager.Pieces w.log a.kept flying buffered := by
  obtain ⟨done, flying, buffered, hp⟩ := hw.pieces
  have hdone : done <+: w.log.appended := by
    rw [hp.appended]
    exact List.prefix_append _ _
  have hkept : a.kept <+: w.log.appended := by
    rw [h.records]
    exact a.kept_prefix
  obtain rfl : done = a.kept := prefix_eq_of_length hdone hkept (by rw [← h.file, hp.file]; rfl)
  exact ⟨flying, buffered, hp⟩

theorem sound_init (a b : Vector UInt8 LOG_BUFFER_SIZE) : Sound (World.init a b) where
  inv := LogManager.inv_init a b
  records _ h := absurd h List.not_mem_nil
  waiting _ _ h := by cases h
  length := Nat.two_pow_pos 31

theorem abstracts_init (a b : Vector UInt8 LOG_BUFFER_SIZE) : Abstracts (World.init a b) .empty := ⟨rfl, rfl⟩

/-- A step of the log manager. -/
theorem sound_log {log : LogManager.World} {e : LogManager.Event} (h : Sound w) (hok : Ok w (.log e))
    (hst : LogManager.next w.log e = some log) : Sound { w with log := log } := by
  obtain ⟨hlen, hloggable⟩ := hok
  have hsized : LogManager.SizedRecords w.log e := by
    cases e with
    | append t r => exact (hloggable t r rfl).sized
    | wake | swap | write | store | reset => trivial
  have hinv : LogManager.Inv log := LogManager.inv_step h.inv ⟨hsized, hst⟩
  have happend : ∀ {t r}, Loggable r → log = w.log.appendNow t r → Sound { w with log := log } := by
    rintro t r hr rfl
    refine ⟨hinv, ?_, ?_, ?_⟩
    · intro s hs
      rcases List.mem_append.mp hs with hs | hs
      · exact h.records s hs
      · rw [List.mem_singleton.mp hs]
        exact hr.setLsn _
    · intro u s hs
      rw [LogManager.appendNow_waiting] at hs
      split at hs
      · cases hs
      · exact h.waiting u s hs
    · show (w.log.appended ++ [_]).length < _
      rw [List.length_append, List.length_singleton]
      omega
  cases LogManager.next_cases hst with
  | @wait t r =>
      refine ⟨hinv, h.records, ?_, h.length⟩
      intro u s hs
      change (if u = t then some r else w.log.waiting u) = some s at hs
      split at hs
      · obtain rfl := Option.some.inj hs
        exact hloggable t r rfl
      · exact h.waiting u s hs
  | append => exact happend (hloggable _ _ rfl) rfl
  | sleep | empty => exact h
  | wake hwaiting => exact happend (h.waiting _ _ hwaiting) rfl
  | swap | write | store | reset => exact ⟨hinv, h.records, h.waiting, h.length⟩

/-- **A step of the log manager** appends a record, or makes some durable, or neither. -/
theorem simulates_log {log : LogManager.World} {e : LogManager.Event} (h : Sound w) (ha : Abstracts w a) (hok : Ok w (.log e))
    (hst : LogManager.next w.log e = some log) :
    ∃ a', Relation.ReflTransGen DurableLog.Step a a' ∧ Abstracts { w with log := log } a' := by
  obtain ⟨flying, buffered, hp⟩ := ha.pieces h.inv
  have happend : ∀ {t r}, ¬ w.log.mgr.Full r → r.Sized → log = w.log.appendNow t r →
      ∃ a', Relation.ReflTransGen DurableLog.Step a a' ∧ Abstracts { w with log := log } a' := by
    rintro t r hroom hr rfl
    refine ⟨_, .single (.append (r.SetLsn w.log.mgr.next_lsn_)), ?_, ?_⟩
    · exact congrArg (· ++ [r.SetLsn w.log.mgr.next_lsn_]) ha.records
    · have hfit := (LogManager.not_full_iff hr h.inv.offset).mp hroom
      have hfile : (w.log.appendNow t r).mgr.log_file = w.log.mgr.log_file := by
        rw [LogManager.appendNow_mgr, LogManager.append_eq h.inv.log_buffer hfit]
      show (w.log.appendNow t r).mgr.log_file = _
      rw [hfile, ha.file]
      refine congrArg bytesOf ?_
      exact (List.take_append_of_le_length a.le).symm
  have hsame : log.appended = w.log.appended → log.mgr.log_file = w.log.mgr.log_file →
      ∃ a', Relation.ReflTransGen DurableLog.Step a a' ∧ Abstracts { w with log := log } a' :=
    fun happended hfile => ⟨a, .refl, happended.trans ha.records, hfile.trans ha.file⟩
  cases LogManager.next_cases hst with
  | wait | sleep | swap | empty | store | reset => exact hsame rfl rfl
  | append _ hroom => exact happend hroom (hok.2 _ _ rfl).sized rfl
  | wake hwaiting hroom => exact happend hroom (h.waiting _ _ hwaiting).sized rfl
  | @write lsn hwriting =>
      have hflying : (w.log.mgr.flush_buffer_.take w.log.mgr.flush_buffer_write_offset_) = bytesOf flying := by
        have := hp.inFlight
        rwa [LogManager.World.inFlight, hwriting] at this
      have hlen : (a.kept ++ flying).length ≤ a.records.length := by
        rw [← ha.records, hp.appended, ← List.append_assoc]
        exact (List.prefix_append _ _).length_le
      have hle : a.durable ≤ (a.kept ++ flying).length := by
        rw [List.length_append, a.length_kept]
        exact Nat.le_add_right _ _
      refine ⟨_, .single (.sync _ hle hlen), ha.records, ?_⟩
      have hkept : a.records.take (a.kept ++ flying).length = a.kept ++ flying := by
        rw [← ha.records, hp.appended, ← List.append_assoc, List.take_left]
      show LogStorage.WriteLog _ _ _ = bytesOf (a.records.take (a.kept ++ flying).length)
      rw [hkept, bytesOf_append, ← ha.file, ← hflying, LogStorage.WriteLog]
      split
      · rename_i hzero
        rw [hzero, List.take_zero, List.append_nil]
      · rfl

/-- What a crash does: the next process starts with the records that are whole in the file. -/
structure Survives (w w' : World) : Prop where
  starts : Starts w'.log.appended w'
  isPrefix : w'.log.appended <+: w.log.appended
  file : w'.log.mgr.log_file = bytesOf w'.log.appended
  done : w.log.mgr.log_file <+: w'.log.mgr.log_file

/-- **A crash.** -/
theorem survives (h : Sound w) {k : Nat} (hok : FileOk w k) (b c buffer : Vector UInt8 LOG_BUFFER_SIZE) :
    ∃ w', next w (.crash k b c buffer) = some w' ∧ Survives w w' := by
  have hpre : complete (w.crashFile k).length w.log.appended <+: w.log.appended := RecoveryManager.isPrefix_complete _ _
  have hdone : w.log.mgr.log_file <+: w.crashFile k := List.prefix_append _ _
  have hwhole := hok.whole
  have hinside := hok.inside
  have hlen := hok.length
  generalize complete (w.crashFile k).length w.log.appended = rs at hpre hwhole hinside
  rw [hwhole] at hlen
  have hrs : ∀ r ∈ rs, Loggable r := fun r hr => h.records r (hpre.subset hr)
  obtain ⟨w', hstart, hstarts⟩ := restart_spec hrs (h.inOrder.of_prefix hpre) hinside hlen b c buffer
  obtain rfl := hstarts.appended
  refine ⟨w', ?_, hstarts, hpre, hstarts.pieces.file, ?_⟩
  · show restart (w.crashFile k) b c buffer = some w'
    rw [hwhole, hstart]
  · rw [hstarts.pieces.file]
    rw [hwhole] at hdone
    exact hdone

theorem sound_survives (h : Sound w) (hs : Survives w w') : Sound w' where
  inv := hs.starts.inv
  records := fun r hr => h.records r (hs.isPrefix.subset hr)
  waiting := by
    intro t r hr
    rw [hs.starts.waiting] at hr
    cases hr
  length := Nat.lt_of_le_of_lt hs.isPrefix.length_le h.length

/-- **A crash** loses what is not durable, or less. -/
theorem simulates_survives (ha : Abstracts w a) (hs : Survives w w') :
    ∃ a', Relation.ReflTransGen DurableLog.Step a a' ∧ Abstracts w' a' := by
  have hpre : w'.log.appended <+: a.records := ha.records ▸ hs.isPrefix
  have htake : a.records.take w'.log.appended.length = w'.log.appended := (List.prefix_iff_eq_take.mp hpre).symm
  -- the durable records are whole in the file
  have hdurable : a.durable ≤ w'.log.appended.length := by
    have hlen := hs.done.length_le
    rw [ha.file, hs.file] at hlen
    rcases List.prefix_or_prefix_of_prefix a.kept_prefix hpre with hle | hle
    · rw [← a.length_kept]
      exact hle.length_le
    · obtain ⟨q, hq⟩ := hle
      rw [← hq, bytesOf_append, List.length_append] at hlen
      have hcount := RecoveryManager.length_le_bytesOf q
      rw [← a.length_kept, ← hq, List.length_append]
      omega
  refine ⟨_, .single (.crash w'.log.appended.length hdurable hpre.length_le), htake.symm, ?_⟩
  show w'.log.mgr.log_file = bytesOf ((a.records.take w'.log.appended.length).take w'.log.appended.length)
  rw [htake, List.take_length]
  exact hs.file

/-- **Step lemma.** -/
theorem simulates_step (h : Sound w) (ha : Abstracts w a) (hst : Guarded Ok (FunStep next) w e w') :
    Sound w' ∧ ∃ a', Relation.ReflTransGen DurableLog.Step a a' ∧ Abstracts w' a' := by
  obtain ⟨hok, hst⟩ := hst
  cases e with
  | log e =>
      obtain ⟨log, hlog, rfl⟩ := Option.map_eq_some_iff.mp hst
      exact ⟨sound_log h hok hlog, simulates_log h ha hok hlog⟩
  | crash k b c buffer =>
      obtain ⟨w'', hnext, hs⟩ := survives h hok b c buffer
      obtain rfl := Option.some.inj (hnext.symm.trans hst)
      exact ⟨sound_survives h hs, simulates_survives ha hs⟩

/-- **Run lemma.** -/
theorem simulates_run {es : List Event} (h : Sound w) (ha : Abstracts w a) (hr : Run (Guarded Ok (FunStep next)) w es w') :
    Sound w' ∧ ∃ a', Relation.ReflTransGen DurableLog.Step a a' ∧ Abstracts w' a' := by
  induction hr with
  | refl => exact ⟨h, a, .refl, ha⟩
  | tail _ hst ih =>
      obtain ⟨hsound, a', hsteps, ha'⟩ := ih
      obtain ⟨hsound', a'', hsteps', ha''⟩ := simulates_step hsound ha' hst
      exact ⟨hsound', a'', hsteps.trans hsteps', ha''⟩

theorem sound_run {b c : Vector UInt8 LOG_BUFFER_SIZE} {es : List Event}
    (h : Run (Guarded Ok (FunStep next)) (World.init b c) es w) : Sound w ∧ ∃ a, Abstracts w a := by
  obtain ⟨hsound, a, -, ha⟩ := simulates_run (sound_init b c) (abstracts_init b c) h
  exact ⟨hsound, a, ha⟩

/-- What `persistent_lsn_` promises is durable. -/
theorem Abstracts.persistent_lt (ha : Abstracts w a) (h : Sound w) : w.log.mgr.persistent_lsn_ < a.durable := by
  obtain ⟨flying, buffered, hp⟩ := ha.pieces h.inv
  have hlt := hp.persistent_lt h.length
  rwa [a.length_kept] at hlt

/-- A crash loses no record up to `persistent_lsn_`. -/
theorem Survives.keeps (hs : Survives w w') (h : Sound w) (ha : Abstracts w a) {r : LogRecord} (hr : r ∈ w.log.appended)
    (hle : r.lsn_ ≤ w.log.mgr.persistent_lsn_) : r ∈ w'.log.appended := by
  obtain ⟨a', hsteps, ha'⟩ := simulates_survives ha hs
  obtain ⟨i, -, hget, hlsn⟩ := h.inOrder.getElem? hr
  have hlt := ha.persistent_lt h
  rw [ha.records] at hget
  obtain ⟨-, hget'⟩ := DurableLog.getElem?_steps hsteps (by omega) hget
  rw [ha'.records]
  exact List.mem_of_getElem? hget'

end Steps

/-! ## What recovery gives back -/

section Main

variable {b c : Vector UInt8 LOG_BUFFER_SIZE} {es es' : List Event} {w w' : World}

/-- A log that is flushed, with nothing in the buffers. -/
theorem crashFile_flushed (h : Sound w) (hquiet : LogManager.Quiet w.log 0) : w.crashFile 0 = bytesOf w.log.appended := by
  have hlogged := h.inv.exact.logged
  rw [LogManager.World.logged, LogManager.World.inFlight, hquiet.idle, hquiet.offset_eq, List.take_zero, List.append_nil,
    List.append_nil] at hlogged
  rw [World.crashFile, List.take_zero, List.append_nil, hlogged]
  rfl

theorem complete_flushed (h : Sound w) (hquiet : LogManager.Quiet w.log 0) :
    complete (w.crashFile 0).length w.log.appended = w.log.appended := by
  rw [crashFile_flushed h hquiet]
  exact (RecoveryManager.isPrefix_complete _ _).eq_of_length_le (prefix_complete List.prefix_rfl (Nat.le_refl _)).length_le

theorem fileOk_flushed (h : Sound w) (hquiet : LogManager.Quiet w.log 0) (hinside : Inside 0 (sizesOf w.log.appended))
    (hlen : (bytesOf w.log.appended).length < 2 ^ 31) : FileOk w 0 where
  whole := by rw [complete_flushed h hquiet, crashFile_flushed h hquiet]
  inside := by
    rw [complete_flushed h hquiet]
    exact hinside
  length := by
    rw [crashFile_flushed h hquiet]
    exact hlen

/-- A record is appended and flushed. -/
def oneFlushed : List Event :=
  [.log (.append 0 LogManager.beginRecord), .log .swap, .log .write, .log .store, .log .reset]

theorem loggable_beginRecord : Loggable LogManager.beginRecord where
  constructed := .txn 1 INVALID_LSN .BEGIN INVALID_LSN (Or.inl rfl)
  stored := rfl
  prev_lsn := by decide
  lt := by
    rw [LogManager.length_beginRecord, LOG_BUFFER_SIZE_eq]
    decide
  type := by decide

theorem run_oneFlushed : ∃ w, Run (Guarded Ok (FunStep next)) (World.init LogManager.zeros LogManager.zeros) oneFlushed w ∧
    w.log.appended = [LogManager.beginRecord.SetLsn 0] ∧ w.log.mgr.persistent_lsn_ = 0 ∧ FileOk w 0 := by
  have hI := LogManager.inv_init LogManager.zeros LogManager.zeros
  have hfit : 0 + LogManager.beginRecord.encode.length < LOG_BUFFER_SIZE := by
    rw [LogManager.length_beginRecord, LOG_BUFFER_SIZE_eq]
    decide
  obtain ⟨happend, hq⟩ := LogManager.next_append (t := 0) hI (LogManager.quiet_init _ _) LogManager.beginRecord_sized hfit
  obtain ⟨w₁, w₂, w₃, w₄, h₁, h₂, h₃, h₄, hq₄, happ, -, hpersistent⟩ :=
    LogManager.flush_steps hq (by rw [LogManager.length_beginRecord]; decide)
  have hstep : ∀ {v v' : LogManager.World} {e : LogManager.Event}, (∀ t r, e = .append t r → Loggable r) →
      v.appended.length ≤ 1 → LogManager.next v e = some v' →
      Guarded Ok (FunStep next) { log := v } (.log e) { log := v' } := by
    intro v v' e hr hlen hst
    exact ⟨⟨by show v.appended.length < _; omega, hr⟩, Option.map_eq_some_iff.mpr ⟨v', hst, rfl⟩⟩
  have hno : ∀ {e : LogManager.Event}, e.Flushes → ∀ t r, e = .append t r → Loggable r := by
    rintro e he t r rfl
    exact he.elim
  have hone : ((LogManager.World.init LogManager.zeros LogManager.zeros).appendNow 0 LogManager.beginRecord).appended =
      [LogManager.beginRecord.SetLsn 0] := rfl
  have ha₁ := (LogManager.flush_frame h₁ trivial).1.trans hone
  have ha₂ := (LogManager.flush_frame h₂ trivial).1.trans ha₁
  have ha₃ := (LogManager.flush_frame h₃ trivial).1.trans ha₂
  have hw : w₄.appended = [LogManager.beginRecord.SetLsn 0] := happ.trans hone
  have hrun : Run (Guarded Ok (FunStep next)) (World.init LogManager.zeros LogManager.zeros) oneFlushed { log := w₄ } := by
    refine Run.cons (hstep ?_ (Nat.zero_le 1) happend) (Run.cons (hstep (hno trivial) (by rw [hone]; rfl) h₁)
      (Run.cons (hstep (hno trivial) (by rw [ha₁]; rfl) h₂) (Run.cons (hstep (hno trivial) (by rw [ha₂]; rfl) h₃)
        (Run.single (hstep (hno trivial) (by rw [ha₃]; rfl) h₄)))))
    intro t r h
    obtain ⟨-, rfl⟩ := LogManager.Event.append.inj h
    exact loggable_beginRecord
  refine ⟨{ log := w₄ }, hrun, hw, hpersistent, fileOk_flushed (sound_run hrun).1 hq₄ ?_ ?_⟩
  · rw [hw, sizesOf, List.map_singleton, LogRecord.length_encode_setLsn, LogManager.length_beginRecord]
    decide
  · rw [hw, bytesOf_cons, RecoveryManager.bytesOf_nil, List.append_nil, LogRecord.length_encode_setLsn,
      LogManager.length_beginRecord]
    decide

/-- **Every crash is recovered from.** In every reachable state, after any crashes before, the next process starts: its log is a
    prefix of the log and has every record up to `persistent_lsn_`, its store is what these records make of an empty one, and
    its next LSN is the one behind them. -/
theorem crash_recovers (h : Run (Guarded Ok (FunStep next)) (World.init b c) es w) {k : Nat} (hok : FileOk w k)
    (log_buffer flush_buffer buffer : Vector UInt8 LOG_BUFFER_SIZE) :
    ∃ w', next w (.crash k log_buffer flush_buffer buffer) = some w' ∧ w'.log.appended <+: w.log.appended ∧
      (∀ r ∈ w.log.appended, r.lsn_ ≤ w.log.mgr.persistent_lsn_ → r ∈ w'.log.appended) ∧
      w'.kv_ = replay w'.log.appended ∧ w'.log.InOrder ∧ w'.log.mgr.next_lsn_ = w'.log.appended.length := by
  obtain ⟨hsound, a, ha⟩ := sound_run h
  obtain ⟨w', hnext, hs⟩ := survives hsound hok log_buffer flush_buffer buffer
  have hsound' := sound_survives hsound hs
  refine ⟨w', hnext, hs.isPrefix, fun r hr hle => hs.keeps hsound ha hr hle, hs.starts.kv, hsound'.inOrder, ?_⟩
  have hlen := hsound'.length
  rw [hsound'.inv.next_lsn, wrap32_of_lt (by omega) (by omega)]

theorem crash_recovers_oneFlushed : ∃ w w',
    Run (Guarded Ok (FunStep next)) (World.init LogManager.zeros LogManager.zeros) oneFlushed w ∧
      next w (.crash 0 LogManager.zeros LogManager.zeros LogManager.zeros) = some w' ∧
      w'.log.appended <+: w.log.appended ∧
      (∀ r ∈ w.log.appended, r.lsn_ ≤ w.log.mgr.persistent_lsn_ → r ∈ w'.log.appended) ∧
      w'.kv_ = replay w'.log.appended ∧ w'.log.InOrder ∧ w'.log.mgr.next_lsn_ = w'.log.appended.length := by
  obtain ⟨w, hrun, -, -, hok⟩ := run_oneFlushed
  obtain ⟨w', hnext, hspec⟩ := crash_recovers hrun hok LogManager.zeros LogManager.zeros LogManager.zeros
  exact ⟨w, w', hrun, hnext, hspec⟩

/-- **What is durable stays durable.** A record up to `persistent_lsn_` is in the log, under its LSN, in every later state, and in
    the file, behind as many records as its LSN says, through any number of crashes. -/
theorem durable_forever (h : Run (Guarded Ok (FunStep next)) (World.init b c) es w)
    (h' : Run (Guarded Ok (FunStep next)) w es' w') {r : LogRecord} (hr : r ∈ w.log.appended)
    (hle : r.lsn_ ≤ w.log.mgr.persistent_lsn_) :
    r ∈ w'.log.appended ∧ ∃ pre post : List LogRecord, (pre.length : Int) = r.lsn_ ∧
      w'.log.mgr.log_file = bytesOf pre ++ (r.encode ++ bytesOf post) := by
  obtain ⟨hsound, a, ha⟩ := sound_run h
  obtain ⟨-, a', hsteps, ha'⟩ := simulates_run hsound ha h'
  obtain ⟨i, -, hget, hlsn⟩ := hsound.inOrder.getElem? hr
  have hlt := ha.persistent_lt hsound
  rw [ha.records] at hget
  obtain ⟨hi, hget'⟩ := DurableLog.getElem?_steps hsteps (by omega) hget
  refine ⟨by rw [ha'.records]; exact List.mem_of_getElem? hget', a'.kept.take i, a'.kept.drop (i + 1), ?_, ?_⟩
  · rw [List.length_take, a'.length_kept, Nat.min_eq_left (Nat.le_of_lt hi), hlsn]
  · have hkept : a'.kept[i]? = some r := by rw [DurableLog.kept, List.getElem?_take_of_lt hi, hget']
    obtain ⟨hlen, hval⟩ := List.getElem?_eq_some_iff.mp hkept
    have hsplit : a'.kept = a'.kept.take i ++ r :: a'.kept.drop (i + 1) := by
      rw [← hval, ← List.drop_eq_getElem_cons hlen, List.take_append_drop]
    rw [ha'.file, ← bytesOf_cons, ← bytesOf_append, ← hsplit]

theorem durable_forever_oneFlushed : ∃ w w',
    Run (Guarded Ok (FunStep next)) (World.init LogManager.zeros LogManager.zeros) oneFlushed w ∧
      Run (Guarded Ok (FunStep next)) w [.crash 0 LogManager.zeros LogManager.zeros LogManager.zeros] w' ∧
      LogManager.beginRecord.SetLsn 0 ∈ w'.log.appended ∧ ∃ pre post : List LogRecord, (pre.length : Int) = 0 ∧
        w'.log.mgr.log_file = bytesOf pre ++ ((LogManager.beginRecord.SetLsn 0).encode ++ bytesOf post) := by
  obtain ⟨w, hrun, happended, hpersistent, hok⟩ := run_oneFlushed
  obtain ⟨w', hnext, -⟩ := survives (sound_run hrun).1 hok LogManager.zeros LogManager.zeros LogManager.zeros
  have hrun' : Run (Guarded Ok (FunStep next)) w [.crash 0 LogManager.zeros LogManager.zeros LogManager.zeros] w' :=
    Run.single ⟨hok, hnext⟩
  refine ⟨w, w', hrun, hrun', durable_forever hrun hrun' (r := LogManager.beginRecord.SetLsn 0) ?_ ?_⟩
  · rw [happended]
    exact List.mem_singleton_self _
  · rw [hpersistent]
    exact Int.le_refl 0

end Main

end Restart
end DDBMS
