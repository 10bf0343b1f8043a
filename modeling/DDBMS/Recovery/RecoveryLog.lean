import DDBMS.Recovery.RecoveryRead
import DDBMS.Lib.Schedule

/-!
# `Recovery.RecoveryLog` — the log file of a run of transactions

A run is a list of actions, each of which appends one record: its LSN is its position, and its `prev_lsn_` the LSN of
the record its transaction appended before. The file holds the encodings, one behind the other.

`TxnAction.op` is what an action means; the run obeys the row locks when its operations are `Schedule.Strict`.
-/

namespace DDBMS

open LogRecord (encode InRange)

/-- What a transaction does, with the data of its log record. -/
inductive TxnAction where
  | BEGIN (txn_id : txn_id_t)
  | INSERT (txn_id : txn_id_t) (key value : Bytes)
  | DELETE (txn_id : txn_id_t) (key value : Bytes)
  | COMMIT (txn_id : txn_id_t)
  | ABORT (txn_id : txn_id_t)
  deriving DecidableEq, Repr

namespace TxnAction

def txn_id : TxnAction → txn_id_t
  | BEGIN t | INSERT t _ _ | DELETE t _ _ | COMMIT t | ABORT t => t

/-- The meaning of an action. -/
def op : TxnAction → Schedule.Op txn_id_t Bytes Bytes
  | BEGIN t => .begin t
  | INSERT t key value => .write t key (some value)
  | DELETE t key _ => .write t key none
  | COMMIT t => .commit t
  | ABORT t => .abort t

theorem op_txn (a : TxnAction) : a.op.txn = a.txn_id := by cases a <;> rfl

/-- The record, without its LSN. -/
def record (prev_lsn : Int) : TxnAction → LogRecord
  | BEGIN t => .ofTxn t prev_lsn .BEGIN
  | INSERT t key value => .ofStrings t prev_lsn .INSERT key value
  | DELETE t key value => .ofStrings t prev_lsn .DELETE key value
  | COMMIT t => .ofTxn t prev_lsn .COMMIT
  | ABORT t => .ofTxn t prev_lsn .ABORT

def size : TxnAction → Nat
  | BEGIN _ | COMMIT _ | ABORT _ => LogRecord.HEADER_SIZE
  | INSERT _ key value | DELETE _ key value => LogRecord.HEADER_SIZE + 4 + key.length + 4 + value.length

/-- `AppendLogRecord` returns: the record fits an empty buffer. -/
def Fits (a : TxnAction) : Prop := a.size < LOG_BUFFER_SIZE

instance (a : TxnAction) : Decidable a.Fits := inferInstanceAs (Decidable (_ < _))

theorem header_le_size (a : TxnAction) : LogRecord.HEADER_SIZE ≤ a.size := by
  cases a <;> simp only [size] <;> omega

section Record

variable (prev_lsn lsn : Int) (a : TxnAction)

/-- The record of an action, with its LSN. -/
def logRecord : LogRecord := (a.record prev_lsn).SetLsn lsn

@[simp] theorem logRecord_txn_id : (a.logRecord prev_lsn lsn).txn_id_ = a.txn_id := by cases a <;> rfl

@[simp] theorem logRecord_lsn : (a.logRecord prev_lsn lsn).lsn_ = lsn := rfl

@[simp] theorem logRecord_prev_lsn : (a.logRecord prev_lsn lsn).prev_lsn_ = prev_lsn := by cases a <;> rfl

theorem constructed : (a.logRecord prev_lsn lsn).Constructed := by
  cases a with
  | BEGIN t => exact .txn t prev_lsn .BEGIN lsn (by simp)
  | COMMIT t => exact .txn t prev_lsn .COMMIT lsn (by simp)
  | ABORT t => exact .txn t prev_lsn .ABORT lsn (by simp)
  | INSERT t key value => exact .tuple t prev_lsn .INSERT key value lsn (by simp)
  | DELETE t key value => exact .tuple t prev_lsn .DELETE key value lsn (by simp)

/-- The key and the value of a record that fits have sizes that fit 32 bits. -/
theorem lengths_lt {key value : Bytes}
    (h : LogRecord.HEADER_SIZE + 4 + key.length + 4 + value.length < LOG_BUFFER_SIZE) :
    key.length < 2 ^ 32 ∧ value.length < 2 ^ 32 := by
  have hsize := LOG_BUFFER_SIZE_eq
  omega

variable {a}

theorem Fits.length_encode (h : a.Fits) : (a.logRecord prev_lsn lsn).encode.length = a.size := by
  cases a with
  | BEGIN t => exact LogRecord.length_encode_ofTxn (by simp)
  | COMMIT t => exact LogRecord.length_encode_ofTxn (by simp)
  | ABORT t => exact LogRecord.length_encode_ofTxn (by simp)
  | INSERT t key value =>
      obtain ⟨hkey, hvalue⟩ := lengths_lt h
      exact LogRecord.length_encode_ofStrings (Or.inl rfl) hkey hvalue
  | DELETE t key value =>
      obtain ⟨hkey, hvalue⟩ := lengths_lt h
      exact LogRecord.length_encode_ofStrings (Or.inr rfl) hkey hvalue

/-- A record that fits is read back as it is. -/
theorem Fits.readBack (h : a.Fits) : (a.logRecord prev_lsn lsn).readBack = a.logRecord prev_lsn lsn := by
  have hne : (a.logRecord prev_lsn lsn).log_type_ ≠ .PREPARED := by
    cases a <;> simp [logRecord, record, LogRecord.SetLsn, LogRecord.ofTxn, LogRecord.ofStrings, LogRecord.ofTuple]
  rw [LogRecord.readBack_of_ne hne]
  cases a with
  | BEGIN | COMMIT | ABORT => rfl
  | INSERT t key value =>
      obtain ⟨hkey, hvalue⟩ := lengths_lt h
      exact LogRecord.stored_of_eq (LogRecord.key_ofStrings hkey) (LogRecord.value_ofStrings hvalue)
  | DELETE t key value =>
      obtain ⟨hkey, hvalue⟩ := lengths_lt h
      exact LogRecord.stored_of_eq (LogRecord.key_ofStrings hkey) (LogRecord.value_ofStrings hvalue)

theorem Fits.readable {prev_lsn lsn : Int} (h : a.Fits) (hlsn : InRange lsn) (hprev : InRange prev_lsn) :
    (a.logRecord prev_lsn lsn).Readable where
  constructed := a.constructed prev_lsn lsn
  lsn := hlsn
  prev_lsn := by rwa [logRecord_prev_lsn]
  lt := by rwa [h.length_encode]

end Record

end TxnAction

/-! ## The log of a run -/

namespace RecoveryLog

/-- The LSN of the last record of a transaction; `INVALID_LSN` when it has none. -/
def lastLsn (run : List TxnAction) (t : txn_id_t) : Int := go run.reverse
where
  /-- The same, with the last record first. -/
  go : List TxnAction → Int
    | [] => INVALID_LSN
    | a :: as => if a.txn_id = t then as.length else go as

/-- The records of a run that goes on after `pre`. -/
def logFrom (pre : List TxnAction) : List TxnAction → List LogRecord
  | [] => []
  | a :: as => a.logRecord (lastLsn pre a.txn_id) pre.length :: logFrom (pre ++ [a]) as

/-- The bytes of these records. -/
def bytesFrom (pre as : List TxnAction) : Bytes := (logFrom pre as).flatMap encode

/-- The log file of a run. -/
def logFile (run : List TxnAction) : Bytes := bytesFrom [] run

/-- The number of bytes of a run. -/
def logSize (run : List TxnAction) : Nat := (run.map TxnAction.size).sum

/-- What the actions mean. -/
def ops (run : List TxnAction) : List (Schedule.Op txn_id_t Bytes Bytes) := run.map TxnAction.op

/-- The runs that a log is of: the row locks keep unfinished transactions apart, and every append returned. -/
structure Complete (run : List TxnAction) : Prop where
  strict : Schedule.Strict (ops run)
  fits : ∀ a ∈ run, a.Fits

/-- The same, when an abort need not have restored anything. -/
structure Valid (run : List TxnAction) : Prop where
  exclusive : Schedule.Exclusive (ops run)
  fits : ∀ a ∈ run, a.Fits

theorem Complete.valid {run : List TxnAction} (h : Complete run) : Valid run := ⟨h.strict.exclusive, h.fits⟩

variable {run pre post : List TxnAction} {a : TxnAction} {t : txn_id_t}

theorem ops_snoc (pre : List TxnAction) (a : TxnAction) : ops (pre ++ [a]) = ops pre ++ [a.op] := List.map_append

theorem Valid.of_snoc (h : Valid (pre ++ [a])) : Valid pre ∧ a.Fits ∧ Schedule.Allowed (ops pre) a.op := by
  obtain ⟨hpre, hop⟩ := (ops_snoc pre a ▸ h.exclusive).of_snoc
  exact ⟨⟨hpre, fun b hb => h.fits b (List.mem_append_left _ hb)⟩, h.fits a (by simp), hop⟩

@[simp] theorem logSize_nil : logSize [] = 0 := rfl

@[simp] theorem logSize_cons (a : TxnAction) (as : List TxnAction) : logSize (a :: as) = a.size + logSize as :=
  List.sum_cons

theorem lastLsn_snoc (pre : List TxnAction) (a : TxnAction) (t : txn_id_t) :
    lastLsn (pre ++ [a]) t = if a.txn_id = t then (pre.length : Int) else lastLsn pre t := by
  unfold lastLsn
  rw [List.reverse_append]
  show (if a.txn_id = t then (pre.reverse.length : Int) else lastLsn.go t pre.reverse) = _
  rw [List.length_reverse]

theorem lastLsn_self (pre : List TxnAction) (a : TxnAction) : lastLsn (pre ++ [a]) a.txn_id = pre.length := by
  rw [lastLsn_snoc, if_pos rfl]

theorem lastLsn_other (h : a.txn_id ≠ t) : lastLsn (pre ++ [a]) t = lastLsn pre t := by
  rw [lastLsn_snoc, if_neg h]

/-- The last record is one of those before. -/
theorem lastLsn_range (run : List TxnAction) (t : txn_id_t) : -1 ≤ lastLsn run t ∧ lastLsn run t < run.length := by
  induction run using List.reverseRecOn with
  | nil => exact ⟨le_refl (-1), neg_one_lt_zero⟩
  | append_singleton pre a ih =>
      rw [lastLsn_snoc, List.length_append, List.length_singleton]
      split <;> push_cast <;> omega

/-- A transaction with a record has a last one. -/
theorem lastLsn_of_mem (h : a ∈ run) : lastLsn run a.txn_id ≠ INVALID_LSN := by
  have hinvalid : INVALID_LSN = -1 := rfl
  induction run using List.reverseRecOn with
  | nil => cases h
  | append_singleton pre b ih =>
      rw [lastLsn_snoc]
      split
      · omega
      · rename_i hne
        rcases List.mem_append.mp h with h | h
        · exact ih h
        · obtain rfl := List.mem_singleton.mp h
          exact absurd rfl hne

/-- An unfinished transaction has begun. -/
theorem begin_mem (h : Schedule.Active (ops run) t) : TxnAction.BEGIN t ∈ run := by
  obtain ⟨a, ha, hop⟩ := List.mem_map.mp h.1
  cases a with
  | BEGIN u =>
      obtain rfl : u = t := Schedule.Op.begin.inj hop
      exact ha
  | INSERT | DELETE | COMMIT | ABORT => cases hop

theorem logFrom_append (pre as bs : List TxnAction) : logFrom pre (as ++ bs) = logFrom pre as ++ logFrom (pre ++ as) bs := by
  induction as generalizing pre with
  | nil => rw [List.nil_append, List.append_nil, logFrom, List.nil_append]
  | cons a as ih =>
      rw [List.cons_append, logFrom, logFrom, ih, List.append_assoc, List.singleton_append, List.cons_append]

theorem bytesFrom_cons (pre : List TxnAction) (a : TxnAction) (as : List TxnAction) :
    bytesFrom pre (a :: as) =
      (a.logRecord (lastLsn pre a.txn_id) pre.length).encode ++ bytesFrom (pre ++ [a]) as := List.flatMap_cons

theorem length_bytesFrom {as : List TxnAction} (h : ∀ a ∈ as, a.Fits) (pre : List TxnAction) :
    (bytesFrom pre as).length = logSize as := by
  induction as generalizing pre with
  | nil => rfl
  | cons a as ih =>
      have hrest := ih (fun b hb => h b (List.mem_cons_of_mem _ hb)) (pre ++ [a])
      rw [bytesFrom_cons, List.length_append, (h a List.mem_cons_self).length_encode, hrest, logSize_cons]

/-- A record takes at least its header. -/
theorem length_le_logSize (run : List TxnAction) : LogRecord.HEADER_SIZE * run.length ≤ logSize run := by
  induction run with
  | nil => exact le_refl _
  | cons a as ih =>
      have := a.header_le_size
      rw [List.length_cons, logSize_cons, Nat.mul_succ]
      omega

theorem length_logFile (h : ∀ a ∈ run, a.Fits) : (logFile run).length = logSize run := length_bytesFrom h []

/-! ## A small run -/

/-- Transaction 1 inserts `a` and commits; transaction 2 begins and does `action`, and the system crashes. -/
def crashAfter (action : TxnAction) : List TxnAction := [.BEGIN 1, .INSERT 1 [97] [49], .COMMIT 1, .BEGIN 2, action]

section CrashAfter

variable {action : TxnAction} {key : Bytes} {v : Option Bytes}

theorem ops_crashAfter (hop : action.op = .write 2 key v) : ops (crashAfter action) =
    [.begin 1, .write 1 [97] (some [49]), .commit 1, .begin 2, .write 2 key v] := by
  simp [crashAfter, ops, hop]
  simp [TxnAction.op]

/-- Transaction 2 is the one that is unfinished. -/
theorem active_crashAfter (hop : action.op = .write 2 key v) :
    Schedule.Active (ops (crashAfter action)) t ↔ t = 2 := by
  rw [ops_crashAfter hop]
  constructor
  · rintro ⟨hbegin, hcommit, -⟩
    simp only [List.mem_cons, List.not_mem_nil, reduceCtorEq, or_false, false_or, Schedule.Op.begin.injEq] at hbegin
    rcases hbegin with rfl | rfl
    · simp at hcommit
    · rfl
  · rintro rfl
    simp [Schedule.Active]

theorem crashAfter_strict (hop : action.op = .write 2 key v) : Schedule.Strict (ops (crashAfter action)) := by
  have h₁ : Schedule.Strict (ops [.BEGIN 1]) := .begin .nil (by simp)
  have h₂ : Schedule.Strict (ops [.BEGIN 1, .INSERT 1 [97] [49]]) :=
    .write h₁ (by decide) [97] (some [49]) (by simp [ops, TxnAction.op, Schedule.Writes])
  have h₃ : Schedule.Strict (ops [.BEGIN 1, .INSERT 1 [97] [49], .COMMIT 1]) := .commit h₂ (by decide)
  have h₄ : Schedule.Strict (ops [.BEGIN 1, .INSERT 1 [97] [49], .COMMIT 1, .BEGIN 2]) := .begin h₃ (by decide)
  rw [ops_crashAfter hop]
  refine Schedule.Strict.write h₄ (by decide) key v ?_
  -- transaction 1, the only one that has written, is not active any more
  rintro u hu ⟨x, hx⟩
  simp [ops, TxnAction.op] at hx
  obtain ⟨rfl, -⟩ := hx
  exact absurd hu (by decide)

theorem crashAfter_complete (hop : action.op = .write 2 key v) (hfit : action.Fits) : Complete (crashAfter action) := by
  refine ⟨crashAfter_strict hop, ?_⟩
  simp [crashAfter, TxnAction.Fits, TxnAction.size, LogRecord.HEADER_SIZE, LOG_BUFFER_SIZE_eq]
  exact hfit

end CrashAfter

end RecoveryLog
end DDBMS
