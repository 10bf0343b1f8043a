import DDBMS.Lib.BackLinks
import DDBMS.Lib.Bytes

/-!
# `Recovery.LogRecord` — log records and their encoding

The model of `include/recovery/log_record.h`. A record has a header of 24 bytes (size, LSN, transaction, LSN of the
transaction's previous record, type); `INSERT` and `DELETE` records carry a key and a value behind it. The encoding is
what `AppendLogRecord` copies into the log buffer, and `DeserializeFrom` reads it back.

`lsn_t` is `int32_t`: an LSN is an `Int` here, and what computes one wraps it.
-/

namespace DDBMS

abbrev txn_id_t := UInt64

def INVALID_TXN_ID : txn_id_t := 0
def INVALID_LSN : Int := -1

inductive LogRecordType where
  | INVALID
  | CREATE_TABLE
  | DROP_TABLE
  | INSERT
  | DELETE
  | BEGIN
  | COMMIT
  | ABORT
  | PREPARED
  deriving DecidableEq, Repr

/-- The enumeration, in the order of its values. -/
def LogRecordType.values : List LogRecordType :=
  [INVALID, CREATE_TABLE, DROP_TABLE, INSERT, DELETE, BEGIN, COMMIT, ABORT, PREPARED]

def LogRecordType.code (t : LogRecordType) : Nat := values.idxOf t

/-- `none` is a value outside the enumeration. -/
def LogRecordType.ofCode (n : Nat) : Option LogRecordType := values[n]?

theorem LogRecordType.ofCode_code (t : LogRecordType) : ofCode t.code = some t := by cases t <;> rfl

theorem LogRecordType.code_lt (t : LogRecordType) : t.code < 9 := by cases t <;> decide

/-- `key_` and `value_` point to `key_size_` and `value_size_` bytes. -/
structure LogRecord where
  size_ : Int := 0
  lsn_ : Int := INVALID_LSN
  txn_id_ : txn_id_t := INVALID_TXN_ID
  prev_lsn_ : Int := INVALID_LSN
  log_type_ : LogRecordType := .INVALID
  key_size_ : UInt32 := 0
  key_ : Bytes := []
  value_size_ : UInt32 := 0
  value_ : Bytes := []
  deriving DecidableEq, Repr

namespace LogRecord

def HEADER_SIZE : Nat := 24

/-- The constructor for `BEGIN`, `COMMIT`, `ABORT` and `PREPARED`. -/
def ofTxn (txn_id : txn_id_t) (prev_lsn : Int) (log_type : LogRecordType) : LogRecord where
  size_ := HEADER_SIZE
  txn_id_ := txn_id
  prev_lsn_ := prev_lsn
  log_type_ := log_type

/-- The constructor for `INSERT` and `DELETE`. -/
def ofTuple (txn_id : txn_id_t) (prev_lsn : Int) (log_record_type : LogRecordType) (key_size : UInt32)
    (key : Bytes) (value_size : UInt32) (value : Bytes) : LogRecord where
  size_ := wrap32 (HEADER_SIZE + 4 + key_size.toNat + 4 + value_size.toNat)
  txn_id_ := txn_id
  prev_lsn_ := prev_lsn
  log_type_ := log_record_type
  key_size_ := key_size
  key_ := key
  value_size_ := value_size
  value_ := value

/-- The same for a key and a value that are strings. -/
def ofStrings (txn_id : txn_id_t) (prev_lsn : Int) (log_record_type : LogRecordType) (key value : Bytes) :
    LogRecord :=
  ofTuple txn_id prev_lsn log_record_type (UInt32.ofNat key.length) key (UInt32.ofNat value.length) value

def SetLsn (r : LogRecord) (lsn : Int) : LogRecord := { r with lsn_ := lsn }

/-- The record has a key and a value. -/
def IsTuple (r : LogRecord) : Prop := r.log_type_ = .INSERT ∨ r.log_type_ = .DELETE

instance (r : LogRecord) : Decidable r.IsTuple := inferInstanceAs (Decidable (_ ∨ _))

/-! ## Encoding -/

/-- The first `HEADER_SIZE` bytes of the object. -/
def header (r : LogRecord) : Bytes :=
  leInt32 r.size_ ++ (leInt32 r.lsn_ ++ (leBytes 8 r.txn_id_.toNat ++ (leInt32 r.prev_lsn_ ++
    leBytes 4 r.log_type_.code)))

/-- The bytes `GetKey()` points to, and those of `GetValue()`. -/
def key (r : LogRecord) : Bytes := r.key_.take r.key_size_.toNat

def value (r : LogRecord) : Bytes := r.value_.take r.value_size_.toNat

/-- The record as it is read back: `key_` and `value_` point to no more bytes than the sizes say. -/
def stored (r : LogRecord) : LogRecord := { r with key_ := r.key, value_ := r.value }

theorem stored_of_eq {r : LogRecord} (hkey : r.key = r.key_) (hvalue : r.value = r.value_) : r.stored = r := by
  unfold stored
  rw [hkey, hvalue]

/-- What `AppendLogRecord` writes for a record. -/
def encode (r : LogRecord) : Bytes :=
  if r.IsTuple then
    r.header ++ (leBytes 4 r.key_size_.toNat ++ (r.key ++ (leBytes 4 r.value_size_.toNat ++ r.value)))
  else r.header

/-- Read a record; `none` is a read out of bounds. A type that has no case leaves a default record. -/
def DeserializeFrom (storage : Bytes) : Option LogRecord := do
  let lsn ← (readAt 4 storage 4).map toInt32
  let txn_id ← (readAt 8 storage 8).map UInt64.ofNat
  let prev_lsn ← (readAt 4 storage 16).map toInt32
  let type ← readAt 4 storage 20
  match LogRecordType.ofCode type with
  | some .COMMIT => some ((ofTxn txn_id prev_lsn .COMMIT).SetLsn lsn)
  | some .ABORT => some ((ofTxn txn_id prev_lsn .ABORT).SetLsn lsn)
  | some .BEGIN => some ((ofTxn txn_id prev_lsn .BEGIN).SetLsn lsn)
  | some .INSERT => (readTuple txn_id prev_lsn .INSERT storage).map (SetLsn · lsn)
  | some .DELETE => (readTuple txn_id prev_lsn .DELETE storage).map (SetLsn · lsn)
  | _ => some (({} : LogRecord).SetLsn lsn)
where
  /-- The key and the value behind the header. -/
  readTuple (txn_id : txn_id_t) (prev_lsn : Int) (type : LogRecordType) (storage : Bytes) : Option LogRecord := do
    let key_size ← readAt 4 storage HEADER_SIZE
    let key ← readBytes key_size storage (HEADER_SIZE + 4)
    let value_size ← readAt 4 storage (HEADER_SIZE + 4 + key_size)
    let value ← readBytes value_size storage (HEADER_SIZE + 4 + key_size + 4)
    some (ofTuple txn_id prev_lsn type (UInt32.ofNat key_size) key (UInt32.ofNat value_size) value)

/-! ## Records as the program builds them -/

/-- The record comes from one of the constructors; its LSN may have been set. -/
inductive Constructed : LogRecord → Prop
  | txn (txn_id : txn_id_t) (prev_lsn : Int) (type : LogRecordType) (lsn : Int)
      (h : type = .BEGIN ∨ type = .COMMIT ∨ type = .ABORT ∨ type = .PREPARED) :
      Constructed ((ofTxn txn_id prev_lsn type).SetLsn lsn)
  | tuple (txn_id : txn_id_t) (prev_lsn : Int) (type : LogRecordType) (key value : Bytes) (lsn : Int)
      (h : type = .INSERT ∨ type = .DELETE) :
      Constructed ((ofStrings txn_id prev_lsn type key value).SetLsn lsn)

theorem setLsn_setLsn (r : LogRecord) (lsn lsn' : Int) : (r.SetLsn lsn).SetLsn lsn' = r.SetLsn lsn' := rfl

theorem setLsn_self (r : LogRecord) : r.SetLsn r.lsn_ = r := rfl

theorem Constructed.setLsn {r : LogRecord} (h : r.Constructed) (lsn : Int) : (r.SetLsn lsn).Constructed := by
  cases h with
  | txn txn_id prev_lsn type l h =>
      rw [setLsn_setLsn]
      exact .txn txn_id prev_lsn type lsn h
  | tuple txn_id prev_lsn type key value l h =>
      rw [setLsn_setLsn]
      exact .tuple txn_id prev_lsn type key value lsn h

theorem constructed_ofStrings {txn_id : txn_id_t} {prev_lsn : Int} {type : LogRecordType} {key value : Bytes}
    (h : type = .INSERT ∨ type = .DELETE) : (ofStrings txn_id prev_lsn type key value).Constructed := by
  rw [← setLsn_self (ofStrings txn_id prev_lsn type key value)]
  exact .tuple txn_id prev_lsn type key value _ h

/-- `size_` is the number of bytes of the encoding, and fits an `int32_t`. -/
structure Sized (r : LogRecord) : Prop where
  size_eq : r.size_ = r.encode.length
  lt : r.encode.length < 2 ^ 31

@[simp] theorem length_header (r : LogRecord) : r.header.length = HEADER_SIZE := by
  simp [header, HEADER_SIZE]

theorem length_encode (r : LogRecord) : r.encode.length =
    if r.IsTuple then HEADER_SIZE + 4 + r.key.length + 4 + r.value.length else HEADER_SIZE := by
  unfold encode
  split
  · simp only [List.length_append, length_header, length_leBytes]
    omega
  · exact r.length_header

theorem header_le_encode (r : LogRecord) : HEADER_SIZE ≤ r.encode.length := by
  rw [length_encode]
  split <;> omega

theorem length_encode_setLsn (r : LogRecord) (lsn : Int) : (r.SetLsn lsn).encode.length = r.encode.length := by
  rw [length_encode, length_encode]
  rfl

theorem Sized.setLsn {r : LogRecord} (h : r.Sized) (lsn : Int) : (r.SetLsn lsn).Sized := by
  constructor <;> rw [length_encode_setLsn]
  · exact h.size_eq
  · exact h.lt

theorem length_take_ofNat (b : Bytes) : (b.take (UInt32.ofNat b.length).toNat).length = (UInt32.ofNat b.length).toNat := by
  apply List.length_take_of_le
  rw [UInt32.toNat_ofNat']
  exact Nat.mod_le _ _

/-- A constructed record knows its size, unless the size does not fit an `int32_t`. -/
theorem Constructed.sized {r : LogRecord} (h : r.Constructed) (hlen : r.encode.length < 2 ^ 31) : r.Sized := by
  refine ⟨?_, hlen⟩
  rw [length_encode] at hlen ⊢
  cases h with
  | txn txn_id prev_lsn type lsn h =>
      rw [if_neg]
      · rfl
      · rcases h with rfl | rfl | rfl | rfl <;> simp [IsTuple, SetLsn, ofTxn]
  | tuple txn_id prev_lsn type key value lsn h =>
      have htuple : ((ofStrings txn_id prev_lsn type key value).SetLsn lsn).IsTuple := h
      have hkey := length_take_ofNat key
      have hvalue := length_take_ofNat value
      rw [if_pos htuple] at hlen ⊢
      simp only [SetLsn, ofStrings, ofTuple, LogRecord.key, LogRecord.value, hkey, hvalue] at hlen ⊢
      rw [wrap32_of_lt (by omega) (by omega)]
      push_cast
      rfl

/-! ## Keys and values that are not too long -/

section Lengths

variable {txn_id : txn_id_t} {prev_lsn lsn : Int} {type : LogRecordType} {key value : Bytes}

theorem toNat_ofNat_length {b : Bytes} (h : b.length < 2 ^ 32) : (UInt32.ofNat b.length).toNat = b.length := by
  rw [UInt32.toNat_ofNat', Nat.mod_eq_of_lt h]

theorem key_ofTuple (key_size value_size : UInt32) :
    ((ofTuple txn_id prev_lsn type key_size key value_size value).SetLsn lsn).key = key.take key_size.toNat := rfl

theorem value_ofTuple (key_size value_size : UInt32) :
    ((ofTuple txn_id prev_lsn type key_size key value_size value).SetLsn lsn).value = value.take value_size.toNat := rfl

theorem key_ofStrings (h : key.length < 2 ^ 32) : ((ofStrings txn_id prev_lsn type key value).SetLsn lsn).key = key := by
  show key.take (UInt32.ofNat key.length).toNat = key
  rw [toNat_ofNat_length h, List.take_length]

theorem value_ofStrings (h : value.length < 2 ^ 32) :
    ((ofStrings txn_id prev_lsn type key value).SetLsn lsn).value = value := by
  show value.take (UInt32.ofNat value.length).toNat = value
  rw [toNat_ofNat_length h, List.take_length]

/-- A record without a key is its header. -/
theorem encode_ofTxn (htype : ¬ (type = .INSERT ∨ type = .DELETE)) :
    ((ofTxn txn_id prev_lsn type).SetLsn lsn).encode = ((ofTxn txn_id prev_lsn type).SetLsn lsn).header :=
  if_neg htype

theorem length_encode_ofTxn (htype : ¬ (type = .INSERT ∨ type = .DELETE)) :
    ((ofTxn txn_id prev_lsn type).SetLsn lsn).encode.length = HEADER_SIZE := by
  rw [encode_ofTxn htype, length_header]

theorem length_encode_ofStrings (htype : type = .INSERT ∨ type = .DELETE) (hkey : key.length < 2 ^ 32)
    (hvalue : value.length < 2 ^ 32) : ((ofStrings txn_id prev_lsn type key value).SetLsn lsn).encode.length =
      HEADER_SIZE + 4 + key.length + 4 + value.length := by
  have htuple : ((ofStrings txn_id prev_lsn type key value).SetLsn lsn).IsTuple := htype
  rw [length_encode, if_pos htuple, key_ofStrings hkey, value_ofStrings hvalue]

end Lengths

/-! ## Reading back -/

/-- The integer fits an `int32_t`. -/
def InRange (n : Int) : Prop := -2 ^ 31 ≤ n ∧ n < 2 ^ 31

section ReadBack

variable (r : LogRecord) (c : Bytes)

theorem read_lsn (h : InRange r.lsn_) : (readAt 4 (r.header ++ c) 4).map toInt32 = some r.lsn_ := by
  have hread := readAt_mid_int32 h.1 h.2 (leInt32 r.size_)
    (leBytes 8 r.txn_id_.toNat ++ (leInt32 r.prev_lsn_ ++ (leBytes 4 r.log_type_.code ++ c)))
  rw [length_leInt32] at hread
  simpa only [header, List.append_assoc] using hread

theorem read_txn_id : (readAt 8 (r.header ++ c) 8).map UInt64.ofNat = some r.txn_id_ := by
  have hread := readAt_mid (w := 8) (UInt64.toNat_lt r.txn_id_) (leInt32 r.size_ ++ leInt32 r.lsn_)
    (leInt32 r.prev_lsn_ ++ (leBytes 4 r.log_type_.code ++ c))
  rw [List.length_append, length_leInt32, length_leInt32] at hread
  simp only [List.append_assoc] at hread
  simp only [header, List.append_assoc, hread, Option.map_some, UInt64.ofNat_toNat]

theorem read_prev_lsn (h : InRange r.prev_lsn_) :
    (readAt 4 (r.header ++ c) 16).map toInt32 = some r.prev_lsn_ := by
  have hread := readAt_mid_int32 h.1 h.2 (leInt32 r.size_ ++ (leInt32 r.lsn_ ++ leBytes 8 r.txn_id_.toNat))
    (leBytes 4 r.log_type_.code ++ c)
  rw [List.length_append, List.length_append, length_leInt32, length_leInt32, length_leBytes] at hread
  simpa only [header, List.append_assoc] using hread

theorem read_log_type : readAt 4 (r.header ++ c) 20 = some r.log_type_.code := by
  have hlt : r.log_type_.code < 256 ^ 4 := by
    have := r.log_type_.code_lt
    omega
  have hread := readAt_mid hlt (leInt32 r.size_ ++ (leInt32 r.lsn_ ++ (leBytes 8 r.txn_id_.toNat ++
    leInt32 r.prev_lsn_))) c
  rw [List.length_append, List.length_append, List.length_append, length_leInt32, length_leInt32,
    length_leBytes, length_leInt32] at hread
  simpa only [header, List.append_assoc] using hread

/-- The size is the first word. -/
theorem read_size : readAt 4 (r.encode ++ c) 0 = some (r.size_ % 2 ^ 32).toNat := by
  have hencode : ∃ c', r.encode ++ c = leInt32 r.size_ ++ c' := by
    unfold encode
    split <;> simp only [header, List.append_assoc] <;> exact ⟨_, rfl⟩
  obtain ⟨c', hc'⟩ := hencode
  rw [hc']
  exact readAt_mid (by omega) [] c'

/-- The key and the value behind a header. -/
theorem read_tuple {h key value : Bytes} (hh : h.length = HEADER_SIZE) (hkey : key.length < 2 ^ 32)
    (hvalue : value.length < 2 ^ 32) (txn_id : txn_id_t) (prev_lsn : Int) (type : LogRecordType) :
    DeserializeFrom.readTuple txn_id prev_lsn type
      (h ++ (leBytes 4 key.length ++ (key ++ (leBytes 4 value.length ++ (value ++ c))))) =
    some (ofStrings txn_id prev_lsn type key value) := by
  have h₁ := readAt_mid (w := 4) (show key.length < 256 ^ 4 by omega) h
    (key ++ (leBytes 4 value.length ++ (value ++ c)))
  have h₂ := readBytes_mid (h ++ leBytes 4 key.length) key (leBytes 4 value.length ++ (value ++ c))
  have h₃ := readAt_mid (w := 4) (show value.length < 256 ^ 4 by omega) (h ++ (leBytes 4 key.length ++ key))
    (value ++ c)
  have h₄ := readBytes_mid (h ++ (leBytes 4 key.length ++ (key ++ leBytes 4 value.length))) value c
  simp only [List.length_append, length_leBytes, hh, List.append_assoc, ← Nat.add_assoc] at h₁ h₂ h₃ h₄
  simp only [DeserializeFrom.readTuple, h₁, h₂, h₃, h₄, Option.bind_eq_bind, Option.bind_some]
  rfl

/-- **A header** is read back field by field; its type says what is read behind it. -/
theorem deserialize_header (hlsn : InRange r.lsn_) (hprev : InRange r.prev_lsn_) :
    DeserializeFrom (r.header ++ c) =
      match r.log_type_ with
      | .BEGIN | .COMMIT | .ABORT => some ((ofTxn r.txn_id_ r.prev_lsn_ r.log_type_).SetLsn r.lsn_)
      | .INSERT | .DELETE => (DeserializeFrom.readTuple r.txn_id_ r.prev_lsn_ r.log_type_ (r.header ++ c)).map
          (SetLsn · r.lsn_)
      | _ => some (({} : LogRecord).SetLsn r.lsn_) := by
  simp only [DeserializeFrom, r.read_lsn c hlsn, r.read_txn_id c, r.read_prev_lsn c hprev, r.read_log_type c,
    Option.bind_eq_bind, Option.bind_some, LogRecordType.ofCode_code]
  cases r.log_type_ <;> rfl

/-- **Round trip**, for a record without a key. -/
theorem deserialize_txn {txn_id : txn_id_t} {prev_lsn lsn : Int} {type : LogRecordType} (hlsn : InRange lsn)
    (hprev : InRange prev_lsn) (htype : type = .BEGIN ∨ type = .COMMIT ∨ type = .ABORT) :
    DeserializeFrom (((ofTxn txn_id prev_lsn type).SetLsn lsn).encode ++ c) =
      some ((ofTxn txn_id prev_lsn type).SetLsn lsn) := by
  rw [encode_ofTxn (by rcases htype with rfl | rfl | rfl <;> simp), deserialize_header _ c hlsn hprev]
  rcases htype with rfl | rfl | rfl <;> rfl

/-- **Round trip**, for an `INSERT` or a `DELETE`. -/
theorem deserialize_tuple {txn_id : txn_id_t} {prev_lsn lsn : Int} {type : LogRecordType} {key value : Bytes}
    (hlsn : InRange lsn) (hprev : InRange prev_lsn) (htype : type = .INSERT ∨ type = .DELETE) :
    DeserializeFrom (((ofStrings txn_id prev_lsn type key value).SetLsn lsn).encode ++ c) =
      some ((ofStrings txn_id prev_lsn type key value).SetLsn lsn).stored := by
  generalize hr : (ofStrings txn_id prev_lsn type key value).SetLsn lsn = r
  have hkey : r.key.length = r.key_size_.toNat := by
    subst hr
    exact length_take_ofNat key
  have hvalue : r.value.length = r.value_size_.toNat := by
    subst hr
    exact length_take_ofNat value
  -- the encoding, cut where the reader looks
  have htuple : r.encode ++ c =
      r.header ++ (leBytes 4 r.key.length ++ (r.key ++ (leBytes 4 r.value.length ++ (r.value ++ c)))) := by
    unfold encode
    rw [if_pos (by subst hr; exact htype), hkey, hvalue]
    simp only [List.append_assoc]
  have hread : DeserializeFrom.readTuple txn_id prev_lsn type
      (r.header ++ (leBytes 4 r.key.length ++ (r.key ++ (leBytes 4 r.value.length ++ (r.value ++ c))))) =
      some (ofStrings txn_id prev_lsn type r.key r.value) := by
    apply read_tuple c r.length_header
    · rw [hkey]
      exact r.key_size_.toNat_lt
    · rw [hvalue]
      exact r.value_size_.toNat_lt
  -- what comes back is the record with its key and its value cut to their sizes
  have hstored : r.stored = (ofStrings txn_id prev_lsn type r.key r.value).SetLsn lsn := by
    unfold ofStrings
    rw [hkey, hvalue, UInt32.ofNat_toNat, UInt32.ofNat_toNat]
    subst hr
    simp only [stored, SetLsn, ofStrings, ofTuple]
  have h₁ : InRange r.lsn_ := by subst hr; exact hlsn
  have h₂ : InRange r.prev_lsn_ := by subst hr; exact hprev
  have htype' : r.log_type_ = type := by subst hr; rfl
  have htxn : r.txn_id_ = txn_id := by subst hr; rfl
  have hprev' : r.prev_lsn_ = prev_lsn := by subst hr; rfl
  have hlsn' : r.lsn_ = lsn := by subst hr; rfl
  rw [htuple, hstored, deserialize_header r _ h₁ h₂, htype', htxn, hprev', hlsn', hread]
  rcases htype with rfl | rfl <;> rfl

/-- **There is no case for `PREPARED`**: what is read back is a default record. -/
theorem deserialize_prepared {txn_id : txn_id_t} {prev_lsn lsn : Int} (hlsn : InRange lsn) (hprev : InRange prev_lsn) :
    DeserializeFrom (((ofTxn txn_id prev_lsn .PREPARED).SetLsn lsn).encode ++ c) =
      some (({} : LogRecord).SetLsn lsn) := by
  rw [encode_ofTxn (by simp), deserialize_header _ c hlsn hprev]
  rfl

end ReadBack

/-- What `DeserializeFrom` makes of the encoding of a record. -/
def readBack (r : LogRecord) : LogRecord :=
  if r.log_type_ = .PREPARED then ({} : LogRecord).SetLsn r.lsn_ else r.stored

theorem readBack_of_ne {r : LogRecord} (h : r.log_type_ ≠ .PREPARED) : r.readBack = r.stored := if_neg h

/-- **Reading back** a record that was built by a constructor, whatever stands behind it. -/
theorem Constructed.deserialize {r : LogRecord} (h : r.Constructed) (hlsn : InRange r.lsn_) (hprev : InRange r.prev_lsn_)
    (c : Bytes) : DeserializeFrom (r.encode ++ c) = some r.readBack := by
  cases h with
  | txn txn_id prev_lsn type lsn h =>
      by_cases hp : type = .PREPARED
      · subst hp
        exact deserialize_prepared c hlsn hprev
      · have htype : type = .BEGIN ∨ type = .COMMIT ∨ type = .ABORT := by tauto
        rw [readBack_of_ne (show LogRecord.log_type_ _ ≠ _ from hp)]
        exact deserialize_txn c hlsn hprev htype
  | tuple txn_id prev_lsn type key value lsn h =>
      have hp : type ≠ .PREPARED := by rcases h with rfl | rfl <;> decide
      rw [readBack_of_ne (show LogRecord.log_type_ _ ≠ _ from hp)]
      exact deserialize_tuple c hlsn hprev h

end LogRecord

namespace TransactionManager

/-- What `Undo` follows. -/
def links : BackLinks LogRecord txn_id_t := ⟨LogRecord.txn_id_, LogRecord.lsn_, LogRecord.prev_lsn_⟩

@[simp] theorem links_owner (r : LogRecord) : links.owner r = r.txn_id_ := rfl

@[simp] theorem links_num (r : LogRecord) : links.num r = r.lsn_ := rfl

@[simp] theorem links_prev (r : LogRecord) : links.prev r = r.prev_lsn_ := rfl

end TransactionManager
end DDBMS
