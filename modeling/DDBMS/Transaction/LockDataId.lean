import DDBMS.Lib.BitFields
import DDBMS.Transaction.LockManager

/-!
# `Transaction.LockDataId` — the packed lock id

`Lock_data_id::Get` packs an id into a word (`include/transaction/txn.h`). The comment above it gives the layout: 2 bits of
type, 14 of table, 16 of partition and 32 of row. The code departs from it in two places. It shifts the table by 47, so the
table stands one bit too low and its lowest bit falls on the highest bit of the partition. And it widens the row with its
sign, so a negative row fills all the bits above it.

`fields_of_nonneg` and `Fits.field_of_neg` say what stands in the bits of the word, and from them follow which ids have the same
word (`get_eq_iff`) and which words have the layout (`laidOut_iff`).
-/

namespace DDBMS

open BitFields

/-- `static_cast<std::size_t>` of a type. -/
def Lock_data_type.toSizeT : Lock_data_type → UInt64
  | .table => 0
  | .partition => 1
  | .row => 2

namespace Lock_data_id

/-- `static_cast<std::size_t>` of an `int32_t`. -/
def toSizeT (n : Int32) : UInt64 := n.toInt64.toUInt64

def Get (l : Lock_data_id) : UInt64 :=
  l.type_.toSizeT <<< 62 ||| toSizeT l.oid_ <<< 47 ||| toSizeT l.p_id_ <<< 32 ||| toSizeT l.row_id_

/-- The numbers fit the widths of the layout; every type and every row does. -/
structure Fits (l : Lock_data_id) : Prop where
  table : 0 ≤ l.oid_.toInt ∧ l.oid_.toInt < 2 ^ 14
  partition : 0 ≤ l.p_id_.toInt ∧ l.p_id_.toInt < 2 ^ 16

/-- Each number stands in the bits that the layout gives it. -/
structure LaidOut (l : Lock_data_id) : Prop where
  type : field l.Get.toNat 62 2 = l.type_.toSizeT.toNat
  table : field l.Get.toNat 48 14 = l.oid_.toInt
  partition : field l.Get.toNat 32 16 = l.p_id_.toInt
  row : field l.Get.toNat 0 32 = l.row_id_.toUInt32.toNat

variable {l a b : Lock_data_id}

/-! ## The parts of the word -/

theorem toSizeT_toNat (n : Int32) : ((toSizeT n).toNat : Int) = if 0 ≤ n.toInt then n.toInt else 2 ^ 64 + n.toInt := by
  have hint : (n.toBitVec.signExtend 64).toInt = n.toInt := BitVec.toInt_signExtend_of_le (by decide)
  have hcond := BitVec.toInt_eq_toNat_cond (n.toBitVec.signExtend 64)
  have hlt := (n.toBitVec.signExtend 64).isLt
  show (((n.toBitVec.signExtend 64).toNat : Nat) : Int) = _
  split <;> split at hcond <;> omega

theorem toUInt32_toNat (n : Int32) : (n.toUInt32.toNat : Int) = if 0 ≤ n.toInt then n.toInt else 2 ^ 32 + n.toInt := by
  have hcond : n.toInt = _ := BitVec.toInt_eq_toNat_cond n.toBitVec
  have hlt := n.toBitVec.isLt
  show ((n.toBitVec.toNat : Nat) : Int) = _
  split <;> split at hcond <;> omega

theorem toSizeT_type_lt (t : Lock_data_type) : t.toSizeT.toNat < 3 := by
  cases t <;> decide

theorem toSizeT_type_inj {t u : Lock_data_type} : t.toSizeT.toNat = u.toSizeT.toNat ↔ t = u := by
  cases t <;> cases u <;> decide

theorem Fits.table_eq (h : l.Fits) : ((toSizeT l.oid_).toNat : Int) = l.oid_.toInt := by
  rw [toSizeT_toNat, if_pos h.table.1]

theorem Fits.partition_eq (h : l.Fits) : ((toSizeT l.p_id_).toNat : Int) = l.p_id_.toInt := by
  rw [toSizeT_toNat, if_pos h.partition.1]

theorem Fits.lt (h : l.Fits) : (toSizeT l.oid_).toNat < 2 ^ 14 ∧ (toSizeT l.p_id_).toNat < 2 ^ 16 := by
  have ho := h.table_eq
  have hp := h.partition_eq
  have := h.table
  have := h.partition
  omega

/-- A shift that loses no bits. -/
theorem toNat_shiftLeft_of_lt {x s : UInt64} {k : Nat} (hs : s.toNat % 64 = k) (h : x.toNat * 2 ^ k < 2 ^ 64) :
    (x <<< s).toNat = x.toNat * 2 ^ k := by
  rw [UInt64.toNat_shiftLeft, hs, Nat.shiftLeft_eq, Nat.mod_eq_of_lt h]

/-- A field of the word is made of those of the four parts. -/
theorem Fits.field_get (h : l.Fits) (lo width : Nat) : field l.Get.toNat lo width =
    field (l.type_.toSizeT.toNat * 2 ^ 62) lo width ||| field ((toSizeT l.oid_).toNat * 2 ^ 47) lo width |||
      field ((toSizeT l.p_id_).toNat * 2 ^ 32) lo width ||| field (toSizeT l.row_id_).toNat lo width := by
  obtain ⟨ho, hp⟩ := h.lt
  have ht := toSizeT_type_lt l.type_
  rw [Get, UInt64.toNat_or, UInt64.toNat_or, UInt64.toNat_or, field_or, field_or, field_or,
    toNat_shiftLeft_of_lt (k := 62) rfl (by omega), toNat_shiftLeft_of_lt (k := 47) rfl (by omega),
    toNat_shiftLeft_of_lt (k := 32) rfl (by omega)]

/-- The row is in its place, whatever stands above it. -/
theorem Fits.field_row (h : l.Fits) : field l.Get.toNat 0 32 = l.row_id_.toUInt32.toNat := by
  rw [h.field_get, field_shift_of_le (by decide), field_shift_of_le (by decide), field_shift_of_le (by decide)]
  have hwide := toSizeT_toNat l.row_id_
  have hrow := toUInt32_toNat l.row_id_
  have := l.row_id_.toInt_lt
  have := l.row_id_.le_toInt
  simp only [Nat.zero_or, field]
  split at hwide <;> omega

/-- Bit 47, where the lowest bit of the table meets the highest bit of the partition. -/
def Bit47 (l : Lock_data_id) : Prop := l.oid_.toInt % 2 = 1 ∨ 2 ^ 15 ≤ l.p_id_.toInt

instance (l : Lock_data_id) : Decidable l.Bit47 := inferInstanceAs (Decidable (_ ∨ _))

/-- Two bits on one place. -/
theorem or_bits {c d : Nat} (hc : c < 2) (hd : d < 2) : c ||| d = if c = 1 ∨ d = 1 then 1 else 0 := by
  interval_cases c <;> interval_cases d <;> rfl

/-- **With a row that is not negative**, the type is in its place, the table is one bit too low, and of the partition all
    but the highest bit. -/
theorem Fits.fields_of_nonneg (h : l.Fits) (hrow : 0 ≤ l.row_id_.toInt) :
    field l.Get.toNat 32 15 = l.p_id_.toInt % 2 ^ 15 ∧ field l.Get.toNat 47 1 = (if l.Bit47 then 1 else 0) ∧
    field l.Get.toNat 48 14 = l.oid_.toInt / 2 ∧ field l.Get.toNat 62 2 = l.type_.toSizeT.toNat := by
  have ht := toSizeT_type_lt l.type_
  have hR : (toSizeT l.row_id_).toNat < 2 ^ 32 := by
    have hwide := toSizeT_toNat l.row_id_
    have := l.row_id_.toInt_lt
    rw [if_pos hrow] at hwide
    omega
  obtain ⟨ho, hp⟩ := h.lt
  have hget := h.field_get
  rw [← h.partition_eq, ← h.table_eq]
  have hbit : l.Bit47 ↔ (toSizeT l.oid_).toNat % 2 = 1 ∨ (toSizeT l.p_id_).toNat / 2 ^ 15 = 1 := by
    rw [Bit47, ← h.partition_eq, ← h.table_eq]
    omega
  generalize l.type_.toSizeT.toNat = t, (toSizeT l.oid_).toNat = o, (toSizeT l.p_id_).toNat = p,
    (toSizeT l.row_id_).toNat = r at *
  refine ⟨?_, ?_, ?_, ?_⟩
  · rw [hget, field_shift_of_le (by decide), field_shift_of_le (by decide), field_shift (by decide), field_of_lt hR]
    simp only [Nat.zero_or, Nat.or_zero, field]
    omega
  · have ho' : field o (47 - 47) 1 = o % 2 := by simp [field]
    have hp' : field p (47 - 32) 1 = p / 2 ^ 15 := by unfold field; omega
    rw [hget, field_shift_of_le (by decide), field_shift (by decide), field_shift (by decide),
      field_of_lt (n := r) (by omega), ho', hp', Nat.zero_or, Nat.or_zero, or_bits (by omega) (by omega)]
    simp only [hbit]
  · rw [hget, field_shift_of_le (by decide), field_shift (by decide), field_of_lt (n := p * 2 ^ 32) (by omega),
      field_of_lt (n := r) (by omega)]
    simp only [Nat.zero_or, Nat.or_zero, field]
    omega
  · rw [hget, field_shift (by decide), field_of_lt (n := o * 2 ^ 47) (by omega),
      field_of_lt (n := p * 2 ^ 32) (by omega), field_of_lt (n := r) (by omega)]
    simp only [Nat.or_zero, field]
    omega

/-- **With a negative row**, all bits above it are set. -/
theorem Fits.field_of_neg (h : l.Fits) (hrow : l.row_id_.toInt < 0) : field l.Get.toNat 32 32 = 2 ^ 32 - 1 := by
  have hR : field (toSizeT l.row_id_).toNat 32 32 = 2 ^ 32 - 1 := by
    have hwide := toSizeT_toNat l.row_id_
    have := l.row_id_.le_toInt
    rw [if_neg (by omega)] at hwide
    rw [field]
    omega
  rw [h.field_get, hR]
  exact or_full (Nat.or_lt_two_pow (Nat.or_lt_two_pow (field_lt _ _ _) (field_lt _ _ _)) (field_lt _ _ _))

/-! ## Ids with the same word -/

/-- The ids agree in what `Get` takes from them: in the row and, unless it is negative, in the rest. -/
def Shares (a b : Lock_data_id) : Prop :=
  a.row_id_ = b.row_id_ ∧ (a.row_id_.toInt < 0 ∨
    (a.p_id_.toInt % 2 ^ 15 = b.p_id_.toInt % 2 ^ 15 ∧ (a.Bit47 ↔ b.Bit47) ∧ a.oid_.toInt / 2 = b.oid_.toInt / 2 ∧
      a.type_ = b.type_))

/-- Words are equal when their fields are. -/
theorem get_eq_iff_fields : a.Get = b.Get ↔
    field a.Get.toNat 0 32 = field b.Get.toNat 0 32 ∧ field a.Get.toNat 32 32 = field b.Get.toNat 32 32 := by
  rw [← field_eq_iff _ _ 0 32 32, field_self (UInt64.toNat_lt a.Get), field_self (UInt64.toNat_lt b.Get),
    UInt64.toNat_inj]

theorem upper_eq_iff {m n : Nat} : field m 32 32 = field n 32 32 ↔ field m 32 15 = field n 32 15 ∧
    field m 47 1 = field n 47 1 ∧ field m 48 14 = field n 48 14 ∧ field m 62 2 = field n 62 2 := by
  rw [← field_eq_iff m n 48 14 2, ← field_eq_iff m n 47 1 16, ← field_eq_iff m n 32 15 17]

theorem row_eq_iff {m n : Int32} : m.toUInt32.toNat = n.toUInt32.toNat ↔ m = n := by
  rw [UInt32.toNat_inj]
  exact ⟨fun h => by rw [← m.toInt32_toUInt32, ← n.toInt32_toUInt32, h], fun h => congrArg _ h⟩

/-- **Which ids have the same word.** -/
theorem get_eq_iff (ha : a.Fits) (hb : b.Fits) : a.Get = b.Get ↔ a.Shares b := by
  rw [get_eq_iff_fields, ha.field_row, hb.field_row, row_eq_iff, Shares]
  refine and_congr_right fun hrow => ?_
  by_cases hneg : a.row_id_.toInt < 0
  · rw [ha.field_of_neg hneg, hb.field_of_neg (hrow ▸ hneg)]
    exact iff_of_true rfl (Or.inl hneg)
  · obtain ⟨hp, h47, ho, ht⟩ := ha.fields_of_nonneg (not_lt.mp hneg)
    obtain ⟨hp', h47', ho', ht'⟩ := hb.fields_of_nonneg (hrow ▸ not_lt.mp hneg)
    have hbits : ((if a.Bit47 then 1 else 0) = if b.Bit47 then 1 else 0) ↔ (a.Bit47 ↔ b.Bit47) := by
      by_cases h₁ : a.Bit47 <;> by_cases h₂ : b.Bit47 <;> simp [h₁, h₂]
    rw [upper_eq_iff, ← Int.natCast_inj, hp, hp', h47, h47', hbits, ← Int.natCast_inj, ho, ho', ht, ht',
      toSizeT_type_inj, or_iff_right hneg]

/-! ## The layout -/

/-- The table has the number 0, and the row is not negative. -/
def Plain (l : Lock_data_id) : Prop := l.oid_.toInt = 0 ∧ 0 ≤ l.row_id_.toInt

/-- **Which words have the layout.** -/
theorem laidOut_iff (h : l.Fits) : l.LaidOut ↔ l.Plain := by
  have htable := h.table
  have hpartition := h.partition
  constructor
  · intro hlaid
    have hrow : 0 ≤ l.row_id_.toInt := by
      by_contra hneg
      -- all bits of the type are set, but no type has the number 3
      have hfield := field_div l.Get.toNat 32 30 2
      rw [h.field_of_neg (not_le.mp hneg), hlaid.type] at hfield
      have := toSizeT_type_lt l.type_
      omega
    obtain ⟨-, -, ho, -⟩ := h.fields_of_nonneg hrow
    rw [hlaid.table] at ho
    exact ⟨by omega, hrow⟩
  · rintro ⟨hoid, hrow⟩
    obtain ⟨hp, h47, ho, ht⟩ := h.fields_of_nonneg hrow
    refine ⟨ht, by rw [ho, hoid]; rfl, ?_, h.field_row⟩
    have hhigh : field l.Get.toNat 32 16 / 2 ^ 15 = field l.Get.toNat 47 1 := field_div l.Get.toNat 32 15 1
    have hlow : field l.Get.toNat 32 16 % 2 ^ 15 = field l.Get.toNat 32 15 := field_mod l.Get.toNat 32 15 1
    -- without a table, bit 47 is the partition's
    have hbit : l.Bit47 ↔ 2 ^ 15 ≤ l.p_id_.toInt := by
      unfold Bit47
      omega
    rw [h47] at hhigh
    simp only [hbit] at hhigh
    split at hhigh <;> omega

/-- Two ids are told apart by their words, and both words have the layout. -/
structure Packed (a b : Lock_data_id) : Prop where
  apart : a ≠ b → a.Get ≠ b.Get
  left : a.LaidOut
  right : b.LaidOut

/-- Ids of one word that have the layout are one id. -/
theorem LaidOut.eq_of_get (ha : a.LaidOut) (hb : b.LaidOut) (h : a.Get = b.Get) : a = b := by
  have htype := ha.type
  have htable := ha.table
  have hpartition := ha.partition
  have hrow := ha.row
  rw [h] at htype htable hpartition hrow
  rw [hb.type, toSizeT_type_inj] at htype
  rw [hb.table, Int32.toInt_inj] at htable
  rw [hb.partition, Int32.toInt_inj] at hpartition
  rw [hb.row, row_eq_iff] at hrow
  cases a
  cases b
  simp_all

/-- **When the packing keeps its promise.** Of any two ids whose numbers fit: they are told apart by words that have the
    layout exactly when both ids have table 0 and a row that is not negative. And they have the same word exactly when they
    agree in what `Get` takes from them. -/
theorem packing_exact_iff (ha : a.Fits) (hb : b.Fits) :
    (a.Packed b ↔ a.Plain ∧ b.Plain) ∧ (a.Get = b.Get ↔ a.Shares b) := by
  refine ⟨⟨fun h => ⟨(laidOut_iff ha).mp h.left, (laidOut_iff hb).mp h.right⟩, ?_⟩, get_eq_iff ha hb⟩
  rintro ⟨hplain, hplain'⟩
  have hleft := (laidOut_iff ha).mpr hplain
  have hright := (laidOut_iff hb).mpr hplain'
  exact ⟨mt (hleft.eq_of_get hright), hleft, hright⟩

/-- Partition 0 of table 1. -/
def firstPartition : Lock_data_id := { oid_ := 1, p_id_ := 0, type_ := .partition }

/-- Partition 2 ^ 15 of table 0. -/
def farPartition : Lock_data_id := { oid_ := 0, p_id_ := 32768, type_ := .partition }

theorem fits_firstPartition : firstPartition.Fits := ⟨by decide, by decide⟩

theorem fits_farPartition : farPartition.Fits := ⟨by decide, by decide⟩

theorem packing_exact_iff_partitions :
    (firstPartition.Packed farPartition ↔ firstPartition.Plain ∧ farPartition.Plain) ∧
    (firstPartition.Get = farPartition.Get ↔ firstPartition.Shares farPartition) :=
  packing_exact_iff fits_firstPartition fits_farPartition

/-- The two partitions have one word. -/
theorem not_packed : ¬ ∀ a b : Lock_data_id, a.Fits → b.Fits → a.Packed b := by
  intro h
  exact (h _ _ fits_firstPartition fits_farPartition).apart (by decide) (by decide)

end Lock_data_id
end DDBMS
