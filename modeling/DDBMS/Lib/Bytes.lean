import Mathlib.Order.Defs.LinearOrder
import Mathlib.Data.List.Lex
import Mathlib.Tactic.Ring

/-!
# `Lib.Bytes` — byte strings and little-endian integers

`leBytes w n` is the memory image of the unsigned integer `n` in `w` bytes, `ofLe` reads one back, and
`readAt` is a bounds-checked read inside a byte string. Signed integers of `w` bytes are stored as their
residue modulo `256 ^ w`.
-/

namespace DDBMS

abbrev Bytes := List UInt8

/-- Bytes are ordered as unsigned numbers, so byte strings are ordered as `memcmp` orders them. -/
instance byteOrder : LinearOrder UInt8 where
  le_refl a := UInt8.le_refl a
  le_trans _ _ _ h₁ h₂ := UInt8.le_trans h₁ h₂
  le_antisymm _ _ h₁ h₂ := UInt8.le_antisymm h₁ h₂
  le_total a b := UInt8.le_total a b
  lt_iff_le_not_ge a b := by
    rw [UInt8.lt_iff_toNat_lt, UInt8.le_iff_toNat_le, UInt8.le_iff_toNat_le]
    omega
  toDecidableLE := inferInstance
  toDecidableLT := inferInstance
  toDecidableEq := inferInstance

/-- The `w` low bytes of `n`, least significant first. -/
def leBytes : Nat → Nat → Bytes
  | 0, _ => []
  | w + 1, n => UInt8.ofNat n :: leBytes w (n / 256)

def ofLe : Bytes → Nat
  | [] => 0
  | b :: bs => b.toNat + 256 * ofLe bs

@[simp] theorem length_leBytes (w n : Nat) : (leBytes w n).length = w := by
  induction w generalizing n with
  | zero => rfl
  | succ w ih => simp [leBytes, ih]

theorem ofLe_leBytes (w n : Nat) : ofLe (leBytes w n) = n % 256 ^ w := by
  induction w generalizing n with
  | zero => simp [leBytes, ofLe, Nat.mod_one]
  | succ w ih =>
      rw [leBytes, ofLe, ih, UInt8.toNat_ofNat', show 2 ^ 8 = 256 from rfl, pow_succ', Nat.mod_mul]

/-- Read a `w`-byte integer at `pos`; `none` is a read out of bounds. -/
def readAt (w : Nat) (b : Bytes) (pos : Nat) : Option Nat :=
  if pos + w ≤ b.length then some (ofLe ((b.drop pos).take w)) else none

/-- A read of what was written, wherever it stands. -/
theorem readAt_mid {w n : Nat} (hn : n < 256 ^ w) (a c : Bytes) :
    readAt w (a ++ (leBytes w n ++ c)) a.length = some n := by
  unfold readAt
  rw [if_pos (by simp)]
  rw [List.drop_left, List.take_append_of_le_length (by simp), List.take_of_length_le (by simp),
    ofLe_leBytes, Nat.mod_eq_of_lt hn]

/-- Read `n` bytes at `pos`; `none` is a read out of bounds. -/
def readBytes (n : Nat) (b : Bytes) (pos : Nat) : Option Bytes :=
  if pos + n ≤ b.length then some ((b.drop pos).take n) else none

theorem readBytes_mid (a src c : Bytes) : readBytes src.length (a ++ (src ++ c)) a.length = some src := by
  unfold readBytes
  rw [if_pos (by simp), List.drop_left, List.take_left]

/-- A read at `pos` is one at the start of what stands there. -/
theorem readAt_drop (w : Nat) {b : Bytes} {pos : Nat} (h : pos ≤ b.length) :
    readAt w b pos = readAt w (b.drop pos) 0 := by
  unfold readAt
  rw [List.length_drop, List.drop_zero]
  apply if_congr _ rfl rfl
  omega

/-- A read that ends before a cut. -/
theorem readAt_take {w n : Nat} (h : w ≤ n) (b : Bytes) : readAt w (b.take n) 0 = readAt w b 0 := by
  unfold readAt
  rw [List.drop_zero, List.drop_zero, List.take_take, min_eq_left h, List.length_take]
  apply if_congr _ rfl rfl
  omega

/-! ## Signed integers and copies -/

/-- `n` as an `int32_t`: what does not fit wraps around. -/
def wrap32 (n : Int) : Int := Int.bmod n (2 ^ 32)

theorem wrap32_of_lt {n : Int} (h : -2 ^ 31 ≤ n) (h' : n < 2 ^ 31) : wrap32 n = n := by
  apply Int.bmod_eq_of_le <;> omega

theorem wrap32_add (m n : Int) : wrap32 (wrap32 m + n) = wrap32 (m + n) := Int.bmod_add_bmod

/-- The memory image of an `int32_t`. -/
def leInt32 (n : Int) : Bytes := leBytes 4 (n % 2 ^ 32).toNat

/-- The `int32_t` of an unsigned word. -/
def toInt32 (n : Nat) : Int := wrap32 n

@[simp] theorem length_leInt32 (n : Int) : (leInt32 n).length = 4 := length_leBytes 4 _

theorem readAt_mid_int32 {n : Int} (h : -2 ^ 31 ≤ n) (h' : n < 2 ^ 31) (a c : Bytes) :
    (readAt 4 (a ++ (leInt32 n ++ c)) a.length).map toInt32 = some n := by
  have hmod : 0 ≤ n % 2 ^ 32 := Int.emod_nonneg _ (by decide)
  rw [leInt32, readAt_mid (by omega), Option.map_some, toInt32, Int.toNat_of_nonneg hmod]
  congr 1
  have : wrap32 (n % 2 ^ 32) = wrap32 n := Int.emod_bmod n (2 ^ 32)
  rw [this, wrap32_of_lt h h']

/-- `memcpy(dst + pos, src, n)`. A copy that does not fit makes the array longer. -/
def memcpy (dst : Bytes) (pos : Nat) (src : Bytes) : Bytes :=
  dst.take pos ++ (src ++ dst.drop (pos + src.length))

theorem length_memcpy {dst src : Bytes} {pos : Nat} (h : pos + src.length ≤ dst.length) :
    (memcpy dst pos src).length = dst.length := by
  simp only [memcpy, List.length_append, List.length_take, List.length_drop]
  omega

/-- What stands before the end of the copy. -/
theorem take_memcpy {dst src : Bytes} {pos : Nat} (h : pos ≤ dst.length) :
    (memcpy dst pos src).take (pos + src.length) = dst.take pos ++ src := by
  rw [memcpy, ← List.append_assoc]
  apply List.take_left'
  simp only [List.length_append, List.length_take]
  omega

/-- Two copies, one behind the other, are one copy. -/
theorem memcpy_memcpy {dst src src' : Bytes} {pos : Nat} (h : pos + src.length ≤ dst.length) :
    memcpy (memcpy dst pos src) (pos + src.length) src' = memcpy dst pos (src ++ src') := by
  have htake := @take_memcpy dst src pos (by omega)
  have hdrop : (memcpy dst pos src).drop (pos + src.length + src'.length) =
      dst.drop (pos + (src ++ src').length) := by
    rw [memcpy, ← List.append_assoc, ← List.drop_drop, List.drop_left' (by simp; omega), List.drop_drop,
      List.length_append, Nat.add_assoc]
  rw [memcpy, htake, hdrop, memcpy, List.append_assoc, List.append_assoc]

end DDBMS
