import Mathlib.Data.Nat.Bitwise

/-!
# `Lib.BitFields` — the fields of a word

`field n lo width` is the number that stands in the `width` bits of `n` from bit `lo` on. A word that is packed with shifts
and or has in each field the or of what its parts have there (`field_or`), and a field is told by the two fields that it is
cut into (`field_eq_iff`). So whether packed parts keep out of each other's way, and when two packings are equal, is found
out field by field.
-/

namespace DDBMS
namespace BitFields

variable {n lo width : Nat}

/-- The `width` bits of `n` from bit `lo` on. -/
def field (n lo width : Nat) : Nat := n / 2 ^ lo % 2 ^ width

theorem field_lt (n lo width : Nat) : field n lo width < 2 ^ width := Nat.mod_lt _ (Nat.two_pow_pos width)

theorem testBit_field (n lo width i : Nat) :
    (field n lo width).testBit i = (decide (i < width) && n.testBit (i + lo)) := by
  rw [field, Nat.testBit_mod_two_pow, Nat.testBit_div_two_pow]

/-- **Or goes field by field.** -/
theorem field_or (m n lo width : Nat) : field (m ||| n) lo width = field m lo width ||| field n lo width := by
  refine Nat.eq_of_testBit_eq fun i => ?_
  simp only [testBit_field, Nat.testBit_or, Bool.and_or_distrib_left]

/-- A field that is full stays full. -/
theorem or_full (h : n < 2 ^ width) : n ||| (2 ^ width - 1) = 2 ^ width - 1 := by
  refine Nat.eq_of_testBit_eq fun i => ?_
  rw [Nat.testBit_or, Nat.testBit_two_pow_sub_one]
  by_cases hi : i < width
  · simp [hi]
  · have hle : 2 ^ width ≤ 2 ^ i := Nat.pow_le_pow_right (by decide) (Nat.not_lt.mp hi)
    simp [hi, Nat.testBit_lt_two_pow (lt_of_lt_of_le h hle)]

/-- The lower part of a field. -/
theorem field_mod (n lo w₁ w₂ : Nat) : field n lo (w₁ + w₂) % 2 ^ w₁ = field n lo w₁ := by
  rw [field, field, pow_add, Nat.mod_mul_right_mod]

/-- The upper part of a field. -/
theorem field_div (n lo w₁ w₂ : Nat) : field n lo (w₁ + w₂) / 2 ^ w₁ = field n (lo + w₁) w₂ := by
  rw [field, field, pow_add, Nat.mod_mul_right_div_self, Nat.div_div_eq_div_mul, ← pow_add]

/-- A field is what its two parts are. -/
theorem field_eq_iff (m n lo w₁ w₂ : Nat) : field m lo (w₁ + w₂) = field n lo (w₁ + w₂) ↔
    field m lo w₁ = field n lo w₁ ∧ field m (lo + w₁) w₂ = field n (lo + w₁) w₂ := by
  constructor
  · intro h
    rw [← field_mod m lo w₁ w₂, ← field_mod n lo w₁ w₂, ← field_div, ← field_div, h]
    exact ⟨rfl, rfl⟩
  · rintro ⟨hlow, hhigh⟩
    rw [← Nat.div_add_mod (field m lo (w₁ + w₂)) (2 ^ w₁), ← Nat.div_add_mod (field n lo (w₁ + w₂)) (2 ^ w₁),
      field_mod, field_mod, field_div, field_div, hlow, hhigh]

/-- All bits of a word. -/
theorem field_self (h : n < 2 ^ width) : field n 0 width = n := by
  rw [field, pow_zero, Nat.div_one, Nat.mod_eq_of_lt h]

/-! ## Shifted numbers -/

/-- A number that ends below the field. -/
theorem field_of_lt (h : n < 2 ^ lo) : field n lo width = 0 := by
  rw [field, Nat.div_eq_of_lt h, Nat.zero_mod]

/-- A number that is shifted behind the field. -/
theorem field_shift_of_le {k : Nat} (h : lo + width ≤ k) : field (n * 2 ^ k) lo width = 0 := by
  obtain ⟨d, rfl⟩ := Nat.exists_eq_add_of_le h
  rw [field, Nat.add_assoc, pow_add, Nat.mul_left_comm, Nat.mul_div_cancel_left _ (Nat.two_pow_pos lo), pow_add,
    Nat.mul_left_comm, Nat.mul_mod_right]

/-- A number that is shifted to the field or below it. -/
theorem field_shift {k : Nat} (h : k ≤ lo) : field (n * 2 ^ k) lo width = field n (lo - k) width := by
  obtain ⟨d, rfl⟩ := Nat.exists_eq_add_of_le h
  rw [field, field, pow_add, Nat.add_sub_cancel_left, ← Nat.div_div_eq_div_mul,
    Nat.mul_div_cancel _ (Nat.two_pow_pos k)]

end BitFields
end DDBMS
