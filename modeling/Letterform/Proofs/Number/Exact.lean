import Letterform.Number.Scalar
import Mathlib

/-!
# Exact scalars

The numbers of an exact scalar type stand for reals, and its arithmetic is that of the reals. What
holds for all exact types is what the rules about outlines mean where nothing is rounded.
-/

namespace Letterform

class ExactScalar (α : Type) [Scalar α] where
  value : α → ℝ
  value_injective : Function.Injective value
  value_ofInt (n : ℤ) : value (Scalar.ofInt n) = n
  value_neg (a : α) : value (-a) = -value a
  value_add (a b : α) : value (a + b) = value a + value b
  value_sub (a b : α) : value (a - b) = value a - value b
  value_mul (a b : α) : value (a * b) = value a * value b
  value_div (a : α) {b : α} : value b ≠ 0 → value (a / b) = value a / value b
  lt_iff {a b : α} : a < b ↔ value a < value b
  le_iff {a b : α} : a ≤ b ↔ value a ≤ value b
  beq_iff {a b : α} : (a == b) = true ↔ value a = value b

namespace ExactScalar

attribute [simp] value_neg value_add value_sub value_mul

variable {α : Type} [Scalar α] [ExactScalar α]

@[simp]
theorem value_ofNat (n : ℕ) : value (no_index (OfNat.ofNat n : α)) = (OfNat.ofNat n : ℕ) :=
  (value_ofInt (n : ℤ)).trans (Int.cast_natCast n)

@[simp]
theorem value_half : value (1 / 2 : α) = 1 / 2 := by
  rw [value_div _ (by simp)]
  simp

theorem isClose_self (a : α) : Scalar.isClose a a = true := by
  have hle : a - a ≤ 0 := le_iff.mpr (by simp)
  have hbound : value (1 / 2 / 1024 : α) = 1 / 2 / 1024 := by
    rw [value_div _ (by simp)]
    simp
  have hlt : 0 - (a - a) < 1 / 2 / 1024 := lt_iff.mpr (by rw [hbound]; norm_num)
  simp [Scalar.isClose, Scalar.abs, if_pos hle, hlt]

end ExactScalar

end Letterform
