import Letterform.Number.Scalar
import Mathlib

/-!
# Scalars that compute exactly

A scalar type is lawful if its operations give the exact result wherever that is a whole number
below `2 ^ 53` over a power of two. What follows here about 16.16 numbers, coordinates and operands
holds for all such types, and so for doubles.
-/

namespace Letterform

namespace Scalar

/-- The nearest whole number; a half goes away from zero. -/
def halfAway (q : ℚ) : ℤ := if q < 0 then -⌊-q + 1 / 2⌋ else ⌊q + 1 / 2⌋

/-- The whole number next to a number in the direction of zero. -/
def towardZero (q : ℚ) : ℤ := if q < 0 then -⌊-q⌋ else ⌊q⌋

def Storable (q : ℚ) : Prop := ∃ (n : ℤ) (k : ℕ), |n| < 2 ^ 53 ∧ k ≤ 1074 ∧ q = n / 2 ^ k

end Scalar

open Scalar in
/-- A scalar type whose numbers stand for rationals. What stands for none is not a number, or lies
beyond all that do. -/
class LawfulScalar (α : Type) [Scalar α] where
  Denotes : α → ℚ → Prop
  unique {a : α} {p q : ℚ} : Denotes a p → Denotes a q → p = q
  ofInt {n : ℤ} : |n| < 2 ^ 53 → Denotes (Scalar.ofInt n) n
  neg {a : α} {q : ℚ} : Denotes a q → Denotes (-a) (-q)
  add {a b : α} {p q : ℚ} : Denotes a p → Denotes b q → Storable (p + q) → Denotes (a + b) (p + q)
  sub {a b : α} {p q : ℚ} : Denotes a p → Denotes b q → Storable (p - q) → Denotes (a - b) (p - q)
  mul {a b : α} {p q : ℚ} : Denotes a p → Denotes b q → Storable (p * q) → Denotes (a * b) (p * q)
  div {a b : α} {p q : ℚ} : Denotes a p → Denotes b q → q ≠ 0 → Storable (p / q) →
    Denotes (a / b) (p / q)
  abs {a : α} {q : ℚ} : Denotes a q → Denotes (Scalar.abs a) |q|
  lt_iff {a b : α} {p q : ℚ} : Denotes a p → Denotes b q → (a < b ↔ p < q)
  le_iff {a b : α} {p q : ℚ} : Denotes a p → Denotes b q → (a ≤ b ↔ p ≤ q)
  beq_iff {a b : α} {p q : ℚ} : Denotes a p → Denotes b q → ((a == b) = true ↔ p = q)
  floor {a : α} {q : ℚ} : Denotes a q → Denotes (Scalar.floor a) ⌊q⌋
  round {a : α} {q : ℚ} : Denotes a q → Denotes (Scalar.round a) (halfAway q)
  truncate {a : α} {q : ℚ} (low high : ℤ) : Denotes a q →
    Scalar.truncate low high a = max low (min high (towardZero q))
  truncate_mem {a : α} {low high : ℤ} : low ≤ high →
    low ≤ Scalar.truncate low high a ∧ Scalar.truncate low high a ≤ high
  sub_zero {a : α} {q : ℚ} : Denotes a q → Denotes (a - 0) q
  /-- Snapping leads to the grid or out of the range of all numbers. -/
  snap {a : α} : (a == a) = true →
    (∃ q, Denotes a q ∧ Denotes (Scalar.snap a) (halfAway (q * 1024) / 1024)) ∨
      ∀ b q, Denotes b q → b < Scalar.abs (Scalar.snap a)
  denotes_of_beq {a b : α} {q : ℚ} : (a == b) = true → Denotes b q → Denotes a q
  beq_self_of_lt {a b : α} : a < b → (a == a) = true
  beq_self_of_le {a b : α} : a ≤ b → (a == a) = true
  beq_self_of_sub {a b : α} : (a - b == a - b) = true → (a == a) = true
  beq_self_of_snap {a : α} : (Scalar.snap a == Scalar.snap a) = true → (a == a) = true

namespace Scalar

open LawfulScalar (Denotes)

variable {α : Type} [Scalar α] [LawfulScalar α]

/-- A number is so many parts of 65536. -/
def IsFixed (a : α) (n : ℤ) : Prop := Denotes a (n / 65536)

-- ---------------------------------------------------------------------------
-- Numbers that can be stored
-- ---------------------------------------------------------------------------

theorem storable_intCast {n : ℤ} (h : |n| < 2 ^ 53) : Storable n :=
  ⟨n, 0, h, by norm_num, by simp⟩

theorem storable_fixed {n : ℤ} (h : |n| < 2 ^ 53) : Storable ((n : ℚ) / 65536) :=
  ⟨n, 16, h, by norm_num, by norm_num⟩

theorem storable_half {n : ℤ} (h : |n| < 2 ^ 53) : Storable ((n : ℚ) / 2) :=
  ⟨n, 1, h, by norm_num, by norm_num⟩

-- ---------------------------------------------------------------------------
-- Arithmetic in parts of 65536
-- ---------------------------------------------------------------------------

theorem IsFixed.unique {a : α} {m n : ℤ} (hm : IsFixed a m) (hn : IsFixed a n) : m = n := by
  have := LawfulScalar.unique hm hn
  field_simp at this
  exact_mod_cast this

theorem isFixed_whole {a : α} {n : ℤ} : IsFixed a (65536 * n) ↔ Denotes a n := by
  have heq : ((65536 * n : ℤ) : ℚ) / 65536 = n := by push_cast; ring
  rw [IsFixed, heq]

theorem isFixed_ofInt {n : ℤ} (h : |n| < 2 ^ 53) : IsFixed (ofInt n : α) (65536 * n) :=
  isFixed_whole.mpr (LawfulScalar.ofInt h)

theorem isFixed_zero : IsFixed (0 : α) 0 := isFixed_ofInt (n := 0) (by norm_num)

theorem IsFixed.neg {a : α} {n : ℤ} (h : IsFixed a n) : IsFixed (-a) (-n) := by
  have := LawfulScalar.neg h
  rwa [← neg_div, ← Int.cast_neg] at this

theorem IsFixed.add {a b : α} {m n : ℤ} (ha : IsFixed a m) (hb : IsFixed b n)
    (h : |m + n| < 2 ^ 53) : IsFixed (a + b) (m + n) := by
  have heq : ((m + n : ℤ) : ℚ) / 65536 = m / 65536 + n / 65536 := by push_cast; ring
  unfold IsFixed
  rw [heq]
  exact LawfulScalar.add ha hb (heq ▸ storable_fixed h)

theorem IsFixed.sub {a b : α} {m n : ℤ} (ha : IsFixed a m) (hb : IsFixed b n)
    (h : |m - n| < 2 ^ 53) : IsFixed (a - b) (m - n) := by
  have heq : ((m - n : ℤ) : ℚ) / 65536 = m / 65536 - n / 65536 := by push_cast; ring
  unfold IsFixed
  rw [heq]
  exact LawfulScalar.sub ha hb (heq ▸ storable_fixed h)

theorem IsFixed.lt_iff {a b : α} {m n : ℤ} (ha : IsFixed a m) (hb : IsFixed b n) :
    a < b ↔ m < n := by
  rw [LawfulScalar.lt_iff ha hb, div_lt_div_iff_of_pos_right (by norm_num), Int.cast_lt]

theorem IsFixed.le_iff {a b : α} {m n : ℤ} (ha : IsFixed a m) (hb : IsFixed b n) :
    a ≤ b ↔ m ≤ n := by
  rw [LawfulScalar.le_iff ha hb, div_le_div_iff_of_pos_right (by norm_num), Int.cast_le]

theorem IsFixed.beq_iff {a b : α} {m n : ℤ} (ha : IsFixed a m) (hb : IsFixed b n) :
    (a == b) = true ↔ m = n := by
  rw [LawfulScalar.beq_iff ha hb, div_left_inj' (by norm_num), Int.cast_inj]

theorem IsFixed.beq_zero {a : α} {n : ℤ} (h : IsFixed a n) : (a == 0) = decide (n = 0) := by
  rw [Bool.eq_iff_iff, h.beq_iff isFixed_zero, decide_eq_true_iff]

theorem IsFixed.abs {a : α} {n : ℤ} (h : IsFixed a n) : IsFixed (Scalar.abs a) |n| := by
  have := LawfulScalar.abs h
  rwa [abs_div, abs_of_pos (show (0 : ℚ) < 65536 by norm_num), ← Int.cast_abs] at this

-- ---------------------------------------------------------------------------
-- Whole numbers and 16.16 words
-- ---------------------------------------------------------------------------

theorem IsFixed.floor {a : α} {n : ℤ} (h : IsFixed a n) :
    IsFixed (Scalar.floor a) (65536 * (n / 65536)) := by
  have hfloor : ⌊(n : ℚ) / 65536⌋ = n / 65536 := Rat.floor_intCast_div_natCast n 65536
  have := LawfulScalar.floor h
  rw [hfloor] at this
  unfold IsFixed
  push_cast
  rwa [mul_div_cancel_left₀ _ (by norm_num)]

theorem IsFixed.isWhole {a : α} {n : ℤ} (h : IsFixed a n) :
    Scalar.isWhole a = decide (n % 65536 = 0) := by
  have hsub := h.sub h.floor (by rw [abs_lt]; omega)
  rw [Scalar.isWhole, hsub.beq_zero, Bool.eq_iff_iff, decide_eq_true_iff, decide_eq_true_iff]
  omega

theorem IsFixed.toInt32_saturated {a : α} {n : ℤ} (h : IsFixed a (65536 * n)) :
    Scalar.toInt32 a = max (-0x80000000) (min 0x7fffffff n) := by
  have heq : ((65536 * n : ℤ) : ℚ) / 65536 = n := by push_cast; ring
  have hn : towardZero (n : ℚ) = n := by
    unfold towardZero
    split_ifs
    · rw [← Int.cast_neg, Int.floor_intCast, neg_neg]
    · exact Int.floor_intCast n
  rw [Scalar.toInt32, LawfulScalar.truncate _ _ h, heq, hn]

theorem IsFixed.toInt32 {a : α} {n : ℤ} (h : IsFixed a (65536 * n)) (hlow : -2 ^ 31 ≤ n)
    (hhigh : n < 2 ^ 31) : Scalar.toInt32 a = n := by
  rw [h.toInt32_saturated]
  omega

/-- A 16.16 number in range has a whole part of 16 bits. -/
theorem IsFixed.toInt32_lt {a : α} {n : ℤ} (h : IsFixed a n) (hn : n < 2 ^ 31) :
    Scalar.toInt32 a < 2 ^ 15 := by
  have hzero : towardZero ((n : ℚ) / 65536) < 2 ^ 15 := by
    unfold towardZero
    split_ifs with hnegative
    · have : (0 : ℤ) ≤ ⌊-((n : ℚ) / 65536)⌋ := Int.floor_nonneg.mpr (by linarith)
      omega
    · have hn' : (n : ℚ) < 2 ^ 31 := by exact_mod_cast hn
      rw [Int.floor_lt]
      push_cast
      linarith
  rw [Scalar.toInt32, LawfulScalar.truncate _ _ h]
  omega

theorem denotes_half : Denotes (1 / 2 : α) (1 / 2) := by
  have h1 : Denotes (1 : α) ((1 : ℤ) : ℚ) := LawfulScalar.ofInt (by norm_num)
  have h2 : Denotes (2 : α) ((2 : ℤ) : ℚ) := LawfulScalar.ofInt (by norm_num)
  have := LawfulScalar.div h1 h2 (by norm_num) ⟨1, 1, by norm_num, by norm_num, by norm_num⟩
  simpa using this

theorem IsFixed.toInt32_roundUp {a : α} {n : ℤ} (h : IsFixed a (65536 * n)) (hlow : -2 ^ 31 ≤ n)
    (hhigh : n < 2 ^ 31) : Scalar.toInt32 (Scalar.roundUp a) = n := by
  have hhalf : IsFixed (1 / 2 : α) 32768 := by
    have := denotes_half (α := α)
    norm_num [IsFixed]
    exact this
  have hfloor := (h.add hhalf (by rw [abs_lt]; omega)).floor
  rw [show (65536 * n + 32768) / 65536 = n by omega] at hfloor
  exact hfloor.toInt32 hlow hhigh

theorem towardZero_half {n : ℤ} :
    towardZero (if n < 0 then n - 1 / 2 else n + 1 / 2) = n := by
  have hfloor (m : ℤ) : ⌊(m : ℚ) + 1 / 2⌋ = m := by
    rw [Int.floor_intCast_add]
    norm_num
  unfold towardZero
  by_cases hn : n < 0
  · have hq : (n : ℚ) < 0 := by exact_mod_cast hn
    rw [if_pos hn, if_pos (by linarith), neg_sub, sub_eq_add_neg, add_comm, ← Int.cast_neg, hfloor,
      neg_neg]
  · have hq : (0 : ℚ) ≤ n := by exact_mod_cast Int.not_lt.mp hn
    rw [if_neg hn, if_neg (by linarith), hfloor]

theorem denotes_halfFurther {a b : α} {n : ℤ} (hsign : a < 0 ↔ n < 0) (hb : Denotes b n)
    (hn : |n| < 2 ^ 52) :
    Denotes (if a < 0 then b - 1 / 2 else b + 1 / 2) (if n < 0 then n - 1 / 2 else n + 1 / 2) := by
  rw [abs_lt] at hn
  rw [if_congr hsign rfl rfl]
  split_ifs
  · have hhalf : (n : ℚ) - 1 / 2 = ((2 * n - 1 : ℤ) : ℚ) / 2 := by push_cast; ring
    refine LawfulScalar.sub hb denotes_half (hhalf ▸ storable_half ?_)
    rw [abs_lt]
    omega
  · have hhalf : (n : ℚ) + 1 / 2 = ((2 * n + 1 : ℤ) : ℚ) / 2 := by push_cast; ring
    refine LawfulScalar.add hb denotes_half (hhalf ▸ storable_half ?_)
    rw [abs_lt]
    omega

theorem IsFixed.toFixed_saturated {a : α} {n : ℤ} (h : IsFixed a n) (hn : |n| < 2 ^ 52) :
    Scalar.toFixed a = max (-0x80000000) (min 0x7fffffff n) := by
  have h65536 : Denotes (65536 : α) ((65536 : ℤ) : ℚ) := LawfulScalar.ofInt (by norm_num)
  have heq : (n : ℚ) / 65536 * ((65536 : ℤ) : ℚ) = n := by
    push_cast
    ring
  have hscaled := LawfulScalar.mul h h65536
    (by rw [heq]; exact storable_intCast (hn.trans (by norm_num)))
  rw [heq] at hscaled
  have hmoved := denotes_halfFurther (h.lt_iff isFixed_zero) hscaled hn
  rw [Scalar.toFixed, Scalar.toInt32, LawfulScalar.truncate _ _ hmoved, towardZero_half]

theorem isFixed_ofFixed {n : ℤ} (h : |n| < 2 ^ 53) : IsFixed (ofFixed n : α) n := by
  have h65536 : Denotes (65536 : α) ((65536 : ℤ) : ℚ) := LawfulScalar.ofInt (by norm_num)
  exact LawfulScalar.div (LawfulScalar.ofInt h) h65536 (by norm_num)
    (by exact_mod_cast storable_fixed h)

theorem halfAway_intCast (n : ℤ) : halfAway n = n := by
  have h : ⌊(1 / 2 : ℚ)⌋ = 0 := by norm_num
  unfold halfAway
  split_ifs
  · rw [← Int.cast_neg, Int.floor_intCast_add, h, add_zero, neg_neg]
  · rw [Int.floor_intCast_add, h, add_zero]

theorem IsFixed.round {a : α} {n : ℤ} (h : IsFixed a (65536 * n)) :
    IsFixed (Scalar.round a) (65536 * n) := by
  have := LawfulScalar.round (isFixed_whole.mp h)
  rwa [halfAway_intCast, ← isFixed_whole] at this

theorem IsFixed.half {a : α} {n : ℤ} (h : IsFixed a (2 * n)) (hn : |n| < 2 ^ 53) :
    IsFixed (1 / 2 * a) n := by
  have heq : (1 / 2 : ℚ) * (((2 * n : ℤ) : ℚ) / 65536) = n / 65536 := by push_cast; ring
  have := LawfulScalar.mul denotes_half h (by rw [heq]; exact storable_fixed hn)
  rwa [heq] at this

end Scalar

end Letterform
