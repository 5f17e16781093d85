import Letterform.Proofs.Number.Gridded

/-!
# Whole numbers that fit in 32 bits

A double that is too large for 32 bits is brought to an end of their range, also where rounding it
up has moved it. So a whole number that comes out inside the range is the number that went in. There
a whole number that is close to the middle of two others is the middle.
-/

namespace Letterform.Double

open Float.Model (UnpackedFloat)

-- ---------------------------------------------------------------------------
-- Out of range
-- ---------------------------------------------------------------------------

theorem le_abs_towardZero {q : ℚ} {n : ℤ} (h : (n : ℚ) ≤ |q|) :
    n ≤ |Scalar.towardZero q| := by
  have hfloor : n ≤ ⌊|q|⌋ := Int.le_floor.mpr h
  unfold Scalar.towardZero
  split_ifs with hq
  · rw [abs_of_neg hq] at hfloor
    exact hfloor.trans (le_abs_self _ |>.trans_eq (abs_neg _).symm)
  · rw [abs_of_nonneg (not_lt.mp hq)] at hfloor
    exact hfloor.trans (le_abs_self _)

/-- What lies far above the range of 32 bits is brought to an end of it. -/
theorem toInt32_of_far {x : Float}
    (h : ∀ y q, StandsFor y q → |q| < 2 ^ 40 → y < Scalar.abs x) :
    Scalar.toInt32 x = -0x80000000 ∨ Scalar.toInt32 x = 0x7fffffff := by
  have hbound : StandsFor (Float.ofInt (2 ^ 32)) ((2 ^ 32 : ℤ) : ℚ) := standsFor_ofInt (by norm_num)
  have hlt := h _ _ hbound (by norm_num)
  have hfinite (hx : (unpacked x).isFinite = true) :
      Scalar.toInt32 x = -0x80000000 ∨ Scalar.toInt32 x = 0x7fffffff := by
    have hx := standsFor_of_isFinite hx
    have hq := le_abs_towardZero ((lt_iff hbound (standsFor_abs hx)).mp hlt).le
    rw [Scalar.toInt32, LawfulScalar.truncate _ _ hx]
    rcases le_abs.mp hq with hq | hq
    · right
      omega
    · left
      omega
  have htoInt32 : Scalar.toInt32 x = max (-0x80000000) (min 0x7fffffff
    ((unpacked x).toInt (-0x80000000) 0x7fffffff)) := rfl
  have hu := isUnpacked_unpacked x
  generalize hux : unpacked x = u at hu
  cases hu with
  | notANumber =>
    rw [abs_notANumber hux, lt_iff_compare, hux] at hlt
    rcases hbound.cases with ⟨s, hv, -⟩ | ⟨s, m, e, hm, hv, -⟩ <;> rw [hv] at hlt <;> cases hlt
  | infinity s =>
    rw [htoInt32, hux]
    cases s with
    | negative => exact .inl rfl
    | positive => exact .inr rfl
  | zero s => exact hfinite (by rw [hux]; rfl)
  | finite s m e hm => exact hfinite (by rw [hux]; rfl)

/-- A whole number that is rounded up to one inside the range of 32 bits is that number. -/
theorem toInt32_roundUp_whole {x : Float} {n : ℤ} (h : StandsFor x n)
    (hlow : -0x80000000 < Scalar.toInt32 (Scalar.roundUp x))
    (hhigh : Scalar.toInt32 (Scalar.roundUp x) < 0x7fffffff) :
    Scalar.toInt32 (Scalar.roundUp x) = n := by
  rcases roundUp_whole h with hround | hfar
  · have hsaturated := (Scalar.isFixed_whole (α := Float).mpr hround).toInt32_saturated
    omega
  · rcases toInt32_of_far hfar with hend | hend <;> omega

theorem standsFor_toInt32 {x : Float} (h : (x == Float.ofInt (Scalar.toInt32 x)) = true) :
    StandsFor x (Scalar.toInt32 x) := by
  have hmem : -0x80000000 ≤ Scalar.toInt32 x ∧ Scalar.toInt32 x ≤ 0x7fffffff :=
    LawfulScalar.truncate_mem (by norm_num)
  refine standsFor_of_beq h (standsFor_ofInt (n := Scalar.toInt32 x) ?_)
  rw [abs_lt]
  omega

-- ---------------------------------------------------------------------------
-- Halfway
-- ---------------------------------------------------------------------------

theorem isGridded_of_standsFor {x : Float} {k : ℤ} (h : StandsFor x (k / 1024)) : IsGridded x :=
  fun _ hq => ⟨k, hq.unique h⟩

theorem two_mul_eq_of_isClose {u v x : Float} {m n k : ℤ} (hu : StandsFor u m)
    (hv : StandsFor v n) (hx : StandsFor x k) (hm : |m| < 2 ^ 32) (hn : |n| < 2 ^ 32)
    (h : Scalar.isClose (1 / 2 * (u + v)) x = true) : 2 * k = m + n := by
  rw [abs_lt] at hm hn
  have hfixed {x : Float} {n : ℤ} (h : StandsFor x n) : Scalar.IsFixed x (65536 * n) :=
    Scalar.isFixed_whole.mpr h
  have hsum := (hfixed hu).add (hfixed hv) (by rw [abs_lt]; omega)
  rw [show 65536 * m + 65536 * n = 2 * (32768 * (m + n)) by ring] at hsum
  have hhalf : StandsFor (1 / 2 * (u + v)) ((32768 * (m + n) : ℤ) / 65536) :=
    hsum.half (by rw [abs_lt]; omega)
  have hmiddle : StandsFor (1 / 2 * (u + v)) ((512 * (m + n) : ℤ) / 1024) := by
    have heq : ((32768 * (m + n) : ℤ) : ℚ) / 65536 = (512 * (m + n) : ℤ) / 1024 := by
      push_cast
      ring
    exact heq ▸ hhalf
  have hwhole : StandsFor x ((1024 * k : ℤ) / 1024) := by
    rwa [Int.cast_mul, Int.cast_ofNat, mul_div_cancel_left₀ _ (by norm_num)]
  obtain ⟨j, hj, hj'⟩ :=
    (isGridded_of_standsFor hmiddle).eq_of_isClose (isGridded_of_standsFor hwhole) h
  have hsame := (hmiddle.unique hj).trans (hj'.unique hwhole)
  rw [div_left_inj' (by norm_num), Int.cast_inj] at hsame
  omega

-- ---------------------------------------------------------------------------
-- Units
-- ---------------------------------------------------------------------------

theorem standsFor_one : StandsFor (1 : Float) 1 := by
  exact_mod_cast standsFor_ofInt (n := 1) (by norm_num)

theorem standsFor_div_one {x : Float} {q : ℚ} (h : StandsFor x q) : StandsFor (x / 1) q := by
  have := standsFor_div h standsFor_one one_ne_zero
    (by rw [div_one]; exact representable_of_standsFor h)
  rwa [div_one] at this

theorem hypot_unit {x y : Float} (hx : StandsFor x 1) (hy : StandsFor y 0) :
    Scalar.hypot x y = 1 := by
  have hnot {x : Float} (hx : StandsFor x 1) : unpacked x ≠ .zero .negative := fun hzero =>
    one_ne_zero (hx.unique (standsFor_of_zero hzero))
  obtain rfl : x = 1 :=
    eq_of_standsFor hx standsFor_one (iff_of_false (hnot hx) (hnot standsFor_one))
  by_cases hsign : unpacked y = .zero .negative
  · obtain rfl : y = -0 := eq_of_standsFor hy (standsFor_of_zero rfl) (iff_of_true hsign rfl)
    decide +kernel
  · obtain rfl : y = 0 := eq_of_standsFor hy (standsFor_of_zero rfl) (iff_of_false hsign nofun)
    decide +kernel

end Letterform.Double
