import Letterform.Proofs.Number.Double

/-!
# Numbers that single precision keeps

Single precision has mantissas of 24 bits. A number that is this short is not changed by rounding
to it. So the number that a 2.14 word stands for has this word again.
-/

namespace Letterform

open LawfulScalar (Denotes)

class LawfulNarrow (α : Type) [Scalar α] [LawfulScalar α] : Prop where
  narrow {a : α} {n : ℤ} {k : ℕ} : Denotes a (n / 2 ^ k) → |n| < 2 ^ 24 → k ≤ 126 →
    Denotes (Scalar.narrow a) (n / 2 ^ k)

-- ---------------------------------------------------------------------------
-- 2.14 words
-- ---------------------------------------------------------------------------

namespace Scalar

variable {α : Type} [Scalar α] [LawfulScalar α]

/-- A number is so many parts of 16384. -/
def IsTwoDotFourteen (a : α) (n : ℤ) : Prop := Denotes a (n / 16384)

theorem isTwoDotFourteen_ofTwoDotFourteen {n : ℤ} (h : |n| < 2 ^ 53) :
    IsTwoDotFourteen (ofTwoDotFourteen n : α) n := by
  have h16384 : Denotes (16384 : α) ((16384 : ℤ) : ℚ) := LawfulScalar.ofInt (by norm_num)
  exact LawfulScalar.div (LawfulScalar.ofInt h) h16384 (by norm_num)
    ⟨n, 14, h, by norm_num, by norm_num⟩

theorem isTwoDotFourteen_zero : IsTwoDotFourteen (0 : α) 0 := by
  have := LawfulScalar.ofInt (α := α) (n := 0) (by norm_num)
  rw [Int.cast_zero] at this
  rw [IsTwoDotFourteen, Int.cast_zero, zero_div]
  exact this

theorem isTwoDotFourteen_one : IsTwoDotFourteen (1 : α) 0x4000 := by
  have := LawfulScalar.ofInt (α := α) (n := 1) (by norm_num)
  rw [Int.cast_one] at this
  rw [IsTwoDotFourteen]
  norm_num
  exact this

theorem IsTwoDotFourteen.toTwoDotFourteen [LawfulNarrow α] {a : α} {n : ℤ}
    (h : IsTwoDotFourteen a n) (hlow : -0x8000 ≤ n) (hhigh : n < 0x8000) :
    Scalar.toTwoDotFourteen a = n := by
  have h16384 : Denotes (16384 : α) ((16384 : ℤ) : ℚ) := LawfulScalar.ofInt (by norm_num)
  have hpow : (n : ℚ) / 16384 = n / 2 ^ 14 := by norm_num
  have hwhole : (n : ℚ) / 2 ^ 14 * ((16384 : ℤ) : ℚ) = n / 2 ^ 0 := by
    push_cast
    ring
  rw [IsTwoDotFourteen, hpow] at h
  have hshort := LawfulNarrow.narrow h (by rw [abs_lt]; omega) (by norm_num)
  have hproduct := LawfulScalar.mul hshort h16384
    (hwhole ▸ ⟨n, 0, by rw [abs_lt]; omega, by norm_num, rfl⟩)
  rw [hwhole] at hproduct
  have hscaled := LawfulNarrow.narrow hproduct (by rw [abs_lt]; omega) (by norm_num)
  rw [pow_zero, div_one] at hscaled
  have hzero : Denotes (0 : α) ((0 : ℤ) : ℚ) := LawfulScalar.ofInt (by norm_num)
  have hsign : narrow a < 0 ↔ n < 0 := by
    rw [LawfulScalar.lt_iff hshort hzero, div_lt_iff₀ (by norm_num)]
    simp
  have hhalves : (if n < 0 then (n : ℚ) - 1 / 2 else n + 1 / 2) =
      ((if n < 0 then 2 * n - 1 else 2 * n + 1 : ℤ) : ℚ) / 2 ^ 1 := by
    split_ifs <;> push_cast <;> ring
  have hmoved := denotes_halfFurther hsign hscaled (by rw [abs_lt]; omega)
  rw [hhalves] at hmoved
  have hrounded := LawfulNarrow.narrow hmoved (by rw [abs_lt]; omega) (by norm_num)
  rw [← hhalves] at hrounded
  rw [Scalar.toTwoDotFourteen, Scalar.toInt16, LawfulScalar.truncate _ _ hrounded, towardZero_half]
  omega

end Scalar

-- ---------------------------------------------------------------------------
-- Doubles
-- ---------------------------------------------------------------------------

namespace Double

open Float.Model (Format UnpackedFloat totalExponent)
open Float.Model.UnpackedFloat

theorem exists_single {m c k : ℕ} {e : ℤ} (hm : 0 < m) (h : (m : ℚ) * 2 ^ e = c / 2 ^ k)
    (hc : c < 2 ^ 24) (hk : k ≤ 126) :
    ∃ (M : ℕ) (t : ℤ), 0 < M ∧ M.log2 = 23 ∧ -149 ≤ t ∧ t ≤ 0 ∧ (m : ℚ) * 2 ^ e = M * 2 ^ t := by
  have hpos : 0 < c := by
    rcases Nat.eq_zero_or_pos c with rfl | hpos
    · rw [Nat.cast_zero, zero_div] at h
      exact absurd h (mul_pos (by exact_mod_cast hm) (two_zpow_pos e)).ne'
    · exact hpos
  have hlog : c.log2 < 24 := (Nat.log2_lt hpos.ne').mpr hc
  obtain ⟨j, hj⟩ : ∃ j, c.log2 + j = 23 := ⟨23 - c.log2, by omega⟩
  refine ⟨c * 2 ^ j, -(k : ℤ) - j, by positivity, ?_, by omega, by omega, ?_⟩
  · rw [log2_mul_two_pow hpos, hj]
  · rw [h, zpow_sub₀ (by norm_num), zpow_neg, zpow_natCast, zpow_natCast]
    push_cast
    field_simp

theorem standsFor_narrow {x : Float} {n : ℤ} {k : ℕ} (h : StandsFor x (n / 2 ^ k))
    (hn : |n| < 2 ^ 24) (hk : k ≤ 126) : StandsFor (narrow x) (n / 2 ^ k) := by
  unfold narrow
  rcases h.cases with ⟨s, hu, -⟩ | ⟨s, m, e, hm, hu, -, -, hq⟩
  · rw [show x.toModel.unpack = .zero s from hu]
    exact h
  · rw [show x.toModel.unpack = .finite s m e hm from hu]
    have habs : (m : ℚ) * 2 ^ e = n.natAbs / 2 ^ k := by
      rw [← abs_apply s, ← hq, abs_div, abs_of_pos (show (0 : ℚ) < 2 ^ k by positivity),
        Nat.cast_natAbs, Int.cast_abs]
    obtain ⟨M, t, hM, hlog, hlow, hhigh, heq⟩ :=
      exists_single hm habs (by rw [abs_lt] at hn; omega) hk
    have hkept : Format.binary32.targetExponent (totalExponent M t) = t := by
      have hbits : (Format.binary32.mantissaBits : ℤ) = 24 := rfl
      have hleast : Format.binary32.minExponent = -149 := rfl
      rw [Format.targetExponent, totalExponent, hbits, hleast, hlog]
      omega
    have hbias : (Format.binary32.exponentBias : ℤ) = 127 := rfl
    dsimp only
    rw [round_exact s hm hM hkept heq,
      unpack_pack_normal s hM hlog (by rw [hbias]; push_cast; omega)
        (by rw [hbias]; push_cast; omega)]
    have hrep := representable_of_standsFor h
    rw [hq, apply_mul, heq, ← apply_mul] at hrep ⊢
    exact holds_round s hM hrep

instance : LawfulNarrow Float where
  narrow := standsFor_narrow

end Double

end Letterform
