import Letterform.Proofs.Number.Quotient
import Letterform.Proofs.Number.Whole

/-!
# The 16.16 word of any double

A number that is no multiple of 1/65536 is rounded when half a unit has been added to it, so the
word may miss the nearest one. It is still less than one unit off, unless the number is out of
range.
-/

namespace Letterform.Double

open Float.Model (UnpackedFloat totalExponent)
open Float.Model.UnpackedFloat
open Scalar (towardZero)

-- ---------------------------------------------------------------------------
-- Sums and differences
-- ---------------------------------------------------------------------------

variable {n k : ℤ}

theorem exists_holds_round (s : Sign) {m : ℕ} {e : ℤ} (hm : 0 < m) (hn : -1022 ≤ n) (hk : k ≤ 1022)
    (hlow : (2 : ℚ) ^ n ≤ m * 2 ^ e) (hhigh : (m : ℚ) * 2 ^ e < 2 ^ k) :
    ∃ r, Holds (stored (UnpackedFloat.round .binary64 s m e)) r ∧
      |r - s.apply m * 2 ^ e| ≤ 2 ^ (k - 53) := by
  have hlog : n ≤ m.log2 + e := le_log2_of_zpow_lt
    (hlow.trans_lt (mul_lt_mul_of_pos_right (lt_add_one _) (two_zpow_pos e)))
  have hlog' : m.log2 + e < k := by
    have hpow := (two_zpow_le_scaled (Nat.log2_self_le hm.ne') e).trans_lt hhigh
    exact (zpow_lt_zpow_iff_right₀ (by norm_num)).mp hpow
  obtain ⟨M, t, hM, hround, hc, -, herror⟩ := exists_round s (e := e) hm
    (by rw [totalExponent]; omega)
  have hunit : |(M : ℚ) * 2 ^ t - m * 2 ^ e| ≤ 2 ^ (k - 53) :=
    herror.trans (zpow_le_zpow_right₀ (by norm_num) (by omega))
  have hbelow : (M : ℚ) * 2 ^ t ≤ 2 ^ (k + 1) := by
    have hsmall : (2 : ℚ) ^ (k - 53) ≤ 2 ^ k := zpow_le_zpow_right₀ (by norm_num) (by omega)
    have hdouble : (2 : ℚ) ^ (k + 1) = 2 * 2 ^ k := by rw [zpow_add_one₀ (by norm_num), mul_comm]
    have := (abs_le.mp hunit).2
    linarith
  refine ⟨s.apply M * 2 ^ t, ?_, ?_⟩
  · rw [hround]
    exact holds_stored_finite s hM hc (le_of_scaled_le hc (by omega) hbelow)
  · rw [apply_mul, apply_mul s m, ← mul_sub, abs_mul]
    cases s <;> simpa [Sign.apply] using hunit

theorem exists_holds_normalize {c e : ℤ} {s : Sign} (hn : -1022 ≤ n) (hk : k ≤ 1022)
    (hlow : (2 : ℚ) ^ n ≤ |(c : ℚ) * 2 ^ e|) (hhigh : |(c : ℚ) * 2 ^ e| < 2 ^ k) :
    ∃ r, Holds (stored (UnpackedFloat.normalize .binary64 c e s)) r ∧
      |r - c * 2 ^ e| ≤ 2 ^ (k - 53) := by
  rw [abs_mul, abs_of_pos (two_zpow_pos e), ← Int.cast_abs] at hlow hhigh
  unfold UnpackedFloat.normalize
  rcases lt_trichotomy c 0 with hc | rfl | hc
  · rw [Int.compare_eq_lt.mpr hc]
    obtain ⟨j, rfl⟩ := Int.eq_negSucc_of_lt_zero hc
    exact exists_holds_round .negative (by omega) hn hk hlow hhigh
  · rw [abs_zero, Int.cast_zero, zero_mul] at hlow
    exact absurd hlow (not_le_of_gt (two_zpow_pos n))
  · rw [Int.compare_eq_gt.mpr hc]
    lift c to ℕ using hc.le
    rw [abs_of_nonneg (Int.natCast_nonneg c)] at hlow hhigh
    exact exists_holds_round .positive (m := c) (by omega) hn hk hlow hhigh

theorem exists_standsFor_add {x y : Float} {p q : ℚ} (hx : StandsFor x p) (hy : StandsFor y q)
    (hn : -1022 ≤ n) (hk : k ≤ 1022) (hlow : (2 : ℚ) ^ n ≤ |p + q|) (hhigh : |p + q| < 2 ^ k) :
    ∃ r, StandsFor (x + y) r ∧ |r - (p + q)| ≤ 2 ^ (k - 53) := by
  have hexact (h : p = 0 ∨ q = 0) : Representable (p + q) := by
    rcases h with rfl | rfl
    · exact (zero_add q).symm ▸ representable_of_standsFor hy
    · exact (add_zero p).symm ▸ representable_of_standsFor hx
  by_cases hzero : p = 0 ∨ q = 0
  · refine ⟨p + q, standsFor_add hx hy (hexact hzero), ?_⟩
    rw [sub_self, abs_zero]
    exact (two_zpow_pos _).le
  unfold StandsFor
  rw [unpacked_add]
  obtain ⟨hp, hq⟩ := not_or.mp hzero
  obtain ⟨s, m, e, hm, hu, -, -, rfl⟩ := hx.cases.resolve_left fun ⟨_, _, h⟩ => hp h
  obtain ⟨s', m', e', hm', hv, -, -, rfl⟩ := hy.cases.resolve_left fun ⟨_, _, h⟩ => hq h
  rw [hu, hv]
  simp only [UnpackedFloat.add]
  rw [← decreaseExponent_value s m (min_le_left e e'),
    ← decreaseExponent_value s' m' (min_le_right e e'), ← add_mul, ← Int.cast_add] at hlow hhigh ⊢
  exact exists_holds_normalize hn hk hlow hhigh

theorem exists_multiple {x : Float} {q : ℚ} (h : StandsFor x q) :
    ∃ c : ℤ, q = c * 2 ^ (-1074 : ℤ) := by
  obtain ⟨c, g, rfl, -, hg, -⟩ := representable_of_standsFor h
  obtain ⟨j, rfl⟩ : ∃ j : ℕ, g = j + -1074 := ⟨(g + 1074).toNat, by omega⟩
  refine ⟨c * 2 ^ j, ?_⟩
  rw [zpow_add₀ (by norm_num), zpow_natCast, Int.cast_mul, Int.cast_pow, Int.cast_ofNat, mul_assoc]

/-- Only equal doubles have the difference zero, since the ones that differ least are stored without
rounding. -/
theorem eq_of_standsFor_sub {x y : Float} {p q : ℚ} (hx : StandsFor x p) (hy : StandsFor y q)
    (h : StandsFor (x - y) 0) : p = q := by
  by_contra hne
  by_cases hsmall : |p - q| < 2 ^ (-1022 : ℤ)
  · obtain ⟨c, hp⟩ := exists_multiple hx
    obtain ⟨c', hq⟩ := exists_multiple hy
    have hdiff : p - q = (c - c' : ℤ) * 2 ^ (-1074 : ℤ) := by
      rw [hp, hq, Int.cast_sub, sub_mul]
    have hexact : Representable (p - q) := by
      refine ⟨_, _, hdiff, ?_, le_rfl, by norm_num⟩
      rw [hdiff, abs_mul, abs_of_pos (two_zpow_pos _), show (-1022 : ℤ) = 52 + -1074 by norm_num,
        zpow_add₀ (by norm_num), mul_lt_mul_iff_left₀ (two_zpow_pos _)] at hsmall
      have : |c - c'| < 2 ^ 52 := by exact_mod_cast hsmall
      omega
    exact sub_ne_zero.mpr hne ((standsFor_sub hx hy hexact).unique h)
  · have hzero := (isFar_sub_zpow hx hy le_rfl (not_lt.mp hsmall)).le_abs h
    rw [abs_zero] at hzero
    exact absurd hzero (not_le_of_gt (two_zpow_pos _))

theorem standsFor_of_isWhole {x : Float} {q : ℚ} (hx : StandsFor x q)
    (h : Scalar.isWhole x = true) : StandsFor x ⌊q⌋ := by
  have hzero : StandsFor (x - floor x) ((0 : ℤ) : ℚ) :=
    standsFor_of_beq h (standsFor_ofInt (n := 0) (by norm_num))
  have heq := eq_of_standsFor_sub hx (standsFor_floor hx) (by exact_mod_cast hzero)
  exact heq ▸ hx

-- ---------------------------------------------------------------------------
-- Words
-- ---------------------------------------------------------------------------

theorem standsFor_sixteenBits : StandsFor (65536 : Float) (2 ^ 16) := by
  have := standsFor_ofInt (n := 65536) (by norm_num)
  norm_num at this ⊢
  exact this

theorem abs_towardZero_sub_lt {v r : ℚ}
    (h : |r - (if v < 0 then v - 1 / 2 else v + 1 / 2)| ≤ 1 / 4) :
    |(towardZero r : ℚ) - v| < 1 := by
  rw [abs_le] at h
  unfold towardZero
  split_ifs at h with hv
  · rw [if_pos (by linarith), abs_lt]
    have := Int.floor_le (-r)
    have := Int.lt_floor_add_one (-r)
    push_cast
    constructor <;> linarith
  · rw [if_neg (by linarith), abs_lt]
    have := Int.floor_le r
    have := Int.lt_floor_add_one r
    constructor <;> linarith

theorem toFixed_eq (x : Float) :
    Scalar.toFixed x = Scalar.toInt32 (if x < 0 then x * 65536 - 1 / 2 else x * 65536 + 1 / 2) := rfl

theorem lt_zero_iff {x : Float} {q : ℚ} (hx : StandsFor x q) : x < 0 ↔ q < 0 :=
  lt_iff hx (standsFor_of_zero (s := .positive) rfl)

theorem toFixed_near {x : Float} {q : ℚ} (hx : StandsFor x q) (h : |q * 2 ^ 16| < 2 ^ 42) :
    ∃ n : ℤ, Scalar.toFixed x = max (-0x80000000) (min 0x7fffffff n) ∧ |n - q * 2 ^ 16| < 1 := by
  have hscaled : StandsFor (x * 65536) (q * 2 ^ 16) := by
    refine (mul_two_pow_cases hx standsFor_sixteenBits (by norm_num)).resolve_right ?_
    rintro ⟨-, hlarge⟩
    have := (zpow_lt_zpow_iff_right₀ (by norm_num)).mp
      (hlarge.trans (h.trans_eq (zpow_natCast (2 : ℚ) 42).symm))
    omega
  have hsign : x < 0 ↔ q * 2 ^ 16 < 0 := by
    rw [lt_zero_iff hx]
    constructor <;> intro <;> linarith
  generalize q * 2 ^ 16 = v at h hscaled hsign
  obtain ⟨hlow, hhigh⟩ := abs_lt.mp h
  obtain ⟨r, hr, herror⟩ :
      ∃ r, StandsFor (if x < 0 then x * 65536 - 1 / 2 else x * 65536 + 1 / 2) r ∧
        |r - (if v < 0 then v - 1 / 2 else v + 1 / 2)| ≤ 2 ^ (43 - 53 : ℤ) := by
    rw [if_congr hsign rfl rfl]
    split_ifs with hv
    · rw [sub_eq_add, sub_eq_add_neg v]
      refine exists_standsFor_add (n := -1) hscaled (standsFor_neg standsFor_half) (by norm_num)
        (by norm_num) ?_ ?_
      · rw [abs_of_neg (by linarith)]
        norm_num
        linarith
      · rw [abs_of_neg (by linarith)]
        norm_num at hlow ⊢
        linarith
    · refine exists_standsFor_add (n := -1) hscaled standsFor_half (by norm_num) (by norm_num) ?_ ?_
      · rw [abs_of_pos (by linarith)]
        norm_num
        linarith
      · rw [abs_of_pos (by linarith)]
        norm_num at hhigh ⊢
        linarith
  refine ⟨towardZero r, ?_, abs_towardZero_sub_lt (herror.trans (by norm_num))⟩
  rw [toFixed_eq, Scalar.toInt32, LawfulScalar.truncate _ _ hr]

theorem toFixed_far {x : Float} {q : ℚ} (hx : StandsFor x q) (h : 2 ^ 42 ≤ |q * 2 ^ 16|) :
    Scalar.toFixed x = -0x80000000 ∨ Scalar.toFixed x = 0x7fffffff := by
  rw [toFixed_eq]
  suffices hfar : IsFar (2 ^ 40)
      (unpacked (if x < 0 then x * 65536 - 1 / 2 else x * 65536 + 1 / 2)) from
    toInt32_of_far fun y p hy hp => hfar.lt_abs hy hp
  rcases mul_two_pow_cases hx standsFor_sixteenBits (by norm_num) with hscaled | ⟨⟨s, hs⟩, -⟩
  · have hnear (d : ℚ) (hd : |d| = 1 / 2) : (2 : ℚ) ^ 40 ≤ |q * 2 ^ 16 + d| := by
      have := abs_sub_abs_le_abs_add (q * 2 ^ 16) d
      norm_num [hd] at this h ⊢
      linarith
    split_ifs
    · rw [sub_eq_add]
      exact isFar_add hscaled (standsFor_neg standsFor_half) (hnear _ (by norm_num [abs_neg]))
    · exact isFar_add hscaled standsFor_half (hnear _ (by norm_num))
  · right
    refine ⟨s, ?_⟩
    split_ifs
    · rw [sub_eq_add]
      exact unpacked_add_infinity hs (standsFor_neg standsFor_half)
    · exact unpacked_add_infinity hs standsFor_half

theorem abs_clamp_sub_lt_iff {n : ℤ} {v : ℚ} (h : |n - v| < 1) :
    |((max (-0x80000000) (min 0x7fffffff n) : ℤ) : ℚ) - v| < 1 ↔
      -0x80000000 - 1 < v ∧ v < 0x80000000 := by
  rw [abs_lt] at h ⊢
  rcases lt_or_ge n (-0x80000000) with hlow | hlow
  · have hn : (n : ℚ) + 1 ≤ -0x80000000 := by exact_mod_cast hlow
    rw [show max (-0x80000000) (min 0x7fffffff n) = -0x80000000 by omega]
    push_cast
    exact ⟨fun ⟨_, _⟩ => ⟨by linarith, by linarith⟩, fun ⟨_, _⟩ => ⟨by linarith, by linarith⟩⟩
  rcases le_or_gt n 0x7fffffff with hhigh | hhigh
  · have hn : (-0x80000000 : ℚ) ≤ n := by exact_mod_cast hlow
    have hn' : (n : ℚ) ≤ 0x7fffffff := by exact_mod_cast hhigh
    rw [show max (-0x80000000) (min 0x7fffffff n) = n by omega]
    exact iff_of_true h ⟨by linarith, by linarith⟩
  · have hn : (0x7fffffff : ℚ) + 1 ≤ n := by exact_mod_cast hhigh
    rw [show max (-0x80000000) (min 0x7fffffff n) = 0x7fffffff by omega]
    push_cast
    exact ⟨fun ⟨_, _⟩ => ⟨by linarith, by linarith⟩, fun ⟨_, _⟩ => ⟨by linarith, by linarith⟩⟩

/-- The word of a number is less than one unit off exactly if the number is less than one unit out
of range. -/
theorem toFixed_near_iff {x : Float} {q : ℚ} (hx : StandsFor x q) :
    |(Scalar.toFixed x : ℚ) - q * 2 ^ 16| < 1 ↔
      -0x80000000 - 1 < q * 2 ^ 16 ∧ q * 2 ^ 16 < 0x80000000 := by
  by_cases h : |q * 2 ^ 16| < 2 ^ 42
  · obtain ⟨n, hword, hn⟩ := toFixed_near hx h
    rw [hword]
    exact abs_clamp_sub_lt_iff hn
  · have hfar := not_lt.mp h
    have hword : |(Scalar.toFixed x : ℚ)| ≤ 0x80000000 := by
      rcases toFixed_far hx hfar with hword | hword <;> rw [hword] <;> norm_num
    generalize q * 2 ^ 16 = v at hfar
    refine iff_of_false (fun hnear => ?_) fun ⟨hlow, hhigh⟩ => ?_
    · have := abs_sub_abs_le_abs_sub v (Scalar.toFixed x : ℚ)
      rw [abs_sub_comm] at this
      norm_num at hfar
      linarith
    · rcases le_abs.mp hfar with hfar | hfar <;> norm_num at hfar <;> linarith

end Letterform.Double
