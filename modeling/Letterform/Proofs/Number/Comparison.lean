import Letterform.Proofs.Number.Arithmetic
import Letterform.Proofs.Number.Lawful

/-!
# Comparing and rounding doubles

Doubles that stand for numbers compare as the numbers do, and the largest whole number below a
double, the nearest one and the one towards zero are those of the number it stands for.
-/

namespace Letterform.Double

open Float.Model (Format UnpackedFloat totalExponent)
open Float.Model.UnpackedFloat
open Scalar (halfAway towardZero halfAway_intCast)

-- ---------------------------------------------------------------------------
-- Order
-- ---------------------------------------------------------------------------

theorem IsCanonical.lt_of_exponent_lt {m m' : ℕ} {e e' : ℤ} (hc : IsCanonical m e)
    (hc' : IsCanonical m' e') (h : e < e') : (m : ℚ) * 2 ^ e < m' * 2 ^ e' := by
  have hfull : 2 ^ 52 ≤ m' := hc'.full.resolve_right (by have := hc.le; omega)
  have h2 : (1 : ℚ) ≤ 2 := by norm_num
  calc (m : ℚ) * 2 ^ e < 2 ^ 53 * 2 ^ e :=
        mul_lt_mul_of_pos_right (by exact_mod_cast hc.lt) (two_zpow_pos e)
    _ = 2 ^ 52 * 2 ^ (e + 1) := by rw [zpow_add_one₀ (by norm_num : (2 : ℚ) ≠ 0)]; ring
    _ ≤ m' * 2 ^ e' := mul_le_mul (by exact_mod_cast hfull) (zpow_le_zpow_right₀ h2 (by omega))
        (two_zpow_pos _).le (by positivity)

theorem IsCanonical.compare_eq {m m' : ℕ} {e e' : ℤ} (hc : IsCanonical m e)
    (hc' : IsCanonical m' e') :
    (compare e e').then (compare m m') = cmp ((m : ℚ) * 2 ^ e) (m' * 2 ^ e') := by
  rcases lt_trichotomy e e' with h | rfl | h
  · rw [compare_lt_iff_lt.mpr h, (hc.lt_of_exponent_lt hc' h).cmp_eq_lt]
    rfl
  · rw [compare_eq_iff_eq.mpr rfl, cmp_mul_pos_right (two_zpow_pos e),
      Nat.strictMono_cast.cmp_map_eq, cmp_eq_compare]
    rfl
  · rw [compare_gt_iff_gt.mpr h, (hc'.lt_of_exponent_lt hc h).cmp_eq_gt]
    rfl

theorem compare_unpacked {x y : Float} {p q : ℚ} (hx : StandsFor x p) (hy : StandsFor y q) :
    (unpacked x).compare (unpacked y) = some (cmp p q) := by
  have hpos {m : ℕ} {e : ℤ} (hm : 0 < m) : (0 : ℚ) < m * 2 ^ e :=
    mul_pos (by exact_mod_cast hm) (two_zpow_pos e)
  rcases hx.cases with ⟨s, hu, rfl⟩ | ⟨s, m, e, hm, hu, hc, he, rfl⟩ <;>
    rcases hy.cases with ⟨s', hv, rfl⟩ | ⟨s', m', e', hm', hv, hc', he', rfl⟩ <;> rw [hu, hv]
  · simp [UnpackedFloat.compare]
  · cases s' <;> simp only [UnpackedFloat.compare, Sign.apply, Int.cast_neg, Int.cast_natCast]
    · rw [((neg_mul _ _).trans_lt (neg_lt_zero.mpr (hpos hm'))).cmp_eq_gt]
    · rw [(hpos hm').cmp_eq_lt]
  · cases s <;> simp only [UnpackedFloat.compare, Sign.apply, Int.cast_neg, Int.cast_natCast]
    · rw [((neg_mul _ _).trans_lt (neg_lt_zero.mpr (hpos hm))).cmp_eq_lt]
    · rw [(hpos hm).cmp_eq_gt]
  · cases s <;> cases s' <;>
      simp only [UnpackedFloat.compare, Sign.apply, Int.cast_neg, Int.cast_natCast]
    · have hanti : StrictAnti fun q : ℚ => -q := fun _ _ h => neg_lt_neg h
      rw [hc.compare_eq hc', neg_mul, neg_mul, hanti.cmp_map_eq, cmp_swap]
    · rw [((neg_mul _ _).trans_lt (neg_lt_zero.mpr (hpos hm)) |>.trans (hpos hm')).cmp_eq_lt]
    · rw [((neg_mul _ _).trans_lt (neg_lt_zero.mpr (hpos hm')) |>.trans (hpos hm)).cmp_eq_gt]
    · rw [hc.compare_eq hc']

theorem lt_iff_compare (x y : Float) :
    x < y ↔ (unpacked x).compare (unpacked y) = some .lt := by
  show decide (((unpacked x).compare (unpacked y) == some .lt) = true) = true ↔ _
  rw [decide_eq_true_iff, beq_iff_eq]

theorem le_iff_compare (x y : Float) :
    x ≤ y ↔ ((unpacked x).compare (unpacked y)).any (·.isLE) = true := by
  show decide (((unpacked x).compare (unpacked y)).any (·.isLE) = true) = true ↔ _
  rw [decide_eq_true_iff]

theorem beq_iff_compare (x y : Float) :
    (x == y) = true ↔ (unpacked x).compare (unpacked y) = some .eq := by
  show ((unpacked x).compare (unpacked y) == some .eq) = true ↔ _
  rw [beq_iff_eq]

theorem lt_iff {x y : Float} {p q : ℚ} (hx : StandsFor x p) (hy : StandsFor y q) :
    x < y ↔ p < q := by
  rw [lt_iff_compare, compare_unpacked hx hy, Option.some.injEq, cmp_eq_lt_iff]

theorem le_iff {x y : Float} {p q : ℚ} (hx : StandsFor x p) (hy : StandsFor y q) :
    x ≤ y ↔ p ≤ q := by
  rw [le_iff_compare, compare_unpacked hx hy]
  rcases lt_trichotomy p q with h | rfl | h
  · simp [h.cmp_eq_lt, h.le]
  · simp
  · simp [h.cmp_eq_gt, h]

theorem beq_iff {x y : Float} {p q : ℚ} (hx : StandsFor x p) (hy : StandsFor y q) :
    (x == y) = true ↔ p = q := by
  rw [beq_iff_compare, compare_unpacked hx hy, Option.some.injEq, cmp_eq_eq_iff]

-- ---------------------------------------------------------------------------
-- Whole numbers
-- ---------------------------------------------------------------------------

theorem floor_shift (m k : ℕ) : ⌊(m : ℚ) / 2 ^ k⌋ = ((m >>> k : ℕ) : ℤ) := by
  rw [Nat.shiftRight_eq_div_pow, show ((2 : ℚ) ^ k) = ((2 ^ k : ℕ) : ℚ) by push_cast; rfl,
    Rat.floor_natCast_div_natCast]
  rfl

theorem scaled_eq_div (m : ℕ) {e : ℤ} (he : e < 0) : ((m : ℚ) * 2 ^ e) = m / 2 ^ (-e).toNat := by
  rw [div_eq_mul_inv, ← zpow_natCast, ← zpow_neg, Int.toNat_of_nonneg (by omega), neg_neg]

theorem scaled_eq_intCast (s : Sign) (m : ℕ) {e : ℤ} (he : 0 ≤ e) :
    ((s.apply m : ℚ) * 2 ^ e) = ((s.apply m * 2 ^ e.toNat : ℤ) : ℚ) := by
  push_cast
  rw [← zpow_natCast, Int.toNat_of_nonneg he]

/-- Taking the whole number that a rule picks, if the rule leaves whole numbers as they are. -/
theorem standsFor_withWhole {rule : Sign → ℕ → ℕ → ℕ} {f : ℚ → ℤ} (hf : ∀ n : ℤ, f n = n)
    (hrule : ∀ s m k, 0 < m → m < 2 ^ 53 → 0 < k → rule s m k < 2 ^ 53 ∧
      s.apply (rule s m k) = f (s.apply 1 * (m / 2 ^ k)))
    {x : Float} {q : ℚ} (h : StandsFor x q) : StandsFor (withWhole rule x) (f q) := by
  unfold withWhole
  rcases h.cases with ⟨s, hu, rfl⟩ | ⟨s, m, e, hm, hu, hc, he, rfl⟩
  · have h0 : f 0 = 0 := by exact_mod_cast hf 0
    rw [show x.toModel.unpack = .zero s from hu, h0, Int.cast_zero]
    exact h
  · rw [show x.toModel.unpack = .finite s m e hm from hu]
    dsimp only
    split_ifs with he0
    · rw [scaled_eq_intCast s m he0, hf, ← scaled_eq_intCast s m he0]
      exact h
    · obtain ⟨hlt, hval⟩ := hrule s m (-e).toNat hm hc.lt (by omega)
      rw [apply_mul, scaled_eq_div m (by omega), ← hval]
      exact standsFor_ofParts s hlt

theorem shiftRight_add_lt {m c k : ℕ} (hm : m < 2 ^ 53) (hk : 0 < k) (hc : c < 2 ^ k) :
    (m + c) >>> k < 2 ^ 53 := by
  have : 2 ^ 1 ≤ 2 ^ k := Nat.pow_le_pow_right (by norm_num) hk
  rw [Nat.shiftRight_eq_div_pow, Nat.div_lt_iff_lt_mul (by positivity)]
  omega

theorem neg_shift_ceil (m k : ℕ) :
    ⌊-((m : ℚ) / 2 ^ k)⌋ = -(((m + (2 ^ k - 1)) >>> k : ℕ) : ℤ) := by
  have hpos : 0 < 2 ^ k := by positivity
  have hdiv := Nat.div_add_mod (m + (2 ^ k - 1)) (2 ^ k)
  have hmod := Nat.mod_lt (m + (2 ^ k - 1)) hpos
  rw [Nat.shiftRight_eq_div_pow, show ((2 : ℚ) ^ k) = ((2 ^ k : ℕ) : ℚ) by push_cast; rfl]
  generalize 2 ^ k = d at *
  generalize (m + (d - 1)) / d = n at *
  generalize (m + (d - 1)) % d = r at *
  have hn : d * n + r + 1 = m + d := by omega
  have hnq : (d : ℚ) * n + r + 1 = m + d := by exact_mod_cast hn
  have hdq : (0 : ℚ) < d := by exact_mod_cast hpos
  have hrq : (r : ℚ) + 1 ≤ d := by exact_mod_cast hmod
  rw [Int.floor_eq_iff]
  push_cast
  constructor
  · rw [neg_le_neg_iff, div_le_iff₀ hdq]
    linarith
  · have : (n : ℚ) - 1 < m / d := by
      rw [lt_div_iff₀ hdq]
      have hr0 : (0 : ℚ) ≤ r := Nat.cast_nonneg r
      linarith
    linarith

theorem standsFor_floor {x : Float} {q : ℚ} (h : StandsFor x q) : StandsFor (floor x) ⌊q⌋ := by
  refine standsFor_withWhole Int.floor_intCast (fun s m k _ hm hk => ?_) h
  have hpow : 0 < 2 ^ k := by positivity
  cases s with
  | negative =>
    refine ⟨shiftRight_add_lt hm hk (by rw [Nat.one_shiftLeft]; omega), ?_⟩
    simp only [Sign.apply, Int.cast_neg, Int.cast_one, neg_one_mul, neg_shift_ceil,
      Nat.one_shiftLeft]
  | positive =>
    refine ⟨shiftRight_add_lt hm hk hpow, ?_⟩
    simp only [Sign.apply, Int.cast_one, one_mul, floor_shift]

theorem floor_half_shift {m k : ℕ} (hk : 0 < k) :
    ⌊(m : ℚ) / 2 ^ k + 1 / 2⌋ = (((m + 1 <<< (k - 1)) >>> k : ℕ) : ℤ) := by
  rw [← floor_shift, Nat.one_shiftLeft]
  obtain ⟨j, rfl⟩ : ∃ j, k = j + 1 := ⟨k - 1, by omega⟩
  congr 1
  rw [add_tsub_cancel_right, pow_succ]
  push_cast
  field_simp

theorem standsFor_round {x : Float} {q : ℚ} (h : StandsFor x q) :
    StandsFor (round x) (halfAway q) := by
  refine standsFor_withWhole halfAway_intCast (fun s m k hpos hm hk => ?_) h
  have hq : (0 : ℚ) < m / 2 ^ k := div_pos (by exact_mod_cast hpos) (by positivity)
  refine ⟨shiftRight_add_lt hm hk ?_, ?_⟩
  · rw [Nat.one_shiftLeft]
    exact Nat.pow_lt_pow_right (by norm_num) (by omega)
  · cases s with
    | negative =>
      simp only [Sign.apply, Int.cast_neg, Int.cast_one, neg_one_mul, halfAway, neg_neg]
      rw [if_pos (by linarith), floor_half_shift hk]
    | positive =>
      simp only [Sign.apply, Int.cast_one, one_mul, halfAway]
      rw [if_neg (by linarith), floor_half_shift hk]

theorem towardZero_apply (s : Sign) {q : ℚ} (hq : 0 < q) :
    towardZero (s.apply 1 * q) = s.apply ⌊q⌋ := by
  cases s with
  | negative =>
    simp only [Sign.apply, towardZero, Int.cast_neg, Int.cast_one, neg_one_mul, neg_neg]
    rw [if_pos (by linarith)]
  | positive =>
    simp only [Sign.apply, towardZero, Int.cast_one, one_mul]
    rw [if_neg (by linarith)]

theorem toInt_eq {x : Float} {q : ℚ} (h : StandsFor x q) (low high : ℤ) :
    x.toModel.unpack.toInt low high = towardZero q := by
  rcases h.cases with ⟨s, hu, rfl⟩ | ⟨s, m, e, hm, hu, hc, he, rfl⟩
  · rw [show x.toModel.unpack = .zero s from hu]
    simp [UnpackedFloat.toInt, towardZero]
  · rw [show x.toModel.unpack = .finite s m e hm from hu, apply_mul,
      towardZero_apply s (mul_pos (by exact_mod_cast hm) (two_zpow_pos e))]
    simp only [UnpackedFloat.toInt, roundToInt, decreaseExponent, shiftToExponent,
      shiftRight_mantissa, ExtendedMantissa.ofMantissaAndAccuracy]
    congr 1
    rcases le_or_gt 0 e with he0 | he0
    · have hfloor : ((m : ℚ) * 2 ^ e) = ((m * 2 ^ e.toNat : ℕ) : ℤ) := by
        push_cast
        rw [← zpow_natCast, Int.toNat_of_nonneg he0]
      have hshift : (0 - (e - ((e - 0).toNat : ℤ))).toNat = 0 := by omega
      rw [hfloor, Int.floor_intCast, hshift, sub_zero, Nat.shiftLeft_eq]
      rfl
    · have hzero : (e - 0).toNat = 0 := by omega
      rw [scaled_eq_div m he0, floor_shift, hzero]
      simp

end Letterform.Double
