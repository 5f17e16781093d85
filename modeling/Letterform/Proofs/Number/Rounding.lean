import Letterform.Proofs.Number.Packing

/-!
# Rounding is exact where it can be

The operations on doubles round the exact result once. A result that some double stands for is
therefore not changed, which is all that is said here of sums, products and quotients.
-/

namespace Letterform.Double

open Float.Model (Format UnpackedFloat totalExponent)
open Float.Model.UnpackedFloat

def Representable (q : ℚ) : Prop :=
  ∃ c g : ℤ, q = c * 2 ^ g ∧ |c| < 2 ^ 53 ∧ -1074 ≤ g ∧ g ≤ 971

/-- An unpacked double as it is after it has been stored. -/
def stored (u : UnpackedFloat) : UnpackedFloat := unpack .binary64 (pack .binary64 u)

structure Holds (u : UnpackedFloat) (q : ℚ) : Prop where
  isFinite : u.isFinite = true
  value_eq : value u = q

-- ---------------------------------------------------------------------------
-- Powers of two
-- ---------------------------------------------------------------------------

theorem two_zpow_pos (e : ℤ) : (0 : ℚ) < 2 ^ e := zpow_pos (by norm_num) e

theorem eq_mul_two_pow {m M : ℕ} {e t : ℤ} (h : (m : ℚ) * 2 ^ e = M * 2 ^ t) (ht : e ≤ t) :
    m = M * 2 ^ (t - e).toNat := by
  obtain ⟨k, rfl⟩ : ∃ k : ℕ, t = e + k := ⟨(t - e).toNat, by omega⟩
  rw [add_sub_cancel_left, Int.toNat_natCast]
  rw [zpow_add₀ (by norm_num : (2 : ℚ) ≠ 0), zpow_natCast, ← mul_assoc, mul_right_comm] at h
  exact_mod_cast mul_right_cancel₀ (two_zpow_pos e).ne' h

theorem log2_mul_two_pow {m : ℕ} (hm : 0 < m) (k : ℕ) : (m * 2 ^ k).log2 = m.log2 + k := by
  induction k with
  | zero => simp
  | succ k ih =>
    rw [pow_succ, show m * (2 ^ k * 2) = 2 * (m * 2 ^ k) by ring,
      Nat.log2_two_mul (by positivity), ih]
    rfl

theorem totalExponent_eq {m M : ℕ} {e t : ℤ} (hm : 0 < m) (hM : 0 < M)
    (h : (m : ℚ) * 2 ^ e = M * 2 ^ t) : totalExponent m e = totalExponent M t := by
  unfold totalExponent
  rcases le_total e t with hle | hle
  · rw [eq_mul_two_pow h hle, log2_mul_two_pow hM]
    push_cast
    omega
  · rw [eq_mul_two_pow h.symm hle, log2_mul_two_pow hm]
    push_cast
    omega

theorem IsCanonical.targetExponent {M : ℕ} {t : ℤ} (hc : IsCanonical M t) (hM : 0 < M) :
    Format.binary64.targetExponent (totalExponent M t) = t := by
  rw [targetExponent_eq]
  unfold totalExponent
  have := hc.le
  rcases hc.log2 hM with ⟨hlog, -⟩ | ⟨hlog, -, rfl⟩ <;> omega

theorem exists_canonical {m : ℕ} {e : ℤ} (hm : 0 < m) (h : Representable (m * 2 ^ e)) :
    ∃ (M : ℕ) (t : ℤ), 0 < M ∧ IsCanonical M t ∧ t ≤ 971 ∧ (m : ℚ) * 2 ^ e = M * 2 ^ t := by
  obtain ⟨c, g, hq, hc, hlow, hhigh⟩ := h
  have hpos : (0 : ℚ) < c * 2 ^ g := hq ▸ mul_pos (by exact_mod_cast hm) (two_zpow_pos e)
  have hcpos : 0 < c := by
    have := (mul_pos_iff_of_pos_right (two_zpow_pos g)).mp hpos
    exact_mod_cast this
  lift c to ℕ using hcpos.le
  have hcpos : 0 < c := by exact_mod_cast hcpos
  have hclt : c < 2 ^ 53 := by
    have : ((c : ℤ)) < 2 ^ 53 := lt_of_le_of_lt (le_abs_self _) hc
    exact_mod_cast this
  have hlog : c.log2 < 53 := (Nat.log2_lt hcpos.ne').mpr hclt
  -- the mantissa grows until it is full or the exponent is the lowest one
  let k : ℕ := min (52 - c.log2) (g + 1074).toNat
  have hlogk : (c * 2 ^ k).log2 = c.log2 + k := log2_mul_two_pow hcpos k
  have hne : c * 2 ^ k ≠ 0 := by positivity
  refine ⟨c * 2 ^ k, g - k, by positivity, ⟨?_, by omega, ?_⟩, by omega, ?_⟩
  · rw [← Nat.log2_lt hne, hlogk]
    omega
  · rw [← Nat.le_log2 hne, hlogk]
    omega
  · rw [hq, show g = (g - k) + (k : ℤ) by ring, zpow_add₀ (by norm_num : (2 : ℚ) ≠ 0)]
    push_cast
    rw [zpow_natCast]
    ring_nf

-- ---------------------------------------------------------------------------
-- Shifting and rounding
-- ---------------------------------------------------------------------------

theorem shiftRight_exact (m k : ℕ) :
    (ExtendedMantissa.ofMantissaAndAccuracy (m * 2 ^ k) .exact) >>> k = ⟨m, false, false⟩ := by
  show k.repeat ExtendedMantissa.shiftRightOne ⟨m * 2 ^ k, false, false⟩ = ⟨m, false, false⟩
  have h : ∀ j ≤ k, j.repeat ExtendedMantissa.shiftRightOne ⟨m * 2 ^ k, false, false⟩ =
      ⟨m * 2 ^ (k - j), false, false⟩ := by
    intro j hj
    induction j with
    | zero => rfl
    | succ j ih =>
      rw [Nat.repeat, ih (by omega)]
      have hk : k - j = (k - (j + 1)) + 1 := by omega
      simp only [ExtendedMantissa.shiftRightOne, hk, pow_succ, ← mul_assoc]
      simp
  simpa using h k le_rfl

theorem shiftRight_mantissa (em : ExtendedMantissa) (k : ℕ) :
    (em >>> k).mantissa = em.mantissa >>> k := by
  show (k.repeat ExtendedMantissa.shiftRightOne em).mantissa = _
  induction k with
  | zero => rfl
  | succ k ih =>
    rw [Nat.repeat, Nat.shiftRight_succ, ← ih]
    rfl

/-- Rounding drops zeros until it comes to a mantissa and an exponent that the format keeps. -/
theorem roundWithAccuracy_exact {spec : Format} (s : Sign) {m M : ℕ} {e t : ℤ} (hM : 0 < M)
    (hkept : spec.targetExponent (totalExponent M t) = t) (hle : e ≤ t)
    (h : (m : ℚ) * 2 ^ e = M * 2 ^ t) :
    roundWithAccuracy spec s m e .exact = .finite s M t hM := by
  have hm := eq_mul_two_pow h hle
  have hmpos : 0 < m := by rw [hm]; positivity
  have hfirst : shiftToTargetExponent spec m e .exact = (⟨M, false, false⟩, t) := by
    unfold shiftToTargetExponent shiftToExponent
    rw [totalExponent_eq hmpos hM h, hkept]
    simp only [Prod.mk.injEq]
    refine ⟨?_, by omega⟩
    conv_lhs => rw [hm]
    exact shiftRight_exact M _
  have hsecond : shiftToTargetExponent spec M t .exact = (⟨M, false, false⟩, t) := by
    unfold shiftToTargetExponent shiftToExponent
    rw [hkept]
    simp only [sub_self, Int.toNat_zero, Prod.mk.injEq]
    exact ⟨rfl, by simp⟩
  have hrounded : ExtendedMantissa.roundedMantissa ⟨M, false, false⟩ = M := rfl
  unfold roundWithAccuracy
  simp only [hfirst, hrounded, hsecond, hM.ne', dite_false]

theorem round_exact {spec : Format} (s : Sign) {m M : ℕ} {e t : ℤ} (hm : 0 < m) (hM : 0 < M)
    (hkept : spec.targetExponent (totalExponent M t) = t) (h : (m : ℚ) * 2 ^ e = M * 2 ^ t) :
    UnpackedFloat.round spec s m e = .finite s M t hM := by
  unfold UnpackedFloat.round
  rw [totalExponent_eq hm hM h, hkept]
  simp only [decreaseExponent]
  refine roundWithAccuracy_exact s hM hkept (by omega) ?_
  rw [← h, Nat.shiftLeft_eq]
  push_cast
  rw [mul_assoc, ← zpow_natCast, ← zpow_add₀ (by norm_num : (2 : ℚ) ≠ 0)]
  congr 2
  ring

theorem holds_stored_finite (s : Sign) {M : ℕ} {t : ℤ} (hM : 0 < M) (hc : IsCanonical M t)
    (ht : t ≤ 971) : Holds (stored (.finite s M t hM)) (s.apply M * 2 ^ t) := by
  rw [stored, unpack_pack_finite s hM hc ht]
  exact ⟨rfl, rfl⟩

theorem apply_mul (s : Sign) (m : ℕ) (q : ℚ) : ((s.apply m : ℤ) : ℚ) * q = s.apply 1 * (m * q) := by
  cases s <;> simp [Sign.apply]

theorem abs_apply (s : Sign) (m : ℕ) (e : ℤ) : |(s.apply m : ℚ) * 2 ^ e| = m * 2 ^ e := by
  rw [abs_mul, abs_of_pos (two_zpow_pos e)]
  cases s <;> simp [Sign.apply]

theorem representable_neg {q : ℚ} (h : Representable q) : Representable (-q) := by
  obtain ⟨c, g, rfl, hc, hg⟩ := h
  exact ⟨-c, g, by push_cast; ring, by rwa [abs_neg], hg⟩

theorem representable_apply {s : Sign} {q : ℚ} (h : Representable (s.apply 1 * q)) :
    Representable q := by
  cases s with
  | negative => simpa [Sign.apply] using representable_neg h
  | positive => simpa [Sign.apply] using h

theorem holds_round (s : Sign) {m : ℕ} {e : ℤ} (hm : 0 < m)
    (h : Representable (s.apply m * 2 ^ e)) :
    Holds (stored (UnpackedFloat.round .binary64 s m e)) (s.apply m * 2 ^ e) := by
  rw [apply_mul] at h ⊢
  obtain ⟨M, t, hM, hc, ht, heq⟩ := exists_canonical hm (representable_apply h)
  rw [round_exact s hm hM (hc.targetExponent hM) heq, heq, ← apply_mul]
  exact holds_stored_finite s hM hc ht

theorem holds_roundWithAccuracy (s : Sign) {m M : ℕ} {e t : ℤ} (hM : 0 < M)
    (hc : IsCanonical M t) (ht : t ≤ 971) (hle : e ≤ t) (h : (m : ℚ) * 2 ^ e = M * 2 ^ t) :
    Holds (stored (roundWithAccuracy .binary64 s m e .exact)) (s.apply m * 2 ^ e) := by
  rw [roundWithAccuracy_exact s hM (hc.targetExponent hM) hle h, apply_mul, h, ← apply_mul]
  exact holds_stored_finite s hM hc ht

theorem holds_normalize {n e : ℤ} {s : Sign} (h : Representable (n * 2 ^ e)) :
    Holds (stored (UnpackedFloat.normalize .binary64 n e s)) (n * 2 ^ e) := by
  unfold UnpackedFloat.normalize
  rcases lt_trichotomy n 0 with hn | rfl | hn
  · rw [Int.compare_eq_lt.mpr hn]
    have hcast : ((Sign.negative.apply (-n).toNat : ℤ) : ℚ) = n := by
      simp only [Sign.apply]
      congr 1
      omega
    have := holds_round .negative (m := (-n).toNat) (e := e) (by omega)
    rw [hcast] at this
    exact this h
  · rw [Int.compare_eq_eq.mpr rfl]
    simp only [stored, unpack_pack_zero]
    exact ⟨rfl, by simp [value]⟩
  · rw [Int.compare_eq_gt.mpr hn]
    have hcast : ((Sign.positive.apply n.toNat : ℤ) : ℚ) = n := by
      simp only [Sign.apply]
      congr 1
      omega
    have := holds_round .positive (m := n.toNat) (e := e) (by omega)
    rw [hcast] at this
    exact this h

end Letterform.Double
