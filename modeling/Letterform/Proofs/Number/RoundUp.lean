import Letterform.Proofs.Number.Double

/-!
# Whole numbers are rounded up to themselves

Half a unit is added before the fraction is dropped. A double so large that it has no room for the
half is rounded as a sum, but it stays as large as it is, up to a factor of two.
-/

namespace Letterform.Double

open Float.Model (Format UnpackedFloat totalExponent)
open Float.Model.UnpackedFloat

-- ---------------------------------------------------------------------------
-- Rounding a mantissa that is too long
-- ---------------------------------------------------------------------------

theorem le_roundedMantissa (em : ExtendedMantissa) : em.mantissa ≤ em.roundedMantissa := by
  obtain ⟨m, roundBit, stickyBit⟩ := em
  cases roundBit <;> cases stickyBit
  · exact le_rfl
  · exact le_rfl
  · exact Nat.le_add_right m _
  · exact Nat.le_add_right m 1

theorem roundedMantissa_le (em : ExtendedMantissa) : em.roundedMantissa ≤ em.mantissa + 1 := by
  obtain ⟨m, roundBit, stickyBit⟩ := em
  cases roundBit <;> cases stickyBit
  · exact Nat.le_succ m
  · exact Nat.le_succ m
  · exact Nat.add_le_add_left (Nat.lt_succ_iff.mp (Nat.mod_lt m two_pos)) m
  · exact le_rfl

theorem mantissa_ofMantissaAndAccuracy (m : ℕ) (accuracy : Accuracy) :
    (ExtendedMantissa.ofMantissaAndAccuracy m accuracy).mantissa = m := by
  rcases accuracy with _ | _ | _ | _ <;> rfl

/-- Shifting a long mantissa cuts it to 53 bits and keeps its highest one. -/
theorem shiftRight_log2 {m : ℕ} (h : 52 ≤ m.log2) :
    2 ^ 52 ≤ m >>> (m.log2 - 52) ∧ m >>> (m.log2 - 52) < 2 ^ 53 := by
  have hm : m ≠ 0 := by
    rintro rfl
    simp at h
  have hpow : 0 < 2 ^ (m.log2 - 52) := Nat.two_pow_pos _
  rw [Nat.shiftRight_eq_div_pow]
  constructor
  · rw [Nat.le_div_iff_mul_le hpow, ← pow_add, Nat.add_sub_cancel' h]
    exact Nat.log2_self_le hm
  · rw [Nat.div_lt_iff_lt_mul hpow, ← pow_add, show 53 + (m.log2 - 52) = m.log2 + 1 by omega]
    exact Nat.lt_log2_self

theorem shiftToTargetExponent_eq {m : ℕ} {e : ℤ} (h : 52 ≤ m.log2) (he : -1022 ≤ m.log2 + e)
    (accuracy : Accuracy) :
    shiftToTargetExponent .binary64 m e accuracy =
      (ExtendedMantissa.ofMantissaAndAccuracy m accuracy >>> (m.log2 - 52),
        e + ((m.log2 - 52 : ℕ) : ℤ)) := by
  have hshift : (Format.binary64.targetExponent (totalExponent m e) - e).toNat = m.log2 - 52 := by
    rw [targetExponent_eq, totalExponent]
    omega
  simp only [shiftToTargetExponent, shiftToExponent, hshift]

theorem two_zpow_le_scaled {M k : ℕ} (h : 2 ^ k ≤ M) (t : ℤ) : (2 : ℚ) ^ (k + t) ≤ M * 2 ^ t := by
  rw [zpow_add₀ (by norm_num), zpow_natCast]
  exact mul_le_mul_of_nonneg_right (by exact_mod_cast h) (two_zpow_pos t).le

theorem le_log2_of_zpow_lt {m : ℕ} {e n : ℤ} (h : (2 : ℚ) ^ n < (m + 1) * 2 ^ e) :
    n ≤ m.log2 + e := by
  have hle : (m + 1 : ℚ) ≤ 2 ^ (m.log2 + 1) := by exact_mod_cast Nat.lt_log2_self
  have hpow : (2 : ℚ) ^ n < 2 ^ ((m.log2 + 1 : ℕ) + e : ℤ) := by
    rw [zpow_add₀ (by norm_num), zpow_natCast]
    exact h.trans_le (mul_le_mul_of_nonneg_right hle (two_zpow_pos e).le)
  have := (zpow_lt_zpow_iff_right₀ (by norm_num)).mp hpow
  push_cast at this
  omega

theorem scaled_shiftRight_le {r k : ℕ} (h : r ≤ 2 ^ k) (n : ℕ) (e : ℤ) :
    ((r >>> n : ℕ) : ℚ) * 2 ^ (e + n) ≤ 2 ^ (k + e) := by
  have hshift : (r >>> n) * 2 ^ n ≤ 2 ^ k := by
    rw [Nat.shiftRight_eq_div_pow]
    exact (Nat.div_mul_le_self r _).trans h
  calc ((r >>> n : ℕ) : ℚ) * 2 ^ (e + n) = ((r >>> n * 2 ^ n : ℕ) : ℚ) * 2 ^ e := by
        rw [zpow_add₀ (by norm_num), zpow_natCast]
        push_cast
        ring
    _ ≤ ((2 ^ k : ℕ) : ℚ) * 2 ^ e :=
        mul_le_mul_of_nonneg_right (by exact_mod_cast hshift) (two_zpow_pos e).le
    _ = 2 ^ (k + e) := by
        rw [zpow_add₀ (by norm_num), zpow_natCast]
        push_cast
        rfl

theorem scaled_cut {r : ℕ} (hlow : 2 ^ 52 ≤ r) (hhigh : r ≤ 2 ^ 53) (e : ℤ) :
    ((r >>> (r.log2 - 52) : ℕ) : ℚ) * 2 ^ (e + ((r.log2 - 52 : ℕ) : ℤ)) = r * 2 ^ e := by
  rcases hhigh.lt_or_eq with hlt | rfl
  · have hlog : r.log2 - 52 = 0 := by
      have := (Nat.log2_lt (by omega)).mpr hlt
      omega
    simp [hlog]
  · have hcut : (2 ^ 53 : ℕ) >>> 1 = 2 ^ 52 := rfl
    rw [Nat.log2_two_pow, show 53 - 52 = 1 from rfl, hcut, zpow_add₀ (by norm_num)]
    push_cast
    ring

theorem abs_scaled_sub_le {m r k : ℕ} (hlow : m >>> k ≤ r) (hhigh : r ≤ m >>> k + 1) (e : ℤ) :
    |(r : ℚ) * 2 ^ (e + (k : ℤ)) - m * 2 ^ e| ≤ 2 ^ (e + (k : ℤ)) := by
  rw [Nat.shiftRight_eq_div_pow] at hlow hhigh
  have hpow : 0 < 2 ^ k := Nat.two_pow_pos k
  have hdiv := Nat.div_add_mod m (2 ^ k)
  have hmod := Nat.mod_lt m hpow
  generalize m / 2 ^ k = c at hlow hhigh hdiv
  have hcut := Nat.mul_le_mul_right (2 ^ k) hlow
  have hcut' := Nat.mul_le_mul_right (2 ^ k) hhigh
  rw [mul_comm] at hdiv
  have hbelow : m ≤ (r + 1) * 2 ^ k := by
    rw [add_mul, one_mul]
    omega
  have habove : r * 2 ^ k ≤ m + 2 ^ k := by
    rw [add_mul, one_mul] at hcut'
    omega
  have hbelow' : (m : ℚ) ≤ (r + 1) * 2 ^ k := by exact_mod_cast hbelow
  have habove' : (r : ℚ) * 2 ^ k ≤ m + 2 ^ k := by exact_mod_cast habove
  have heq : (r : ℚ) * 2 ^ (e + (k : ℤ)) - m * 2 ^ e = (r * 2 ^ k - m) * 2 ^ e := by
    rw [zpow_add₀ (by norm_num), zpow_natCast]
    ring
  rw [heq, abs_mul, abs_of_pos (two_zpow_pos e), zpow_add₀ (by norm_num), zpow_natCast, mul_comm]
  exact mul_le_mul_of_nonneg_left (abs_le.mpr ⟨by linarith, by linarith⟩) (two_zpow_pos e).le

/-- A rounded number has the highest bit of the exact one, or it is the next power of two. It is
less than one unit of the last place off. -/
theorem exists_roundWithAccuracy (s : Sign) {m : ℕ} {e : ℤ} (h : 52 ≤ m.log2)
    (he : -1022 ≤ m.log2 + e) (accuracy : Accuracy) :
    ∃ M t, ∃ hM : 0 < M, roundWithAccuracy .binary64 s m e accuracy = .finite s M t hM ∧
      IsCanonical M t ∧ (2 : ℚ) ^ (m.log2 + e) ≤ M * 2 ^ t ∧
        (M : ℚ) * 2 ^ t ≤ 2 ^ (m.log2 + e + 1) ∧
        |(M : ℚ) * 2 ^ t - m * 2 ^ e| ≤ 2 ^ (m.log2 + e - 52) := by
  obtain ⟨hcut, hcut'⟩ := shiftRight_log2 h
  have hexact : (ExtendedMantissa.ofMantissaAndAccuracy m accuracy >>> (m.log2 - 52)).mantissa =
      m >>> (m.log2 - 52) := by
    rw [shiftRight_mantissa, mantissa_ofMantissaAndAccuracy]
  obtain ⟨r, hr⟩ : ∃ r, (ExtendedMantissa.ofMantissaAndAccuracy m accuracy >>>
    (m.log2 - 52)).roundedMantissa = r := ⟨_, rfl⟩
  have hbelow : m >>> (m.log2 - 52) ≤ r := hexact ▸ (le_roundedMantissa _).trans_eq hr
  have habove : r ≤ m >>> (m.log2 - 52) + 1 := hexact ▸ hr.symm.trans_le (roundedMantissa_le _)
  have hrounded : 2 ^ 52 ≤ r := hcut.trans hbelow
  have hrounded' : r ≤ 2 ^ 53 := habove.trans hcut'
  -- rounding may have carried into one more bit, so the mantissa is cut again
  have hlog : 52 ≤ r.log2 := (Nat.le_log2 (by omega)).mpr hrounded
  obtain ⟨hlow, hhigh⟩ := shiftRight_log2 hlog
  have hmantissa : (ExtendedMantissa.ofMantissaAndAccuracy r .exact >>> (r.log2 - 52)).mantissa =
      r >>> (r.log2 - 52) := shiftRight_mantissa _ _
  have hfirst := shiftToTargetExponent_eq h he accuracy
  have hsecond := shiftToTargetExponent_eq hlog
    (show -1022 ≤ (r.log2 : ℤ) + (e + ((m.log2 - 52 : ℕ) : ℤ)) by omega) .exact
  unfold roundWithAccuracy
  simp only [hfirst, hr, hsecond, hmantissa]
  rw [dif_neg (by omega)]
  refine ⟨_, _, by omega, rfl, ⟨hhigh, by omega, .inl hlow⟩, ?_, ?_, ?_⟩
  · have hexponent : (m.log2 : ℤ) + e ≤
        (52 : ℕ) + (e + ((m.log2 - 52 : ℕ) : ℤ) + ((r.log2 - 52 : ℕ) : ℤ)) := by omega
    exact (zpow_le_zpow_right₀ (by norm_num) hexponent).trans (two_zpow_le_scaled hlow _)
  · have hexponent : (53 : ℕ) + (e + ((m.log2 - 52 : ℕ) : ℤ)) = (m.log2 : ℤ) + e + 1 := by omega
    exact (scaled_shiftRight_le hrounded' _ _).trans_eq (by rw [hexponent])
  · rw [scaled_cut hrounded hrounded']
    have hexponent : e + ((m.log2 - 52 : ℕ) : ℤ) = (m.log2 : ℤ) + e - 52 := by omega
    exact hexponent ▸ abs_scaled_sub_le hbelow habove e

theorem exists_round (s : Sign) {m : ℕ} {e : ℤ} (hm : 0 < m)
    (h : -1074 ≤ totalExponent m e - 53) :
    ∃ M t, ∃ hM : 0 < M, UnpackedFloat.round .binary64 s m e = .finite s M t hM ∧
      IsCanonical M t ∧ (2 : ℚ) ^ (m.log2 + e) ≤ M * 2 ^ t ∧
      |(M : ℚ) * 2 ^ t - m * 2 ^ e| ≤ 2 ^ (m.log2 + e - 52) := by
  unfold totalExponent at h
  have htarget : Format.binary64.targetExponent (totalExponent m e) = m.log2 + e - 52 := by
    rw [targetExponent_eq, totalExponent]
    omega
  unfold UnpackedFloat.round
  rw [htarget]
  simp only [decreaseExponent]
  generalize hk : (e - (m.log2 + e - 52)).toNat = k
  have hlog : (m <<< k).log2 = m.log2 + k := by
    rw [Nat.shiftLeft_eq, log2_mul_two_pow hm]
  obtain ⟨M, t, hM, hround, hc, hle, -, herror⟩ :=
    exists_roundWithAccuracy s (m := m <<< k) (e := e - k) (by omega) (by omega) .exact
  have hexponent : (((m <<< k).log2 : ℕ) : ℤ) + (e - k) = m.log2 + e := by
    rw [hlog]
    push_cast
    ring
  have hvalue : ((m <<< k : ℕ) : ℚ) * 2 ^ (e - k : ℤ) = m * 2 ^ e := by
    rw [Nat.shiftLeft_eq, zpow_sub₀ (by norm_num), zpow_natCast]
    push_cast
    field_simp
  rw [hexponent] at hle herror
  exact ⟨M, t, hM, hround, hc, hle, hvalue ▸ herror⟩

-- ---------------------------------------------------------------------------
-- Large sums
-- ---------------------------------------------------------------------------

/-- An unpacked double stands for a number of this magnitude at least, or is infinite. -/
def IsFar (bound : ℚ) (u : UnpackedFloat) : Prop :=
  (∃ q, Holds u q ∧ bound ≤ |q|) ∨ ∃ s, u = .infinity s

theorem IsFar.le_abs {bound q : ℚ} {u : UnpackedFloat} (h : IsFar bound u) (hq : Holds u q) :
    bound ≤ |q| := by
  rcases h with ⟨r, hr, hle⟩ | ⟨s, rfl⟩
  · rwa [← hr.value_eq.symm.trans hq.value_eq]
  · cases hq.isFinite

theorem isFar_round (s : Sign) {m : ℕ} {e n : ℤ} (hm : 0 < m) (hn : -1022 ≤ n)
    (h : (2 : ℚ) ^ n ≤ m * 2 ^ e) :
    IsFar (2 ^ n) (stored (UnpackedFloat.round .binary64 s m e)) := by
  have hlog : n ≤ m.log2 + e := le_log2_of_zpow_lt
    (h.trans_lt (mul_lt_mul_of_pos_right (lt_add_one _) (two_zpow_pos e)))
  obtain ⟨M, t, hM, hround, hc, hle, -⟩ := exists_round s (e := e) hm
    (by rw [totalExponent]; omega)
  rw [hround]
  by_cases ht : t ≤ 971
  · refine .inl ⟨_, holds_stored_finite s hM hc ht, ?_⟩
    rw [abs_apply]
    exact (zpow_le_zpow_right₀ (by norm_num) hlog).trans hle
  · exact .inr ⟨s, stored_finite_infinity s hM (by omega)⟩

theorem isFar_normalize {k e n : ℤ} {s : Sign} (hn : -1022 ≤ n)
    (h : (2 : ℚ) ^ n ≤ |(k : ℚ) * 2 ^ e|) :
    IsFar (2 ^ n) (stored (UnpackedFloat.normalize .binary64 k e s)) := by
  rw [abs_mul, abs_of_pos (two_zpow_pos e), ← Int.cast_abs] at h
  unfold UnpackedFloat.normalize
  rcases lt_trichotomy k 0 with hk | rfl | hk
  · rw [Int.compare_eq_lt.mpr hk]
    refine isFar_round .negative (by omega) hn ?_
    rwa [abs_of_neg hk, ← Int.toNat_of_nonneg (show 0 ≤ -k by omega)] at h
  · rw [abs_zero, Int.cast_zero, zero_mul] at h
    exact absurd h (not_le_of_gt (by positivity))
  · rw [Int.compare_eq_gt.mpr hk]
    refine isFar_round .positive (by omega) hn ?_
    rwa [abs_of_pos hk, ← Int.toNat_of_nonneg hk.le] at h

/-- A large sum is rounded to a large double, and it need not be larger than the least double that
has all its bits. -/
theorem isFar_add_zpow {x y : Float} {p q : ℚ} (hx : StandsFor x p) (hy : StandsFor y q) {n : ℤ}
    (hn : -1022 ≤ n) (h : (2 : ℚ) ^ n ≤ |p + q|) : IsFar (2 ^ n) (unpacked (x + y)) := by
  show IsFar _ (stored (UnpackedFloat.add .binary64 (unpacked x) (unpacked y)))
  rcases hx.cases with ⟨s, hu, rfl⟩ | ⟨s, m, e, hm, hu, hc, he, rfl⟩ <;>
    rcases hy.cases with ⟨s', hv, rfl⟩ | ⟨s', m', e', hm', hv, hc', he', rfl⟩
  · rw [add_zero, abs_zero] at h
    exact absurd h (not_le_of_gt (by positivity))
  · rw [zero_add] at h
    rw [hu, hv]
    exact .inl ⟨_, holds_stored_finite s' hm' hc' he', h⟩
  · rw [add_zero] at h
    rw [hu, hv]
    exact .inl ⟨_, holds_stored_finite s hm hc he, h⟩
  · rw [hu, hv]
    simp only [UnpackedFloat.add]
    rw [← decreaseExponent_value s m (min_le_left e e'),
      ← decreaseExponent_value s' m' (min_le_right e e'), ← add_mul, ← Int.cast_add] at h
    exact isFar_normalize hn h

theorem isFar_add {x y : Float} {p q : ℚ} (hx : StandsFor x p) (hy : StandsFor y q) {n : ℕ}
    (h : (2 : ℚ) ^ n ≤ |p + q|) : IsFar (2 ^ n) (unpacked (x + y)) := by
  rw [← zpow_natCast] at h ⊢
  exact isFar_add_zpow hx hy (by omega) h

theorem isFar_sub_zpow {x y : Float} {p q : ℚ} (hx : StandsFor x p) (hy : StandsFor y q) {n : ℤ}
    (hn : -1022 ≤ n) (h : (2 : ℚ) ^ n ≤ |p - q|) : IsFar (2 ^ n) (unpacked (x - y)) := by
  rw [sub_eq_add_neg] at h
  rw [sub_eq_add]
  exact isFar_add_zpow hx (standsFor_neg hy) hn h

theorem isFar_sub {x y : Float} {p q : ℚ} (hx : StandsFor x p) (hy : StandsFor y q) {n : ℕ}
    (h : (2 : ℚ) ^ n ≤ |p - q|) : IsFar (2 ^ n) (unpacked (x - y)) := by
  rw [← zpow_natCast] at h ⊢
  exact isFar_sub_zpow hx hy (by omega) h

theorem IsFar.lt_abs {x y : Float} {bound q : ℚ} (h : IsFar bound (unpacked x))
    (hy : StandsFor y q) (hq : |q| < bound) : y < Scalar.abs x := by
  rcases h with ⟨p, hp, hle⟩ | ⟨s, hs⟩
  · exact (lt_iff hy (standsFor_abs hp)).mpr ((le_abs_self q).trans_lt (hq.trans_le hle))
  · exact lt_abs_infinity hs hy

theorem unpacked_add_infinity {x y : Float} {s : Sign} {q : ℚ} (hx : unpacked x = .infinity s)
    (hy : StandsFor y q) : unpacked (x + y) = .infinity s := by
  rw [unpacked_add, hx]
  rcases hy.cases with ⟨s', hu, -⟩ | ⟨s', m, e, hm, hu, -⟩
  all_goals
    rw [hu]
    exact unpack_pack_infinity _

-- ---------------------------------------------------------------------------
-- Rounding up
-- ---------------------------------------------------------------------------

theorem standsFor_half : StandsFor (1 / 2 : Float) (1 / 2) := Scalar.denotes_half (α := Float)

theorem roundUp_eq (x : Float) : Scalar.roundUp x = floor (x + 1 / 2) := rfl

theorem roundUp_infinity {x : Float} {s : Sign} (h : unpacked (x + 1 / 2) = .infinity s) {y : Float}
    {q : ℚ} (hy : StandsFor y q) : y < Scalar.abs (Scalar.roundUp x) := by
  have hfloor : floor (x + 1 / 2) = x + 1 / 2 :=
    withWhole_eq_self fun _ _ _ _ hx => by rw [h] at hx; cases hx
  rw [roundUp_eq, hfloor]
  exact lt_abs_infinity h hy

theorem lt_abs_roundUp {x : Float} (h : IsFar (2 ^ 51) (unpacked x)) {y : Float} {q : ℚ}
    (hy : StandsFor y q) (hq : |q| < 2 ^ 40) : y < Scalar.abs (Scalar.roundUp x) := by
  rcases h with ⟨p, hp, hle⟩ | ⟨s, hs⟩
  · have hsum : (2 : ℚ) ^ 50 ≤ |p + 1 / 2| := by
      have := abs_sub_abs_le_abs_add p (1 / 2)
      norm_num at this hle ⊢
      linarith
    rcases isFar_add hp standsFor_half hsum with ⟨r, hr, hle⟩ | ⟨s, hs⟩
    · rw [roundUp_eq]
      refine (lt_iff hy (standsFor_abs (standsFor_floor hr))).mpr ?_
      have hfloor : |r| - 1 ≤ |((⌊r⌋ : ℤ) : ℚ)| := by
        have hlow := Int.floor_le r
        have hhigh := Int.lt_floor_add_one r
        have := abs_sub_abs_le_abs_sub r ⌊r⌋
        rw [abs_of_nonneg (show 0 ≤ r - ⌊r⌋ by linarith)] at this
        linarith
      have := le_abs_self q
      norm_num at hle hq
      linarith
    · exact roundUp_infinity hs hy
  · exact roundUp_infinity (unpacked_add_infinity hs standsFor_half) hy

theorem roundUp_whole {x : Float} {n : ℤ} (h : StandsFor x n) :
    StandsFor (Scalar.roundUp x) n ∨
      ∀ y q, StandsFor y q → |q| < 2 ^ 40 → y < Scalar.abs (Scalar.roundUp x) := by
  by_cases hn : |n| < 2 ^ 51
  · left
    have hsum : (n : ℚ) + 1 / 2 = ((2 * n + 1 : ℤ) : ℚ) / 2 := by push_cast; ring
    have hadd := standsFor_add h standsFor_half (representable_of_storable
      (hsum ▸ Scalar.storable_half (by rw [abs_lt] at hn ⊢; omega)))
    have hfloor : ⌊(n : ℚ) + 1 / 2⌋ = n := by
      rw [Int.floor_intCast_add]
      norm_num
    have := standsFor_floor hadd
    rwa [hfloor] at this
  · have hfar : (2 : ℚ) ^ 51 ≤ |(n : ℚ)| := by exact_mod_cast not_lt.mp hn
    exact .inr fun y q hy hq => lt_abs_roundUp (.inl ⟨n, h, hfar⟩) hy hq

theorem roundUp_sub {x y : Float} {m n : ℤ} (hx : StandsFor x m) (hy : StandsFor y n) :
    StandsFor (Scalar.roundUp (x - y)) (m - n : ℤ) ∨
      ∀ z q, StandsFor z q → |q| < 2 ^ 40 → z < Scalar.abs (Scalar.roundUp (x - y)) := by
  by_cases hn : |m - n| < 2 ^ 53
  · have hcast : ((m - n : ℤ) : ℚ) = m - n := Int.cast_sub m n
    refine roundUp_whole ?_
    rw [hcast]
    exact standsFor_sub hx hy (representable_of_storable (hcast ▸ Scalar.storable_intCast hn))
  · have hfar : (2 : ℚ) ^ 51 ≤ |(m : ℚ) - n| := by
      have : 2 ^ 51 ≤ |m - n| := by omega
      exact_mod_cast this
    exact .inr fun z q hz hq => lt_abs_roundUp (isFar_sub hx hy hfar) hz hq

end Letterform.Double
