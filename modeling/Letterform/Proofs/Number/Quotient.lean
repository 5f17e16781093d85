import Letterform.Proofs.Number.RoundUp

/-!
# Quotients stay between powers of two

A quotient is cut before it is rounded. What is left of it has all the bits that are kept, so it
shows between which powers of two the exact quotient lies, and rounding does not lead out of there.
-/

namespace Letterform.Double

open Float.Model (Format UnpackedFloat totalExponent)
open Float.Model.UnpackedFloat

-- ---------------------------------------------------------------------------
-- Cutting
-- ---------------------------------------------------------------------------

/-- A number has been cut to a whole number of units that has all the bits that are kept. -/
structure IsCut (q : ℚ) (m : ℕ) (e : ℤ) : Prop where
  long : 52 ≤ m.log2
  le : (m : ℚ) * 2 ^ e ≤ q
  lt : q < (m + 1) * 2 ^ e

namespace IsCut

variable {q : ℚ} {m : ℕ} {e n k : ℤ}

theorem pos (h : IsCut q m e) : 0 < m := by
  refine Nat.pos_of_ne_zero ?_
  rintro rfl
  simpa using h.long

theorem le_log2 (h : IsCut q m e) (hq : (2 : ℚ) ^ n ≤ q) : n ≤ m.log2 + e :=
  le_log2_of_zpow_lt (hq.trans_lt h.lt)

theorem log2_lt (h : IsCut q m e) (hq : q < (2 : ℚ) ^ k) : m.log2 + e < k := by
  have hpow : (2 : ℚ) ^ (m.log2 + e) < 2 ^ k :=
    (two_zpow_le_scaled (Nat.log2_self_le h.pos.ne') e).trans_lt (h.le.trans_lt hq)
  exact (zpow_lt_zpow_iff_right₀ (by norm_num)).mp hpow

end IsCut

variable {m m' : ℕ} {e e' n k : ℤ}

theorem isCut_div {j : ℕ} {g : ℤ} (hm : 0 < m) (hm' : 0 < m') (he : e = j + (g + e'))
    (hj : 53 + m'.log2 ≤ m.log2 + j) :
    IsCut ((m * 2 ^ e) / (m' * 2 ^ e')) ((m <<< j) / m') g := by
  have hq : ((m : ℚ) * 2 ^ e) / (m' * 2 ^ e') = ((m <<< j : ℕ) : ℚ) / m' * 2 ^ g := by
    have hunit := (two_zpow_pos e').ne'
    rw [he, zpow_add₀ (by norm_num), zpow_add₀ (by norm_num), zpow_natCast, Nat.shiftLeft_eq]
    push_cast
    field_simp
  have hlong : 2 ^ 52 ≤ (m <<< j) / m' := by
    rw [Nat.le_div_iff_mul_le hm', Nat.shiftLeft_eq]
    calc 2 ^ 52 * m' ≤ 2 ^ 52 * 2 ^ (m'.log2 + 1) := Nat.mul_le_mul_left _ Nat.lt_log2_self.le
      _ = 2 ^ (53 + m'.log2) := by rw [← pow_add]; congr 1; omega
      _ ≤ 2 ^ (m.log2 + j) := Nat.pow_le_pow_right (by norm_num) hj
      _ = 2 ^ m.log2 * 2 ^ j := pow_add ..
      _ ≤ m * 2 ^ j := Nat.mul_le_mul_right _ (Nat.log2_self_le hm.ne')
  refine ⟨(Nat.le_log2 (by omega)).mpr hlong, ?_, ?_⟩
  · rw [hq]
    exact mul_le_mul_of_nonneg_right Nat.cast_div_le (two_zpow_pos g).le
  · rw [hq]
    refine mul_lt_mul_of_pos_right ?_ (two_zpow_pos g)
    rw [div_lt_iff₀ (by exact_mod_cast hm'), mul_comm]
    exact_mod_cast Nat.lt_mul_div_succ (m <<< j) hm'

theorem exists_divCore (hm : 0 < m) (hm' : 0 < m')
    (h : -1021 ≤ totalExponent m e - totalExponent m' e') :
    ∃ Q g accuracy, divCore .binary64 m e m' e' = (Q, g, accuracy) ∧
      IsCut ((m * 2 ^ e) / (m' * 2 ^ e')) Q g := by
  let g := min (e - e')
    (Format.binary64.targetExponent (totalExponent m e - totalExponent m' e'))
  have hg : g ≤ e - e' ∧ g ≤ totalExponent m e - totalExponent m' e' - 53 := by
    refine ⟨min_le_left _ _, (min_le_right _ _).trans ?_⟩
    rw [targetExponent_eq]
    omega
  simp only [totalExponent] at hg
  exact ⟨_, g, _, rfl, isCut_div hm hm' (by omega) (by omega)⟩

-- ---------------------------------------------------------------------------
-- Rounding
-- ---------------------------------------------------------------------------

theorem le_totalExponent_sub (hm' : 0 < m') (h : (2 : ℚ) ^ n ≤ (m * 2 ^ e) / (m' * 2 ^ e')) :
    n ≤ totalExponent m e - totalExponent m' e' := by
  have hdivisor : (0 : ℚ) < m' * 2 ^ e' := mul_pos (by exact_mod_cast hm') (two_zpow_pos e')
  have hpow : (2 : ℚ) ^ (n + (m'.log2 + e')) < (m + 1) * 2 ^ e := by
    calc (2 : ℚ) ^ (n + (m'.log2 + e')) = 2 ^ n * 2 ^ (m'.log2 + e') := zpow_add₀ (by norm_num) ..
      _ ≤ 2 ^ n * (m' * 2 ^ e') := mul_le_mul_of_nonneg_left
          (two_zpow_le_scaled (Nat.log2_self_le hm'.ne') e') (two_zpow_pos n).le
      _ ≤ m * 2 ^ e := (le_div_iff₀ hdivisor).mp h
      _ < (m + 1) * 2 ^ e := mul_lt_mul_of_pos_right (lt_add_one _) (two_zpow_pos e)
  have := le_log2_of_zpow_lt hpow
  unfold totalExponent
  omega

theorem le_of_scaled_le {M : ℕ} {t : ℤ} (hc : IsCanonical M t) (hk : k ≤ 1023)
    (h : (M : ℚ) * 2 ^ t ≤ 2 ^ k) : t ≤ 971 := by
  by_contra! ht
  have hfull : 2 ^ 52 ≤ M := hc.full.resolve_right (by omega)
  have hpow := (zpow_le_zpow_iff_right₀ (by norm_num)).mp ((two_zpow_le_scaled hfull t).trans h)
  omega

theorem standsFor_div_of_lt {x y : Float} {p q : ℚ} (hx : StandsFor x p) (hy : StandsFor y q)
    (hp : 0 < p) (hq : 0 < q) (hn : -1021 ≤ n) (hk : k ≤ 1023) (hlow : (2 : ℚ) ^ n ≤ p / q)
    (hhigh : p / q < 2 ^ k) :
    ∃ r, StandsFor (x / y) r ∧ 2 ^ n ≤ r ∧ r ≤ 2 ^ k := by
  obtain ⟨m, e, hm, hu, -, rfl⟩ := hx.cases_pos hp
  obtain ⟨m', e', hm', hv, -, rfl⟩ := hy.cases_pos hq
  obtain ⟨Q, g, accuracy, hcore, hcut⟩ :=
    exists_divCore hm hm' (hn.trans (le_totalExponent_sub hm' hlow))
  have hle := hcut.le_log2 hlow
  have hlt := hcut.log2_lt hhigh
  obtain ⟨M, t, hM, hround, hc, hlow', hhigh', -⟩ :=
    exists_roundWithAccuracy .positive (e := g) hcut.long (by omega) accuracy
  have hbelow : (M : ℚ) * 2 ^ t ≤ 2 ^ k :=
    hhigh'.trans (zpow_le_zpow_right₀ (by norm_num) (by omega))
  have habove : (2 : ℚ) ^ n ≤ M * 2 ^ t := (zpow_le_zpow_right₀ (by norm_num) hle).trans hlow'
  refine ⟨M * 2 ^ t, ?_, habove, hbelow⟩
  rw [StandsFor, unpacked_div, hu, hv]
  simp only [UnpackedFloat.div, hcore]
  show Holds (stored (roundWithAccuracy .binary64 .positive Q g accuracy)) _
  rw [hround]
  exact holds_stored_finite .positive hM hc (le_of_scaled_le hc hk hbelow)

/-- A quotient of positive numbers that lies between powers of two is rounded to a number between
them, since the upper one is stored as it is. -/
theorem standsFor_div_between {x y : Float} {p q : ℚ} (hx : StandsFor x p) (hy : StandsFor y q)
    (hp : 0 < p) (hq : 0 < q) (hn : -1021 ≤ n) (hk : k ≤ 971) (hlow : (2 : ℚ) ^ n ≤ p / q)
    (hhigh : p / q ≤ 2 ^ k) :
    ∃ r, StandsFor (x / y) r ∧ 2 ^ n ≤ r ∧ r ≤ 2 ^ k := by
  rcases hhigh.lt_or_eq with hlt | heq
  · exact standsFor_div_of_lt hx hy hp hq hn (by omega) hlow hlt
  · have hnk := (zpow_le_zpow_iff_right₀ (by norm_num)).mp (hlow.trans_eq heq)
    have hrepresentable : Representable (p / q) :=
      ⟨1, k, by rw [heq, Int.cast_one, one_mul], by norm_num, by omega, hk⟩
    exact ⟨p / q, standsFor_div hx hy hq.ne' hrepresentable, hlow, heq.le⟩

end Letterform.Double
