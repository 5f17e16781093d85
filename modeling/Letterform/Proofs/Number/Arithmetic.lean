import Letterform.Proofs.Number.Rounding

/-!
# Arithmetic on doubles

What the operations on doubles give where the exact result can be stored, and how doubles that
stand for numbers compare.
-/

namespace Letterform.Double

open Float.Model (Format UnpackedFloat totalExponent)
open Float.Model.UnpackedFloat

def unpacked (x : Float) : UnpackedFloat := x.toModel.unpack

def StandsFor (x : Float) (q : ℚ) : Prop := Holds (unpacked x) q

theorem unpacked_injective : Function.Injective unpacked := by
  rintro ⟨⟨⟨b⟩, hb⟩⟩ ⟨⟨⟨c⟩, hc⟩⟩ h
  obtain rfl : b = c := (unpack_inj_of_valid hb hc).mp h
  rfl

theorem isUnpacked_unpacked (x : Float) : IsUnpacked (unpacked x) := isUnpacked_unpack _

theorem StandsFor.unique {x : Float} {p q : ℚ} (hp : StandsFor x p) (hq : StandsFor x q) :
    p = q := hp.value_eq.symm.trans hq.value_eq

theorem standsFor_of_isFinite {x : Float} (h : x.isFinite = true) :
    StandsFor x (value (unpacked x)) := ⟨h, rfl⟩

theorem StandsFor.cases {x : Float} {q : ℚ} (h : StandsFor x q) :
    (∃ s, unpacked x = .zero s ∧ q = 0) ∨
      ∃ (s : Sign) (m : ℕ) (e : ℤ) (hm : 0 < m), unpacked x = .finite s m e hm ∧
        IsCanonical m e ∧ e ≤ 971 ∧ q = s.apply m * 2 ^ e := by
  obtain ⟨hfin, rfl⟩ := h
  rcases hu : unpacked x with s | _ | s | ⟨s, m, e, hm⟩
  · simp [hu, UnpackedFloat.isFinite] at hfin
  · simp [hu, UnpackedFloat.isFinite] at hfin
  · exact .inl ⟨s, rfl, rfl⟩
  · have := isUnpacked_unpacked x
    rw [hu] at this
    cases this with
    | finite _ _ _ _ hc he => exact .inr ⟨s, m, e, hm, rfl, hc, he, rfl⟩

theorem StandsFor.cases_pos {x : Float} {q : ℚ} (h : StandsFor x q) (hq : 0 < q) :
    ∃ m e hm, unpacked x = .finite .positive m e hm ∧ IsCanonical m e ∧ q = m * 2 ^ e := by
  rcases h.cases with ⟨s, -, rfl⟩ | ⟨_ | _, m, e, hm, hu, hc, -, rfl⟩
  · exact absurd hq (lt_irrefl 0)
  · have : (0 : ℚ) ≤ m * 2 ^ e := mul_nonneg (Nat.cast_nonneg m) (two_zpow_pos e).le
    rw [apply_mul, Sign.apply] at hq
    push_cast at hq
    linarith
  · exact ⟨m, e, hm, hu, hc, rfl⟩

theorem representable_of_standsFor {x : Float} {q : ℚ} (h : StandsFor x q) :
    Representable q := by
  rcases h.cases with ⟨s, -, rfl⟩ | ⟨s, m, e, hm, -, hc, he, rfl⟩
  · exact ⟨0, 0, by simp, by simp, by norm_num, by norm_num⟩
  · refine ⟨s.apply m, e, rfl, ?_, hc.le, he⟩
    have := hc.lt
    cases s <;> simp only [Sign.apply, abs_neg, Nat.abs_cast] <;> exact_mod_cast this

-- ---------------------------------------------------------------------------
-- Signs, sums and differences
-- ---------------------------------------------------------------------------

theorem apply_neg (s : Sign) (n : ℤ) : (-s).apply n = -s.apply n := by
  cases s with
  | negative => exact (neg_neg n).symm
  | positive => rfl

theorem holds_stored_zero (s : Sign) : Holds (stored (.zero s)) 0 := by
  rw [stored, unpack_pack_zero]
  exact ⟨rfl, rfl⟩

theorem isUnpacked_neg {u : UnpackedFloat} (h : IsUnpacked u) : IsUnpacked u.neg := by
  cases h with
  | notANumber => exact .notANumber
  | infinity s => exact .infinity (-s)
  | zero s => exact .zero (-s)
  | finite s m e hm hc he => exact .finite (-s) m e hm hc he

theorem unpacked_neg (x : Float) : unpacked (-x) = (unpacked x).neg :=
  unpack_pack (isUnpacked_neg (isUnpacked_unpacked x))

theorem isFinite_neg (u : UnpackedFloat) : u.neg.isFinite = u.isFinite := by
  cases u <;> rfl

theorem standsFor_neg {x : Float} {q : ℚ} (h : StandsFor x q) : StandsFor (-x) (-q) := by
  rw [StandsFor, unpacked_neg]
  refine ⟨(isFinite_neg _).trans h.isFinite, ?_⟩
  rw [← h.value_eq]
  cases unpacked x with
  | notANumber => exact neg_zero.symm
  | infinity => exact neg_zero.symm
  | zero => exact neg_zero.symm
  | finite s m e hm =>
    rw [UnpackedFloat.neg, value, value, apply_neg, Int.cast_neg, neg_mul]

theorem decreaseExponent_value (s : Sign) (m : ℕ) {e t : ℤ} (h : t ≤ e) :
    (s.apply (decreaseExponent m e t).1 : ℚ) * 2 ^ t = s.apply m * 2 ^ e := by
  obtain ⟨k, rfl⟩ : ∃ k : ℕ, e = t + k := ⟨(e - t).toNat, by omega⟩
  have hk : (decreaseExponent m (t + k) t).1 = m * 2 ^ k := by
    simp [decreaseExponent, Nat.shiftLeft_eq]
  rw [hk, zpow_add₀ (by norm_num : (2 : ℚ) ≠ 0), zpow_natCast]
  cases s <;> simp only [Sign.apply] <;> push_cast <;> ring

theorem standsFor_add {x y : Float} {p q : ℚ} (hx : StandsFor x p) (hy : StandsFor y q)
    (h : Representable (p + q)) : StandsFor (x + y) (p + q) := by
  show Holds (stored (UnpackedFloat.add .binary64 (unpacked x) (unpacked y))) _
  rcases hx.cases with ⟨s, hu, rfl⟩ | ⟨s, m, e, hm, hu, hc, he, rfl⟩ <;>
    rcases hy.cases with ⟨s', hv, rfl⟩ | ⟨s', m', e', hm', hv, hc', he', rfl⟩
  · rw [hu, hv, add_zero]
    simp only [UnpackedFloat.add]
    split_ifs
    · exact holds_stored_zero _
    · exact holds_stored_zero _
  · rw [zero_add, hu, hv]
    exact holds_stored_finite s' hm' hc' he'
  · rw [add_zero, hu, hv]
    exact holds_stored_finite s hm hc he
  · rw [hu, hv]
    simp only [UnpackedFloat.add]
    rw [← decreaseExponent_value s m (min_le_left e e'),
      ← decreaseExponent_value s' m' (min_le_right e e'), ← add_mul, ← Int.cast_add] at h ⊢
    exact holds_normalize h

theorem sub_eq_add (x y : Float) : x - y = x + -y := by
  have hsub (u v : UnpackedFloat) :
      UnpackedFloat.sub .binary64 u v = UnpackedFloat.add .binary64 u v.neg := by
    rcases u with s | _ | s | ⟨s, m, e, hm⟩ <;> rcases v with s' | _ | s' | ⟨s', m', e', hm'⟩ <;>
      try rfl
    simp only [UnpackedFloat.sub, UnpackedFloat.add, UnpackedFloat.neg, apply_neg,
      Int.sub_eq_add_neg]
  refine unpacked_injective ?_
  show stored (UnpackedFloat.sub .binary64 (unpacked x) (unpacked y)) =
    stored (UnpackedFloat.add .binary64 (unpacked x) (unpacked (-y)))
  rw [unpacked_neg, hsub]

theorem standsFor_sub {x y : Float} {p q : ℚ} (hx : StandsFor x p) (hy : StandsFor y q)
    (h : Representable (p - q)) : StandsFor (x - y) (p - q) := by
  rw [sub_eq_add]
  rw [sub_eq_add_neg] at h ⊢
  exact standsFor_add hx (standsFor_neg hy) h

-- ---------------------------------------------------------------------------
-- Products and quotients
-- ---------------------------------------------------------------------------

theorem apply_mul_apply (s s' : Sign) (m m' : ℕ) :
    (s * s').apply ((m * m' : ℕ) : ℤ) = s.apply m * s'.apply m' := by
  rw [Int.natCast_mul]
  cases s <;> cases s'
  · exact (neg_mul_neg (m : ℤ) m').symm
  · exact (neg_mul (m : ℤ) m').symm
  · exact (mul_neg (m : ℤ) m').symm
  · rfl

theorem IsCanonical.add_le {m m' M : ℕ} {e e' t : ℤ} (hc : IsCanonical m e)
    (hc' : IsCanonical m' e') (hm : 0 < m) (hm' : 0 < m') (hM : IsCanonical M t)
    (h : ((m * m' : ℕ) : ℚ) * 2 ^ (e + e') = M * 2 ^ t) : e + e' ≤ t := by
  by_contra hlt
  have hM' := eq_mul_two_pow h.symm (by omega)
  have hpow : 2 ≤ 2 ^ (e + e' - t).toNat := by
    calc 2 = 2 ^ 1 := rfl
      _ ≤ 2 ^ (e + e' - t).toNat := Nat.pow_le_pow_right (by norm_num) (by omega)
  have hfull : 2 ^ 52 ≤ m * m' := by
    rcases hc.full with hf | rfl
    · exact hf.trans (Nat.le_mul_of_pos_right m hm')
    · rcases hc'.full with hf | rfl
      · exact hf.trans (Nat.le_mul_of_pos_left m' hm)
      · have := hM.le
        omega
  have := Nat.mul_le_mul hfull hpow
  have := hM.lt
  omega

theorem standsFor_mul {x y : Float} {p q : ℚ} (hx : StandsFor x p) (hy : StandsFor y q)
    (h : Representable (p * q)) : StandsFor (x * y) (p * q) := by
  show Holds (stored (UnpackedFloat.mul .binary64 (unpacked x) (unpacked y))) _
  rcases hx.cases with ⟨s, hu, rfl⟩ | ⟨s, m, e, hm, hu, hc, he, rfl⟩ <;>
    rcases hy.cases with ⟨s', hv, rfl⟩ | ⟨s', m', e', hm', hv, hc', he', rfl⟩
  · rw [hu, hv, mul_zero]
    exact holds_stored_zero _
  · rw [hu, hv, zero_mul]
    exact holds_stored_zero _
  · rw [hu, hv, mul_zero]
    exact holds_stored_zero _
  · have hq : (s.apply m * 2 ^ e * (s'.apply m' * 2 ^ e') : ℚ) =
        ((s * s').apply ((m * m' : ℕ) : ℤ) : ℤ) * 2 ^ (e + e') := by
      rw [apply_mul_apply, zpow_add₀ (by norm_num : (2 : ℚ) ≠ 0)]
      push_cast
      ring
    rw [hq] at h ⊢
    rw [hu, hv]
    rw [apply_mul] at h
    obtain ⟨M, t, hM, hMc, ht, heq⟩ := exists_canonical (Nat.mul_pos hm hm') (representable_apply h)
    exact holds_roundWithAccuracy _ hM hMc ht (hc.add_le hc' hm hm' hMc heq) heq

theorem log2_mul_le {m n : ℕ} (hm : 0 < m) (hn : 0 < n) :
    (m * n).log2 ≤ m.log2 + n.log2 + 1 := by
  have h1 : m < 2 ^ (m.log2 + 1) := Nat.lt_log2_self
  have h2 : n < 2 ^ (n.log2 + 1) := Nat.lt_log2_self
  have h3 : m * n < 2 ^ (m.log2 + n.log2 + 2) := by
    calc m * n < 2 ^ (m.log2 + 1) * 2 ^ (n.log2 + 1) := Nat.mul_lt_mul'' h1 h2
      _ = 2 ^ (m.log2 + n.log2 + 2) := by rw [← pow_add]; congr 1; omega
  have := (Nat.log2_lt (Nat.mul_pos hm hn).ne').mpr h3
  omega

theorem divCore_exact {m m' M : ℕ} {e e' t : ℤ} (hm : 0 < m) (hm' : 0 < m') (hM : 0 < M)
    (hc : IsCanonical M t) (h : (m : ℚ) * 2 ^ e = M * 2 ^ t * (m' * 2 ^ e')) :
    ∃ (q : ℕ) (g : ℤ), divCore .binary64 m e m' e' = (q, g, .exact) ∧ g ≤ t ∧
      (q : ℚ) * 2 ^ g = M * 2 ^ t := by
  have h2 : (2 : ℚ) ≠ 0 := by norm_num
  have hprod : (m : ℚ) * 2 ^ e = ((M * m' : ℕ) : ℚ) * 2 ^ (t + e') := by
    rw [h, zpow_add₀ h2]
    push_cast
    ring
  let g : ℤ := min (e - e') (Format.binary64.targetExponent (totalExponent m e - totalExponent m' e'))
  have hg : g ≤ t := by
    have hlog := log2_mul_le hM hm'
    have htotal := totalExponent_eq hm (Nat.mul_pos hM hm') hprod
    have htarget := hc.targetExponent hM
    rw [targetExponent_eq] at htarget
    have hmin : g ≤ Format.binary64.targetExponent (totalExponent m e - totalExponent m' e') :=
      min_le_right _ _
    rw [targetExponent_eq, htotal] at hmin
    unfold totalExponent at hmin htarget
    omega
  have hshift : m * 2 ^ (e - e' - g).toNat = M * m' * 2 ^ (t - g).toNat := by
    have hk : e = (e - e' - g).toNat + (g + e') := by
      have : g ≤ e - e' := min_le_left _ _
      omega
    have := eq_mul_two_pow (m := m * 2 ^ (e - e' - g).toNat) (e := g + e') (t := t + e')
      (by
        rw [← hprod]
        conv_rhs => rw [hk]
        rw [zpow_add₀ h2 ((e - e' - g).toNat : ℤ), zpow_natCast]
        push_cast
        ring) (by omega)
    rwa [show t + e' - (g + e') = t - g by ring] at this
  refine ⟨M * 2 ^ (t - g).toNat, g, ?_, hg, ?_⟩
  · have hm2 : m <<< (e - e' - g).toNat = M * 2 ^ (t - g).toNat * m' := by
      rw [Nat.shiftLeft_eq, hshift]
      ring
    show ((m <<< (e - e' - g).toNat) / m', g,
      accuracyOfFraction ((m <<< (e - e' - g).toNat) % m') m') = _
    rw [hm2, Nat.mul_div_cancel _ hm', Nat.mul_mod_left]
    rfl
  · obtain ⟨k, rfl⟩ : ∃ k : ℕ, t = g + k := ⟨(t - g).toNat, by omega⟩
    rw [add_sub_cancel_left, Int.toNat_natCast, zpow_add₀ h2, zpow_natCast]
    push_cast
    ring

theorem apply_div (s s' : Sign) (m m' : ℚ) :
    (s.apply 1 * m) / (s'.apply 1 * m') = (s / s').apply 1 * (m / m') := by
  cases s <;> cases s'
  · show (((-1 : ℤ) : ℚ) * m) / (((-1 : ℤ) : ℚ) * m') = ((1 : ℤ) : ℚ) * (m / m')
    push_cast
    rw [neg_one_mul, neg_one_mul, neg_div_neg_eq, one_mul]
  · show (((-1 : ℤ) : ℚ) * m) / (((1 : ℤ) : ℚ) * m') = ((-1 : ℤ) : ℚ) * (m / m')
    push_cast
    rw [one_mul, mul_div_assoc]
  · show (((1 : ℤ) : ℚ) * m) / (((-1 : ℤ) : ℚ) * m') = ((-1 : ℤ) : ℚ) * (m / m')
    push_cast
    rw [one_mul, neg_one_mul, neg_one_mul, div_neg]
  · show (((1 : ℤ) : ℚ) * m) / (((1 : ℤ) : ℚ) * m') = ((1 : ℤ) : ℚ) * (m / m')
    push_cast
    simp only [one_mul]

theorem standsFor_div {x y : Float} {p q : ℚ} (hx : StandsFor x p) (hy : StandsFor y q)
    (hq : q ≠ 0) (h : Representable (p / q)) : StandsFor (x / y) (p / q) := by
  show Holds (stored (UnpackedFloat.div .binary64 (unpacked x) (unpacked y))) _
  rcases hy.cases with ⟨s', hv, rfl⟩ | ⟨s', m', e', hm', hv, hc', he', rfl⟩
  · exact absurd rfl hq
  rcases hx.cases with ⟨s, hu, rfl⟩ | ⟨s, m, e, hm, hu, hc, he, rfl⟩
  · rw [hu, hv, zero_div]
    exact holds_stored_zero _
  rw [apply_mul s, apply_mul s', apply_div] at h ⊢
  have hm'q : (0 : ℚ) < m' * 2 ^ e' := mul_pos (by exact_mod_cast hm') (two_zpow_pos e')
  obtain ⟨c, g, hq', hrest⟩ := representable_apply h
  have hpos : (0 : ℚ) < c * 2 ^ g := by
    rw [← hq']
    exact div_pos (mul_pos (by exact_mod_cast hm) (two_zpow_pos e)) hm'q
  have hcpos : 0 < c := by
    have := (mul_pos_iff_of_pos_right (two_zpow_pos g)).mp hpos
    exact_mod_cast this
  lift c to ℕ using hcpos.le
  obtain ⟨M, t, hM, hMc, ht, heq⟩ := exists_canonical (m := c) (e := g) (by exact_mod_cast hcpos)
    ⟨c, g, rfl, hrest⟩
  have hprod : (m : ℚ) * 2 ^ e = M * 2 ^ t * (m' * 2 ^ e') := by
    rw [← heq, ← div_eq_iff hm'q.ne', hq']
    rfl
  obtain ⟨Q, k, hcore, hk, hQ⟩ := divCore_exact hm hm' hM hMc hprod
  rw [hu, hv]
  simp only [UnpackedFloat.div, hcore]
  have hval : (m : ℚ) * 2 ^ e / (m' * 2 ^ e') = Q * 2 ^ k := by
    rw [hQ, hprod, mul_div_assoc, div_self hm'q.ne', mul_one]
  rw [hval, ← apply_mul]
  exact holds_roundWithAccuracy _ hM hMc ht hk hQ

-- ---------------------------------------------------------------------------
-- Integers
-- ---------------------------------------------------------------------------

theorem representable_intCast {n : ℤ} (h : |n| < 2 ^ 53) : Representable n :=
  ⟨n, 0, by simp, h, by norm_num, by norm_num⟩

theorem standsFor_ofNat {n : ℕ} (h : n < 2 ^ 53) : StandsFor (Float.ofNat n) n := by
  have hrep : Representable ((n : ℤ) : ℚ) := representable_intCast (by rw [Nat.abs_cast]; exact_mod_cast h)
  have hword : StandsFor n.toUInt64.toFloat n := by
    show Holds (stored (UnpackedFloat.normalize .binary64 (n.toUInt64.toNat : ℤ) 0 .positive)) _
    have hn : n.toUInt64.toNat = n := by
      rw [Nat.toUInt64, UInt64.toNat_ofNat', Nat.mod_eq_of_lt (by omega)]
    rw [hn]
    have := holds_normalize (n := n) (e := 0) (s := .positive) (by simpa using hrep)
    simpa using this
  have hone : StandsFor (Float.ofBits 0x3FF0000000000000) 1 := by
    have : unpacked (Float.ofBits 0x3FF0000000000000) =
        .finite .positive 4503599627370496 (-52) (by norm_num) := by
      rfl
    rw [StandsFor, this]
    exact ⟨rfl, by norm_num [value, Sign.apply]⟩
  have hmul := standsFor_mul hword hone (by simpa using hrep)
  rw [mul_one] at hmul
  show StandsFor (Float.ofScientific n false 0) n
  unfold Float.ofScientific
  rw [dif_pos ⟨h, by norm_num⟩]
  exact hmul

theorem standsFor_ofInt {n : ℤ} (h : |n| < 2 ^ 53) : StandsFor (Float.ofInt n) n := by
  cases n with
  | ofNat n =>
    have : n < 2 ^ 53 := by
      have := (abs_lt.mp h).2
      simpa using this
    exact standsFor_ofNat this
  | negSucc n =>
    have : n + 1 < 2 ^ 53 := by
      have := (abs_lt.mp h).1
      omega
    have := standsFor_neg (standsFor_ofNat this)
    rw [show ((Int.negSucc n : ℤ) : ℚ) = -((n + 1 : ℕ) : ℚ) by rw [Int.cast_negSucc]]
    exact this

theorem standsFor_ofParts (s : Sign) {m : ℕ} (h : m < 2 ^ 53) :
    StandsFor (ofParts s m 0) (s.apply m) := by
  show Holds (stored (UnpackedFloat.round .binary64 s m 0)) _
  rcases Nat.eq_zero_or_pos m with rfl | hm
  · cases s <;> exact ⟨rfl, rfl⟩
  · have := holds_round s (e := 0) hm
    rw [zpow_zero, mul_one] at this
    refine this (representable_intCast ?_)
    cases s <;> simp only [Sign.apply, abs_neg, Nat.abs_cast] <;> exact_mod_cast h

end Letterform.Double
