import Letterform.Proofs.Number.Comparison

/-!
# Doubles are lawful scalars

Besides the exact operations this needs what becomes of the doubles that stand for no number: what
is not a number stays so in all arithmetic, and infinities stay above all numbers.
-/

namespace Letterform.Double

open Float.Model (Format UnpackedFloat)
open Float.Model.UnpackedFloat
open Scalar (Storable halfAway towardZero)

theorem representable_of_storable {q : ℚ} (h : Storable q) : Representable q := by
  obtain ⟨n, k, hn, hk, rfl⟩ := h
  refine ⟨n, -k, ?_, hn, by omega, by omega⟩
  rw [zpow_neg, zpow_natCast, div_eq_mul_inv]

-- ---------------------------------------------------------------------------
-- Not a number
-- ---------------------------------------------------------------------------

theorem beq_self_iff (x : Float) : (x == x) = true ↔ unpacked x ≠ .notANumber := by
  rw [beq_iff_compare]
  rcases unpacked x with s | _ | s | ⟨s, m, e, h⟩
  · cases s <;> simp [UnpackedFloat.compare] <;> decide
  · simp [UnpackedFloat.compare]
  · cases s <;> simp [UnpackedFloat.compare]
  · cases s <;> simp [UnpackedFloat.compare]

theorem unpacked_mul (x y : Float) :
    unpacked (x * y) = stored (UnpackedFloat.mul .binary64 (unpacked x) (unpacked y)) := rfl

theorem unpacked_div (x y : Float) :
    unpacked (x / y) = stored (UnpackedFloat.div .binary64 (unpacked x) (unpacked y)) := rfl

theorem unpacked_add (x y : Float) :
    unpacked (x + y) = stored (UnpackedFloat.add .binary64 (unpacked x) (unpacked y)) := rfl

theorem unpacked_sub (x y : Float) :
    unpacked (x - y) = stored (UnpackedFloat.sub .binary64 (unpacked x) (unpacked y)) := rfl

theorem stored_notANumber : stored .notANumber = .notANumber := unpack_pack_notANumber

theorem withWhole_eq_self {rule : Sign → ℕ → ℕ → ℕ} {x : Float}
    (h : ∀ s m e hm, unpacked x ≠ .finite s m e hm) : withWhole rule x = x := by
  unfold withWhole
  split
  · rename_i s m e hm hx
    exact absurd hx (h s m e hm)
  · rfl

-- ---------------------------------------------------------------------------
-- A factor of one
-- ---------------------------------------------------------------------------

theorem unpacked_one :
    unpacked (Float.ofInt 1) = .finite .positive (2 ^ 52) (-52) (by norm_num) := rfl

theorem mul_ofInt_one (x : Float) : x * Float.ofInt 1 = x := by
  have hsign (s : Sign) : s * .positive = s := by cases s <;> rfl
  refine unpacked_injective ?_
  rw [unpacked_mul, unpacked_one]
  have hu := isUnpacked_unpacked x
  generalize unpacked x = u at hu ⊢
  cases hu with
  | notANumber => exact stored_notANumber
  | infinity s => exact (unpack_pack_infinity _).trans (by rw [hsign])
  | zero s => exact (unpack_pack_zero _).trans (by rw [hsign])
  | finite s m e hm hc he =>
    have hexact : ((m * 2 ^ 52 : ℕ) : ℚ) * 2 ^ (e + -52) = m * 2 ^ e := by
      rw [zpow_add₀ two_ne_zero]
      push_cast
      norm_num
      ring
    have hround : roundWithAccuracy .binary64 (s * .positive) (m * 2 ^ 52) (e + -52) .exact =
        .finite (s * .positive) m e hm :=
      roundWithAccuracy_exact _ hm (hc.targetExponent hm) (by omega) hexact
    show stored (roundWithAccuracy .binary64 (s * .positive) (m * 2 ^ 52) (e + -52) .exact) = _
    rw [hround, hsign]
    exact unpack_pack_finite s hm hc he

-- ---------------------------------------------------------------------------
-- Powers of two
-- ---------------------------------------------------------------------------

theorem stored_finite_infinity (s : Sign) {m : ℕ} {e : ℤ} (h : 0 < m) (he : 971 < e) :
    stored (.finite s m e h) = .infinity s := by
  have hbias : (Format.binary64.exponentBias : ℤ) = 1023 := rfl
  have hfit : 2 ^ 11 ≤ (e + 1023 + ((52 : ℕ) : ℤ)).toNat + 1 := by
    push_cast
    omega
  simp only [stored, pack, hbias]
  rw [if_pos hfit]
  exact unpack_pack_infinity s

theorem mul_two_pow_cases {x y : Float} {q : ℚ} {k : ℕ} (hx : StandsFor x q)
    (hy : StandsFor y (2 ^ k)) (hk : k ≤ 971) :
    StandsFor (x * y) (q * 2 ^ k) ∨
      (∃ s, unpacked (x * y) = .infinity s) ∧ (2 : ℚ) ^ (971 : ℤ) < |q * 2 ^ k| := by
  rcases hx.cases with ⟨s, -, rfl⟩ | ⟨s, m, e, hm, hux, hc, he, rfl⟩
  · have hzero : Representable (0 * 2 ^ k) := by
      simpa using representable_intCast (n := 0) (by norm_num)
    exact .inl (standsFor_mul hx hy hzero)
  by_cases hsmall : e + k ≤ 971
  · refine .inl (standsFor_mul hx hy ⟨s.apply m, e + k, ?_, ?_, ?_, hsmall⟩)
    · rw [zpow_add₀ (by norm_num : (2 : ℚ) ≠ 0), zpow_natCast, mul_assoc]
    · have := hc.lt
      cases s <;> simp only [Sign.apply, abs_neg, Nat.abs_cast] <;> exact_mod_cast this
    · have := hc.le
      omega
  · obtain ⟨m', e', hm', huy, hc', hval⟩ := hy.cases_pos (by positivity)
    have hck : IsCanonical m (e + k) :=
      ⟨hc.lt, by have := hc.le; omega, .inl (hc.full.resolve_right (by omega))⟩
    have heq : ((m * m' : ℕ) : ℚ) * 2 ^ (e + e') = m * 2 ^ (e + k) := by
      rw [zpow_add₀ (by norm_num : (2 : ℚ) ≠ 0), zpow_add₀ (by norm_num : (2 : ℚ) ≠ 0),
        zpow_natCast, hval]
      push_cast
      ring
    refine .inr ⟨⟨s * .positive, ?_⟩, ?_⟩
    · rw [unpacked_mul, hux, huy]
      show stored (roundWithAccuracy .binary64 (s * .positive) (m * m') (e + e') .exact) = _
      rw [roundWithAccuracy_exact _ hm (hck.targetExponent hm) (hc.add_le hc' hm hm' hck heq) heq]
      exact stored_finite_infinity _ hm (by omega)
    · rw [mul_assoc, ← zpow_natCast, ← zpow_add₀ (by norm_num : (2 : ℚ) ≠ 0), abs_apply]
      calc (2 : ℚ) ^ (971 : ℤ) < 2 ^ (e + k) := zpow_lt_zpow_right₀ (by norm_num) (by omega)
        _ ≤ m * 2 ^ (e + k) :=
          le_mul_of_one_le_left (two_zpow_pos _).le (by exact_mod_cast hm)

-- ---------------------------------------------------------------------------
-- Snapping
-- ---------------------------------------------------------------------------

def gridSteps : Float := Float.ofInt 1024

theorem standsFor_gridSteps : StandsFor gridSteps ((1024 : ℤ) : ℚ) :=
  standsFor_ofInt (by norm_num)

theorem snap_eq (x : Float) : Scalar.snap x = round (x * gridSteps) / gridSteps := rfl

theorem snap_notANumber {x : Float} (h : unpacked x = .notANumber) :
    unpacked (Scalar.snap x) = .notANumber := by
  have hmul : unpacked (x * gridSteps) = .notANumber := by
    rw [unpacked_mul, h]
    exact stored_notANumber
  have hround : round (x * gridSteps) = x * gridSteps :=
    withWhole_eq_self fun _ _ _ _ h => by rw [hmul] at h; cases h
  rw [snap_eq, hround, unpacked_div, hmul]
  exact stored_notANumber

-- ---------------------------------------------------------------------------
-- Out of range
-- ---------------------------------------------------------------------------

theorem abs_eq (x : Float) :
    Scalar.abs x = if x ≤ Float.ofInt 0 then Float.ofInt 0 - x else x := rfl

theorem standsFor_abs {x : Float} {q : ℚ} (h : StandsFor x q) : StandsFor (Scalar.abs x) |q| := by
  have hzero : StandsFor (Float.ofInt 0) ((0 : ℤ) : ℚ) := standsFor_ofInt (by norm_num)
  rw [abs_eq]
  split_ifs with hle
  · have hq : q ≤ 0 := by exact_mod_cast (le_iff h hzero).mp hle
    have heq : ((0 : ℤ) : ℚ) - q = |q| := by rw [abs_of_nonpos hq]; simp
    rw [← heq]
    refine standsFor_sub hzero h ?_
    simpa using representable_neg (representable_of_standsFor h)
  · have hq : 0 < q := not_le.mp fun hq => hle ((le_iff h hzero).mpr (by exact_mod_cast hq))
    rwa [abs_of_pos hq]

theorem unpacked_abs_infinity {x : Float} {s : Sign} (hx : unpacked x = .infinity s) :
    unpacked (Scalar.abs x) = .infinity .positive := by
  have hzero : StandsFor (Float.ofInt 0) ((0 : ℤ) : ℚ) := standsFor_ofInt (by norm_num)
  rw [abs_eq]
  cases s with
  | negative =>
    rw [if_pos ((le_iff_compare _ _).mpr ?_), unpacked_sub, hx]
    · rcases hzero.cases with ⟨s', hu, -⟩ | ⟨s', m, e, hm, hu, -⟩
      all_goals
        rw [hu]
        exact unpack_pack_infinity _
    · rw [hx]
      rcases hzero.cases with ⟨s', hu, -⟩ | ⟨s', m, e, hm, hu, -⟩ <;> rw [hu] <;> rfl
  | positive =>
    rw [if_neg, hx]
    rw [le_iff_compare, hx]
    rcases hzero.cases with ⟨s', hu, -⟩ | ⟨s', m, e, hm, hu, -⟩ <;> rw [hu] <;>
      simp [UnpackedFloat.compare]

theorem lt_abs_infinity {x y : Float} {s : Sign} {q : ℚ} (hx : unpacked x = .infinity s)
    (hy : StandsFor y q) : y < Scalar.abs x := by
  rw [lt_iff_compare, unpacked_abs_infinity hx]
  rcases hy.cases with ⟨s', hu, -⟩ | ⟨s', m, e, hm, hu, -⟩
  · rw [hu]
    rfl
  · rw [hu]
    cases s' <;> rfl

theorem snap_of_mul_infinity {x : Float} {s : Sign} (h : unpacked (x * gridSteps) = .infinity s) :
    ∃ s', unpacked (Scalar.snap x) = .infinity s' := by
  have hround : round (x * gridSteps) = x * gridSteps :=
    withWhole_eq_self fun _ _ _ _ hx => by rw [h] at hx; cases hx
  obtain ⟨m, e, hm, hu, -⟩ := standsFor_gridSteps.cases_pos (by norm_num)
  rw [snap_eq, hround, unpacked_div, h, hu]
  exact ⟨_, unpack_pack_infinity _⟩

theorem representable_div_1024 {n : ℤ} (h : Representable n) : Representable ((n : ℚ) / 1024) := by
  by_cases hn : |n| < 2 ^ 53
  · exact representable_of_storable ⟨n, 10, hn, by norm_num, by norm_num⟩
  obtain ⟨c, g, hq, hc, hlow, hhigh⟩ := h
  have hg : 0 ≤ g := by
    by_contra hneg
    have hle : (2 : ℚ) ^ g ≤ 1 := zpow_le_one_of_nonpos₀ (by norm_num) (by omega)
    have habs : |(n : ℚ)| ≤ |(c : ℚ)| := by
      rw [hq, abs_mul, abs_of_pos (two_zpow_pos g)]
      exact mul_le_of_le_one_right (abs_nonneg _) hle
    have : |n| ≤ |c| := by exact_mod_cast habs
    omega
  refine ⟨c, g - 10, ?_, hc, by omega, by omega⟩
  rw [hq, zpow_sub₀ (by norm_num : (2 : ℚ) ≠ 0), mul_div_assoc]
  norm_num

theorem snap_standsFor {x : Float} {q : ℚ} (hx : StandsFor x q) (h : Representable (q * 1024)) :
    StandsFor (Scalar.snap x) (halfAway (q * 1024) / 1024) := by
  have hround := standsFor_round (standsFor_mul hx standsFor_gridSteps (by exact_mod_cast h))
  have := standsFor_div hround standsFor_gridSteps (by norm_num)
    (by exact_mod_cast representable_div_1024 (representable_of_standsFor hround))
  exact_mod_cast this

theorem snap_cases {x : Float} (hx : (x == x) = true) :
    (∃ q, StandsFor x q ∧ StandsFor (Scalar.snap x) (halfAway (q * 1024) / 1024)) ∨
      ∀ y q, StandsFor y q → y < Scalar.abs (Scalar.snap x) := by
  have hsteps : StandsFor gridSteps (2 ^ 10) := by
    have := standsFor_gridSteps
    norm_num at this ⊢
    exact this
  obtain ⟨m', e', hm', hu', -⟩ := hsteps.cases_pos (by norm_num)
  have hbeyond {s : Sign} (h : unpacked (x * gridSteps) = .infinity s) :
      ∀ y q, StandsFor y q → y < Scalar.abs (Scalar.snap x) := by
    intro y q hy
    obtain ⟨s', hs'⟩ := snap_of_mul_infinity h
    exact lt_abs_infinity hs' hy
  have hfinite (h : (unpacked x).isFinite = true) :
      (∃ q, StandsFor x q ∧ StandsFor (Scalar.snap x) (halfAway (q * 1024) / 1024)) ∨
        ∀ y q, StandsFor y q → y < Scalar.abs (Scalar.snap x) := by
    have hx := standsFor_of_isFinite h
    rcases mul_two_pow_cases hx hsteps (by norm_num) with hmul | ⟨⟨s, hinfinity⟩, -⟩
    · refine .inl ⟨_, hx, snap_standsFor hx ?_⟩
      have := representable_of_standsFor hmul
      norm_num at this ⊢
      exact this
    · exact .inr (hbeyond hinfinity)
  have hu := isUnpacked_unpacked x
  generalize hux : unpacked x = u at hu
  cases hu with
  | notANumber => exact absurd hux ((beq_self_iff x).mp hx)
  | infinity s =>
    refine .inr (hbeyond (s := s * .positive) ?_)
    rw [unpacked_mul, hux, hu']
    exact unpack_pack_infinity _
  | zero s => exact hfinite (by rw [hux]; rfl)
  | finite s m e hm hc he => exact hfinite (by rw [hux]; rfl)

theorem standsFor_of_beq {x y : Float} {q : ℚ} (h : (x == y) = true) (hy : StandsFor y q) :
    StandsFor x q := by
  have hfin : (unpacked x).isFinite = true := by
    have hcompare := (beq_iff_compare x y).mp h
    generalize unpacked x = u at hcompare ⊢
    rcases hy.cases with ⟨s, hv, -⟩ | ⟨s, m, e, hm, hv, -⟩ <;> rw [hv] at hcompare
    all_goals
      rcases u with s' | _ | s' | ⟨s', m', e', hm'⟩
      · cases s' <;> cases hcompare
      · cases hcompare
      · rfl
      · rfl
  have hx := standsFor_of_isFinite hfin
  exact (beq_iff hx hy).mp h ▸ hx

theorem standsFor_sub_zero {x : Float} {q : ℚ} (h : StandsFor x q) :
    StandsFor (x - Float.ofInt 0) q := by
  have hzero : StandsFor (Float.ofInt 0) ((0 : ℤ) : ℚ) := standsFor_ofInt (by norm_num)
  rw [Int.cast_zero] at hzero
  have hq : Representable (q - 0) := by
    rw [sub_zero]
    exact representable_of_standsFor h
  have hsub := standsFor_sub h hzero hq
  rwa [sub_zero] at hsub

theorem beq_self_of_ne {x : Float} {P : Prop} (h : P) (hx : unpacked x = .notANumber → ¬ P) :
    (x == x) = true :=
  (beq_self_iff x).mpr fun hn => hx hn h

instance : LawfulScalar Float where
  Denotes := StandsFor
  unique := StandsFor.unique
  ofInt := standsFor_ofInt
  neg := standsFor_neg
  add hp hq h := standsFor_add hp hq (representable_of_storable h)
  sub hp hq h := standsFor_sub hp hq (representable_of_storable h)
  mul hp hq h := standsFor_mul hp hq (representable_of_storable h)
  div hp hq hne h := standsFor_div hp hq hne (representable_of_storable h)
  abs := standsFor_abs
  lt_iff := lt_iff
  le_iff := le_iff
  beq_iff := beq_iff
  floor := standsFor_floor
  round := standsFor_round
  truncate low high h := by
    show max low (min high _) = _
    rw [toInt_eq h]
  truncate_mem h := ⟨le_max_left _ _, max_le h (min_le_left _ _)⟩
  sub_zero := standsFor_sub_zero
  snap := snap_cases
  denotes_of_beq := standsFor_of_beq
  beq_self_of_lt h := beq_self_of_ne h fun hn => by
    rw [lt_iff_compare, hn]
    exact fun h => by cases h
  beq_self_of_le h := beq_self_of_ne h fun hn => by
    rw [le_iff_compare, hn]
    exact Bool.false_ne_true
  beq_self_of_sub h := beq_self_of_ne h fun hn => by
    rw [beq_self_iff, unpacked_sub, hn]
    exact fun h => h stored_notANumber
  beq_self_of_snap h := beq_self_of_ne h fun hn => by
    rw [beq_self_iff]
    exact fun h => h (snap_notANumber hn)

end Letterform.Double
