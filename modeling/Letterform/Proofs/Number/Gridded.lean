import Letterform.Proofs.Number.Grid
import Letterform.Proofs.Number.RoundUp

/-!
# Sums on the grid

A snapped double that is finite is a multiple of 1/1024, and so is every finite sum of such doubles,
however large: where a sum has to be rounded the doubles lie no closer together than the grid does.
-/

namespace Letterform.Double

open Float.Model (UnpackedFloat)
open Float.Model.UnpackedFloat

/-- A double that stands for no number but a multiple of 1/1024. -/
def IsGridded (x : Float) : Prop := ∀ q, StandsFor x q → ∃ k : ℤ, q = k / 1024

-- ---------------------------------------------------------------------------
-- Finite results
-- ---------------------------------------------------------------------------

theorem isFinite_stored_infinity (s : Sign) : (stored (.infinity s)).isFinite = false := by
  rw [stored, unpack_pack_infinity]
  rfl

theorem isFinite_stored_notANumber : (stored .notANumber).isFinite = false := by
  rw [stored_notANumber]
  rfl

theorem finite_of_add {x y : Float} {r : ℚ} (h : StandsFor (x + y) r) :
    (∃ p, StandsFor x p) ∧ ∃ q, StandsFor y q := by
  have hfinite : (stored (UnpackedFloat.add .binary64 (unpacked x) (unpacked y))).isFinite = true :=
    h.isFinite
  have hboth : (unpacked x).isFinite = true ∧ (unpacked y).isFinite = true := by
    generalize unpacked x = u at hfinite ⊢
    generalize unpacked y = v at hfinite ⊢
    rcases u with s | _ | s | _ <;> rcases v with s' | _ | s' | _ <;>
      simp only [UnpackedFloat.add, isFinite_stored_infinity, isFinite_stored_notANumber,
        Bool.false_eq_true] at hfinite <;>
      first
        | exact ⟨rfl, rfl⟩
        | split_ifs at hfinite <;>
            simp [isFinite_stored_infinity, isFinite_stored_notANumber] at hfinite
  exact ⟨⟨_, standsFor_of_isFinite hboth.1⟩, _, standsFor_of_isFinite hboth.2⟩

theorem finite_of_sub {x y : Float} {r : ℚ} (h : StandsFor (x - y) r) :
    (∃ p, StandsFor x p) ∧ ∃ q, StandsFor y q := by
  rw [sub_eq_add] at h
  obtain ⟨hx, q, hq⟩ := finite_of_add h
  have hy : (unpacked y).isFinite = true := by
    rw [← isFinite_neg, ← unpacked_neg]
    exact hq.isFinite
  exact ⟨hx, _, standsFor_of_isFinite hy⟩

theorem beq_self_of_add {x y : Float} (h : (x + y == x + y) = true) :
    (x == x) = true ∧ (y == y) = true := by
  refine ⟨beq_self_of_ne h fun hx => ?_, beq_self_of_ne h fun hy => ?_⟩
  · rw [beq_self_iff, unpacked_add, hx]
    exact fun h => h stored_notANumber
  · rw [beq_self_iff, unpacked_add, hy]
    rcases unpacked x with s | _ | s | _ <;> exact fun h => h stored_notANumber

theorem beq_self_of_sub {x y : Float} (h : (x - y == x - y) = true) :
    (x == x) = true ∧ (y == y) = true := by
  rw [sub_eq_add] at h
  obtain ⟨hx, hy⟩ := beq_self_of_add h
  refine ⟨hx, beq_self_of_ne hy fun hn => ?_⟩
  rw [beq_self_iff, unpacked_neg, hn]
  exact fun h => h rfl

theorem abs_notANumber {x : Float} (h : unpacked x = .notANumber) : Scalar.abs x = x := by
  rw [abs_eq, if_neg]
  rw [le_iff_compare, h]
  exact Bool.false_ne_true

theorem finite_of_abs_lt {x y : Float} {q : ℚ} (hy : StandsFor y q) (h : Scalar.abs x < y) :
    ∃ p, StandsFor x p := by
  have hu := isUnpacked_unpacked x
  generalize hux : unpacked x = u at hu
  cases hu with
  | notANumber =>
    rw [abs_notANumber hux, lt_iff_compare, hux] at h
    cases h
  | infinity s =>
    rw [lt_iff_compare, unpacked_abs_infinity hux] at h
    rcases hy.cases with ⟨s', hv, -⟩ | ⟨s', m, e, hm, hv, -⟩ <;> rw [hv] at h <;> cases h
  | zero s => exact ⟨_, standsFor_of_isFinite (show (unpacked x).isFinite = true by rw [hux]; rfl)⟩
  | finite s m e hm =>
    exact ⟨_, standsFor_of_isFinite (show (unpacked x).isFinite = true by rw [hux]; rfl)⟩

theorem beq_self_of_beq {x y : Float} (h : (x == y) = true) : (y == y) = true := by
  rw [beq_iff_compare] at h
  rw [beq_self_iff]
  intro hy
  rw [hy] at h
  generalize unpacked x = u at h
  rcases u with _ | _ | _ | _ <;> cases h

-- ---------------------------------------------------------------------------
-- Differences that vanish
-- ---------------------------------------------------------------------------

/-- The exact difference of doubles can be stored, or it is large enough for a mantissa of full
length. -/
theorem representable_sub_or_far {p q : ℚ} (hp : Representable p) (hq : Representable q) :
    Representable (p - q) ∨ (2 : ℚ) ^ (-1021 : ℤ) ≤ |p - q| := by
  have hshift (c : ℤ) {g t : ℤ} (h : t ≤ g) :
      (c : ℚ) * 2 ^ g = (c * 2 ^ (g - t).toNat : ℤ) * 2 ^ t := by
    push_cast
    rw [mul_assoc, ← zpow_natCast, ← zpow_add₀ two_ne_zero, Int.toNat_of_nonneg (by omega),
      sub_add_cancel]
  obtain ⟨c, g, rfl, -, hg, hg'⟩ := hp
  obtain ⟨d, f, rfl, -, hf, hf'⟩ := hq
  rw [hshift c (min_le_left g f), hshift d (min_le_right g f), ← sub_mul, ← Int.cast_sub]
  generalize c * 2 ^ (g - min g f).toNat - d * 2 ^ (f - min g f).toNat = k
  by_cases hk : |k| < 2 ^ 53
  · exact .inl ⟨k, min g f, rfl, hk, by omega, by omega⟩
  · right
    have hk' : (2 : ℚ) ^ (53 : ℤ) ≤ |(k : ℚ)| := by exact_mod_cast not_lt.mp hk
    calc (2 : ℚ) ^ (-1021 : ℤ) = 2 ^ (53 : ℤ) * 2 ^ (-1074 : ℤ) := by
          rw [← zpow_add₀ two_ne_zero]
          norm_num
      _ ≤ |(k : ℚ)| * 2 ^ min g f :=
          mul_le_mul hk' (zpow_le_zpow_right₀ one_le_two (by omega)) (two_zpow_pos _).le
            (abs_nonneg _)
      _ = |(k : ℚ) * 2 ^ min g f| := by rw [abs_mul, abs_of_pos (two_zpow_pos _)]

/-- Only doubles that stand for the same number have a difference of zero: a difference is never so
small that it is rounded away. -/
theorem standsFor_of_sub_beq_zero {x y : Float} (h : (x - y == 0) = true) :
    ∃ q, StandsFor x q ∧ StandsFor y q := by
  have hzero : StandsFor (x - y) 0 := standsFor_of_beq h (by
    have := standsFor_ofInt (n := 0) (by norm_num)
    rwa [Int.cast_zero] at this)
  obtain ⟨⟨p, hp⟩, q, hq⟩ := finite_of_sub hzero
  rcases representable_sub_or_far (representable_of_standsFor hp) (representable_of_standsFor hq)
    with hexact | hfar
  · have hpq : p - q = 0 := (standsFor_sub hp hq hexact).unique hzero
    exact ⟨q, sub_eq_zero.mp hpq ▸ hp, hq⟩
  · have hle := (isFar_sub_zpow hp hq (by norm_num) hfar).le_abs hzero
    rw [abs_zero] at hle
    exact absurd hle (not_le_of_gt (two_zpow_pos _))

-- ---------------------------------------------------------------------------
-- Multiples of 1/1024
-- ---------------------------------------------------------------------------

theorem storable_grid {k : ℤ} (h : |k| < 2 ^ 53) : Scalar.Storable ((k : ℚ) / 1024) :=
  ⟨k, 10, h, by norm_num, by norm_num⟩

theorem le_abs_grid {k : ℤ} (h : ¬ |k| < 2 ^ 53) : (2 : ℚ) ^ 43 ≤ |(k : ℚ) / 1024| := by
  have hk : (2 : ℚ) ^ 53 ≤ |(k : ℚ)| := by exact_mod_cast not_lt.mp h
  rw [abs_div, le_div_iff₀ (by norm_num)]
  norm_num at hk ⊢
  exact hk

/-- Large doubles are multiples of 1/1024. -/
theorem exists_grid_of_le {x : Float} {q : ℚ} (hx : StandsFor x q) (h : (2 : ℚ) ^ 43 ≤ |q|) :
    ∃ k : ℤ, q = k / 1024 := by
  rcases hx.cases with ⟨s, -, rfl⟩ | ⟨s, m, e, hm, -, hc, -, rfl⟩
  · norm_num at h
  · rw [abs_apply] at h
    have hlt : (2 : ℚ) ^ (43 : ℤ) < 2 ^ (53 + e) := by
      rw [zpow_add₀ (by norm_num : (2 : ℚ) ≠ 0)]
      have hm' : (m : ℚ) < 2 ^ (53 : ℤ) := by exact_mod_cast hc.lt
      exact lt_of_le_of_lt h (mul_lt_mul_of_pos_right hm' (two_zpow_pos e))
    have he := (zpow_lt_zpow_iff_right₀ (by norm_num)).mp hlt
    obtain ⟨n, rfl⟩ : ∃ n : ℕ, e = n - 10 := ⟨(e + 10).toNat, by omega⟩
    refine ⟨s.apply m * 2 ^ n, ?_⟩
    rw [zpow_sub₀ (by norm_num : (2 : ℚ) ≠ 0), zpow_natCast]
    push_cast
    ring

theorem isGridded_zero : IsGridded 0 := fun q h =>
  ⟨0, by simpa using h.unique (standsFor_ofInt (n := 0) (by norm_num))⟩

theorem isGridded_snap (x : Float) : IsGridded (Scalar.snap x) := by
  intro q hq
  have hself : (Scalar.snap x == Scalar.snap x) = true := (beq_iff hq hq).mpr rfl
  rcases snap_cases (LawfulScalar.beq_self_of_snap hself) with ⟨p, -, hp⟩ | hfar
  · exact ⟨_, hq.unique hp⟩
  · have habs := standsFor_abs hq
    exact absurd ((lt_iff habs habs).mp (hfar _ _ habs)) (lt_irrefl _)

/-- A sum of multiples of 1/1024 is one too, or it is not finite. -/
theorem IsGridded.add {x y : Float} (hx : IsGridded x) (hy : IsGridded y) : IsGridded (x + y) := by
  intro r hr
  obtain ⟨⟨p, hp⟩, q, hq⟩ := finite_of_add hr
  obtain ⟨j, rfl⟩ := hx p hp
  obtain ⟨k, rfl⟩ := hy q hq
  have hsum : (j : ℚ) / 1024 + k / 1024 = (j + k : ℤ) / 1024 := by push_cast; ring
  by_cases hsmall : |j + k| < 2 ^ 53
  · exact ⟨j + k, hr.unique (hsum ▸ standsFor_add hp hq
      (representable_of_storable (hsum ▸ storable_grid hsmall)))⟩
  · exact exists_grid_of_le hr ((isFar_add hp hq (hsum ▸ le_abs_grid hsmall)).le_abs hr)

theorem IsGridded.eq_of_isClose {x y : Float} (hx : IsGridded x) (hy : IsGridded y)
    (h : Scalar.isClose x y = true) :
    ∃ k : ℤ, StandsFor x (k / 1024) ∧ StandsFor y (k / 1024) := by
  have hlt : Scalar.abs (x - y) < 1 / 2 / 1024 := of_decide_eq_true h
  have htolerance : StandsFor (1 / 2 / 1024 : Float) (1 / 2048)  :=
    Scalar.denotes_tolerance (α := Float)
  obtain ⟨r, hr⟩ := finite_of_abs_lt htolerance hlt
  obtain ⟨⟨p, hp⟩, q, hq⟩ := finite_of_sub hr
  obtain ⟨j, rfl⟩ := hx p hp
  obtain ⟨k, rfl⟩ := hy q hq
  have hdiff : (j : ℚ) / 1024 - k / 1024 = (j - k : ℤ) / 1024 := by push_cast; ring
  have hclose := (lt_iff (standsFor_abs hr) htolerance).mp hlt
  by_cases hsmall : |j - k| < 2 ^ 53
  · obtain rfl := hr.unique (hdiff ▸ standsFor_sub hp hq
      (representable_of_storable (hdiff ▸ storable_grid hsmall)))
    rw [abs_div, div_lt_iff₀ (by norm_num)] at hclose
    norm_num at hclose
    have hone : |((j - k : ℤ) : ℚ)| < 1 := by
      push_cast
      linarith
    obtain rfl : j = k := by
      have : |j - k| < 1 := by exact_mod_cast hone
      rw [abs_lt] at this
      omega
    exact ⟨j, hp, hq⟩
  · have hle := (isFar_sub hp hq (hdiff ▸ le_abs_grid hsmall)).le_abs hr
    norm_num at hle hclose
    linarith

-- ---------------------------------------------------------------------------
-- The sign of zero
-- ---------------------------------------------------------------------------

/-- A coordinate as it comes about by going along the grid from zero: there is no negative zero. -/
structure IsPlotted (x : Float) : Prop where
  gridded : IsGridded x
  sign : unpacked x ≠ .zero .negative

theorem isPlotted_zero : IsPlotted 0 := ⟨isGridded_zero, nofun⟩

/-- Doubles that differ in the sign of zero only are the same if neither is a negative zero. -/
theorem eq_of_beq {x y : Float} (h : (x == y) = true) (hx : unpacked x ≠ .zero .negative)
    (hy : unpacked y ≠ .zero .negative) : x = y := by
  have hbeq : (unpacked x).beq (unpacked y) = true := h
  obtain ⟨-, -, heq | ⟨-, hzero⟩ | ⟨hzero, -⟩⟩ :=
    (UnpackedFloat.beq_iff_ne_notANumber_and_eq _ _).mp hbeq
  · exact unpacked_injective heq
  · exact absurd hzero hy
  · exact absurd hzero hx

theorem standsFor_of_zero {x : Float} {s : Sign} (h : unpacked x = .zero s) : StandsFor x 0 := by
  rw [StandsFor, h]
  exact ⟨rfl, rfl⟩

theorem add_negativeZero_iff {x y : Float} {p q : ℚ} (hx : StandsFor x p) (hy : StandsFor y q)
    (h : Representable (p + q)) :
    unpacked (x + y) = .zero .negative ↔
      unpacked x = .zero .negative ∧ unpacked y = .zero .negative := by
  have hadd : unpacked (x + y) =
      stored (UnpackedFloat.add .binary64 (unpacked x) (unpacked y)) := rfl
  constructor
  · intro hzero
    have hexact : p + q = 0 := (standsFor_add hx hy h).unique (standsFor_of_zero hzero)
    rw [hadd] at hzero
    rcases hx.cases with ⟨s, hu, rfl⟩ | ⟨s, m, e, hm, hu, hc, he, rfl⟩ <;>
      rcases hy.cases with ⟨s', hv, rfl⟩ | ⟨s', m', e', hm', hv, hc', he', rfl⟩ <;>
      rw [hu, hv] at hzero ⊢
    · cases s <;> cases s'
      · exact ⟨rfl, rfl⟩
      all_goals cases (unpack_pack_zero .positive).symm.trans hzero
    · cases (unpack_pack_finite s' hm' hc' he').symm.trans hzero
    · cases (unpack_pack_finite s hm hc he).symm.trans hzero
    · simp only [UnpackedFloat.add] at hzero
      rw [← decreaseExponent_value s m (min_le_left e e'),
        ← decreaseExponent_value s' m' (min_le_right e e'), ← add_mul, ← Int.cast_add] at hexact
      have hmantissa := (mul_eq_zero.mp hexact).resolve_right (two_zpow_pos _).ne'
      rw [Int.cast_eq_zero] at hmantissa
      rw [hmantissa] at hzero
      cases (unpack_pack_zero .positive).symm.trans hzero
  · rintro ⟨hu, hv⟩
    rw [hadd, hu, hv]
    exact unpack_pack_zero .negative

/-- Doubles are the same if they stand for one number and neither or both are negative zeros. -/
theorem eq_of_standsFor {x y : Float} {q : ℚ} (hx : StandsFor x q) (hy : StandsFor y q)
    (hsign : unpacked x = .zero .negative ↔ unpacked y = .zero .negative) : x = y := by
  by_cases hzero : unpacked x = .zero .negative
  · exact unpacked_injective (hzero.trans (hsign.mp hzero).symm)
  · exact eq_of_beq ((beq_iff hx hy).mpr rfl) hzero (hsign.not.mp hzero)

theorem IsPlotted.add {x y : Float} (hx : IsPlotted x) (hy : IsGridded y) : IsPlotted (x + y) := by
  refine ⟨hx.gridded.add hy, fun hzero => ?_⟩
  have hsum := standsFor_of_zero hzero
  obtain ⟨⟨p, hp⟩, q, hq⟩ := finite_of_add hsum
  obtain ⟨j, rfl⟩ := hx.gridded p hp
  obtain ⟨k, rfl⟩ := hy q hq
  have hgrid : (j : ℚ) / 1024 + k / 1024 = (j + k : ℤ) / 1024 := by push_cast; ring
  -- The sum is exact, since one that is not lies far from zero.
  by_cases hsmall : |j + k| < 2 ^ 53
  · have hexact := representable_of_storable (hgrid ▸ storable_grid hsmall)
    exact hx.sign ((add_negativeZero_iff hp hq hexact).mp hzero).1
  · have hle := (isFar_add hp hq (hgrid ▸ le_abs_grid hsmall)).le_abs hsum
    norm_num at hle

theorem IsPlotted.eq_of_isClose {x y : Float} (hx : IsPlotted x) (hy : IsPlotted y)
    (h : Scalar.isClose x y = true) : x = y := by
  obtain ⟨k, hxk, hyk⟩ := hx.gridded.eq_of_isClose hy.gridded h
  exact eq_of_beq ((beq_iff hxk hyk).mpr rfl) hx.sign hy.sign

theorem snap_zero : Scalar.snap (0 : Float) = 0 := by decide +kernel

theorem IsPlotted.snap_eq {x bound : Float} {q : ℚ} (h : IsPlotted x)
    (hself : (Scalar.snap x == Scalar.snap x) = true) (hbound : StandsFor bound q)
    (hle : ¬ bound < Scalar.abs (Scalar.snap x)) : Scalar.snap x = x := by
  rcases snap_cases (LawfulScalar.beq_self_of_snap hself) with ⟨p, hp, hsnap⟩ | hfar
  · obtain ⟨k, rfl⟩ := h.gridded p hp
    rw [div_mul_cancel₀ _ (by norm_num), Scalar.halfAway_intCast] at hsnap
    refine eq_of_beq ((beq_iff hsnap hp).mpr rfl) (fun hzero => ?_) h.sign
    have hk : (k : ℚ) / 1024 = ((0 : ℤ) : ℚ) := by
      have := hsnap.value_eq
      rw [hzero] at this
      exact this.symm.trans Int.cast_zero.symm
    have hzero' := standsFor_ofInt (n := 0) (by norm_num)
    have hx : x = 0 := eq_of_beq ((beq_iff hp hzero').mpr hk) h.sign isPlotted_zero.sign
    rw [hx, snap_zero] at hzero
    exact isPlotted_zero.sign hzero
  · exact absurd (hfar bound q hbound) hle

-- ---------------------------------------------------------------------------
-- Exact sums
-- ---------------------------------------------------------------------------

/-- A multiple of 1/1024 so far below the range in which sums are rounded that three of them add up
without rounding. -/
def AddsExactly (x : Float) : Prop := ∃ k : ℤ, |k| < 2 ^ 51 ∧ StandsFor x (k / 1024)

theorem addsExactly_ofInt {n : ℤ} (h : |n| < 2 ^ 41) : AddsExactly (Float.ofInt n) := by
  rw [abs_lt] at h
  refine ⟨n * 1024, by rw [abs_lt]; omega, ?_⟩
  rw [Int.cast_mul, Int.cast_ofNat, mul_div_cancel_right₀ _ (by norm_num)]
  exact standsFor_ofInt (by rw [abs_lt]; omega)

theorem snap_eq_self {x : Float} {k : ℤ} (hx : StandsFor x (k / 1024)) (hk : |k| < 2 ^ 53) :
    Scalar.snap x = x := by
  rcases eq_or_ne k 0 with rfl | hne
  · rw [Int.cast_zero, zero_div] at hx
    by_cases hsign : unpacked x = .zero .negative
    · obtain rfl : x = -0 := eq_of_standsFor hx (standsFor_of_zero rfl) (iff_of_true hsign rfl)
      decide +kernel
    · obtain rfl : x = 0 := eq_of_standsFor hx (standsFor_of_zero rfl) (iff_of_false hsign nofun)
      exact snap_zero
  have hwhole : ((k : ℚ) / 1024) * 1024 = k := div_mul_cancel₀ _ (by norm_num)
  have hsnap : StandsFor (Scalar.snap x) (k / 1024) := by
    have := snap_standsFor hx (hwhole.symm ▸ representable_intCast hk)
    rwa [hwhole, Scalar.halfAway_intCast] at this
  have hnot {y : Float} (hy : StandsFor y (k / 1024)) : unpacked y ≠ .zero .negative := fun hzero =>
    hne (by simpa using hy.unique (standsFor_of_zero hzero))
  exact eq_of_beq ((beq_iff hsnap hx).mpr rfl) (hnot hsnap) (hnot hx)

/-- Going along the grid by two displacements leads to the same place as going by their sum. -/
theorem add_add_snap {x a b : Float} (hx : AddsExactly x) (ha : AddsExactly a)
    (hb : AddsExactly b) : x + Scalar.snap (a + b) = x + Scalar.snap a + Scalar.snap b := by
  obtain ⟨j, hj, hx⟩ := hx
  obtain ⟨k, hk, ha⟩ := ha
  obtain ⟨l, hl, hb⟩ := hb
  rw [abs_lt] at hj hk hl
  have hsum (m n : ℤ) : (m : ℚ) / 1024 + n / 1024 = (m + n : ℤ) / 1024 := by push_cast; ring
  have hstored {m n : ℤ} (h : |m + n| < 2 ^ 53) : Representable ((m : ℚ) / 1024 + n / 1024) :=
    representable_of_storable (hsum m n ▸ storable_grid h)
  have hab := hstored (m := k) (n := l) (by rw [abs_lt]; omega)
  have hxa := hstored (m := j) (n := k) (by rw [abs_lt]; omega)
  have hboth := hstored (m := j) (n := k + l) (by rw [abs_lt]; omega)
  have hboth' := hstored (m := j + k) (n := l) (by rw [abs_lt]; omega)
  have hsab := hsum k l ▸ standsFor_add ha hb hab
  have hsxa := hsum j k ▸ standsFor_add hx ha hxa
  rw [snap_eq_self hsab (by rw [abs_lt]; omega), snap_eq_self ha (by rw [abs_lt]; omega),
    snap_eq_self hb (by rw [abs_lt]; omega)]
  refine eq_of_standsFor (hsum _ _ ▸ standsFor_add hx hsab hboth)
    (add_assoc j k l ▸ hsum _ _ ▸ standsFor_add hsxa hb hboth') ?_
  rw [add_negativeZero_iff hx hsab hboth, add_negativeZero_iff ha hb hab,
    add_negativeZero_iff hsxa hb hboth', add_negativeZero_iff hx ha hxa, and_assoc]

end Letterform.Double
