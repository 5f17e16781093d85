import Letterform.Proofs.Number.Lawful

/-!
# The grid of charstring coordinates

Coordinates are kept as multiples of 1/1024. On this grid snapping changes nothing, sums and
differences are exact, and coordinates are close only if they are equal.
-/

namespace Letterform.Scalar

open LawfulScalar (Denotes)

variable {α : Type} [Scalar α] [LawfulScalar α]

theorem IsFixed.snap {a : α} {k : ℤ} (h : IsFixed a (64 * k)) (hk : |k| < 2 ^ 46) :
    IsFixed (Scalar.snap a) (64 * k) := by
  have hk' : |k| < 2 ^ 53 := by omega
  have h1024 : Denotes (1024 : α) ((1024 : ℤ) : ℚ) := LawfulScalar.ofInt (by norm_num)
  have hmul : ((64 * k : ℤ) : ℚ) / 65536 * ((1024 : ℤ) : ℚ) = k := by push_cast; ring
  have hdiv : (k : ℚ) / ((1024 : ℤ) : ℚ) = ((64 * k : ℤ) : ℚ) / 65536 := by push_cast; ring
  have hscaled := LawfulScalar.mul h h1024 (hmul ▸ storable_intCast hk')
  rw [hmul] at hscaled
  have hround := LawfulScalar.round hscaled
  rw [halfAway_intCast] at hround
  unfold IsFixed
  rw [← hdiv]
  refine LawfulScalar.div hround h1024 (by norm_num) (hdiv ▸ storable_fixed ?_)
  rw [abs_lt] at hk ⊢
  omega

theorem denotes_tolerance : Denotes (1 / 2 / 1024 : α) (1 / 2048) := by
  have h1024 : Denotes (1024 : α) ((1024 : ℤ) : ℚ) := LawfulScalar.ofInt (by norm_num)
  have := LawfulScalar.div denotes_half h1024 (by norm_num)
    ⟨1, 11, by norm_num, by norm_num, by norm_num⟩
  norm_num at this
  exact this

theorem IsFixed.isClose {a b : α} {m n : ℤ} (ha : IsFixed a m) (hb : IsFixed b n)
    (h : |m - n| < 2 ^ 53) : Scalar.isClose a b = decide (|m - n| < 32) := by
  have hdist := (ha.sub hb h).abs
  rw [Scalar.isClose, Bool.eq_iff_iff, decide_eq_true_iff, decide_eq_true_iff,
    LawfulScalar.lt_iff hdist denotes_tolerance, div_lt_iff₀ (by norm_num)]
  norm_num
  exact_mod_cast Iff.rfl

/-- Two numbers are the same multiple of 1/1024, below 2 ^ 20 in magnitude. -/
def Agree (a b : α) : Prop := ∃ k : ℤ, |k| < 2 ^ 30 ∧ IsFixed a (64 * k) ∧ IsFixed b (64 * k)

theorem Agree.left {a b : α} (h : Agree a b) : Agree a a := by
  obtain ⟨k, hk, ha, -⟩ := h
  exact ⟨k, hk, ha, ha⟩

theorem Agree.right {a b : α} (h : Agree a b) : Agree b b := by
  obtain ⟨k, hk, -, hb⟩ := h
  exact ⟨k, hk, hb, hb⟩

theorem Agree.trans {a b c : α} (hab : Agree a b) (hbc : Agree b c) : Agree a c := by
  obtain ⟨k, hk, ha, hb⟩ := hab
  obtain ⟨l, -, hb', hc⟩ := hbc
  obtain rfl : k = l := by
    have := hb.unique hb'
    omega
  exact ⟨k, hk, ha, hc⟩

theorem agree_zero : Agree (0 : α) 0 := ⟨0, by norm_num, isFixed_zero, isFixed_zero⟩

theorem Agree.beq {a b : α} (h : Agree a b) : (a == b) = true := by
  obtain ⟨k, -, ha, hb⟩ := h
  exact (ha.beq_iff hb).mpr rfl

theorem Agree.beq_congr {a a' b b' : α} (ha : Agree a a') (hb : Agree b b') :
    (a == b) = (a' == b') := by
  obtain ⟨k, -, ha, ha'⟩ := ha
  obtain ⟨l, -, hb, hb'⟩ := hb
  rw [Bool.eq_iff_iff, ha.beq_iff hb, ha'.beq_iff hb']

theorem Agree.isClose_congr {a a' b b' : α} (ha : Agree a a') (hb : Agree b b') :
    Scalar.isClose a b = Scalar.isClose a' b' := by
  obtain ⟨k, hk, ha, ha'⟩ := ha
  obtain ⟨l, hl, hb, hb'⟩ := hb
  have hkl : |64 * k - 64 * l| < 2 ^ 53 := by
    rw [abs_lt] at hk hl ⊢
    omega
  rw [ha.isClose hb hkl, ha'.isClose hb' hkl]

theorem Agree.to_zero {a b : α} (h : Agree a b) (ha : (a == 0) = true) : Agree a 0 := by
  obtain ⟨k, hk, hak, -⟩ := h
  obtain rfl : k = 0 := by
    have := (hak.beq_iff isFixed_zero).mp ha
    omega
  exact ⟨0, hk, hak, isFixed_zero⟩

/-- A number is a multiple of 1/1024. -/
def OnGrid (a : α) : Prop := ∃ k : ℤ, IsFixed a (64 * k)

open Classical in
/-- How many parts of 1024 a number on the grid is. -/
noncomputable def units (a : α) : ℤ := if h : OnGrid a then h.choose else 0

theorem OnGrid.isFixed {a : α} (h : OnGrid a) : IsFixed a (64 * units a) := by
  rw [units, dif_pos h]
  exact h.choose_spec

theorem IsFixed.units {a : α} {k : ℤ} (h : IsFixed a (64 * k)) : Scalar.units a = k := by
  have hgrid : OnGrid a := ⟨k, h⟩
  have := hgrid.isFixed.unique h
  omega

theorem Agree.bound {a b : α} (h : Agree a b) : -2 ^ 30 < units a ∧ units a < 2 ^ 30 := by
  obtain ⟨k, hk, ha, -⟩ := h
  rw [ha.units]
  exact abs_lt.mp hk

theorem Agree.onGrid {a b : α} (h : Agree a b) : OnGrid a ∧ OnGrid b := by
  obtain ⟨k, -, ha, hb⟩ := h
  exact ⟨⟨k, ha⟩, k, hb⟩

theorem Agree.units_eq {a b : α} (h : Agree a b) : units a = units b := by
  obtain ⟨k, -, ha, hb⟩ := h
  rw [ha.units, hb.units]

theorem agree_of_units {a b : α} (ha : OnGrid a) (hb : OnGrid b) (h : units a = units b)
    (hlow : -2 ^ 30 < units a) (hhigh : units a < 2 ^ 30) : Agree a b :=
  ⟨units a, abs_lt.mpr ⟨hlow, hhigh⟩, ha.isFixed, by rw [h]; exact hb.isFixed⟩

theorem onGrid_zero : OnGrid (0 : α) := agree_zero.onGrid.1

theorem units_zero : units (0 : α) = 0 := (isFixed_zero (α := α)).units (k := 0)

theorem OnGrid.add {a b : α} (ha : OnGrid a) (hb : OnGrid b) (hlow : -2 ^ 40 < units a + units b)
    (hhigh : units a + units b < 2 ^ 40) :
    OnGrid (a + b) ∧ units (a + b) = units a + units b := by
  have h : IsFixed (a + b) (64 * (units a + units b)) := by
    rw [mul_add]
    exact ha.isFixed.add hb.isFixed (by rw [abs_lt]; omega)
  exact ⟨⟨_, h⟩, h.units⟩

theorem OnGrid.sub {a b : α} (ha : OnGrid a) (hb : OnGrid b) (hlow : -2 ^ 40 < units a - units b)
    (hhigh : units a - units b < 2 ^ 40) :
    OnGrid (a - b) ∧ units (a - b) = units a - units b := by
  have h : IsFixed (a - b) (64 * (units a - units b)) := by
    rw [mul_sub]
    exact ha.isFixed.sub hb.isFixed (by rw [abs_lt]; omega)
  exact ⟨⟨_, h⟩, h.units⟩

theorem OnGrid.neg {a : α} (h : OnGrid a) : OnGrid (-a) ∧ units (-a) = -units a := by
  have h' : IsFixed (-a) (64 * -units a) := by
    rw [mul_neg]
    exact h.isFixed.neg
  exact ⟨⟨_, h'⟩, h'.units⟩

theorem OnGrid.beq_iff {a b : α} (ha : OnGrid a) (hb : OnGrid b) :
    (a == b) = true ↔ units a = units b := by
  rw [ha.isFixed.beq_iff hb.isFixed]
  omega

theorem OnGrid.abs {a : α} (h : OnGrid a) : IsFixed (Scalar.abs a) (64 * |units a|) := by
  have := h.isFixed.abs
  rwa [abs_mul] at this

theorem isFixed_of_grid {a : α} {k : ℤ} (h : Denotes a (k / 1024)) : IsFixed a (64 * k) := by
  have heq : ((64 * k : ℤ) : ℚ) / 65536 = k / 1024 := by push_cast; ring
  rwa [IsFixed, heq]

theorem exists_grid_of_snap {a b : α} {q : ℚ} (ha : (Scalar.snap a == Scalar.snap a) = true)
    (hb : Denotes b q) (h : ¬ b < Scalar.abs (Scalar.snap a)) :
    ∃ k : ℤ, IsFixed (Scalar.snap a) (64 * k) := by
  rcases LawfulScalar.snap (LawfulScalar.beq_self_of_snap ha) with ⟨p, -, hp⟩ | hfar
  · exact ⟨_, isFixed_of_grid hp⟩
  · exact absurd (hfar b q hb) h

theorem IsFixed.snap_of_le {a b : α} {k : ℤ} {q : ℚ} (ha : IsFixed a (64 * k)) (hb : Denotes b q)
    (h : ¬ b < Scalar.abs (Scalar.snap a)) : IsFixed (Scalar.snap a) (64 * k) := by
  rcases LawfulScalar.snap ((ha.beq_iff ha).mpr rfl) with ⟨p, hap, hp⟩ | hfar
  · obtain rfl := LawfulScalar.unique ha hap
    have hk : ((64 * k : ℤ) : ℚ) / 65536 * 1024 = k := by push_cast; ring
    rw [hk, halfAway_intCast] at hp
    exact isFixed_of_grid hp
  · exact absurd (hfar b q hb) h

end Letterform.Scalar
