import Letterform.Proofs.Charstring.Segments
import Letterform.Proofs.Number.Gridded

/-!
# Where a flex ends

Three of the flex operators leave out the displacement that leads back to the height or to the side
where the flex began: it is taken to be the others' sum, reversed. But every displacement is rounded
to the grid by itself, this one too. So a flex ends where it began as far as the rounded
displacements add up to the rounded sum, which they do on the grid.
-/

namespace Letterform

open Scalar (IsFixed)

-- ---------------------------------------------------------------------------
-- Rounded displacements
-- ---------------------------------------------------------------------------

namespace Scalar

open LawfulScalar (Denotes)

/-- The steps of the grid that come nearest to so many parts of 65536; a half goes away from
zero. -/
def nearestStep (n : ℤ) : ℤ := if n < 0 then -((-n + 32) / 64) else (n + 32) / 64

theorem halfAway_div (n : ℤ) : halfAway ((n : ℚ) / 64) = nearestStep n := by
  have hfloor (m : ℤ) : ⌊(m : ℚ) / 64 + 1 / 2⌋ = (m + 32) / 64 := by
    rw [show (m : ℚ) / 64 + 1 / 2 = ((m + 32 : ℤ) : ℚ) / (64 : ℕ) by push_cast; ring]
    exact Rat.floor_intCast_div_natCast _ 64
  unfold halfAway nearestStep
  by_cases hn : n < 0
  · have hq : (n : ℚ) / 64 < 0 := div_neg_of_neg_of_pos (by exact_mod_cast hn) (by norm_num)
    rw [if_pos hq, if_pos hn, ← hfloor, Int.cast_neg, neg_div]
  · have hq : ¬ (n : ℚ) / 64 < 0 :=
      not_lt.mpr (div_nonneg (by exact_mod_cast not_lt.mp hn) (by norm_num))
    rw [if_neg hq, if_neg hn, hfloor]

theorem nearestStep_neg (n : ℤ) : nearestStep (-n) = -nearestStep n := by
  unfold nearestStep
  split_ifs <;> omega

theorem nearestStep_zero : nearestStep 0 = 0 := rfl

theorem nearestStep_mul (k : ℤ) : nearestStep (64 * k) = k := by
  unfold nearestStep
  split_ifs <;> omega

theorem abs_nearestStep_sub_le (n : ℤ) : |64 * nearestStep n - n| ≤ 32 := by
  unfold nearestStep
  rw [abs_le]
  split_ifs <;> omega

/-- How many steps of the grid lie between the place that some displacements lead to and the place
that their sum leads to. -/
def drift (ds : List ℤ) : ℤ := (ds.map nearestStep).sum - nearestStep ds.sum

theorem drift_singleton (d : ℤ) : drift [d] = 0 := by simp [drift]

theorem drift_of_grid {ds : List ℤ} (h : ∀ d ∈ ds, 64 ∣ d) : drift ds = 0 := by
  have hsum : 64 * (ds.map nearestStep).sum = ds.sum := by
    induction ds with
    | nil => rfl
    | cons d ds ih =>
      obtain ⟨⟨k, rfl⟩, hds⟩ := List.forall_mem_cons.mp h
      rw [List.map_cons, List.sum_cons, List.sum_cons, nearestStep_mul, mul_add, ih hds]
  rw [drift, ← hsum, nearestStep_mul, sub_self]

theorem abs_drift_le (ds : List ℤ) : 2 * |drift ds| ≤ ds.length + 1 := by
  have hsum : |64 * (ds.map nearestStep).sum - ds.sum| ≤ 32 * ds.length := by
    induction ds with
    | nil => rfl
    | cons d ds ih =>
      have hd := abs_le.mp (abs_nearestStep_sub_le d)
      rw [abs_le] at ih ⊢
      simp only [List.map_cons, List.sum_cons, List.length_cons]
      push_cast
      constructor <;> linarith
  have hround := abs_le.mp (abs_nearestStep_sub_le ds.sum)
  rw [abs_le] at hsum
  have hdrift : |drift ds| ≤ (ds.length + 1 : ℤ) / 2 := by
    unfold drift
    rw [abs_le]
    constructor <;> omega
  omega

variable {α : Type} [Scalar α] [LawfulScalar α] {a p : α} {n k : ℤ}

theorem IsFixed.snap_nearest (h : IsFixed a n) (hn : |n| < 2 ^ 52) :
    Denotes (Scalar.snap a) (nearestStep n / 1024) := by
  have h1024 : Denotes (1024 : α) ((1024 : ℤ) : ℚ) := LawfulScalar.ofInt (by norm_num)
  have hmul : (n : ℚ) / 65536 * ((1024 : ℤ) : ℚ) = n / 64 := by push_cast; ring
  have hscaled := LawfulScalar.mul h h1024
    (hmul ▸ ⟨n, 6, hn.trans (by norm_num), by norm_num, by norm_num⟩)
  rw [hmul] at hscaled
  have hround := LawfulScalar.round hscaled
  rw [halfAway_div] at hround
  have hdiv : ((nearestStep n : ℤ) : ℚ) / ((1024 : ℤ) : ℚ) = nearestStep n / 1024 := by norm_num
  have hbound : |nearestStep n| < 2 ^ 53 := by
    have := abs_le.mp (abs_nearestStep_sub_le n)
    rw [abs_lt] at hn ⊢
    omega
  have := LawfulScalar.div hround h1024 (by norm_num) (hdiv ▸ Double.storable_grid hbound)
  rwa [hdiv] at this

theorem denotes_add_snap (hp : Denotes p (k / 1024)) (ha : IsFixed a n) (hn : |n| < 2 ^ 52)
    (h : |k + nearestStep n| < 2 ^ 53) :
    Denotes (p + Scalar.snap a) ((k + nearestStep n : ℤ) / 1024) := by
  have heq : ((k + nearestStep n : ℤ) : ℚ) / 1024 = k / 1024 + nearestStep n / 1024 := by
    push_cast
    ring
  rw [heq]
  exact LawfulScalar.add hp (ha.snap_nearest hn) (heq ▸ Double.storable_grid h)

theorem denotes_foldl_snap {displacements : List α} {ns : List ℤ} {bound : ℤ}
    (hp : Denotes p (k / 1024)) (hfixed : List.Forall₂ IsFixed displacements ns)
    (hns : ∀ n ∈ ns, |n| ≤ bound) (hbound : bound < 2 ^ 52)
    (hk : |k| + (bound + 1) * ns.length < 2 ^ 53) :
    Denotes (displacements.foldl (fun p d => p + Scalar.snap d) p)
      ((k + (ns.map nearestStep).sum : ℤ) / 1024) := by
  induction hfixed generalizing p k with
  | nil => rwa [List.map_nil, List.sum_nil, add_zero]
  | @cons d n displacements ns hd _ ih =>
    obtain ⟨hn, hns⟩ := List.forall_mem_cons.mp hns
    have hstep : |nearestStep n| ≤ bound + 1 := by
      have := abs_le.mp (abs_nearestStep_sub_le n)
      rw [abs_le] at hn ⊢
      omega
    have htriangle := abs_add_le k (nearestStep n)
    have hrest : 0 ≤ (bound + 1) * (ns.length : ℤ) :=
      mul_nonneg ((abs_nonneg _).trans hstep) (Nat.cast_nonneg _)
    rw [List.length_cons, Nat.cast_add, Nat.cast_one, mul_add, mul_one] at hk
    have hnext := denotes_add_snap hp hd (hn.trans_lt hbound) (by linarith)
    rw [List.foldl_cons, List.map_cons, List.sum_cons, ← add_assoc]
    exact ih hnext hns (by linarith)

end Scalar

def Point.coordinate {α : Type} (horizontal : Bool) (p : Point α) : α :=
  if horizontal then p.x else p.y

namespace Charstring

open LawfulScalar (Denotes)
open Scalar (drift nearestStep)

variable {α : Type} [Scalar α]

-- ---------------------------------------------------------------------------
-- Where a path ends
-- ---------------------------------------------------------------------------

def PathStep.displacements (horizontal : Bool) : PathStep α → List α
  | line dx dy => [if horizontal then dx else dy]
  | curve dx1 dy1 dx2 dy2 dx3 dy3 => if horizontal then [dx1, dx2, dx3] else [dy1, dy2, dy3]

namespace Machine

omit [Scalar α] in
theorem position_attachMask (m : Machine α) : m.attachMask.position = m.position := by
  rw [attachMask_eq]

theorem coordinate_draw (m : Machine α) (s : PathStep α) (horizontal : Bool) :
    (m.draw s).position.coordinate horizontal =
      (s.displacements horizontal).foldl (fun p d => p + Scalar.snap d)
        (m.position.coordinate horizontal) := by
  cases s with
  | line => rw [draw, position_attachMask]; cases horizontal <;> rfl
  | curve => rw [draw, position_attachMask]; cases horizontal <;> rfl

theorem coordinate_foldl_draw (m : Machine α) (steps : List (PathStep α)) (horizontal : Bool) :
    (steps.foldl draw m).position.coordinate horizontal =
      (steps.flatMap (·.displacements horizontal)).foldl (fun p d => p + Scalar.snap d)
        (m.position.coordinate horizontal) := by
  induction steps generalizing m with
  | nil => rfl
  | cons s steps ih =>
    rw [List.foldl_cons, ih, coordinate_draw, List.flatMap_cons, List.foldl_append]

end Machine

-- ---------------------------------------------------------------------------
-- The displacement that is left out
-- ---------------------------------------------------------------------------

/-- The axis along which an operator leaves the last displacement out, and the displacements along
it that are given. A flex that goes more sideways than up comes back to its height, another one to
its side. -/
def PathOperator.goesBack : PathOperator → List ℤ → Option (Bool × List ℤ)
  | hflex, _ :: _ :: dy2 :: _ :: _ :: _ :: _ :: _ => some (false, [dy2])
  | hflex1, _ :: dy1 :: _ :: dy2 :: _ :: _ :: _ :: dy5 :: _ :: _ => some (false, [dy1, dy2, dy5])
  | flex1, dx1 :: dy1 :: dx2 :: dy2 :: dx3 :: dy3 :: dx4 :: dy4 :: dx5 :: dy5 :: _ :: _ =>
    let dxs := [dx1, dx2, dx3, dx4, dx5]
    let dys := [dy1, dy2, dy3, dy4, dy5]
    if |dys.sum| < |dxs.sum| then some (false, dys) else some (true, dxs)
  | _, _ => none

theorem PathOperator.exists_of_goesBack_hflex {ns ds : List ℤ} {horizontal : Bool}
    (h : hflex.goesBack ns = some (horizontal, ds)) : ∃ d, ds = [d] := by
  unfold goesBack at h
  split at h
  next =>
    cases h
    exact ⟨_, rfl⟩
  next heq => cases heq
  next heq => cases heq
  next => cases h

variable [LawfulScalar α]

/-- Some segments go by these parts of 65536 along an axis, the last of them the sum of the others
reversed, but for zeros. -/
structure GoesBack (steps : List (PathStep α)) (horizontal : Bool) (zs ds : List ℤ) : Prop where
  displacements : List.Forall₂ IsFixed (steps.flatMap (·.displacements horizontal)) zs
  bound : ∀ z ∈ zs, |z| ≤ 5 * 2 ^ 31
  length : zs.length = 6
  sum : (zs.map nearestStep).sum = drift ds

variable {d1 d2 d3 d4 d5 : α} {n1 n2 n3 n4 n5 : ℤ}

theorem goesBack_hflex {n : ℤ} (h : IsFixed d2 n) (hn : |n| ≤ 2 ^ 31) (a b c d e f : α)
    (rest : List α) :
    GoesBack (PathOperator.hflex.steps (a :: b :: d2 :: c :: d :: e :: f :: rest)) false
      [0, n, 0, 0, -n, 0] [n] := by
  have hzero : IsFixed (0 : α) 0 := Scalar.isFixed_zero
  have hn := abs_le.mp hn
  constructor
  · exact .cons hzero (.cons h (.cons hzero (.cons hzero (.cons h.neg (.cons hzero .nil)))))
  · simp only [List.forall_mem_cons, abs_le]
    refine ⟨?_, ?_, ?_, ?_, ?_, ?_, List.forall_mem_nil _⟩ <;> constructor <;> omega
  · rfl
  · simp only [List.map_cons, List.map_nil, List.sum_cons, List.sum_nil, Scalar.drift_singleton,
      Scalar.nearestStep_neg, Scalar.nearestStep_zero]
    ring

theorem goesBack_hflex1 (h1 : IsFixed d1 n1) (h2 : IsFixed d2 n2) (h3 : IsFixed d3 n3)
    (hn : ∀ n ∈ [n1, n2, n3], |n| ≤ 2 ^ 31) (a b c d e f : α) (rest : List α) :
    GoesBack
      (PathOperator.hflex1.steps (a :: d1 :: b :: d2 :: c :: d :: e :: d3 :: f :: rest)) false
      [n1, n2, 0, 0, n3, -(n1 + n2 + n3)] [n1, n2, n3] := by
  have hzero : IsFixed (0 : α) 0 := Scalar.isFixed_zero
  simp only [List.forall_mem_cons, abs_le] at hn
  obtain ⟨hn1, hn2, hn3, -⟩ := hn
  have h12 := h1.add h2 (by rw [abs_lt]; omega)
  have hsum := (h12.add h3 (by rw [abs_lt]; omega)).neg
  constructor
  · exact .cons h1 (.cons h2 (.cons hzero (.cons hzero (.cons h3 (.cons hsum .nil)))))
  · simp only [List.forall_mem_cons, abs_le]
    refine ⟨?_, ?_, ?_, ?_, ?_, ?_, List.forall_mem_nil _⟩ <;> constructor <;> omega
  · rfl
  · simp only [drift, List.map_cons, List.map_nil, List.sum_cons, List.sum_nil,
      Scalar.nearestStep_neg, Scalar.nearestStep_zero, add_zero, ← add_assoc]
    ring

theorem isFixed_sum (h1 : IsFixed d1 n1) (h2 : IsFixed d2 n2) (h3 : IsFixed d3 n3)
    (h4 : IsFixed d4 n4) (h5 : IsFixed d5 n5) (hn : ∀ n ∈ [n1, n2, n3, n4, n5], |n| ≤ 2 ^ 31) :
    IsFixed (d1 + d2 + d3 + d4 + d5) [n1, n2, n3, n4, n5].sum ∧
      |[n1, n2, n3, n4, n5].sum| ≤ 5 * 2 ^ 31 := by
  simp only [List.forall_mem_cons, abs_le] at hn
  obtain ⟨hn1, hn2, hn3, hn4, hn5, -⟩ := hn
  have h12 := h1.add h2 (by rw [abs_lt]; omega)
  have h123 := h12.add h3 (by rw [abs_lt]; omega)
  have h1234 := h123.add h4 (by rw [abs_lt]; omega)
  have hsum := h1234.add h5 (by rw [abs_lt]; omega)
  simp only [List.sum_cons, List.sum_nil, add_zero, ← add_assoc]
  exact ⟨hsum, by rw [abs_le]; omega⟩

theorem goesBack_five {steps : List (PathStep α)} {horizontal : Bool}
    (h1 : IsFixed d1 n1) (h2 : IsFixed d2 n2) (h3 : IsFixed d3 n3) (h4 : IsFixed d4 n4)
    (h5 : IsFixed d5 n5) (hn : ∀ n ∈ [n1, n2, n3, n4, n5], |n| ≤ 2 ^ 31)
    (hsteps : steps.flatMap (·.displacements horizontal) =
      [d1, d2, d3, d4, d5, -(d1 + d2 + d3 + d4 + d5)]) :
    GoesBack steps horizontal [n1, n2, n3, n4, n5, -[n1, n2, n3, n4, n5].sum]
      [n1, n2, n3, n4, n5] := by
  obtain ⟨hsum, hbound⟩ := isFixed_sum h1 h2 h3 h4 h5 hn
  constructor
  · rw [hsteps]
    exact .cons h1 (.cons h2 (.cons h3 (.cons h4 (.cons h5 (.cons hsum.neg .nil)))))
  · simp only [List.forall_mem_cons] at hn ⊢
    rw [abs_neg]
    refine ⟨?_, ?_, ?_, ?_, ?_, hbound, List.forall_mem_nil _⟩ <;> omega
  · rfl
  · simp only [drift, List.map_cons, List.map_nil, List.sum_cons, List.sum_nil,
      Scalar.nearestStep_neg, add_zero]
    ring

variable {op : PathOperator} {operands : List α} {ns ds : List ℤ} {horizontal : Bool}

theorem exists_goesBack (hoperands : List.Forall₂ IsFixed operands ns)
    (hrange : ∀ n ∈ ns, |n| ≤ 2 ^ 31) (hback : op.goesBack ns = some (horizontal, ds)) :
    ∃ zs, GoesBack (op.steps operands) horizontal zs ds := by
  unfold PathOperator.goesBack at hback
  split at hback
  next =>
    cases hback
    rcases hoperands with _ | ⟨_, _ | ⟨_, _ | ⟨h, _ | ⟨_, _ | ⟨_, _ | ⟨_, _ | ⟨_, _⟩⟩⟩⟩⟩⟩⟩
    exact ⟨_, goesBack_hflex h (hrange _ (by simp)) _ _ _ _ _ _ _⟩
  next =>
    cases hback
    rcases hoperands with
      _ | ⟨_, _ | ⟨h1, _ | ⟨_, _ | ⟨h2, _ | ⟨_, _ | ⟨_, _ | ⟨_, _ | ⟨h3, _ | ⟨_, _⟩⟩⟩⟩⟩⟩⟩⟩⟩
    refine ⟨_, goesBack_hflex1 h1 h2 h3 (fun n hn => hrange n ?_) _ _ _ _ _ _ _⟩
    simp only [List.mem_cons, List.not_mem_nil, or_false] at hn ⊢
    tauto
  next dx1 dy1 dx2 dy2 dx3 dy3 dx4 dy4 dx5 dy5 _ _ =>
    rcases hoperands with
      _ | ⟨x1, _ | ⟨y1, _ | ⟨x2, _ | ⟨y2, _ | ⟨x3, _ | ⟨y3, _ | ⟨x4, _ | ⟨y4, _ | ⟨x5, _ | ⟨y5,
        _ | ⟨_, _⟩⟩⟩⟩⟩⟩⟩⟩⟩⟩⟩
    have hxs : ∀ n ∈ [dx1, dx2, dx3, dx4, dx5], |n| ≤ 2 ^ 31 := by
      simp only [List.forall_mem_cons] at hrange ⊢
      tauto
    have hys : ∀ n ∈ [dy1, dy2, dy3, dy4, dy5], |n| ≤ 2 ^ 31 := by
      simp only [List.forall_mem_cons] at hrange ⊢
      tauto
    have hwide := (isFixed_sum y1 y2 y3 y4 y5 hys).1.abs.lt_iff (isFixed_sum x1 x2 x3 x4 x5 hxs).1.abs
    dsimp only at hback
    split_ifs at hback with hcase <;> cases hback
    · refine ⟨_, goesBack_five y1 y2 y3 y4 y5 hys ?_⟩
      rw [PathOperator.steps, PathOperator.flexBack, if_pos (hwide.mpr hcase)]
      rfl
    · refine ⟨_, goesBack_five x1 x2 x3 x4 x5 hxs ?_⟩
      rw [PathOperator.steps, PathOperator.flexBack, if_neg (hwide.not.mpr hcase)]
      rfl
  next => cases hback

theorem drawPath_goesBack {m : Machine α} {zs : List ℤ}
    (h : GoesBack (op.steps m.operands) horizontal zs ds) {k : ℤ} (hk : |k| ≤ 2 ^ 52)
    (hposition : Denotes (m.position.coordinate horizontal) (k / 1024)) :
    ∃ m', m.drawPath op = .ok m' ∧
      Denotes (m'.position.coordinate horizontal) ((k + drift ds : ℤ) / 1024) := by
  refine ⟨((op.steps m.operands).foldl Machine.draw m).clear, ?_, ?_⟩
  · have hlength := h.displacements.length_eq
    rw [h.length] at hlength
    unfold Machine.drawPath
    generalize op.steps m.operands = steps at hlength
    cases steps with
    | nil => cases hlength
    | cons s steps => rfl
  · have hwhere := Machine.coordinate_foldl_draw m (op.steps m.operands) horizontal
    rw [show (((op.steps m.operands).foldl Machine.draw m).clear).position =
      ((op.steps m.operands).foldl Machine.draw m).position from rfl, hwhere, ← h.sum]
    exact Scalar.denotes_foldl_snap hposition h.displacements h.bound (by norm_num)
      (by rw [h.length]; push_cast; linarith)

-- ---------------------------------------------------------------------------
-- Doubles
-- ---------------------------------------------------------------------------

/-- In doubles, a flex that leaves out a displacement ends as many steps off the coordinate where it
began as the rounded displacements are off the rounded sum. It ends where it began exactly if they
are not: always with a single displacement, as in `hflex`, and if all displacements lie on the
grid. -/
theorem flex_returns_iff {ctx : Context Float} {m : Machine Float} {op : PathOperator} {ns : List ℤ}
    (hoperands : List.Forall₂ IsFixed m.operands ns) (hrange : ∀ n ∈ ns, |n| ≤ 2 ^ 31)
    {horizontal : Bool} {ds : List ℤ} (hback : op.goesBack ns = some (horizontal, ds)) {k : ℤ}
    (hk : |k| ≤ 2 ^ 52) (hposition : Denotes (m.position.coordinate horizontal) (k / 1024)) :
    ∃ m', m.evaluate ctx (.path op) = .ok m' ∧
      Denotes (m'.position.coordinate horizontal) ((k + drift ds : ℤ) / 1024) ∧
      ((m'.position.coordinate horizontal == m.position.coordinate horizontal) = true ↔
        (ds.map nearestStep).sum = nearestStep ds.sum) ∧
      (op = .hflex ∨ (∀ d ∈ ds, 64 ∣ d) → drift ds = 0) ∧ 2 * |drift ds| ≤ ds.length + 1 := by
  obtain ⟨zs, hzs⟩ := exists_goesBack hoperands hrange hback
  obtain ⟨m', hdraw, hplace⟩ := drawPath_goesBack hzs hk hposition
  refine ⟨m', hdraw, hplace, ?_, ?_, Scalar.abs_drift_le ds⟩
  · rw [LawfulScalar.beq_iff hplace hposition, div_left_inj' (by norm_num), Int.cast_inj,
      add_eq_left, drift, sub_eq_zero]
  · rintro (rfl | hgrid)
    · obtain ⟨d, rfl⟩ := PathOperator.exists_of_goesBack_hflex hback
      exact Scalar.drift_singleton d
    · exact Scalar.drift_of_grid hgrid

/-- The operands of a flex whose points rise by a little less than half a step of the grid, three
times in all. -/
def risingFlex : List ℤ :=
  [0xA0000, 26, 0x140000, 26, 0x1E0000, 0x1E0000, 0x140000, 26, 0xA0000]

def rising : Machine Float :=
  { Machine.start ({} : Context Float) with
    builder := Builder.moveTo {} ⟨10, 20⟩
    position := ⟨10, 20⟩ }.load (risingFlex.map Scalar.ofFixed)

theorem flex_returns_iff_rising : ∃ m', rising.evaluate {} (.path .hflex1) = .ok m' ∧
    Denotes m'.position.y ((20 * 1024 - 1 : ℤ) / 1024) := by
  have hoperands : List.Forall₂ IsFixed rising.operands risingFlex := by
    rw [rising, Machine.operands_load]
    refine List.forall₂_map_left_iff.mpr (List.forall₂_same.mpr fun n hn => ?_)
    have hsmall : ∀ n ∈ risingFlex, |n| < 2 ^ 53 := by decide
    exact Scalar.isFixed_ofFixed (hsmall n hn)
  have hposition : Denotes (rising.position.coordinate false) ((20 * 1024 : ℤ) / 1024) := by
    have := LawfulScalar.ofInt (α := Float) (n := 20) (by norm_num)
    norm_num
    exact this
  have hback : PathOperator.hflex1.goesBack risingFlex = some (false, [26, 26, 26]) := rfl
  obtain ⟨m', hm', hplace, -⟩ := flex_returns_iff hoperands (by decide) hback (by decide) hposition
  exact ⟨m', hm', hplace⟩

/-- The flex ends a step below the height where it began. -/
theorem hflex1_sinks :
    (rising.evaluate {} (.path .hflex1)).toOption.any
      (fun m' => m'.position.y < rising.position.y) = true := by
  decide +kernel

end Charstring

end Letterform
