import Letterform.Proofs.Charstring.Drawing
import Letterform.Proofs.Number.Double

/-!
# Runs are drawn segment by segment

A path operator that draws a run leaves out what the shape of the run tells: displacements that are
zero, and in which direction each segment sets out. Written out, every segment is a line or a curve
of its own, with all of its displacements, and drawing the segments one by one leads to the same
machine.
-/

namespace Letterform.Charstring

variable {α : Type} [Scalar α]

-- ---------------------------------------------------------------------------
-- Segments on their own
-- ---------------------------------------------------------------------------

namespace PathStep

/-- The operator that draws a segment with all of its displacements. -/
def operator : PathStep α → PathOperator
  | line .. => .rlineto
  | curve .. => .rrcurveto

def operands : PathStep α → List α
  | line dx dy => [dx, dy]
  | curve dx1 dy1 dx2 dy2 dx3 dy3 => [dx1, dy1, dx2, dy2, dx3, dy3]

end PathStep

def Machine.evaluateStep (ctx : Context α) (m : Machine α) (s : PathStep α) :
    Outcome α (Machine α) := do
  (← s.operands.foldlM push m).evaluate ctx (.path s.operator)

-- ---------------------------------------------------------------------------
-- Runs
-- ---------------------------------------------------------------------------

namespace PathOperator

/-- Whether an operator draws a run of `n` segments of the kind that it repeats from so many
operands. -/
def TakesRun (op : PathOperator) (n count : ℕ) : Prop :=
  0 < n ∧ match op with
    | rlineto => count = 2 * n
    | hlineto | vlineto => count = n
    | rrcurveto => count = 6 * n
    | rcurveline => count = 6 * n + 2
    | rlinecurve => count = 2 * n + 6
    | hhcurveto | vvcurveto | hvcurveto | vhcurveto => count = 4 * n ∨ count = 4 * n + 1
    | hflex | flex | hflex1 | flex1 => False

instance (op : PathOperator) (n count : ℕ) : Decidable (op.TakesRun n count) := by
  unfold TakesRun
  cases op <;> infer_instance

end PathOperator

/-- A line whose displacements stand at a place among the operands of a run. -/
def lineAt (x : ℕ → α) (i : ℕ) : PathStep α := .line (x i) (x (i + 1))

def curveAt (x : ℕ → α) (i : ℕ) : PathStep α :=
  .curve (x i) (x (i + 1)) (x (i + 2)) (x (i + 3)) (x (i + 4)) (x (i + 5))

def axisLineAt (horizontal : Bool) (x : ℕ → α) (i : ℕ) : PathStep α :=
  if horizontal then .line (x i) 0 else .line 0 (x i)

/-- A curve that ends along the axis it begins along, but for a displacement off this axis at its
beginning. -/
def levelCurveAt (horizontal : Bool) (off : α) (x : ℕ → α) (i : ℕ) : PathStep α :=
  if horizontal then .curve (x i) off (x (i + 1)) (x (i + 2)) (x (i + 3)) 0
  else .curve off (x i) (x (i + 1)) (x (i + 2)) 0 (x (i + 3))

/-- A curve that ends across the axis it begins along, but for a displacement along it at its
end. -/
def turningCurveAt (horizontal : Bool) (off : α) (x : ℕ → α) (i : ℕ) : PathStep α :=
  if horizontal then .curve (x i) 0 (x (i + 1)) (x (i + 2)) off (x (i + 3))
  else .curve 0 (x i) (x (i + 1)) (x (i + 2)) (x (i + 3)) off

/-- The segments of a run. A level run has its odd operand, if any, in front, for its first curve,
and a turning run behind, for its last one. -/
def PathOperator.segments (op : PathOperator) (n : ℕ) (operands : List α) : List (PathStep α) :=
  let x (i : ℕ) : α := operands.getD i 0
  let odd := operands.length - 4 * n
  let level (horizontal : Bool) (k : ℕ) : PathStep α :=
    levelCurveAt horizontal (if odd = 1 ∧ k = 0 then x 0 else 0) x (odd + 4 * k)
  let turning (horizontal : Bool) (k : ℕ) : PathStep α :=
    turningCurveAt horizontal (if odd = 1 ∧ k + 1 = n then x (4 * n) else 0) x (4 * k)
  let each (f : ℕ → PathStep α) : List (PathStep α) := (List.range n).map f
  match op with
  | rlineto => each fun k => lineAt x (2 * k)
  | hlineto => each fun k => axisLineAt (k % 2 == 0) x k
  | vlineto => each fun k => axisLineAt (k % 2 == 1) x k
  | rrcurveto => each fun k => curveAt x (6 * k)
  | rcurveline => each (fun k => curveAt x (6 * k)) ++ [lineAt x (6 * n)]
  | rlinecurve => each (fun k => lineAt x (2 * k)) ++ [curveAt x (2 * n)]
  | hhcurveto => each fun k => level true k
  | vvcurveto => each fun k => level false k
  | hvcurveto => each fun k => turning (k % 2 == 0) k
  | vhcurveto => each fun k => turning (k % 2 == 1) k
  | hflex | flex | hflex1 | flex1 => []

-- ---------------------------------------------------------------------------
-- The segments of a run are what it draws
-- ---------------------------------------------------------------------------

section

variable (x : ℕ → α) (n : ℕ)

omit [Scalar α] in
theorem map_range_succ {β : Type} (f : ℕ → β) :
    (List.range (n + 1)).map f = f 0 :: (List.range n).map fun k => f (k + 1) := by
  simp [List.range_succ_eq_map, Function.comp_def]

theorem map_getD (operands : List α) :
    (List.range operands.length).map (operands.getD · 0) = operands :=
  List.ext_getElem (by simp) fun i hi _ => by simp_all

theorem take_eq_map {operands : List α} {n m : ℕ} (h : operands.length = n + m) :
    operands.take n = (List.range n).map (operands.getD · 0) ∧
      operands.drop n = (List.range m).map fun k => operands.getD (n + k) 0 := by
  constructor
  · refine List.ext_getElem (by simp; omega) fun i _ hi => ?_
    have hlt : i < operands.length := by simp at hi; omega
    simp [hlt]
  · refine List.ext_getElem (by simp; omega) fun i _ hi => ?_
    have hlt : n + i < operands.length := by simp at hi; omega
    simp [hlt]

theorem false_beq_even (k : ℕ) : (false == (k % 2 == 0)) = (k % 2 == 1) := by
  rcases Nat.mod_two_eq_zero_or_one k with hk | hk <;> simp [hk]

theorem not_beq_even (horizontal : Bool) (k : ℕ) :
    ((!horizontal) == (k % 2 == 0)) = (horizontal == ((k + 1) % 2 == 0)) := by
  rcases Nat.mod_two_eq_zero_or_one k with hk | hk <;> cases horizontal <;> simp [Nat.add_mod, hk]

namespace PathStep

omit [Scalar α] in
theorem lines_map :
    lines ((List.range (2 * n)).map x) = (List.range n).map fun k => lineAt x (2 * k) := by
  induction n generalizing x with
  | zero => rfl
  | succ n ih =>
    simp only [Nat.mul_succ, map_range_succ, lines, ih]
    rfl

omit [Scalar α] in
theorem curves_map :
    curves ((List.range (6 * n)).map x) = (List.range n).map fun k => curveAt x (6 * k) := by
  induction n generalizing x with
  | zero => rfl
  | succ n ih =>
    simp only [Nat.mul_succ, map_range_succ, curves, ih]
    rfl

theorem alternatingLines_map (horizontal : Bool) :
    alternatingLines horizontal ((List.range n).map x) =
      (List.range n).map fun k => axisLineAt (horizontal == (k % 2 == 0)) x k := by
  induction n generalizing x horizontal with
  | zero => rfl
  | succ n ih =>
    simp only [map_range_succ, alternatingLines, ih, not_beq_even]
    congr 1
    cases horizontal <;> rfl

theorem levelCurves_map (horizontal : Bool) (off : α) :
    levelCurves horizontal off ((List.range (4 * n)).map x) = (List.range n).map fun k =>
      levelCurveAt horizontal (if k = 0 then off else 0) x (4 * k) := by
  induction n generalizing x off with
  | zero => rfl
  | succ n ih =>
    simp only [Nat.mul_succ, map_range_succ, levelCurves, ih, ite_self, Nat.add_one_ne_zero]
    rfl

theorem turningCurves_map (horizontal : Bool) {odd : ℕ} (hodd : odd = 0 ∨ odd = 1) :
    turningCurves horizontal ((List.range (4 * n + odd)).map x) = (List.range n).map fun k =>
      turningCurveAt (horizontal == (k % 2 == 0))
        (if odd = 1 ∧ k + 1 = n then x (4 * n) else 0) x (4 * k) := by
  induction n generalizing x horizontal with
  | zero => rcases hodd with rfl | rfl <;> rfl
  | succ n ih =>
    have hcount : 4 * (n + 1) + odd = 4 * n + odd + 4 := by omega
    by_cases hlast : 4 * n + odd = 1
    · obtain ⟨rfl, rfl⟩ : n = 0 ∧ odd = 1 := by omega
      cases horizontal <;> rfl
    · have hfirst : ¬ (odd = 1 ∧ 0 = n) := by omega
      rw [hcount]
      simp only [map_range_succ]
      rw [Command.turningCurves_cons _ _ _ _ _ (by simpa using hlast), ih]
      simp only [not_beq_even, Nat.add_right_cancel_iff]
      rw [if_neg hfirst]
      congr 1
      cases horizontal <;> rfl

end PathStep

end

namespace PathOperator

variable {n : ℕ} {operands : List α}

theorem level_eq_map (hn : 0 < n) (h : operands.length = 4 * n ∨ operands.length = 4 * n + 1)
    (horizontal : Bool) :
    steps.level operands horizontal = (List.range n).map fun k =>
      levelCurveAt horizontal
        (if operands.length - 4 * n = 1 ∧ k = 0 then operands.getD 0 0 else 0)
        (operands.getD · 0) (operands.length - 4 * n + 4 * k) := by
  have hx := map_getD operands
  cases operands with
  | nil =>
    simp only [List.length_nil] at h
    omega
  | cons off rest =>
    unfold steps.level
    dsimp only
    rcases h with h | h
    · have hodd : (off :: rest).length - 4 * n = 0 := by omega
      rw [if_neg (by omega), hodd]
      rw [h] at hx
      conv_lhs => rw [← hx, PathStep.levelCurves_map]
      simp
    · have hodd : (off :: rest).length - 4 * n = 1 := by omega
      rw [if_pos (by omega), hodd]
      rw [h, map_range_succ, List.cons.injEq] at hx
      conv_lhs => rw [← hx.2, PathStep.levelCurves_map]
      simp [levelCurveAt, Nat.add_comm, Nat.add_left_comm]

theorem turningCurves_eq_map (h : operands.length = 4 * n ∨ operands.length = 4 * n + 1)
    (horizontal : Bool) :
    PathStep.turningCurves horizontal operands = (List.range n).map fun k =>
      turningCurveAt (horizontal == (k % 2 == 0))
        (if operands.length - 4 * n = 1 ∧ k + 1 = n then operands.getD (4 * n) 0 else 0)
        (operands.getD · 0) (4 * k) := by
  have hlength : operands.length = 4 * n + (operands.length - 4 * n) := by omega
  have hx := map_getD operands
  rw [hlength] at hx
  conv_lhs => rw [← hx]
  exact PathStep.turningCurves_map _ n horizontal (by omega)

theorem steps_eq_segments {op : PathOperator} (h : op.TakesRun n operands.length) :
    op.steps operands = op.segments n operands := by
  have hx := map_getD operands
  obtain ⟨hn, h⟩ := h
  cases op with
  | rlineto =>
    dsimp only at h
    conv_lhs => rw [steps, ← hx, h, PathStep.lines_map]
    rfl
  | hlineto =>
    dsimp only at h
    conv_lhs => rw [steps, ← hx, h, PathStep.alternatingLines_map]
    simp only [Bool.true_beq]
    rfl
  | vlineto =>
    dsimp only at h
    conv_lhs => rw [steps, ← hx, h, PathStep.alternatingLines_map]
    simp only [false_beq_even]
    rfl
  | rrcurveto =>
    dsimp only at h
    conv_lhs => rw [steps, ← hx, h, PathStep.curves_map]
    rfl
  | rcurveline =>
    dsimp only at h
    obtain ⟨htake, hdrop⟩ := take_eq_map h
    have hsplit : operands.length - 2 = 6 * n := by omega
    rw [steps, if_neg (by omega), hsplit]
    dsimp only
    rw [htake, hdrop, PathStep.curves_map]
    rfl
  | rlinecurve =>
    dsimp only at h
    obtain ⟨htake, hdrop⟩ := take_eq_map h
    have hsplit : operands.length - 6 = 2 * n := by omega
    rw [steps, if_neg (by omega), hsplit]
    dsimp only
    rw [htake, hdrop, PathStep.lines_map]
    rfl
  | hhcurveto => exact level_eq_map hn h true
  | vvcurveto => exact level_eq_map hn h false
  | hvcurveto =>
    rw [steps, turningCurves_eq_map h]
    simp only [Bool.true_beq]
    rfl
  | vhcurveto =>
    rw [steps, turningCurves_eq_map h]
    simp only [false_beq_even]
    rfl
  | hflex | flex | hflex1 | flex1 => exact h.elim

theorem TakesRun.segments_ne_nil {op : PathOperator} (h : op.TakesRun n operands.length) :
    op.segments n operands ≠ [] := by
  obtain ⟨hn, h⟩ := h
  obtain ⟨n, rfl⟩ := Nat.exists_eq_succ_of_ne_zero hn.ne'
  cases op <;> first | exact h.elim | simp [segments, map_range_succ]

end PathOperator

-- ---------------------------------------------------------------------------
-- One segment after another
-- ---------------------------------------------------------------------------

namespace Machine

variable {ctx : Context α} {m : Machine α}

omit [Scalar α] in
theorem foldlM_push (operands : List α)
    (hroom : m.stack.size + operands.length ≤ m.stack.limit) :
    operands.foldlM push m = .ok (m.load operands) := by
  induction operands generalizing m with
  | nil => rfl
  | cons a operands ih =>
    rw [List.length_cons] at hroom
    have hsize : (m.load [a]).stack.size = m.stack.size + 1 := rfl
    have hlimit : (m.load [a]).stack.limit = m.stack.limit := rfl
    rw [List.foldlM_cons, push_eq_load m a (by omega)]
    exact (ih (by omega)).trans (by rw [load_load]; rfl)

omit [Scalar α] in
theorem clear_of_empty (h : m.stack.values = []) : m.clear = m := by
  obtain ⟨⟨⟨values, limit⟩, storage, generator⟩, builder, glyph, diagnostics, position, taken⟩ := m
  obtain rfl : values = [] := h
  rfl

theorem stack_foldl_draw (m : Machine α) (steps : List (PathStep α)) :
    (steps.foldl draw m).stack = m.stack := by
  obtain ⟨_, _, _, _, _, h⟩ := drawsOnly_foldl m steps
  rw [h]
  rfl

theorem foldl_draw_clear (m : Machine α) (steps : List (PathStep α)) :
    steps.foldl draw m.clear = (steps.foldl draw m).clear := by
  rw [clear, foldl_draw_withStack, clear, stack_foldl_draw]

theorem evaluateStep_eq (hempty : m.stack.values = [])
    (hlimit : m.stack.limit = ctx.version.stackLimit) (s : PathStep α) :
    m.evaluateStep ctx s = .ok (m.draw s) := by
  have hroom : m.stack.size + s.operands.length ≤ m.stack.limit := by
    have hle := ctx.version.le_stackLimit
    have hlength : s.operands.length ≤ 6 := by cases s <;> simp [PathStep.operands]
    rw [Stack.size, hempty, hlimit, List.length_nil]
    omega
  have hoperands : (m.load s.operands).operands = s.operands := by
    rw [operands_load, operands, Stack.operands, hempty]
    rfl
  have hsteps : s.operator.steps s.operands = [s] := by cases s <;> rfl
  have hclear : (m.load s.operands).clear = m := clear_of_empty hempty
  calc m.evaluateStep ctx s
      = (m.load s.operands).drawPath s.operator := by
        rw [evaluateStep, foldlM_push s.operands hroom]
        rfl
    _ = .ok ([s].foldl draw (m.load s.operands)).clear := by
        rw [drawPath, hoperands, hsteps]
    _ = .ok (m.draw s) := by
        rw [← foldl_draw_clear, hclear]
        rfl

theorem foldlM_evaluateStep (hempty : m.stack.values = [])
    (hlimit : m.stack.limit = ctx.version.stackLimit) (steps : List (PathStep α)) :
    steps.foldlM (evaluateStep ctx) m = .ok (steps.foldl draw m) := by
  induction steps generalizing m with
  | nil => rfl
  | cons s steps ih =>
    have hstack : (m.draw s).stack = m.stack := stack_foldl_draw m [s]
    rw [List.foldlM_cons, evaluateStep_eq hempty hlimit]
    exact ih (by rw [hstack]; exact hempty) (by rw [hstack]; exact hlimit)

/-- An operator that draws a run leads to the same machine, with an empty stack, as its segments
one by one, each of them with all of its displacements. -/
theorem evaluate_eq_segments {op : PathOperator} {n : ℕ}
    (hlimit : m.stack.limit = ctx.version.stackLimit)
    (hrun : op.TakesRun n m.operands.length) :
    ∃ m', m.evaluate ctx (.path op) = .ok m' ∧
      (op.segments n m.operands).foldlM (evaluateStep ctx) m.clear = .ok m' ∧
      m'.stack.values = [] := by
  have hne := hrun.segments_ne_nil
  refine ⟨((op.segments n m.operands).foldl draw m).clear, ?_, ?_, rfl⟩
  · show m.drawPath op = _
    rw [drawPath, PathOperator.steps_eq_segments hrun]
    generalize op.segments n m.operands = steps at hne ⊢
    cases steps with
    | nil => exact absurd rfl hne
    | cons s steps => rfl
  · have hclear : m.clear.stack.values = [] := rfl
    rw [foldlM_evaluateStep hclear hlimit, foldl_draw_clear]

/-- Within a contour, with a mask that waits for the next knot and two curves on the stack that
turn from the vertical, the last one with an end off its axis. -/
def bend : Machine Float :=
  { Machine.start ({ version := .type2 } : Context Float) with
    builder := Builder.moveTo {} ⟨10, 20⟩
    position := ⟨10, 20⟩
    pendingMask := some (.ofBytes [0x80]) }.load [30, 10, 20, 40, 50, -10, 15, 25, 5]

theorem evaluate_bend :
    bend.stack.limit = Version.type2.stackLimit ∧
      PathOperator.vhcurveto.TakesRun 2 bend.operands.length ∧
      ∃ m', bend.evaluate { version := .type2 } (.path .vhcurveto) = .ok m' ∧
        (PathOperator.vhcurveto.segments 2 bend.operands).foldlM
          (evaluateStep { version := .type2 }) bend.clear = .ok m' ∧
        m'.stack.values = [] :=
  ⟨rfl, by decide, evaluate_eq_segments rfl (by decide)⟩

example : (PathOperator.vhcurveto.segments 2 bend.operands ==
    [.curve 0 30 10 20 40 0, .curve 50 0 (-10) 15 5 25]) = true := by
  decide +kernel

end Machine

end Letterform.Charstring
