import Letterform.Charstring.Encoding
import Letterform.Proofs.Number.Grid

/-!
# Commands draw the runs they stand for

A command leaves out displacements that are zero and those that follow from others. What an
operator draws with the operands that come back from a charstring agrees step by step with the run
that the command was chosen for. How operands are read back is left open here: `r` is any map that
keeps the displacements of the run.
-/

namespace Letterform.Charstring

open Scalar (IsFixed)

variable {α : Type} [Scalar α]

-- ---------------------------------------------------------------------------
-- Sizes of groups
-- ---------------------------------------------------------------------------

namespace Command

theorem length_alternatingGroups_le (horizontal : Bool) (room : ℕ) (steps : List (PathStep α)) :
    (alternatingGroups horizontal room steps).flatten.length ≤ room := by
  induction room generalizing horizontal steps with
  | zero => rfl
  | succ room ih =>
    rcases steps with _ | ⟨⟨dx, dy⟩ | _, rest⟩
    · exact Nat.zero_le _
    · have ht := ih true rest
      have hf := ih false rest
      simp only [alternatingGroups]
      split_ifs <;> simp_all
    · exact Nat.zero_le _

theorem length_slopingGroups (limit used : ℕ) (steps : List (PathStep α)) :
    (slopingGroups limit used steps).flatten.length = 2 * (slopingGroups limit used steps).length := by
  induction steps generalizing used with
  | nil => rfl
  | cons s rest ih =>
    cases s with
    | line dx dy =>
      simp only [slopingGroups]
      split_ifs
      · rfl
      · simp only [List.flatten_cons, List.length_append, List.length_cons, List.length_nil, ih]
        omega
    | curve => rfl

theorem slopingGroups_le {limit used : ℕ} (h : used ≤ limit) (steps : List (PathStep α)) :
    used + 2 * (slopingGroups limit used steps).length ≤ limit := by
  induction steps generalizing used with
  | nil => simpa [slopingGroups] using h
  | cons s rest ih =>
    cases s with
    | line dx dy =>
      simp only [slopingGroups]
      split_ifs with hstop
      · simpa using h
      · simp only [Bool.or_eq_true, decide_eq_true_eq, not_or, not_lt] at hstop
        have := ih hstop.2
        simp only [List.length_cons]
        omega
    | curve => simpa [slopingGroups] using h

theorem length_levelGroups (limit : ℕ) {used : ℕ} (horizontal : Bool) (h : 0 < used)
    (steps : List (PathStep α)) :
    (levelGroups limit horizontal used steps).flatten.length =
      4 * (levelGroups limit horizontal used steps).length := by
  induction steps generalizing used with
  | nil => rfl
  | cons s rest ih =>
    cases s with
    | line => rfl
    | curve dx1 dy1 dx2 dy2 dx3 dy3 =>
      have := ih (show 0 < used + 4 by omega)
      simp only [levelGroups, show used ≠ 0 by omega, false_and, if_false]
      generalize (if horizontal = true then _ else _ : α × α × α × α) = parts
      split_ifs
      all_goals first
        | rfl
        | simp only [List.flatten_cons, List.length_append, List.length_cons, List.length_nil, this]
          omega

theorem levelGroups_le {limit used : ℕ} (horizontal : Bool) (h : used ≤ limit)
    (steps : List (PathStep α)) :
    used + (levelGroups limit horizontal used steps).flatten.length ≤ limit := by
  induction steps generalizing used with
  | nil => simpa [levelGroups] using h
  | cons s rest ih =>
    cases s with
    | line => simpa [levelGroups] using h
    | curve dx1 dy1 dx2 dy2 dx3 dy3 =>
      simp only [levelGroups]
      generalize (if horizontal = true then _ else _ : α × α × α × α) = parts
      split_ifs with hroom
      all_goals try simpa using h
      · have := ih (show used + 5 ≤ limit by omega)
        simp only [List.flatten_cons, List.length_append, List.length_cons, List.length_nil]
        omega
      · have := ih (show used + 4 ≤ limit by omega)
        simp only [List.flatten_cons, List.length_append, List.length_cons, List.length_nil]
        omega

theorem turningGroups_le {limit used : ℕ} (horizontal : Bool) (h : used ≤ limit)
    (steps : List (PathStep α)) :
    used + (turningGroups limit horizontal used steps).flatten.length ≤ limit := by
  induction steps generalizing used horizontal with
  | nil => simpa [turningGroups] using h
  | cons s rest ih =>
    cases s with
    | line => simpa [turningGroups] using h
    | curve dx1 dy1 dx2 dy2 dx3 dy3 =>
      simp only [turningGroups]
      generalize (if horizontal = true then _ else _ : α × α × α × α) = parts
      split_ifs with hroom
      · simpa using h
      · have := ih (!horizontal) (show used + 4 ≤ limit by omega)
        simp only [List.flatten_cons, List.length_append, List.length_cons, List.length_nil]
        omega
      · simp only [List.flatten_singleton, List.length_cons, List.length_nil]
        omega

theorem length_generalGroups (limit used : ℕ) (steps : List (PathStep α)) :
    (generalGroups limit used steps).flatten.length = 6 * (generalGroups limit used steps).length := by
  induction steps generalizing used with
  | nil => rfl
  | cons s rest ih =>
    cases s with
    | line => rfl
    | curve =>
      simp only [generalGroups]
      split_ifs
      · rfl
      · simp only [List.flatten_cons, List.length_append, List.length_cons, List.length_nil, ih]
        omega

theorem generalGroups_le {limit used : ℕ} (h : used ≤ limit) (steps : List (PathStep α)) :
    used + 6 * (generalGroups limit used steps).length ≤ limit := by
  induction steps generalizing used with
  | nil => simpa [generalGroups] using h
  | cons s rest ih =>
    cases s with
    | line => simpa [generalGroups] using h
    | curve =>
      simp only [generalGroups]
      split_ifs with hstop
      · simpa using h
      · simp only [Bool.or_eq_true, decide_eq_true_eq, not_or, not_lt] at hstop
        have := ih hstop.2
        simp only [List.length_cons]
        omega

end Command

-- ---------------------------------------------------------------------------
-- Steps that agree
-- ---------------------------------------------------------------------------

variable [LawfulScalar α]

inductive PathStep.Agree : PathStep α → PathStep α → Prop
  | line {dx dy dx' dy' : α} (hx : Scalar.Agree dx dx') (hy : Scalar.Agree dy dy') :
      Agree (.line dx dy) (.line dx' dy')
  | curve {dx1 dy1 dx2 dy2 dx3 dy3 dx1' dy1' dx2' dy2' dx3' dy3' : α}
      (hx1 : Scalar.Agree dx1 dx1') (hy1 : Scalar.Agree dy1 dy1') (hx2 : Scalar.Agree dx2 dx2')
      (hy2 : Scalar.Agree dy2 dy2') (hx3 : Scalar.Agree dx3 dx3') (hy3 : Scalar.Agree dy3 dy3') :
      Agree (.curve dx1 dy1 dx2 dy2 dx3 dy3) (.curve dx1' dy1' dx2' dy2' dx3' dy3')

namespace PathStep

def map (r : α → α) : PathStep α → PathStep α
  | line dx dy => line (r dx) (r dy)
  | curve dx1 dy1 dx2 dy2 dx3 dy3 => curve (r dx1) (r dy1) (r dx2) (r dy2) (r dx3) (r dy3)

def Kept (r : α → α) (s : PathStep α) : Prop := s.Agree (s.map r)

end PathStep

/-- Groups of operands, as they are read back, draw the steps that the run begins with. -/
structure Covers (r : α → α) (draw : List α → List (PathStep α)) (steps : List (PathStep α))
    (groups : List (List α)) : Prop where
  length_le : groups.length ≤ steps.length
  draws : List.Forall₂ PathStep.Agree (steps.take groups.length) (draw (groups.flatten.map r))

/-- A command that an operand stack can hold draws the steps that the run begins with. -/
structure Command.Fits (r : α → α) (limit : ℕ) (steps : List (PathStep α)) (c : Command α) :
    Prop where
  pos : 0 < c.count
  operands_le : c.operands.length ≤ limit
  covers : Covers r c.op.steps steps c.groups

namespace Covers

variable {r : α → α} {draw draw' : List α → List (PathStep α)} {s s' : PathStep α}
  {steps : List (PathStep α)} {g : List α} {groups : List (List α)}

theorem nil (h : draw [] = []) : Covers r draw steps [] :=
  ⟨Nat.zero_le _, by simp [h]⟩

theorem cons (h : Covers r draw' steps groups)
    (hdraw : draw (g.map r ++ groups.flatten.map r) = s' :: draw' (groups.flatten.map r))
    (hs : s.Agree s') : Covers r draw (s :: steps) (g :: groups) := by
  refine ⟨Nat.succ_le_succ h.length_le, ?_⟩
  rw [List.flatten_cons, List.map_append, hdraw]
  exact .cons hs h.draws

theorem concat {rest : List (PathStep α)} (h : Covers r draw' steps groups)
    (hrest : steps.drop groups.length = s :: rest)
    (hdraw : draw (groups.flatten.map r ++ g.map r) = draw' (groups.flatten.map r) ++ [s'])
    (hs : s.Agree s') : Covers r draw steps (groups ++ [g]) := by
  have hlt : groups.length < steps.length := by
    have := congrArg List.length hrest
    rw [List.length_drop, List.length_cons] at this
    omega
  refine ⟨by rw [List.length_append]; exact hlt, ?_⟩
  have hs0 : steps[groups.length] = s := by
    have := List.drop_eq_getElem_cons hlt
    rw [hrest] at this
    exact (List.cons.inj this).1.symm
  rw [List.flatten_append, List.map_append, List.flatten_singleton, hdraw, List.length_append,
    List.length_singleton, List.take_succ_eq_append_getElem hlt, hs0]
  exact List.rel_append h.draws (.cons hs .nil)

end Covers

namespace Command

variable {r : α → α}

-- ---------------------------------------------------------------------------
-- Lines
-- ---------------------------------------------------------------------------

theorem covers_alternatingGroups (horizontal : Bool) (room : ℕ) {steps : List (PathStep α)}
    (h : ∀ s ∈ steps, s.Kept r) :
    Covers r (PathStep.alternatingLines horizontal) steps
      (alternatingGroups horizontal room steps) := by
  induction room generalizing horizontal steps with
  | zero => exact .nil rfl
  | succ room ih =>
    rcases steps with _ | ⟨⟨dx, dy⟩ | _, rest⟩
    · exact .nil rfl
    · obtain ⟨hs, hrest⟩ := List.forall_mem_cons.mp h
      obtain ⟨hx, hy⟩ := hs
      cases horizontal with
      | true =>
        simp only [alternatingGroups, if_true]
        split_ifs with hzero
        · exact (ih false hrest).cons rfl (.line hx (hy.to_zero hzero))
        · exact .nil rfl
      | false =>
        simp only [alternatingGroups, Bool.false_eq_true, if_false]
        split_ifs with hzero
        · exact (ih true hrest).cons rfl (.line (hx.to_zero hzero) hy)
        · exact .nil rfl
    · exact .nil rfl

theorem covers_slopingGroups (limit used : ℕ) {steps : List (PathStep α)}
    (h : ∀ s ∈ steps, s.Kept r) :
    Covers r PathStep.lines steps (slopingGroups limit used steps) := by
  induction steps generalizing used with
  | nil => exact .nil rfl
  | cons s rest ih =>
    obtain ⟨hs, hrest⟩ := List.forall_mem_cons.mp h
    cases s with
    | line dx dy =>
      simp only [slopingGroups]
      split_ifs
      · exact .nil rfl
      · exact (ih _ hrest).cons rfl hs
    | curve => exact .nil rfl

theorem ofLines_fits {limit : ℕ} (hlimit : 13 ≤ limit) {dx dy : α} {rest : List (PathStep α)}
    (h : ∀ s ∈ .line dx dy :: rest, s.Kept r) :
    (ofLines limit dx dy (.line dx dy :: rest)).Fits r limit (.line dx dy :: rest) := by
  obtain ⟨room, rfl⟩ : ∃ room, limit = room + 1 := ⟨limit - 1, by omega⟩
  unfold ofLines
  split_ifs with hy hx
  · refine ⟨?_, length_alternatingGroups_le _ _ _, covers_alternatingGroups _ _ h⟩
    simp [count, alternatingGroups, hy]
  · refine ⟨?_, length_alternatingGroups_le _ _ _, covers_alternatingGroups _ _ h⟩
    simp [count, alternatingGroups, hx]
  · have hcovers := covers_slopingGroups (room + 1) 0 h
    have hlength := length_slopingGroups (room + 1) 0 (.line dx dy :: rest)
    have hle := slopingGroups_le (Nat.zero_le (room + 1)) (.line dx dy :: rest)
    have hpos : 0 < (slopingGroups (room + 1) 0 (.line dx dy :: rest)).length := by
      simp only [slopingGroups, hx, hy]
      rw [if_neg (by simp; omega)]
      exact Nat.succ_pos _
    dsimp only
    generalize slopingGroups (room + 1) 0 (.line dx dy :: rest) = groups at *
    have hlines : (⟨.rlineto, groups⟩ : Command α).Fits r (room + 1) (.line dx dy :: rest) :=
      ⟨hpos, by simp only [operands]; omega, hcovers⟩
    split
    · rename_i dx1 dy1 dx2 dy2 dx3 dy3 after hdrop
      split_ifs with hroom
      · have hcurve := h _ (List.mem_of_mem_drop (hdrop ▸ List.mem_cons_self))
        refine ⟨by simp [count], ?_, hcovers.concat hdrop ?_ hcurve⟩
        · simp [operands, -List.length_flatten, hlength]
          omega
        · have hmap : (groups.flatten.map r).length = 2 * groups.length := by
            rw [List.length_map, hlength]
          simp only [PathOperator.steps, List.length_append, List.length_map, List.length_cons,
            List.length_nil, hlength]
          rw [if_neg (by omega), show 2 * groups.length + 6 - 6 = (groups.flatten.map r).length by omega,
            List.take_left, List.drop_left]
          rfl
      · exact hlines
    · exact hlines

-- ---------------------------------------------------------------------------
-- Curves
-- ---------------------------------------------------------------------------

theorem covers_levelGroups (limit : ℕ) {used : ℕ} (horizontal : Bool) (hused : 0 < used)
    {steps : List (PathStep α)} (h : ∀ s ∈ steps, s.Kept r) :
    Covers r (PathStep.levelCurves horizontal 0) steps
      (levelGroups limit horizontal used steps) := by
  induction steps generalizing used with
  | nil => exact .nil rfl
  | cons s rest ih =>
    obtain ⟨hs, hrest⟩ := List.forall_mem_cons.mp h
    cases s with
    | line => exact .nil rfl
    | curve dx1 dy1 dx2 dy2 dx3 dy3 =>
      obtain _ | ⟨hx1, hy1, hx2, hy2, hx3, hy3⟩ := hs
      have hne : used ≠ 0 := by omega
      cases horizontal with
      | true =>
        simp only [levelGroups, hne, false_and, if_false, if_true]
        split_ifs with hroom hzero
        · exact .nil rfl
        · rw [Bool.and_eq_true] at hzero
          exact (ih (Nat.add_pos_left hused 4) hrest).cons rfl
            (.curve hx1 (hy1.to_zero hzero.1) hx2 hy2 hx3 (hy3.to_zero hzero.2))
        · exact .nil rfl
      | false =>
        simp only [levelGroups, hne, false_and, if_false, Bool.false_eq_true]
        split_ifs with hroom hzero
        · exact .nil rfl
        · rw [Bool.and_eq_true] at hzero
          exact (ih (Nat.add_pos_left hused 4) hrest).cons rfl
            (.curve (hx1.to_zero hzero.1) hy1 hx2 hy2 (hx3.to_zero hzero.2) hy3)
        · exact .nil rfl

/-- The first curve of a level run does not leave the axis at its end, but may begin off it. -/
theorem levelGroups_first {limit : ℕ} (hlimit : 13 ≤ limit) (horizontal : Bool)
    {dx1 dy1 dx2 dy2 dx3 dy3 : α} (hs : (PathStep.curve dx1 dy1 dx2 dy2 dx3 dy3).Kept r)
    (hcross : ((if horizontal then dy3 else dx3) == 0) = true) (rest : List (PathStep α)) :
    ∃ lead off tail : α,
      levelGroups limit horizontal 0 (.curve dx1 dy1 dx2 dy2 dx3 dy3 :: rest) =
        (if off == 0 then [lead, dx2, dy2, tail] :: levelGroups limit horizontal 4 rest
          else [off, lead, dx2, dy2, tail] :: levelGroups limit horizontal 5 rest) ∧
      Scalar.Agree off (r off) ∧
      ∀ off', Scalar.Agree off off' → PathStep.Agree (.curve dx1 dy1 dx2 dy2 dx3 dy3)
        (if horizontal then .curve (r lead) off' (r dx2) (r dy2) (r tail) 0
          else .curve off' (r lead) (r dx2) (r dy2) 0 (r tail)) := by
  have hroom : ¬ limit < 0 + 5 := by omega
  obtain _ | ⟨hx1, hy1, hx2, hy2, hx3, hy3⟩ := hs
  cases horizontal with
  | true =>
    refine ⟨dx1, dy1, dx3, ?_, hy1, fun off' hoff =>
      .curve hx1 hoff hx2 hy2 hx3 (hy3.to_zero hcross)⟩
    have hcross' : (dy3 == 0) = true := hcross
    by_cases hzero : (dy1 == 0) = true <;> simp [levelGroups, hroom, hzero, hcross']
  | false =>
    refine ⟨dy1, dx1, dy3, ?_, hx1, fun off' hoff =>
      .curve hoff hy1 hx2 hy2 (hx3.to_zero hcross) hy3⟩
    have hcross' : (dx3 == 0) = true := hcross
    by_cases hzero : (dx1 == 0) = true <;> simp [levelGroups, hroom, hzero, hcross']

def levelOperator (horizontal : Bool) : PathOperator :=
  if horizontal then .hhcurveto else .vvcurveto

omit [LawfulScalar α] in
theorem levelOperator_steps (horizontal : Bool) (off : α) (rest : List α) :
    (levelOperator horizontal).steps (off :: rest) =
      if (rest.length + 1) % 2 = 1 then PathStep.levelCurves horizontal off rest
      else PathStep.levelCurves horizontal 0 (off :: rest) := by
  cases horizontal <;> rfl

theorem level_fits {limit : ℕ} (hlimit : 13 ≤ limit) (horizontal : Bool)
    {dx1 dy1 dx2 dy2 dx3 dy3 : α} {rest : List (PathStep α)}
    (hcross : ((if horizontal then dy3 else dx3) == 0) = true)
    (h : ∀ s ∈ .curve dx1 dy1 dx2 dy2 dx3 dy3 :: rest, s.Kept r) :
    (⟨levelOperator horizontal,
      levelGroups limit horizontal 0 (.curve dx1 dy1 dx2 dy2 dx3 dy3 :: rest)⟩ : Command α).Fits r
      limit (.curve dx1 dy1 dx2 dy2 dx3 dy3 :: rest) := by
  have hle := levelGroups_le horizontal (Nat.zero_le limit) (.curve dx1 dy1 dx2 dy2 dx3 dy3 :: rest)
  obtain ⟨hs, hrest⟩ := List.forall_mem_cons.mp h
  obtain ⟨lead, off, tail, hgroups, hoff, hstep⟩ := levelGroups_first hlimit horizontal hs hcross rest
  rw [hgroups] at hle ⊢
  -- an odd number of operands tells that the first one is off the axis
  split_ifs at hle ⊢ with hzero
  · have hlength := length_levelGroups limit horizontal (Nat.succ_pos 3) rest
    refine ⟨Nat.succ_pos _, by simpa [operands] using hle, ?_⟩
    refine (covers_levelGroups limit horizontal (Nat.succ_pos 3) hrest).cons ?_
      (hstep 0 (hoff.to_zero hzero))
    simp only [List.map_cons, List.map_nil, List.cons_append, List.nil_append, levelOperator_steps]
    rw [if_neg]
    · rfl
    · simp only [List.length_cons, List.length_map, hlength]
      omega
  · have hlength := length_levelGroups limit horizontal (Nat.succ_pos 4) rest
    refine ⟨Nat.succ_pos _, by simpa [operands] using hle, ?_⟩
    refine (covers_levelGroups limit horizontal (Nat.succ_pos 4) hrest).cons ?_ (hstep (r off) hoff)
    simp only [List.map_cons, List.map_nil, List.cons_append, List.nil_append, levelOperator_steps]
    rw [if_pos]
    · rfl
    · simp only [List.length_cons, List.length_map, hlength]
      omega

omit [LawfulScalar α] in
theorem turningCurves_cons (horizontal : Bool) (a b c d : α) {rest : List α}
    (h : rest.length ≠ 1) :
    PathStep.turningCurves horizontal (a :: b :: c :: d :: rest) =
      (if horizontal then .curve a 0 b c 0 d else .curve 0 a b c d 0) ::
        PathStep.turningCurves (!horizontal) rest := by
  rcases rest with _ | ⟨e, _ | ⟨f, rest⟩⟩
  · rfl
  · exact absurd rfl h
  · rfl

omit [LawfulScalar α] in
theorem length_turningGroups_ne_one (limit used : ℕ) (horizontal : Bool)
    (steps : List (PathStep α)) :
    (turningGroups limit horizontal used steps).flatten.length ≠ 1 := by
  rcases steps with _ | ⟨_ | ⟨dx1, dy1, dx2, dy2, dx3, dy3⟩, rest⟩
  · exact Nat.zero_ne_one
  · exact Nat.zero_ne_one
  · simp only [turningGroups]
    generalize (if horizontal = true then _ else _ : α × α × α × α) = parts
    split_ifs <;> simp

theorem covers_turningGroups (limit used : ℕ) (horizontal : Bool) {steps : List (PathStep α)}
    (h : ∀ s ∈ steps, s.Kept r) :
    Covers r (PathStep.turningCurves horizontal) steps
      (turningGroups limit horizontal used steps) := by
  induction steps generalizing used horizontal with
  | nil => exact .nil rfl
  | cons s rest ih =>
    obtain ⟨hs, hrest⟩ := List.forall_mem_cons.mp h
    cases s with
    | line => exact .nil rfl
    | curve dx1 dy1 dx2 dy2 dx3 dy3 =>
      obtain _ | ⟨hx1, hy1, hx2, hy2, hx3, hy3⟩ := hs
      have hone := length_turningGroups_ne_one limit (used + 4) (!horizontal) rest
      have hrun := ih (used + 4) (!horizontal) hrest
      rw [← List.length_map r] at hone
      have hcons (a b c d : α) := turningCurves_cons horizontal (r a) (r b) (r c) (r d) hone
      cases horizontal with
      | true =>
        simp only [turningGroups, if_true]
        split_ifs with hstop hzero
        · exact .nil rfl
        · simp only [not_or, Bool.not_eq_true', Bool.not_eq_false] at hstop
          exact hrun.cons (hcons dx1 dx2 dy2 dy3)
            (.curve hx1 (hy1.to_zero hstop.2) hx2 hy2 (hx3.to_zero hzero) hy3)
        · simp only [not_or, Bool.not_eq_true', Bool.not_eq_false] at hstop
          exact (Covers.nil (show PathStep.turningCurves true ([] : List α) = [] from rfl)).cons rfl
            (.curve hx1 (hy1.to_zero hstop.2) hx2 hy2 hx3 hy3)
      | false =>
        simp only [turningGroups, Bool.false_eq_true, if_false]
        split_ifs with hstop hzero
        · exact .nil rfl
        · simp only [not_or, Bool.not_eq_true', Bool.not_eq_false] at hstop
          exact hrun.cons (hcons dy1 dx2 dy2 dx3)
            (.curve (hx1.to_zero hstop.2) hy1 hx2 hy2 hx3 (hy3.to_zero hzero))
        · simp only [not_or, Bool.not_eq_true', Bool.not_eq_false] at hstop
          exact (Covers.nil (show PathStep.turningCurves true ([] : List α) = [] from rfl)).cons rfl
            (.curve (hx1.to_zero hstop.2) hy1 hx2 hy2 hx3 hy3)

theorem covers_generalGroups (limit used : ℕ) {steps : List (PathStep α)}
    (h : ∀ s ∈ steps, s.Kept r) :
    Covers r PathStep.curves steps (generalGroups limit used steps) := by
  induction steps generalizing used with
  | nil => exact .nil rfl
  | cons s rest ih =>
    obtain ⟨hs, hrest⟩ := List.forall_mem_cons.mp h
    cases s with
    | line => exact .nil rfl
    | curve =>
      simp only [generalGroups]
      split_ifs
      · exact .nil rfl
      · exact (ih _ hrest).cons rfl hs

theorem turning_fits {limit : ℕ} (hlimit : 13 ≤ limit) (horizontal : Bool)
    {dx1 dy1 dx2 dy2 dx3 dy3 : α} {rest : List (PathStep α)}
    (hoff : ((if horizontal then dy1 else dx1) == 0) = true)
    (h : ∀ s ∈ .curve dx1 dy1 dx2 dy2 dx3 dy3 :: rest, s.Kept r) {op : PathOperator}
    (hop : op.steps (α := α) = PathStep.turningCurves horizontal) :
    (⟨op, turningGroups limit horizontal 0 (.curve dx1 dy1 dx2 dy2 dx3 dy3 :: rest)⟩ :
      Command α).Fits r limit (.curve dx1 dy1 dx2 dy2 dx3 dy3 :: rest) := by
  have hle := turningGroups_le horizontal (Nat.zero_le limit)
    (.curve dx1 dy1 dx2 dy2 dx3 dy3 :: rest)
  refine ⟨?_, by simpa [operands] using hle, hop ▸ covers_turningGroups limit 0 horizontal h⟩
  have hroom : ¬ limit < 0 + 5 := by omega
  simp only [count, turningGroups]
  cases horizontal with
  | true =>
    rw [if_neg (by simpa [hroom] using hoff)]
    split_ifs <;> exact Nat.succ_pos _
  | false =>
    rw [if_neg (by simpa [hroom] using hoff)]
    split_ifs <;> exact Nat.succ_pos _

theorem curveLine_fits {limit : ℕ} {groups : List (List α)} {steps after : List (PathStep α)}
    {dx dy : α} (hcovers : Covers r PathStep.curves steps groups)
    (hflat : groups.flatten.length = 6 * groups.length) (hpos : 0 < groups.length)
    (hdrop : steps.drop groups.length = .line dx dy :: after)
    (hline : (PathStep.line dx dy).Kept r) (hroom : 6 * groups.length + 2 ≤ limit) :
    (⟨.rcurveline, groups ++ [[dx, dy]]⟩ : Command α).Fits r limit steps := by
  refine ⟨by simp [count], ?_, hcovers.concat hdrop ?_ hline⟩
  · simp [operands, -List.length_flatten, hflat]
    exact hroom
  · have hmap : (groups.flatten.map r).length = 6 * groups.length := by
      rw [List.length_map, hflat]
    simp only [PathOperator.steps, List.length_append, List.length_map, List.length_cons,
      List.length_nil, hflat]
    rw [if_neg (by omega), show 6 * groups.length + 2 - 2 = (groups.flatten.map r).length by omega,
      List.take_left, List.drop_left]
    rfl

theorem ofCurves_fits {limit : ℕ} (hlimit : 13 ≤ limit) {dx1 dy1 dx2 dy2 dx3 dy3 : α}
    {rest : List (PathStep α)} (h : ∀ s ∈ .curve dx1 dy1 dx2 dy2 dx3 dy3 :: rest, s.Kept r) :
    (ofCurves limit dx1 dy1 dx2 dy2 dx3 dy3 rest).Fits r limit
      (.curve dx1 dy1 dx2 dy2 dx3 dy3 :: rest) := by
  unfold ofCurves
  dsimp only
  by_cases hh : startsHorizontal dx1 dy1 dy3 = true
  · rw [if_pos hh]
    rw [startsHorizontal, Bool.and_eq_true] at hh
    exact level_fits hlimit true hh.1 h
  by_cases hv : startsVertical dx1 dy1 dx3 = true
  · rw [if_neg hh, if_pos hv]
    rw [startsVertical, Bool.and_eq_true] at hv
    exact level_fits hlimit false hv.1 h
  by_cases hy : (dy1 == 0) = true
  · rw [if_neg hh, if_neg hv, if_pos hy]
    exact turning_fits hlimit true hy h rfl
  by_cases hx : (dx1 == 0) = true
  · rw [if_neg hh, if_neg hv, if_neg hy, if_pos hx]
    exact turning_fits hlimit false hx h rfl
  · rw [if_neg hh, if_neg hv, if_neg hy, if_neg hx]
    obtain ⟨hs, hrest⟩ := List.forall_mem_cons.mp h
    have hcovers : Covers r PathStep.curves (.curve dx1 dy1 dx2 dy2 dx3 dy3 :: rest)
        ([dx1, dy1, dx2, dy2, dx3, dy3] :: generalGroups limit 6 rest) :=
      (covers_generalGroups limit 6 hrest).cons rfl hs
    have hlength := length_generalGroups limit 6 rest
    have hle := generalGroups_le (show 6 ≤ limit by omega) rest
    have hflat : ([dx1, dy1, dx2, dy2, dx3, dy3] :: generalGroups limit 6 rest).flatten.length =
        6 * ([dx1, dy1, dx2, dy2, dx3, dy3] :: generalGroups limit 6 rest).length := by
      simp only [List.flatten_cons, List.length_append, List.length_cons, List.length_nil, hlength]
      omega
    have hfit : 6 * ([dx1, dy1, dx2, dy2, dx3, dy3] :: generalGroups limit 6 rest).length ≤ limit := by
      rw [List.length_cons]
      omega
    have hpos : 0 < ([dx1, dy1, dx2, dy2, dx3, dy3] :: generalGroups limit 6 rest).length :=
      Nat.succ_pos _
    generalize [dx1, dy1, dx2, dy2, dx3, dy3] :: generalGroups limit 6 rest = groups at *
    have hcurves : (⟨.rrcurveto, groups⟩ : Command α).Fits r limit
        (.curve dx1 dy1 dx2 dy2 dx3 dy3 :: rest) :=
      ⟨hpos, by simp only [operands]; omega, hcovers⟩
    split
    · rename_i dx dy after hdrop
      split_ifs with hroom
      · have hline := h _ (List.mem_of_mem_drop (hdrop ▸ List.mem_cons_self))
        exact curveLine_fits hcovers hflat hpos hdrop hline hroom
      · exact hcurves
    · exact hcurves

-- ---------------------------------------------------------------------------
-- Single steps
-- ---------------------------------------------------------------------------

omit [LawfulScalar α] in
theorem isKnownTo_ofStep (version : Version) (s : PathStep α) :
    (ofStep s).op.isKnownTo version = true := by
  cases s <;> dsimp only [ofStep] <;> split_ifs <;> rfl

theorem ofStep_fits {limit : ℕ} (hlimit : 13 ≤ limit) {s : PathStep α} (h : s.Kept r)
    (rest : List (PathStep α)) : (ofStep s).Fits r limit (s :: rest) := by
  have hsize {operands : List α} (hlength : operands.length ≤ 6) :
      [operands].flatten.length ≤ limit := by
    rw [List.flatten_singleton]
    omega
  rcases h with ⟨hx, hy⟩ | ⟨hx1, hy1, hx2, hy2, hx3, hy3⟩
  · dsimp only [ofStep]
    split_ifs with hzero hzero'
    · exact ⟨Nat.one_pos, hsize (by simp), .cons (.nil rfl) rfl (.line hx (hy.to_zero hzero))⟩
    · exact ⟨Nat.one_pos, hsize (by simp), .cons (.nil rfl) rfl (.line (hx.to_zero hzero') hy)⟩
    · exact ⟨Nat.one_pos, hsize (by simp), .cons (.nil rfl) rfl (.line hx hy)⟩
  · dsimp only [ofStep]
    split_ifs with hturn hturn'
    · obtain ⟨hzero, hzero'⟩ := Bool.and_eq_true_iff.mp hturn
      exact ⟨Nat.one_pos, hsize (by simp),
        .cons (.nil rfl) rfl (.curve hx1 (hy1.to_zero hzero) hx2 hy2 (hx3.to_zero hzero') hy3)⟩
    · obtain ⟨hzero, hzero'⟩ := Bool.and_eq_true_iff.mp hturn'
      exact ⟨Nat.one_pos, hsize (by simp),
        .cons (.nil rfl) rfl (.curve (hx1.to_zero hzero) hy1 hx2 hy2 hx3 (hy3.to_zero hzero'))⟩
    · exact ⟨Nat.one_pos, hsize (by simp),
        .cons (.nil rfl) rfl (.curve hx1 hy1 hx2 hy2 hx3 hy3)⟩

end Command

end Letterform.Charstring
