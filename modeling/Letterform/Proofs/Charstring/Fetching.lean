import Letterform.Proofs.Charstring.Segments

/-!
# Fetching operands while drawing

A path operator can be evaluated in a loop that fetches the operands of one step, draws it, and goes
on to the next. If the operands ran out on the way, a part of the run would have been drawn. This
never happens: with enough operands for the first step, the loop fetches none that is not there, and
it does what drawing the whole run at once does.
-/

namespace Letterform.Charstring

variable {α : Type} [Scalar α]

namespace Machine

-- ---------------------------------------------------------------------------
-- Operators as loops
-- ---------------------------------------------------------------------------

section Loops

variable (m : Machine α)

/-- The operand at a place, counted from the bottom of the stack. -/
def fetch (i : ℕ) : Outcome α α :=
  match m.operands[i]? with
  | some a => .ok a
  | none => m.halt .stackUnderflow

def require (count : ℕ) : Outcome α Unit :=
  if m.stack.size < count then m.halt .stackUnderflow else .ok ()

def fetchLine (i : ℕ) : Outcome α (PathStep α) :=
  return .line (← m.fetch i) (← m.fetch (i + 1))

def fetchCurve (i : ℕ) : Outcome α (PathStep α) :=
  return .curve (← m.fetch i) (← m.fetch (i + 1)) (← m.fetch (i + 2)) (← m.fetch (i + 3))
    (← m.fetch (i + 4)) (← m.fetch (i + 5))

def facing (horizontal : Bool) (turns : ℕ) : Bool :=
  if turns % 2 = 0 then horizontal else !horizontal

/-- A line of a run that is horizontal and vertical in turn. -/
def fetchAlternating (horizontal : Bool) (i : ℕ) : Outcome α (PathStep α) := do
  let d ← m.fetch i
  return if facing horizontal i then .line d 0 else .line 0 d

/-- A curve of a run that begins and ends in the same direction. The first one begins off it. -/
def fetchLevel (horizontal : Bool) (off : α) (first i : ℕ) : Outcome α (PathStep α) := do
  let off := if i = first then off else 0
  let a ← m.fetch i
  let b ← m.fetch (i + 1)
  let c ← m.fetch (i + 2)
  let d ← m.fetch (i + 3)
  return if horizontal then .curve a off b c d 0 else .curve off a b c 0 d

/-- A curve of a run that turns from one direction to the other. The last one may end off it. -/
def fetchTurning (horizontal : Bool) (i : ℕ) : Outcome α (PathStep α) := do
  let a ← m.fetch i
  let b ← m.fetch (i + 1)
  let c ← m.fetch (i + 2)
  let d ← m.fetch (i + 3)
  let off ← if m.stack.size - i = 5 then m.fetch (i + 4) else .ok 0
  return if facing horizontal (i / 4) then .curve a 0 b c off d else .curve 0 a b c d off

/-- Fetches one step after another and draws it at once, as long as a whole stride of operands from
the one at `i` on lies below the bound. -/
def drawWhile (fetchStep : Machine α → ℕ → Outcome α (PathStep α)) (stride bound i : ℕ)
    (m : Machine α) : Outcome α (Machine α) :=
  if 0 < stride ∧ i + stride ≤ bound then do
    drawWhile fetchStep stride bound (i + stride) (m.draw (← fetchStep m i))
  else .ok m
termination_by bound - i

/-- What leads off the direction of level curves: the first of an odd number of operands. -/
def fetchOff : Outcome α α := if m.stack.size % 2 = 1 then m.fetch 0 else .ok 0

def performLevel (horizontal : Bool) : Outcome α (Machine α) := do
  let first := m.stack.size % 2
  let off ← m.fetchOff
  m.require (first + 4)
  return (← m.drawWhile (·.fetchLevel horizontal off first) 4 m.stack.size first).clear

/-- Evaluates a path operator step by step, each with the operands fetched for it. -/
def perform (op : PathOperator) : Outcome α (Machine α) := do
  let size := m.stack.size
  match op with
  | .rlineto =>
    m.require 2
    return (← m.drawWhile fetchLine 2 size 0).clear
  | .hlineto =>
    m.require 1
    return (← m.drawWhile (·.fetchAlternating true) 1 size 0).clear
  | .vlineto =>
    m.require 1
    return (← m.drawWhile (·.fetchAlternating false) 1 size 0).clear
  | .rrcurveto =>
    m.require 6
    return (← m.drawWhile fetchCurve 6 size 0).clear
  | .rcurveline =>
    m.require 8
    let m ← m.drawWhile fetchCurve 6 (size - 2) 0
    return (m.draw (← m.fetchLine (size - 2))).clear
  | .rlinecurve =>
    m.require 8
    let m ← m.drawWhile fetchLine 2 (size - 6) 0
    return (m.draw (← m.fetchCurve (size - 6))).clear
  | .hhcurveto => m.performLevel true
  | .vvcurveto => m.performLevel false
  | .hvcurveto =>
    m.require 4
    return (← m.drawWhile (·.fetchTurning true) 4 size 0).clear
  | .vhcurveto =>
    m.require 4
    return (← m.drawWhile (·.fetchTurning false) 4 size 0).clear
  | .hflex =>
    m.require 7
    let dx1 ← m.fetch 0
    let dx2 ← m.fetch 1
    let dy2 ← m.fetch 2
    let dx3 ← m.fetch 3
    let dx4 ← m.fetch 4
    let dx5 ← m.fetch 5
    let dx6 ← m.fetch 6
    let m := m.draw (.curve dx1 0 dx2 dy2 dx3 0)
    return (m.draw (.curve dx4 0 dx5 (-dy2) dx6 0)).clear
  | .flex =>
    m.require 12
    let m := m.draw (← m.fetchCurve 0)
    return (m.draw (← m.fetchCurve 6)).clear
  | .hflex1 =>
    m.require 9
    let dx1 ← m.fetch 0
    let dy1 ← m.fetch 1
    let dx2 ← m.fetch 2
    let dy2 ← m.fetch 3
    let dx3 ← m.fetch 4
    let dx4 ← m.fetch 5
    let dx5 ← m.fetch 6
    let dy5 ← m.fetch 7
    let dx6 ← m.fetch 8
    let m := m.draw (.curve dx1 dy1 dx2 dy2 dx3 0)
    return (m.draw (.curve dx4 0 dx5 dy5 dx6 (-(dy1 + dy2 + dy5)))).clear
  | .flex1 =>
    m.require 11
    let dx1 ← m.fetch 0
    let dy1 ← m.fetch 1
    let dx2 ← m.fetch 2
    let dy2 ← m.fetch 3
    let dx3 ← m.fetch 4
    let dy3 ← m.fetch 5
    let dx4 ← m.fetch 6
    let dy4 ← m.fetch 7
    let dx5 ← m.fetch 8
    let dy5 ← m.fetch 9
    let d6 ← m.fetch 10
    let dx := dx1 + dx2 + dx3 + dx4 + dx5
    let dy := dy1 + dy2 + dy3 + dy4 + dy5
    let m := m.draw (.curve dx1 dy1 dx2 dy2 dx3 dy3)
    return (m.draw (if Scalar.abs dy < Scalar.abs dx then .curve dx4 dy4 dx5 dy5 d6 (-dy)
      else .curve dx4 dy4 dx5 dy5 (-dx) d6)).clear

end Loops

variable {m m' : Machine α} {op : PathOperator} {ops : List α} {horizontal : Bool}
  {stride bound i : ℕ} {a off : α}

-- ---------------------------------------------------------------------------
-- Runs without a step
-- ---------------------------------------------------------------------------

omit [Scalar α] in
theorem lines_eq_nil_iff : PathStep.lines ops = [] ↔ ops.length < 2 := by
  match ops with
  | [] | [_] | _ :: _ :: _ => simp [PathStep.lines]

theorem alternatingLines_eq_nil_iff :
    PathStep.alternatingLines horizontal ops = [] ↔ ops.length < 1 := by
  match ops with
  | [] | _ :: _ => simp [PathStep.alternatingLines]

omit [Scalar α] in
theorem curves_eq_nil_iff : PathStep.curves ops = [] ↔ ops.length < 6 := by
  match ops with
  | [] | [_] | [_, _] | [_, _, _] | [_, _, _, _] | [_, _, _, _, _]
  | _ :: _ :: _ :: _ :: _ :: _ :: _ => simp [PathStep.curves]

theorem levelCurves_eq_nil_iff : PathStep.levelCurves horizontal off ops = [] ↔ ops.length < 4 := by
  match ops with
  | [] | [_] | [_, _] | [_, _, _] | _ :: _ :: _ :: _ :: _ => simp [PathStep.levelCurves]

theorem turningCurves_eq_nil_iff : PathStep.turningCurves horizontal ops = [] ↔ ops.length < 4 := by
  match ops with
  | [] | [_] | [_, _] | [_, _, _] | [_, _, _, _] | [_, _, _, _, _]
  | _ :: _ :: _ :: _ :: _ :: _ :: _ => simp [PathStep.turningCurves]

-- ---------------------------------------------------------------------------
-- Operands
-- ---------------------------------------------------------------------------

omit [Scalar α] in
theorem length_operands (m : Machine α) : m.operands.length = m.stack.size := List.length_reverse

theorem operands_draw (m : Machine α) (s : PathStep α) : (m.draw s).operands = m.operands := by
  obtain ⟨_, _, _, _, _, h⟩ := drawsOnly_draw m s
  rw [h]
  rfl

omit [Scalar α] in
theorem fetch_ok (h : m.operands[i]? = some a) : m.fetch i = .ok a := by
  rw [fetch, h]

omit [Scalar α] in
theorem require_ok {count : ℕ} (h : count ≤ m.stack.size) : m.require count = .ok () :=
  if_neg (not_lt.mpr h)

omit [Scalar α] in
theorem require_halt {count : ℕ} (h : m.stack.size < count) :
    m.require count = m.halt .stackUnderflow :=
  if_pos h

-- ---------------------------------------------------------------------------
-- Loops
-- ---------------------------------------------------------------------------

/-- The operands of a machine from the one at `i` on begin with these. -/
def HasOperands (m : Machine α) (i : ℕ) : List α → Prop
  | [] => True
  | a :: as => m.operands[i]? = some a ∧ m.HasOperands (i + 1) as

omit [Scalar α] in
theorem hasOperands_drop (m : Machine α) (bound i : ℕ) :
    m.HasOperands i ((m.operands.take bound).drop i) := by
  generalize h : (m.operands.take bound).drop i = as
  induction as generalizing i with
  | nil => trivial
  | cons a as ih =>
    refine ⟨?_, ih (i + 1) ?_⟩
    · have hhead := congrArg List.head? h
      rw [List.head?_drop, List.getElem?_take, List.head?_cons] at hhead
      split_ifs at hhead
      exact hhead
    · rw [← List.drop_drop, h]
      rfl

/-- A loop draws a run if in each turn it fetches the first step of what is left of the run. -/
theorem drawWhile_eq (run : ℕ → List α → List (PathStep α))
    {fetchStep : Machine α → ℕ → Outcome α (PathStep α)} (hstride : 0 < stride)
    (hbound : bound ≤ m.stack.size)
    (hstep : ∀ j as rest, i ≤ j → as.length = stride →
      (m.operands.take bound).drop j = as ++ rest →
      ∃ s, run j (as ++ rest) = s :: run (j + stride) rest ∧
        ∀ m' : Machine α, m'.operands = m.operands → m'.HasOperands j (as ++ rest) →
          fetchStep m' j = .ok s)
    (hend : ∀ j rest, rest.length < stride → run j rest = []) :
    m.drawWhile fetchStep stride bound i =
      .ok ((run i ((m.operands.take bound).drop i)).foldl draw m) := by
  -- The machine changes from turn to turn, but not its operands.
  generalize hops : m.operands = ops at hstep ⊢
  rw [← length_operands, hops] at hbound
  have hloop (n j : ℕ) (hn : bound - j = n) (hj : i ≤ j) (m : Machine α) (hm : m.operands = ops) :
      m.drawWhile fetchStep stride bound j =
        .ok ((run j ((ops.take bound).drop j)).foldl draw m) := by
    induction n using Nat.strong_induction_on generalizing j m with
    | _ n ih =>
      rw [drawWhile]
      by_cases hlast : j + stride ≤ bound
      · obtain ⟨s, hrun, hfetch⟩ := hstep j (((ops.take bound).drop j).take stride)
          (((ops.take bound).drop j).drop stride) hj (by simp; omega)
          (List.take_append_drop _ _).symm
        have hoperands := hm ▸ hasOperands_drop m bound j
        rw [List.take_append_drop] at hrun hfetch
        rw [List.drop_drop] at hrun
        rw [if_pos ⟨hstride, hlast⟩, hfetch m hm hoperands, hrun, List.foldl_cons]
        exact ih (bound - (j + stride)) (by omega) _ rfl (hj.trans (Nat.le_add_right _ _)) _
          ((operands_draw m s).trans hm)
      · rw [if_neg (fun h => hlast h.2), hend j _ (by simp; omega)]
        rfl
  exact hloop _ i rfl le_rfl m hops

omit [Scalar α] in
theorem fetchLine_ok {a b : α} {rest : List α} (h : m.HasOperands i (a :: b :: rest)) :
    m.fetchLine i = .ok (.line a b) := by
  unfold fetchLine
  obtain ⟨ha, hb, -⟩ := h
  rw [fetch_ok ha, fetch_ok hb]
  rfl

omit [Scalar α] in
theorem fetchCurve_ok {a b c d e f : α} {rest : List α}
    (h : m.HasOperands i (a :: b :: c :: d :: e :: f :: rest)) :
    m.fetchCurve i = .ok (.curve a b c d e f) := by
  unfold fetchCurve
  obtain ⟨ha, hb, hc, hd, he, hf, -⟩ := h
  rw [fetch_ok ha, fetch_ok hb, fetch_ok hc, fetch_ok hd, fetch_ok he, fetch_ok hf]
  rfl

theorem drawWhile_fetchLine (hbound : bound ≤ m.stack.size) :
    m.drawWhile fetchLine 2 bound 0 =
      .ok ((PathStep.lines (m.operands.take bound)).foldl draw m) := by
  refine drawWhile_eq (fun _ => PathStep.lines) Nat.two_pos hbound ?_ ?_
  · rintro i as rest - hlength -
    match as, hlength with
    | [a, b], _ => exact ⟨.line a b, rfl, fun m' _ h => fetchLine_ok h⟩
  · exact fun _ _ => lines_eq_nil_iff.mpr

theorem drawWhile_fetchCurve (hbound : bound ≤ m.stack.size) :
    m.drawWhile fetchCurve 6 bound 0 =
      .ok ((PathStep.curves (m.operands.take bound)).foldl draw m) := by
  refine drawWhile_eq (fun _ => PathStep.curves) (by decide : 0 < 6) hbound ?_ ?_
  · rintro i as rest - hlength -
    match as, hlength with
    | [a, b, c, d, e, f], _ => exact ⟨.curve a b c d e f, rfl, fun m' _ h => fetchCurve_ok h⟩
  · exact fun _ _ => curves_eq_nil_iff.mpr

omit [Scalar α] in
theorem take_size (m : Machine α) : m.operands.take m.stack.size = m.operands := by
  rw [← length_operands, List.take_length]

theorem facing_succ (horizontal : Bool) (turns : ℕ) :
    facing horizontal (turns + 1) = !facing horizontal turns := by
  unfold facing
  rcases Nat.mod_two_eq_zero_or_one turns with h | h
  · rw [if_neg (by omega), if_pos h]
  · rw [if_pos (by omega), if_neg (by omega), Bool.not_not]

theorem drawWhile_fetchAlternating (m : Machine α) (horizontal : Bool) :
    m.drawWhile (·.fetchAlternating horizontal) 1 m.stack.size 0 =
      .ok ((PathStep.alternatingLines horizontal m.operands).foldl draw m) := by
  rw [drawWhile_eq (fun i => PathStep.alternatingLines (facing horizontal i)) Nat.one_pos le_rfl,
    take_size]
  · rfl
  · rintro i as rest - hlength -
    match as, hlength with
    | [a], _ =>
      refine ⟨if facing horizontal i then .line a 0 else .line 0 a, ?_, fun m' _ h => ?_⟩
      · rw [facing_succ]
        rfl
      · rw [fetchAlternating, fetch_ok h.1]
        rfl
  · exact fun _ _ => alternatingLines_eq_nil_iff.mpr

theorem drawWhile_fetchLevel (m : Machine α) (horizontal : Bool) (off : α) (first : ℕ) :
    m.drawWhile (·.fetchLevel horizontal off first) 4 m.stack.size first =
      .ok ((PathStep.levelCurves horizontal off (m.operands.drop first)).foldl draw m) := by
  rw [drawWhile_eq (fun i => PathStep.levelCurves horizontal (if i = first then off else 0))
    (by decide : 0 < 4) le_rfl, take_size, if_pos rfl]
  · rintro i as rest hi hlength -
    match as, hlength with
    | [a, b, c, d], _ =>
      refine ⟨let off := if i = first then off else 0
        if horizontal then .curve a off b c d 0 else .curve off a b c 0 d, ?_, ?_⟩
      · rw [if_neg (by omega : i + 4 ≠ first)]
        rfl
      · rintro m' - ⟨ha, hb, hc, hd, -⟩
        dsimp only
        rw [fetchLevel, fetch_ok ha, fetch_ok hb, fetch_ok hc, fetch_ok hd]
        rfl
  · exact fun _ _ => levelCurves_eq_nil_iff.mpr

/-- Four operands make a curve; if a single one is left then, it belongs to the curve too. -/
theorem turningCurves_cons (horizontal : Bool) (a b c d : α) (rest : List α) :
    PathStep.turningCurves horizontal (a :: b :: c :: d :: rest) =
      (let off := match rest with
        | [off] => off
        | _ => 0
      if horizontal then .curve a 0 b c off d else .curve 0 a b c d off) ::
        PathStep.turningCurves (!horizontal) rest := by
  match rest with
  | [] | [_] | _ :: _ :: _ => rfl

theorem drawWhile_fetchTurning (m : Machine α) (horizontal : Bool) :
    m.drawWhile (·.fetchTurning horizontal) 4 m.stack.size 0 =
      .ok ((PathStep.turningCurves horizontal m.operands).foldl draw m) := by
  rw [drawWhile_eq (fun i => PathStep.turningCurves (facing horizontal (i / 4)))
    (by decide : 0 < 4) le_rfl, take_size]
  · rfl
  · rintro i as rest - hlength hdrop
    rw [take_size] at hdrop
    match as, hlength with
    | [a, b, c, d], _ =>
      have hturn : facing horizontal ((i + 4) / 4) = !facing horizontal (i / 4) := by
        rw [Nat.add_div_right i (by decide), facing_succ]
      have hsize : m.stack.size - i = 4 + rest.length := by
        rw [← length_operands, ← List.length_drop, hdrop]
        simp
        omega
      refine ⟨_, by rw [hturn]; exact turningCurves_cons _ a b c d rest, fun m' hm' hfetch => ?_⟩
      have hsize' : m'.stack.size - i = 4 + rest.length := by
        rw [← length_operands, hm', length_operands, hsize]
      obtain ⟨ha, hb, hc, hd, hrest⟩ := hfetch
      rw [fetchTurning, fetch_ok ha, fetch_ok hb, fetch_ok hc, fetch_ok hd, hsize']
      dsimp only [bind, Except.bind]
      match rest, hrest with
      | [], _ => rfl
      | [off], ⟨hoff, _⟩ =>
        rw [if_pos (by rfl : 4 + [off].length = 5), fetch_ok hoff]
        rfl
      | _ :: _ :: _, _ =>
        rw [if_neg (by simp; omega)]
        rfl
  · exact fun _ _ => turningCurves_eq_nil_iff.mpr

-- ---------------------------------------------------------------------------
-- Operators
-- ---------------------------------------------------------------------------

theorem drawPath_of_nil (h : op.steps m.operands = []) :
    m.drawPath op = m.halt .stackUnderflow := by
  rw [drawPath, h]

theorem drawPath_of_ne_nil (h : op.steps m.operands ≠ []) :
    m.drawPath op = .ok ((op.steps m.operands).foldl draw m).clear := by
  unfold drawPath
  split
  · exact absurd ‹_› h
  · rfl

/-- A loop over all operands, with enough of them required for its first step, is the operator. -/
theorem require_drawWhile {fetchStep : Machine α → ℕ → Outcome α (PathStep α)} {count : ℕ}
    (hloop : m.drawWhile fetchStep stride m.stack.size i =
      .ok ((op.steps m.operands).foldl draw m))
    (hsteps : op.steps m.operands = [] ↔ m.operands.length < count) :
    (do
      m.require count
      return (← m.drawWhile fetchStep stride m.stack.size i).clear) = m.drawPath op := by
  rw [length_operands] at hsteps
  by_cases hcount : m.stack.size < count
  · rw [require_halt hcount, drawPath_of_nil (hsteps.mpr hcount)]
    rfl
  · rw [require_ok (not_lt.mp hcount), hloop, drawPath_of_ne_nil (mt hsteps.mp hcount)]
    rfl

theorem steps_level (horizontal : Bool) :
    PathOperator.steps.level ops horizontal =
      PathStep.levelCurves horizontal (if ops.length % 2 = 1 then ops.headD 0 else 0)
        (ops.drop (ops.length % 2)) := by
  cases ops with
  | nil => rfl
  | cons off rest =>
    unfold PathOperator.steps.level
    rcases Nat.mod_two_eq_zero_or_one (off :: rest).length with h | h
    · rw [h]
      rfl
    · rw [h]
      rfl

theorem fetchOff_eq (m : Machine α) :
    m.fetchOff = .ok (if m.operands.length % 2 = 1 then m.operands.headD 0 else 0) := by
  rw [fetchOff, ← length_operands]
  split_ifs with h
  · cases hops : m.operands with
    | nil =>
      rw [hops] at h
      cases h
    | cons a rest => exact fetch_ok (by rw [hops]; rfl)
  · rfl

theorem performLevel_eq (m : Machine α) (horizontal : Bool)
    (hop : op.steps m.operands = PathOperator.steps.level m.operands horizontal) :
    m.performLevel horizontal = m.drawPath op := by
  rw [steps_level] at hop
  unfold performLevel
  rw [fetchOff_eq]
  refine require_drawWhile ?_ ?_
  · rw [drawWhile_fetchLevel, hop, length_operands]
  · rw [hop, levelCurves_eq_nil_iff, List.length_drop, length_operands]
    omega

theorem exists_fetched {count : ℕ} (h : count ≤ m.stack.size) :
    ∃ (x : ℕ → α) (rest : List α), m.operands = (List.range count).map x ++ rest ∧
      ∀ i < count, m.fetch i = .ok (x i) := by
  rw [← length_operands] at h
  refine ⟨(m.operands.getD · 0), m.operands.drop count, ?_, fun i hi => fetch_ok ?_⟩
  · rw [← (take_eq_map (Nat.add_sub_of_le h).symm).1, List.take_append_drop]
  · have hlt : i < m.operands.length := hi.trans_le h
    simp [hlt]

theorem fetch_draw (h : m.fetch i = .ok a) (s : PathStep α) : (m.draw s).fetch i = .ok a := by
  unfold fetch at h ⊢
  rw [operands_draw]
  split at h
  · exact h
  · cases h

/-- An operator that draws the same number of steps with whatever operands it has, if these are
enough. -/
theorem require_perform {x : Outcome α (Machine α)} {count : ℕ}
    (hfew : m.operands.length < count → op.steps m.operands = [])
    (hmany : ∀ (values : ℕ → α) rest, (∀ i < count, m.fetch i = .ok (values i)) →
      op.steps ((List.range count).map values ++ rest) ≠ [] ∧
        x = .ok ((op.steps ((List.range count).map values ++ rest)).foldl draw m).clear) :
    (do
      m.require count
      x) = m.drawPath op := by
  rw [length_operands] at hfew
  by_cases hcount : m.stack.size < count
  · rw [require_halt hcount, drawPath_of_nil (hfew hcount)]
    rfl
  · obtain ⟨values, rest, hops, hfetch⟩ := exists_fetched (not_lt.mp hcount)
    obtain ⟨hne, hx⟩ := hmany values rest hfetch
    rw [← hops] at hne hx
    rw [require_ok (not_lt.mp hcount), drawPath_of_ne_nil hne]
    exact hx

theorem operands_foldl_draw (m : Machine α) (steps : List (PathStep α)) :
    (steps.foldl draw m).operands = m.operands := by
  induction steps generalizing m with
  | nil => rfl
  | cons s steps ih => exact (ih _).trans (operands_draw m s)

theorem hasOperands_foldl_draw (m : Machine α) (steps : List (PathStep α)) (i : ℕ) :
    (steps.foldl draw m).HasOperands i (m.operands.drop i) := by
  have hoperands := hasOperands_drop (steps.foldl draw m) m.stack.size i
  rwa [operands_foldl_draw, take_size] at hoperands

theorem require_drawWhile_last (run last : List α → List (PathStep α))
    {fetchStep fetchLast : Machine α → ℕ → Outcome α (PathStep α)} {left : ℕ}
    (hop : op.steps m.operands =
      if m.operands.length < 8 then []
      else run (m.operands.take (m.operands.length - left)) ++
        last (m.operands.drop (m.operands.length - left)))
    (hloop : m.drawWhile fetchStep stride (m.stack.size - left) 0 =
      .ok ((run (m.operands.take (m.stack.size - left))).foldl draw m))
    (hlast : ∀ (m' : Machine α) i as, as.length = left → m'.HasOperands i as →
      ∃ s, last as = [s] ∧ fetchLast m' i = .ok s) (hleft : left ≤ 8) :
    (do
      m.require 8
      let m' ← m.drawWhile fetchStep stride (m.stack.size - left) 0
      return (m'.draw (← fetchLast m' (m.stack.size - left))).clear) = m.drawPath op := by
  rw [length_operands] at hop
  by_cases hfew : m.stack.size < 8
  · rw [if_pos hfew] at hop
    rw [require_halt hfew, drawPath_of_nil hop]
    rfl
  · rw [if_neg hfew] at hop
    obtain ⟨s, hs, hfetch⟩ := hlast _ (m.stack.size - left) (m.operands.drop (m.stack.size - left))
      (by rw [List.length_drop, length_operands]; omega)
      (hasOperands_foldl_draw m (run (m.operands.take (m.stack.size - left))) _)
    rw [hs] at hop
    rw [require_ok (not_lt.mp hfew), drawPath_of_ne_nil (by simp [hop]), hloop, hop,
      List.foldl_append]
    dsimp only [bind, Except.bind]
    rw [hfetch]
    rfl

theorem perform_hflex (m : Machine α) : m.perform .hflex = m.drawPath .hflex := by
  refine require_perform (fun hfew => ?_) fun x rest hfetch => ⟨List.cons_ne_nil _ _, ?_⟩
  · simp only [PathOperator.steps]
    split
    next heq =>
      simp only [heq, List.length_cons] at hfew
      omega
    next => rfl
  · simp (disch := decide) only [hfetch]
    rfl

theorem perform_flex (m : Machine α) : m.perform .flex = m.drawPath .flex := by
  refine require_perform (fun hfew => ?_) fun x rest hfetch => ?_
  · simp only [PathOperator.steps, if_pos hfew]
    rfl
  · have hsteps : PathOperator.flex.steps ((List.range 12).map x ++ rest) =
        [curveAt x 0, curveAt x 6] := by
      simp only [PathOperator.steps]
      rw [if_neg (by simp)]
      rfl
    have hfetch' (s : PathStep α) (i : ℕ) (hi : i < 12) : (m.draw s).fetch i = .ok (x i) :=
      fetch_draw (hfetch i hi) s
    rw [hsteps]
    refine ⟨List.cons_ne_nil _ _, ?_⟩
    simp (disch := decide) only [fetchCurve, hfetch, hfetch', bind, Except.bind, pure, Except.pure]
    rfl

theorem perform_hflex1 (m : Machine α) : m.perform .hflex1 = m.drawPath .hflex1 := by
  refine require_perform (fun hfew => ?_) fun x rest hfetch => ⟨List.cons_ne_nil _ _, ?_⟩
  · simp only [PathOperator.steps]
    split
    next heq =>
      simp only [heq, List.length_cons] at hfew
      omega
    next => rfl
  · simp (disch := decide) only [hfetch]
    rfl

theorem perform_flex1 (m : Machine α) : m.perform .flex1 = m.drawPath .flex1 := by
  refine require_perform (fun hfew => ?_) fun x rest hfetch => ?_
  · simp only [PathOperator.steps, PathOperator.flexBack]
    split
    next heq =>
      simp only [heq, List.length_cons] at hfew
      omega
    next => rfl
  · simp (disch := decide) only [hfetch, bind, Except.bind]
    simp only [PathOperator.steps, List.range, List.range.loop, List.map_cons, List.cons_append,
      PathOperator.flexBack]
    split_ifs
    · exact ⟨List.cons_ne_nil _ _, rfl⟩
    · exact ⟨List.cons_ne_nil _ _, rfl⟩

/-- Fetching and drawing step by step comes to the same as drawing the whole run, and halts where
that does, with nothing drawn. -/
theorem perform_eq_drawPath (m : Machine α) (op : PathOperator) : m.perform op = m.drawPath op := by
  cases op with
  | rlineto =>
    refine require_drawWhile ?_ lines_eq_nil_iff
    rw [drawWhile_fetchLine le_rfl, take_size]
    rfl
  | hlineto =>
    exact require_drawWhile (drawWhile_fetchAlternating m true) alternatingLines_eq_nil_iff
  | vlineto =>
    exact require_drawWhile (drawWhile_fetchAlternating m false) alternatingLines_eq_nil_iff
  | rrcurveto =>
    refine require_drawWhile ?_ curves_eq_nil_iff
    rw [drawWhile_fetchCurve le_rfl, take_size]
    rfl
  | rcurveline =>
    refine require_drawWhile_last PathStep.curves PathStep.lines rfl
      (drawWhile_fetchCurve (Nat.sub_le _ _)) (fun m' i as hlength h => ?_) (by decide)
    match as, hlength, h with
    | [a, b], _, h => exact ⟨.line a b, rfl, fetchLine_ok h⟩
  | rlinecurve =>
    refine require_drawWhile_last PathStep.lines PathStep.curves rfl
      (drawWhile_fetchLine (Nat.sub_le _ _)) (fun m' i as hlength h => ?_) (by decide)
    match as, hlength, h with
    | [a, b, c, d, e, f], _, h => exact ⟨.curve a b c d e f, rfl, fetchCurve_ok h⟩
  | hhcurveto => exact performLevel_eq m true rfl
  | vvcurveto => exact performLevel_eq m false rfl
  | hvcurveto => exact require_drawWhile (drawWhile_fetchTurning m true) turningCurves_eq_nil_iff
  | vhcurveto => exact require_drawWhile (drawWhile_fetchTurning m false) turningCurves_eq_nil_iff
  | hflex => exact perform_hflex m
  | flex => exact perform_flex m
  | hflex1 => exact perform_hflex1 m
  | flex1 => exact perform_flex1 m

end Machine

end Letterform.Charstring
