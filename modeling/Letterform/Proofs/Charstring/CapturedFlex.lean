import Letterform.Proofs.Charstring.Segments
import Letterform.Proofs.Charstring.Width
import Letterform.Proofs.Number.Gridded
import Letterform.Proofs.Outline.Masks

/-!
# Captured flexes

Type 1 has no operator for a flex. Other subroutines note the points of seven moves, the first of
them to a reference point, and draw two curves through the last six. This draws what a flex operator
draws, but a pending mask goes to another knot: the operator gives it to the one between the curves,
the subroutine to the one at their end.
-/

namespace Letterform

/-- Both coordinates are multiples of 1/1024 that add up without rounding. -/
structure Point.AddsExactly (p : Point Float) : Prop where
  x : Double.AddsExactly p.x
  y : Double.AddsExactly p.y

namespace Charstring

section

variable {α : Type} [Scalar α]

def noteMove (d : Point α) : List (Operator × List α) :=
  [(.rmoveto, [d.x, d.y]), (.callothersubr, [0, 2])]

/-- A flex by other subroutines. Its first displacement leads to the reference point, and the last
operands are how deep it may be to show as a line and where it ends. -/
def capturedFlex (displacements : List (Point α)) (depth : α) (stop : Point α) :
    List (Operator × List α) :=
  (.callothersubr, [0, 1]) :: displacements.flatMap noteMove ++
    [(.callothersubr, [depth, stop.x, stop.y, 3, 0]), (.pop, []), (.pop, []),
      (.setcurrentpoint, [])]

def operatorFlex (displacements : List (Point α)) (depth : α) : List (Operator × List α) :=
  [(.path .flex, displacements.flatMap (fun d => [d.x, d.y]) ++ [depth])]

theorem isKnownTo_capturedFlex (displacements : List (Point α)) (depth : α) (stop : Point α) :
    ∀ op ∈ (capturedFlex displacements depth stop).map Prod.fst,
      op.isKnownTo .type1 = true ∧ op.isPlain = true := by
  have hnotes : ∀ op ∈ (displacements.flatMap noteMove).map Prod.fst,
      op.isKnownTo .type1 = true ∧ op.isPlain = true := by
    intro op hop
    rw [List.map_flatMap] at hop
    obtain ⟨d, -, hop⟩ := List.mem_flatMap.mp hop
    rcases List.mem_cons.mp hop with rfl | hop
    · exact ⟨rfl, rfl⟩
    · rw [List.mem_singleton.mp hop]
      exact ⟨rfl, rfl⟩
  rw [capturedFlex, List.map_append, List.map_cons]
  refine List.forall_mem_append.mpr ⟨List.forall_mem_cons.mpr ⟨⟨rfl, rfl⟩, hnotes⟩, ?_⟩
  simp only [List.map_cons, List.map_nil, List.forall_mem_cons]
  exact ⟨by decide, by decide, by decide, by decide, List.forall_mem_nil _⟩

def code (version : Version) (operations : List (Operator × List α)) : List UInt8 :=
  operations.flatMap fun o => (Instruction.operation o.1 o.2).toBytes version

def readBack (version : Version) (operations : List (Operator × List α)) :
    List (Operator × List α) :=
  operations.map fun o => (o.1, o.2.map (Operand.reread version))

end

namespace Machine

section

variable {α : Type} [Scalar α]

/-- Pushes operands and evaluates the operator that they are for. -/
def operate (ctx : Context α) (m : Machine α) (operation : Operator × List α) :
    Outcome α (Machine α) := do
  (← operation.2.foldlM push m).evaluate ctx operation.1

def operateAll (ctx : Context α) (m : Machine α) (operations : List (Operator × List α)) :
    Outcome α (Machine α) :=
  operations.foldlM (operate ctx) m

section

variable [LawfulScalar α] (ctx : Context α) (levels : ℕ)

/-- Executing the bytes of an operation is performing it, with what is read back of its operands. -/
theorem run_operate {op : Operator} (hknown : op.isKnownTo ctx.version = true)
    (hplain : op.isPlain = true) (operands : List α) (tail : List UInt8) (m : Machine α) :
    m.run ctx levels ((Instruction.operation op operands).toBytes ctx.version ++ tail) =
      m.operate ctx (op, operands.map (Operand.reread ctx.version)) >>= run ctx levels tail := by
  rw [Instruction.toBytes, List.append_assoc]
  induction operands generalizing m with
  | nil => exact run_opcode ctx levels op hknown hplain tail m
  | cons a operands ih =>
    rw [List.flatMap_cons, List.append_assoc,
      run_operand ctx levels (Operand.encodes_write ctx.version a), funext (ih ·)]
    simp only [operate, List.map_cons, List.foldlM_cons, bind_assoc]

theorem run_operateAll {operations : List (Operator × List α)}
    (hknown : ∀ o ∈ operations, o.1.isKnownTo ctx.version = true ∧ o.1.isPlain = true)
    (tail : List UInt8) (m : Machine α) :
    m.run ctx levels (code ctx.version operations ++ tail) =
      m.operateAll ctx (readBack ctx.version operations) >>= run ctx levels tail := by
  induction operations generalizing m with
  | nil => rfl
  | cons o operations ih =>
    obtain ⟨⟨hop, hplain⟩, hrest⟩ := List.forall_mem_cons.mp hknown
    have hcode : code ctx.version (o :: operations) =
        (Instruction.operation o.1 o.2).toBytes ctx.version ++ code ctx.version operations := rfl
    rw [hcode, List.append_assoc, run_operate ctx levels hop hplain, funext (ih hrest ·)]
    simp only [operateAll, readBack, List.map_cons, List.foldlM_cons, bind_assoc]

end

theorem operate_eq {ctx : Context α} {m : Machine α} (hempty : m.stack.values = [])
    (hlimit : m.stack.limit = ctx.version.stackLimit) (op : Operator) {operands : List α}
    (hroom : operands.length ≤ 13) :
    m.operate ctx (op, operands) = (m.load operands).evaluate ctx op := by
  have hle := ctx.version.le_stackLimit
  have hsize : m.stack.size = 0 := by rw [Stack.size, hempty, List.length_nil]
  rw [operate, foldlM_push operands (by omega)]
  rfl

theorem operateAll_cons {ctx : Context α} {m m' : Machine α} {operation : Operator × List α}
    (h : m.operate ctx operation = .ok m') (rest : List (Operator × List α)) :
    m.operateAll ctx (operation :: rest) = m'.operateAll ctx rest := by
  rw [operateAll, List.foldlM_cons, h]
  rfl

theorem popInt_load (m : Machine α) (operands : List α) (a : α) :
    (m.load (operands ++ [a])).popInt = .ok (Scalar.toInt32 a, m.load operands) := by
  have hvalues : (operands ++ [a]).reverse ++ m.stack.values =
      a :: (operands.reverse ++ m.stack.values) := by simp
  unfold load
  rw [hvalues]
  rfl

omit [Scalar α] in
theorem popMany_load (m : Machine α) (operands : List α) :
    (m.load operands).stack.popMany operands.length = .ok (operands, m.stack) := by
  have hsize : ¬ ((m.load operands).stack.size : ℤ) < operands.length := by
    simp [Stack.size, load, stack, withStack]
  have hvalues : (m.load operands).stack.values = operands.reverse ++ m.stack.values := rfl
  have hlength : ((operands.length : ℤ)).toNat = operands.reverse.length := by simp
  rw [Stack.popMany, if_neg (by omega), hvalues, hlength]
  dsimp only
  rw [List.take_left, List.drop_left, List.reverse_reverse]
  rfl

def afterOther (m : Machine α) (number : ℤ) (operands : List α) : Machine α :=
  let m := { m with results := [] }
  match number with
  | 0 => m.endFlex
  | 1 => { m with flex := some #[] }
  | 2 => m
  | 3 => { m with pendingMask := some .empty, replacingHints := true, results := operands }
  | _ => { m with results := operands }

/-- Another subroutine takes its operands, how many they are, and its number off the stack. -/
theorem operate_callOther {ctx : Context α} {m : Machine α} (hempty : m.stack.values = [])
    (hlimit : m.stack.limit = ctx.version.stackLimit) (operands : List α) {count number : α} {n : ℤ}
    (hcount : Scalar.toInt32 count = operands.length) (hnumber : Scalar.toInt32 number = n)
    (hroom : operands.length ≤ 11) :
    m.operate ctx (.callothersubr, operands ++ [count, number]) =
      .ok (m.afterOther n operands) := by
  have hsplit : operands ++ [count, number] = (operands ++ [count]) ++ [number] := by simp
  rw [operate_eq hempty hlimit _ (by simp; omega)]
  show callOther _ = _
  unfold callOther
  rw [hsplit, popInt_load, hnumber]
  show ((m.load (operands ++ [count])).popInt >>= _) = _
  rw [popInt_load, hcount]
  show ((m.load operands).attempt ((m.load operands).stack.popMany operands.length) >>= _) = _
  rw [popMany_load]
  rfl

theorem moveTo_withStack (m : Machine α) (stack : Stack α) (dx dy : α) :
    (m.withStack stack).moveTo dx dy = (m.moveTo dx dy).withStack stack := by
  obtain ⟨_, _, _, _, _, _, _, mask, _, _, _, flex, _⟩ := m
  cases flex <;> cases mask <;> rfl

theorem stack_moveTo (m : Machine α) (dx dy : α) : (m.moveTo dx dy).stack = m.stack := by
  obtain ⟨_, _, _, _, _, _, _, mask, _, _, _, flex, _⟩ := m
  cases flex <;> cases mask <;> rfl

theorem operate_rmoveto {ctx : Context α} {m : Machine α} (hempty : m.stack.values = [])
    (hlimit : m.stack.limit = ctx.version.stackLimit) (dx dy : α) :
    m.operate ctx (.rmoveto, [dx, dy]) = .ok (m.settled.moveTo dx dy) := by
  have hoperands : (m.load [dx, dy]).settled.operands = [dx, dy] :=
    (operands_load m [dx, dy]).trans (congrArg (·.reverse ++ [dx, dy]) hempty)
  have hclear : ((m.load [dx, dy]).settled.moveTo dx dy).clear = m.settled.moveTo dx dy := by
    calc ((m.load [dx, dy]).settled.moveTo dx dy).clear
        = ((m.settled.moveTo dx dy).withStack (m.load [dx, dy]).stack).clear :=
          congrArg clear (moveTo_withStack m.settled _ dx dy)
      _ = (m.settled.moveTo dx dy).clear := by
          rw [clear, clear, stack_moveTo]
          rfl
      _ = m.settled.moveTo dx dy := clear_of_empty (by rw [stack_moveTo]; exact hempty)
  rw [operate_eq hempty hlimit _ (by simp), evaluate, size_load hempty,
    show decide (2 < [dx, dy].length) = false from rfl, takeWidth_false, hoperands]
  exact congrArg Except.ok hclear

def noted (m : Machine α) (d : Point α) : Machine α :=
  { m.settled with
    position := displaced m.position d.x d.y
    flex := m.flex.map (·.push (displaced m.position d.x d.y))
    results := [] }

-- ---------------------------------------------------------------------------
-- The two curves
-- ---------------------------------------------------------------------------

/-- Draws two curves, with the pending mask for the knot at their end. -/
def drawFlex (m : Machine α) (c1 c2 p c3 c4 q : Point α) : Machine α :=
  { m with
    builder := ((m.builder.curveTo c1 c2 p).curveTo c3 c4 q).mark m.pendingMask
    position := q
    pendingMask := none
    replacingHints := false }

theorem endFlex_eq {m : Machine α} {points : Array (Point α)} (hflex : m.flex = some points)
    {earlier : List (Point α)} (hearlier : earlier ≠ []) {c1 c2 p c3 c4 q : Point α}
    (hpoints : points.toList = earlier ++ [c1, c2, p, c3, c4, q]) :
    m.endFlex = { m.drawFlex c1 c2 p c3 c4 q with flex := none, results := [q.x, q.y] } := by
  have hlength : points.toList.length - 6 = earlier.length := by rw [hpoints]; simp
  have hmany : ¬ points.toList.length < 7 := by
    have := List.length_pos_of_ne_nil hearlier
    rw [hpoints, List.length_append]
    simp
    omega
  have hdrop : points.toList.drop earlier.length = [c1, c2, p, c3, c4, q] := by
    rw [hpoints, List.drop_left]
  unfold endFlex
  dsimp only
  rw [hflex, Option.getD_some, hlength, hdrop]
  dsimp only
  rw [if_neg hmany, attachMask_eq]
  rfl

/-- The points that displacements lead to, one after another. -/
def trail (p : Point α) : List (Point α) → List (Point α)
  | [] => []
  | d :: rest => displaced p d.x d.y :: trail (displaced p d.x d.y) rest

theorem foldl_noted {m : Machine α} {points : Array (Point α)} (hflex : m.flex = some points)
    {displacements : List (Point α)} (hne : displacements ≠ []) :
    displacements.foldl noted m = { m.settled with
      position := (trail m.position displacements).getLastD m.position
      flex := some (points ++ trail m.position displacements)
      results := [] } := by
  induction displacements generalizing m points with
  | nil => exact absurd rfl hne
  | cons d displacements ih =>
    have hnoted : (m.noted d).flex = some (points.push (displaced m.position d.x d.y)) := by
      rw [noted, hflex]
      rfl
    rw [List.foldl_cons]
    rcases eq_or_ne displacements [] with rfl | hrest
    · rw [List.foldl_nil, noted, hflex]
      rfl
    · rw [ih hnoted hrest, noted, trail, List.getLastD_cons]
      simp [settled]

theorem operateAll_setResult {ctx : Context α} {m : Machine α} (hempty : m.stack.values = [])
    (hlimit : m.stack.limit = ctx.version.stackLimit) {x y : α} (hresults : m.results = [x, y]) :
    m.operateAll ctx [(.pop, []), (.pop, []), (.setcurrentpoint, [])] =
      .ok { m with position := ⟨x, y⟩, results := [] } := by
  have hle := ctx.version.le_stackLimit
  have hsize : m.stack.size = 0 := by rw [Stack.size, hempty, List.length_nil]
  let m₁ : Machine α := { m with results := [y] }
  let m₂ : Machine α := { m with results := [] }
  have hfirst : m.operate ctx (.pop, []) = .ok (m₁.load [x]) := by
    show m.popResult = _
    rw [popResult, hresults]
    exact push_eq_load m₁ x (show m.stack.size < m.stack.limit by omega)
  have hsecond : (m₁.load [x]).operate ctx (.pop, []) = .ok (m₂.load [x, y]) :=
    (push_eq_load (m₂.load [x]) y (show m.stack.size + 1 < m.stack.limit by omega)).trans
      (congrArg Except.ok (load_load m₂ [x] [y]))
  have hset : (m₂.load [x, y]).operate ctx (.setcurrentpoint, []) =
      .ok { m with position := ⟨x, y⟩, results := [] } := by
    have hoperands : (m₂.load [x, y]).operands = [x, y] :=
      (operands_load m₂ [x, y]).trans (congrArg (·.reverse ++ [x, y]) hempty)
    have hclear : ({ m with position := ⟨x, y⟩, results := [] } : Machine α).clear =
        { m with position := ⟨x, y⟩, results := [] } := clear_of_empty hempty
    show (m₂.load [x, y]).evaluate ctx .setcurrentpoint = _
    rw [evaluate, hoperands]
    exact congrArg Except.ok hclear
  rw [operateAll_cons hfirst, operateAll_cons hsecond, operateAll_cons hset]
  rfl

end

-- ---------------------------------------------------------------------------
-- Noting points
-- ---------------------------------------------------------------------------

section

variable {ctx : Context Float} {m : Machine Float} {points : Array (Point Float)}

theorem operateAll_noteMove (hempty : m.stack.values = [])
    (hlimit : m.stack.limit = ctx.version.stackLimit) (hflex : m.flex = some points)
    (d : Point Float) (rest : List (Operator × List Float)) :
    m.operateAll ctx (noteMove d ++ rest) = (m.noted d).operateAll ctx rest := by
  let p := displaced m.position d.x d.y
  let m' : Machine Float := { m.settled with position := p, flex := some (points.push p) }
  have hmove : m.operate ctx (.rmoveto, [d.x, d.y]) = .ok m' := by
    rw [operate_rmoveto hempty hlimit, moveTo, show m.settled.flex = some points from hflex]
    rfl
  have hnote : m'.operate ctx (.callothersubr, [0, 2]) = .ok (m.noted d) := by
    have hcall : m'.operate ctx (.callothersubr, [] ++ [0, 2]) = .ok (m'.afterOther 2 []) :=
      operate_callOther (m := m') hempty hlimit [] (by decide +kernel) (by decide +kernel) (by simp)
    refine hcall.trans ?_
    simp only [noted, hflex]
    rfl
  rw [noteMove, List.cons_append, operateAll_cons hmove]
  exact operateAll_cons hnote rest

theorem operateAll_flatMap_noteMove (hempty : m.stack.values = [])
    (hlimit : m.stack.limit = ctx.version.stackLimit) (hflex : m.flex = some points)
    (displacements : List (Point Float)) (rest : List (Operator × List Float)) :
    m.operateAll ctx (displacements.flatMap noteMove ++ rest) =
      (displacements.foldl noted m).operateAll ctx rest := by
  induction displacements generalizing m points with
  | nil => rfl
  | cons d displacements ih =>
    have hnoted : (m.noted d).flex = some (points.push (displaced m.position d.x d.y)) := by
      rw [noted, hflex]
      rfl
    rw [List.flatMap_cons, List.append_assoc, operateAll_noteMove hempty hlimit hflex]
    exact ih hempty hlimit hnoted

/-- The points that the moves come to are drawn, but for the reference point. Whatever operands
the last subroutine has, the current point is where the curves end. -/
theorem operateAll_capturedFlex (h : m.Ready ctx) (d₀ d₁ d₂ d₃ d₄ d₅ d₆ : Point Float)
    (depth : Float) (stop : Point Float) {r c₁ c₂ p c₃ c₄ q : Point Float}
    (htrail : trail m.position [d₀, d₁, d₂, d₃, d₄, d₅, d₆] = [r, c₁, c₂, p, c₃, c₄, q]) :
    m.operateAll ctx (capturedFlex [d₀, d₁, d₂, d₃, d₄, d₅, d₆] depth stop) =
      .ok { m.settled.drawFlex c₁ c₂ p c₃ c₄ q with results := [] } := by
  let begun : Machine Float := { m with flex := some #[], results := [] }
  let captured : Machine Float :=
    { begun.settled with position := q, flex := some #[r, c₁, c₂, p, c₃, c₄, q] }
  let drawn : Machine Float := { m.settled.drawFlex c₁ c₂ p c₃ c₄ q with results := [q.x, q.y] }
  have hbegin : m.operate ctx (.callothersubr, [0, 1]) = .ok begun :=
    operate_callOther (n := 1) h.empty h.limit [] (by decide +kernel) (by decide +kernel) (by simp)
  have hcaptured : [d₀, d₁, d₂, d₃, d₄, d₅, d₆].foldl noted begun = captured := by
    have hflex : begun.flex = some #[] := rfl
    rw [foldl_noted hflex (List.cons_ne_nil _ _)]
    show ({ begun.settled with
      position := (trail m.position _).getLastD m.position
      flex := some (#[] ++ trail m.position _) } : Machine Float) = _
    rw [htrail]
    rfl
  have hend : captured.operate ctx (.callothersubr, [depth, stop.x, stop.y, 3, 0]) = .ok drawn := by
    have hthree : Scalar.toInt32 (3 : Float) = 3 := by decide +kernel
    have hcall : captured.operate ctx (.callothersubr, [depth, stop.x, stop.y] ++ [3, 0]) =
        .ok (captured.afterOther 0 [depth, stop.x, stop.y]) :=
      operate_callOther (m := captured) h.empty h.limit _ hthree (by decide +kernel) (by simp)
    have hreference : [r] ≠ [] := List.cons_ne_nil _ _
    refine hcall.trans (congrArg Except.ok ?_)
    refine (endFlex_eq (m := captured) rfl hreference rfl).trans ?_
    simp only [drawn, captured, begun, drawFlex, settled, h.flex]
  rw [capturedFlex, List.cons_append]
  refine (operateAll_cons hbegin _).trans ?_
  rw [operateAll_flatMap_noteMove (m := begun) h.empty h.limit rfl, hcaptured]
  exact (operateAll_cons hend _).trans (operateAll_setResult (m := drawn) h.empty h.limit rfl)

/-- A flex operator draws the first of its curves with the pending mask, the second one without. -/
theorem operateAll_operatorFlex (h : m.Ready ctx) (d₁ d₂ d₃ d₄ d₅ d₆ : Point Float) (depth : Float)
    {c₁ c₂ p c₃ c₄ q : Point Float}
    (htrail : trail m.position [d₁, d₂, d₃, d₄, d₅, d₆] = [c₁, c₂, p, c₃, c₄, q]) :
    m.operateAll ctx (operatorFlex [d₁, d₂, d₃, d₄, d₅, d₆] depth) = .ok { m with
      builder := ((m.builder.curveTo c₁ c₂ p).mark m.pendingMask).curveTo c₃ c₄ q
      position := q
      pendingMask := none
      replacingHints := false } := by
  simp only [trail, List.cons.injEq, and_true] at htrail
  obtain ⟨rfl, rfl, rfl, rfl, rfl, rfl⟩ := htrail
  let steps : List (PathStep Float) :=
    [.curve d₁.x d₁.y d₂.x d₂.y d₃.x d₃.y, .curve d₄.x d₄.y d₅.x d₅.y d₆.x d₆.y]
  have hdraw : m.operate ctx (.path .flex, [d₁, d₂, d₃, d₄, d₅, d₆].flatMap
      (fun d => [d.x, d.y]) ++ [depth]) = .ok (steps.foldl draw m) := by
    rw [operate_eq h.empty h.limit _ (by simp)]
    show drawPath _ _ = _
    rw [drawPath, h.operands_load]
    show Except.ok (steps.foldl draw _).clear = _
    rw [← foldl_draw_clear]
    exact congrArg (Except.ok <| steps.foldl draw ·) (clear_of_empty h.empty)
  refine (operateAll_cons hdraw []).trans (congrArg Except.ok ?_)
  simp only [steps, List.foldl_cons, List.foldl_nil, draw_curve, mark_none]

theorem displaced_add {p d e : Point Float} (hp : p.AddsExactly) (hd : d.AddsExactly)
    (he : e.AddsExactly) :
    displaced p (d + e).x (d + e).y = displaced (displaced p d.x d.y) e.x e.y := by
  have hx := Double.add_add_snap hp.x hd.x he.x
  have hy := Double.add_add_snap hp.y hd.y he.y
  exact congrArg₂ Point.mk hx hy

/-- A captured flex comes to the same machine as a flex operator, but a pending mask is not given to
the same knot. Its code does so in Type 1. -/
theorem capturedFlex_moves_mask (h : m.Ready ctx) (hopen : m.builder.path.isSome = true)
    (hposition : m.position.AddsExactly) {d₀ d₁ : Point Float} (hd₀ : d₀.AddsExactly)
    (hd₁ : d₁.AddsExactly) (d₂ d₃ d₄ d₅ d₆ : Point Float) (depth depth' : Float)
    (stop : Point Float) :
    ∃ n e : Machine Float,
      m.operateAll ctx (operatorFlex [d₀ + d₁, d₂, d₃, d₄, d₅, d₆] depth) = .ok n ∧
      m.operateAll ctx (capturedFlex [d₀, d₁, d₂, d₃, d₄, d₅, d₆] depth' stop) = .ok e ∧
      e = { n.settled with builder := e.builder, results := [] } ∧
      n.pendingMask = none ∧
      n.builder.MovesMask e.builder m.builder.figure.knots.size m.pendingMask ∧
      (e.builder.figure = n.builder.figure ↔ m.pendingMask = none) ∧
      (ctx.version = .type1 → ∀ written, readBack ctx.version written =
          capturedFlex [d₀, d₁, d₂, d₃, d₄, d₅, d₆] depth' stop →
        ∀ levels tail, m.run ctx levels (code ctx.version written ++ tail) =
          e.run ctx levels tail) := by
  obtain ⟨⟨first, last⟩, hpath⟩ := Option.isSome_iff_exists.mp hopen
  have hadd := displaced_add hposition hd₀ hd₁
  -- Only the first control point is reached in another way; from there on the points are the same.
  have htrail : trail m.position [d₀ + d₁, d₂, d₃, d₄, d₅, d₆] =
      (trail m.position [d₀, d₁, d₂, d₃, d₄, d₅, d₆]).tail := by
    simp only [trail, hadd, List.tail_cons]
  have hmoves := Builder.movesMask_curves hpath m.pendingMask
  have hcaptured := operateAll_capturedFlex h d₀ d₁ d₂ d₃ d₄ d₅ d₆ depth' stop rfl
  refine ⟨_, _, operateAll_operatorFlex h _ d₂ d₃ d₄ d₅ d₆ depth htrail, hcaptured, rfl, rfl,
    hmoves .., (hmoves ..).figure_eq_iff, fun hversion written hwritten levels tail => ?_⟩
  rw [run_operateAll ctx levels (fun o ho => ?_), hwritten, hcaptured]
  · rfl
  · have hmem : o.1 ∈ (readBack ctx.version written).map Prod.fst := by
      rw [readBack, List.map_map]
      exact List.mem_map_of_mem ho
    rw [hwritten] at hmem
    rw [hversion]
    exact isKnownTo_capturedFlex _ _ _ _ hmem

/-- Within a contour, after stems that have been declared anew for the points to come. -/
def redeclared : Machine Float :=
  { Machine.start ({ version := .type1 } : Context Float) with
    builder := Builder.moveTo {} ⟨10, 20⟩
    position := ⟨10, 20⟩
    pendingMask := some (.ofBytes [0x80])
    replacingHints := true }

theorem capturedFlex_moves_mask_redeclared :
    redeclared.Ready { version := .type1 } ∧ redeclared.builder.path.isSome = true ∧
      ∃ n e : Machine Float,
        redeclared.operateAll { version := .type1 }
          (operatorFlex [⟨50, 0⟩ + ⟨-40, 0⟩, ⟨20, 2⟩, ⟨20, 3⟩, ⟨20, 0⟩, ⟨20, -3⟩, ⟨10, -2⟩] 50) =
            .ok n ∧
        redeclared.operateAll { version := .type1 }
          (capturedFlex [⟨50, 0⟩, ⟨-40, 0⟩, ⟨20, 2⟩, ⟨20, 3⟩, ⟨20, 0⟩, ⟨20, -3⟩, ⟨10, -2⟩] 50
            ⟨110, 20⟩) = .ok e ∧
        e = { n.settled with builder := e.builder, results := [] } ∧
        e.builder.figure ≠ n.builder.figure := by
  have hready : redeclared.Ready { version := .type1 } := ⟨rfl, rfl, .inr (by decide), rfl⟩
  have hwhole {a : Float} (n : ℤ) (ha : Float.ofInt n = a) (hn : |n| < 2 ^ 41) :
      Double.AddsExactly a := ha ▸ Double.addsExactly_ofInt hn
  have hzero := hwhole (a := 0) 0 (by decide +kernel) (by norm_num)
  have hposition : redeclared.position.AddsExactly :=
    ⟨hwhole 10 (by decide +kernel) (by norm_num), hwhole 20 (by decide +kernel) (by norm_num)⟩
  have hreference : (⟨50, 0⟩ : Point Float).AddsExactly :=
    ⟨hwhole 50 (by decide +kernel) (by norm_num), hzero⟩
  have hback : (⟨-40, 0⟩ : Point Float).AddsExactly :=
    ⟨hwhole (-40) (by decide +kernel) (by norm_num), hzero⟩
  obtain ⟨n, e, hn, he, heq, -, -, hiff, -⟩ := capturedFlex_moves_mask hready rfl hposition hreference
    hback ⟨20, 2⟩ ⟨20, 3⟩ ⟨20, 0⟩ ⟨20, -3⟩ ⟨10, -2⟩ 50 50 ⟨110, 20⟩
  exact ⟨hready, rfl, n, e, hn, he, heq, hiff.not.mpr (Option.some_ne_none _)⟩

end

end Machine

end Charstring

end Letterform
