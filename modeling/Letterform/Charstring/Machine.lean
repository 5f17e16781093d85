import Letterform.Charstring.Arithmetic
import Letterform.Charstring.Context
import Letterform.Charstring.Path
import Letterform.Outline.Builder
import Letterform.Outline.Glyph

/-!
# The charstring machine

The machine holds everything that a charstring builds up while it is evaluated. An operator takes
one machine to the next, or halts with an error and the machine as it stands then. The operands
of a path operator are turned into its whole run before any of it is drawn, so an operator that
lacks operands draws nothing.
-/

namespace Letterform.Charstring

variable {α : Type} [Scalar α]

structure Machine (α : Type) where
  calculator : Calculator α
  builder : Builder α := {}
  glyph : Glyph α
  diagnostics : Array Error := #[]
  position : Point α
  widthTaken : Bool := false
  /-- The numbers of the stems in the order in which the charstring declared them. -/
  declared : Array Nat := #[]
  pendingMask : Option HintMask := none
  /-- Whether the stems being declared make up the pending mask. -/
  replacingHints : Bool := false
  /-- The scalars of the set of variation data in use, once one has been chosen. -/
  scalars : Option (List α) := none
  origin : Point α
  flex : Option (Array (Point α)) := none
  /-- What the last other subroutine returned, the value that is popped first in front. -/
  results : List α := []

structure Halt (α : Type) where
  machine : Machine α
  error : Error

abbrev Outcome (α β : Type) := Except (Halt α) β

namespace Machine

def start (ctx : Context α) : Machine α where
  calculator := .start ctx.version.stackLimit
  glyph :=
    { Glyph.empty .postscript with
      advanceWidth := if ctx.version = .type2 then ctx.privateDict.defaultWidthX else 0 }
  position := default
  origin := default

def stack (m : Machine α) : Stack α := m.calculator.stack

def withStack (m : Machine α) (stack : Stack α) : Machine α :=
  { m with calculator := { m.calculator with stack } }

def clear (m : Machine α) : Machine α := m.withStack m.stack.clear

def operands (m : Machine α) : List α := m.stack.operands

def report (m : Machine α) (e : Error) : Machine α :=
  { m with diagnostics := m.diagnostics.push e }

def halt {β : Type} (m : Machine α) (e : Error) : Outcome α β := .error ⟨m, e⟩

def attempt {β : Type} (m : Machine α) (result : Except Error β) : Outcome α β :=
  result.mapError (⟨m, ·⟩)

def push (m : Machine α) (a : α) : Outcome α (Machine α) := do
  return m.withStack (← m.attempt (m.stack.push a))

def popInt (m : Machine α) : Outcome α (Int × Machine α) := do
  let (n, stack) ← m.attempt m.stack.popInt
  return (n, m.withStack stack)

/-! ## Width and hints -/

/-- Takes the width off the bottom of the stack if the first operator that clears the stack has
an operand too many. Only Type 2 gives widths in this way. -/
def takeWidth (m : Machine α) (ctx : Context α) (present : Bool) : Machine α :=
  if m.widthTaken then m
  else
    let m := { m with widthTaken := true }
    match m.stack.values.getLast? with
    | some width =>
      if ctx.version = .type2 ∧ present then
        let m := m.withStack { m.stack with values := m.stack.values.dropLast }
        { m with glyph := { m.glyph with advanceWidth := ctx.privateDict.nominalWidthX + width } }
      else m
    | none => m

def hintCount (m : Machine α) (ctx : Context α) : Nat := ctx.hintCount + m.declared.size

def addStem (m : Machine α) (axis : Axis) (start width : α) : Outcome α (Machine α) :=
  let offset := match axis with
    | .horizontal => m.origin.y
    | .vertical => m.origin.x
  match m.glyph.hints.add axis (Scalar.snap start + offset) (Scalar.snap width) with
  | none => m.halt .tooManyHints
  | some (number, hints) =>
    .ok { m with
      glyph := { m.glyph with hints }
      declared := m.declared.push number
      pendingMask :=
        if m.replacingHints then m.pendingMask.map (·.insert number) else m.pendingMask }

def addStems (m : Machine α) (axis : Axis) (stems : List (α × α)) : Outcome α (Machine α) :=
  stems.foldlM (fun m (start, width) => m.addStem axis start width) m

/-- The stems of a stem operator. Each start is given relative to the end of the stem before. -/
def stemsFrom (edge : α) : List α → List (α × α)
  | delta :: width :: rest =>
    let start := edge + delta
    (start, width) :: stemsFrom (start + width) rest
  | _ => []

def threeStems : List α → List (α × α)
  | a :: b :: c :: d :: e :: f :: _ => [(a, b), (c, d), (e, f)]
  | _ => []

/-- Evaluates a stem operator as far as the stack is left as it is. -/
def declareStems (m : Machine α) (ctx : Context α) (axis : Axis) : Outcome α (Machine α) :=
  let m := m.takeWidth ctx (m.stack.size % 2 == 1)
  match stemsFrom 0 m.operands with
  | [] => m.halt .stackUnderflow
  | stems => m.addStems axis stems

/-- Evaluates a mask operator up to its mask: operands on the stack are vertical stems. -/
def prepareMask (m : Machine α) (ctx : Context α) : Outcome α (Machine α) := do
  let m ← if m.stack.values.isEmpty then .ok m else m.declareStems ctx .vertical
  return (m.takeWidth ctx false).clear

/-- Keeps a mask, in which stems are given by their order of declaration. Those declared before
the charstring have no number here. -/
def addMask (m : Machine α) (ctx : Context α) (isCounter : Bool) (bytes : List UInt8) :
    Machine α :=
  let mask := (HintMask.ofBytes bytes).renumber fun bit =>
    if bit < ctx.hintCount then none else m.declared[bit - ctx.hintCount]?
  if isCounter then
    { m with glyph := { m.glyph with counterMasks := m.glyph.counterMasks ++ [mask] } }
  else { m with pendingMask := some mask }

/-! ## Drawing -/

def attachMask (m : Machine α) : Machine α :=
  match m.pendingMask with
  | some mask =>
    { m with
      builder := m.builder.modifyCurrent ({ · with mask := some mask })
      pendingMask := none
      replacingHints := false }
  | none => { m with replacingHints := false }

def displaced (p : Point α) (dx dy : α) : Point α := ⟨p.x + Scalar.snap dx, p.y + Scalar.snap dy⟩

/-- Moves the current point. Within a flex this only notes the point. -/
def moveTo (m : Machine α) (dx dy : α) : Machine α :=
  let p := displaced m.position dx dy
  match m.flex with
  | some points => { m with position := p, flex := some (points.push p) }
  | none => { m with position := p, builder := m.builder.moveTo p }.attachMask

def draw (m : Machine α) : PathStep α → Machine α
  | .line dx dy =>
    let p := displaced m.position dx dy
    { m with position := p, builder := m.builder.lineTo p }.attachMask
  | .curve dx1 dy1 dx2 dy2 dx3 dy3 =>
    let c1 := displaced m.position dx1 dy1
    let c2 := displaced c1 dx2 dy2
    let p := displaced c2 dx3 dy3
    { m with position := p, builder := m.builder.curveTo c1 c2 p }.attachMask

def drawPath (m : Machine α) (op : PathOperator) : Outcome α (Machine α) :=
  match op.steps m.operands with
  | [] => m.halt .stackUnderflow
  | steps => .ok (steps.foldl draw m).clear

/-! ## Metrics and accented characters -/

def setBearing (m : Machine α) (origin : Point α) (width : α) : Machine α :=
  { m with
    origin
    position := origin
    glyph := { m.glyph with bearing := origin.x, advanceWidth := width } }

/-- Takes an operand for a character code; one out of range is reported and read as 0. -/
def characterCode (m : Machine α) (a : α) : UInt8 × Machine α :=
  let n := Scalar.toInt32 a
  if 0 ≤ n ∧ n ≤ 255 then (UInt8.ofNat n.toNat, m) else (0, m.report (.invalidSeacCode n))

def addAccented (m : Machine α) (base accent dx dy : α) : Machine α :=
  let (base, m) := m.characterCode base
  let (accent, m) := m.characterCode accent
  { m with
    glyph := { m.glyph with
      components := m.glyph.components ++ [.ofCode base 0 0, .ofCode accent dx dy] } }

/-- Ends the charstring. In Type 2 an accented character may be given here. -/
def endCharacter (m : Machine α) (ctx : Context α) : Machine α :=
  if ctx.version = .type2 then
    let m := m.takeWidth ctx (m.stack.size == 5 || m.stack.size == 1)
    match m.operands with
    | [dx, dy, base, accent] => (m.addAccented base accent dx dy).clear
    | _ => m.clear
  else m.clear

/-! ## Other subroutines and variation -/

/-- Ends a flex: the last six of at least seven points are two curves. The point where it ends
is returned. -/
def endFlex (m : Machine α) : Machine α :=
  let points := (m.flex.getD #[]).toList
  let m := { m with flex := none }
  let m :=
    match points.drop (points.length - 6) with
    | [c1, c2, p, c3, c4, q] =>
      if points.length < 7 then m
      else
        { m with
          position := q
          builder := (m.builder.curveTo c1 c2 p).curveTo c3 c4 q }.attachMask
    | _ => m
  { m with results := [m.position.x, m.position.y] }

/-- Calls another subroutine. The first four have a meaning for flexes and hint replacement;
all others give back their operands. -/
def callOther (m : Machine α) : Outcome α (Machine α) := do
  let (number, m) ← m.popInt
  let (count, m) ← m.popInt
  let (operands, stack) ← m.attempt (m.stack.popMany count)
  let m := { m.withStack stack with results := [] }
  return match number with
    | 0 => m.endFlex
    | 1 => { m with flex := some #[] }
    | 2 => m
    | 3 => { m with pendingMask := some .empty, replacingHints := true, results := operands }
    | _ => { m with results := operands }

def popResult (m : Machine α) : Outcome α (Machine α) :=
  match m.results with
  | a :: rest => { m with results := rest }.push a
  | [] => m.halt .stackUnderflow

def chooseVariation (m : Machine α) (ctx : Context α) (store : VariationStore α) (index : Nat) :
    Outcome α (Machine α) :=
  match store.scalars? ctx.location index with
  | some scalars => .ok { m with scalars := some scalars }
  | none => m.halt (.invalidVariationStoreIndex index)

def setVariation (m : Machine α) (ctx : Context α) : Outcome α (Machine α) := do
  let (index, m) ← m.popInt
  match ctx.store with
  | none => m.halt .missingBlendState
  | some store =>
    if 0 ≤ index ∧ index ≤ 0xffff then
      return (← m.chooseVariation ctx store index.toNat).clear
    else m.halt (.invalidVariationStoreIndex 0xffff)

/-- Blends with the set of variation data in use, at first the one that the font names. -/
def blend (m : Machine α) (ctx : Context α) : Outcome α (Machine α) := do
  let m ←
    match m.scalars, ctx.store with
    | some _, _ => .ok m
    | none, none => m.halt .missingBlendState
    | none, some store => m.chooseVariation ctx store ctx.privateDict.variationStoreIndex
  return m.withStack (← m.attempt (m.stack.blend (m.scalars.getD [])))

/-! ## Operators -/

/-- Evaluates an operator that has an effect of its own. Calls and returns, masks and the end of
the charstring are left to the evaluation of the code around them. -/
def evaluate (m : Machine α) (ctx : Context α) : Operator → Outcome α (Machine α)
  | .path op => m.drawPath op
  | .arithmetic op => do
    let calculator ← m.attempt (m.calculator.evaluate op)
    return { m with calculator }
  | .stems axis _ => do return (← m.declareStems ctx axis).clear
  | .threeStems axis => do
    match threeStems m.operands with
    | [] => m.halt .stackUnderflow
    | stems => return (← m.addStems axis stems).clear
  | .rmoveto =>
    let m := m.takeWidth ctx (2 < m.stack.size)
    match m.operands with
    | dx :: dy :: _ => .ok (m.moveTo dx dy).clear
    | _ => m.halt .stackUnderflow
  | .hmoveto =>
    let m := m.takeWidth ctx (1 < m.stack.size)
    match m.operands with
    | dx :: _ => .ok (m.moveTo dx 0).clear
    | _ => m.halt .stackUnderflow
  | .vmoveto =>
    let m := m.takeWidth ctx (1 < m.stack.size)
    match m.operands with
    | dy :: _ => .ok (m.moveTo 0 dy).clear
    | _ => m.halt .stackUnderflow
  | .closepath => .ok { m with builder := m.builder.close }.clear
  | .hsbw =>
    match m.operands with
    | x :: width :: _ => .ok (m.setBearing ⟨x, 0⟩ width).clear
    | _ => m.halt .stackUnderflow
  | .sbw =>
    match m.operands with
    | x :: y :: width :: _ :: _ => .ok (m.setBearing ⟨x, y⟩ width).clear
    | _ => m.halt .stackUnderflow
  | .seac =>
    match m.operands with
    | bearing :: dx :: dy :: base :: accent :: _ =>
      .ok (m.addAccented base accent (dx + m.origin.x - bearing) dy).clear
    | _ => m.halt .stackUnderflow
  | .setcurrentpoint =>
    match m.operands with
    | x :: y :: _ => .ok { m with position := ⟨x, y⟩ }.clear
    | _ => m.halt .stackUnderflow
  | .callothersubr => m.callOther
  | .pop => m.popResult
  | .vsindex => m.setVariation ctx
  | .blend => m.blend ctx
  | .dotsection => .ok m.clear
  | .call _ | .ret | .endchar | .mask _ => .ok m

end Machine

end Letterform.Charstring
