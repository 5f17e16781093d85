import Letterform.Charstring.Context
import Letterform.Charstring.Instruction
import Letterform.Charstring.Run
import Letterform.Outline.Convert
import Letterform.Outline.EncodeError

/-!
# Writing charstrings

A glyph is turned into instructions and these into bytes. Type 2 and CFF2 share one layout: stems,
counter masks, contours in runs, and the end. Type 1 has metrics first, a stem operator for each
stem, one operator for each segment, and no masks.
-/

namespace Letterform.Charstring

variable {α : Type} [Scalar α]

def coordinateLimit : α := 32767

def coordinate (version : Version) (a : α) : Except (EncodeError α) α :=
  let rounded := if version = .type1 then Scalar.roundUp a else Scalar.snap a
  if coordinateLimit < Scalar.abs rounded then .error (.coordinateOverflow a) else .ok rounded

def roundedPoint (version : Version) (p : Point α) : Except (EncodeError α) (Point α) := do
  let x ← coordinate version p.x
  let y ← coordinate version p.y
  return ⟨x, y⟩

structure Accented (α : Type) where
  base : UInt8
  accent : UInt8
  dx : α
  dy : α

namespace Accented

/-- The accented character that a glyph consists of, if it has components. No other components
can be written. -/
def ofGlyph (g : Glyph α) : Except (EncodeError α) (Option (Accented α)) :=
  match g.components with
  | [] => .ok none
  | [{ target := .code base, transform := t, .. },
      { target := .code accent, transform := u, .. }] =>
    if t == Affine.identity && u.linear == Affine.identity && !g.hasContours then
      .ok (some { base, accent, dx := u.dx, dy := u.dy })
    else .error (.unresolvedReference base)
  | components =>
    match components.findSome? fun c => match c.target with
      | .code code => some code
      | .glyph _ => none with
    | some code => .error (.unresolvedReference code)
    | none => .error (.unflattenedReferences components.length)

def operands (a : Accented α) (version : Version) : Except (EncodeError α) (List α) := do
  let dx ← coordinate version a.dx
  let dy ← coordinate version a.dy
  return [dx, dy, Scalar.ofInt a.base.toNat, Scalar.ofInt a.accent.toNat]

end Accented

namespace Instruction

def move (p q : Point α) : Instruction α :=
  let d := q - p
  if d.y == 0 then .operation .hmoveto [d.x]
  else if d.x == 0 then .operation .vmoveto [d.y]
  else .operation .rmoveto [d.x, d.y]

def ofCommand (c : Command α) : Instruction α := .operation (.path c.op) c.operands

end Instruction

/-- The legs of a contour in rounded coordinates from a point on. The mask of the first knot comes
before the contour, so a leg that closes it brings none. -/
def legsFrom (version : Version) (start : Point α) :
    List (Stroke α) → Except (EncodeError α) (List (Leg α))
  | [] => .ok []
  | s :: rest => do
    let stop ← roundedPoint version s.stop.anchor
    let controls ←
      if s.isLine then pure none
      else do
        let c1 ← roundedPoint version s.start.leaving
        let c2 ← roundedPoint version s.stop.arriving
        pure (some (c1, c2))
    let legs ← legsFrom version stop rest
    return { start, controls, stop, mask := if s.isClosing then none else s.stop.mask } :: legs

structure Trace (α : Type) where
  start : Point α
  mask : Option HintMask
  legs : List (Leg α)

namespace Trace

def ofContour (version : Version) (f : Figure α) (c : Contour) :
    Except (EncodeError α) (Trace α) := do
  let first := f.knot c.first
  let start ← roundedPoint version first.anchor
  let legs ← legsFrom version start (f.strokes c)
  return { start, mask := first.mask, legs }

def stop (t : Trace α) : Point α :=
  match t.legs.getLast? with
  | some leg => leg.stop
  | none => t.start

end Trace

def traces (version : Version) (g : Glyph α) : Except (EncodeError α) (List (Trace α)) :=
  g.contours.mapM fun (f, c) => Trace.ofContour version f c

/-- The operands that declare some stems: each start relative to the end of the stem before. -/
def stemOperands (version : Version) (origin : α) (edge : α) :
    List (Stem α) → Except (EncodeError α) (List α)
  | [] => .ok []
  | stem :: rest => do
    let start ← coordinate version (stem.start - origin)
    let width ← coordinate version stem.width
    let operands ← stemOperands version origin (start + width) rest
    return (start - edge) :: width :: operands

/-! ## Type 2 and CFF2 -/

def pieces {β : Type} (size : Nat) (xs : List β) : List (List β) :=
  (List.range ((xs.length + size - 1) / size)).map fun i => (xs.drop (i * size)).take size

/-- Declares the stems of an axis with as many operators as the stack calls for. There is always
room for the width. -/
def declareStems (version : Version) (axis : Axis) (masked : Bool) (stems : List (Stem α)) :
    Except (EncodeError α) (List (Instruction α)) :=
  (pieces ((version.stackLimit - 1) / 2) stems).mapM fun stems => do
    return .operation (.stems axis masked) (← stemOperands version 0 0 stems)

/-- A mask in which stems stand by their order of declaration. -/
def maskInstruction (isCounter : Bool) (declared : List Nat) (mask : HintMask) : Instruction α :=
  .mask isCounter (mask.renumber declared.idxOf?) declared.length

/-- Writes legs in runs. A leg with a mask begins a run, after its mask. No run is longer than the
stack is deep, so it is chosen without a look at the legs beyond. -/
def runs (options : EncodeOptions α) (limit : Nat) (declared : Option (List Nat))
    (legs : List (Leg α)) : List (Instruction α) :=
  match legs with
  | [] => []
  | leg :: rest =>
    let mask :=
      match declared, leg.mask with
      | some declared, some mask => [maskInstruction false declared mask]
      | _, _ => []
    let window := leg :: (rest.take limit).takeWhile fun l => declared.isNone || l.mask.isNone
    let command := (Command.choose options limit window).getD (.ofStep leg.step)
    mask ++ .ofCommand command :: runs options limit declared (rest.drop (command.count - 1))
termination_by legs.length
decreasing_by simp only [List.length_cons, List.length_drop]; omega

def contours (options : EncodeOptions α) (limit : Nat) (declared : Option (List Nat))
    (position : Point α) : List (Trace α) → List (Instruction α)
  | [] => []
  | t :: rest =>
    let mask :=
      match declared, t.mask with
      | some declared, some mask => [maskInstruction false declared mask]
      | _, _ => []
    mask ++ .move position t.start :: runs options limit declared t.legs ++
      contours options limit declared t.stop rest

def hasMasks (g : Glyph α) : Bool :=
  !g.counterMasks.isEmpty || g.figures.any fun f => f.knots.any (·.mask.isSome)

def instructions (g : Glyph α) (accented : Option (Accented α)) (version : Version)
    (options : EncodeOptions α) : Except (EncodeError α) (List (Instruction α)) := do
  let horizontal := g.hints.declared .horizontal
  let vertical := g.hints.declared .vertical
  let numbers := (horizontal ++ vertical).map (·.number)
  let declared := if hasMasks g && !numbers.isEmpty then some numbers else none
  let hstems ← declareStems version .horizontal declared.isSome horizontal
  let vstems ← declareStems version .vertical declared.isSome vertical
  let counters :=
    match declared with
    | some numbers => g.counterMasks.map (maskInstruction true numbers)
    | none => []
  let paths := contours options version.stackLimit declared default (← traces version g)
  let ending ←
    match accented with
    | some accented => do pure [.operation .endchar (← accented.operands version)]
    | none => pure (if version = .type2 then [.operation .endchar []] else [])
  return hstems ++ vstems ++ counters ++ paths ++ ending

/-! ## Type 1 -/

def declareEach (axis : Axis) (origin : α) (stems : List (Stem α)) :
    Except (EncodeError α) (List (Instruction α)) :=
  stems.mapM fun stem => do
    return .operation (.stems axis false) (← stemOperands .type1 origin 0 [stem])

def plainContours (position : Point α) : List (Trace α) → List (Instruction α)
  | [] => []
  | t :: rest =>
    .move position t.start :: t.legs.map (fun leg => .ofCommand (.ofStep leg.step)) ++
      .operation .closepath [] :: plainContours t.stop rest

def plainInstructions (g : Glyph α) (accented : Option (Accented α)) :
    Except (EncodeError α) (List (Instruction α)) := do
  let bearing ← coordinate .type1 g.bearing
  let width ← coordinate .type1 g.advanceWidth
  let hstems ← declareEach .horizontal 0 (g.hints.declared .horizontal)
  let vstems ← declareEach .vertical bearing (g.hints.declared .vertical)
  let start := .operation .hsbw [bearing, width] :: hstems ++ vstems
  match accented with
  | some accented => do
    return start ++ [.operation .seac (bearing :: (← accented.operands .type1))]
  | none => do
    let paths := plainContours ⟨bearing, 0⟩ (← traces .type1 g)
    return start ++ paths ++ [.operation .endchar []]

/-! ## Any dialect -/

/-- The instructions of a glyph in the dialect of the context. The width of Type 2 is given
relative to the nominal width, and left out if it is the default one. -/
def instructionsFor (ctx : Context α) (options : EncodeOptions α) (g : Glyph α)
    (accented : Option (Accented α)) : Except (EncodeError α) (List (Instruction α)) := do
  match ctx.version with
  | .type1 => plainInstructions g accented
  | .cff2 => instructions g accented .cff2 options
  | .type2 => do
    let program ← instructions g accented .type2 options
    if g.advanceWidth == ctx.privateDict.defaultWidthX then return program
    else return Instruction.insertWidth (g.advanceWidth - ctx.privateDict.nominalWidthX) program

/-- Encodes a glyph as a charstring; one of Type 1 is not encrypted. Quadratic curves are written
as cubic ones. -/
def encode (ctx : Context α) (options : EncodeOptions α) (g : Glyph α) :
    Except (EncodeError α) (List UInt8) := do
  let g := if g.hasCurves .quadratic then g.convert .postscript defaultAccuracy else g
  let program ← instructionsFor ctx options g (← Accented.ofGlyph g)
  return program.flatMap (·.toBytes ctx.version)

end Letterform.Charstring
