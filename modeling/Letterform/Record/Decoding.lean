import Letterform.Outline.Builder
import Letterform.Outline.Decoded
import Letterform.Record.ComponentLayout

/-!
# Reading glyph records

A record starts with the number of its contours, negative for a composite one, and its bounds.
Whatever was read before a record turns out to be cut short stays in the glyph.
-/

namespace Letterform.Record

variable {α : Type} [Scalar α]

inductive Error
  | outOfBounds
  | contourOrder (contour : Nat)
  | repeatCountTooLarge
  deriving DecidableEq, Repr

def Error.message : Error → String
  | outOfBounds => "glyph record is truncated"
  | contourOrder contour =>
    s!"contour end point at index {contour} was less than preceding end point"
  | repeatCountTooLarge => "repeat count too large in glyph flags"

/-! ## Parts of a record -/

def take? (count : Nat) (bytes : List UInt8) : Option (List UInt8 × List UInt8) :=
  let field := bytes.take count
  if field.length < count then none else some (field, bytes.drop count)

def readUnsigned? (bytes : List UInt8) : Option (Nat × List UInt8) := do
  let (field, rest) ← take? 2 bytes
  return (BigEndian.unsigned field, rest)

def readSigned? (bytes : List UInt8) : Option (Int × List UInt8) := do
  let (field, rest) ← take? 2 bytes
  return (BigEndian.signed field, rest)

def readHeader? (bytes : List UInt8) : Option (Int × Glyph α × List UInt8) := do
  let (contours, rest) ← readSigned? bytes
  let (left, rest) ← readSigned? rest
  let (lower, rest) ← readSigned? rest
  let (right, rest) ← readSigned? rest
  let (upper, rest) ← readSigned? rest
  let bounds : Rect α :=
    ⟨Scalar.ofInt left, Scalar.ofInt lower, Scalar.ofInt right, Scalar.ofInt upper⟩
  return (contours, { Glyph.empty .truetype with bounds, bearing := bounds.x0 }, rest)

def readInstructions? (bytes : List UInt8) : Option (List UInt8 × List UInt8) := do
  let (length, rest) ← readUnsigned? bytes
  take? length rest

/-- The numbers of the last points of contours, from contour `i` on, none of which may be below
the one before. -/
def readEnds (previous : Nat) (i : Nat) :
    (count : Nat) → List UInt8 → Except Error (List Nat × List UInt8)
  | 0, bytes => .ok ([], bytes)
  | count + 1, bytes =>
    match readUnsigned? bytes with
    | none => .error .outOfBounds
    | some (last, rest) => do
      if last < previous then throw (.contourOrder i)
      let (ends, rest) ← readEnds last (i + 1) count rest
      return (last :: ends, rest)

/-- The flags of a number of points. Also tells whether a repeat count went too far. -/
def readFlags? (count : Nat) (bytes : List UInt8) :
    Option (List PointFlags × Bool × List UInt8) :=
  match count, bytes with
  | 0, _ => some ([], false, bytes)
  | _ + 1, [] => none
  | count + 1, b :: bytes =>
    let flag : PointFlags := .ofWord b.toNat
    if flag.contains PointFlags.repeated then
      match bytes with
      | [] => none
      | n :: rest =>
        if count < n.toNat then some (List.replicate (count + 1) flag, true, rest)
        else do
          let (flags, excess, rest) ← readFlags? (count - n.toNat) rest
          return (List.replicate (n.toNat + 1) flag ++ flags, excess, rest)
    else do
      let (flags, excess, rest) ← readFlags? count bytes
      return (flag :: flags, excess, rest)
termination_by count
decreasing_by all_goals omega

def readCoordinates? (short same : PointFlags) (value : Int) :
    List PointFlags → List UInt8 → Option (List Int × List UInt8)
  | [], bytes => some ([], bytes)
  | flag :: flags, bytes => do
    let (step, rest) ←
      if flag.contains short then
        match bytes with
        | [] => none
        | b :: rest =>
          some (if flag.contains same then (b.toNat : Int) else -(b.toNat : Int), rest)
      else if flag.contains same then some (0, bytes)
      else readSigned? bytes
    let value := value + step
    let (values, rest) ← readCoordinates? short same value flags rest
    return (value :: values, rest)

/-! ## Contours -/

/-- Draws to the points of a contour. Between two control points lies an implied knot. -/
def drawPoints (b : Builder α) (control : Option (OutlinePoint α)) :
    List (OutlinePoint α) → Builder α
  | [] => b
  | p :: rest =>
    let arrive (b : Builder α) (number : Option Nat) := b.modifyCurrent ({ · with number })
    match control with
    | none =>
      if p.onCurve then drawPoints (arrive (b.lineTo p.position) p.number) none rest
      else drawPoints b (some p) rest
    | some c =>
      let b := b.modifyCurrent ({ · with controlNumber := c.number })
      if p.onCurve then drawPoints (arrive (b.quadTo c.position p.position) p.number) none rest
      else
        let middle := c.position.midpoint p.position
        drawPoints (arrive (b.quadTo c.position middle) none) (some p) rest

/-- A contour's points from a knot on: the first that is on the curve, or a point halfway between
the last control point and the first if there is none. -/
def fromKnot (points : List (OutlinePoint α)) : List (OutlinePoint α) :=
  if points.any (·.onCurve) then points.rotateLeft (points.findIdx (·.onCurve))
  else
    match points.getLast?, points.head? with
    | some last, some first =>
      { position := last.position.midpoint first.position, onCurve := true } :: points
    | _, _ => points

/-- Draws a contour. One of a single point is that point, whether it is on the curve or not. -/
def drawContour (b : Builder α) (points : List (OutlinePoint α)) : Builder α :=
  let start (p : OutlinePoint α) :=
    (b.moveTo p.position).modifyCurrent ({ · with number := p.number })
  match points with
  | [p] => (start p).close
  | points =>
    match fromKnot points with
    | [] => b
    | p :: rest => (drawPoints (start p) none (rest ++ [{ p with number := none }])).close

/-- Cuts points into contours, given the numbers of their last points. A number that is repeated
stands for a contour without points. -/
def cutContours (points : List (OutlinePoint α)) (start : Nat) :
    List Nat → List (List (OutlinePoint α))
  | [] => []
  | last :: ends =>
    let count := last + 1 - start
    points.take count :: cutContours (points.drop count) (last + 1) ends

def figure (flags : List PointFlags) (xs ys : List Int) (ends : List Nat) : Figure α :=
  let points := (flags.zip (xs.zip ys)).zipIdx.map fun ((flag, x, y), i) =>
    { position := ⟨Scalar.ofInt x, Scalar.ofInt y⟩
      onCurve := flag.contains PointFlags.onCurve
      number := some i : OutlinePoint α }
  ((cutContours points 0 ends).foldl drawContour { order := .quadratic }).finish

/-! ## Whole records -/

def decodeSimple (g : Glyph α) (contours : Nat) (bytes : List UInt8) : Decoded Error α :=
  match readEnds 0 0 contours bytes with
  | .error e => ⟨g, [e]⟩
  | .ok (ends, bytes) =>
    match readInstructions? bytes with
    | none => ⟨g, [.outOfBounds]⟩
    | some (instructions, bytes) =>
      let g := { g with instructions }
      let count := match ends.getLast? with
        | some last => last + 1
        | none => 0
      match readFlags? count bytes with
      | none => ⟨g, [.outOfBounds]⟩
      | some (flags, excess, bytes) =>
        let overlaps := match flags with
          | flag :: _ => flag.contains PointFlags.overlap
          | [] => false
        let g := { g with overlaps }
        let warnings := if excess then [Error.repeatCountTooLarge] else []
        let coordinates := do
          let (xs, bytes) ← readCoordinates? .xShort .xSame 0 flags bytes
          let (ys, _) ← readCoordinates? .yShort .ySame 0 flags bytes
          return (xs, ys)
        match coordinates with
        | none => ⟨g, warnings ++ [.outOfBounds]⟩
        | some (xs, ys) =>
          let figure : Figure α := figure flags xs ys ends
          ⟨{ g with figures := if figure.isEmpty then [] else [figure] }, warnings⟩

/-- Reads components up to the last one. Returns those that are complete, the flags of the last
one, and what follows it; nothing follows if the record is cut short. -/
def readComponents : List UInt8 → List (Component α) × Option (LayoutFlags × List UInt8)
  | f1 :: f2 :: g1 :: g2 :: bytes =>
    let flags : LayoutFlags := .ofWord (BigEndian.unsigned [f1, f2])
    let id := UInt16.ofNat (BigEndian.unsigned [g1, g2])
    let arguments := flags.argumentLength
    let length := arguments + flags.entryLength
    let layout := bytes.take length
    if layout.length < length then ([], none)
    else
      let c : Component α := .ofLayout flags id (layout.take arguments) (layout.drop arguments)
      let rest := bytes.drop length
      if flags.contains LayoutFlags.moreComponents then
        let (components, following) := readComponents rest
        (c :: components, following)
      else ([c], some (flags, rest))
  | _ => ([], none)
termination_by bytes => bytes.length
decreasing_by simp only [List.length_cons, List.length_drop]; omega

def decodeComposite (g : Glyph α) (bytes : List UInt8) : Decoded Error α :=
  let (components, following) := readComponents bytes
  let g := { g with components }
  match following with
  | none => ⟨g, [.outOfBounds]⟩
  | some (flags, rest) =>
    if flags.contains LayoutFlags.instructions then
      match readInstructions? rest with
      | some (instructions, _) => ⟨{ g with instructions }, []⟩
      | none => ⟨g, [.outOfBounds]⟩
    else ⟨g, []⟩

/-- Decodes a record; one without bytes is an empty glyph. Components that are placed by points
stay where they are until the glyphs that they refer to are at hand. -/
def decode (bytes : List UInt8) : Decoded Error α :=
  if bytes.isEmpty then ⟨Glyph.empty .truetype, []⟩
  else
    match readHeader? bytes with
    | none => ⟨Glyph.empty .truetype, [.outOfBounds]⟩
    | some (contours, g, rest) =>
      if 0 ≤ contours then decodeSimple g contours.toNat rest else decodeComposite g rest

end Letterform.Record
