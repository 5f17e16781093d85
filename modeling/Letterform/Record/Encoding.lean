import Letterform.Component.Placement
import Letterform.Outline.Convert
import Letterform.Record.ComponentLayout
import Letterform.Record.Maxima
import Letterform.Record.Simple

/-!
# Writing glyph records

A glyph without components becomes a simple record, one that consists of components a composite
one. A record cannot hold both, so a glyph that has both is flattened. Every record that is
written also yields the statistics of its glyph.
-/

namespace Letterform.Record

variable {α : Type} [Scalar α]

structure Written where
  bytes : List UInt8
  statistics : Maxima
  deriving DecidableEq, Repr

def quadratic (g : Glyph α) (accuracy : α) : Glyph α :=
  if g.hasCurves .cubic then g.convert .truetype accuracy else g

/-- A glyph without points has no record. -/
def writeSimple (accuracy : α) (g : Glyph α) : Except (EncodeError α) Written := do
  match ← SimpleRecord.ofGlyph (quadratic g accuracy) with
  | none => return { bytes := [], statistics := {} }
  | some record =>
    return {
      bytes := record.toBytes
      statistics :=
        { points := Maxima.saturate record.points.length
          contours := Maxima.saturate record.ends.length
          sizeOfInstructions := Maxima.saturate record.instructions.length } }

/-- The number of levels of components below a glyph, which may not be more than given. -/
def depth (source : GlyphSource α) : (levels : Nat) → Glyph α → Except (EncodeError α) Nat
  | 0, g =>
    match g.components with
    | [] => .ok 0
    | c :: _ => do throw (.reference (.recursionLimitExceeded (← c.writtenId)))
  | levels + 1, g => do
    if g.components.isEmpty then return 0
    let depths ← g.components.mapM fun c => do
      let id ← c.writtenId
      match source id with
      | none => throw (.reference (.glyphNotFound id))
      | some child => depth source levels child
    return depths.foldl max 0 + 1

/-- Writes components one after another; the flags of each say whether another one follows, and
those of the last one whether there are instructions. -/
def writeComponents (instructions : List UInt8) :
    List (Component α) → Except (EncodeError α) (List UInt8)
  | [] => .ok []
  | [c] => c.toBytes (LayoutFlags.instructions.when !instructions.isEmpty)
  | c :: rest => do
    let bytes ← c.toBytes .moreComponents
    return bytes ++ (← writeComponents instructions rest)

def boundBytes (a : α) : Except (EncodeError α) (List UInt8) :=
  let n := Scalar.toInt32 (Scalar.roundUp a)
  if SimpleRecord.isWord n then .ok (BigEndian.encode 2 n) else .error (.coordinateOverflow a)

def writeComposite (accuracy : α) (id : GlyphId) (g : Glyph α) (source : GlyphSource α) :
    Except (EncodeError α) Written := do
  let length := g.instructions.length
  if 0xffff < length then throw (.instructionsTooLong length)
  let flat ← (g.flatten id source).mapError .reference
  let flat := (quadratic flat accuracy).withBounds
  let components ← writeComponents g.instructions g.components
  let b := flat.bounds
  let bounds ← [b.x0, b.y0, b.x1, b.y1].mapM boundBytes
  let instructions :=
    if g.instructions.isEmpty then [] else BigEndian.encode 2 length ++ g.instructions
  let bytes := padded (BigEndian.encode 2 (-1) ++ bounds.flatten ++ components ++ instructions)
  let depth ← depth source Component.nestingLimit g
  return {
    bytes
    statistics :=
      { compositePoints := Maxima.saturate flat.numberedPoints.length
        compositeContours := Maxima.saturate flat.contourCount
        componentElements := Maxima.saturate g.components.length
        componentDepth := depth
        sizeOfInstructions := Maxima.saturate length } }

def write (accuracy : α) (id : GlyphId) (g : Glyph α) (source : GlyphSource α) :
    Except (EncodeError α) Written := do
  if g.components.isEmpty then writeSimple accuracy g
  else
    for c in g.components do
      discard c.writtenId
    if g.isMixed then
      writeSimple accuracy (← (g.flatten id source).mapError .reference)
    else writeComposite accuracy id g source

structure Encoder (α : Type) where
  accuracy : α
  maxima : Maxima := {}

namespace Encoder

def new : Encoder α := { accuracy := defaultAccuracy }

/-- Encodes a glyph. Only records that are written count. -/
def encode (e : Encoder α) (id : GlyphId) (g : Glyph α) (source : GlyphSource α) :
    Except (EncodeError α) (List UInt8) × Encoder α :=
  match write e.accuracy id g source with
  | .ok written =>
    (.ok written.bytes, { e with maxima := e.maxima.merge written.statistics })
  | .error error => (.error error, e)

end Encoder

end Letterform.Record
