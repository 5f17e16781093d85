import Letterform.Number.BigEndian
import Letterform.Outline.EncodeError
import Letterform.Outline.Glyph
import Letterform.Record.Flags

/-!
# Simple records

A simple record lists the points of a glyph contour by contour. Points are given by their steps
from the point before; small steps take one byte, and steps of zero none at all. Flags say which
form each step has, and equal flags in a row are written once with a count.
-/

namespace Letterform

variable {α : Type} [Scalar α]

structure RecordPoint where
  x : Int
  y : Int
  dx : Int
  dy : Int
  onCurve : Bool
  deriving DecidableEq, Repr

structure SimpleRecord where
  points : List RecordPoint
  ends : List Nat
  instructions : List UInt8
  overlaps : Bool
  deriving DecidableEq, Repr

def padded (bytes : List UInt8) : List UInt8 :=
  if bytes.length % 2 = 0 then bytes else bytes ++ [0]

namespace RecordPoint

def stepFlags (short same : PointFlags) (d : Int) : PointFlags :=
  if d = 0 then same
  else if -255 ≤ d ∧ d < 0 then short
  else if 0 < d ∧ d ≤ 255 then short ||| same
  else .empty

def stepBytes (d : Int) : List UInt8 :=
  if d = 0 then [] else if -255 ≤ d ∧ d ≤ 255 then [UInt8.ofNat d.natAbs] else BigEndian.encode 2 d

def flags (p : RecordPoint) : PointFlags :=
  stepFlags .xShort .xSame p.dx ||| stepFlags .yShort .ySame p.dy |||
    PointFlags.onCurve.when p.onCurve

end RecordPoint

namespace SimpleRecord

def flagByte (f : PointFlags) : UInt8 := UInt8.ofNat f.word

/-- Flags with the number of their repetitions. Two equal flags are written out, which takes no
more bytes than a count. -/
def repeatedFlag (f : PointFlags) : (repetitions : Nat) → List UInt8
  | 0 => [flagByte f]
  | 1 => [flagByte f, flagByte f]
  | n => [flagByte (f ||| .repeated), UInt8.ofNat n]

/-- Writes flags; a count goes up to 255. -/
def packFlags : List PointFlags → List UInt8
  | [] => []
  | f :: rest =>
    let repetitions := ((rest.take 255).takeWhile (· == f)).length
    repeatedFlag f repetitions ++ packFlags (rest.drop repetitions)
termination_by flags => flags.length
decreasing_by simp only [List.length_cons, List.length_drop]; omega

def flags (r : SimpleRecord) : List PointFlags :=
  match r.points with
  | [] => []
  | p :: rest => (p.flags ||| PointFlags.overlap.when r.overlaps) :: rest.map (·.flags)

def bounds (r : SimpleRecord) : List Int :=
  match r.points with
  | [] => [0, 0, 0, 0]
  | p :: rest =>
    [(rest.map (·.x)).foldl min p.x, (rest.map (·.y)).foldl min p.y,
      (rest.map (·.x)).foldl max p.x, (rest.map (·.y)).foldl max p.y]

def toBytes (r : SimpleRecord) : List UInt8 :=
  padded
    (BigEndian.encode 2 r.ends.length ++ r.bounds.flatMap (BigEndian.encode 2) ++
      r.ends.flatMap (fun (last : Nat) => BigEndian.encode 2 last) ++
      BigEndian.encode 2 r.instructions.length ++ r.instructions ++ packFlags r.flags ++
      r.points.flatMap (RecordPoint.stepBytes ·.dx) ++
      r.points.flatMap (RecordPoint.stepBytes ·.dy))

/-! ## From a glyph -/

def isWord (n : Int) : Bool := -0x8000 ≤ n && n ≤ 0x7fff

def word (n : Int) : Except (EncodeError α) Int :=
  if isWord n then .ok n else .error (.coordinateOverflow (Scalar.ofInt n))

def pointAfter (before : Int × Int) (p : OutlinePoint α) : Except (EncodeError α) RecordPoint := do
  let x ← word (Scalar.toInt32 (Scalar.roundUp p.position.x))
  let y ← word (Scalar.toInt32 (Scalar.roundUp p.position.y))
  let dx ← word (x - before.1)
  let dy ← word (y - before.2)
  return { x, y, dx, dy, onCurve := p.onCurve }

/-- The points of a contour after those that are there already, newest first. -/
def addContour (points : List RecordPoint) (contour : List (OutlinePoint α)) :
    Except (EncodeError α) (List RecordPoint) :=
  contour.foldlM (fun points p => do
    let before := match points with
      | q :: _ => (q.x, q.y)
      | [] => (0, 0)
    return (← pointAfter before p) :: points) points

def pointCount : List Nat → Nat
  | [] => 0
  | last :: _ => last + 1

/-- Adds contours one after another: the points, newest first, and the ends, latest first. -/
def addContours (points : List RecordPoint) (ends : List Nat) :
    List (List (OutlinePoint α)) → Except (EncodeError α) (List RecordPoint × List Nat)
  | [] => .ok (points, ends)
  | [] :: rest => addContours points ends rest
  | contour :: rest => do
    let points ← addContour points contour
    let count := pointCount ends + contour.length
    if 0xffff < count then throw (.tooManyPoints count)
    addContours points ((count - 1) :: ends) rest

/-- The record for a glyph without cubic curves; nothing if it has no points. -/
def ofGlyph (g : Glyph α) : Except (EncodeError α) (Option SimpleRecord) := do
  let contours := g.contours.map fun (f, c) => f.outlinePoints c
  let (points, ends) ← addContours [] [] contours
  if points.isEmpty then return none
  if 0x7fff < ends.length then throw (.tooManyContours ends.length)
  if 0xffff < g.instructions.length then throw (.instructionsTooLong g.instructions.length)
  return some
    { points := points.reverse
      ends := ends.reverse
      instructions := g.instructions
      overlaps := g.overlaps }

end SimpleRecord

end Letterform
