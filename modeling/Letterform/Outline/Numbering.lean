import Letterform.Outline.Figure

/-!
# The points of a contour in record order

A record lists anchors and control points in one sequence and leaves out an anchor that lies
halfway between two control points. The same sequence gives every point its number, which
components are placed by.
-/

namespace Letterform

variable {α : Type} [Scalar α]

structure OutlinePoint (α : Type) where
  position : Point α
  onCurve : Bool
  /-- The number the point had in the record it was read from. -/
  number : Option Nat := none
  deriving BEq, DecidableEq, Repr

namespace OutlinePoint

/-- Whether a point follows from its neighbours. A point with a number never does. -/
def isImplied (before point after : OutlinePoint α) : Bool :=
  point.onCurve && point.number.isNone && !before.onCurve && !after.onCurve &&
    (before.position.midpoint after.position).isClose point.position

/-- Leaves out the points that follow from their neighbours; the ends of an open contour stay. -/
def dropImplied (closed : Bool) (points : List (OutlinePoint α)) : List (OutlinePoint α) :=
  let rows := points.rotateRight.zip (points.zip points.rotateLeft)
  let count := points.length
  rows.zipIdx.filterMap fun ((before, point, after), i) =>
    let inside := closed || (0 < i && i + 1 < count)
    if inside && isImplied before point after then none else some point

/-- Turns a closed sequence so that the point with the lowest number comes first. -/
def turnToLowest (points : List (OutlinePoint α)) : List (OutlinePoint α) :=
  match (points.filterMap (·.number)).min? with
  | none => points
  | some lowest => points.rotateLeft (points.findIdx (·.number == some lowest))

end OutlinePoint

namespace Figure

def pointsFrom (f : Figure α) (i : Nat) : List (OutlinePoint α) :=
  let k := f.knot i
  let anchor : OutlinePoint α := { position := k.anchor, onCurve := true, number := k.number }
  match k.segmentOut.map f.segment with
  | none => [anchor]
  | some s =>
    if s.isLine then [anchor]
    else
      match s.order with
      | .quadratic =>
        [anchor, { position := k.leaving, onCurve := false, number := k.controlNumber }]
      | .cubic =>
        [anchor, { position := k.leaving, onCurve := false },
          { position := (f.knot s.stop).arriving, onCurve := false }]

def outlinePoints (f : Figure α) (c : Contour) : List (OutlinePoint α) :=
  let closed := f.isClosed c
  let points := OutlinePoint.dropImplied closed ((f.contourKnots c).flatMap f.pointsFrom)
  if closed then OutlinePoint.turnToLowest points else points

end Figure

end Letterform
