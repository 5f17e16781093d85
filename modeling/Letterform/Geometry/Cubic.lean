import Letterform.Geometry.Basic

/-!
# Cubic curves and the quadratic splines near them

A cubic is cut into equal parts of its parameter range, and each part is replaced by the
quadratic curve with the same ends whose control point is the mean of the two that its ends
suggest. The number of parts follows from the third difference of the control points.
-/

namespace Letterform

variable {α : Type} [Scalar α]

structure Cubic (α : Type) where
  p0 : Point α
  p1 : Point α
  p2 : Point α
  p3 : Point α
  deriving BEq, DecidableEq, Repr

namespace Cubic

def eval (c : Cubic α) (t : α) : Point α :=
  let s := 1 - t
  c.p0.scale (s * s * s) +
    (c.p1.scale (s * s * 3) + (c.p2.scale (s * 3) + c.p3.scale t).scale t).scale t

def derivative (c : Cubic α) (t : α) : Point α :=
  let s := 1 - t
  let e0 := (c.p1 - c.p0).scale 3
  let e1 := (c.p2 - c.p1).scale 3
  let e2 := (c.p3 - c.p2).scale 3
  e0.scale (s * s) + (e1.scale (s * 2) + e2.scale t).scale t

def part (c : Cubic α) (t0 t1 : α) : Cubic α :=
  let p0 := c.eval t0
  let p3 := c.eval t1
  let third := (t1 - t0) * (1 / 3)
  ⟨p0, p0 + (c.derivative t0).scale third, p3 - (c.derivative t1).scale third, p3⟩

def meanControl (c : Cubic α) : Point α :=
  let sum := (c.p1.scale 3 - c.p0) + (c.p2.scale 3 - c.p3)
  ⟨sum.x / 4, sum.y / 4⟩

/-- How many quadratic curves stay within a distance of the cubic one. At least one. -/
def partCount (c : Cubic α) (accuracy : α) : Nat :=
  let d := (c.p2.scale 3 - c.p3) - (c.p1.scale 3 - c.p0)
  let root : α := Scalar.sixthRoot ((d.x * d.x + d.y * d.y) / (432 * accuracy * accuracy))
  max 1 (Scalar.truncate 0 0xffffffffffffffff (-Scalar.floor (-root))).toNat

/-- The control point and the end point of each quadratic curve in turn. -/
def quadratics (c : Cubic α) (accuracy : α) : List (Point α × Point α) :=
  let count := c.partCount accuracy
  let parameter (i : Nat) : α := Scalar.ofInt i / Scalar.ofInt count
  (List.range count).map fun i =>
    let piece := c.part (parameter i) (parameter (i + 1))
    (piece.meanControl, piece.p3)

end Cubic

end Letterform
