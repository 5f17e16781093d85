import Letterform.Outline.Figure

/-!
# Drawing a figure

A builder turns the commands of a pen into a figure. Every move starts a contour. A contour stays
open unless it is closed, but one that ends where it started is always joined into a loop: its
last knot goes away, and the segment to it leads to the first knot instead.
-/

namespace Letterform

variable {α : Type} [Scalar α]

structure Builder (α : Type) where
  figure : Figure α := {}
  order : CurveOrder := .cubic
  path : Option (Nat × Nat) := none
  deriving BEq, DecidableEq, Repr

namespace Builder

instance : Inhabited (Builder α) := ⟨{}⟩

def current (b : Builder α) : Option Nat := b.path.map Prod.snd

def modifyKnot (b : Builder α) (i : Nat) (change : Knot α → Knot α) : Builder α :=
  { b with figure := b.figure.modifyKnot i change }

def modifyCurrent (b : Builder α) (change : Knot α → Knot α) : Builder α :=
  match b.current with
  | some i => b.modifyKnot i change
  | none => b

/-- Takes away the newest knot of a figure and leads the segment that arrives at it to `first`. -/
def joinLast (f : Figure α) (first : Nat) (removed : Knot α) (segment : Nat) : Figure α :=
  let f :=
    { f with
      knots := f.knots.pop
      segments := f.segments.modify segment ({ · with stop := first }) }
  f.modifyKnot first fun k =>
    { k with
      segmentIn := some segment
      controlIn := removed.controlIn
      mask := k.mask.or removed.mask }

def endContour (b : Builder α) (close : Bool) : Builder α :=
  match b.path with
  | none => b
  | some (first, last) =>
    let f := b.figure
    let removed := f.knot last
    let coincides := (f.knot first).anchor.isClose removed.anchor && last + 1 == f.knots.size
    let (f, last) :=
      if first = last then (f, last)
      else if coincides then
        match removed.segmentIn with
        | some s => (joinLast f first removed s, (f.segment s).start)
        | none => (f, last)
      else if close then
        let f := f.modifyKnot last ({ · with controlOut := none })
        let f := f.modifyKnot first ({ · with controlIn := none })
        (f.connect last first b.order, last)
      else (f, last)
    { b with figure := f.addContour { first, last }, path := none }

def moveTo (b : Builder α) (p : Point α) : Builder α :=
  let b := b.endContour false
  let name := b.figure.knots.size
  { b with figure := b.figure.addKnot { anchor := p }, path := some (name, name) }

/-- Starts a contour at a point unless one is being drawn. -/
def start (b : Builder α) (p : Point α) : Builder α :=
  match b.path with
  | some _ => b
  | none => b.moveTo p

def extend (b : Builder α) (knot : Knot α) (order : CurveOrder) : Builder α :=
  match b.path with
  | none => b
  | some (first, last) =>
    let name := b.figure.knots.size
    { b with figure := (b.figure.addKnot knot).connect last name order, path := some (first, name) }

def lineTo (b : Builder α) (p : Point α) : Builder α :=
  let b := b.start p
  b.extend { anchor := p } b.order

def quadTo (b : Builder α) (c p : Point α) : Builder α :=
  let b := b.start c
  let b := b.modifyCurrent ({ · with controlOut := some c })
  b.extend { anchor := p, controlIn := some c } .quadratic

/-- A control point on its own anchor is dropped. -/
def curveTo (b : Builder α) (c1 c2 p : Point α) : Builder α :=
  let b := b.start c1
  let b := b.modifyCurrent fun k =>
    { k with controlOut := if c1 == k.anchor then none else some c1 }
  b.extend { anchor := p, controlIn := if c2 == p then none else some c2 } .cubic

def close (b : Builder α) : Builder α := b.endContour true

def finish (b : Builder α) : Figure α := (b.endContour false).figure

end Builder

end Letterform
