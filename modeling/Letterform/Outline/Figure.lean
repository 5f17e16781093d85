import Letterform.Geometry.Basic
import Letterform.Hint.Mask

/-!
# Figures

A figure holds the knots and segments of its contours in two tables; a knot or a segment is
named by its place in the table. Segments lead from knot to knot, and each knot knows the
segment that arrives and the one that leaves. Control points belong to the knots.
-/

namespace Letterform

variable {α : Type} [Scalar α]

inductive CurveOrder
  | quadratic
  | cubic
  deriving DecidableEq, Repr

instance : Inhabited CurveOrder := ⟨.cubic⟩

/-- A point on the outline with the control points beside it. An absent control point lies on the
anchor. -/
structure Knot (α : Type) where
  anchor : Point α
  controlIn : Option (Point α) := none
  controlOut : Option (Point α) := none
  /-- The stems that become active at this knot. -/
  mask : Option HintMask := none
  /-- The point number of the anchor in a record; a midpoint that was left out of it has none. -/
  number : Option Nat := none
  controlNumber : Option Nat := none
  segmentIn : Option Nat := none
  segmentOut : Option Nat := none
  deriving BEq, DecidableEq, Repr

namespace Knot

instance : Inhabited (Knot α) := ⟨{ anchor := default }⟩

def arriving (k : Knot α) : Point α := k.controlIn.getD k.anchor

def leaving (k : Knot α) : Point α := k.controlOut.getD k.anchor

def points (k : Knot α) : List (Point α) :=
  k.anchor :: (k.controlIn.toList ++ k.controlOut.toList)

def map (f : Point α → Point α) (k : Knot α) : Knot α :=
  { k with
    anchor := f k.anchor
    controlIn := k.controlIn.map f
    controlOut := k.controlOut.map f }

end Knot

structure Segment where
  start : Nat
  stop : Nat
  order : CurveOrder
  isLine : Bool
  deriving DecidableEq, Repr, Inhabited

/-- A path through a figure. It is closed when the segment that leaves its last knot leads back
to its first. -/
structure Contour where
  first : Nat
  last : Nat
  deriving DecidableEq, Repr, Inhabited

inductive Joint
  | corner
  | tangent
  | curve
  deriving DecidableEq, Repr

structure Figure (α : Type) where
  knots : Array (Knot α) := #[]
  segments : Array Segment := #[]
  contours : Array Contour := #[]
  deriving BEq, DecidableEq, Repr

structure Stroke (α : Type) where
  start : Knot α
  stop : Knot α
  order : CurveOrder
  isLine : Bool
  /-- Whether it leads back to the first knot of its contour. -/
  isClosing : Bool

namespace Figure

instance : Inhabited (Figure α) := ⟨{}⟩

def isEmpty (f : Figure α) : Bool := f.contours.isEmpty

def knot (f : Figure α) (i : Nat) : Knot α := f.knots.getD i default

def segment (f : Figure α) (i : Nat) : Segment := f.segments.getD i default

def modifyKnot (f : Figure α) (i : Nat) (change : Knot α → Knot α) : Figure α :=
  { f with knots := f.knots.modify i change }

/-- Adds a knot without segments. Its name is the number of knots before it. -/
def addKnot (f : Figure α) (k : Knot α) : Figure α := { f with knots := f.knots.push k }

/-- Adds a segment. It is a line if neither knot has a control point on its side. -/
def connect (f : Figure α) (start stop : Nat) (order : CurveOrder) : Figure α :=
  let isLine := (f.knot start).controlOut.isNone && (f.knot stop).controlIn.isNone
  let name := f.segments.size
  let f := { f with segments := f.segments.push { start, stop, order, isLine } }
  let f := f.modifyKnot start ({ · with segmentOut := some name })
  f.modifyKnot stop ({ · with segmentIn := some name })

def addContour (f : Figure α) (c : Contour) : Figure α :=
  { f with contours := f.contours.push c }

def isClosed (f : Figure α) (c : Contour) : Bool :=
  match (f.knot c.last).segmentOut with
  | some s => (f.segment s).stop == c.first
  | none => false

/-- The knots after `i`, up to the end of the path or its return to `first`. No more than `limit`
of them, so that knots which lead into a circle elsewhere do not go on for ever. -/
def following (f : Figure α) (first : Nat) : (limit : Nat) → (i : Nat) → List Nat
  | 0, _ => []
  | limit + 1, i =>
    match (f.knot i).segmentOut with
    | none => []
    | some s =>
      let next := (f.segment s).stop
      if next = first then [] else next :: f.following first limit next

def contourKnots (f : Figure α) (c : Contour) : List Nat :=
  c.first :: f.following c.first f.knots.size c.first

/-- The segments of a contour in the order of the path, with the one that closes it. -/
def contourSegments (f : Figure α) (c : Contour) : List Nat :=
  (f.contourKnots c).filterMap fun i => (f.knot i).segmentOut

/-- What has to be drawn of a contour: its segments without a straight one that closes it. -/
def strokes (f : Figure α) (c : Contour) : List (Stroke α) :=
  let segments := f.contourSegments c
  let count := segments.length
  let closed := f.isClosed c
  segments.zipIdx.filterMap fun (s, i) =>
    let segment := f.segment s
    let isClosing := closed && i + 1 == count
    if isClosing && segment.isLine then none
    else some
      { start := f.knot segment.start
        stop := f.knot segment.stop
        order := segment.order
        isLine := segment.isLine
        isClosing }

/-- Closes a contour by a line. One that is closed or starts and ends at the same knot stays as
it is. -/
def closeContour (f : Figure α) (i : Nat) (order : CurveOrder) : Figure α :=
  match f.contours[i]? with
  | none => f
  | some c =>
    if c.first = c.last ∨ f.isClosed c then f
    else
      let f := f.modifyKnot c.last ({ · with controlOut := none })
      let f := f.modifyKnot c.first ({ · with controlIn := none })
      f.connect c.last c.first order

/-- Whether two directions differ by an angle with a sine below 0.01. -/
def isSmooth (incoming outgoing : Point α) : Bool :=
  let length (v : Point α) : α := Scalar.sqrt (v.x * v.x + v.y * v.y)
  let lengthIn := length incoming
  let lengthOut := length outgoing
  let cross := incoming.x * outgoing.y - incoming.y * outgoing.x
  let dot := incoming.x * outgoing.x + incoming.y * outgoing.y
  if lengthIn == 0 || lengthOut == 0 then false
  else Scalar.abs (cross / (lengthIn * lengthOut)) < 1 / 100 && decide (0 < dot)

def joint (f : Figure α) (i : Nat) : Joint :=
  let k := f.knot i
  let incoming :=
    match k.controlIn with
    | some c => some (k.anchor - c)
    | none => k.segmentIn.map fun s => k.anchor - (f.knot (f.segment s).start).anchor
  let outgoing :=
    match k.controlOut with
    | some c => some (c - k.anchor)
    | none => k.segmentOut.map fun s => (f.knot (f.segment s).stop).anchor - k.anchor
  match incoming, outgoing with
  | some u, some v =>
    if isSmooth u v then
      match k.controlIn, k.controlOut with
      | some _, some _ => .curve
      | none, none => .corner
      | _, _ => .tangent
    else .corner
  | _, _ => .corner

def transform (f : Figure α) (t : Affine α) : Figure α :=
  { f with knots := f.knots.map (·.map t.apply) }

def hasCurves (f : Figure α) (order : CurveOrder) : Bool :=
  f.segments.any fun s => !s.isLine && s.order == order

def points (f : Figure α) : List (Point α) := f.knots.toList.flatMap Knot.points

end Figure

end Letterform
