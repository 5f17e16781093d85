import Letterform.Number.Scalar

/-!
# Points, affine maps and boxes

Coordinates are computed axis by axis in the order in which the expressions are written; with
doubles the order decides the last bit.
-/

namespace Letterform

variable {α : Type} [Scalar α]

structure Point (α : Type) where
  x : α
  y : α
  deriving BEq, DecidableEq, Repr

namespace Point

instance : Inhabited (Point α) := ⟨0, 0⟩

def add (p q : Point α) : Point α := ⟨p.x + q.x, p.y + q.y⟩

def sub (p q : Point α) : Point α := ⟨p.x - q.x, p.y - q.y⟩

def scale (p : Point α) (s : α) : Point α := ⟨p.x * s, p.y * s⟩

instance : Add (Point α) := ⟨add⟩

instance : Sub (Point α) := ⟨sub⟩

def midpoint (p q : Point α) : Point α := ⟨1 / 2 * (p.x + q.x), 1 / 2 * (p.y + q.y)⟩

def map (f : α → α) (p : Point α) : Point α := ⟨f p.x, f p.y⟩

def isClose (p q : Point α) : Bool := Scalar.isClose p.x q.x && Scalar.isClose p.y q.y

end Point

/-- The map `(x, y) ↦ (xx * x + xy * y + dx, yx * x + yy * y + dy)`. -/
structure Affine (α : Type) where
  xx : α
  yx : α
  xy : α
  yy : α
  dx : α
  dy : α
  deriving BEq, DecidableEq, Repr

namespace Affine

def identity : Affine α := ⟨1, 0, 0, 1, 0, 0⟩

def translation (dx dy : α) : Affine α := ⟨1, 0, 0, 1, dx, dy⟩

instance : Inhabited (Affine α) := ⟨identity⟩

def apply (t : Affine α) (p : Point α) : Point α :=
  ⟨t.xx * p.x + t.xy * p.y + t.dx, t.yx * p.x + t.yy * p.y + t.dy⟩

/-- First `u`, then `t`. -/
def comp (t u : Affine α) : Affine α where
  xx := t.xx * u.xx + t.xy * u.yx
  yx := t.yx * u.xx + t.yy * u.yx
  xy := t.xx * u.xy + t.xy * u.yy
  yy := t.yx * u.xy + t.yy * u.yy
  dx := t.xx * u.dx + t.xy * u.dy + t.dx
  dy := t.yx * u.dx + t.yy * u.dy + t.dy

def linear (t : Affine α) : Affine α := { t with dx := 0, dy := 0 }

def withTranslation (t : Affine α) (dx dy : α) : Affine α := { t with dx, dy }

end Affine

structure Rect (α : Type) where
  x0 : α
  y0 : α
  x1 : α
  y1 : α
  deriving BEq, DecidableEq, Repr

namespace Rect

instance : Inhabited (Rect α) := ⟨0, 0, 0, 0⟩

def ofPoint (p : Point α) : Rect α := ⟨p.x, p.y, p.x, p.y⟩

def cover (r : Rect α) (p : Point α) : Rect α where
  x0 := Scalar.least r.x0 p.x
  y0 := Scalar.least r.y0 p.y
  x1 := Scalar.greatest r.x1 p.x
  y1 := Scalar.greatest r.y1 p.y

/-- The smallest box around some points; a box of zeros if there are none. -/
def around : List (Point α) → Rect α
  | [] => default
  | p :: ps => ps.foldl cover (ofPoint p)

end Rect

end Letterform
