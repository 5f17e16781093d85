import Letterform.Outline.Glyph

/-!
# The commands of a pen

An outline is handed out as commands in single precision. Every contour is closed, so one that
was left open gets a straight closing line.
-/

namespace Letterform

variable {α : Type} [Scalar α]

inductive PenCommand (α : Type)
  | moveTo (p : Point α)
  | lineTo (p : Point α)
  | quadTo (c p : Point α)
  | curveTo (c1 c2 p : Point α)
  | close
  deriving BEq, DecidableEq, Repr

namespace Stroke

def command (s : Stroke α) : PenCommand α :=
  let p := s.stop.anchor.map Scalar.narrow
  if s.isLine then .lineTo p
  else
    let c1 := s.start.leaving.map Scalar.narrow
    match s.order with
    | .quadratic => .quadTo c1 p
    | .cubic => .curveTo c1 (s.stop.arriving.map Scalar.narrow) p

end Stroke

namespace Figure

def drawContour (f : Figure α) (c : Contour) : List (PenCommand α) :=
  .moveTo ((f.knot c.first).anchor.map Scalar.narrow) ::
    (f.strokes c).map Stroke.command ++ [.close]

end Figure

namespace Glyph

def drawContours (g : Glyph α) : List (List (PenCommand α)) :=
  g.contours.map fun (f, c) => f.drawContour c

def draw (g : Glyph α) : List (PenCommand α) := g.drawContours.flatten

end Glyph

end Letterform
