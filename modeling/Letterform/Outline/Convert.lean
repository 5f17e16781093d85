import Letterform.Geometry.Cubic
import Letterform.Outline.Builder
import Letterform.Outline.Glyph

/-!
# From one curve order to the other

A glyph is converted by drawing it again. Quadratic curves become cubic ones that run the same
way; cubic curves become quadratic splines that keep within a given distance.
-/

namespace Letterform

variable {α : Type} [Scalar α]

/-- The distance, in font units, that a quadratic spline keeps unless another one is asked for. -/
def defaultAccuracy : α := 1

namespace Stroke

def cubic (s : Stroke α) : Cubic α :=
  ⟨s.start.anchor, s.start.leaving, s.stop.arriving, s.stop.anchor⟩

/-- The point two thirds of the way from an anchor to the control point of a quadratic curve. -/
def elevated (anchor control : Point α) : Point α :=
  anchor + (control - anchor).scale (2 / 3)

def draw (s : Stroke α) (order : CurveOrder) (accuracy : α) (b : Builder α) : Builder α :=
  let stop := s.stop.anchor
  if s.isLine then b.lineTo stop
  else
    match s.order, order with
    | .quadratic, .quadratic =>
      (b.modifyCurrent ({ · with controlNumber := s.start.controlNumber })).quadTo
        s.start.leaving stop
    | .quadratic, .cubic =>
      let c := s.start.leaving
      b.curveTo (elevated s.start.anchor c) (elevated stop c) stop
    | .cubic, .cubic => b.curveTo s.start.leaving s.stop.arriving stop
    | .cubic, .quadratic =>
      (s.cubic.quadratics accuracy).foldl (fun b (c, p) => b.quadTo c p) b

end Stroke

namespace Figure

/-- Hands the mask and the number of a knot on to the newest one. -/
def inherit (b : Builder α) (k : Knot α) : Builder α :=
  b.modifyCurrent ({ · with mask := k.mask, number := k.number })

def redrawContour (f : Figure α) (order : CurveOrder) (accuracy : α) (b : Builder α)
    (c : Contour) : Builder α :=
  let first := f.knot c.first
  let b := inherit (b.moveTo first.anchor) first
  let b := (f.strokes c).foldl
    (fun b s =>
      let b := s.draw order accuracy b
      if s.isClosing then b else inherit b s.stop)
    b
  if f.isClosed c then b.close else b

def redraw (f : Figure α) (order : CurveOrder) (accuracy : α) : Figure α :=
  (f.contours.foldl (f.redrawContour order accuracy) { order }).finish

end Figure

namespace Glyph

def convert (g : Glyph α) (format : OutlineFormat) (accuracy : α) : Glyph α :=
  { g with format, figures := g.figures.map (·.redraw format.curveOrder accuracy) }

end Glyph

end Letterform
