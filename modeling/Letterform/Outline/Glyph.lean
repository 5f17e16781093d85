import Letterform.Component.Basic
import Letterform.Hint.Stem
import Letterform.Outline.Numbering

/-!
# Glyphs

A glyph is the outline program of one character: its own figures, the components it takes from
other glyphs, its metrics and its hints.
-/

namespace Letterform

variable {α : Type} [Scalar α]

inductive OutlineFormat
  /-- Quadratic outlines of glyph records. -/
  | truetype
  /-- Cubic outlines of charstrings. -/
  | postscript
  deriving DecidableEq, Repr

instance : Inhabited OutlineFormat := ⟨.postscript⟩

def OutlineFormat.curveOrder : OutlineFormat → CurveOrder
  | .truetype => .quadratic
  | .postscript => .cubic

inductive Paint
  | filled
  | stroked
  deriving DecidableEq, Repr, Inhabited

def Paint.ofNumber (n : Int) : Paint := if n = 2 then .stroked else .filled

structure Glyph (α : Type) where
  format : OutlineFormat
  figures : List (Figure α)
  components : List (Component α)
  advanceWidth : α
  bearing : α
  hints : StemHints α
  counterMasks : List HintMask
  bounds : Rect α
  instructions : List UInt8
  /-- Whether the record was marked as having overlapping contours. -/
  overlaps : Bool
  deriving BEq, DecidableEq, Repr

namespace Glyph

def empty (format : OutlineFormat) : Glyph α where
  format
  figures := []
  components := []
  advanceWidth := 0
  bearing := 0
  hints := {}
  counterMasks := []
  bounds := default
  instructions := []
  overlaps := false

instance : Inhabited (Glyph α) := ⟨empty default⟩

def hasContours (g : Glyph α) : Bool := !g.figures.all Figure.isEmpty

def isEmpty (g : Glyph α) : Bool := g.components.isEmpty && !g.hasContours

def isMixed (g : Glyph α) : Bool := !g.components.isEmpty && g.hasContours

def hasCurves (g : Glyph α) (order : CurveOrder) : Bool := g.figures.any (·.hasCurves order)

def contours (g : Glyph α) : List (Figure α × Contour) :=
  g.figures.flatMap fun f => f.contours.toList.map (f, ·)

def contourCount (g : Glyph α) : Nat := g.contours.length

def numberedPoints (g : Glyph α) : List (Point α) :=
  g.contours.flatMap fun (f, c) => (f.outlinePoints c).map (·.position)

/-- Closes every open contour by a line. Outlines that are stroked may stay open. -/
def closeOpenContours (g : Glyph α) (paint : Paint) : Glyph α :=
  match paint with
  | .stroked => g
  | .filled =>
    let order := g.format.curveOrder
    let close (f : Figure α) := (List.range f.contours.size).foldl (·.closeContour · order) f
    { g with figures := g.figures.map close }

/-- Sets the box around the glyph's own points, control points included. -/
def withBounds (g : Glyph α) : Glyph α :=
  { g with bounds := .around (g.figures.flatMap Figure.points) }

def transform (g : Glyph α) (t : Affine α) : Glyph α :=
  { g with
    figures := g.figures.map (·.transform t)
    components := g.components.map fun c => { c with transform := t.comp c.transform } }

end Glyph

end Letterform
