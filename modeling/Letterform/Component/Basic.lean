import Letterform.Geometry.Basic

/-!
# Components

A glyph may be put together from other glyphs. A component names the glyph that it takes, says
how to place it, and carries the options that a record keeps for it.
-/

namespace Letterform

variable {α : Type} [Scalar α]

abbrev GlyphId := UInt16

inductive Target
  | glyph (id : GlyphId)
  /-- A character of the Standard Encoding, as the parts of an accented letter are given. -/
  | code (code : UInt8)
  deriving DecidableEq, Repr

/-- Places a component so that one of its points falls on a point of what was placed before. -/
structure PointMatch where
  base : UInt16
  component : UInt16
  deriving DecidableEq, Repr

structure ComponentFlags where
  roundXYToGrid : Bool := false
  useMyMetrics : Bool := false
  overlapCompound : Bool := false
  scaledComponentOffset : Bool := false
  unscaledComponentOffset : Bool := false
  deriving DecidableEq, Repr, Inhabited

namespace ComponentFlags

def scalesOffset (f : ComponentFlags) : Bool :=
  f.scaledComponentOffset && !f.unscaledComponentOffset

end ComponentFlags

structure Component (α : Type) where
  target : Target
  transform : Affine α
  pointMatch : Option PointMatch := none
  flags : ComponentFlags := {}
  deriving BEq, DecidableEq, Repr

inductive ReferenceError
  | selfReference (id : GlyphId)
  | glyphNotFound (id : GlyphId)
  | invalidAnchorPoint (id : GlyphId) (point : UInt16)
  | recursionLimitExceeded (id : GlyphId)
  | unresolvedStandardCode (code : UInt8)
  deriving DecidableEq, Repr

namespace Component

def nestingLimit : Nat := 32

def ofCode (code : UInt8) (dx dy : α) : Component α :=
  { target := .code code, transform := Affine.translation dx dy }

def glyphId (c : Component α) : Except ReferenceError GlyphId :=
  match c.target with
  | .glyph id => .ok id
  | .code code => .error (.unresolvedStandardCode code)

def withTranslation (c : Component α) (dx dy : α) : Component α :=
  { c with transform := c.transform.withTranslation dx dy }

end Component

namespace ReferenceError

def glyphName (id : GlyphId) : String := s!"GID_{id}"

def message : ReferenceError → String
  | selfReference id => s!"glyph {glyphName id} references itself"
  | glyphNotFound id => s!"referenced glyph {glyphName id} was not found"
  | invalidAnchorPoint id point =>
    s!"invalid anchor point index ({point}) for component glyph {glyphName id}"
  | recursionLimitExceeded id =>
    s!"recursion limit ({Component.nestingLimit}) exceeded when loading component {glyphName id}"
  | unresolvedStandardCode code => s!"no glyph for Standard Encoding code {code}"

end ReferenceError

end Letterform
