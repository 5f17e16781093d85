import Letterform.Outline.Glyph

/-!
# Putting components in place

The components of a glyph, their components, and so on, form a tree. It is unrolled first, in
depth-first order; what is wanted of it, points or figures, is then taken from each glyph in it
and moved up to the root one transform at a time.
-/

namespace Letterform

variable {α : Type} [Scalar α]

abbrev GlyphSource (α : Type) := GlyphId → Option (Glyph α)

/-- A glyph in the tree of components, and the transforms on the way from it to the root. -/
structure Placed (α : Type) where
  glyph : Glyph α
  path : List (Affine α) := []

namespace Placed

def below (t : Affine α) (p : Placed α) : Placed α := { p with path := p.path ++ [t] }

def points (p : Placed α) : List (Point α) :=
  p.path.foldl (fun points t => points.map t.apply) p.glyph.numberedPoints

def figures (p : Placed α) : List (Figure α) :=
  p.path.foldl (fun figures t => figures.map (·.transform t)) p.glyph.figures

end Placed

namespace GlyphSource

def ofArray (glyphs : Array (Glyph α)) : GlyphSource α := fun id => glyphs[id.toNat]?

/-- Finds the glyph that a component refers to. No glyph may take part in itself. -/
def lookup (source : GlyphSource α) (root id : GlyphId) : Except ReferenceError (Glyph α) :=
  if id = root then .error (.selfReference root)
  else
    match source id with
    | some g => .ok g
    | none => .error (.glyphNotFound id)

/-- Unrolls the tree of components from a glyph with a number of levels left below it. -/
def unroll (source : GlyphSource α) (root : GlyphId) :
    (levels : Nat) → Glyph α → Except ReferenceError (List (Placed α))
  | 0, g =>
    match g.components with
    | [] => .ok [{ glyph := g }]
    | c :: _ => do throw (.recursionLimitExceeded (← c.glyphId))
  | levels + 1, g => do
    let trees ← g.components.mapM fun c => do
      let child ← source.lookup root (← c.glyphId)
      let tree ← source.unroll root levels child
      return tree.map (·.below c.transform)
    return { glyph := g } :: trees.flatten

def child (source : GlyphSource α) (root : GlyphId) (c : Component α) :
    Except ReferenceError (List (Placed α)) := do
  source.unroll root Component.nestingLimit (← source.lookup root (← c.glyphId))

end GlyphSource

namespace Glyph

/-- The component moved so that its point falls on a point of those placed before it. -/
def matchPoints (root : GlyphId) (placed childPoints : List (Point α)) (c : Component α) :
    Except ReferenceError (Component α) := do
  match c.pointMatch with
  | none => return c
  | some m =>
    let some base := placed[m.base.toNat]? | throw (.invalidAnchorPoint root m.base)
    let some point := childPoints[m.component.toNat]?
      | throw (.invalidAnchorPoint (← c.glyphId) m.component)
    let step := base - c.transform.linear.apply point
    return c.withTranslation step.x step.y

def placeComponent (source : GlyphSource α) (root : GlyphId) (placed : List (Point α))
    (c : Component α) : Except ReferenceError (Component α × List (Point α)) := do
  let points := (← source.child root c).flatMap Placed.points
  let c ← matchPoints root placed points c
  return (c, points.map c.transform.apply)

/-- Places components one after another, each against the points that are there already. The
first error ends this; the components after it stay as they were. -/
def placeComponents (source : GlyphSource α) (root : GlyphId) (placed : List (Point α)) :
    List (Component α) → List (Component α) × Option ReferenceError
  | [] => ([], none)
  | c :: rest =>
    match placeComponent source root placed c with
    | .error e => (c :: rest, some e)
    | .ok (c, points) =>
      let (rest, error) := placeComponents source root (placed ++ points) rest
      (c :: rest, error)

def placeReferences (g : Glyph α) (id : GlyphId) (source : GlyphSource α) :
    Glyph α × Option ReferenceError :=
  let (components, error) := placeComponents source id g.numberedPoints g.components
  ({ g with components }, error)

def resolveComponent (encoding : UInt8 → Option GlyphId) (c : Component α) :
    Except ReferenceError (Component α) :=
  match c.target with
  | .glyph _ => .ok c
  | .code code =>
    match encoding code with
    | some id => .ok { c with target := .glyph id }
    | none => .error (.unresolvedStandardCode code)

/-- Resolves components up to the first one whose character the font lacks. -/
def resolveComponents (encoding : UInt8 → Option GlyphId) :
    List (Component α) → List (Component α) × Option ReferenceError
  | [] => ([], none)
  | c :: rest =>
    match resolveComponent encoding c with
    | .error e => (c :: rest, some e)
    | .ok c =>
      let (rest, error) := resolveComponents encoding rest
      (c :: rest, error)

def resolveCodes (g : Glyph α) (encoding : UInt8 → Option GlyphId) :
    Glyph α × Option ReferenceError :=
  let (components, error) := resolveComponents encoding g.components
  ({ g with components }, error)

def flatten (g : Glyph α) (id : GlyphId) (source : GlyphSource α) :
    Except ReferenceError (Glyph α) := do
  let figures ← g.components.mapM fun c => do
    let tree ← source.child id c
    return tree.flatMap fun p => (p.below c.transform).figures
  return { g with
    components := []
    figures := g.figures ++ figures.flatten.filter (!·.isEmpty) }

/-- Flattens a glyph in its place. One that cannot be flattened stays as it is. -/
def flattenReferences (g : Glyph α) (id : GlyphId) (source : GlyphSource α) :
    Glyph α × Option ReferenceError :=
  match g.flatten id source with
  | .ok flat => (flat, none)
  | .error e => (g, some e)

end Glyph

end Letterform
