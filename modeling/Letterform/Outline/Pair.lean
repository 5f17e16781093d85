import Letterform.Outline.Convert

/-!
# The outlines of a glyph in both formats

Each format has an outline of its own. Choosing a format selects one of them, and makes it from
the other one first if it is missing.
-/

namespace Letterform

variable {α : Type} [Scalar α]

structure OutlinePair (α : Type) where
  active : OutlineFormat
  truetype : Option (Glyph α) := none
  postscript : Option (Glyph α) := none
  deriving BEq, DecidableEq, Repr

namespace OutlinePair

def get? (o : OutlinePair α) : OutlineFormat → Option (Glyph α)
  | .truetype => o.truetype
  | .postscript => o.postscript

def insert (o : OutlinePair α) (g : Glyph α) : OutlinePair α :=
  match g.format with
  | .truetype => { o with truetype := some g }
  | .postscript => { o with postscript := some g }

def ofGlyph (g : Glyph α) : OutlinePair α :=
  ({ active := g.format } : OutlinePair α).insert g

def active? (o : OutlinePair α) : Option (Glyph α) := o.get? o.active

def modify (o : OutlinePair α) (format : OutlineFormat) (change : Glyph α → Glyph α) :
    OutlinePair α :=
  match format with
  | .truetype => { o with truetype := o.truetype.map change }
  | .postscript => { o with postscript := o.postscript.map change }

def activate (o : OutlinePair α) (format : OutlineFormat) (accuracy : α) : OutlinePair α :=
  let o :=
    match o.get? format, o.active? with
    | none, some g => o.insert (g.convert format accuracy)
    | _, _ => o
  { o with active := format }

end OutlinePair

end Letterform
