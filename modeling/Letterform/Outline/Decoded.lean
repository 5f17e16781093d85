import Letterform.Outline.Glyph

/-!
# Decoded glyphs

Decoding never discards a glyph. When something goes wrong the glyph is there as far as it was
built, and the problems are listed beside it in the order in which they were met.
-/

namespace Letterform

variable {ε α : Type}

structure Decoded (ε α : Type) where
  glyph : Glyph α
  diagnostics : List ε := []

namespace Decoded

def isClean (d : Decoded ε α) : Bool := d.diagnostics.isEmpty

def toExcept (d : Decoded ε α) : Except ε (Glyph α) :=
  match d.diagnostics with
  | [] => .ok d.glyph
  | e :: _ => .error e

end Decoded

end Letterform
