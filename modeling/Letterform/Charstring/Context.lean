import Letterform.Charstring.PrivateDict
import Letterform.Charstring.Subroutines
import Letterform.Charstring.Variation

/-!
# The font around a charstring
-/

namespace Letterform.Charstring

variable {α : Type} [Scalar α]

structure Context (α : Type) where
  version : Version := .type2
  privateDict : PrivateDict α := {}
  globalSubroutines : Subroutines := {}
  localSubroutines : Subroutines := {}
  store : Option (VariationStore α) := none
  /-- The location in the design space, in 2.14 words. -/
  location : List Int := []
  /-- Stems that were declared before the charstring begins, as happens when it is a part of
  another one. Masks make room for them. -/
  hintCount : Nat := 0

namespace Context

instance : Inhabited (Context α) := ⟨{}⟩

end Context

end Letterform.Charstring
