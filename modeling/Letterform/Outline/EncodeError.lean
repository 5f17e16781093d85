import Letterform.Component.Basic
import Letterform.Number.Decimal

/-!
# Why a glyph cannot be written
-/

namespace Letterform

inductive EncodeError (α : Type)
  | coordinateOverflow (value : α)
  | transformOutOfRange (value : α)
  | offsetOverflow (value : α)
  | tooManyPoints (count : Nat)
  | tooManyContours (count : Nat)
  | instructionsTooLong (count : Nat)
  | unresolvedReference (code : UInt8)
  | unflattenedReferences (count : Nat)
  | reference (error : ReferenceError)
  deriving DecidableEq, Repr

namespace EncodeError

def message : EncodeError Float → String
  | coordinateOverflow value =>
    "coordinate " ++ Decimal.ofDouble value ++ " overflows output format"
  | transformOutOfRange value =>
    "transform component " ++ Decimal.ofDouble value ++ " is outside of [-2, 2)"
  | offsetOverflow value => "component offset " ++ Decimal.ofDouble value ++ " overflows 16 bits"
  | tooManyPoints count => s!"glyph has too many points ({count})"
  | tooManyContours count => s!"glyph has too many contours ({count})"
  | instructionsTooLong count => s!"instructions len ({count}) overflows"
  | unresolvedReference code =>
    s!"component refers to Standard Encoding code {code} rather than a glyph"
  | unflattenedReferences count =>
    s!"{count} component references cannot be expressed in a charstring"
  | reference error => error.message

end EncodeError

end Letterform
