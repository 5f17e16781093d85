import Letterform.Charstring.Operator

/-!
# What goes wrong in a charstring
-/

namespace Letterform.Charstring

inductive Error
  | stackUnderflow
  | stackOverflow
  | invalidOperator (opcode : UInt8)
  | invalidEscapedOperator (opcode : UInt8)
  | unsupportedOperator (operator : Operator) (version : Version)
  | missingSubroutines
  | subroutineIndexOutOfRange (index : Int) (count : Nat)
  | nestingDepthLimitExceeded
  | hintMaskTruncated (expected remaining : Nat)
  | tooManyHints
  | invalidSeacCode (code : Int)
  | invalidTransientIndex (index : Int)
  | missingBlendState
  | invalidVariationStoreIndex (index : Nat)
  | unexpectedEnd
  deriving DecidableEq, Repr

namespace Error

def message : Error → String
  | stackUnderflow => "operand stack underflow"
  | stackOverflow => "operand stack overflow"
  | invalidOperator opcode => s!"invalid charstring operator {opcode}"
  | invalidEscapedOperator opcode => s!"invalid escaped charstring operator 12 {opcode}"
  | unsupportedOperator operator version =>
    s!"operator '{operator.name}' is not supported in {version.name} charstrings"
  | missingSubroutines => "encountered a subroutine call but no subroutines are available"
  | subroutineIndexOutOfRange index count =>
    s!"subroutine index {index} is out of range for {count} subroutines"
  | nestingDepthLimitExceeded => s!"subroutine nesting depth exceeded limit of {callLimit}"
  | hintMaskTruncated expected remaining =>
    s!"hint mask requires {expected} bytes but only {remaining} remain"
  | tooManyHints => "glyph has more than 65536 stem hints"
  | invalidSeacCode code => s!"accent component code {code} is outside of 0..=255"
  | invalidTransientIndex index => s!"invalid transient array index {index}"
  | missingBlendState => "encountered a blend operator but no variation data was provided"
  | invalidVariationStoreIndex index => s!"invalid variation store index {index}"
  | unexpectedEnd => "charstring ended unexpectedly"

end Error

end Letterform.Charstring
