import Letterform.Charstring.Error
import Letterform.Charstring.Operand

/-!
# Tokens

The code of a charstring is a sequence of operands and operators; the bytes of a mask follow its
operator and are not tokens. Every token takes at least one byte, which `length_rest_le` says of
what is left.
-/

namespace Letterform.Charstring

variable {α : Type} [Scalar α]

inductive Token (α : Type)
  | operand (value : α)
  | operator (op : Operator)

namespace Token

def readOperator (b : UInt8) (code : List UInt8) : Except Error (Operator × List UInt8) :=
  if b = Opcode.escape then
    match code with
    | [] => .error .unexpectedEnd
    | b1 :: rest =>
      match Operator.ofOpcode? (.escaped b1) with
      | some op => .ok (op, rest)
      | none => .error (.invalidEscapedOperator b1)
  else
    match Operator.ofOpcode? (.short b) with
    | some op => .ok (op, code)
    | none => .error (.invalidOperator b)

def read (version : Version) (b : UInt8) (code : List UInt8) :
    Except Error (Token α × List UInt8) :=
  if Operand.starts version b then
    match Operand.read? version b code with
    | some (a, rest) => .ok (.operand a, rest)
    | none => .error .unexpectedEnd
  else do
    let (op, rest) ← readOperator b code
    return (.operator op, rest)

end Token

theorem Operand.length_rest_le {version : Version} {b : UInt8} {code rest : List UInt8} {a : α}
    (h : Operand.read? version b code = some (a, rest)) : rest.length ≤ code.length := by
  unfold Operand.read? at h
  grind

theorem Token.length_rest_le {version : Version} {b : UInt8} {code rest : List UInt8}
    {t : Token α} (h : Token.read version b code = .ok (t, rest)) :
    rest.length ≤ code.length := by
  unfold Token.read at h
  split at h
  · split at h
    · rename_i hread
      cases h
      exact Operand.length_rest_le hread
    · cases h
  · simp only [readOperator, bind, Except.bind, pure, Except.pure] at h
    grind

end Letterform.Charstring
