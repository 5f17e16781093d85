import Letterform.Charstring.Operand
import Letterform.Charstring.Operator
import Letterform.Hint.Mask

/-!
# Instructions

A charstring is written as a list of instructions, each an operator with the operands before it
or the mask behind it.
-/

namespace Letterform.Charstring

variable {α : Type} [Scalar α]

inductive Instruction (α : Type)
  | operation (op : Operator) (operands : List α)
  | mask (isCounter : Bool) (stems : HintMask) (stemCount : Nat)
  deriving BEq, DecidableEq, Repr

namespace Operator

def carriesWidth : Operator → Bool
  | stems _ _ | rmoveto | hmoveto | vmoveto | endchar => true
  | _ => false

end Operator

namespace Instruction

def toBytes (version : Version) : Instruction α → List UInt8
  | operation op operands => operands.flatMap (Operand.write version) ++ op.opcode.toBytes
  | mask isCounter stems stemCount =>
    (Operator.mask isCounter).opcode.toBytes ++ stems.toBytes stemCount

def insertWidth (width : α) : List (Instruction α) → List (Instruction α)
  | [] => []
  | .operation op operands :: rest =>
    if op.carriesWidth then .operation op (width :: operands) :: rest
    else .operation op operands :: insertWidth width rest
  | .mask isCounter stems stemCount :: rest =>
    .mask isCounter stems stemCount :: insertWidth width rest

end Instruction

end Letterform.Charstring
