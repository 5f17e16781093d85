import Letterform.Charstring.Encoding
import Letterform.Proofs.Hint.Mask

/-!
# The masks of a program

How long a mask is stands nowhere in a charstring. It can only be read where as many bytes have been
written as there are for the stems that are known to the one who reads it.
-/

namespace Letterform.Charstring

variable {α : Type} [Scalar α]

def Instruction.maskBytes? : Instruction α → Option (List UInt8)
  | .mask _ stems stemCount => some (stems.toBytes stemCount)
  | .operation .. => none

def writtenMasks (program : List (Instruction α)) : List (List UInt8) :=
  program.filterMap Instruction.maskBytes?

/-- Every mask of a program is as long as one over some stems. -/
def MasksFit (stemCount : ℕ) (program : List (Instruction α)) : Prop :=
  ∀ mask ∈ writtenMasks program, mask.length = HintMask.byteLength stemCount

/-- The instruction for a mask, as far as there are stems that it can select. -/
def maskBefore (declared : Option (List ℕ)) (mask : Option HintMask) : List (Instruction α) :=
  match declared, mask with
  | some numbers, some mask => [maskInstruction false numbers mask]
  | _, _ => []

section

omit [Scalar α]

variable {program program' : List (Instruction α)} {stemCount : ℕ}

theorem masksFit_append :
    MasksFit stemCount (program ++ program') ↔
      MasksFit stemCount program ∧ MasksFit stemCount program' := by
  rw [MasksFit, writtenMasks, List.filterMap_append]
  exact List.forall_mem_append

theorem masksFit_operation (op : Operator) (operands : List α) :
    MasksFit stemCount (.operation op operands :: program) ↔ MasksFit stemCount program := Iff.rfl

theorem masksFit_mask (isCounter : Bool) (numbers : List ℕ) (mask : HintMask) :
    MasksFit stemCount (maskInstruction (α := α) isCounter numbers mask :: program) ↔
      HintMask.byteLength numbers.length = HintMask.byteLength stemCount ∧
        MasksFit stemCount program := by
  rw [← HintMask.length_toBytes]
  exact List.forall_mem_cons

theorem masksFit_of_operations (h : ∀ i ∈ program, ∃ op operands, i = .operation op operands) :
    MasksFit stemCount program := by
  intro mask hmask
  obtain ⟨i, hi, hbytes⟩ := List.mem_filterMap.mp hmask
  obtain ⟨op, operands, rfl⟩ := h i hi
  cases hbytes

theorem masksFit_maskBefore {declared : Option (List ℕ)}
    (h : ∀ numbers ∈ declared, HintMask.byteLength numbers.length = HintMask.byteLength stemCount)
    (mask : Option HintMask) : MasksFit stemCount (maskBefore (α := α) declared mask) := by
  rcases declared with _ | numbers
  · exact List.forall_mem_nil _
  rcases mask with _ | mask
  · exact List.forall_mem_nil _
  · exact (masksFit_mask false numbers mask).mpr ⟨h numbers rfl, List.forall_mem_nil _⟩

theorem masksFit_map {isCounter : Bool} {numbers : List ℕ}
    (h : HintMask.byteLength numbers.length = HintMask.byteLength stemCount)
    (masks : List HintMask) :
    MasksFit stemCount (masks.map (maskInstruction (α := α) isCounter numbers)) := by
  induction masks with
  | nil => exact List.forall_mem_nil _
  | cons mask masks ih => exact (masksFit_mask isCounter numbers mask).mpr ⟨h, ih⟩

theorem writtenMasks_insertWidth (width : α) (program : List (Instruction α)) :
    writtenMasks (Instruction.insertWidth width program) = writtenMasks program := by
  induction program with
  | nil => rfl
  | cons i program ih =>
    cases i with
    | operation op operands =>
      rw [Instruction.insertWidth]
      split_ifs
      · rfl
      · exact ih
    | mask isCounter stems n => exact congrArg (stems.toBytes n :: ·) ih

end

theorem masksFit_move (p q : Point α) (program : List (Instruction α)) (stemCount : ℕ) :
    MasksFit stemCount (.move p q :: program) ↔ MasksFit stemCount program := by
  unfold Instruction.move
  dsimp only
  split_ifs <;> rfl

end Letterform.Charstring
