import Letterform.Charstring.Encoding
import Letterform.Charstring.Evaluation
import Letterform.Proofs.Charstring.Operand

/-!
# Executing instructions

The bytes of an instruction are executed as a whole: its operands are loaded on the stack, and then
its operator is evaluated.
-/

namespace Letterform.Charstring

variable {α : Type} [Scalar α]

theorem Operator.ofOpcode?_opcode (op : Operator) : Operator.ofOpcode? op.opcode = some op := by
  cases op with
  | path p => cases p <;> rfl
  | arithmetic a => cases a <;> rfl
  | stems axis masked => cases axis <;> cases masked <;> rfl
  | threeStems axis => cases axis <;> rfl
  | mask counter => cases counter <;> rfl
  | call isGlobal => cases isGlobal <;> rfl
  | _ => rfl

/-- Whether an opcode cannot be taken for an operand or for another opcode. -/
def Opcode.isDistinct : Opcode → Bool
  | .short b => b < 32 && b != 28 && b != escape
  | .escaped _ => true

theorem Operator.isDistinct_opcode (op : Operator) : op.opcode.isDistinct = true := by
  cases op with
  | path p => cases p <;> rfl
  | arithmetic a => cases a <;> rfl
  | stems axis masked => cases axis <;> cases masked <;> rfl
  | threeStems axis => cases axis <;> rfl
  | mask counter => cases counter <;> rfl
  | call isGlobal => cases isGlobal <;> rfl
  | _ => rfl

/-- Whether evaluating an operator says all that it does. -/
def Operator.isPlain : Operator → Bool
  | .call _ | .ret | .endchar | .mask _ => false
  | _ => true

theorem Operator.read_opcode (version : Version) (op : Operator) :
    ∃ b rest, op.opcode.toBytes = b :: rest ∧
      ∀ tail, Token.read (α := α) version b (rest ++ tail) = .ok (.operator op, tail) := by
  have hop := op.ofOpcode?_opcode
  have hdistinct := op.isDistinct_opcode
  generalize op.opcode = code at hop hdistinct
  cases code with
  | short b =>
    simp only [Opcode.isDistinct, Bool.and_eq_true, decide_eq_true_eq, bne_iff_ne] at hdistinct
    obtain ⟨⟨hlt, h28⟩, hescape⟩ := hdistinct
    refine ⟨b, [], rfl, fun tail => ?_⟩
    have hstarts : Operand.starts version b = false := by simp [Operand.starts, h28, hlt]
    simp [Token.read, Token.readOperator, hstarts, hescape, hop]
  | escaped b =>
    refine ⟨Opcode.escape, [b], rfl, fun tail => ?_⟩
    have hstarts : Operand.starts version Opcode.escape = false := by cases version <;> rfl
    simp [Token.read, Token.readOperator, hstarts, hop]

namespace Machine

variable (ctx : Context α) (levels : ℕ)

theorem run_operand {bytes : List UInt8} {a : α} (h : Operand.Encodes ctx.version bytes a)
    (tail : List UInt8) (m : Machine α) :
    m.run ctx levels (bytes ++ tail) = (m.push a) >>= run ctx levels tail := by
  obtain ⟨b, rest, rfl, hstarts, hread⟩ := h
  have htoken : Token.read ctx.version b (rest ++ tail) = .ok (Token.operand a, tail) := by
    rw [Token.read, if_pos hstarts, hread]
  rw [List.cons_append, run]
  split <;> rename_i heq <;> rw [htoken] at heq <;> cases heq
  rfl

theorem run_opcode (op : Operator) (hknown : op.isKnownTo ctx.version = true)
    (hplain : op.isPlain = true) (tail : List UInt8) (m : Machine α) :
    m.run ctx levels (op.opcode.toBytes ++ tail) = (m.evaluate ctx op) >>= run ctx levels tail := by
  obtain ⟨b, rest, hbytes, hread⟩ := op.read_opcode (α := α) ctx.version
  have htoken := hread tail
  rw [hbytes, List.cons_append, run]
  split <;> rename_i heq <;> rw [htoken] at heq <;> cases heq
  rw [if_neg (by simp [hknown])]
  cases op with
  | call => cases hplain
  | ret => cases hplain
  | endchar => cases hplain
  | mask => cases hplain
  | _ => rfl

theorem run_endchar (hknown : ctx.version ≠ .cff2) (tail : List UInt8) (m : Machine α) :
    m.run ctx levels (Operator.endchar.opcode.toBytes ++ tail) =
      .ok (m.endCharacter ctx, .finished) := by
  obtain ⟨b, rest, hbytes, hread⟩ := Operator.endchar.read_opcode (α := α) ctx.version
  have htoken := hread tail
  rw [hbytes, List.cons_append, run]
  split <;> rename_i heq <;> rw [htoken] at heq <;> cases heq
  rw [if_neg (by simp [Operator.isKnownTo, hknown])]

theorem run_mask (isCounter : Bool) (hknown : ctx.version ≠ .type1) (tail : List UInt8)
    (m : Machine α) :
    m.run ctx levels ((Operator.mask isCounter).opcode.toBytes ++ tail) =
      (m.prepareMask ctx) >>= fun m =>
        let length := HintMask.byteLength (m.hintCount ctx)
        if tail.length < length then m.halt (.hintMaskTruncated length tail.length)
        else run ctx levels (tail.drop length) (m.addMask ctx isCounter (tail.take length)) := by
  obtain ⟨b, rest, hbytes, hread⟩ := (Operator.mask isCounter).read_opcode (α := α) ctx.version
  have htoken := hread tail
  rw [hbytes, List.cons_append, run]
  split <;> rename_i heq <;> rw [htoken] at heq <;> cases heq
  rw [if_neg (by simp [Operator.isKnownTo, hknown])]

-- ---------------------------------------------------------------------------
-- Whole instructions
-- ---------------------------------------------------------------------------

/-- The machine with some more operands, listed from the bottom. -/
def load (m : Machine α) (operands : List α) : Machine α :=
  m.withStack { m.stack with values := operands.reverse ++ m.stack.values }

omit [Scalar α] in
@[simp] theorem operands_load (m : Machine α) (operands : List α) :
    (m.load operands).operands = m.operands ++ operands := by
  simp [load, Machine.operands, Stack.operands, stack, withStack]

omit [Scalar α] in
theorem load_load (m : Machine α) (first second : List α) :
    (m.load first).load second = m.load (first ++ second) := by
  simp [load, stack, withStack]

omit [Scalar α] in
theorem push_eq_load (m : Machine α) (a : α) (h : m.stack.size < m.stack.limit) :
    m.push a = .ok (m.load [a]) := by
  simp only [push, Stack.push, if_pos h]
  rfl

variable [LawfulScalar α]

theorem run_operands (operands : List α) (tail : List UInt8) (m : Machine α)
    (hroom : m.stack.size + operands.length ≤ m.stack.limit) :
    m.run ctx levels (operands.flatMap (Operand.write ctx.version) ++ tail) =
      (m.load (operands.map (Operand.reread ctx.version))).run ctx levels tail := by
  induction operands generalizing m with
  | nil => rfl
  | cons a operands ih =>
    rw [List.length_cons] at hroom
    have hsize : (m.load [Operand.reread ctx.version a]).stack.size = m.stack.size + 1 := rfl
    have hlimit : (m.load [Operand.reread ctx.version a]).stack.limit = m.stack.limit := rfl
    rw [List.flatMap_cons, List.append_assoc,
      run_operand ctx levels (Operand.encodes_write ctx.version a), push_eq_load m _ (by omega)]
    show (m.load _).run ctx levels _ = _
    rw [ih _ (by omega), load_load]
    rfl

/-- An instruction whose operands fit on the stack is evaluated with what is read back of them. -/
theorem run_operation {op : Operator} (hknown : op.isKnownTo ctx.version = true)
    (hplain : op.isPlain = true) (operands : List α) (tail : List UInt8) (m : Machine α)
    (hroom : m.stack.size + operands.length ≤ m.stack.limit) :
    m.run ctx levels ((Instruction.operation op operands).toBytes ctx.version ++ tail) =
      ((m.load (operands.map (Operand.reread ctx.version))).evaluate ctx op) >>=
        run ctx levels tail := by
  rw [Instruction.toBytes, List.append_assoc, run_operands ctx levels _ _ _ hroom,
    run_opcode ctx levels op hknown hplain]

omit [LawfulScalar α] in
/-- A mask that is as long as one over the stems that the machine knows of takes all of its
bytes. -/
theorem run_maskInstruction (isCounter : Bool) (stems : HintMask) {stemCount : ℕ}
    (hknown : ctx.version ≠ .type1) (tail : List UInt8) (m : Machine α)
    (hempty : m.stack.values = [])
    (hfits : HintMask.byteLength stemCount = HintMask.byteLength (m.hintCount ctx)) :
    m.run ctx levels
        ((Instruction.mask isCounter stems stemCount : Instruction α).toBytes ctx.version ++ tail) =
      (({ m with widthTaken := true }).addMask ctx isCounter (stems.toBytes stemCount)).run ctx
        levels tail := by
  have hprepare : m.prepareMask ctx = .ok { m with widthTaken := true } := by
    obtain ⟨⟨⟨values, limit⟩, storage, generator⟩, builder, glyph, diagnostics, position, taken⟩ := m
    obtain rfl : values = [] := hempty
    cases taken <;> rfl
  have hlength : (stems.toBytes stemCount).length = HintMask.byteLength (m.hintCount ctx) := by
    rw [HintMask.toBytes, List.length_map, List.length_range, hfits]
  have hcount : ({ m with widthTaken := true } : Machine α).hintCount ctx = m.hintCount ctx := rfl
  rw [Instruction.toBytes, List.append_assoc, run_mask ctx levels isCounter hknown, hprepare]
  show (if _ < HintMask.byteLength (m.hintCount ctx) then _ else _) = _
  rw [if_neg (by simp [hlength]), hcount, ← hlength, List.take_left, List.drop_left]

end Machine

end Letterform.Charstring
