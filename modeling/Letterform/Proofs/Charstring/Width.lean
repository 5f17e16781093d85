import Letterform.Proofs.Charstring.Drawing

/-!
# The width is taken from the first instruction

The first instruction that clears the stack shows by the number of its operands whether the width
stands before them. Once it has been taken the instruction is executed as if there were none.
-/

namespace Letterform.Charstring

variable {α : Type} [Scalar α]

/-- Whether so many operands are more than an operator's own ones. -/
def Operator.hasWidth : Operator → ℕ → Bool
  | .stems _ _, size => size % 2 == 1
  | .rmoveto, size => 2 < size
  | .hmoveto, size | .vmoveto, size => 1 < size
  | .endchar, size => size == 5 || size == 1
  | _, _ => false

/-- An instruction with operands of its own only, which the width may join. -/
structure Operator.Leads (version : Version) (op : Operator) (operands : List α) : Prop where
  carries : op.carriesWidth = true
  known : op.isKnownTo version = true
  room : operands.length < version.stackLimit
  without : op.hasWidth operands.length = false
  withOne : op.hasWidth (operands.length + 1) = true

namespace Machine

variable {ctx : Context α} {m : Machine α} (levels : ℕ)

theorem takeWidth_of_taken (h : m.widthTaken = true) (present : Bool) :
    m.takeWidth ctx present = m := by
  unfold takeWidth
  rw [if_pos h]

theorem takeWidth_false : m.takeWidth ctx false = m.settled := by
  unfold takeWidth
  obtain ⟨calculator, builder, glyph, diagnostics, position, taken⟩ := m
  cases taken with
  | true => rfl
  | false =>
    simp only [Bool.false_eq_true, and_false, if_false]
    split <;> rfl

def withWidth (m : Machine α) (ctx : Context α) (width : α) : Machine α :=
  { m.settled with
    glyph := { m.glyph with advanceWidth := ctx.privateDict.nominalWidthX + width } }

theorem takeWidth_true (hversion : ctx.version = .type2) (hempty : m.stack.values = [])
    (htaken : m.widthTaken = false) (width : α) (operands : List α) :
    (m.load (width :: operands)).takeWidth ctx true = (m.withWidth ctx width).load operands := by
  obtain ⟨⟨⟨values, limit⟩, storage, generator⟩, builder, glyph, diagnostics, position, taken⟩ := m
  obtain rfl : values = [] := hempty
  obtain rfl : taken = false := htaken
  unfold takeWidth
  simp [load, withStack, stack, withWidth, settled, hversion]

theorem takeWidth_taken (present : Bool) : (m.takeWidth ctx present).widthTaken = true := by
  unfold takeWidth
  by_cases h : m.widthTaken = true
  · rw [if_pos h]
    exact h
  · rw [if_neg h]
    dsimp only
    split
    · split <;> rfl
    · rfl

theorem evaluate_takeWidth {op : Operator} (hcarries : op.carriesWidth = true)
    (hplain : op.isPlain = true) :
    (m.takeWidth ctx (op.hasWidth m.stack.size)).evaluate ctx op = m.evaluate ctx op := by
  have htaken (present present' : Bool) : (m.takeWidth ctx present).takeWidth ctx present' =
      m.takeWidth ctx present := takeWidth_of_taken (takeWidth_taken present) present'
  cases op with
  | stems axis masked => simp only [evaluate, Machine.declareStems, htaken, Operator.hasWidth]
  | rmoveto => simp only [evaluate, htaken, Operator.hasWidth]
  | hmoveto => simp only [evaluate, htaken, Operator.hasWidth]
  | vmoveto => simp only [evaluate, htaken, Operator.hasWidth]
  | endchar => cases hplain
  | _ => cases hcarries

theorem endCharacter_takeWidth (hversion : ctx.version = .type2) :
    (m.takeWidth ctx (Operator.endchar.hasWidth m.stack.size)).endCharacter ctx =
      m.endCharacter ctx := by
  have htaken (present present' : Bool) : (m.takeWidth ctx present).takeWidth ctx present' =
      m.takeWidth ctx present := takeWidth_of_taken (takeWidth_taken present) present'
  unfold endCharacter
  rw [if_pos hversion, if_pos hversion, htaken]
  rfl

variable [LawfulScalar α]

theorem run_takeWidth (hversion : ctx.version ≠ .type1) {op : Operator}
    (hcarries : op.carriesWidth = true) (hknown : op.isKnownTo ctx.version = true)
    (operands : List α) {m m' : Machine α}
    (hroom : m.stack.size + operands.length ≤ m.stack.limit) {own : List α}
    (hroom' : m'.stack.size + own.length ≤ m'.stack.limit)
    (h : (m.load (operands.map (Operand.reread ctx.version))).takeWidth ctx
        (op.hasWidth (m.load (operands.map (Operand.reread ctx.version))).stack.size) =
      (m'.load (own.map (Operand.reread ctx.version))).takeWidth ctx
        (op.hasWidth (m'.load (own.map (Operand.reread ctx.version))).stack.size))
    (tail : List UInt8) :
    m.run ctx levels ((Instruction.operation op operands).toBytes ctx.version ++ tail) =
      m'.run ctx levels ((Instruction.operation op own).toBytes ctx.version ++ tail) := by
  cases hplain : op.isPlain with
  | true =>
    rw [run_operation ctx levels hknown hplain operands tail m hroom,
      run_operation ctx levels hknown hplain own tail m' hroom',
      ← evaluate_takeWidth hcarries hplain, h, evaluate_takeWidth hcarries hplain]
  | false =>
    obtain rfl : op = .endchar := by
      cases op with
      | endchar => rfl
      | mask => cases hcarries
      | call => cases hcarries
      | ret => cases hcarries
      | _ => cases hplain
    have hcff2 : ctx.version ≠ .cff2 := by simpa [Operator.isKnownTo] using hknown
    have htype2 : ctx.version = .type2 := by
      generalize ctx.version = version at hversion hcff2
      cases version with
      | type2 => rfl
      | type1 => exact absurd rfl hversion
      | cff2 => exact absurd rfl hcff2
    rw [Instruction.toBytes, Instruction.toBytes, List.append_assoc, List.append_assoc,
      run_operands ctx levels operands _ m hroom, run_operands ctx levels own _ m' hroom',
      run_endchar ctx levels hcff2, run_endchar ctx levels hcff2, ← endCharacter_takeWidth htype2,
      h, endCharacter_takeWidth htype2]

omit [Scalar α] [LawfulScalar α] in
theorem size_load (hempty : m.stack.values = []) (operands : List α) :
    (m.load operands).stack.size = operands.length := by
  simp [load, stack, withStack, Stack.size, show m.calculator.stack.values = [] from hempty]

omit [Scalar α] [LawfulScalar α] in
theorem room_of_leads {op : Operator} {operands : List α} (h : op.Leads ctx.version operands)
    (hempty : m.stack.values = []) (hlimit : m.stack.limit = ctx.version.stackLimit) :
    m.stack.size + operands.length < m.stack.limit := by
  have := h.room
  rw [Stack.size, hempty, hlimit, List.length_nil]
  omega

theorem run_withoutWidth (hversion : ctx.version ≠ .type1) {op : Operator} {operands : List α}
    (h : op.Leads ctx.version operands) (hempty : m.stack.values = [])
    (hlimit : m.stack.limit = ctx.version.stackLimit) (tail : List UInt8) :
    m.run ctx levels ((Instruction.operation op operands).toBytes ctx.version ++ tail) =
      m.settled.run ctx levels ((Instruction.operation op operands).toBytes ctx.version ++ tail) := by
  have hroom := (room_of_leads h hempty hlimit).le
  have hroom' : m.settled.stack.size + operands.length ≤ m.settled.stack.limit := hroom
  refine run_takeWidth levels hversion h.carries h.known operands hroom hroom' ?_ tail
  rw [size_load hempty, size_load (m := m.settled) hempty, List.length_map, h.without,
    takeWidth_false, takeWidth_false]
  rfl

theorem run_withWidth (hversion : ctx.version = .type2) {op : Operator} {operands : List α}
    (h : op.Leads ctx.version operands) (hempty : m.stack.values = [])
    (hlimit : m.stack.limit = ctx.version.stackLimit) (htaken : m.widthTaken = false) (width : α)
    (tail : List UInt8) :
    m.run ctx levels ((Instruction.operation op (width :: operands)).toBytes ctx.version ++ tail) =
      (m.withWidth ctx (Operand.reread ctx.version width)).run ctx levels
        ((Instruction.operation op operands).toBytes ctx.version ++ tail) := by
  have hroom := room_of_leads h hempty hlimit
  have hnotOne : ctx.version ≠ .type1 := by rw [hversion]; nofun
  have hroom' : (m.withWidth ctx (Operand.reread ctx.version width)).stack.size +
      operands.length ≤ (m.withWidth ctx (Operand.reread ctx.version width)).stack.limit := hroom.le
  have hempty' : (m.withWidth ctx (Operand.reread ctx.version width)).stack.values = [] := hempty
  refine run_takeWidth levels hnotOne h.carries h.known (width :: operands) hroom hroom' ?_ tail
  rw [size_load hempty, size_load hempty', List.length_map, List.length_map, List.length_cons,
    h.withOne, h.without, List.map_cons, takeWidth_true hversion hempty htaken,
    takeWidth_of_taken rfl]

end Machine

end Letterform.Charstring
