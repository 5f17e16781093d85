import Letterform.Proofs.Charstring.AdvanceWidth
import Letterform.Proofs.Charstring.Stability

/-!
# The advance width comes back

A charstring of Type 2 begins with its width or is that of a glyph with the default width. The
width stands in front of the operands of the first instruction, which may declare stems, move, or
end the charstring, and whichever it is, takes the width away and finds its own operands.
-/

namespace Letterform.Charstring

open Scalar (IsFixed)

variable {α : Type} [Scalar α] {ctx ctx' : Context α} {options : EncodeOptions α} {g : Glyph α}
  {program : List (Instruction α)}

-- ---------------------------------------------------------------------------
-- Writing
-- ---------------------------------------------------------------------------

theorem advanceWidth_written (g : Glyph α) : (written g).advanceWidth = g.advanceWidth := by
  unfold written
  split_ifs <;> rfl

theorem written_withAdvance (g : Glyph α) (width : α) :
    written { g with advanceWidth := width } = { written g with advanceWidth := width } := by
  have hcurves : Glyph.hasCurves { g with advanceWidth := width } .quadratic =
      g.hasCurves .quadratic := rfl
  unfold written
  rw [hcurves]
  split_ifs <;> rfl

/-- The program of any glyph in Type 2 begins with an instruction that can carry the width. -/
theorem begins_instructions {accented : Option (Accented α)}
    (h : instructions g accented .type2 options = .ok program) : Begins .type2 program := by
  obtain ⟨horizontal, vertical, ts, ending, hh, hv, -, rfl, hending⟩ := instructions_ok h
  rw [List.append_assoc]
  obtain hbegins | ⟨rfl, rfl, hnone⟩ := begins_declarations (by nofun) hh hv _
  · exact hbegins
  rw [counterInstructions, hnone]
  rcases ts with _ | ⟨t, ts⟩
  · cases accented with
    | none =>
      obtain rfl : ending = endInstructions .type2 := hending
      exact .inl ⟨.endchar, [], [], rfl, rfl, rfl, by simp [Version.stackLimit], rfl, rfl⟩
    | some accented =>
      obtain ⟨operands, hoperands, rfl⟩ := hending
      obtain ⟨dx, dy, -, -, rfl⟩ := Accented.operands_ok hoperands
      exact .inl ⟨.endchar, _, [], rfl, rfl, rfl, by simp [Version.stackLimit], rfl, rfl⟩
  · obtain ⟨op, operands, hmove, hleads⟩ := move_leads .type2 default t.start
    rw [contours_cons, hmove]
    exact .inl ⟨op, operands, _, rfl, hleads⟩

theorem toBytes_withWidth (h : Begins .type2 program) (width : Option α) :
    (Instruction.withWidth width program).flatMap (·.toBytes .type2) =
      width.elim [] (Operand.write .type2) ++ program.flatMap (·.toBytes .type2) := by
  cases width with
  | none => rfl
  | some width =>
    rcases h with ⟨op, operands, rest, rfl, hleads⟩ | ⟨-, hne⟩
    · show (Instruction.insertWidth width _).flatMap _ = _
      rw [Instruction.insertWidth, if_pos hleads.carries]
      simp [Instruction.toBytes]
    · exact absurd rfl hne

/-- What is written of a glyph is its width, if it is not the default one, and what is written of
the glyph with the default width. -/
theorem encode_width (hversion : ctx.version = .type2)
    (hdefault : (ctx.privateDict.defaultWidthX == ctx.privateDict.defaultWidthX) = true)
    {bytes : List UInt8} (h : encode ctx options g = .ok bytes) :
    ∃ program, Begins .type2 program ∧
      encode ctx options { g with advanceWidth := ctx.privateDict.defaultWidthX } =
        .ok (program.flatMap (·.toBytes .type2)) ∧
      bytes = (Instruction.withWidth (widthOperand ctx g) program).flatMap (·.toBytes .type2) := by
  have hnotOne : ctx.version ≠ .type1 := by rw [hversion]; nofun
  have hoperand : widthOperand ctx (written g) = widthOperand ctx g := by
    rw [widthOperand, widthOperand, advanceWidth_written]
  have hnone : widthOperand ctx
      { written g with advanceWidth := ctx.privateDict.defaultWidthX } = none := by
    rw [widthOperand, if_pos hversion, if_pos hdefault]
  rw [encode_bind hnotOne, bind_ok] at h
  obtain ⟨accented, haccented, h⟩ := h
  rw [bind_ok] at h
  obtain ⟨program, hprogram, h⟩ := h
  rw [encode_bind hnotOne, written_withAdvance, hnone]
  rw [hversion] at hprogram h ⊢
  refine ⟨program, begins_instructions hprogram, ?_, ?_⟩
  · refine bind_ok.mpr ⟨accented, haccented, bind_ok.mpr ⟨program, hprogram, rfl⟩⟩
  · rw [← pure_ok.mp h, hoperand]

example : widthOperand ({ privateDict := ⟨[(.nominalWidthX, .number 600.25)]⟩ } : Context Float)
    { Glyph.empty .postscript with advanceWidth := 444 } = some (-156.25) := by decide +kernel

variable [LawfulScalar α]

-- ---------------------------------------------------------------------------
-- Reading
-- ---------------------------------------------------------------------------

theorem decode_withWidth_eq (hversion : ctx.version = .type2) (h : Begins .type2 program)
    (width : Option α) :
    decode ctx ((Instruction.withWidth width program).flatMap (·.toBytes .type2)) =
      (decode ctx (program.flatMap (·.toBytes .type2))).withAdvance
        (width.elim ctx.privateDict.defaultWidthX
          (ctx.privateDict.nominalWidthX + Operand.reread .type2 ·)) := by
  have hnotOne : ctx.version ≠ .type1 := by rw [hversion]; nofun
  have hbegins : Begins ctx.version program := hversion ▸ h
  have hplain := decode_program hnotOne hbegins
  have hstart : (Machine.start ctx).glyph.advanceWidth = ctx.privateDict.defaultWidthX := by
    simp [Machine.start, hversion]
  have halike (w : α) : (Machine.start ctx).settled.AlikeButWidth w
      ((Machine.start ctx).settled.withAdvance w) := ⟨rfl, rfl⟩
  rw [← hversion, hplain, ← (halike _).result_run hversion]
  cases width with
  | none =>
    have hsame : (Machine.start ctx).settled.withAdvance ctx.privateDict.defaultWidthX =
        (Machine.start ctx).settled := by
      rw [← hstart]
      rfl
    rw [Option.elim_none, hsame]
    exact hplain
  | some width => exact decode_insertWidth hversion hbegins width

/-- The width that is written comes back if its difference from the nominal width is in range. -/
theorem beq_reread_width {a d n : ℤ} (ha : IsFixed g.advanceWidth a)
    (hd : IsFixed ctx.privateDict.defaultWidthX d) (hn : IsFixed ctx.privateDict.nominalWidthX n)
    (hbound : |a| < 2 ^ 47 ∧ |n| < 2 ^ 47) (hrange : a = d ∨ -2 ^ 31 ≤ a - n ∧ a - n < 2 ^ 31)
    (hversion : ctx.version = .type2) :
    ((widthOperand ctx g).elim ctx.privateDict.defaultWidthX
      (ctx.privateDict.nominalWidthX + Operand.reread .type2 ·) == g.advanceWidth) = true := by
  obtain ⟨halt, hnlt⟩ := hbound
  rw [abs_lt] at halt hnlt
  rw [widthOperand, if_pos hversion]
  split_ifs with hdefault
  · rw [Option.elim_none]
    exact (hd.beq_iff ha).mpr ((ha.beq_iff hd).mp hdefault).symm
  · obtain ⟨hlow, hhigh⟩ := hrange.resolve_left fun heq => hdefault ((ha.beq_iff hd).mpr heq)
    have hdiff := ha.sub hn (by rw [abs_lt]; omega)
    have htype2 : Version.type2 ≠ .type1 := by decide
    have hreread := Operand.isFixed_reread htype2 hdiff hlow hhigh
    have hsum := hn.add hreread (by rw [abs_lt]; omega)
    rw [add_sub_cancel] at hsum
    rw [Option.elim_some]
    exact (hsum.beq_iff ha).mpr rfl

/-- In Type 2 the advance width comes back, if it is the default one or in range. What is written is
the width, if it is not the default one, before what is written of the glyph with the default width;
and what is read is the same as without the width but for the advance width. -/
theorem decode_encode_width {ctx ctx' : Context Float} {options : EncodeOptions Float}
    {g : Glyph Float} (hversion : ctx.version = .type2) (hversion' : ctx'.version = .type2)
    (hdict : ctx'.privateDict = ctx.privateDict) {a d n : ℤ} (ha : IsFixed g.advanceWidth a)
    (hd : IsFixed ctx.privateDict.defaultWidthX d) (hn : IsFixed ctx.privateDict.nominalWidthX n)
    (hbound : |a| < 2 ^ 47 ∧ |n| < 2 ^ 47) (hrange : a = d ∨ -2 ^ 31 ≤ a - n ∧ a - n < 2 ^ 31)
    {bytes : List UInt8} (h : encode ctx options g = .ok bytes) :
    ((decode ctx' bytes).glyph.advanceWidth == g.advanceWidth) = true ∧
      ∃ plain,
        encode ctx options { g with advanceWidth := ctx.privateDict.defaultWidthX } = .ok plain ∧
        bytes = (if g.advanceWidth == ctx.privateDict.defaultWidthX then []
          else Operand.write .type2 (g.advanceWidth - ctx.privateDict.nominalWidthX)) ++ plain ∧
        (decode ctx' plain).glyph.advanceWidth = ctx.privateDict.defaultWidthX ∧
        decode ctx' bytes =
          (decode ctx' plain).withAdvance (decode ctx' bytes).glyph.advanceWidth := by
  obtain ⟨program, hbegins, hplain, rfl⟩ :=
    encode_width hversion ((hd.beq_iff hd).mpr rfl) h
  have hoperand : widthOperand ctx' g = widthOperand ctx g := by
    rw [widthOperand, widthOperand, hversion, hversion', hdict]
  have hdecode := decode_withWidth_eq hversion' hbegins (widthOperand ctx g)
  have hnone := decode_withWidth_eq hversion' hbegins none
  refine ⟨?_, _, hplain, ?_, ?_, ?_⟩
  · rw [hdecode, ← hoperand]
    exact beq_reread_width ha (hdict ▸ hd) (hdict ▸ hn) hbound hrange hversion'
  · rw [toBytes_withWidth hbegins, widthOperand, if_pos hversion]
    split_ifs <;> rfl
  · rw [← hdict]
    exact congrArg (·.glyph.advanceWidth) hnone
  · rw [hdecode]
    rfl

/-- A dictionary with a default width and a nominal width. -/
def widthContext : Context Float :=
  { privateDict := ⟨[(.defaultWidthX, .number 500), (.nominalWidthX, .number 600.25)]⟩ }

theorem decode_encode_width_aacute :
    ∃ bytes, encode widthContext default aacute = .ok bytes ∧
      ((decode widthContext bytes).glyph.advanceWidth == 444) = true := by
  obtain ⟨bytes, h⟩ := exists_ok (show (encode widthContext default aacute).toOption.isSome = true
    by decide +kernel)
  have hfixed {a : Float} {n : ℤ} (hbeq : (a == Scalar.ofFixed n) = true) (hn : |n| < 2 ^ 53) :
      IsFixed a n := LawfulScalar.denotes_of_beq hbeq (Scalar.isFixed_ofFixed hn)
  have hadvance : IsFixed aacute.advanceWidth (65536 * 444) :=
    hfixed (by decide +kernel) (by norm_num)
  have hdefault : IsFixed widthContext.privateDict.defaultWidthX (65536 * 500) :=
    hfixed (by decide +kernel) (by norm_num)
  have hnominal : IsFixed widthContext.privateDict.nominalWidthX (65536 * 600 + 16384) :=
    hfixed (by decide +kernel) (by norm_num)
  exact ⟨bytes, h, (decode_encode_width rfl rfl rfl hadvance hdefault hnominal (by norm_num)
    (by norm_num) h).1⟩

end Letterform.Charstring
