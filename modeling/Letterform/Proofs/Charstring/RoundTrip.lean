import Letterform.Proofs.Charstring.Program
import Letterform.Proofs.Number.Double

/-!
# Charstrings that are written come back

A glyph that has been encoded in Type 2 or CFF2 is decoded without diagnostics, and what is decoded
is its outline on the grid of charstring coordinates.
-/

namespace Letterform.Charstring

variable {α : Type} [Scalar α]

/-- The glyph whose contours are written: quadratic curves become cubic ones. -/
def written (g : Glyph α) : Glyph α :=
  if g.hasCurves .quadratic then g.convert .postscript defaultAccuracy else g

variable {ctx : Context α} {options : EncodeOptions α} {g : Glyph α}

theorem hints_written (g : Glyph α) : (written g).hints = g.hints := by
  unfold written
  split_ifs <;> rfl

theorem ofGlyph_written (hcomponents : g.components = []) :
    Accented.ofGlyph (written g) = .ok none := by
  have hw : (written g).components = [] := by
    unfold written
    split_ifs
    · exact hcomponents
    · exact hcomponents
  unfold Accented.ofGlyph
  rw [hw]

theorem instructionsFor_ok (hversion : ctx.version ≠ .type1) {accented : Option (Accented α)}
    {written : List (Instruction α)} (h : instructionsFor ctx options g accented = .ok written) :
    ∃ program, instructions g accented ctx.version options = .ok program ∧
      (written = program ∨ ctx.version = .type2 ∧
        written =
          Instruction.insertWidth (g.advanceWidth - ctx.privateDict.nominalWidthX) program) := by
  unfold instructionsFor at h
  cases hv : ctx.version with
  | type1 => exact absurd hv hversion
  | cff2 =>
    rw [hv] at h
    exact ⟨written, h, .inl rfl⟩
  | type2 =>
    rw [hv] at h
    obtain ⟨program, hprogram, h⟩ := bind_ok.mp h
    refine ⟨program, hprogram, ?_⟩
    split_ifs at h
    · exact .inl (pure_ok.mp h).symm
    · exact .inr ⟨rfl, (pure_ok.mp h).symm⟩

theorem encode_parts {bytes : List UInt8} (h : encode ctx options g = .ok bytes) :
    ∃ accented program, Accented.ofGlyph (written g) = .ok accented ∧
      instructionsFor ctx options (written g) accented = .ok program ∧
      bytes = program.flatMap (·.toBytes ctx.version) := by
  have hencode : encode ctx options g = Accented.ofGlyph (written g) >>= fun accented =>
      instructionsFor ctx options (written g) accented >>= fun program =>
        pure (program.flatMap (·.toBytes ctx.version)) := rfl
  rw [hencode] at h
  obtain ⟨accented, haccented, h⟩ := bind_ok.mp h
  obtain ⟨program, hprogram, hbytes⟩ := bind_ok.mp h
  exact ⟨accented, program, haccented, hprogram, (pure_ok.mp hbytes).symm⟩

theorem encode_ok (hcomponents : g.components = []) {bytes : List UInt8}
    (h : encode ctx options g = .ok bytes) :
    ∃ program, instructionsFor ctx options (written g) none = .ok program ∧
      bytes = program.flatMap (·.toBytes ctx.version) := by
  obtain ⟨accented, program, haccented, hprogram, hbytes⟩ := encode_parts h
  rw [ofGlyph_written hcomponents] at haccented
  cases haccented
  exact ⟨program, hprogram, hbytes⟩

variable [LawfulScalar α] {program : List (Instruction α)} {horizontal vertical : List (List α)}
  {ts : List (Trace α)}

def Machine.result (ctx : Context α) : Outcome α (Machine α × Ending) → Decoded α
  | .ok (m, _) => m.finish ctx
  | .error ⟨m, e⟩ => (m.report e).finish ctx

omit [LawfulScalar α] in
theorem decode_eq (ctx : Context α) (code : List UInt8) :
    decode ctx code = Machine.result ctx ((Machine.start ctx).run ctx callLimit code) := by
  unfold decode Machine.result
  rfl

/-- Decoding goes through a program as if it were known from the start that there is no width. -/
theorem decode_program (hversion : ctx.version ≠ .type1) (h : Begins ctx.version program) :
    decode ctx (program.flatMap (·.toBytes ctx.version)) =
      Machine.result ctx ((Machine.start ctx).settled.run ctx callLimit
        (program.flatMap (·.toBytes ctx.version))) := by
  rw [decode_eq]
  rcases h with ⟨op, operands, rest, rfl, hleads⟩ | ⟨rfl, -⟩
  · rw [List.flatMap_cons, Machine.run_withoutWidth callLimit hversion hleads rfl rfl]
  · rw [List.flatMap_nil, Machine.run, Machine.run]
    rfl

theorem decode_insertWidth (hversion : ctx.version = .type2) (h : Begins ctx.version program)
    (width : α) :
    decode ctx ((Instruction.insertWidth width program).flatMap (·.toBytes ctx.version)) =
      Machine.result ctx (((Machine.start ctx).withWidth ctx
        (Operand.reread ctx.version width)).run ctx callLimit
          (program.flatMap (·.toBytes ctx.version))) := by
  have hnotOne : ctx.version ≠ .type1 := by rw [hversion]; nofun
  rw [decode_eq]
  rcases h with ⟨op, operands, rest, rfl, hleads⟩ | ⟨-, hne⟩
  · rw [Instruction.insertWidth, if_pos hleads.carries, List.flatMap_cons, List.flatMap_cons,
      Machine.run_withWidth callLimit hversion hleads rfl rfl rfl]
  · exact absurd hversion hne

theorem decode_written (hversion : ctx.version ≠ .type1) (h : Begins ctx.version program)
    {written : List (Instruction α)} {width : α} (hcase : written = program ∨
      ctx.version = .type2 ∧ written = Instruction.insertWidth width program) :
    ∃ m : Machine α, m.IsOpening ctx ∧
      decode ctx (written.flatMap (·.toBytes ctx.version)) =
        Machine.result ctx (m.run ctx callLimit (program.flatMap (·.toBytes ctx.version))) := by
  rcases hcase with rfl | ⟨htype2, rfl⟩
  · exact ⟨_, Machine.isOpening_start ctx, decode_program hversion h⟩
  · exact ⟨_, Machine.isOpening_withWidth ctx _, decode_insertWidth htype2 h width⟩

/-- What has been encoded are instructions with the masks of the program of the glyph. Decoding
executes this program. -/
theorem decode_instructions (hversion : ctx.version ≠ .type1) (hcomponents : g.components = [])
    {bytes : List UInt8} (h : encode ctx options g = .ok bytes) :
    ∃ final program horizontal vertical ts, ∃ m : Machine α,
      instructionsFor ctx options (written g) none = .ok final ∧
      bytes = final.flatMap (·.toBytes ctx.version) ∧
      writtenMasks final = writtenMasks program ∧
      Parts ctx.version options (written g) program horizontal vertical ts ∧
      m.IsOpening ctx ∧
      ∀ m' ending, m.run ctx callLimit (program.flatMap (·.toBytes ctx.version)) =
        .ok (m', ending) → decode ctx bytes = m'.finish ctx := by
  obtain ⟨final, hfinal, rfl⟩ := encode_ok hcomponents h
  obtain ⟨program, hprogram, hcase⟩ := instructionsFor_ok hversion hfinal
  obtain ⟨horizontal, vertical, ts, hparts⟩ := instructions_parts hprogram
  obtain ⟨m, hm, hdecode⟩ := decode_written hversion (hparts.begins hversion) hcase
  have hmasks : writtenMasks final = writtenMasks program := by
    rcases hcase with rfl | ⟨-, rfl⟩
    · rfl
    · exact writtenMasks_insertWidth _ program
  refine ⟨final, program, horizontal, vertical, ts, m, hfinal, rfl, hmasks, hparts, hm,
    fun m' ending hrun => ?_⟩
  rw [hdecode, hrun]
  rfl

theorem decode_encoded (hversion : ctx.version ≠ .type1) (hcomponents : g.components = [])
    {bytes : List UInt8} (h : encode ctx options g = .ok bytes) :
    ∃ program horizontal vertical ts, ∃ m : Machine α,
      Parts ctx.version options (written g) program horizontal vertical ts ∧
      m.IsOpening ctx ∧
      ∀ m' ending, m.run ctx callLimit (program.flatMap (·.toBytes ctx.version)) =
        .ok (m', ending) → decode ctx bytes = m'.finish ctx := by
  obtain ⟨-, program, horizontal, vertical, ts, m, -, -, -, h⟩ :=
    decode_instructions hversion hcomponents h
  exact ⟨program, horizontal, vertical, ts, m, h⟩

-- ---------------------------------------------------------------------------
-- Outlines
-- ---------------------------------------------------------------------------

/-- The figures of a glyph that has one figure, unless it is empty. -/
def singleFigure (f : Figure α) : List (Figure α) := if f.isEmpty then [] else [f]

omit [LawfulScalar α] in
theorem figures_finish (m : Machine α) (ctx : Context α) :
    (m.finish ctx).glyph.figures = singleFigure m.builder.finish := rfl

theorem singleFigure_beq {f f' : Figure α} (h : f.Agree True f') :
    (singleFigure f == singleFigure f') = true := by
  have hempty : f.isEmpty = f'.isEmpty := by rw [Figure.isEmpty, Figure.isEmpty, h.contours]
  unfold singleFigure
  rw [hempty]
  split_ifs
  · rfl
  · simp [h.beq]

omit [Scalar α] [LawfulScalar α] in
theorem map_withoutMasks_singleFigure (f : Figure α) :
    (singleFigure f).map Figure.withoutMasks = singleFigure f.withoutMasks := by
  rw [singleFigure, singleFigure, show f.withoutMasks.isEmpty = f.isEmpty from rfl]
  split_ifs <;> rfl

omit [LawfulScalar α] in
theorem exists_addAll_stems (hhints : g.hints.count ≤ StemHints.limit) (m : Machine α)
    {hs vs : List (α × α)} (hh : hs.length = (g.hints.declared .horizontal).length)
    (hv : vs.length = (g.hints.declared .vertical).length) :
    ∃ numbers hints, StemHints.addAll (hs.map (m.stemAt .horizontal) ++
      vs.map (m.stemAt .vertical)) {} = some (numbers, hints) := by
  refine StemHints.isCounting_empty.exists_addAll _ ?_
  rw [List.length_append, List.length_map, List.length_map, hh, hv,
    (g.hints.perm_declared .horizontal).length_eq, (g.hints.perm_declared .vertical).length_eq]
  exact (Nat.zero_add _).trans_le hhints

/-- Masks are written over the stems of the glyph alone. An encoded outline comes back on the grid
if they are as long as masks over these and the stems of the context. -/
theorem decode_encode_of_masksFit (hversion : ctx.version ≠ .type1) (hcomponents : g.components = [])
    (hhints : g.hints.count ≤ StemHints.limit) {bytes : List UInt8}
    (h : encode ctx options g = .ok bytes) (hdense : (written g).IsDense) :
    ∃ program, instructionsFor ctx options (written g) none = .ok program ∧
      bytes = program.flatMap (·.toBytes ctx.version) ∧
      MasksFit g.hints.order.length program ∧
      (MasksFit (ctx.hintCount + g.hints.order.length) program →
        (decode ctx bytes).diagnostics = [] ∧
          ((decode ctx bytes).glyph.figures.map Figure.withoutMasks ==
            (singleFigure ((written g).snapped fun _ => none)).map Figure.withoutMasks) = true) := by
  rw [← hints_written g]
  rw [← hints_written g] at hhints
  obtain ⟨final, program, horizontal, vertical, ts, m, hfinal, hbytes, hmasks, hparts, hm, hdecode⟩ :=
    decode_instructions hversion hcomponents h
  have hsame (stemCount : ℕ) : MasksFit stemCount final ↔ MasksFit stemCount program := by
    rw [MasksFit, MasksFit, hmasks]
  refine ⟨final, hfinal, hbytes, (hsame _).mpr hparts.masksFit, fun hfits => ?_⟩
  obtain ⟨numbers, hints, hadd⟩ := exists_addAll_stems hhints m
    (length_readStems hparts.horizontal_declares) (length_readStems hparts.vertical_declares)
  obtain ⟨m', ending, hrun, hclosing⟩ := Machine.run_parts callLimit hversion hm hparts
    ((hsame _).mp hfits) hdense hadd False (False.elim : False → (fun _ => none) = _)
  rw [hdecode m' ending hrun]
  refine ⟨?_, ?_⟩
  · show m'.diagnostics.toList = []
    rw [hclosing.diagnostics]
  · rw [figures_finish, map_withoutMasks_singleFigure, map_withoutMasks_singleFigure]
    exact singleFigure_beq hclosing.builder.finish.withoutMasks

theorem decode_encode (hversion : ctx.version ≠ .type1) (hcontext : ctx.hintCount = 0)
    (hcomponents : g.components = []) (hcurves : g.hasCurves .quadratic = false)
    (hhints : g.hints.count ≤ StemHints.limit) {bytes : List UInt8}
    (h : encode ctx options g = .ok bytes) (hdense : g.IsDense) :
    (decode ctx bytes).diagnostics = [] ∧
      ((decode ctx bytes).glyph.figures.map Figure.withoutMasks ==
        (singleFigure (g.snapped fun _ => none)).map Figure.withoutMasks) = true := by
  have hwritten : written g = g := by rw [written, hcurves, if_neg Bool.false_ne_true]
  obtain ⟨program, -, -, hfits, hdecode⟩ :=
    decode_encode_of_masksFit hversion hcomponents hhints h (hwritten.symm ▸ hdense)
  rw [hwritten, hcontext, Nat.zero_add] at hdecode
  exact hdecode hfits

-- ---------------------------------------------------------------------------
-- Doubles
-- ---------------------------------------------------------------------------

/-- In doubles, an encoded outline comes back as a pen draws it on the grid. There are never more
stems than `StemHints.limit`, since no more can be added. -/
theorem decode_encode_outline {ctx : Context Float} {options : EncodeOptions Float}
    {g : Glyph Float} (hversion : ctx.version ≠ .type1) (hcontext : ctx.hintCount = 0)
    (hcomponents : g.components = []) (hcurves : g.hasCurves .quadratic = false)
    (hhints : g.hints.count ≤ StemHints.limit) (hdense : g.IsDense) {bytes : List UInt8}
    (h : encode ctx options g = .ok bytes) :
    (decode ctx bytes).diagnostics = [] ∧
      ((decode ctx bytes).glyph.figures.map Figure.withoutMasks ==
        (singleFigure (g.snapped fun _ => none)).map Figure.withoutMasks) = true :=
  decode_encode hversion hcontext hcomponents hcurves hhints h hdense

/-- A closed contour with lines and curves inside of which there is a triangle. -/
def leaf : Figure Float :=
  let b : Builder Float := ({} : Builder Float).moveTo ⟨10, -20⟩
  let b := b.lineTo ⟨300, 0.5⟩
  let b := b.curveTo ⟨320, 100⟩ ⟨250, 200⟩ ⟨160, 200⟩
  let b := (b.curveTo ⟨70, 200⟩ ⟨10, 110⟩ ⟨10, 50⟩).close
  (((b.moveTo ⟨50, 60⟩).lineTo ⟨100, 60⟩).lineTo ⟨75, 90⟩).close.finish

def leafGlyph : Glyph Float :=
  { Glyph.empty .postscript with figures := [leaf], advanceWidth := 333 }

theorem decode_encode_leaf : ∃ bytes, encode ({} : Context Float) default leafGlyph = .ok bytes ∧
    (decode ({} : Context Float) bytes).diagnostics = [] ∧
      ((decode ({} : Context Float) bytes).glyph.figures.map Figure.withoutMasks ==
        (singleFigure (leafGlyph.snapped fun _ => none)).map Figure.withoutMasks) = true := by
  obtain ⟨bytes, h⟩ := exists_ok (show (encode ({} : Context Float) default leafGlyph).toOption.isSome
    = true by decide +kernel)
  exact ⟨bytes, h, decode_encode_outline (by decide) rfl rfl (by decide +kernel) (by decide)
    (by decide +kernel) h⟩

end Letterform.Charstring
