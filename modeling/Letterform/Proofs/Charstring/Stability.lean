import Letterform.Proofs.Charstring.Plotting
import Letterform.Proofs.Charstring.Rewriting

/-!
# Writing again what has been written

A charstring of Type 2 or CFF2 is decoded and written, and what has been written is decoded and
written again. The second time the bytes are the same, with two exceptions: a contour that comes
back to its start by a line, or brings a mask there, loses this end once more, and a width between
the numbers of 16.16 is rounded.
-/

namespace Letterform.Charstring

open Double (IsGridded StandsFor)
open Scalar (OnGrid)

-- ---------------------------------------------------------------------------
-- Glyphs that are decoded
-- ---------------------------------------------------------------------------

/-- A glyph as charstrings of Type 2 and CFF2 give it. -/
structure IsDecoded (g : Glyph Float) : Prop where
  figures : ∃ b : Builder Float, b.IsPlotted ∧ g.figures = singleFigure b.finish
  hints : g.hints.IsPlotted

theorem isDecoded_decode {ctx : Context Float} (hversion : ctx.version ≠ .type1)
    (code : List UInt8) : IsDecoded (decode ctx code).glyph := by
  obtain ⟨m, hm, heq⟩ := Machine.exists_isPlotted_decode hversion code
  rw [heq]
  exact ⟨⟨m.builder, hm.builder, figures_finish m ctx⟩, hm.hints⟩

variable {g g' : Glyph Float}

theorem IsDecoded.isPlotted (h : IsDecoded g) : g.IsPlotted := by
  obtain ⟨b, hb, hfigures⟩ := h.figures
  intro f hf
  rw [hfigures, singleFigure] at hf
  split_ifs at hf
  · cases hf
  · obtain rfl := List.mem_singleton.mp hf
    exact ⟨hb.finish,
      (Builder.isSound_of_none (Builder.path_endContour false)).mp (hb.sound.endContour false)⟩

theorem IsDecoded.written_eq (h : IsDecoded g) : written g = g := by
  obtain ⟨b, hb, hfigures⟩ := h.figures
  have horder : b.finish.HasOrder .cubic := (hb.cubic.endContour false).figure
  have hcurves : g.hasCurves .quadratic = false := by
    rw [Glyph.hasCurves, hfigures, singleFigure]
    split_ifs
    · rfl
    · rw [List.any_cons, horder.hasCurves (by decide)]
      rfl
  rw [written, hcurves, if_neg Bool.false_ne_true]

theorem traces_of_agree {f f₀ : Figure Float} (hfigures : g.figures = singleFigure f)
    (hg : g.IsPlotted) (h : f.Agree True f₀) (hf₀ : f₀.IsPlotted) :
    g.traces = f₀.contours.toList.map f₀.trace := by
  unfold Glyph.IsPlotted at hg
  unfold Glyph.traces Glyph.contours
  rw [hfigures, singleFigure] at hg ⊢
  split_ifs at hg ⊢ with hempty
  · have hnone : f₀.contours.toList = [] := by
      rw [← h.contours, Array.toList_eq_nil_iff]
      exact Array.isEmpty_iff.mp hempty
    rw [hnone]
    rfl
  · obtain rfl := h.eq (hg f (List.mem_singleton_self f)).1 hf₀
    rw [List.flatMap_singleton, List.map_map]
    rfl

-- ---------------------------------------------------------------------------
-- Stems
-- ---------------------------------------------------------------------------

section Stems

variable {version : Version}

theorem finite_of_coordinate (hversion : version ≠ .type1) {a b : Float} {q : ℚ}
    (h : coordinate version a = .ok b) (hb : StandsFor b q) : ∃ p, StandsFor a p := by
  have hlimit : StandsFor coordinateLimit ((65536 * 32767 : ℤ) / 65536) :=
    isFixed_coordinateLimit (α := Float)
  obtain ⟨rfl, hle⟩ := coordinate_ok hversion h
  have hself : (Scalar.snap a == Scalar.snap a) = true := (Double.beq_iff hb hb).mpr rfl
  rcases Double.snap_cases (LawfulScalar.beq_self_of_snap hself) with ⟨p, hp, -⟩ | hfar
  · exact ⟨p, hp⟩
  · exact absurd (hfar _ _ hlimit) hle

theorem onGrid_of_finite {a : Float} (ha : IsGridded a) {q : ℚ} (hq : StandsFor a q) :
    OnGrid a := by
  obtain ⟨k, rfl⟩ := ha q hq
  exact ⟨k, Scalar.isFixed_of_grid hq⟩

theorem onGrid_of_stemOperands (hversion : version ≠ .type1) {edge : Float}
    {stems : List (Stem Float)} {operands : List Float}
    (h : stemOperands version 0 edge stems = .ok operands)
    (hfinite : ∀ a ∈ operands, ∃ q, StandsFor a q)
    (hgridded : ∀ s ∈ stems, IsGridded s.start ∧ IsGridded s.width) :
    ∀ s ∈ stems, OnGrid s.start ∧ OnGrid s.width := by
  induction stems generalizing edge operands with
  | nil => exact nofun
  | cons s stems ih =>
    obtain ⟨start, hstart, h⟩ := bind_ok.mp h
    obtain ⟨width, hwidth, h⟩ := bind_ok.mp h
    obtain ⟨rest, hrest, h⟩ := bind_ok.mp h
    cases h
    obtain ⟨⟨hs, hw⟩, hgridded⟩ := List.forall_mem_cons.mp hgridded
    obtain ⟨⟨_, hdelta⟩, hfinite⟩ := List.forall_mem_cons.mp hfinite
    obtain ⟨⟨_, hsecond⟩, hfinite⟩ := List.forall_mem_cons.mp hfinite
    obtain ⟨⟨_, hfirst⟩, -⟩ := Double.finite_of_sub hdelta
    obtain ⟨_, hbefore⟩ := finite_of_coordinate hversion hstart hfirst
    obtain ⟨⟨_, hstart⟩, -⟩ := Double.finite_of_sub hbefore
    obtain ⟨_, hwidth⟩ := finite_of_coordinate hversion hwidth hsecond
    exact List.forall_mem_cons.mpr ⟨⟨onGrid_of_finite hs hstart, onGrid_of_finite hw hwidth⟩,
      ih hrest hfinite hgridded⟩

theorem Declares.onGrid (hversion : version ≠ .type1) {stems : List (Stem Float)}
    {runs : List (List Float)} (h : Declares version stems runs)
    (hfinite : ∀ operands ∈ runs, ∀ a ∈ operands, ∃ q, StandsFor a q)
    (hgridded : ∀ s ∈ stems, IsGridded s.start ∧ IsGridded s.width) :
    ∀ s ∈ stems, OnGrid s.start ∧ OnGrid s.width := by
  have hlimit := version.le_stackLimit
  have hflatten := flatten_pieces (show 0 < (version.stackLimit - 1) / 2 by omega) stems
  intro s hs
  rw [← hflatten] at hs hgridded
  obtain ⟨piece, hpiece, hs⟩ := List.mem_flatten.mp hs
  obtain ⟨operands, hmem, hoperands⟩ := exists_of_forall₂ h.operands.flip hpiece
  exact onGrid_of_stemOperands hversion hoperands (hfinite operands hmem)
    (fun t ht => hgridded t (List.mem_flatten.mpr ⟨piece, hpiece, ht⟩)) s hs

theorem Parts.onGrid (hversion : version ≠ .type1) {options : EncodeOptions Float}
    {program : List (Instruction Float)} {horizontal vertical : List (List Float)}
    {ts : List (Trace Float)} (h : Parts version options g program horizontal vertical ts)
    (hplotted : g.hints.IsPlotted) (hdense : g.hints.IsDense version) (axis : Axis) :
    ∀ s ∈ g.hints.onAxis axis, OnGrid s.start ∧ OnGrid s.width := by
  intro s hs
  have hgridded : ∀ s ∈ g.hints.declared axis, IsGridded s.start ∧ IsGridded s.width :=
    fun s hs => hplotted.gridded axis s ((g.hints.perm_declared axis).mem_iff.mp hs)
  rw [← (g.hints.perm_declared axis).mem_iff] at hs
  have hlimit := isFixed_operandLimit (α := Float)
  cases axis with
  | horizontal =>
    have hsmall := h.horizontal_declares.operands_lt (hdense .horizontal)
    exact h.horizontal_declares.onGrid hversion
      (fun operands hmem a ha => Double.finite_of_abs_lt hlimit (hsmall operands hmem a ha))
      hgridded s hs
  | vertical =>
    have hsmall := h.vertical_declares.operands_lt (hdense .vertical)
    exact h.vertical_declares.onGrid hversion
      (fun operands hmem a ha => Double.finite_of_abs_lt hlimit (hsmall operands hmem a ha))
      hgridded s hs

end Stems

-- ---------------------------------------------------------------------------
-- Outlines
-- ---------------------------------------------------------------------------

/-- Every contour that comes back to its start does so by a curve, with no mask over stems there,
unless a stroke of its own closes it. -/
def ReturnsByCurves (g : Glyph Float) : Prop :=
  ∀ fc ∈ g.contours, ∀ s ∈ (fc.1.strokes fc.2).getLast?, s.isClosing = false →
    (fc.1.knot fc.2.first).anchor.isClose s.stop.anchor = true →
      s.isLine = false ∧ (g.hints.isEmpty = true ∨ s.stop.mask = none)

instance (g : Glyph Float) : Decidable (ReturnsByCurves g) :=
  inferInstanceAs (Decidable (∀ fc ∈ g.contours, ∀ s ∈ (fc.1.strokes fc.2).getLast?,
    s.isClosing = false → (fc.1.knot fc.2.first).anchor.isClose s.stop.anchor = true →
      s.isLine = false ∧ (g.hints.isEmpty = true ∨ s.stop.mask = none)))

theorem readMasks_of_isEmpty (h : g.hints.isEmpty = true) : readMasks g = fun _ => none := by
  rw [← g.hints.isEmpty_order, List.isEmpty_iff] at h
  exact readMasks_of_none (maskNumbers_eq_none h)

theorem ReturnsByCurves.isDrawable (hreturns : ReturnsByCurves g) (hg : g.IsPlotted) :
    ∀ t ∈ g.traces.map (Trace.conveyed (readMasks g)), t.IsDrawable := by
  intro t ht
  obtain ⟨_, htraces, rfl⟩ := List.mem_map.mp ht
  obtain ⟨⟨f, c⟩, hfc, rfl⟩ := List.mem_map.mp htraces
  obtain ⟨hf, hc⟩ := hg.contour hfc
  refine hc.isDrawable_conveyed hf fun s hs hclosing hclose => ?_
  obtain ⟨hline, hmask⟩ := hreturns _ hfc s hs hclosing hclose
  refine ⟨hline, ?_⟩
  rcases hmask with hempty | hnone
  · rw [readMasks_of_isEmpty hempty]
    cases s.stop.mask <;> rfl
  · rw [hnone]
    rfl

-- ---------------------------------------------------------------------------
-- Decoding
-- ---------------------------------------------------------------------------

section Decoding

variable {ctx : Context Float} {options : EncodeOptions Float} {program : List (Instruction Float)}
  {horizontal vertical : List (List Float)} {bytes : List UInt8}

theorem conveyed_eq_readMasks {α : Type} [Scalar α] {ctx : Context α} {g : Glyph α}
    {m : Machine α} (hcontext : ctx.hintCount = 0)
    (hdeclared : m.declared = Array.range g.hints.order.length) :
    m.conveyed ctx (maskNumbers g) = readMasks g := by
  funext mask
  unfold Machine.conveyed readMasks
  cases hnumbers : maskNumbers g with
  | none => rfl
  | some numbers =>
    obtain rfl := eq_order_of_maskNumbers hnumbers
    exact congrArg some (Machine.readMask_eq hcontext hdeclared mask)

theorem filterMap_conveyed {α : Type} (ctx : Context α) (m : Machine α)
    (declared : Option (List ℕ)) (masks : List HintMask) :
    masks.filterMap (m.conveyed ctx declared) =
      declared.elim [] fun numbers => masks.map (m.readMask ctx numbers) := by
  cases declared with
  | none => exact List.filterMap_none masks
  | some numbers => exact congrFun List.filterMap_eq_map' masks

theorem Machine.IsClosing.traces_finish (hversion : ctx.version ≠ .type1) (hg : IsDecoded g)
    (hdense : g.IsDense) (hreturns : ReturnsByCurves g)
    (htraces : traces ctx.version g = .ok g.traces) {numbers : List ℕ} {m : Machine Float}
    (h : m.IsClosing True g (readMasks g) numbers g') (hm : (m.finish ctx).glyph.IsPlotted) :
    (m.finish ctx).glyph.traces = g.traces.map (Trace.conveyed (readMasks g)) := by
  have horigin : (default : Point Float).Agree default := ⟨Scalar.agree_zero, Scalar.agree_zero⟩
  obtain ⟨-, hdraws⟩ := traces_follow hversion htraces horigin hdense
  -- The figure agrees with the one that is drawn from the traces, and both of them are plotted.
  have hbuilder := h.builder
  rw [← hdraws, ← funext₂ (Trace.draw_conveyed (readMasks g)), ← List.foldl_map] at hbuilder
  have hpoints : ∀ t ∈ g.traces.map (Trace.conveyed (readMasks g)), ∀ p ∈ t.points,
      p.IsPlotted := by
    rw [List.forall_mem_map]
    intro t ht
    rw [Trace.points_conveyed]
    exact hg.isPlotted.points t ht
  rw [traces_of_agree (figures_finish m ctx) hm hbuilder.finish
    (Builder.IsPlotted.empty.foldl_drawTrace hpoints).finish]
  exact (Builder.traces_finish (hreturns.isDrawable hg.isPlotted)).2

theorem reads_decode (hversion : ctx.version ≠ .type1) (hcontext : ctx.hintCount = 0)
    (hg : IsDecoded g) (hdense : g.IsDense) (hhints : g.hints.IsDense ctx.version)
    (hreturns : ReturnsByCurves g)
    (hparts : Parts ctx.version options g program horizontal vertical g.traces)
    {m : Machine Float} (hm : m.IsOpening ctx)
    (hdecode : decode ctx bytes =
      Machine.result ctx (m.run ctx callLimit (program.flatMap (·.toBytes ctx.version)))) :
    (decode ctx bytes).diagnostics = [] ∧ Reads g (decode ctx bytes).glyph ∧
      (decode ctx bytes).glyph.components = [] ∧
      (decode ctx bytes).glyph.advanceWidth = m.glyph.advanceWidth := by
  obtain ⟨stems, numbers, hadded⟩ := hg.hints.added
  obtain ⟨hints, hadd, -, hagrees⟩ := hparts.addAll_readStems hversion hadded
    (hparts.onGrid hversion hg.hints hhints) hhints hm.origin
  have hmasks : (m.declare (List.range g.hints.count) hints).conveyed ctx (maskNumbers g) =
      readMasks g := by
    refine conveyed_eq_readMasks hcontext ?_
    rw [(hm.declare hadd).1, StemHints.length_order, List.toArray_range]
  obtain ⟨m', ending, hrun, hclosing⟩ := Machine.run_parts callLimit hversion hm hparts
    (by rw [hcontext, Nat.zero_add]; exact hparts.masksFit) hdense hadd True fun _ => hmasks.symm
  rw [← filterMap_conveyed, hmasks, hm.counterMasks, List.nil_append] at hclosing
  have hdecoded := isDecoded_decode hversion bytes
  replace hdecode : decode ctx bytes = m'.finish ctx := by
    rw [hdecode, hrun]
    rfl
  rw [hdecode] at hdecoded ⊢
  refine ⟨?_, ⟨?_, ?_, ?_⟩, ?_, ?_⟩
  · show m'.diagnostics.toList = []
    rw [hclosing.diagnostics]
  · show ∀ axis, List.Forall₂ _ (m'.glyph.hints.onAxis axis) _
    rw [hclosing.glyph]
    exact hagrees
  · show m'.glyph.counterMasks = _
    rw [hclosing.glyph]
  · exact hclosing.traces_finish hversion hg hdense hreturns hparts.traces_ok hdecoded.isPlotted
  · show m'.glyph.components = []
    rw [hclosing.glyph]
    exact hm.components
  · show m'.glyph.advanceWidth = _
    rw [hclosing.glyph]

end Decoding

-- ---------------------------------------------------------------------------
-- Widths
-- ---------------------------------------------------------------------------

section Widths

variable {α : Type} [Scalar α] {ctx : Context α} {options : EncodeOptions α} {g : Glyph α}
  {program : List (Instruction α)}

/-- The width as it is written before a program: Type 2 has it unless it is the default one. -/
def widthOperand (ctx : Context α) (g : Glyph α) : Option α :=
  if ctx.version = .type2 then
    if g.advanceWidth == ctx.privateDict.defaultWidthX then none
    else some (g.advanceWidth - ctx.privateDict.nominalWidthX)
  else none

def Instruction.withWidth (width : Option α) (program : List (Instruction α)) :
    List (Instruction α) :=
  width.elim program (insertWidth · program)

theorem Instruction.alike_withWidth {version : Version} (width : Option α)
    {program program' : List (Instruction α)}
    (h : List.Forall₂ (Instruction.Alike version) program program') :
    List.Forall₂ (Instruction.Alike version) (withWidth width program)
      (withWidth width program') := by
  cases width with
  | none => exact h
  | some width => exact alike_insertWidth width h

theorem encode_bind (hversion : ctx.version ≠ .type1) :
    encode ctx options g = Accented.ofGlyph (written g) >>= fun accented =>
      instructions (written g) accented ctx.version options >>= fun program =>
        pure ((Instruction.withWidth (widthOperand ctx (written g)) program).flatMap
          (·.toBytes ctx.version)) := by
  have hencode : encode ctx options g = Accented.ofGlyph (written g) >>= fun accented =>
      instructionsFor ctx options (written g) accented >>= fun program =>
        pure (program.flatMap (·.toBytes ctx.version)) := rfl
  rw [hencode]
  refine bind_congr fun accented => ?_
  unfold instructionsFor widthOperand
  cases hv : ctx.version with
  | type1 => exact absurd hv hversion
  | cff2 => rfl
  | type2 =>
    dsimp only
    rw [if_pos rfl, bind_assoc]
    refine bind_congr fun program => ?_
    split_ifs <;> rfl

theorem encode_eq (hversion : ctx.version ≠ .type1) (hcomponents : g.components = []) :
    encode ctx options g = instructions (written g) none ctx.version options >>= fun program =>
      pure ((Instruction.withWidth (widthOperand ctx (written g)) program).flatMap
        (·.toBytes ctx.version)) := by
  rw [encode_bind hversion, ofGlyph_written hcomponents]
  rfl

variable [LawfulScalar α]

theorem decode_withWidth (hversion : ctx.version ≠ .type1) (h : Begins ctx.version program)
    (g : Glyph α) :
    ∃ m : Machine α, m.IsOpening ctx ∧
      m.glyph.advanceWidth = (widthOperand ctx g).elim (Machine.start ctx).glyph.advanceWidth
        (ctx.privateDict.nominalWidthX + Operand.reread ctx.version ·) ∧
      decode ctx ((Instruction.withWidth (widthOperand ctx g) program).flatMap
        (·.toBytes ctx.version)) =
          Machine.result ctx (m.run ctx callLimit (program.flatMap (·.toBytes ctx.version))) := by
  have hplain := decode_program hversion h
  unfold widthOperand
  split_ifs with htype2
  · exact ⟨_, Machine.isOpening_start ctx, rfl, hplain⟩
  · exact ⟨_, Machine.isOpening_withWidth ctx _, rfl, decode_insertWidth htype2 h _⟩
  · exact ⟨_, Machine.isOpening_start ctx, rfl, hplain⟩

end Widths

def KeepsWidth (ctx : Context Float) (g : Glyph Float) : Prop :=
  ∀ width ∈ widthOperand ctx g,
    ctx.privateDict.nominalWidthX + Operand.reread ctx.version width = g.advanceWidth

theorem KeepsWidth.widthOperand_eq {ctx : Context Float} (h : KeepsWidth ctx g)
    (hwidth : g'.advanceWidth = (widthOperand ctx g).elim (Machine.start ctx).glyph.advanceWidth
      (ctx.privateDict.nominalWidthX + Operand.reread ctx.version ·)) :
    widthOperand ctx g' = widthOperand ctx g := by
  cases hoperand : widthOperand ctx g with
  | none =>
    rw [hoperand] at hwidth
    have hstart : g'.advanceWidth =
        if ctx.version = .type2 then ctx.privateDict.defaultWidthX else 0 := hwidth
    unfold widthOperand at hoperand ⊢
    by_cases htype2 : ctx.version = .type2
    · rw [if_pos htype2] at hoperand hstart ⊢
      split_ifs at hoperand with hdefault
      rw [hstart, if_pos (Double.beq_self_of_beq hdefault)]
    · rw [if_neg htype2]
  | some width =>
    have hsame : g'.advanceWidth = g.advanceWidth := by
      rw [hwidth, hoperand]
      exact h width hoperand
    rw [← hoperand, widthOperand, widthOperand, hsame]

-- ---------------------------------------------------------------------------
-- Charstrings
-- ---------------------------------------------------------------------------

/-- What has been written of a decoded glyph without references is decoded without diagnostics and
written again byte for byte, if all operands are in range, no contour comes back to its start by a
line or with a mask there, and the width comes back. -/
theorem encode_decode_encode {ctx : Context Float} {options : EncodeOptions Float}
    (hversion : ctx.version ≠ .type1) (hcontext : ctx.hintCount = 0) {code : List UInt8}
    (hcode : (decode ctx code).glyph = g) (hcomponents : g.components = []) {bytes : List UInt8}
    (h : encode ctx options g = .ok bytes) (hdense : g.IsDense)
    (hhints : g.hints.IsDense ctx.version) (hreturns : ReturnsByCurves g)
    (hwidth : KeepsWidth ctx g) :
    (decode ctx bytes).diagnostics = [] ∧
      encode ctx options (decode ctx bytes).glyph = .ok bytes := by
  have hg : IsDecoded g := hcode ▸ isDecoded_decode hversion code
  rw [encode_eq hversion hcomponents, hg.written_eq] at h
  obtain ⟨program, hprogram, h⟩ := bind_ok.mp h
  obtain rfl := pure_ok.mp h
  obtain ⟨horizontal, vertical, ts, hparts⟩ := instructions_parts hprogram
  obtain ⟨rfl, hholds⟩ := traces_eq hversion hparts.traces_ok hg.isPlotted hdense
  obtain ⟨m, hm, hmwidth, hdecode⟩ := decode_withWidth hversion (hparts.begins hversion) g
  obtain ⟨hdiagnostics, hreads, hcomponents', hwidth'⟩ :=
    reads_decode hversion hcontext hg hdense hhints hreturns hparts hm hdecode
  have hg' := isDecoded_decode hversion
    ((Instruction.withWidth (widthOperand ctx g) program).flatMap (·.toBytes ctx.version))
  refine ⟨hdiagnostics, ?_⟩
  generalize (decode ctx _).glyph = g' at hreads hcomponents' hwidth' hg' ⊢
  -- No point of what has been read moves as it is written, since none did the first time.
  have htraces : Charstring.traces ctx.version g' = .ok g'.traces := by
    refine traces_of_holds hg'.isPlotted ?_
    rw [hreads.traces, List.forall_mem_map]
    intro t ht
    rw [Trace.points_conveyed]
    exact hholds t ht
  obtain ⟨hh, hv⟩ := hparts.readAs hversion (hparts.onGrid hversion hg.hints hhints) hhints
  obtain ⟨_, _, hadded⟩ := hg.hints.added
  obtain ⟨program', hprogram', halike⟩ := hreads.instructions_alike hversion
    (StemHints.isOrderly_of_readAs hadded hh hv) (fun f hf => (hg.isPlotted f hf).2)
    (fun f hf => (hg'.isPlotted f hf).2) hparts htraces
  rw [encode_eq hversion hcomponents', hg'.written_eq, hprogram',
    hwidth.widthOperand_eq (hwidth'.trans hmwidth)]
  exact congrArg Except.ok (Instruction.toBytes_of_alike
    (Instruction.alike_withWidth (widthOperand ctx g) halike)).symm

/-- A contour of two segments, with a mask before each of them. -/
def hingedCode : List UInt8 :=
  [149, 159, 209, 159, 18, 19, 128, 189, 22, 239, 6, 19, 64, 199, 89, 79, 89, 30, 14]

def hingedGlyph : Glyph Float :=
  let b : Builder Float := (({} : Builder Float).moveTo ⟨50, 0⟩).mark (some (HintMask.ofList [0]))
  let g : Glyph Float := { Glyph.empty .postscript with
    figures := [((b.lineTo ⟨150, 0⟩).curveTo ⟨150, 60⟩ ⟨100, 0⟩ ⟨50, 0⟩).finish]
    bearing := 50
    hints := (StemHints.addAll [(.horizontal, 10, 20), (.horizontal, 100, 20)] {}).elim {} Prod.snd }
  g.withBounds

theorem order_hingedGlyph : hingedGlyph.hints.declared .horizontal = [⟨10, 20, 0⟩, ⟨100, 20, 1⟩] ∧
    hingedGlyph.hints.declared .vertical = [] := by
  have hh : hingedGlyph.hints.onAxis .horizontal = [⟨10, 20, 0⟩, ⟨100, 20, 1⟩] := by decide +kernel
  have hv : hingedGlyph.hints.onAxis .vertical = [] := by decide +kernel
  rw [StemHints.declared, StemHints.declared, hh, hv]
  simp [List.mergeSort]

def wideGlyph : Glyph Float := { hingedGlyph with advanceWidth := 600 }

set_option maxRecDepth 4096 in
theorem decode_wide :
    (decode ({} : Context Float) (248 :: 236 :: hingedCode)).glyph = wideGlyph := by
  have hrun : Machine.Executes ({} : Context Float) callLimit (248 :: 236 :: hingedCode)
      (Machine.start {}) _ :=
    .goesOn rfl rfl <| .goesOn rfl rfl <| .goesOn rfl rfl <| .goesOn rfl rfl <|
      .goesOn rfl rfl <| .goesOn rfl rfl <| .goesOn rfl rfl <| .goesOn rfl rfl <|
      .goesOn rfl rfl <| .goesOn rfl rfl <| .goesOn rfl rfl <| .goesOn rfl rfl <|
      .goesOn rfl rfl <| .goesOn rfl rfl <| .goesOn rfl rfl <| .goesOn rfl rfl <|
      .goesOn rfl rfl <| .ends rfl rfl
  rw [decode, hrun.run_eq]
  decide +kernel

/-- Once the mask before the curve that leads back is gone, the bytes stay as they are. -/
theorem encode_decode_encode_wide :
    ∃ bytes, encode ({} : Context Float) default wideGlyph = .ok bytes ∧
      (decode ({} : Context Float) bytes).diagnostics = [] ∧
      encode {} default (decode ({} : Context Float) bytes).glyph = .ok bytes := by
  have hsame : wideGlyph.hints = hingedGlyph.hints := by rw [wideGlyph]
  obtain ⟨hh, hv⟩ := order_hingedGlyph
  rw [← hsame] at hh hv
  have hcubic : wideGlyph.hasCurves .quadratic = false := by decide +kernel
  have hok : (encode ({} : Context Float) default wideGlyph).toOption.isSome = true := by
    simp only [encode, hcubic, Bool.false_eq_true, if_false, instructionsFor, instructions, hh, hv]
    decide +kernel
  obtain ⟨bytes, h⟩ := exists_ok hok
  have hhints : wideGlyph.hints.IsDense .type2 := by
    intro axis
    cases axis with
    | horizontal =>
      rw [hh]
      decide +kernel
    | vertical =>
      rw [hv]
      decide +kernel
  have hwidth : KeepsWidth {} wideGlyph := by
    unfold KeepsWidth
    decide +kernel
  exact ⟨bytes, h, encode_decode_encode (by decide) rfl decode_wide rfl h (by decide +kernel)
    hhints (by decide +kernel) hwidth⟩

end Letterform.Charstring
