import Letterform.Proofs.Charstring.HintRoundTrip
import Letterform.Proofs.Charstring.PlainContours

/-!
# Type 1 charstrings that are written come back

A glyph of integers that has been encoded in Type 1 is decoded without diagnostics, however far its
points lie from each other. Its metrics, its stems and its outline come back as they were.
-/

namespace Letterform

open Scalar (Agree IsFixed)

variable {α : Type} [Scalar α] [LawfulScalar α]

theorem Scalar.AgreeWhole.reread {a b : α} (h : AgreeWhole a b) :
    AgreeWhole (Charstring.Operand.reread .type1 a) b := by
  obtain ⟨n, hn, ha, hb⟩ := h
  rw [abs_lt] at hn
  exact ⟨n, abs_lt.mpr hn, Charstring.Operand.isFixed_reread_whole ha (by omega) (by omega), hb⟩

namespace Charstring

-- ---------------------------------------------------------------------------
-- Stems
-- ---------------------------------------------------------------------------

theorem readAs_stemOperands {stem : Stem Float} {origin offset : Float} {operands : List Float}
    (h : stemOperands .type1 origin 0 [stem] = .ok operands)
    (horigin : Scalar.AgreeWhole origin offset)
    (hstem : Scalar.IsInteger stem.start ∧ Scalar.IsInteger stem.width) :
    ∃ s, readStems .type1 [operands] = [s] ∧
      stem.ReadAs (Scalar.snap s.1 + offset, Scalar.snap s.2) := by
  obtain ⟨⟨n, hn⟩, hwhole⟩ := hstem
  obtain ⟨o, ho, horigin, hoffset⟩ := horigin
  obtain ⟨start, hstart, h⟩ := bind_ok.mp h
  obtain ⟨width, hwidth, h⟩ := bind_ok.mp h
  obtain ⟨_, ⟨⟩, h⟩ := bind_ok.mp h
  cases h
  rw [abs_lt] at ho
  have hfixed := Scalar.isFixed_whole.mpr hn
  obtain ⟨hstart, hlow, hhigh⟩ := coordinate_sub hfixed horigin hstart
  refine ⟨_, rfl, ?_, ?_⟩
  · -- The difference to the origin comes back, and the origin is added to it.
    have hread := Operand.isFixed_reread_whole (LawfulScalar.sub_zero hstart) (by omega) (by omega)
    have hsum := Scalar.isFixed_zero.add hread (by rw [abs_lt]; omega)
    have hunits : 0 + 65536 * (n - o) = 64 * (1024 * (n - o)) := by ring
    rw [hunits] at hsum
    have hback := (hsum.snap (by rw [abs_lt]; omega)).add hoffset (by rw [abs_lt]; omega)
    have hunits' : 64 * (1024 * (n - o)) + 65536 * o = 64 * (1024 * n) := by ring
    have hunits'' : 65536 * n = 64 * (1024 * n) := by ring
    rw [hunits'] at hback
    rw [hunits''] at hfixed
    exact ⟨1024 * n, by rw [abs_lt]; omega, hfixed, hback⟩
  · obtain ⟨w, hw, hread, hback⟩ := (coordinate_integer hwhole hwidth).reread.agree
    have hsnap := hread.snap (by rw [abs_lt] at hw ⊢; omega)
    exact ⟨w, hw, hback, hsnap⟩

theorem DeclaresEach.readAs {stems : List (Stem Float)} {runs : List (List Float)}
    {origin offset : Float} (h : DeclaresEach origin stems runs)
    (horigin : Scalar.AgreeWhole origin offset)
    (hstems : ∀ s ∈ stems, Scalar.IsInteger s.start ∧ Scalar.IsInteger s.width) :
    List.Forall₂ Stem.ReadAs stems
      ((readStems .type1 runs).map fun s => (Scalar.snap s.1 + offset, Scalar.snap s.2)) := by
  induction h with
  | nil => exact .nil
  | cons hstem _ ih =>
    obtain ⟨hfirst, hstems⟩ := List.forall_mem_cons.mp hstems
    obtain ⟨s, hs, hread⟩ := readAs_stemOperands hstem horigin hfirst
    rw [readStems_cons, hs, List.singleton_append, List.map_cons]
    exact .cons hread (ih hstems)

variable {g : Glyph Float} {program rest : List (Instruction Float)} {bearing width : Float}
  {horizontal vertical : List (List Float)}

/-- The machine adds the stems of a glyph with their places in the order of declaration as
numbers. Vertical stems are measured from the side bearing point. -/
theorem PlainParts.addAll_readStems (ctx : Context Float)
    (h : PlainParts g program bearing width horizontal vertical rest) (hinteger : g.IsInteger)
    {stems : List (Axis × Float × Float)} {ns : List ℕ}
    (hadd : StemHints.addAll stems {} = some (ns, g.hints)) :
    ∃ hints, StemHints.addAll
        ((readStems .type1 horizontal).map
            ((Machine.bearingAt ctx bearing width).stemAt .horizontal) ++
          (readStems .type1 vertical).map
            ((Machine.bearingAt ctx bearing width).stemAt .vertical)) {} =
          some (List.range g.hints.count, hints) ∧
      hints.next = g.hints.next ∧
      ∀ axis, List.Forall₂ (Stem.AgreesAs g.hints.order.idxOf) (hints.onAxis axis)
        (g.hints.onAxis axis) := by
  have hdeclared (axis : Axis) : ∀ s ∈ g.hints.declared axis,
      Scalar.IsInteger s.start ∧ Scalar.IsInteger s.width := fun s hs =>
    hinteger.stems axis s ((g.hints.perm_declared axis).mem_iff.mp hs)
  have hzero : Scalar.AgreeWhole (0 : Float) 0 :=
    ⟨0, by norm_num, Scalar.isFixed_zero, Scalar.isFixed_zero⟩
  have hbearing := coordinate_integer hinteger.bearing h.bearing_ok
  have horigin : Scalar.AgreeWhole bearing (Operand.reread .type1 bearing) :=
    hbearing.left.reread.symm
  have hadded := StemHints.addAll_read hadd
    (h.horizontal_declares.readAs hzero (hdeclared .horizontal))
    (h.vertical_declares.readAs horigin (hdeclared .vertical))
  rw [List.map_map, List.map_map] at hadded
  exact hadded

-- ---------------------------------------------------------------------------
-- Glyphs
-- ---------------------------------------------------------------------------

/-- In doubles, a glyph of integers comes back from Type 1 with its stems numbered anew and its
contours closed. -/
theorem decode_encode_type1 {ctx ctx' : Context Float} {options : EncodeOptions Float}
    {g : Glyph Float} (hversion : ctx.version = .type1) (hversion' : ctx'.version = .type1)
    (hcomponents : g.components = []) (hcurves : g.hasCurves .quadratic = false)
    (hinteger : g.IsInteger) {stems : List (Axis × Float × Float)} {ns : List ℕ}
    (hadd : StemHints.addAll stems {} = some (ns, g.hints)) {bytes : List UInt8}
    (h : encode ctx options g = .ok bytes) :
    (decode ctx' bytes).diagnostics = [] ∧
      ((decode ctx' bytes).glyph.bearing == g.bearing) = true ∧
      ((decode ctx' bytes).glyph.advanceWidth == g.advanceWidth) = true ∧
      ((decode ctx' bytes).glyph.hints == g.hints.renumber g.hints.order.idxOf) = true ∧
      (decode ctx' bytes).glyph.counterMasks = [] ∧
      ((decode ctx' bytes).glyph.figures == singleFigure g.closed) = true := by
  have hwritten : written g = g := by rw [written, hcurves, if_neg Bool.false_ne_true]
  obtain ⟨program, hprogram, rfl⟩ := encode_ok hcomponents h
  rw [hwritten, instructionsFor, hversion] at hprogram
  obtain ⟨bearing, width, horizontal, vertical, rest, hparts, ts, hts, rfl⟩ :=
    plainInstructions_parts hprogram
  obtain ⟨hints, haddNew, hnext, hagrees⟩ := hparts.addAll_readStems ctx' hinteger hadd
  obtain ⟨m, hm, hrun⟩ := Machine.run_beginning callLimit hversion' hparts haddNew
  have hbearing := coordinate_integer hinteger.bearing hparts.bearing_ok
  have hwidth := coordinate_integer hinteger.advanceWidth hparts.width_ok
  have hzero : Scalar.AgreeWhole (0 : Float) 0 :=
    ⟨0, by norm_num, Scalar.isFixed_zero, Scalar.isFixed_zero⟩
  have hposition : (⟨bearing, 0⟩ : Point Float).AgreeWhole ⟨bearing, 0⟩ := ⟨hbearing.left, hzero⟩
  obtain ⟨hfollow, hdraws⟩ := traces_integer hts hposition fun f c hfc i =>
    Glyph.forall_points_knot ⟨Scalar.isInteger_zero, Scalar.isInteger_zero⟩ hinteger.knots hfc i
  -- The machine has come to the contours.
  have hready : m.Ready ctx' :=
    hm.ready ((Machine.ready_bearingAt hversion' bearing width).declare _ hints)
  have hbegun : m.Drawn True {} ⟨bearing, 0⟩ ∧ m.diagnostics = #[] ∧
      m.glyph = { (Machine.bearingAt ctx' bearing width).glyph with hints } := by
    have hdrawn : (Machine.bearingAt ctx' bearing width).Drawn True {} ⟨bearing, 0⟩ :=
      ⟨⟨Figure.agree_empty, rfl, rfl⟩, ⟨hbearing.left.reread.agree, hzero.agree⟩, rfl⟩
    rcases hm with rfl | rfl
    · exact ⟨⟨hdrawn.builder, hdrawn.position, rfl⟩, rfl, rfl⟩
    · exact ⟨⟨hdrawn.builder, hdrawn.position, rfl⟩, rfl, rfl⟩
  obtain ⟨hdrawn, hdiagnostics, hglyph⟩ := hbegun
  rw [← hversion'] at hfollow
  obtain ⟨m', hrun', honly, hbuilder⟩ := Machine.run_plainContours callLimit hversion' hready hdrawn
    hposition.agree hfollow
    ((Instruction.operation .endchar [] : Instruction Float).toBytes ctx'.version)
  have hdecode : decode ctx' (program.flatMap (·.toBytes ctx.version)) = m'.finish ctx' := by
    rw [decode_eq, hversion, ← hversion', hrun, List.flatMap_append, List.flatMap_singleton]
    exact congrArg (Machine.result ctx')
      (hrun'.trans (Machine.run_plainEnd callLimit hversion' (honly.ready hready)))
  have hglyph' : m'.glyph = { (Machine.bearingAt ctx' bearing width).glyph with hints } :=
    honly.glyph.trans hglyph
  have hmetrics : (m'.finish ctx').glyph.bearing = Operand.reread .type1 bearing ∧
      (m'.finish ctx').glyph.advanceWidth = Operand.reread .type1 width ∧
      (m'.finish ctx').glyph.hints = hints ∧ (m'.finish ctx').glyph.counterMasks = [] := by
    refine ⟨?_, ?_, ?_, ?_⟩
    · show (if ctx'.version = .type1 then m'.glyph.bearing else _) = _
      rw [if_pos hversion', hglyph']
      rfl
    · show m'.glyph.advanceWidth = _
      rw [hglyph']
      rfl
    · show m'.glyph.hints = _
      rw [hglyph']
    · show m'.glyph.counterMasks = _
      rw [hglyph']
      rfl
  obtain ⟨hb, hw, hh, hc⟩ := hmetrics
  rw [hdecode, hb, hw, hh, hc, figures_finish]
  refine ⟨?_, hbearing.reread.agree.beq, hwidth.reread.agree.beq,
    StemHints.beq_renumber hnext hagrees, rfl, singleFigure_beq ?_⟩
  · show m'.diagnostics.toList = []
    rw [honly.diagnostics, hdiagnostics]
  · have hempty : ({} : Builder Float).Agree True {} := ⟨Figure.agree_empty, rfl, rfl⟩
    exact (hbuilder.trans (hdraws {} {} hempty)).finish

def broadStems : List (Axis × Float × Float) :=
  [(.vertical, 29000, 500), (.horizontal, 0, 20), (.vertical, -30000, 60)]

/-- A triangle with a base 60000 wide under a drop, and stems of both axes. -/
def broadSign : Glyph Float :=
  let b : Builder Float := ({} : Builder Float).moveTo ⟨-30000, 0⟩
  let b := ((b.lineTo ⟨30000, 0⟩).lineTo ⟨0, 500⟩).close.moveTo ⟨0, 32000⟩
  { Glyph.empty .postscript with
    bearing := 40
    advanceWidth := 600
    hints := (StemHints.addAll broadStems {}).elim {} Prod.snd
    figures := [(b.curveTo ⟨-300, 600⟩ ⟨300, 600⟩ ⟨0, 32000⟩).close.finish] }

theorem hints_broadSign :
    broadSign.hints.onAxis .horizontal = [⟨0, 20, 1⟩] ∧
      broadSign.hints.onAxis .vertical = [⟨-30000, 60, 2⟩, ⟨29000, 500, 0⟩] := by
  decide +kernel

theorem declared_broadSign :
    broadSign.hints.declared .horizontal = [⟨0, 20, 1⟩] ∧
      broadSign.hints.declared .vertical = [⟨29000, 500, 0⟩, ⟨-30000, 60, 2⟩] := by
  rw [StemHints.declared, StemHints.declared, hints_broadSign.1, hints_broadSign.2]
  simp [List.mergeSort]

theorem isInteger_broadSign : broadSign.IsInteger := by
  have hknots : ∀ f ∈ broadSign.figures, ∀ k ∈ f.knots, ∀ p ∈ k.points,
      (p.x == Scalar.ofInt (Scalar.toInt32 p.x)) = true ∧
        (p.y == Scalar.ofInt (Scalar.toInt32 p.y)) = true := by decide +kernel
  have hstems : ∀ s ∈ broadSign.hints.onAxis .horizontal ++ broadSign.hints.onAxis .vertical,
      (s.start == Scalar.ofInt (Scalar.toInt32 s.start)) = true ∧
        (s.width == Scalar.ofInt (Scalar.toInt32 s.width)) = true := by decide +kernel
  refine ⟨Scalar.isInteger_of_beq (by decide +kernel), Scalar.isInteger_of_beq (by decide +kernel),
    fun f hf k hk p hp => ?_, fun axis s hs => ?_⟩
  · obtain ⟨hx, hy⟩ := hknots f hf k hk p hp
    exact ⟨Scalar.isInteger_of_beq hx, Scalar.isInteger_of_beq hy⟩
  · have hmem : s ∈ broadSign.hints.onAxis .horizontal ++ broadSign.hints.onAxis .vertical := by
      cases axis with
      | horizontal => exact List.mem_append_left _ hs
      | vertical => exact List.mem_append_right _ hs
    obtain ⟨hstart, hwidth⟩ := hstems s hmem
    exact ⟨Scalar.isInteger_of_beq hstart, Scalar.isInteger_of_beq hwidth⟩

theorem decode_encode_broadSign :
    ∃ bytes, encode ({ version := .type1 } : Context Float) default broadSign = .ok bytes ∧
      (decode ({ version := .type1 } : Context Float) bytes).diagnostics = [] ∧
      ((decode ({ version := .type1 } : Context Float) bytes).glyph.hints ==
        broadSign.hints.renumber broadSign.hints.order.idxOf) = true ∧
      ((decode ({ version := .type1 } : Context Float) bytes).glyph.figures ==
        singleFigure broadSign.closed) = true := by
  obtain ⟨hh, hv⟩ := declared_broadSign
  have hcubic : broadSign.hasCurves .quadratic = false := by decide +kernel
  have hok : (encode ({ version := .type1 } : Context Float) default broadSign).toOption.isSome =
      true := by
    simp only [encode, hcubic, Bool.false_eq_true, if_false, instructionsFor, plainInstructions,
      hh, hv]
    decide +kernel
  obtain ⟨bytes, h⟩ := exists_ok hok
  have hadd : StemHints.addAll broadStems {} = some ([0, 1, 2], broadSign.hints) := by
    decide +kernel
  have hversion : ({ version := .type1 } : Context Float).version = .type1 := rfl
  obtain ⟨hdiagnostics, -, -, hhints, -, hfigures⟩ :=
    decode_encode_type1 hversion hversion rfl hcubic isInteger_broadSign hadd h
  exact ⟨bytes, h, hdiagnostics, hhints, hfigures⟩

end Charstring

end Letterform
