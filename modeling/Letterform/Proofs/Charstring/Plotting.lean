import Letterform.Proofs.Charstring.Invariant
import Letterform.Proofs.Hint.Stem
import Letterform.Proofs.Outline.Plotted

/-!
# Decoding goes along the grid

Every displacement in a charstring is snapped before it is taken. So whatever a charstring of Type 2
or CFF2 computes, and wherever it goes, its outline is plotted on the grid of charstring
coordinates. Its stems have been added one after another and lie on the grid too.
-/

namespace Letterform

open Double (IsGridded)

-- ---------------------------------------------------------------------------
-- Stems
-- ---------------------------------------------------------------------------

/-- Stems that have been added one after another, all of them on the grid. -/
structure StemHints.IsPlotted (h : StemHints Float) : Prop where
  added : ∃ stems numbers, addAll stems {} = some (numbers, h)
  gridded : ∀ axis, ∀ s ∈ h.onAxis axis, IsGridded s.start ∧ IsGridded s.width

namespace StemHints

theorem isPlotted_empty : ({} : StemHints Float).IsPlotted :=
  ⟨⟨[], [], rfl⟩, fun axis => by cases axis <;> exact nofun⟩

theorem IsPlotted.add {h h' : StemHints Float} (hplotted : h.IsPlotted) {axis : Axis}
    {start width : Float} {n : ℕ} (hadd : h.add axis start width = some (n, h'))
    (hstart : IsGridded start) (hwidth : IsGridded width) : h'.IsPlotted := by
  obtain ⟨⟨stems, numbers, hall⟩, hgridded⟩ := hplotted
  have hone : addAll [(axis, start, width)] h = some ([n], h') :=
    addAll_cons.mpr ⟨n, h', [], hadd, rfl, rfl⟩
  refine ⟨⟨_, _, addAll_append.mpr ⟨numbers, h, [n], hall, hone, rfl⟩⟩, fun other s hs => ?_⟩
  rcases mem_or_mem_of_addAll hone hs with hold | hnew
  · exact hgridded other s hold
  · obtain ⟨-, hpair⟩ := Prod.mk.inj (List.mem_singleton.mp hnew)
    obtain ⟨rfl, rfl⟩ := Prod.mk.inj hpair
    exact ⟨hstart, hwidth⟩

end StemHints

namespace Charstring.Machine

-- ---------------------------------------------------------------------------
-- Machines
-- ---------------------------------------------------------------------------

structure IsPlotted (m : Machine Float) : Prop where
  builder : m.builder.IsPlotted
  position : m.position.IsPlotted
  origin : m.origin = default
  flex : ∀ points ∈ m.flex, ∀ p ∈ points.toList, p.IsPlotted
  hints : m.glyph.hints.IsPlotted

variable {m : Machine Float} {ctx : Context Float} {p : Point Float}

theorem isPlotted_displaced (hp : p.IsPlotted) (dx dy : Float) : (displaced p dx dy).IsPlotted :=
  ⟨hp.x.add (Double.isGridded_snap dx), hp.y.add (Double.isGridded_snap dy)⟩

theorem inert_isPlotted : Inert IsPlotted where
  calm h _ hstill := by
    obtain ⟨hbuilder, hposition, horigin, hflex, -, hhints⟩ := hstill
    exact ⟨hbuilder ▸ h.builder, hposition ▸ h.position, horigin ▸ h.origin, hflex ▸ h.flex,
      hhints ▸ h.hints⟩
  addStem {m m' axis start width} h hadd := by
    have hoffset : IsGridded m.origin.x ∧ IsGridded m.origin.y := by
      rw [h.origin]
      exact ⟨Double.isGridded_zero, Double.isGridded_zero⟩
    unfold addStem at hadd
    dsimp only at hadd
    split at hadd
    · cases hadd
    · rename_i hhints
      cases hadd
      refine ⟨h.builder, h.position, h.origin, h.flex, h.hints.add hhints
        ((Double.isGridded_snap start).add ?_) (Double.isGridded_snap width)⟩
      cases axis with
      | horizontal => exact hoffset.2
      | vertical => exact hoffset.1

theorem IsPlotted.attach (h : m.IsPlotted) {b : Builder Float} (hb : b.IsPlotted)
    (hp : p.IsPlotted) : ({ m with position := p, builder := b } : Machine Float).attachMask.IsPlotted := by
  rw [attachMask_eq]
  exact ⟨hb.mark _, hp, h.origin, h.flex, h.hints⟩

theorem IsPlotted.draw (h : m.IsPlotted) (s : PathStep Float) : (m.draw s).IsPlotted := by
  cases s with
  | line dx dy =>
    have hp := isPlotted_displaced h.position dx dy
    exact h.attach (h.builder.lineTo hp) hp
  | curve dx1 dy1 dx2 dy2 dx3 dy3 =>
    have h1 := isPlotted_displaced h.position dx1 dy1
    have h2 := isPlotted_displaced h1 dx2 dy2
    have h3 := isPlotted_displaced h2 dx3 dy3
    exact h.attach (h.builder.curveTo h1 h2 h3) h3

theorem IsPlotted.foldl_draw (h : m.IsPlotted) (steps : List (PathStep Float)) :
    (steps.foldl Machine.draw m).IsPlotted := by
  induction steps generalizing m with
  | nil => exact h
  | cons s steps ih => exact ih (h.draw s)

theorem IsPlotted.moveTo (h : m.IsPlotted) (dx dy : Float) : (m.moveTo dx dy).IsPlotted := by
  have hp := isPlotted_displaced h.position dx dy
  unfold Machine.moveTo
  dsimp only
  split
  next points hflex =>
    refine ⟨h.builder, hp, h.origin, ?_, h.hints⟩
    rintro _ ⟨⟩ q hq
    rw [Array.toList_push, List.mem_append, List.mem_singleton] at hq
    rcases hq with hq | rfl
    · exact h.flex points hflex q hq
    · exact hp
  next hflex =>
    have hplain : ({ m with flex := m.flex } : Machine Float).IsPlotted := h
    exact hplain.attach (h.builder.moveTo hp) hp

theorem IsPlotted.endFlex (h : m.IsPlotted) : m.endFlex.IsPlotted := by
  have hpoints : ∀ p ∈ (m.flex.getD #[]).toList, p.IsPlotted := by
    cases hflex : m.flex with
    | none => exact nofun
    | some points => exact h.flex points hflex
  have hplain : ({ m with flex := none } : Machine Float).IsPlotted :=
    ⟨h.builder, h.position, h.origin, nofun, h.hints⟩
  have hresults (m : Machine Float) (h : m.IsPlotted) :
      ({ m with results := [m.position.x, m.position.y] } : Machine Float).IsPlotted :=
    ⟨h.builder, h.position, h.origin, h.flex, h.hints⟩
  unfold Machine.endFlex
  dsimp only
  refine hresults _ ?_
  split
  next c1 c2 p c3 c4 q hdrop =>
    split_ifs
    · exact hplain
    · have hmem : ∀ x ∈ [c1, c2, p, c3, c4, q], x.IsPlotted := fun x hx =>
        hpoints x (List.mem_of_mem_drop (hdrop ▸ hx))
      simp only [List.forall_mem_cons] at hmem
      obtain ⟨h1, h2, hp, h3, h4, hq, -⟩ := hmem
      exact hplain.attach ((h.builder.curveTo h1 h2 hp).curveTo h3 h4 hq) hq
  next => exact hplain

theorem IsPlotted.callOther (h : m.IsPlotted) : Keeps IsPlotted id m.callOther := by
  refine (inert_isPlotted.popInt h).bind fun (number, m) h => ?_
  refine (inert_isPlotted.popInt h).bind fun (count, m) h => ?_
  refine .attempt h fun (operands, stack) _ => ?_
  obtain ⟨hbuilder, hposition, horigin, hflex, hhints⟩ := h
  have hcalled : ({ m.withStack stack with results := [] } : Machine Float).IsPlotted :=
    ⟨hbuilder, hposition, horigin, hflex, hhints⟩
  dsimp only
  split
  · exact hcalled.endFlex
  · exact ⟨hbuilder, hposition, horigin, by rintro _ ⟨⟩ _ ⟨⟩, hhints⟩
  · exact hcalled
  · exact ⟨hbuilder, hposition, horigin, hflex, hhints⟩
  · exact ⟨hbuilder, hposition, horigin, hflex, hhints⟩

theorem IsPlotted.report (h : m.IsPlotted) (e : Error) : (m.report e).IsPlotted :=
  ⟨h.builder, h.position, h.origin, h.flex, h.hints⟩

theorem IsPlotted.endCharacter (h : m.IsPlotted) : (m.endCharacter ctx).IsPlotted := by
  have hcode (m : Machine Float) (h : m.IsPlotted) (a : Float) : (m.characterCode a).2.IsPlotted := by
    unfold characterCode
    dsimp only
    split_ifs
    · exact h
    · exact h.report _
  unfold Machine.endCharacter
  dsimp only
  split_ifs
  · have hwidth := inert_isPlotted.takeWidth h ctx (m.stack.size == 5 || m.stack.size == 1)
    split
    next dx dy base accent _ =>
      have hcodes := hcode _ (hcode _ hwidth base) accent
      exact inert_isPlotted.clear
        ⟨hcodes.builder, hcodes.position, hcodes.origin, hcodes.flex, hcodes.hints⟩
    next => exact inert_isPlotted.clear hwidth
  · exact inert_isPlotted.clear h

/-- The operators that set the current point or the side bearing point are those of Type 1. -/
theorem IsPlotted.evaluate (hversion : ctx.version ≠ .type1) (h : m.IsPlotted) {op : Operator}
    (hknown : op.isKnownTo ctx.version = true) : Keeps IsPlotted id (m.evaluate ctx op) := by
  have hwidth (present : Bool) := inert_isPlotted.takeWidth h ctx present
  cases op with
  | path op =>
    simp only [Machine.evaluate, drawPath]
    split
    · exact h
    · exact inert_isPlotted.clear (h.foldl_draw _)
  | arithmetic op =>
    exact .attempt h fun _ _ => ⟨h.builder, h.position, h.origin, h.flex, h.hints⟩
  | stems axis masked =>
    exact (inert_isPlotted.declareStems h axis).bind fun _ h => inert_isPlotted.clear h
  | rmoveto | hmoveto | vmoveto =>
    simp only [Machine.evaluate]
    split
    · exact inert_isPlotted.clear ((hwidth _).moveTo _ _)
    · exact hwidth _
  | closepath | hsbw | sbw | seac | setcurrentpoint | threeStems | dotsection =>
    exact absurd (of_decide_eq_true hknown) hversion
  | callothersubr => exact h.callOther
  | pop => exact inert_isPlotted.popResult h
  | vsindex => exact inert_isPlotted.setVariation h
  | blend => exact inert_isPlotted.blend h
  | call | ret | endchar | mask => exact h

theorem invariant_isPlotted (hversion : ctx.version ≠ .type1) : Invariant ctx IsPlotted where
  inert := inert_isPlotted
  report e h := h.report e
  addMask isCounter _ h := by
    cases isCounter <;> exact ⟨h.builder, h.position, h.origin, h.flex, h.hints⟩
  evaluate h hknown := h.evaluate hversion hknown
  endCharacter h := h.endCharacter

theorem isPlotted_start (ctx : Context Float) : (start ctx).IsPlotted :=
  ⟨.empty, Point.isPlotted_default, rfl, nofun, StemHints.isPlotted_empty⟩

theorem exists_isPlotted_decode (hversion : ctx.version ≠ .type1) (code : List UInt8) :
    ∃ m : Machine Float, m.IsPlotted ∧ decode ctx code = m.finish ctx :=
  (invariant_isPlotted hversion).exists_decode (isPlotted_start ctx) code

end Charstring.Machine

end Letterform
