import Letterform.Proofs.Charstring.Accented
import Letterform.Proofs.Charstring.Lockstep

/-!
# The width stands apart from everything else

The width of a Type 2 charstring stands before the operands of whichever operator comes first. Once
it has been taken it goes into the glyph and is not looked at again: two machines that differ in the
advance width only execute any code in step.
-/

namespace Letterform.Charstring

variable {α : Type} {width : α}

namespace Machine

def withAdvance (m : Machine α) (width : α) : Machine α :=
  { m with glyph := { m.glyph with advanceWidth := width } }

/-- Two machines that expect no width any more, and have everything in common but the advance
width. -/
structure AlikeButWidth (width : α) (m m' : Machine α) : Prop where
  taken : m.widthTaken = true
  eq : m' = m.withAdvance width

-- ---------------------------------------------------------------------------
-- Parts of operators
-- ---------------------------------------------------------------------------

namespace AlikeButWidth

variable {m m' : Machine α} (h : AlikeButWidth width m m')
include h

theorem withStack (stack : Stack α) :
    AlikeButWidth width (m.withStack stack) (m'.withStack stack) := by
  obtain ⟨htaken, rfl⟩ := h
  exact ⟨htaken, rfl⟩

theorem clear : AlikeButWidth width m.clear m'.clear := by
  obtain ⟨htaken, rfl⟩ := h
  exact ⟨htaken, rfl⟩

theorem report (e : Error) : AlikeButWidth width (m.report e) (m'.report e) := by
  obtain ⟨htaken, rfl⟩ := h
  exact ⟨htaken, rfl⟩

theorem operands : m'.operands = m.operands := by
  rw [h.eq]
  rfl

theorem addMask (ctx : Context α) (isCounter : Bool) (bytes : List UInt8) :
    AlikeButWidth width (m.addMask ctx isCounter bytes) (m'.addMask ctx isCounter bytes) := by
  obtain ⟨htaken, rfl⟩ := h
  cases isCounter <;> exact ⟨htaken, rfl⟩

theorem push (a : α) :
    InStep (AlikeButWidth width) (AlikeButWidth width) (m.push a) (m'.push a) := by
  obtain rfl := h.eq
  exact .attempt h fun stack _ => .ok (h.withStack stack)

theorem popResult :
    InStep (AlikeButWidth width) (AlikeButWidth width) m.popResult m'.popResult := by
  obtain ⟨htaken, rfl⟩ := h
  have hresults : (m.withAdvance width).results = m.results := rfl
  unfold Machine.popResult
  rw [hresults]
  split
  next a rest _ =>
    have hrest : AlikeButWidth width { m with results := rest }
        { m.withAdvance width with results := rest } := ⟨htaken, rfl⟩
    exact hrest.push a
  next => exact .error ⟨htaken, rfl⟩

variable [Scalar α] {ctx : Context α}

theorem popInt :
    InStep (AlikeButWidth width) (Beside (AlikeButWidth width) Prod.snd Prod.fst) m.popInt
      m'.popInt := by
  obtain rfl := h.eq
  exact .attempt h fun popped _ => .ok ⟨h.withStack popped.2, rfl⟩

theorem takeWidth (present : Bool) :
    m.takeWidth ctx present = m ∧ m'.takeWidth ctx present = m' := by
  obtain ⟨htaken, rfl⟩ := h
  exact ⟨takeWidth_of_taken htaken present,
    takeWidth_of_taken (m := m.withAdvance width) htaken present⟩

theorem draw (s : PathStep α) : AlikeButWidth width (m.draw s) (m'.draw s) := by
  obtain ⟨htaken, rfl⟩ := h
  cases s with
  | line dx dy =>
    rw [draw_line, draw_line]
    exact ⟨htaken, rfl⟩
  | curve dx1 dy1 dx2 dy2 dx3 dy3 =>
    rw [draw_curve, draw_curve]
    exact ⟨htaken, rfl⟩

theorem foldl_draw (steps : List (PathStep α)) :
    AlikeButWidth width (steps.foldl Machine.draw m) (steps.foldl Machine.draw m') := by
  induction steps generalizing m m' with
  | nil => exact h
  | cons s steps ih => exact ih (h.draw s)

theorem drawPath (op : PathOperator) :
    InStep (AlikeButWidth width) (AlikeButWidth width) (m.drawPath op) (m'.drawPath op) := by
  have hsteps : op.steps m'.operands = op.steps m.operands := by
    rw [h.eq]
    rfl
  unfold Machine.drawPath
  rw [hsteps]
  split
  · exact .error h
  · exact .ok (h.foldl_draw _).clear

theorem moveTo (dx dy : α) : AlikeButWidth width (m.moveTo dx dy) (m'.moveTo dx dy) := by
  obtain ⟨htaken, rfl⟩ := h
  unfold Machine.moveTo
  have hflex : (m.withAdvance width).flex = m.flex := rfl
  rw [hflex]
  split
  · exact ⟨htaken, rfl⟩
  · rw [attachMask_eq, attachMask_eq]
    exact ⟨htaken, rfl⟩

theorem addStem (axis : Axis) (start stemWidth : α) :
    InStep (AlikeButWidth width) (AlikeButWidth width) (m.addStem axis start stemWidth)
      (m'.addStem axis start stemWidth) := by
  obtain ⟨htaken, rfl⟩ := h
  have hhints : (m.withAdvance width).glyph.hints = m.glyph.hints := rfl
  have horigin : (m.withAdvance width).origin = m.origin := rfl
  unfold Machine.addStem
  rw [hhints, horigin]
  dsimp only
  split
  · exact .error ⟨htaken, rfl⟩
  · exact .ok ⟨htaken, rfl⟩

theorem addStems (axis : Axis) (stems : List (α × α)) :
    InStep (AlikeButWidth width) (AlikeButWidth width) (m.addStems axis stems)
      (m'.addStems axis stems) := by
  induction stems generalizing m m' with
  | nil => exact .ok h
  | cons stem stems ih => exact (h.addStem axis stem.1 stem.2).bind fun _ _ h => ih h

theorem declareStems (axis : Axis) :
    InStep (AlikeButWidth width) (AlikeButWidth width) (m.declareStems ctx axis)
      (m'.declareStems ctx axis) := by
  unfold Machine.declareStems
  rw [(h.takeWidth _).1, (h.takeWidth _).2]
  dsimp only
  rw [h.operands]
  split
  · exact .error h
  · exact h.addStems axis _

theorem prepareMask :
    InStep (AlikeButWidth width) (AlikeButWidth width) (m.prepareMask ctx)
      (m'.prepareMask ctx) := by
  have hsettle {m m' : Machine α} (h : AlikeButWidth width m m') :
      InStep (AlikeButWidth width) (AlikeButWidth width)
        (pure (m.takeWidth ctx false).clear : Outcome α (Machine α))
        (pure (m'.takeWidth ctx false).clear) := by
    rw [(h.takeWidth _).1, (h.takeWidth _).2]
    exact .ok h.clear
  have hstack : m'.stack = m.stack := by
    rw [h.eq]
    rfl
  unfold Machine.prepareMask
  dsimp only
  rw [hstack]
  split_ifs
  · exact hsettle h
  · exact (h.declareStems .vertical).bind fun _ _ h => hsettle h

theorem characterCode (a : α) :
    (m'.characterCode a).1 = (m.characterCode a).1 ∧
      AlikeButWidth width (m.characterCode a).2 (m'.characterCode a).2 := by
  unfold Machine.characterCode
  dsimp only
  split_ifs
  · exact ⟨rfl, h⟩
  · exact ⟨rfl, h.report _⟩

theorem addAccented (base accent dx dy : α) :
    AlikeButWidth width (m.addAccented base accent dx dy) (m'.addAccented base accent dx dy) := by
  obtain ⟨hbase, h⟩ := h.characterCode base
  obtain ⟨haccent, ⟨htaken, heq⟩⟩ := h.characterCode accent
  unfold Machine.addAccented
  dsimp only
  rw [hbase, haccent, heq]
  exact ⟨htaken, rfl⟩

theorem endCharacter :
    AlikeButWidth width (m.endCharacter ctx) (m'.endCharacter ctx) := by
  unfold Machine.endCharacter
  split_ifs
  · rw [(h.takeWidth _).1, (h.takeWidth _).2]
    dsimp only
    rw [h.operands]
    split
    · exact (h.addAccented _ _ _ _).clear
    · exact h.clear
  · exact h.clear

theorem endFlex : AlikeButWidth width m.endFlex m'.endFlex := by
  obtain ⟨htaken, rfl⟩ := h
  have hflex : (m.withAdvance width).flex = m.flex := rfl
  unfold Machine.endFlex
  rw [hflex]
  dsimp only
  split
  · split_ifs
    · exact ⟨htaken, rfl⟩
    · rw [attachMask_eq, attachMask_eq]
      exact ⟨htaken, rfl⟩
  · exact ⟨htaken, rfl⟩

theorem callOther :
    InStep (AlikeButWidth width) (AlikeButWidth width) m.callOther m'.callOther := by
  refine h.popInt.bind ?_
  rintro ⟨number, m⟩ ⟨number', m'⟩ ⟨h, rfl⟩
  refine h.popInt.bind ?_
  rintro ⟨count, m⟩ ⟨count', m'⟩ ⟨h, rfl⟩
  obtain rfl := h.eq
  refine .attempt h ?_
  rintro ⟨operands, stack⟩ -
  obtain ⟨htaken, -⟩ := h
  have hnext : AlikeButWidth width { m.withStack stack with results := [] }
      { (m.withAdvance width).withStack stack with results := [] } := ⟨htaken, rfl⟩
  dsimp only
  split
  · exact .ok hnext.endFlex
  all_goals exact .ok ⟨htaken, rfl⟩

theorem arithmetic (op : Arithmetic) :
    InStep (AlikeButWidth width) (AlikeButWidth width) (m.evaluate ctx (.arithmetic op))
      (m'.evaluate ctx (.arithmetic op)) := by
  obtain ⟨htaken, rfl⟩ := h
  exact .attempt ⟨htaken, rfl⟩ fun _ _ => .ok ⟨htaken, rfl⟩

/-- None of the operators of Type 2 looks at the advance width. -/
theorem evaluate (hversion : ctx.version = .type2) {op : Operator}
    (hknown : op.isKnownTo ctx.version = true) :
    InStep (AlikeButWidth width) (AlikeButWidth width) (m.evaluate ctx op)
      (m'.evaluate ctx op) := by
  rw [hversion] at hknown
  cases op with
  | path op => exact h.drawPath op
  | arithmetic op => exact h.arithmetic op
  | stems axis _ => exact (h.declareStems axis).bind fun _ _ h => .ok h.clear
  | rmoveto | hmoveto | vmoveto =>
    simp only [Machine.evaluate]
    rw [(h.takeWidth _).1, (h.takeWidth _).2, h.operands]
    split
    · exact .ok (h.moveTo _ _).clear
    · exact .error h
  | callothersubr => exact h.callOther
  | pop => exact h.popResult
  | call | ret | endchar | mask => exact .ok h
  | threeStems | closepath | hsbw | sbw | seac | setcurrentpoint | dotsection | vsindex | blend =>
    cases hknown

end AlikeButWidth

theorem lockstep_alikeButWidth [Scalar α] {ctx : Context α} (hversion : ctx.version = .type2)
    (width : α) : Lockstep ctx (AlikeButWidth width) where
  push a h := h.push a
  popInt h := h.popInt
  report e h := h.report e
  clear h := h.clear
  evaluate h hknown := h.evaluate hversion hknown
  endCharacter h := h.endCharacter
  prepareMask h := h.prepareMask
  hintCount h := by
    rw [h.eq]
    rfl
  addMask isCounter bytes h := h.addMask _ isCounter bytes

end Machine

-- ---------------------------------------------------------------------------
-- Decoded glyphs
-- ---------------------------------------------------------------------------

def Decoded.withAdvance (d : Decoded α) (width : α) : Decoded α :=
  { d with glyph := { d.glyph with advanceWidth := width } }

variable [Scalar α] {ctx : Context α}

theorem Machine.AlikeButWidth.finish {m m' : Machine α} (h : m.AlikeButWidth width m') :
    m'.finish ctx = (m.finish ctx).withAdvance width := by
  rw [h.eq]
  rfl

theorem Machine.AlikeButWidth.result_run (hversion : ctx.version = .type2) {m m' : Machine α}
    (h : m.AlikeButWidth width m') (levels : ℕ) (code : List UInt8) :
    Machine.result ctx (m'.run ctx levels code) =
      (Machine.result ctx (m.run ctx levels code)).withAdvance width := by
  have hrun := (Machine.lockstep_alikeButWidth hversion width).run levels code h
  generalize m.run ctx levels code = x at hrun
  generalize m'.run ctx levels code = y at hrun
  cases hrun with
  | ok h => exact h.1.finish
  | error h => exact (h.report _).finish

end Letterform.Charstring
