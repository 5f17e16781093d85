import Letterform.Proofs.Charstring.Drawing
import Letterform.Proofs.Charstring.Stack

/-!
# What has been reported stays reported

Operators only ever add to the diagnostics, and they keep the operands within the limit of the
stack. This holds of the machine that an operator leaves as well as of the one that an error stops
on the way. Properties that depend on no more than this last.

The parts of operators that neither draw nor place anything keep more than that: they leave all
that has been drawn alone, and of the hints they only ever add some.
-/

namespace Letterform.Charstring

variable {α β γ : Type}

/-- The machine at the end of a computation, where it came to its end or was stopped. -/
def Outcome.machine (machineOf : β → Machine α) : Outcome α β → Machine α
  | .ok b => machineOf b
  | .error halt => halt.machine

namespace Machine

/-- From one machine to another nothing is reported, and the operands stay within their limit. -/
structure Quiet (m m' : Machine α) : Prop where
  diagnostics : m'.diagnostics = m.diagnostics
  stack : m.stack.KeepsLimit m'.stack

/-- From one machine to another nothing is drawn or placed, and no stem is declared. -/
structure Still (m m' : Machine α) : Prop where
  builder : m'.builder = m.builder
  position : m'.position = m.position
  origin : m'.origin = m.origin
  flex : m'.flex = m.flex
  components : m'.glyph.components = m.glyph.components
  hints : m'.glyph.hints = m.glyph.hints

/-- A property of machines that everything keeps which only works on the stack or declares
stems. -/
structure Inert [Scalar α] (P : Machine α → Prop) : Prop where
  calm {m m' : Machine α} : P m → Quiet m m' → Still m m' → P m'
  addStem {m m' : Machine α} {axis : Axis} {start width : α} : P m →
    m.addStem axis start width = .ok m' → P m'

/-- A property of machines that operators keep. It may depend on how many calls were too deep,
since no operator calls anything. -/
structure Lasting (P : Machine α → Prop) : Prop where
  quiet {m m' : Machine α} : P m → Quiet m m' → P m'
  report {m : Machine α} {e : Error} : P m → e ≠ .nestingDepthLimitExceeded → P (m.report e)

/-- The machine at the end of a computation has a property. -/
def Keeps (P : Machine α → Prop) (machineOf : β → Machine α) (x : Outcome α β) : Prop :=
  P (Outcome.machine machineOf x)

variable {P : Machine α → Prop} {m m' m'' : Machine α} {ctx : Context α}

theorem Quiet.of_eq (hdiagnostics : m'.diagnostics = m.diagnostics) (hstack : m'.stack = m.stack) :
    Quiet m m' :=
  ⟨hdiagnostics, hstack ▸ .refl _⟩

theorem Quiet.trans (h : Quiet m m') (h' : Quiet m' m'') : Quiet m m'' :=
  ⟨h'.diagnostics.trans h.diagnostics, h.stack.trans h'.stack⟩

theorem quiet_withStack {stack : Stack α} (h : m.stack.KeepsLimit stack) :
    Quiet m (m.withStack stack) :=
  ⟨rfl, h⟩

theorem still_withStack (m : Machine α) (stack : Stack α) : Still m (m.withStack stack) :=
  ⟨rfl, rfl, rfl, rfl, rfl, rfl⟩

theorem Keeps.bind {x : Outcome α β} {f : β → Outcome α γ} {machineOf : β → Machine α}
    {machineOf' : γ → Machine α} (hx : Keeps P machineOf x)
    (hf : ∀ b, P (machineOf b) → Keeps P machineOf' (f b)) :
    Keeps P machineOf' (x >>= f) := by
  cases x with
  | error halt => exact hx
  | ok b => exact hf b hx

theorem Keeps.map {x : Outcome α β} {f : β → γ} {machineOf : β → Machine α}
    {machineOf' : γ → Machine α} (hx : Keeps P machineOf x)
    (hf : ∀ b, machineOf' (f b) = machineOf b) : Keeps P machineOf' (x.map f) := by
  cases x with
  | error halt => exact hx
  | ok b =>
    show P (machineOf' (f b))
    rw [hf]
    exact hx

theorem Keeps.attempt {result : Except Error β} {f : β → Outcome α γ} {machineOf : γ → Machine α}
    (h : P m) (hf : ∀ b, result = .ok b → Keeps P machineOf (f b)) :
    Keeps P machineOf (m.attempt result >>= f) := by
  cases result with
  | error e => exact h
  | ok b => exact hf b rfl

-- ---------------------------------------------------------------------------
-- Quiet parts of operators
-- ---------------------------------------------------------------------------

theorem DrawsOnly.quiet (h : DrawsOnly m m') : Quiet m m' := by
  obtain ⟨_, _, _, _, _, rfl⟩ := h
  exact .of_eq rfl rfl

theorem quiet_addMask (m : Machine α) (isCounter : Bool) (bytes : List UInt8) :
    Quiet m (m.addMask ctx isCounter bytes) := by
  cases isCounter <;> exact .of_eq rfl rfl

variable [Scalar α]

theorem quiet_takeWidth (m : Machine α) (ctx : Context α) (present : Bool) :
    Quiet m (m.takeWidth ctx present) := by
  have hrest : m.stack.KeepsLimit { m.stack with values := m.stack.values.dropLast } := by
    refine Stack.keepsLimit_of_length_le ?_
    rw [List.length_dropLast]
    exact Nat.sub_le _ _
  unfold takeWidth
  dsimp only
  split
  · exact .of_eq rfl rfl
  · split
    · split
      · exact ⟨rfl, hrest⟩
      · exact .of_eq rfl rfl
    · exact .of_eq rfl rfl

theorem still_takeWidth (m : Machine α) (ctx : Context α) (present : Bool) :
    Still m (m.takeWidth ctx present) := by
  unfold takeWidth
  dsimp only
  split
  · exact ⟨rfl, rfl, rfl, rfl, rfl, rfl⟩
  · split
    · split <;> exact ⟨rfl, rfl, rfl, rfl, rfl, rfl⟩
    · exact ⟨rfl, rfl, rfl, rfl, rfl, rfl⟩

theorem quiet_moveTo (m : Machine α) (dx dy : α) : Quiet m (m.moveTo dx dy) := by
  unfold moveTo
  dsimp only
  split
  · exact .of_eq rfl rfl
  · rw [attachMask_eq]
    exact .of_eq rfl rfl

theorem quiet_endFlex (m : Machine α) : Quiet m m.endFlex := by
  unfold endFlex
  dsimp only
  split
  · split_ifs
    · exact .of_eq rfl rfl
    · simp only [attachMask_eq]
      exact .of_eq rfl rfl
  · exact .of_eq rfl rfl

-- ---------------------------------------------------------------------------
-- Parts of operators that draw nothing
-- ---------------------------------------------------------------------------

namespace Inert

variable (hP : Inert P)
include hP

theorem withStack (h : P m) {stack : Stack α} (hstack : m.stack.KeepsLimit stack) :
    P (m.withStack stack) :=
  hP.calm h (quiet_withStack hstack) (still_withStack m stack)

theorem clear (h : P m) : P m.clear := hP.withStack h (Stack.keepsLimit_clear _)

theorem attempt (h : P m) {result : Except Error (Stack α)}
    (hresult : ∀ s, result = .ok s → m.stack.KeepsLimit s) :
    Keeps P id (do return m.withStack (← m.attempt result)) :=
  .attempt h fun s hs => hP.withStack h (hresult s hs)

theorem push (h : P m) (a : α) : Keeps P id (m.push a) :=
  hP.attempt h fun _ => Stack.keepsLimit_push

theorem popInt (h : P m) : Keeps P Prod.snd m.popInt :=
  .attempt h fun (_, _) hpop => hP.withStack h (Stack.keepsLimit_popInt hpop)

theorem takeWidth (h : P m) (ctx : Context α) (present : Bool) : P (m.takeWidth ctx present) :=
  hP.calm h (quiet_takeWidth m ctx present) (still_takeWidth m ctx present)

theorem addStems (h : P m) (axis : Axis) (stems : List (α × α)) :
    Keeps P id (m.addStems axis stems) := by
  induction stems generalizing m with
  | nil => exact h
  | cons stem stems ih =>
    have hstem : Keeps P id (m.addStem axis stem.1 stem.2) := by
      cases hadd : m.addStem axis stem.1 stem.2 with
      | ok m' => exact hP.addStem h hadd
      | error halt =>
        unfold Machine.addStem at hadd
        dsimp only at hadd
        split at hadd
        · cases hadd
          exact h
        · cases hadd
    exact hstem.bind fun _ h => ih h

theorem declareStems (h : P m) (axis : Axis) : Keeps P id (m.declareStems ctx axis) := by
  have hwidth := hP.takeWidth h ctx (m.stack.size % 2 == 1)
  unfold Machine.declareStems
  dsimp only
  split
  · exact hwidth
  · exact hP.addStems hwidth axis _

theorem prepareMask (h : P m) : Keeps P id (m.prepareMask ctx) := by
  have hsettle (m : Machine α) (h : P m) :
      Keeps P id (pure (m.takeWidth ctx false).clear : Outcome α (Machine α)) :=
    hP.clear (hP.takeWidth h ctx false)
  unfold Machine.prepareMask
  dsimp only
  split_ifs
  · exact hsettle m h
  · exact (hP.declareStems h .vertical).bind hsettle

theorem popResult (h : P m) : Keeps P id m.popResult := by
  unfold Machine.popResult
  split
  next a rest _ =>
    exact hP.push (m := { m with results := rest })
      (hP.calm h (.of_eq rfl rfl) ⟨rfl, rfl, rfl, rfl, rfl, rfl⟩) a
  next => exact h

theorem chooseVariation (h : P m) (store : VariationStore α) (index : ℕ) :
    Keeps P id (m.chooseVariation ctx store index) := by
  unfold Machine.chooseVariation
  split
  · exact hP.calm h (.of_eq rfl rfl) ⟨rfl, rfl, rfl, rfl, rfl, rfl⟩
  · exact h

theorem setVariation (h : P m) : Keeps P id (m.setVariation ctx) := by
  refine (hP.popInt h).bind fun (index, m) h => ?_
  dsimp only
  split
  · exact h
  · split_ifs
    · exact (hP.chooseVariation h _ _).bind fun _ h => hP.clear h
    · exact h

theorem blend (h : P m) : Keeps P id (m.blend ctx) := by
  have hblend (m : Machine α) (h : P m) : Keeps P id (do
      return m.withStack (← m.attempt (m.stack.blend (m.scalars.getD [])))) :=
    hP.attempt h fun _ => Stack.keepsLimit_blend
  unfold Machine.blend
  dsimp only
  split
  · exact hblend m h
  · exact h
  · exact (hP.chooseVariation h _ _).bind hblend

end Inert

-- ---------------------------------------------------------------------------
-- Parts of operators
-- ---------------------------------------------------------------------------

namespace Lasting

variable (hP : Lasting P)
include hP

theorem inert : Inert P where
  calm h hquiet _ := hP.quiet h hquiet
  addStem {m m' axis start width} h hadd := by
    unfold Machine.addStem at hadd
    dsimp only at hadd
    split at hadd
    · cases hadd
    · cases hadd
      exact hP.quiet h (.of_eq rfl rfl)

theorem drawPath (h : P m) (op : PathOperator) : Keeps P id (m.drawPath op) := by
  unfold Machine.drawPath
  split
  · exact h
  · exact hP.inert.clear (hP.quiet h (drawsOnly_foldl m _).quiet)

theorem characterCode (h : P m) (a : α) : P (m.characterCode a).2 := by
  unfold Machine.characterCode
  dsimp only
  split_ifs
  · exact h
  · exact hP.report h nofun

theorem addAccented (h : P m) (base accent dx dy : α) : P (m.addAccented base accent dx dy) :=
  hP.quiet (hP.characterCode (hP.characterCode h base) accent) (.of_eq rfl rfl)

theorem endCharacter (h : P m) : P (m.endCharacter ctx) := by
  unfold Machine.endCharacter
  dsimp only
  split_ifs
  · have hwidth := hP.inert.takeWidth h ctx (m.stack.size == 5 || m.stack.size == 1)
    split
    next dx dy base accent _ => exact hP.inert.clear (hP.addAccented hwidth base accent dx dy)
    next => exact hP.inert.clear hwidth
  · exact hP.inert.clear h

theorem callOther (h : P m) : Keeps P id m.callOther := by
  refine (hP.inert.popInt h).bind ?_
  rintro ⟨number, m₁⟩ h₁
  refine (hP.inert.popInt h₁).bind ?_
  rintro ⟨count, m₂⟩ h₂
  refine .attempt h₂ ?_
  rintro ⟨operands, stack⟩ hpop
  obtain ⟨hlimit, hsize⟩ := Stack.size_popMany hpop
  have hquiet : Quiet m₂ (m₂.withStack stack) := quiet_withStack ⟨hlimit, by omega⟩
  have h₃ : P { m₂.withStack stack with results := [] } := hP.quiet h₂ (hquiet.trans (.of_eq rfl rfl))
  dsimp only
  split
  · exact hP.quiet h₃ (quiet_endFlex _)
  all_goals exact hP.quiet h₃ (.of_eq rfl rfl)

-- ---------------------------------------------------------------------------
-- Operators
-- ---------------------------------------------------------------------------

theorem seac (h : P m) :
    Keeps P id (match m.operands with
      | bearing :: dx :: dy :: base :: accent :: _ =>
        .ok (m.addAccented base accent (dx + m.origin.x - bearing) dy).clear
      | _ => m.halt .stackUnderflow) := by
  split
  next bearing dx dy base accent _ _ =>
    exact hP.inert.clear (hP.addAccented h base accent (dx + m.origin.x - bearing) dy)
  next => exact h

theorem evaluate (h : P m) (op : Operator) : Keeps P id (m.evaluate ctx op) := by
  have hwidth (present : Bool) := hP.inert.takeWidth h ctx present
  cases op with
  | path op => exact hP.drawPath h op
  | arithmetic op =>
    exact .attempt h fun _ hc => hP.quiet h ⟨rfl, Calculator.keepsLimit_evaluate hc⟩
  | stems axis masked => exact (hP.inert.declareStems h axis).bind fun _ h => hP.inert.clear h
  | threeStems axis =>
    simp only [Machine.evaluate]
    split
    · exact h
    · exact (hP.inert.addStems h axis _).bind fun _ h => hP.inert.clear h
  | rmoveto | hmoveto | vmoveto =>
    simp only [Machine.evaluate]
    split
    · exact hP.inert.clear (hP.quiet (hwidth _) (quiet_moveTo _ _ _))
    · exact hwidth _
  | seac => exact hP.seac h
  | hsbw | sbw | setcurrentpoint =>
    simp only [Machine.evaluate]
    split
    · exact hP.inert.clear (hP.quiet h (.of_eq rfl rfl))
    · exact h
  | callothersubr => exact hP.callOther h
  | pop => exact hP.inert.popResult h
  | vsindex => exact hP.inert.setVariation h
  | blend => exact hP.inert.blend h
  | closepath => exact hP.inert.clear (hP.quiet h (.of_eq rfl rfl))
  | dotsection => exact hP.inert.clear h
  | call | ret | endchar | mask => exact h

end Lasting

-- ---------------------------------------------------------------------------
-- Diagnostics
-- ---------------------------------------------------------------------------

/-- A machine has these diagnostics, perhaps with later ones behind them. -/
def Reported (reports : List Error) (m : Machine α) : Prop := reports <+: m.diagnostics.toList

variable {reports : List Error}

omit [Scalar α] in
theorem Reported.refl (m : Machine α) : m.Reported m.diagnostics.toList := List.prefix_rfl

omit [Scalar α] in
theorem Reported.report (h : m.Reported reports) (e : Error) : (m.report e).Reported reports := by
  show reports <+: (m.diagnostics.push e).toList
  rw [Array.toList_push]
  exact h.trans (List.prefix_append _ _)

omit [Scalar α] in
theorem lasting_reported (reports : List Error) : Lasting (α := α) (Reported reports) where
  quiet h hquiet := by
    unfold Reported
    rwa [hquiet.diagnostics]
  report h _ := h.report _

end Machine

end Letterform.Charstring
