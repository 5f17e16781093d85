import Letterform.Proofs.Charstring.Invariant

/-!
# What few operators change

The scalars in use change when variation data are chosen, the storage places and the generator when
something is calculated. All else that happens to a machine leaves the three as they are.
-/

namespace Letterform.Charstring

variable {α : Type} [Scalar α]

/-- What a machine remembers apart from its stack and what it draws. -/
structure Memory (α : Type) where
  scalars : Option (List α)
  storage : List α
  generator : UInt32

namespace Machine

omit [Scalar α] in
def memory (m : Machine α) : Memory α :=
  ⟨m.scalars, m.calculator.storage, m.calculator.generator⟩

omit [Scalar α] in
def Remembers (Q : Memory α → Prop) (m : Machine α) : Prop := Q m.memory

variable {ctx : Context α} {Q : Memory α → Prop} {m : Machine α}

-- ---------------------------------------------------------------------------
-- Parts of operators
-- ---------------------------------------------------------------------------

namespace Remembers

omit [Scalar α] in
theorem report (h : m.Remembers Q) (e : Error) : (m.report e).Remembers Q := h

omit [Scalar α] in
theorem clear (h : m.Remembers Q) : m.clear.Remembers Q := h

omit [Scalar α] in
theorem addMask (h : m.Remembers Q) (isCounter : Bool) (bytes : List UInt8) :
    (m.addMask ctx isCounter bytes).Remembers Q := by
  cases isCounter <;> exact h

omit [Scalar α] in
theorem push (h : m.Remembers Q) (a : α) : Keeps (Remembers Q) id (m.push a) := .attempt h fun _ _ => h

theorem popInt (h : m.Remembers Q) : Keeps (Remembers Q) Prod.snd m.popInt := .attempt h fun _ _ => h

theorem takeWidth (h : m.Remembers Q) (present : Bool) : (m.takeWidth ctx present).Remembers Q := by
  unfold Machine.takeWidth
  dsimp only
  split
  · exact h
  · split
    · split <;> exact h
    · exact h

theorem addStems (h : m.Remembers Q) (axis : Axis) (stems : List (α × α)) :
    Keeps (Remembers Q) id (m.addStems axis stems) := by
  induction stems generalizing m with
  | nil => exact h
  | cons stem stems ih =>
    have hstem : Keeps (Remembers Q) id (m.addStem axis stem.1 stem.2) := by
      unfold Machine.addStem
      dsimp only
      split <;> exact h
    exact hstem.bind fun _ h => ih h

theorem declareStems (h : m.Remembers Q) (axis : Axis) :
    Keeps (Remembers Q) id (m.declareStems ctx axis) := by
  unfold Machine.declareStems
  dsimp only
  split
  · exact h.takeWidth _
  · exact (h.takeWidth _).addStems axis _

theorem prepareMask (h : m.Remembers Q) : Keeps (Remembers Q) id (m.prepareMask ctx) := by
  unfold Machine.prepareMask
  dsimp only
  split_ifs
  · exact (h.takeWidth false).clear
  · exact (h.declareStems .vertical).bind fun _ h => (h.takeWidth false).clear

theorem drawPath (h : m.Remembers Q) (op : PathOperator) :
    Keeps (Remembers Q) id (m.drawPath op) := by
  unfold Machine.drawPath
  split
  · exact h
  · obtain ⟨_, _, _, _, _, hdrawn⟩ := drawsOnly_foldl m (op.steps m.operands)
    rw [hdrawn]
    exact h

theorem moveTo (h : m.Remembers Q) (dx dy : α) : (m.moveTo dx dy).Remembers Q := by
  unfold Machine.moveTo
  dsimp only
  split
  · exact h
  · rw [attachMask_eq]
    exact h

theorem endFlex (h : m.Remembers Q) : m.endFlex.Remembers Q := by
  unfold Machine.endFlex
  dsimp only
  split
  · split_ifs
    · exact h
    · simp only [attachMask_eq]
      exact h
  · exact h

theorem callOther (h : m.Remembers Q) : Keeps (Remembers Q) id m.callOther := by
  refine h.popInt.bind fun (number, m) h => ?_
  refine (Remembers.popInt h).bind fun (count, m) h => ?_
  refine .attempt h fun (operands, stack) _ => ?_
  have hcalled : ({ m.withStack stack with results := [] } : Machine α).Remembers Q := h
  dsimp only
  split
  · exact hcalled.endFlex
  all_goals exact hcalled

omit [Scalar α] in
theorem popResult (h : m.Remembers Q) : Keeps (Remembers Q) id m.popResult := by
  unfold Machine.popResult
  split
  next a rest _ => exact Remembers.push (m := { m with results := rest }) h a
  next => exact h

theorem addAccented (h : m.Remembers Q) (base accent dx dy : α) :
    (m.addAccented base accent dx dy).Remembers Q := by
  have hcode (m : Machine α) (h : m.Remembers Q) (a : α) : (m.characterCode a).2.Remembers Q := by
    unfold characterCode
    dsimp only
    split_ifs <;> exact h
  exact hcode _ (hcode m h base) accent

theorem endCharacter (h : m.Remembers Q) : (m.endCharacter ctx).Remembers Q := by
  unfold Machine.endCharacter
  dsimp only
  split_ifs
  · split
    · exact ((h.takeWidth _).addAccented _ _ _ _).clear
    · exact (h.takeWidth _).clear
  · exact h.clear

end Remembers

theorem isKeptAround_remembers (ctx : Context α) (Q : Memory α → Prop) :
    IsKeptAround ctx (Remembers Q) where
  push a h := h.push a
  popInt h := h.popInt
  clear h := h.clear
  prepareMask h := h.prepareMask
  report e h := h.report e
  addMask isCounter bytes h := h.addMask isCounter bytes
  endCharacter h := h.endCharacter

-- ---------------------------------------------------------------------------
-- Operators
-- ---------------------------------------------------------------------------

/-- A property of the memory that stays when variation data of a font are chosen. -/
def AllowsVariations (ctx : Context α) (Q : Memory α → Prop) : Prop :=
  ∀ memory store index scalars, Q memory → ctx.store = some store →
    store.scalars? ctx.location index = some scalars → Q { memory with scalars := some scalars }

namespace Remembers

theorem chooseVariation (hQ : AllowsVariations ctx Q) (h : m.Remembers Q)
    {store : VariationStore α} (hstore : ctx.store = some store) (index : ℕ) :
    Keeps (Remembers Q) id (m.chooseVariation ctx store index) := by
  unfold Machine.chooseVariation
  split
  next scalars hscalars => exact hQ m.memory store index scalars h hstore hscalars
  next => exact h

theorem setVariation (hQ : AllowsVariations ctx Q) (h : m.Remembers Q) :
    Keeps (Remembers Q) id (m.setVariation ctx) := by
  refine h.popInt.bind fun (index, m) h => ?_
  dsimp only
  split
  next => exact h
  next store hstore =>
    split_ifs
    · exact (Remembers.chooseVariation hQ h hstore _).bind fun _ h => h.clear
    · exact h

theorem blend (hQ : AllowsVariations ctx Q) (h : m.Remembers Q) :
    Keeps (Remembers Q) id (m.blend ctx) := by
  have hblend (m : Machine α) (h : m.Remembers Q) : Keeps (Remembers Q) id (do
      return m.withStack (← m.attempt (m.stack.blend (m.scalars.getD [])))) :=
    .attempt h fun _ _ => h
  unfold Machine.blend
  dsimp only
  split
  next => exact hblend m h
  next => exact h
  next store _ hstore => exact (Remembers.chooseVariation hQ h hstore _).bind hblend

/-- An operator keeps what is remembered if choosing variation data does and, where it calculates,
what it comes to does. -/
theorem evaluate (hQ : AllowsVariations ctx Q) (h : m.Remembers Q) (op : Operator)
    (hcalculated : ∀ a c, op = .arithmetic a → m.calculator.evaluate a = .ok c →
      Q { m.memory with storage := c.storage, generator := c.generator }) :
    Keeps (Remembers Q) id (m.evaluate ctx op) := by
  cases op with
  | path op => exact h.drawPath op
  | arithmetic a => exact .attempt h fun c hc => hcalculated a c rfl hc
  | stems axis masked => exact (h.declareStems axis).bind fun _ h => h.clear
  | threeStems axis =>
    simp only [Machine.evaluate]
    split
    · exact h
    · exact (h.addStems axis _).bind fun _ h => h.clear
  | rmoveto | hmoveto | vmoveto =>
    simp only [Machine.evaluate]
    split
    · exact ((h.takeWidth _).moveTo _ _).clear
    · exact h.takeWidth _
  | hsbw | sbw | setcurrentpoint =>
    simp only [Machine.evaluate]
    split <;> exact h
  | seac =>
    simp only [Machine.evaluate]
    split
    · exact (h.addAccented _ _ _ _).clear
    · exact h
  | callothersubr => exact h.callOther
  | pop => exact h.popResult
  | vsindex => exact h.setVariation hQ
  | blend => exact h.blend hQ
  | closepath | dotsection | call | ret | endchar | mask => exact h

end Remembers

end Machine

end Letterform.Charstring
