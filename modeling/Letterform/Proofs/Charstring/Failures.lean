import Letterform.Proofs.Charstring.Fetching
import Letterform.Proofs.Charstring.Frames

/-!
# A failing operator draws nothing

Whatever an operator has done to the stack, the stems or the width before it fails, it leaves the
figure, the current point and the components alone. So where evaluation stops with an error, the
outline is what was drawn up to the operator that failed.
-/

namespace Letterform.Charstring

variable {α β γ : Type}

namespace Machine

-- ---------------------------------------------------------------------------
-- What does not draw
-- ---------------------------------------------------------------------------

/-- The same has been drawn and placed, and the current point is the same. -/
structure SameDrawing (m m' : Machine α) : Prop where
  builder : m'.builder = m.builder
  position : m'.position = m.position
  components : m'.glyph.components = m.glyph.components

variable {m m₀ : Machine α} {ctx : Context α} {op : Operator} {halt : Halt α}

theorem SameDrawing.refl (m : Machine α) : m.SameDrawing m := ⟨rfl, rfl, rfl⟩

theorem SameDrawing.trans {m' m'' : Machine α} (h : m.SameDrawing m') (h' : m'.SameDrawing m'') :
    m.SameDrawing m'' :=
  ⟨h'.builder.trans h.builder, h'.position.trans h.position, h'.components.trans h.components⟩

variable [Scalar α]

theorem inert_sameDrawing (m₀ : Machine α) : Inert m₀.SameDrawing where
  calm h _ hstill := h.trans ⟨hstill.builder, hstill.position, hstill.components⟩
  addStem {m m' axis start width} h hadd := by
    unfold addStem at hadd
    dsimp only at hadd
    split at hadd
    · cases hadd
    · cases hadd
      exact ⟨h.builder, h.position, h.components⟩

-- ---------------------------------------------------------------------------
-- What draws
-- ---------------------------------------------------------------------------

/-- If a computation halts, nothing has been drawn since this machine. -/
def FailsFirst (m₀ : Machine α) (x : Outcome α β) : Prop :=
  ∀ halt, x = .error halt → m₀.SameDrawing halt.machine

omit [Scalar α] in
theorem failsFirst_ok (b : β) : m₀.FailsFirst (.ok b : Outcome α β) := by
  rintro halt ⟨⟩

omit [Scalar α] in
theorem failsFirst_halt (h : m₀.SameDrawing m) (e : Error) :
    m₀.FailsFirst (m.halt e : Outcome α β) := by
  rintro _ ⟨⟩
  exact h

omit [Scalar α] in
theorem Keeps.failsFirst {x : Outcome α β} {machineOf : β → Machine α}
    (h : Keeps m₀.SameDrawing machineOf x) : m₀.FailsFirst x := by
  rintro halt rfl
  exact h

omit [Scalar α] in
theorem Keeps.bind_failsFirst {x : Outcome α β} {f : β → Outcome α γ} {machineOf : β → Machine α}
    (hx : Keeps m₀.SameDrawing machineOf x)
    (hf : ∀ b, m₀.SameDrawing (machineOf b) → m₀.FailsFirst (f b)) : m₀.FailsFirst (x >>= f) := by
  cases x with
  | error halt =>
    rintro _ ⟨⟩
    exact hx
  | ok b => exact hf b hx

theorem failsFirst_callOther (m : Machine α) : m.FailsFirst m.callOther := by
  refine ((inert_sameDrawing m).popInt (.refl m)).bind_failsFirst fun (number, m₁) h₁ => ?_
  refine ((inert_sameDrawing m).popInt h₁).bind_failsFirst fun (count, m₂) h₂ => ?_
  have hoperands : Keeps m.SameDrawing (fun _ => m₂) (m₂.attempt (m₂.stack.popMany count)) := by
    cases m₂.stack.popMany count <;> exact h₂
  exact hoperands.bind_failsFirst fun _ _ => failsFirst_ok _

theorem failsFirst_evaluate (m : Machine α) (ctx : Context α) (op : Operator) :
    m.FailsFirst (m.evaluate ctx op) := by
  have hrefl := SameDrawing.refl m
  have hinert := inert_sameDrawing m
  cases op with
  | path op =>
    simp only [evaluate, drawPath]
    split
    · exact failsFirst_halt hrefl _
    · exact failsFirst_ok _
  | arithmetic op =>
    rintro halt h
    simp only [evaluate, attempt] at h
    cases hc : m.calculator.evaluate op with
    | error e =>
      rw [hc] at h
      cases h
      exact hrefl
    | ok c =>
      rw [hc] at h
      cases h
  | stems axis masked =>
    exact (hinert.declareStems hrefl axis).bind_failsFirst fun _ _ => failsFirst_ok _
  | threeStems axis =>
    simp only [evaluate]
    split
    · exact failsFirst_halt hrefl _
    · exact (hinert.addStems hrefl axis _).bind_failsFirst fun _ _ => failsFirst_ok _
  | rmoveto | hmoveto | vmoveto =>
    simp only [evaluate]
    split
    · exact failsFirst_ok _
    · exact failsFirst_halt (hinert.takeWidth hrefl ctx _) _
  | hsbw | sbw | seac | setcurrentpoint =>
    simp only [evaluate]
    split
    · exact failsFirst_ok _
    · exact failsFirst_halt hrefl _
  | callothersubr => exact failsFirst_callOther m
  | pop => exact (hinert.popResult hrefl).failsFirst
  | vsindex => exact (hinert.setVariation hrefl).failsFirst
  | blend => exact (hinert.blend hrefl).failsFirst
  | closepath | dotsection | call | ret | endchar | mask => exact failsFirst_ok _

theorem failsFirst_takeMask (isCounter : Bool) (rest : List UInt8) (m : Machine α) :
    m.FailsFirst (takeMask ctx isCounter rest m) := by
  refine ((inert_sameDrawing m).prepareMask (.refl m)).bind_failsFirst fun m' h => ?_
  dsimp only
  split_ifs
  · exact failsFirst_halt h _
  · exact failsFirst_ok _

theorem failsFirst_execute {t : Token α} (hcall : Configuration.callOf? ctx t = none)
    (rest : List UInt8) (m : Machine α) : m.FailsFirst (execute ctx 0 t rest m) := by
  cases t with
  | operand a => exact ((inert_sameDrawing m).push (.refl m) a).bind_failsFirst fun _ _ => failsFirst_ok _
  | operator op =>
    by_cases hknown : op.isKnownTo ctx.version = true
    · by_cases hplain : op.isPlain = true
      · rw [execute_plain hknown hplain]
        rintro halt h
        cases heval : m.evaluate ctx op with
        | error halt' =>
          rw [heval] at h
          cases h
          exact failsFirst_evaluate m ctx op halt heval
        | ok m' =>
          rw [heval] at h
          cases h
      · dsimp only [execute]
        rw [if_neg (by simp [hknown])]
        cases op with
        | call isGlobal =>
          rw [Configuration.callOf?_call hknown] at hcall
          cases hcall
        | mask isCounter => exact failsFirst_takeMask isCounter rest m
        | ret | endchar => exact failsFirst_ok _
        | _ => exact absurd rfl hplain
    · rw [execute_unknown hknown]
      split_ifs
      · exact failsFirst_ok _
      · exact failsFirst_halt (.refl m) _

theorem SameDrawing.finish_report {m m' : Machine α} (h : m.SameDrawing m') (ctx : Context α)
    (e : Error) : ((m'.report e).finish ctx).glyph.figures = (m.finish ctx).glyph.figures ∧
      ((m'.report e).finish ctx).glyph.components = (m.finish ctx).glyph.components ∧
      ((m'.report e).finish ctx).glyph.bounds = (m.finish ctx).glyph.bounds := by
  simp only [finish, report, Glyph.withBounds, h.builder, h.components, and_self]

end Machine

namespace Configuration

variable [Scalar α] {ctx : Context α} {c : Configuration α} {halt : Halt α} {code : List UInt8}

theorem sameDrawing_of_next (h : c.next ctx = some (.error halt)) :
    c.machine.SameDrawing halt.machine := by
  have hstep := step_of_next h
  generalize hx : (.error halt : Outcome α (Configuration α)) = x at hstep
  cases hstep with
  | frameEnd => cases hx
  | @noToken _ _ _ m _ _ =>
    cases hx
    exact .refl m
  | @call _ _ rest outer m isGlobal _ _ =>
    have henter : m.FailsFirst (enter ctx isGlobal rest outer m) := by
      refine ((Machine.inert_sameDrawing m).popInt (.refl m)).bind_failsFirst fun (index, m') _ => ?_
      dsimp only
      split
      · exact Machine.failsFirst_ok _
      · split <;> exact Machine.failsFirst_ok _
    exact henter halt hx.symm
  | @token _ _ rest outer m t _ hcall =>
    cases hexecute : Machine.execute ctx 0 t rest m with
    | error halt' =>
      rw [hexecute] at hx
      cases hx
      exact Machine.failsFirst_execute hcall rest m halt hexecute
    | ok next =>
      rw [hexecute] at hx
      cases hx

theorem exists_failing_step (h : (Machine.start ctx).run ctx callLimit code = .error halt) :
    ∃ c, Reaches ctx (start ctx code) c ∧ c.next ctx = some (.error halt) := by
  obtain ⟨c, hreaches, ⟨-, hok⟩ | ⟨halt', hnext, herror⟩⟩ := endsWith_run ctx code
  · rw [h] at hok
    cases hok
  · rw [h] at herror
    cases herror
    exact ⟨c, hreaches, hnext⟩

/-- A failing operator draws no part of itself, in whatever state the machine is: the figure, the
current point and the components stay as they are. This is so for path operators too that fetch
their operands as they draw. If a charstring stops with an error, its outline is therefore the one
that the operators before the failing one have drawn. -/
theorem failing_operator_draws_nothing (ctx : Context α) :
    (∀ (m : Machine α) (op : PathOperator), m.perform op = m.evaluate ctx (.path op)) ∧
      (∀ (m : Machine α) op halt, m.evaluate ctx op = .error halt → m.SameDrawing halt.machine) ∧
      (∀ (c : Configuration α) halt, c.next ctx = some (.error halt) →
        c.machine.SameDrawing halt.machine) ∧
      ∀ code halt, (Machine.start ctx).run ctx callLimit code = .error halt →
        ∃ c, Reaches ctx (start ctx code) c ∧ c.next ctx = some (.error halt) ∧
          (decode ctx code).glyph.figures = (c.machine.finish ctx).glyph.figures ∧
          (decode ctx code).glyph.components = (c.machine.finish ctx).glyph.components ∧
          (decode ctx code).glyph.bounds = (c.machine.finish ctx).glyph.bounds := by
  refine ⟨fun m op => m.perform_eq_drawPath op, fun m op => m.failsFirst_evaluate ctx op,
    fun c halt => sameDrawing_of_next, fun code halt hrun => ?_⟩
  obtain ⟨c, hreaches, hnext⟩ := exists_failing_step hrun
  have hdecode : decode ctx code = (halt.machine.report halt.error).finish ctx := by
    rw [decode, hrun]
  rw [hdecode]
  exact ⟨c, hreaches, hnext, (sameDrawing_of_next hnext).finish_report ctx halt.error⟩

end Configuration

end Letterform.Charstring
