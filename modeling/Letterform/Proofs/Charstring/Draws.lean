import Letterform.Proofs.Charstring.Generator
import Letterform.Proofs.Charstring.Memory

/-!
# Drawing random numbers

Only random operators take the generator on, each of them by one state. So the state tells how many
of them have been executed, whatever the charstring does in between, and it is never zero.
-/

namespace Letterform.Charstring

variable {α : Type} [Scalar α]

-- ---------------------------------------------------------------------------
-- Arithmetic
-- ---------------------------------------------------------------------------

namespace Calculator

variable {c c' : Calculator α}

omit [Scalar α] in
theorem generator_withStack {result : Except Error (Stack α)} (h : c.withStack result = .ok c') :
    c'.generator = c.generator := by
  cases result with
  | error e => cases h
  | ok stack =>
    cases h
    rfl

omit [Scalar α] in
theorem generator_store {index : ℤ} {a : α} (h : c.store index a = .ok c') :
    c'.generator = c.generator := by
  unfold store at h
  split_ifs at h
  cases h
  rfl

theorem generator_evaluate {op : Arithmetic} (hop : op ≠ .random) (h : c.evaluate op = .ok c') :
    c'.generator = c.generator := by
  cases op with
  | random => exact absurd rfl hop
  | and | or | not | abs | add | sub | div | neg | eq | mul | sqrt => exact generator_withStack h
  | drop =>
    simp only [evaluate, bind_ok, pure_ok] at h
    obtain ⟨_, -, rfl⟩ := h
    rfl
  | put =>
    simp only [evaluate, bind_ok] at h
    obtain ⟨_, -, _, -, hstore⟩ := h
    rw [generator_store hstore]
  | get | exch | roll =>
    simp only [evaluate, bind_ok] at h
    obtain ⟨_, -, _, -, h⟩ := h
    exact generator_withStack h
  | ifelse =>
    simp only [evaluate, bind_ok] at h
    obtain ⟨_, -, _, -, _, -, _, -, h⟩ := h
    exact generator_withStack h
  | dup | index =>
    simp only [evaluate, bind_ok] at h
    obtain ⟨_, -, h⟩ := h
    exact generator_withStack h

def drawn (c : Calculator α) : Calculator α :=
  let state := Generator.next c.generator
  { c with
    stack := { c.stack with values := Generator.value state :: c.stack.values }
    generator := state }

theorem evaluate_random (h : c.stack.size < c.stack.limit) : c.evaluate .random = .ok c.drawn := by
  simp only [evaluate, Stack.push, if_pos h]
  rfl

theorem evaluate_random_of_full (h : c.stack.limit ≤ c.stack.size) :
    c.evaluate .random = .error .stackOverflow := by
  simp only [evaluate, Stack.push, if_neg (not_lt.mpr h)]
  rfl

end Calculator

-- ---------------------------------------------------------------------------
-- One step
-- ---------------------------------------------------------------------------

namespace Configuration

variable {ctx : Context α} {c₀ c c' : Configuration α} {k : ℕ}

def generator (c : Configuration α) : UInt32 := c.machine.calculator.generator

theorem IsAt.next_random (h : c.IsAt ctx (.arithmetic .random))
    (hroom : c.machine.stack.size < c.machine.stack.limit) :
    ∃ frames, c.next ctx =
      some (.ok ⟨frames, { c.machine with calculator := c.machine.calculator.drawn }⟩) := by
  obtain ⟨frames, hnext⟩ := h.next rfl
  refine ⟨frames, ?_⟩
  rw [hnext, Machine.evaluate, Calculator.evaluate_random hroom]
  rfl

theorem IsAt.next_random_of_full (h : c.IsAt ctx (.arithmetic .random))
    (hfull : c.machine.stack.limit ≤ c.machine.stack.size) :
    c.next ctx = some (c.machine.halt .stackOverflow) := by
  obtain ⟨frames, hnext⟩ := h.next rfl
  rw [hnext, Machine.evaluate, Calculator.evaluate_random_of_full hfull]
  rfl

theorem IsAt.generator_next (h : c.IsAt ctx (.arithmetic .random))
    (hnext : c.next ctx = some (.ok c')) : c'.generator = Generator.next c.generator := by
  rcases lt_or_ge c.machine.stack.size c.machine.stack.limit with hroom | hfull
  · obtain ⟨frames, hdraw⟩ := h.next_random hroom
    rw [hdraw] at hnext
    cases hnext
    rfl
  · rw [h.next_random_of_full hfull] at hnext
    cases hnext

theorem generator_next (h : ¬ c.IsAt ctx (.arithmetic .random))
    (hnext : c.next ctx = some (.ok c')) : c'.generator = c.generator := by
  -- the state before the step is what the machine has to remember through it
  let Q : Memory α → Prop := fun memory => memory.generator = c.generator
  refine (Machine.isKeptAround_remembers ctx Q).next rfl (fun op hop => ?_) hnext
  refine Machine.Remembers.evaluate (Q := Q) (fun _ _ _ _ h _ _ => h) rfl op ?_
  rintro a calculator rfl hcalculated
  exact Calculator.generator_evaluate (by rintro rfl; exact h hop) hcalculated

-- ---------------------------------------------------------------------------
-- Any number of steps
-- ---------------------------------------------------------------------------

/-- Evaluation gets from one configuration to another and executes so many random operators on the
way. -/
inductive Draws (ctx : Context α) (c₀ : Configuration α) : ℕ → Configuration α → Prop
  | refl : Draws ctx c₀ 0 c₀
  | random {k : ℕ} {c c' : Configuration α} : Draws ctx c₀ k c →
    c.IsAt ctx (.arithmetic .random) → c.next ctx = some (.ok c') → Draws ctx c₀ (k + 1) c'
  | other {k : ℕ} {c c' : Configuration α} : Draws ctx c₀ k c →
    ¬ c.IsAt ctx (.arithmetic .random) → c.next ctx = some (.ok c') → Draws ctx c₀ k c'

theorem Draws.reaches (h : c₀.Draws ctx k c) : c₀.Reaches ctx c := by
  induction h with
  | refl => exact .refl
  | random _ _ hnext ih => exact ih.tail hnext
  | other _ _ hnext ih => exact ih.tail hnext

theorem Reaches.exists_draws (h : c₀.Reaches ctx c) : ∃ k, c₀.Draws ctx k c := by
  induction h with
  | refl => exact ⟨0, .refl⟩
  | @tail c c' _ hnext ih =>
    obtain ⟨k, ih⟩ := ih
    by_cases hrandom : c.IsAt ctx (.arithmetic .random)
    · exact ⟨k + 1, ih.random hrandom hnext⟩
    · exact ⟨k, ih.other hrandom hnext⟩

theorem Draws.generator_eq (h : c₀.Draws ctx k c) : c.generator = Generator.next^[k] c₀.generator := by
  induction h with
  | refl => rfl
  | random _ hrandom hnext ih => rw [hrandom.generator_next hnext, ih, Function.iterate_succ_apply']
  | other _ hother hnext ih => rw [generator_next hother hnext, ih]

end Configuration

/-- Whatever a charstring does, the state of the generator is that after the random operators executed
so far, and it is not zero. So each random operator for which there is room on the stack pushes a
number that is greater than 0 and at most 1. -/
theorem random_draws_positive (ctx : Context Float) (code : List UInt8) :
    (∀ c, (Configuration.start ctx code).Reaches ctx c ↔
        ∃ k, (Configuration.start ctx code).Draws ctx k c) ∧
      ∀ k c, (Configuration.start ctx code).Draws ctx k c →
        c.generator = Generator.next^[k] Generator.seed ∧ c.generator ≠ 0 ∧
        (c.IsAt ctx (.arithmetic .random) →
          (c.machine.stack.size < c.machine.stack.limit → ∃ (c' : Configuration Float) (a : Float),
            c.next ctx = some (.ok c') ∧ (Configuration.start ctx code).Draws ctx (k + 1) c' ∧
            c'.machine.operands = c.machine.operands ++ [a] ∧ 0 < a ∧ a ≤ 1) ∧
          (c.machine.stack.limit ≤ c.machine.stack.size →
            c.next ctx = some (c.machine.halt .stackOverflow))) := by
  refine ⟨fun c => ⟨Configuration.Reaches.exists_draws, fun ⟨_, h⟩ => h.reaches⟩, fun k c h => ?_⟩
  have hstate : c.generator = Generator.next^[k] Generator.seed := h.generator_eq
  refine ⟨hstate, hstate ▸ Generator.iterate_next_ne_zero k, fun hrandom => ?_⟩
  refine ⟨fun hroom => ?_, hrandom.next_random_of_full⟩
  obtain ⟨frames, hnext⟩ := hrandom.next_random hroom
  have hnonzero : Generator.next c.generator ≠ 0 := by
    rw [hstate, ← Function.iterate_succ_apply' Generator.next k]
    exact Generator.iterate_next_ne_zero (k + 1)
  exact ⟨_, Generator.value (Generator.next c.generator), hnext, h.random hrandom hnext,
    List.reverse_cons .., Generator.value_mem hnonzero⟩

/-- A charstring that begins with a random operator. -/
theorem random_draws_positive_first :
    let ctx : Context Float := { version := .type2 }
    ∃ (c : Configuration Float) (a : Float),
      (Configuration.start ctx [12, 23]).next ctx = some (.ok c) ∧ c.machine.operands = [a] ∧
        0 < a ∧ a ≤ 1 := by
  intro ctx
  have hrandom : (Configuration.start ctx [12, 23]).IsAt ctx (.arithmetic .random) :=
    ⟨12, [23], [], [], rfl, rfl, rfl⟩
  obtain ⟨-, -, hdraws⟩ := (random_draws_positive ctx [12, 23]).2 0 _ .refl
  obtain ⟨c, a, hnext, -, hoperands, hvalue⟩ := (hdraws hrandom).1 (by decide)
  exact ⟨c, a, hnext, hoperands, hvalue⟩

end Letterform.Charstring
