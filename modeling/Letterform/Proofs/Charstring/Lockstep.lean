import Letterform.Proofs.Charstring.Calls

/-!
# Two machines in step

Two machines that differ in something no operator looks at execute the same code token by token
alike: they read the same tokens, call the same subroutines, stop at the same errors, and still
differ in nothing else. What has to be checked of a relation is what one token does.
-/

namespace Letterform.Charstring

variable {α β γ δ : Type}

namespace Machine

/-- Two computations come to related results, or are stopped by the same error on related
machines. -/
inductive InStep (R : Machine α → Machine α → Prop) (S : β → γ → Prop) :
    Outcome α β → Outcome α γ → Prop
  | ok {b : β} {c : γ} : S b c → InStep R S (.ok b) (.ok c)
  | error {m m' : Machine α} {e : Error} : R m m' → InStep R S (.error ⟨m, e⟩) (.error ⟨m', e⟩)

/-- How machines are related where one goes with a further result. -/
def Beside (R : Machine α → Machine α → Prop) (machineOf : β → Machine α) (rest : β → γ)
    (b b' : β) : Prop :=
  R (machineOf b) (machineOf b') ∧ rest b = rest b'

variable {R : Machine α → Machine α → Prop}

theorem InStep.bind {β' γ' : Type} {S : β → γ → Prop} {T : β' → γ' → Prop} {x : Outcome α β}
    {y : Outcome α γ} {f : β → Outcome α β'} {g : γ → Outcome α γ'} (h : InStep R S x y)
    (hfg : ∀ b c, S b c → InStep R T (f b) (g c)) : InStep R T (x >>= f) (y >>= g) := by
  cases h with
  | ok h => exact hfg _ _ h
  | error h => exact .error h

theorem InStep.map {β' γ' : Type} {S : β → γ → Prop} {T : β' → γ' → Prop} {x : Outcome α β}
    {y : Outcome α γ} {f : β → β'} {g : γ → γ'} (h : InStep R S x y)
    (hfg : ∀ b c, S b c → T (f b) (g c)) : InStep R T (x.map f) (y.map g) := by
  cases h with
  | ok h => exact .ok (hfg _ _ h)
  | error h => exact .error h

theorem InStep.attempt {S : β → γ → Prop} {m m' : Machine α} (h : R m m')
    {result : Except Error δ} {f : δ → Outcome α β} {g : δ → Outcome α γ}
    (hfg : ∀ d, result = .ok d → InStep R S (f d) (g d)) :
    InStep R S (m.attempt result >>= f) (m'.attempt result >>= g) := by
  cases result with
  | error e => exact .error h
  | ok d => exact hfg d rfl

variable [Scalar α]

/-- A relation between machines that everything keeps which one token can do in the dialect of a
context. -/
structure Lockstep (ctx : Context α) (R : Machine α → Machine α → Prop) : Prop where
  push {m m' : Machine α} (a : α) : R m m' → InStep R R (m.push a) (m'.push a)
  popInt {m m' : Machine α} : R m m' → InStep R (Beside R Prod.snd Prod.fst) m.popInt m'.popInt
  report {m m' : Machine α} (e : Error) : R m m' → R (m.report e) (m'.report e)
  clear {m m' : Machine α} : R m m' → R m.clear m'.clear
  evaluate {m m' : Machine α} {op : Operator} : R m m' → op.isKnownTo ctx.version = true →
    InStep R R (m.evaluate ctx op) (m'.evaluate ctx op)
  endCharacter {m m' : Machine α} : R m m' → R (m.endCharacter ctx) (m'.endCharacter ctx)
  prepareMask {m m' : Machine α} : R m m' → InStep R R (m.prepareMask ctx) (m'.prepareMask ctx)
  hintCount {m m' : Machine α} : R m m' → m.hintCount ctx = m'.hintCount ctx
  addMask {m m' : Machine α} (isCounter : Bool) (bytes : List UInt8) : R m m' →
    R (m.addMask ctx isCounter bytes) (m'.addMask ctx isCounter bytes)

namespace Lockstep

variable {ctx : Context α} (hR : Lockstep ctx R) {m m' : Machine α} {levels : ℕ}
include hR

theorem takeMask (h : R m m') (isCounter : Bool) (rest : List UInt8) :
    InStep R (Beside R (·.1.1) fun next => (next.1.2, next.2)) (takeMask ctx isCounter rest m)
      (takeMask ctx isCounter rest m') := by
  refine (hR.prepareMask h).bind fun m m' h => ?_
  dsimp only
  rw [hR.hintCount h]
  split_ifs
  · exact .error h
  · exact .ok ⟨hR.addMask isCounter _ h, rfl⟩

theorem execute (hcall : ∀ isGlobal, InStep R (Beside R Prod.fst Prod.snd)
      (call ctx levels isGlobal m) (call ctx levels isGlobal m')) (h : R m m') (t : Token α)
    (rest : List UInt8) :
    InStep R (Beside R (·.1.1) fun next => (next.1.2, next.2)) (execute ctx levels t rest m)
      (execute ctx levels t rest m') := by
  cases t with
  | operand a => exact (hR.push a h).bind fun _ _ h => .ok ⟨h, rfl⟩
  | operator op =>
    by_cases hknown : op.isKnownTo ctx.version = true
    · by_cases hplain : op.isPlain = true
      · rw [execute_plain hknown hplain, execute_plain hknown hplain]
        exact (hR.evaluate h hknown).map fun _ _ h => ⟨h, rfl⟩
      · dsimp only [Machine.execute]
        rw [if_neg (by simp [hknown]), if_neg (by simp [hknown])]
        cases op with
        | call isGlobal =>
          refine (hcall isGlobal).bind ?_
          rintro ⟨m, ending⟩ ⟨m', ending'⟩ ⟨h, rfl⟩
          cases ending <;> exact .ok ⟨h, rfl⟩
        | mask isCounter => exact hR.takeMask h isCounter rest
        | ret => exact .ok ⟨h, rfl⟩
        | endchar => exact .ok ⟨hR.endCharacter h, rfl⟩
        | _ => exact absurd rfl hplain
    · rw [execute_unknown hknown, execute_unknown hknown]
      split_ifs
      · exact .ok ⟨hR.clear (hR.report _ h), rfl⟩
      · exact .error h

theorem run_of_call (hcall : ∀ {m m' : Machine α}, R m m' → ∀ isGlobal,
      InStep R (Beside R Prod.fst Prod.snd) (call ctx levels isGlobal m)
        (call ctx levels isGlobal m')) (code : List UInt8) (h : R m m') :
    InStep R (Beside R Prod.fst Prod.snd) (m.run ctx levels code) (m'.run ctx levels code) := by
  induction code, m using executed_induction ctx levels generalizing m' with
  | nil m =>
    rw [run_nil, run_nil]
    exact .ok ⟨h, rfl⟩
  | invalid b code m e hread =>
    rw [run_of_read_error hread, run_of_read_error hread]
    exact .error h
  | token b code t rest m hread ih =>
    have hstep := hR.execute (hcall h) h t rest
    rw [run_of_read hread, run_of_read hread]
    generalize hx : Machine.execute ctx levels t rest m = x at hstep ih
    generalize Machine.execute ctx levels t rest m' = y at hstep
    cases hstep with
    | error h => exact .error h
    | @ok next next' hnext =>
      obtain ⟨⟨m, ending⟩, rest⟩ := next
      obtain ⟨⟨m', ending'⟩, rest'⟩ := next'
      obtain ⟨h, heq⟩ := hnext
      obtain ⟨rfl, rfl⟩ := Prod.mk.inj heq
      cases ending with
      | none => exact ih m rest rfl h
      | some ending => exact .ok ⟨h, rfl⟩

theorem call_of_run (hrun : ∀ below < levels, ∀ {m m' : Machine α} (code : List UInt8), R m m' →
      InStep R (Beside R Prod.fst Prod.snd) (m.run ctx below code) (m'.run ctx below code))
    (h : R m m') (isGlobal : Bool) :
    InStep R (Beside R Prod.fst Prod.snd) (call ctx levels isGlobal m)
      (call ctx levels isGlobal m') := by
  refine (hR.popInt h).bind ?_
  rintro ⟨index, m⟩ ⟨index', m'⟩ ⟨h, rfl⟩
  cases levels with
  | zero => exact .ok ⟨hR.report _ h, rfl⟩
  | succ levels =>
    dsimp only
    split
    · exact .ok ⟨hR.report _ h, rfl⟩
    · exact hrun levels (Nat.lt_succ_self _) _ h

theorem run (levels : ℕ) (code : List UInt8) (h : R m m') :
    InStep R (Beside R Prod.fst Prod.snd) (m.run ctx levels code) (m'.run ctx levels code) := by
  induction levels using Nat.strong_induction_on generalizing code m m' with
  | _ levels ih =>
    refine hR.run_of_call (fun h isGlobal => ?_) code h
    exact hR.call_of_run (fun below hbelow _ _ code h => ih below hbelow code h) h isGlobal

end Lockstep

end Machine

end Letterform.Charstring
