import Letterform.Proofs.Charstring.Execution
import Letterform.Proofs.Charstring.Reports
import Letterform.Proofs.Except
import Letterform.Proofs.Number.Double

/-!
# A call does what the code of the subroutine does in its place

Code is executed token by token. Whole tokens are executed in the same way whatever comes behind
them, so it makes no difference whether what is executed next belongs to the same charstring or is
reached by returning from a subroutine. The level at which code is executed matters to nothing but
a call below the last level, and each of those is reported.
-/

namespace Letterform.Charstring

variable {α : Type} [Scalar α]

-- ---------------------------------------------------------------------------
-- Reading in front of more code
-- ---------------------------------------------------------------------------

theorem Operand.read?_append {version : Version} {b : UInt8} {code rest : List UInt8} {a : α}
    (h : Operand.read? version b code = some (a, rest)) (tail : List UInt8) :
    Operand.read? version b (code ++ tail) = some (a, rest ++ tail) := by
  unfold Operand.read? at h ⊢
  dsimp only at h ⊢
  split_ifs at h ⊢
  all_goals first
    | cases h; rfl
    | split at h <;> cases h; rfl

namespace Token

/-- What comes behind some code stays behind what is left of it. -/
def followedBy {β : Type} (tail : List UInt8) (x : β × List UInt8) : β × List UInt8 :=
  (x.1, x.2 ++ tail)

theorem readOperator_append {b : UInt8} {code : List UInt8}
    (h : readOperator b code ≠ .error .unexpectedEnd) (tail : List UInt8) :
    readOperator b (code ++ tail) = (readOperator b code).map (followedBy tail) := by
  unfold readOperator at h ⊢
  split_ifs at h ⊢
  · cases code with
    | nil => exact absurd rfl h
    | cons b1 code =>
      dsimp only [List.cons_append]
      cases Operator.ofOpcode? (.escaped b1) <;> rfl
  · cases Operator.ofOpcode? (.short b) <;> rfl

theorem read_append {version : Version} {b : UInt8} {code : List UInt8}
    (h : (Token.read version b code : Except Error (Token α × List UInt8)) ≠ .error .unexpectedEnd)
    (tail : List UInt8) :
    (Token.read version b (code ++ tail) : Except Error (Token α × List UInt8)) =
      (Token.read version b code).map (followedBy tail) := by
  unfold Token.read at h ⊢
  split_ifs at h ⊢
  · cases hread : Operand.read? (α := α) version b code with
    | none => exact absurd (by rw [hread]) h
    | some found =>
      obtain ⟨a, rest⟩ := found
      rw [Operand.read?_append hread tail]
      rfl
  · have hop : readOperator b code ≠ .error .unexpectedEnd := fun hop => h (by rw [hop]; rfl)
    rw [readOperator_append hop tail]
    cases readOperator b code <;> rfl

end Token

namespace Machine

-- ---------------------------------------------------------------------------
-- One token
-- ---------------------------------------------------------------------------

section

variable (ctx : Context α) (levels : ℕ)

/-- Calls the subroutine whose number is on the stack. A call that cannot be made is reported and
returns at once. -/
def call (isGlobal : Bool) (m : Machine α) : Outcome α (Machine α × Ending) := do
  let (index, m) ← m.popInt
  match levels with
  | 0 => return (m.report .nestingDepthLimitExceeded, .returned)
  | levels + 1 =>
    let subroutines := if isGlobal then ctx.globalSubroutines else ctx.localSubroutines
    match subroutines.get index with
    | .error e => return (m.report e, .returned)
    | .ok body => run ctx levels body m

/-- What comes after a call: the code behind it, unless the charstring has ended. -/
def comeBack (rest : List UInt8) : Machine α × Ending → (Machine α × Option Ending) × List UInt8
  | (m, .returned) => ((m, none), rest)
  | (m, .finished) => ((m, some .finished), rest)

def takeMask (isCounter : Bool) (rest : List UInt8) (m : Machine α) :
    Outcome α ((Machine α × Option Ending) × List UInt8) := do
  let m ← m.prepareMask ctx
  let length := HintMask.byteLength (m.hintCount ctx)
  if rest.length < length then m.halt (.hintMaskTruncated length rest.length)
  else return ((m.addMask ctx isCounter (rest.take length), none), rest.drop length)

/-- Executes the token in front of some code: the machine after it, how the code has ended if it
goes no further, and the code that is left. -/
def execute (t : Token α) (rest : List UInt8) (m : Machine α) :
    Outcome α ((Machine α × Option Ending) × List UInt8) :=
  match t with
  | .operand a => do return ((← m.push a, none), rest)
  | .operator op =>
    if !op.isKnownTo ctx.version then
      let unsupported := Error.unsupportedOperator op ctx.version
      if op = .dotsection then .ok (((m.report unsupported).clear, none), rest)
      else m.halt unsupported
    else
      match op with
      | .call isGlobal => do return comeBack rest (← call ctx levels isGlobal m)
      | .ret => .ok ((m, some .returned), rest)
      | .endchar => .ok ((m.endCharacter ctx, some .finished), rest)
      | .mask isCounter => takeMask ctx isCounter rest m
      | op => do return ((← m.evaluate ctx op, none), rest)

/-- Goes on with the code that is left, unless it has ended. -/
def proceed : (Machine α × Option Ending) × List UInt8 → Outcome α (Machine α × Ending)
  | ((m, none), rest) => run ctx levels rest m
  | ((m, some ending), _) => .ok (m, ending)

end

variable {ctx : Context α} {levels : ℕ}

theorem run_nil (m : Machine α) : m.run ctx levels [] = .ok (m, .returned) := by
  rw [run]

theorem run_of_read_error {b : UInt8} {code : List UInt8} {e : Error}
    (h : Token.read (α := α) ctx.version b code = .error e) (m : Machine α) :
    m.run ctx levels (b :: code) = m.halt e := by
  rw [run]
  split <;> rename_i heq <;> rw [h] at heq <;> cases heq
  rfl

theorem run_of_read {b : UInt8} {code rest : List UInt8} {t : Token α}
    (h : Token.read ctx.version b code = .ok (t, rest)) (m : Machine α) :
    m.run ctx levels (b :: code) = execute ctx levels t rest m >>= proceed ctx levels := by
  rw [run]
  split <;> rename_i heq <;> rw [h] at heq <;> cases heq
  · dsimp only [execute]
    cases m.push _ <;> rfl
  rename_i op
  dsimp only [execute]
  split_ifs
  · rfl
  · rfl
  cases op with
  | call isGlobal =>
    dsimp only [call]
    cases m.popInt with
    | error halt => rfl
    | ok popped =>
      cases levels with
      | zero => rfl
      | succ levels =>
        dsimp only [bind, Except.bind]
        cases (if isGlobal = true then ctx.globalSubroutines else ctx.localSubroutines).get
          popped.1 with
        | error e => rfl
        | ok body =>
          dsimp only
          rcases run ctx levels body popped.2 with halt | ⟨m, _ | _⟩ <;> rfl
  | mask isCounter =>
    dsimp only [takeMask]
    cases m.prepareMask ctx with
    | error halt => rfl
    | ok m =>
      dsimp only [bind, Except.bind]
      split_ifs <;> rfl
  | ret => rfl
  | endchar => rfl
  | _ =>
    dsimp only
    generalize m.evaluate ctx _ = x
    cases x <;> rfl

theorem execute_unknown {op : Operator} (hunknown : ¬ op.isKnownTo ctx.version = true)
    (rest : List UInt8) (m : Machine α) :
    execute ctx levels (.operator op) rest m =
      if op = .dotsection then
        .ok (((m.report (.unsupportedOperator op ctx.version)).clear, none), rest)
      else m.halt (.unsupportedOperator op ctx.version) := by
  dsimp only [execute]
  rw [if_pos (by simp [hunknown])]

theorem execute_plain {op : Operator} (hknown : op.isKnownTo ctx.version = true)
    (hplain : op.isPlain = true) (rest : List UInt8) (m : Machine α) :
    execute ctx levels (.operator op) rest m =
      (m.evaluate ctx op).map fun m => ((m, none), rest) := by
  dsimp only [execute]
  rw [if_neg (by simp [hknown])]
  cases op with
  | call => cases hplain
  | ret => cases hplain
  | endchar => cases hplain
  | mask => cases hplain
  | _ =>
    dsimp only
    generalize m.evaluate ctx _ = x
    cases x <;> rfl

/-- What a token does may depend neither on the level nor on the code behind it. Properties that
last are kept then. -/
def IsLocal (ctx : Context α) (t : Token α) (m : Machine α) : Prop :=
  ∃ x : Outcome α (Machine α × Option Ending),
    (∀ P, Lasting P → P m → Keeps P Prod.fst x) ∧
      ∀ levels rest, execute ctx levels t rest m = x.map (·, rest)

theorem isLocal_of_execute {t : Token α} {m : Machine α} {x : Outcome α (Machine α)}
    (hx : ∀ P, Lasting P → P m → Keeps P id x)
    (h : ∀ levels rest, execute ctx levels t rest m = x.map fun m => ((m, none), rest)) :
    IsLocal ctx t m := by
  refine ⟨x.map (·, none), fun P hP hm => (hx P hP hm).map fun _ => rfl, fun levels rest => ?_⟩
  rw [h]
  cases x <;> rfl

theorem execute_cases (ctx : Context α) (t : Token α) (m : Machine α) :
    (∃ isGlobal, t = .operator (.call isGlobal) ∧
      (Operator.call isGlobal).isKnownTo ctx.version = true ∧
      ∀ levels rest, execute ctx levels t rest m =
        (call ctx levels isGlobal m).map (comeBack rest)) ∨
    (∃ isCounter, t = .operator (.mask isCounter) ∧
      (Operator.mask isCounter).isKnownTo ctx.version = true ∧
      ∀ levels rest, execute ctx levels t rest m = takeMask ctx isCounter rest m) ∨
    IsLocal ctx t m := by
  cases t with
  | operand a =>
    refine .inr (.inr (isLocal_of_execute (fun _ hP h => hP.inert.push h a) fun levels rest => ?_))
    dsimp only [execute]
    cases m.push a <;> rfl
  | operator op =>
    by_cases hknown : op.isKnownTo ctx.version = true
    · by_cases hplain : op.isPlain = true
      · exact .inr (.inr (isLocal_of_execute (fun _ hP h => hP.evaluate h op)
          fun levels rest => execute_plain hknown hplain rest m))
      · have hbranch : ¬ (!op.isKnownTo ctx.version) = true := by simp [hknown]
        cases op with
        | call isGlobal =>
          refine .inl ⟨isGlobal, rfl, hknown, fun levels rest => ?_⟩
          dsimp only [execute]
          rw [if_neg hbranch]
          cases call ctx levels isGlobal m <;> rfl
        | mask isCounter =>
          refine .inr (.inl ⟨isCounter, rfl, hknown, fun levels rest => ?_⟩)
          dsimp only [execute]
          rw [if_neg hbranch]
        | ret =>
          refine .inr (.inr ⟨.ok (m, some .returned), fun _ _ h => h, fun levels rest => ?_⟩)
          dsimp only [execute]
          rw [if_neg hbranch]
          rfl
        | endchar =>
          refine .inr (.inr ⟨.ok (m.endCharacter ctx, some .finished),
            fun _ hP h => hP.endCharacter h, fun levels rest => ?_⟩)
          dsimp only [execute]
          rw [if_neg hbranch]
          rfl
        | _ => exact absurd rfl hplain
    · let unsupported := Error.unsupportedOperator op ctx.version
      refine .inr (.inr (isLocal_of_execute (x := if op = .dotsection then
        .ok (m.report unsupported).clear else m.halt unsupported) (fun P hP h => ?_)
          fun levels rest => ?_))
      · split_ifs
        · exact hP.inert.clear (hP.report h nofun)
        · exact h
      · rw [execute_unknown hknown]
        split_ifs <;> rfl

-- ---------------------------------------------------------------------------
-- Whole tokens
-- ---------------------------------------------------------------------------

/-- The bytes of a mask, if the token has one, are all there. -/
def MaskFits (ctx : Context α) (t : Token α) (rest : List UInt8) (m : Machine α) : Prop :=
  ∀ isCounter m', t = .operator (.mask isCounter) →
    (Operator.mask isCounter).isKnownTo ctx.version = true → m.prepareMask ctx = .ok m' →
      HintMask.byteLength (m'.hintCount ctx) ≤ rest.length

theorem maskFits_of_execute {t : Token α} {rest : List UInt8} {m : Machine α}
    {next : (Machine α × Option Ending) × List UInt8} (h : execute ctx levels t rest m = .ok next) :
    MaskFits ctx t rest m := by
  rintro isCounter m' rfl hknown hprepare
  simp only [execute, hknown, Bool.not_true, Bool.false_eq_true, if_false, takeMask, hprepare] at h
  by_contra hshort
  rw [bind_ok] at h
  obtain ⟨_, hm, h⟩ := h
  cases hm
  rw [if_pos (not_le.mp hshort)] at h
  cases h

theorem execute_append {t : Token α} {rest : List UInt8} {m : Machine α}
    (hfits : MaskFits ctx t rest m) (tail : List UInt8) :
    execute ctx levels t (rest ++ tail) m =
      (execute ctx levels t rest m).map (Token.followedBy tail) := by
  obtain ⟨isGlobal, -, -, hcall⟩ | ⟨isCounter, rfl, hknown, hmask⟩ | ⟨x, -, hx⟩ := execute_cases ctx t m
  · rw [hcall, hcall]
    rcases call ctx levels isGlobal m with halt | ⟨m, _ | _⟩ <;> rfl
  · rw [hmask, hmask, takeMask, takeMask]
    cases hprepare : m.prepareMask ctx with
    | error halt => rfl
    | ok m' =>
      have hlength := hfits isCounter m' rfl hknown hprepare
      dsimp only [bind, Except.bind]
      rw [if_neg (by simp; omega), if_neg (by omega), List.take_append_of_le_length hlength,
        List.drop_append_of_le_length hlength]
      rfl
  · rw [hx, hx]
    cases x <;> rfl

theorem length_execute {t : Token α} {rest rest' : List UInt8} {m m' : Machine α}
    {ending : Option Ending} (h : execute ctx levels t rest m = .ok ((m', ending), rest')) :
    rest'.length ≤ rest.length := by
  obtain ⟨isGlobal, -, -, hcall⟩ | ⟨isCounter, -, -, hmask⟩ | ⟨x, -, hx⟩ := execute_cases ctx t m
  · rw [hcall] at h
    generalize call ctx levels isGlobal m = x at h
    rcases x with halt | ⟨m, _ | _⟩ <;> cases h <;> rfl
  · rw [hmask, takeMask, bind_ok] at h
    obtain ⟨m', -, h⟩ := h
    dsimp only at h
    split_ifs at h
    · cases h
    · cases h
      exact List.length_drop.trans_le (Nat.sub_le _ _)
  · rw [hx] at h
    cases x <;> cases h
    rfl

theorem executed_induction (ctx : Context α) (levels : ℕ) {P : List UInt8 → Machine α → Prop}
    (nil : ∀ m, P [] m)
    (invalid : ∀ b code m e, Token.read (α := α) ctx.version b code = .error e → P (b :: code) m)
    (token : ∀ b code t rest m, Token.read ctx.version b code = .ok (t, rest) →
      (∀ m' rest', execute ctx levels t rest m = .ok ((m', none), rest') → P rest' m') →
        P (b :: code) m) (code : List UInt8) (m : Machine α) : P code m := by
  induction hn : code.length using Nat.strong_induction_on generalizing code m with
  | _ n ih =>
    subst hn
    cases code with
    | nil => exact nil m
    | cons b code =>
      cases hread : Token.read (α := α) ctx.version b code with
      | error e => exact invalid b code m e hread
      | ok found =>
        obtain ⟨t, rest⟩ := found
        refine token b code t rest m hread fun m' rest' hexecute => ih _ ?_ rest' m' rfl
        have hread' := Token.length_rest_le hread
        have hexecute' := length_execute hexecute
        rw [List.length_cons]
        omega

/-- Code that consists of whole tokens as they are executed, and what they come to: an error, or a
machine and how the code ended before its last byte, if it did. -/
inductive Executes (ctx : Context α) (levels : ℕ) :
    List UInt8 → Machine α → Outcome α (Machine α × Option Ending) → Prop
  | nil (m : Machine α) : Executes ctx levels [] m (.ok (m, none))
  | goesOn {b code t rest m m' rest' x} : Token.read ctx.version b code = .ok (t, rest) →
    execute ctx levels t rest m = .ok ((m', none), rest') → Executes ctx levels rest' m' x →
      Executes ctx levels (b :: code) m x
  | ends {b code t rest m m' rest' ending} : Token.read ctx.version b code = .ok (t, rest) →
    execute ctx levels t rest m = .ok ((m', some ending), rest') →
      Executes ctx levels (b :: code) m (.ok (m', some ending))
  | stops {b code t rest m halt} : Token.read ctx.version b code = .ok (t, rest) →
    MaskFits ctx t rest m → execute ctx levels t rest m = .error halt →
      Executes ctx levels (b :: code) m (.error halt)
  | invalid {b code m e} : Token.read (α := α) ctx.version b code = .error e →
    e ≠ .unexpectedEnd → Executes ctx levels (b :: code) m (m.halt e)

theorem Executes.run_append {code : List UInt8} {m : Machine α}
    {x : Outcome α (Machine α × Option Ending)} (h : Executes ctx levels code m x)
    (tail : List UInt8) :
    m.run ctx levels (code ++ tail) = x >>= fun next => proceed ctx levels (next, tail) := by
  have read_append {b : UInt8} {code rest : List UInt8} {t : Token α}
      (hread : Token.read ctx.version b code = .ok (t, rest)) :
      Token.read ctx.version b (code ++ tail) = .ok (t, rest ++ tail) := by
    rw [Token.read_append (by rw [hread]; nofun), hread]
    rfl
  induction h with
  | nil m => rfl
  | goesOn hread hexecute _ ih =>
    rw [List.cons_append, run_of_read (read_append hread),
      execute_append (maskFits_of_execute hexecute), hexecute]
    exact ih
  | ends hread hexecute =>
    rw [List.cons_append, run_of_read (read_append hread),
      execute_append (maskFits_of_execute hexecute), hexecute]
    rfl
  | stops hread hfits hexecute =>
    rw [List.cons_append, run_of_read (read_append hread), execute_append hfits, hexecute]
    rfl
  | @invalid b code m e hread he =>
    have hread' := Token.read_append (α := α) (by rw [hread]; simpa using he) tail
    rw [hread] at hread'
    rw [List.cons_append, run_of_read_error hread']
    rfl

theorem Executes.run_eq {code : List UInt8} {m : Machine α}
    {x : Outcome α (Machine α × Option Ending)} (h : Executes ctx levels code m x) :
    m.run ctx levels code = x.map fun next => (next.1, next.2.getD .returned) := by
  have hrun := h.run_append []
  rw [List.append_nil] at hrun
  rw [hrun]
  rcases x with halt | ⟨m', _ | ending⟩
  · rfl
  · exact run_nil m'
  · rfl

-- ---------------------------------------------------------------------------
-- What is reported on the way
-- ---------------------------------------------------------------------------

variable {reports : List Error} {m : Machine α} {t : Token α}

theorem keeps_execute {P : Machine α → Prop} (hP : Lasting P)
    (hcall : ∀ isGlobal, t = .operator (.call isGlobal) →
      (Operator.call isGlobal).isKnownTo ctx.version = true →
        Keeps P Prod.fst (call ctx levels isGlobal m)) (h : P m) (rest : List UInt8) :
    Keeps P (fun next => next.1.1) (execute ctx levels t rest m) := by
  obtain ⟨isGlobal, ht, hknown, heq⟩ | ⟨isCounter, -, -, heq⟩ | ⟨x, hx, heq⟩ :=
    execute_cases ctx t m
  · rw [heq]
    exact (hcall isGlobal ht hknown).map fun | (_, .returned) => rfl | (_, .finished) => rfl
  · rw [heq, takeMask]
    refine (hP.inert.prepareMask h).bind fun m h => ?_
    dsimp only
    split_ifs
    · exact h
    · exact hP.quiet h (quiet_addMask m isCounter _)
  · rw [heq]
    exact (hx P hP h).map fun _ => rfl

theorem keeps_run_of_call (hcall : ∀ (m : Machine α) isGlobal, m.Reported reports →
      Keeps (Reported reports) Prod.fst (call ctx levels isGlobal m)) (code : List UInt8)
    (h : m.Reported reports) : Keeps (Reported reports) Prod.fst (m.run ctx levels code) := by
  induction code, m using executed_induction ctx levels with
  | nil m =>
    rw [run_nil]
    exact h
  | invalid b code m e hread =>
    rw [run_of_read_error hread]
    exact h
  | token b code t rest m hread ih =>
    have hstep := keeps_execute (t := t) (lasting_reported reports)
      (fun isGlobal _ _ => hcall m isGlobal h) h rest
    rw [run_of_read hread]
    cases hexecute : execute ctx levels t rest m with
    | error halt =>
      rw [hexecute] at hstep
      exact hstep
    | ok next =>
      rw [hexecute] at hstep
      obtain ⟨⟨m', _ | ending⟩, rest'⟩ := next
      · exact ih m' rest' hexecute hstep
      · exact hstep

theorem keeps_call_of_run (hrun : ∀ below < levels, ∀ (m : Machine α) code,
      m.Reported reports → Keeps (Reported reports) Prod.fst (m.run ctx below code))
    (h : m.Reported reports) (isGlobal : Bool) :
    Keeps (Reported reports) Prod.fst (call ctx levels isGlobal m) := by
  refine ((lasting_reported reports).inert.popInt h).bind ?_
  rintro ⟨index, m⟩ h
  cases levels with
  | zero => exact h.report _
  | succ levels =>
    dsimp only
    split
    · exact h.report _
    · exact hrun levels (Nat.lt_succ_self _) m _ h

theorem keeps_run (ctx : Context α) (levels : ℕ) (code : List UInt8) (h : m.Reported reports) :
    Keeps (Reported reports) Prod.fst (m.run ctx levels code) := by
  induction levels using Nat.strong_induction_on generalizing code m with
  | _ levels ih =>
    refine keeps_run_of_call (fun m isGlobal h => ?_) code h
    exact keeps_call_of_run (fun below hbelow m code h => ih below hbelow code h) h isGlobal

theorem keeps_call (ctx : Context α) (levels : ℕ) (h : m.Reported reports) (isGlobal : Bool) :
    Keeps (Reported reports) Prod.fst (call ctx levels isGlobal m) :=
  keeps_call_of_run (fun below _ _ code h => keeps_run ctx below code h) h isGlobal

theorem keeps_proceed (ctx : Context α) (levels : ℕ)
    (next : (Machine α × Option Ending) × List UInt8) :
    Keeps (Reported next.1.1.diagnostics.toList) Prod.fst (proceed ctx levels next) := by
  obtain ⟨⟨m, _ | ending⟩, rest⟩ := next
  · exact keeps_run ctx levels rest (Reported.refl m)
  · exact Reported.refl m

-- ---------------------------------------------------------------------------
-- One level further down
-- ---------------------------------------------------------------------------

/-- How many calls were passed over because they lay below the last level. -/
def overruns (m : Machine α) : ℕ := m.diagnostics.toList.count .nestingDepthLimitExceeded

/-- No call in a computation that starts with a machine lies below the last level. -/
def Shallow {β : Type} (m : Machine α) (machineOf : β → Machine α) (x : Outcome α β) : Prop :=
  (Outcome.machine machineOf x).overruns = m.overruns

omit [Scalar α] in
theorem Reported.overruns_le {m' : Machine α} (h : m'.Reported m.diagnostics.toList) :
    m.overruns ≤ m'.overruns :=
  h.sublist.count_le _

omit [Scalar α] in
theorem overruns_report (m : Machine α) :
    (m.report .nestingDepthLimitExceeded).overruns = m.overruns + 1 := by
  simp [overruns, report]

omit [Scalar α] in
theorem Shallow.parts {β γ : Type} {x : Outcome α β} {f : β → Outcome α γ}
    {machineOf : β → Machine α} {machineOf' : γ → Machine α}
    (h : Shallow m machineOf' (x >>= f)) (hx : Keeps (Reported m.diagnostics.toList) machineOf x)
    (hf : ∀ b, Keeps (Reported (machineOf b).diagnostics.toList) machineOf' (f b)) :
    Shallow m machineOf x ∧ ∀ b, x = .ok b → Shallow (machineOf b) machineOf' (f b) := by
  cases x with
  | error halt => exact ⟨h, nofun⟩
  | ok b =>
    have hle := Reported.overruns_le hx
    have hle' := Reported.overruns_le (hf b)
    have heq : (Outcome.machine machineOf' (f b)).overruns = m.overruns := h
    refine ⟨?_, ?_⟩
    · show (machineOf b).overruns = m.overruns
      have : (machineOf b).overruns = (Outcome.machine machineOf (.ok b)).overruns := rfl
      omega
    · rintro _ ⟨⟩
      show _ = (machineOf b).overruns
      have : (machineOf b).overruns = (Outcome.machine machineOf (.ok b)).overruns := rfl
      omega

theorem Shallow.tokens {b : UInt8} {code rest : List UInt8} {t : Token α}
    (h : Shallow m Prod.fst (m.run ctx levels (b :: code)))
    (hread : Token.read ctx.version b code = .ok (t, rest)) :
    Shallow m (fun next => next.1.1) (execute ctx levels t rest m) ∧
      ∀ m' rest', execute ctx levels t rest m = .ok ((m', none), rest') →
        Shallow m' Prod.fst (m'.run ctx levels rest') := by
  have hkept := Reported.refl m
  rw [run_of_read hread] at h
  obtain ⟨hfirst, hrest⟩ := h.parts
    (keeps_execute (lasting_reported _) (fun isGlobal _ _ => keeps_call ctx levels hkept isGlobal)
      hkept rest)
    (keeps_proceed ctx levels)
  exact ⟨hfirst, fun m' rest' hexecute => hrest _ hexecute⟩

omit [Scalar α] in
theorem shallow_map {β γ : Type} {x : Outcome α β} {f : β → γ} {machineOf : β → Machine α}
    {machineOf' : γ → Machine α} (hf : ∀ b, machineOf' (f b) = machineOf b) :
    Shallow m machineOf' (x.map f) ↔ Shallow m machineOf x := by
  cases x with
  | error halt => rfl
  | ok b =>
    show (machineOf' (f b)).overruns = _ ↔ _
    rw [hf]
    rfl

theorem execute_succ (hcall : ∀ isGlobal, Shallow m Prod.fst (call ctx levels isGlobal m) →
      call ctx (levels + 1) isGlobal m = call ctx levels isGlobal m) {t : Token α}
    {rest : List UInt8} (h : Shallow m (fun next => next.1.1) (execute ctx levels t rest m)) :
    execute ctx (levels + 1) t rest m = execute ctx levels t rest m := by
  obtain ⟨isGlobal, -, -, heq⟩ | ⟨isCounter, -, -, heq⟩ | ⟨x, -, heq⟩ := execute_cases ctx t m
  · rw [heq] at h
    rw [heq, heq, hcall isGlobal]
    exact (shallow_map fun | (_, .returned) => rfl | (_, .finished) => rfl).mp h
  · rw [heq, heq]
  · rw [heq, heq]

theorem run_succ_of_call (hcall : ∀ (m : Machine α) isGlobal,
      Shallow m Prod.fst (call ctx levels isGlobal m) →
        call ctx (levels + 1) isGlobal m = call ctx levels isGlobal m) (code : List UInt8)
    (h : Shallow m Prod.fst (m.run ctx levels code)) :
    m.run ctx (levels + 1) code = m.run ctx levels code := by
  induction code, m using executed_induction ctx levels with
  | nil m => rw [run_nil, run_nil]
  | invalid b code m e hread => rw [run_of_read_error hread, run_of_read_error hread]
  | token b code t rest m hread ih =>
    obtain ⟨hfirst, hrest⟩ := h.tokens hread
    rw [run_of_read hread, run_of_read hread, execute_succ (hcall m) hfirst]
    cases hexecute : execute ctx levels t rest m with
    | error halt => rfl
    | ok next =>
      obtain ⟨⟨m', _ | ending⟩, rest'⟩ := next
      · exact ih m' rest' hexecute (hrest m' rest' hexecute)
      · rfl

theorem call_succ_of_run (hrun : ∀ below < levels, ∀ (m : Machine α) code,
      Shallow m Prod.fst (m.run ctx below code) →
        m.run ctx (below + 1) code = m.run ctx below code) {isGlobal : Bool}
    (h : Shallow m Prod.fst (call ctx levels isGlobal m)) :
    call ctx (levels + 1) isGlobal m = call ctx levels isGlobal m := by
  unfold call at h ⊢
  obtain ⟨-, h⟩ := h.parts ((lasting_reported _).inert.popInt (Reported.refl m)) fun popped => by
    have hm := Reported.refl popped.2
    cases levels with
    | zero => exact hm.report _
    | succ levels =>
      dsimp only
      split
      · exact hm.report _
      · exact keeps_run ctx levels _ hm
  cases hpop : m.popInt with
  | error halt => rfl
  | ok popped =>
    have h := h popped hpop
    cases levels with
    | zero =>
      have := overruns_report popped.2
      have h : (popped.2.report .nestingDepthLimitExceeded).overruns = popped.2.overruns := h
      omega
    | succ levels =>
      dsimp only [bind, Except.bind] at h ⊢
      split at h
      · rfl
      · exact hrun levels (Nat.lt_succ_self _) popped.2 _ h

theorem run_succ {code : List UInt8} (h : Shallow m Prod.fst (m.run ctx levels code)) :
    m.run ctx (levels + 1) code = m.run ctx levels code := by
  induction levels using Nat.strong_induction_on generalizing code m with
  | _ levels ih =>
    refine run_succ_of_call (fun m isGlobal h => ?_) code h
    exact call_succ_of_run (fun below hbelow m code h => ih below hbelow h) h

theorem call_succ {isGlobal : Bool} (h : Shallow m Prod.fst (call ctx levels isGlobal m)) :
    call ctx (levels + 1) isGlobal m = call ctx levels isGlobal m :=
  call_succ_of_run (fun _ _ _ _ h => run_succ h) h

theorem Executes.shallow {code : List UInt8} {x : Outcome α (Machine α × Option Ending)}
    (h : Executes ctx levels code m x) (hx : Shallow m Prod.fst x) :
    Shallow m Prod.fst (m.run ctx levels code) := by
  rw [h.run_eq]
  exact (shallow_map fun _ => rfl).mpr hx

theorem Executes.of_succ {code : List UInt8} {x : Outcome α (Machine α × Option Ending)}
    (h : Executes ctx (levels + 1) code m x) (hshallow : Shallow m Prod.fst (m.run ctx levels code)) :
    Executes ctx levels code m x := by
  induction h with
  | nil m => exact .nil m
  | goesOn hread hexecute _ ih =>
    obtain ⟨hfirst, hrest⟩ := hshallow.tokens hread
    rw [execute_succ (fun _ => call_succ) hfirst] at hexecute
    exact .goesOn hread hexecute (ih (hrest _ _ hexecute))
  | ends hread hexecute =>
    rw [execute_succ (fun _ => call_succ) (hshallow.tokens hread).1] at hexecute
    exact .ends hread hexecute
  | stops hread hfits hexecute =>
    rw [execute_succ (fun _ => call_succ) (hshallow.tokens hread).1] at hexecute
    exact .stops hread hfits hexecute
  | invalid hread he => exact .invalid hread he

-- ---------------------------------------------------------------------------
-- Calls
-- ---------------------------------------------------------------------------

/-- The code of a subroutine ends with a return in those dialects that have one. -/
def returnOf (version : Version) : List UInt8 :=
  if version = .cff2 then [] else Operator.ret.opcode.toBytes

theorem run_returnOf (m : Machine α) :
    m.run ctx levels (returnOf ctx.version) = .ok (m, .returned) := by
  unfold returnOf
  split_ifs with hversion
  · exact run_nil m
  · obtain ⟨b, rest, hbytes, hread⟩ := Operator.ret.read_opcode (α := α) ctx.version
    have hread := hread []
    rw [List.append_nil] at hread
    rw [hbytes, run_of_read hread]
    dsimp only [execute]
    rw [if_neg (by simp [Operator.isKnownTo, hversion])]
    rfl

/-- A call whose operand fits on the stack runs the subroutine and then goes on behind the call. -/
theorem run_call {isGlobal : Bool} (hknown : (Operator.call isGlobal).isKnownTo ctx.version = true)
    {operand body : List UInt8} {a : α} (hoperand : Operand.Encodes ctx.version operand a)
    (hbody : (if isGlobal then ctx.globalSubroutines else ctx.localSubroutines).get
      (Scalar.toInt32 a) = .ok body)
    (hroom : m.stack.size < m.stack.limit) (tail : List UInt8) :
    m.run ctx (levels + 1) (operand ++ ((Operator.call isGlobal).opcode.toBytes ++ tail)) =
      m.run ctx levels body >>= fun next => proceed ctx (levels + 1) (comeBack tail next) := by
  obtain ⟨b, rest, hbytes, hread⟩ := (Operator.call isGlobal).read_opcode (α := α) ctx.version
  have hpop : (m.load [a]).popInt = .ok (Scalar.toInt32 a, m) := rfl
  rw [run_operand ctx _ hoperand, push_eq_load m a hroom, hbytes]
  show (m.load [a]).run ctx (levels + 1) (b :: (rest ++ tail)) = _
  rw [run_of_read (hread tail)]
  dsimp only [execute]
  rw [if_neg (by simp [hknown])]
  dsimp only [call]
  rw [hpop]
  dsimp only [bind, Except.bind]
  rw [hbody]
  dsimp only
  rcases m.run ctx levels body with halt | ⟨m, ending⟩ <;> rfl

theorem run_call_eq_run {isGlobal : Bool}
    (hknown : (Operator.call isGlobal).isKnownTo ctx.version = true)
    {operand body : List UInt8} {a : α} (hoperand : Operand.Encodes ctx.version operand a)
    (hbody : (if isGlobal then ctx.globalSubroutines else ctx.localSubroutines).get
      (Scalar.toInt32 a) = .ok (body ++ returnOf ctx.version))
    (hroom : m.stack.size < m.stack.limit) {x : Outcome α (Machine α × Option Ending)}
    (hwhole : Executes ctx (levels + 1) body m x) (hreturn : ∀ m', x ≠ .ok (m', some .returned))
    (hshallow : Shallow m Prod.fst (m.run ctx levels body)) (tail : List UInt8) :
    m.run ctx (levels + 1) (operand ++ ((Operator.call isGlobal).opcode.toBytes ++ tail)) =
      m.run ctx (levels + 1) (body ++ tail) := by
  rw [run_call hknown hoperand hbody hroom, (hwhole.of_succ hshallow).run_append,
    hwhole.run_append]
  rcases x with halt | ⟨m', _ | _ | _⟩
  · rfl
  · show (m'.run ctx levels (returnOf ctx.version) >>= _) = _
    rw [run_returnOf]
    rfl
  · exact absurd rfl (hreturn m')
  · rfl

end Machine

-- ---------------------------------------------------------------------------
-- Subroutines by their numbers
-- ---------------------------------------------------------------------------

variable [LawfulScalar α]

omit [LawfulScalar α] in
theorem Subroutines.bias_ofArray (items : Array (List UInt8)) (version : Version) :
    (ofArray items version).bias ≤ 32768 ∧
      (version = .type1 → (ofArray items version).bias = 0) := by
  dsimp only [ofArray, biasOf]
  split_ifs <;> simp_all

theorem Subroutines.get_ofArray {version : Version} {items : Array (List UInt8)} {index : ℕ}
    {body operand : List UInt8} {a : α} (hbody : items[index]? = some body)
    (hoperand : Operand.Encodes version operand a)
    (ha : Scalar.toInt32 a = index - (ofArray items version).bias) :
    (ofArray items version).get (Scalar.toInt32 a) = .ok body := by
  have hbias := bias_ofArray items version
  have hindex : (index : ℤ) ≤ 0x7fffffff := by
    by_cases hversion : version = .type1
    · have hzero := hbias.2 hversion
      have : Scalar.toInt32 a ≤ 0x7fffffff := (LawfulScalar.truncate_mem (by norm_num)).2
      omega
    · obtain ⟨b, rest, -, -, hread⟩ := hoperand
      obtain ⟨n, hn, -, hhigh⟩ := Operand.isFixed_of_read? hversion (hread [])
      have := hn.toInt32_lt hhigh
      omega
  have hsize : index < items.size := (Array.getElem?_eq_some_iff.mp hbody).1
  have hempty : ¬ items.isEmpty = true := by
    rw [Array.isEmpty_iff_size_eq_zero]
    omega
  show (if items.isEmpty then _ else _) = _
  rw [if_neg hempty, ha]
  simp only [sub_add_cancel, min_eq_left hindex]
  rw [if_pos (Int.natCast_nonneg index), Int.toNat_natCast,
    show (ofArray items version).items = items from rfl, hbody]

-- ---------------------------------------------------------------------------
-- Charstrings
-- ---------------------------------------------------------------------------

/-- A machine can call a subroutine with this code in place of executing the code itself: the code
consists of whole tokens and does not return, and it makes no call that lies below the last level
when it is a subroutine. -/
structure Machine.CanCall (ctx : Context α) (body : List UInt8) (m : Machine α) : Prop where
  room : m.stack.size < m.stack.limit
  whole : ∃ x, Executes ctx callLimit body m x ∧ ∀ m', x ≠ .ok (m', some .returned)
  shallow : Shallow m Prod.fst (m.run ctx (callLimit - 1) body)

/-- Putting code into a subroutine and calling it there changes nothing about what is decoded. -/
theorem decode_call {ctx : Context Float} {isGlobal : Bool}
    (hknown : isGlobal = true → ctx.version ≠ .type1) {items : Array (List UInt8)}
    (hitems : (if isGlobal then ctx.globalSubroutines else ctx.localSubroutines) =
      .ofArray items ctx.version)
    {index : ℕ} {before body after operand : List UInt8}
    (hbody : items[index]? = some (body ++ Machine.returnOf ctx.version)) {a : Float}
    (hoperand : Operand.Encodes ctx.version operand a)
    (ha : Scalar.toInt32 a = index - (Subroutines.ofArray items ctx.version).bias)
    {x : Outcome Float (Machine Float × Option Ending)}
    (hbefore : Machine.Executes ctx callLimit before (Machine.start ctx) x)
    (hcall : ∀ m, x = .ok (m, none) → m.CanCall ctx body) :
    decode ctx (before ++ ((operand ++ (Operator.call isGlobal).opcode.toBytes) ++ after)) =
      decode ctx (before ++ (body ++ after)) := by
  have hversion : (Operator.call isGlobal).isKnownTo ctx.version = true := by
    cases isGlobal with
    | false => rfl
    | true => simpa [Operator.isKnownTo] using hknown rfl
  have hget := Subroutines.get_ofArray hbody hoperand ha
  rw [← hitems] at hget
  have hrun : (Machine.start ctx).run ctx callLimit
      (before ++ ((operand ++ (Operator.call isGlobal).opcode.toBytes) ++ after)) =
        (Machine.start ctx).run ctx callLimit (before ++ (body ++ after)) := by
    rw [hbefore.run_append, hbefore.run_append]
    rcases x with halt | ⟨m, _ | ending⟩
    · rfl
    · obtain ⟨hroom, ⟨y, hwhole, hreturn⟩, hshallow⟩ := hcall m rfl
      rw [List.append_assoc]
      exact Machine.run_call_eq_run hversion hoperand hget hroom hwhole hreturn hshallow after
    · rfl
  rw [decode, hrun, decode]

def stemAndMove : List UInt8 := [149, 159, 18, 169, 179, 21]

def stroke : List UInt8 := [19, 11, 189, 199, 5, 119, 6]

def strokeFont : Context Float :=
  { localSubroutines := .ofArray #[stroke ++ Machine.returnOf .type2] .type2 }

theorem canCall_stroke : ∃ m, Machine.Executes strokeFont callLimit stemAndMove
    (Machine.start strokeFont) (.ok (m, none)) ∧ m.CanCall strokeFont stroke := by
  refine ⟨_, .goesOn rfl rfl <| .goesOn rfl rfl <| .goesOn rfl rfl <| .goesOn rfl rfl <|
    .goesOn rfl rfl <| .goesOn rfl rfl <| .nil _, ⟨?_, ⟨_, .goesOn rfl rfl <| .goesOn rfl rfl <|
      .goesOn rfl rfl <| .goesOn rfl rfl <| .goesOn rfl rfl <| .goesOn rfl rfl <| .nil _, ?_⟩, ?_⟩⟩
  · decide +kernel
  · simp only [ne_eq, Except.ok.injEq, Prod.mk.injEq, reduceCtorEq, and_false, not_false_eq_true,
      implies_true]
  · refine Machine.Executes.shallow (.goesOn rfl rfl <| .goesOn rfl rfl <| .goesOn rfl rfl <|
      .goesOn rfl rfl <| .goesOn rfl rfl <| .goesOn rfl rfl <| .nil _) ?_
    unfold Machine.Shallow
    decide +kernel

theorem decode_call_stroke :
    decode strokeFont
        (stemAndMove ++ (([32] ++ (Operator.call false).opcode.toBytes) ++ [14])) =
      decode strokeFont (stemAndMove ++ (stroke ++ [14])) := by
  obtain ⟨m, hbefore, hcall⟩ := canCall_stroke
  have hknown : false = true → strokeFont.version ≠ .type1 := nofun
  have hitems : (if false then strokeFont.globalSubroutines else strokeFont.localSubroutines) =
    .ofArray #[stroke ++ Machine.returnOf .type2] strokeFont.version := rfl
  have hoperand : Operand.Encodes .type2 [32] (Scalar.ofInt (-107) : Float) :=
    ⟨32, [], rfl, rfl, fun _ => rfl⟩
  have hnumber : Scalar.toInt32 (Scalar.ofInt (-107) : Float) = ((0 : ℕ) : ℤ) -
    (Subroutines.ofArray #[stroke ++ Machine.returnOf .type2] .type2).bias := by decide +kernel
  refine decode_call hknown hitems rfl hoperand hnumber hbefore ?_
  rintro _ ⟨⟩
  exact hcall

end Letterform.Charstring
