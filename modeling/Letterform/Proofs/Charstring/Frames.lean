import Letterform.Proofs.Charstring.Calls
import Mathlib.Logic.Relation

/-!
# Evaluation in small steps

Evaluation can also be seen as going from token to token. What is left of the code of each call in
progress then lies in a frame of its own. Seen in this way evaluation comes to the same end, and at
no step on the way are there more frames or operands than allowed.
-/

namespace Letterform.Charstring

variable {α : Type}

/-- Evaluation between two tokens: the code that is left in the frames, the innermost one in front,
and the machine. -/
structure Configuration (α : Type) where
  frames : List (List UInt8)
  machine : Machine α

namespace Configuration

variable [Scalar α]

def start (ctx : Context α) (code : List UInt8) : Configuration α := ⟨[code], .start ctx⟩

/-- The subroutines that a token calls, if it is a call: whether they are the global ones. -/
def callOf? (ctx : Context α) : Token α → Option Bool
  | .operator (.call isGlobal) =>
    if (Operator.call isGlobal).isKnownTo ctx.version then some isGlobal else none
  | _ => none

/-- Puts the code of the subroutine whose number is on the stack into a new frame. Calls that
cannot be made are reported and passed over. -/
def enter (ctx : Context α) (isGlobal : Bool) (rest : List UInt8) (outer : List (List UInt8))
    (m : Machine α) : Outcome α (Configuration α) := do
  let (index, m) ← m.popInt
  if callLimit ≤ outer.length then return ⟨rest :: outer, m.report .nestingDepthLimitExceeded⟩
  else
    match (if isGlobal then ctx.globalSubroutines else ctx.localSubroutines).get index with
    | .error e => return ⟨rest :: outer, m.report e⟩
    | .ok body => return ⟨body :: rest :: outer, m⟩

/-- What comes after a token that is no call: the code behind it, the frame around it, or nothing. -/
def leave (outer : List (List UInt8)) :
    (Machine α × Option Ending) × List UInt8 → Configuration α
  | ((m, none), rest) => ⟨rest :: outer, m⟩
  | ((m, some .returned), _) => ⟨outer, m⟩
  | ((m, some .finished), _) => ⟨[], m⟩

def next (ctx : Context α) : Configuration α → Option (Outcome α (Configuration α))
  | ⟨[], _⟩ => none
  | ⟨[] :: outer, m⟩ => some (.ok ⟨outer, m⟩)
  | ⟨(b :: code) :: outer, m⟩ =>
    some <| match Token.read (α := α) ctx.version b code with
    | .error e => m.halt e
    | .ok (t, rest) =>
      match callOf? ctx t with
      | some isGlobal => enter ctx isGlobal rest outer m
      | none => (Machine.execute ctx 0 t rest m).map (leave outer)

def Reaches (ctx : Context α) : Configuration α → Configuration α → Prop :=
  Relation.ReflTransGen fun c c' => c.next ctx = some (.ok c')

/-- Evaluation goes on from here for so many steps only, and this is how it ends. -/
def EndsWith (ctx : Context α) (c : Configuration α) (x : Outcome α (Machine α)) : Prop :=
  ∃ c', Reaches ctx c c' ∧
    (c'.next ctx = none ∧ x = .ok c'.machine ∨
      ∃ halt, c'.next ctx = some (.error halt) ∧ x = .error halt)

/-- A call is next, with its operand on the stack and this code behind it. -/
def IsAtCall (ctx : Context α) (c : Configuration α) (rest : List UInt8) : Prop :=
  ∃ b code outer isGlobal, c.frames = (b :: code) :: outer ∧
    Token.read (α := α) ctx.version b code = .ok (.operator (.call isGlobal), rest) ∧
    (Operator.call isGlobal).isKnownTo ctx.version = true ∧ c.machine.stack.values ≠ []

variable {ctx : Context α} {m m' : Machine α} {t : Token α} {b : UInt8} {code rest : List UInt8}
  {outer : List (List UInt8)} {isGlobal : Bool} {levels : ℕ}

-- ---------------------------------------------------------------------------
-- One step
-- ---------------------------------------------------------------------------

theorem next_of_read_error {e : Error}
    (h : Token.read (α := α) ctx.version b code = .error e) :
    next ctx ⟨(b :: code) :: outer, m⟩ = some (m.halt e) := by
  simp only [next, h]

theorem next_of_call (h : Token.read ctx.version b code = .ok (t, rest))
    (hcall : callOf? ctx t = some isGlobal) :
    next ctx ⟨(b :: code) :: outer, m⟩ = some (enter ctx isGlobal rest outer m) := by
  simp only [next, h, hcall]

theorem next_of_not_call (h : Token.read ctx.version b code = .ok (t, rest))
    (hcall : callOf? ctx t = none) :
    next ctx ⟨(b :: code) :: outer, m⟩ =
      some ((Machine.execute ctx 0 t rest m).map (leave outer)) := by
  simp only [next, h, hcall]

omit [Scalar α] in
theorem callOf?_eq_some (h : callOf? ctx t = some isGlobal) :
    t = .operator (.call isGlobal) ∧ (Operator.call isGlobal).isKnownTo ctx.version = true := by
  unfold callOf? at h
  split at h
  next isGlobal' =>
    split_ifs at h with hknown
    cases h
    exact ⟨rfl, hknown⟩
  next => cases h

omit [Scalar α] in
theorem callOf?_call (hknown : (Operator.call isGlobal).isKnownTo ctx.version = true) :
    callOf? ctx (.operator (.call isGlobal)) = some isGlobal := by
  simp only [callOf?, hknown, if_true]

/-- What a step does, by what is next: the end of a frame, bytes that are no token, a call, or a
token that is no call. -/
inductive Step (ctx : Context α) : Configuration α → Outcome α (Configuration α) → Prop
  | frameEnd {outer : List (List UInt8)} {m : Machine α} :
      Step ctx ⟨[] :: outer, m⟩ (.ok ⟨outer, m⟩)
  | noToken {b : UInt8} {code : List UInt8} {outer : List (List UInt8)} {m : Machine α} {e : Error}
      (hread : Token.read (α := α) ctx.version b code = .error e) :
      Step ctx ⟨(b :: code) :: outer, m⟩ (m.halt e)
  | call {b : UInt8} {code rest : List UInt8} {outer : List (List UInt8)} {m : Machine α}
      {isGlobal : Bool}
      (hread : Token.read (α := α) ctx.version b code = .ok (.operator (.call isGlobal), rest))
      (hknown : (Operator.call isGlobal).isKnownTo ctx.version = true) :
      Step ctx ⟨(b :: code) :: outer, m⟩ (enter ctx isGlobal rest outer m)
  | token {b : UInt8} {code rest : List UInt8} {outer : List (List UInt8)} {m : Machine α}
      {t : Token α} (hread : Token.read ctx.version b code = .ok (t, rest))
      (hcall : callOf? ctx t = none) :
      Step ctx ⟨(b :: code) :: outer, m⟩ ((Machine.execute ctx 0 t rest m).map (leave outer))

theorem step_of_next {c : Configuration α} {x : Outcome α (Configuration α)}
    (hnext : c.next ctx = some x) : Step ctx c x := by
  obtain ⟨frames, m⟩ := c
  rcases frames with _ | ⟨_ | ⟨b, code⟩, outer⟩
  · cases hnext
  · cases hnext
    exact .frameEnd
  · rcases hread : Token.read (α := α) ctx.version b code with e | ⟨t, rest⟩
    · rw [next_of_read_error hread] at hnext
      cases hnext
      exact .noToken hread
    · cases hcall : callOf? ctx t with
      | none =>
        rw [next_of_not_call hread hcall] at hnext
        cases hnext
        exact .token hread hcall
      | some isGlobal =>
        obtain ⟨rfl, hknown⟩ := callOf?_eq_some hcall
        rw [next_of_call hread hcall] at hnext
        cases hnext
        exact .call hread hknown

theorem execute_of_not_call (hcall : callOf? ctx t = none) :
    Machine.execute ctx levels t rest m = Machine.execute ctx 0 t rest m := by
  obtain ⟨isGlobal, rfl, hknown, -⟩ | ⟨isCounter, -, -, heq⟩ | ⟨x, -, heq⟩ :=
    Machine.execute_cases ctx t m
  · rw [callOf?_call hknown] at hcall
    cases hcall
  · rw [heq, heq]
  · rw [heq, heq]

theorem execute_of_call (hcall : callOf? ctx t = some isGlobal) :
    Machine.execute ctx levels t rest m =
      (Machine.call ctx levels isGlobal m).map (Machine.comeBack rest) := by
  obtain ⟨rfl, hknown⟩ := callOf?_eq_some hcall
  dsimp only [Machine.execute]
  rw [if_neg (by simp [hknown])]
  cases Machine.call ctx levels isGlobal m <;> rfl

-- ---------------------------------------------------------------------------
-- The same end
-- ---------------------------------------------------------------------------

/-- Evaluation gets from a configuration to where some code has come to its end, with these frames
around that code. -/
def Completes (ctx : Context α) (c : Configuration α) (outer : List (List UInt8)) :
    Outcome α (Machine α × Ending) → Prop
  | .ok (m, .returned) => Reaches ctx c ⟨outer, m⟩
  | .ok (m, .finished) => Reaches ctx c ⟨[], m⟩
  | .error halt => ∃ c', Reaches ctx c c' ∧ c'.next ctx = some (.error halt)

theorem Completes.head {c c' : Configuration α} {x : Outcome α (Machine α × Ending)}
    (hstep : c.next ctx = some (.ok c')) (h : Completes ctx c' outer x) :
    Completes ctx c outer x := by
  rcases x with halt | ⟨m, _ | _⟩
  · obtain ⟨c'', hreaches, hhalt⟩ := h
    exact ⟨c'', .head hstep hreaches, hhalt⟩
  · exact Relation.ReflTransGen.head hstep h
  · exact Relation.ReflTransGen.head hstep h

theorem completes_of_error {c : Configuration α} {halt : Halt α}
    (h : c.next ctx = some (.error halt)) : Completes ctx c outer (.error halt) :=
  ⟨c, .refl, h⟩

theorem Completes.comeBack {c : Configuration α} {x : Outcome α (Machine α × Ending)}
    (h : Completes ctx c (rest :: outer) x)
    (hrest : ∀ m, x = .ok (m, .returned) →
      Completes ctx ⟨rest :: outer, m⟩ outer (m.run ctx levels rest)) :
    Completes ctx c outer
      (x >>= fun next => Machine.proceed ctx levels (Machine.comeBack rest next)) := by
  rcases x with halt | ⟨m, _ | _⟩
  · exact h
  · show Completes ctx c outer (m.run ctx levels rest)
    have hrest := hrest m rfl
    rcases hrun : m.run ctx levels rest with halt | ⟨m', _ | _⟩ <;> rw [hrun] at hrest
    · obtain ⟨c', hreaches, hhalt⟩ := hrest
      exact ⟨c', Relation.ReflTransGen.trans h hreaches, hhalt⟩
    · exact Relation.ReflTransGen.trans h hrest
    · exact Relation.ReflTransGen.trans h hrest
  · exact h

theorem completes_call (hread : Token.read ctx.version b code = .ok (t, rest))
    (hcall : callOf? ctx t = some isGlobal) (hlevels : outer.length + levels = callLimit)
    (hrun : ∀ below < levels, ∀ outer body (m : Machine α), outer.length + below = callLimit →
      Completes ctx ⟨body :: outer, m⟩ outer (m.run ctx below body))
    (hrest : ∀ m', Machine.call ctx levels isGlobal m = .ok (m', .returned) →
      Completes ctx ⟨rest :: outer, m'⟩ outer (m'.run ctx levels rest)) :
    Completes ctx ⟨(b :: code) :: outer, m⟩ outer (Machine.call ctx levels isGlobal m >>=
      fun next => Machine.proceed ctx levels (Machine.comeBack rest next)) := by
  have hnext : next ctx ⟨(b :: code) :: outer, m⟩ = some (enter ctx isGlobal rest outer m) :=
    next_of_call hread hcall
  unfold enter at hnext
  unfold Machine.call at hrest ⊢
  cases hpop : m.popInt with
  | error halt =>
    rw [hpop] at hnext
    exact completes_of_error hnext
  | ok popped =>
    obtain ⟨index, m⟩ := popped
    rw [hpop] at hnext hrest
    dsimp only [bind, Except.bind] at hnext hrest ⊢
    cases levels with
    | zero =>
      rw [if_pos (by omega)] at hnext
      exact (hrest _ rfl).head hnext
    | succ levels =>
      rw [if_neg (by omega)] at hnext
      cases hget : (if isGlobal = true then ctx.globalSubroutines
        else ctx.localSubroutines).get index with
      | error e =>
        rw [hget] at hnext hrest
        exact (hrest _ rfl).head hnext
      | ok body =>
        rw [hget] at hnext hrest
        refine Completes.head hnext (Completes.comeBack (hrun levels ?_ _ body m ?_) hrest)
        · exact Nat.lt_succ_self levels
        · rw [List.length_cons]
          omega

/-- Evaluation in small steps follows the evaluation of code as a whole, where the frames around
the code leave just as many levels. The induction is on the levels, since the code of a subroutine
may be longer than what calls it. -/
theorem completes_run (ctx : Context α) (hlevels : outer.length + levels = callLimit)
    (code : List UInt8) (m : Machine α) :
    Completes ctx ⟨code :: outer, m⟩ outer (m.run ctx levels code) := by
  induction levels using Nat.strong_induction_on generalizing outer code m with
  | _ levels ih =>
    induction code, m using Machine.executed_induction ctx levels with
    | nil m =>
      rw [Machine.run_nil]
      exact .single rfl
    | invalid b code m e hread =>
      rw [Machine.run_of_read_error hread]
      exact completes_of_error (next_of_read_error hread)
    | token b code t rest m hread ihrest =>
      rw [Machine.run_of_read hread]
      cases hcall : callOf? ctx t with
      | none =>
        have hnext : next ctx ⟨(b :: code) :: outer, m⟩ =
            some ((Machine.execute ctx levels t rest m).map (leave outer)) := by
          rw [execute_of_not_call hcall]
          exact next_of_not_call hread hcall
        rcases hexecute : Machine.execute ctx levels t rest m with halt | ⟨⟨m', _ | ending⟩, rest'⟩
        all_goals rw [hexecute] at hnext
        · exact completes_of_error hnext
        · exact (ihrest m' rest' hexecute).head hnext
        · cases ending <;> exact .single hnext
      | some isGlobal =>
        have hexecute : Machine.execute ctx levels t rest m =
            (Machine.call ctx levels isGlobal m).map (Machine.comeBack rest) :=
          execute_of_call hcall
        have hmap : Machine.execute ctx levels t rest m >>= Machine.proceed ctx levels =
            Machine.call ctx levels isGlobal m >>=
              fun next => Machine.proceed ctx levels (Machine.comeBack rest next) := by
          rw [hexecute]
          cases Machine.call ctx levels isGlobal m <;> rfl
        rw [hmap]
        refine completes_call hread hcall hlevels ?_ fun m' hreturned => ?_
        · exact fun below hbelow outer body m hlevels => ih below hbelow hlevels body m
        · exact ihrest m' rest (by rw [hexecute, hreturned]; rfl)

theorem endsWith_run (ctx : Context α) (code : List UInt8) :
    EndsWith ctx (start ctx code) (((Machine.start ctx).run ctx callLimit code).map Prod.fst) := by
  have hcompletes : Completes ctx ⟨[code], .start ctx⟩ []
      ((Machine.start ctx).run ctx callLimit code) :=
    completes_run ctx (Nat.zero_add callLimit) code (.start ctx)
  rcases hrun : (Machine.start ctx).run ctx callLimit code with halt | ⟨m, _ | _⟩
  all_goals rw [hrun] at hcompletes
  · obtain ⟨c, hreaches, hhalt⟩ := hcompletes
    exact ⟨c, hreaches, .inr ⟨halt, hhalt, rfl⟩⟩
  · exact ⟨_, hcompletes, .inl ⟨rfl, rfl⟩⟩
  · exact ⟨_, hcompletes, .inl ⟨rfl, rfl⟩⟩

-- ---------------------------------------------------------------------------
-- What every step keeps
-- ---------------------------------------------------------------------------

omit [Scalar α] in
theorem get_ne_nestingDepthLimitExceeded {s : Subroutines} {index : ℤ} {e : Error}
    (h : s.get index = .error e) : e ≠ .nestingDepthLimitExceeded := by
  unfold Subroutines.get at h
  rintro rfl
  split at h
  · cases h
  · dsimp only at h
    split at h <;> cases h

theorem exists_popInt (h : m.stack.values ≠ []) : ∃ index m', m.popInt = .ok (index, m') := by
  obtain ⟨a, values, hvalues⟩ := List.exists_cons_of_ne_nil h
  refine ⟨Scalar.toInt32 a, m.withStack { m.stack with values }, ?_⟩
  simp only [Machine.popInt, Stack.popInt, Stack.pop, hvalues]
  rfl

theorem popInt_of_empty (h : m.stack.values = []) : m.popInt = m.halt .stackUnderflow := by
  simp only [Machine.popInt, Stack.popInt, Stack.pop, h]
  rfl

variable {P : Machine α → Prop} {c c' : Configuration α} {x : Outcome α (Configuration α)}

theorem keeps_enter (hP : Machine.Lasting P) (h : P m)
    (hdeep : callLimit ≤ outer.length → m.stack.values ≠ [] →
      ∀ m, P m → P (m.report .nestingDepthLimitExceeded)) :
    Machine.Keeps P machine (enter ctx isGlobal rest outer m) := by
  have hpopped := hP.inert.popInt h
  unfold enter
  cases hpop : m.popInt with
  | error halt =>
    rw [hpop] at hpopped
    exact hpopped
  | ok popped =>
    obtain ⟨index, m'⟩ := popped
    rw [hpop] at hpopped
    dsimp only [bind, Except.bind]
    by_cases hlength : callLimit ≤ outer.length
    · rw [if_pos hlength]
      refine hdeep hlength (fun hempty => ?_) m' hpopped
      rw [popInt_of_empty hempty] at hpop
      cases hpop
    · rw [if_neg hlength]
      split
      next e hget => exact hP.report hpopped (get_ne_nestingDepthLimitExceeded hget)
      next => exact hpopped

theorem keeps_next (hP : Machine.Lasting P) (h : P c.machine) (hnext : c.next ctx = some x)
    (hdeep : ∀ rest, c.IsAtCall ctx rest → callLimit < c.frames.length →
      ∀ m, P m → P (m.report .nestingDepthLimitExceeded)) :
    Machine.Keeps P machine x := by
  cases step_of_next hnext with
  | frameEnd => exact h
  | noToken _ => exact h
  | @call b code rest outer m isGlobal hread hknown =>
    refine keeps_enter hP h fun hlength hvalues => ?_
    exact hdeep rest ⟨b, code, outer, isGlobal, rfl, hread, hknown, hvalues⟩
      (Nat.lt_succ_of_le hlength)
  | @token b code rest outer m t hread hcall =>
    have hcalls (isGlobal) (ht : t = .operator (.call isGlobal))
        (hknown : (Operator.call isGlobal).isKnownTo ctx.version = true) :
        Machine.Keeps P Prod.fst (Machine.call ctx 0 isGlobal m) := by
      rw [ht, callOf?_call hknown] at hcall
      cases hcall
    refine (Machine.keeps_execute hP hcalls h rest).map ?_
    rintro ⟨⟨m', _ | _ | _⟩, rest'⟩ <;> rfl

theorem length_next_le (hnext : c.next ctx = some (.ok c'))
    (h : c.frames.length ≤ callLimit + 1) : c'.frames.length ≤ callLimit + 1 := by
  have hstep := step_of_next hnext
  generalize hx : (.ok c' : Outcome α (Configuration α)) = x at hstep
  cases hstep with
  | frameEnd =>
    cases hx
    exact Nat.le_of_succ_le h
  | noToken _ => cases hx
  | @call _ _ rest outer m isGlobal _ _ =>
    rw [List.length_cons] at h
    obtain ⟨⟨index, m'⟩, -, hx⟩ := bind_ok.mp hx.symm
    dsimp only at hx
    split_ifs at hx with hlength
    · cases hx
      exact h
    all_goals
      split at hx <;> cases hx <;> simp <;> omega
  | @token _ _ rest outer m t _ _ =>
    rw [List.length_cons] at h
    generalize Machine.execute ctx 0 t rest m = x at hx
    rcases x with halt | ⟨⟨m', _ | _ | _⟩, rest'⟩ <;> cases hx <;> simp [leave] <;> omega

theorem next_of_too_deep (h : c.IsAtCall ctx rest) (hdeep : callLimit < c.frames.length) :
    ∃ m, c.next ctx = some (.ok ⟨rest :: c.frames.tail, m⟩) ∧
      m.diagnostics = c.machine.diagnostics.push .nestingDepthLimitExceeded := by
  obtain ⟨frames, m⟩ := c
  obtain ⟨b, code, outer, isGlobal, rfl, hread, hknown, hvalues⟩ := h
  obtain ⟨index, m', hpop⟩ := exists_popInt hvalues
  have hquiet : m'.diagnostics = m.diagnostics := by
    simp only [Machine.popInt, bind_ok, pure_ok] at hpop
    obtain ⟨_, -, hpop⟩ := hpop
    cases hpop
    rfl
  refine ⟨m'.report .nestingDepthLimitExceeded, ?_, ?_⟩
  · rw [next_of_call hread (callOf?_call hknown), enter, hpop]
    dsimp only [bind, Except.bind]
    rw [if_pos (Nat.le_of_lt_succ hdeep)]
    rfl
  · show m'.diagnostics.push _ = _
    rw [hquiet]

-- ---------------------------------------------------------------------------
-- Every configuration on the way
-- ---------------------------------------------------------------------------

/-- The operands of a machine are within the limit of the dialect. -/
def Within (ctx : Context α) (m : Machine α) : Prop :=
  m.stack.limit = ctx.version.stackLimit ∧ m.stack.size ≤ m.stack.limit

omit [Scalar α] in
theorem lasting_within (ctx : Context α) : Machine.Lasting (Within ctx) where
  quiet h hquiet := by
    have hlimit := hquiet.stack.limit
    exact ⟨hlimit.trans h.1, (hquiet.stack.size_le h.2).trans_eq hlimit.symm⟩
  report h _ := h

omit [Scalar α] in
theorem lasting_overruns (n : ℕ) : Machine.Lasting (α := α) fun m => m.overruns = n where
  quiet h hquiet := by
    unfold Machine.overruns at h ⊢
    rwa [hquiet.diagnostics]
  report h he := by
    simpa [Machine.overruns, Machine.report, he] using h

theorem within_next (h : Within ctx c.machine) (hnext : c.next ctx = some x) :
    Machine.Keeps (Within ctx) machine x :=
  keeps_next (lasting_within ctx) h hnext fun _ _ _ _ h => h

theorem Reaches.bounded (h : Reaches ctx (start ctx code) c) :
    c.frames.length ≤ callLimit + 1 ∧ Within ctx c.machine := by
  induction h with
  | refl => exact ⟨Nat.le_add_left 1 _, rfl, Nat.zero_le _⟩
  | tail _ hnext ih => exact ⟨length_next_le hnext ih.1, within_next ih.2 hnext⟩

omit [Scalar α] in
theorem Within.size_le (h : Within ctx m) :
    m.stack.size ≤ if ctx.version = .cff2 then 513 else 48 := by
  refine h.2.trans_eq (h.1.trans ?_)
  cases ctx.version <;> rfl

/-- Evaluation of any code ends, also where subroutines call themselves. On the way it has no more
than 11 frames and no more operands than the stack holds. What would need another frame is
reported once and passed over, and nothing else is reported in this way. -/
theorem evaluation_stays_within_limits (ctx : Context α) (code : List UInt8) :
    EndsWith ctx (start ctx code) (((Machine.start ctx).run ctx callLimit code).map Prod.fst) ∧
      ∀ c, Reaches ctx (start ctx code) c →
        c.frames.length ≤ 11 ∧
        c.machine.stack.size ≤ (if ctx.version = .cff2 then 513 else 48) ∧
        (∀ halt, c.next ctx = some (.error halt) →
          halt.machine.stack.size ≤ if ctx.version = .cff2 then 513 else 48) ∧
        (∀ rest, c.IsAtCall ctx rest → c.frames.length = 11 →
          ∃ m, c.next ctx = some (.ok ⟨rest :: c.frames.tail, m⟩) ∧
            m.diagnostics = c.machine.diagnostics.push .nestingDepthLimitExceeded) ∧
        ∀ c', c.next ctx = some (.ok c') → (∀ rest, c.IsAtCall ctx rest → c.frames.length < 11) →
          c'.machine.overruns = c.machine.overruns := by
  refine ⟨endsWith_run ctx code, fun c hreaches => ?_⟩
  obtain ⟨hframes, hwithin⟩ := hreaches.bounded
  refine ⟨hframes, hwithin.size_le, ?_, ?_, ?_⟩
  · intro halt hhalt
    exact (within_next hwithin hhalt).size_le
  · intro rest hcall hlength
    exact next_of_too_deep hcall (by rw [hlength]; decide)
  · intro c' hnext hshallow
    refine keeps_next (lasting_overruns _) rfl hnext fun rest hcall hdeep => ?_
    exact absurd (hshallow rest hcall) (Nat.not_lt_of_le hdeep)

end Configuration

end Letterform.Charstring
