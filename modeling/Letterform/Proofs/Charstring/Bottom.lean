import Letterform.Proofs.Charstring.Drawing
import Letterform.Proofs.Charstring.Frames

/-!
# An operand at the bottom of the stack

Until the stack is cleared, operators look at its top only: with one more operand at the bottom they
do the same, as long as there is room for it.
-/

namespace Letterform.Charstring

variable {α : Type} {w : α}

-- ---------------------------------------------------------------------------
-- Stacks
-- ---------------------------------------------------------------------------

namespace Stack

variable {a : α} {s s' : Stack α}

def onto (s : Stack α) (w : α) : Stack α := { s with values := s.values ++ [w] }

@[simp] theorem size_onto (s : Stack α) (w : α) : (s.onto w).size = s.size + 1 := by
  simp [onto, size]

/-- What comes out for one stack comes out for the other with an operand below, if there is still
room for it. -/
def Lifts (w : α) (x y : Except Error (Stack α)) : Prop :=
  ∀ s, x = .ok s → s.size < s.limit → y = .ok (s.onto w)

theorem lifts_push (s : Stack α) (a : α) : Lifts w (s.push a) ((s.onto w).push a) := by
  intro s' h hroom
  unfold push at h ⊢
  split_ifs at h
  cases h
  have hsize : s.size + 1 < s.limit := hroom
  rw [if_pos (by rw [size_onto]; exact hsize)]
  rfl

theorem size_push (h : s.push a = .ok s') : s'.size = s.size + 1 ∧ s'.limit = s.limit := by
  unfold push at h
  split_ifs at h
  cases h
  exact ⟨rfl, rfl⟩

theorem lifts_push_push (s : Stack α) (a b : α) :
    Lifts w (do (← s.push a).push b) (do (← (s.onto w).push a).push b) := by
  intro s'' h hroom
  obtain ⟨s', hfirst, hsecond⟩ := bind_ok.mp h
  obtain ⟨hsize, hlimit⟩ := size_push hsecond
  exact bind_ok.mpr ⟨_, lifts_push s a s' hfirst (by omega), lifts_push s' b s'' hsecond hroom⟩

theorem pop_onto (h : s.pop = .ok (a, s')) : (s.onto w).pop = .ok (a, s'.onto w) := by
  obtain ⟨values, limit⟩ := s
  cases values with
  | nil => cases h
  | cons b values =>
    cases h
    rfl

theorem popMany_onto {count : ℤ} {operands : List α} (h : s.popMany count = .ok (operands, s')) :
    (s.onto w).popMany count = .ok (operands, s'.onto w) := by
  unfold popMany at h ⊢
  split_ifs at h with hcount
  cases h
  have hle : count.toNat ≤ s.values.length := by
    rw [size] at hcount
    omega
  rw [if_neg (by rw [size_onto]; push_cast; omega)]
  simp only [onto, List.take_append_of_le_length hle, List.drop_append_of_le_length hle]

theorem lifts_copy (s : Stack α) (depth : ℤ) : Lifts w (s.copy depth) ((s.onto w).copy depth) := by
  intro s' h hroom
  unfold copy at h ⊢
  split at h
  next a hget =>
    have hget' : (s.onto w).values[depth.toNat]? = some a := by
      rw [onto, List.getElem?_append_left (List.getElem?_eq_some_iff.mp hget).1, hget]
    rw [hget']
    exact lifts_push s a s' h hroom
  next => cases h

theorem lifts_roll (s : Stack α) (count shift : ℤ) :
    Lifts w (s.roll count shift) ((s.onto w).roll count shift) := by
  intro s' h _
  unfold roll at h ⊢
  split_ifs at h with hcount
  cases h
  have hle : count.toNat ≤ s.values.length := by
    rw [size] at hcount
    omega
  rw [if_neg (by rw [size_onto]; push_cast; omega)]
  simp only [onto, List.take_append_of_le_length hle, List.drop_append_of_le_length hle,
    List.append_assoc]

theorem lifts_replaceTop (s : Stack α) (f : α → α) :
    Lifts w (s.replaceTop f) ((s.onto w).replaceTop f) := by
  intro s' h hroom
  obtain ⟨⟨a, s1⟩, hpop, hpush⟩ := bind_ok.mp h
  exact bind_ok.mpr ⟨_, pop_onto hpop, lifts_push s1 _ s' hpush hroom⟩

theorem lifts_combineTop (s : Stack α) (f : α → α → α) :
    Lifts w (s.combineTop f) ((s.onto w).combineTop f) := by
  intro s' h hroom
  obtain ⟨⟨b, s1⟩, hb, h⟩ := bind_ok.mp h
  obtain ⟨⟨a, s2⟩, ha, hpush⟩ := bind_ok.mp h
  exact bind_ok.mpr ⟨_, pop_onto hb, bind_ok.mpr ⟨_, pop_onto ha, lifts_push s2 _ s' hpush hroom⟩⟩

theorem popInt_onto [Scalar α] {n : ℤ} (h : s.popInt = .ok (n, s')) :
    (s.onto w).popInt = .ok (n, s'.onto w) := by
  obtain ⟨⟨a, s1⟩, hpop, h⟩ := bind_ok.mp h
  cases h
  exact bind_ok.mpr ⟨_, pop_onto hpop, rfl⟩

end Stack

-- ---------------------------------------------------------------------------
-- Arithmetic
-- ---------------------------------------------------------------------------

namespace Calculator

open Stack (Lifts)

variable {c c' : Calculator α}

def onto (c : Calculator α) (w : α) : Calculator α := { c with stack := c.stack.onto w }

theorem withStack_onto {x y : Except Error (Stack α)} (h : c.withStack x = .ok c')
    (hroom : c'.stack.size < c'.stack.limit) (hlifts : Lifts w x y) :
    (c.onto w).withStack y = .ok (c'.onto w) := by
  cases x with
  | error e => cases h
  | ok s =>
    cases h
    rw [hlifts s rfl hroom]
    rfl

theorem store_onto {index : ℤ} {a : α} (h : c.store index a = .ok c') :
    (c.onto w).store index a = .ok (c'.onto w) := by
  unfold store at h ⊢
  split_ifs at h with hindex
  cases h
  exact if_pos hindex

theorem evaluate_onto [Scalar α] {op : Arithmetic} (h : c.evaluate op = .ok c')
    (hroom : c'.stack.size < c'.stack.limit) : (c.onto w).evaluate op = .ok (c'.onto w) := by
  cases op with
  | and | or | add | sub | div | eq | mul =>
    exact withStack_onto h hroom (Stack.lifts_combineTop _ _)
  | not | abs | neg | sqrt => exact withStack_onto h hroom (Stack.lifts_replaceTop _ _)
  | drop =>
    obtain ⟨⟨a, s⟩, hpop, h⟩ := bind_ok.mp h
    cases h
    exact bind_ok.mpr ⟨_, Stack.pop_onto hpop, rfl⟩
  | put =>
    obtain ⟨⟨index, s⟩, hindex, h⟩ := bind_ok.mp h
    obtain ⟨⟨a, s'⟩, hpop, h⟩ := bind_ok.mp h
    exact bind_ok.mpr ⟨_, Stack.popInt_onto hindex, bind_ok.mpr ⟨_, Stack.pop_onto hpop,
      store_onto h⟩⟩
  | get =>
    obtain ⟨⟨index, s⟩, hindex, h⟩ := bind_ok.mp h
    obtain ⟨a, hload, h⟩ := bind_ok.mp h
    exact bind_ok.mpr ⟨_, Stack.popInt_onto hindex, bind_ok.mpr ⟨a, hload,
      withStack_onto h hroom (Stack.lifts_push s a)⟩⟩
  | ifelse =>
    obtain ⟨⟨v2, s1⟩, h1, h⟩ := bind_ok.mp h
    obtain ⟨⟨v1, s2⟩, h2, h⟩ := bind_ok.mp h
    obtain ⟨⟨b, s3⟩, h3, h⟩ := bind_ok.mp h
    obtain ⟨⟨a, s4⟩, h4, h⟩ := bind_ok.mp h
    exact bind_ok.mpr ⟨_, Stack.pop_onto h1, bind_ok.mpr ⟨_, Stack.pop_onto h2,
      bind_ok.mpr ⟨_, Stack.pop_onto h3, bind_ok.mpr ⟨_, Stack.pop_onto h4,
        withStack_onto h hroom (Stack.lifts_push s4 _)⟩⟩⟩⟩
  | random => exact withStack_onto h hroom (Stack.lifts_push _ _)
  | dup =>
    obtain ⟨⟨a, s⟩, hpop, h⟩ := bind_ok.mp h
    exact bind_ok.mpr ⟨_, Stack.pop_onto hpop,
      withStack_onto h hroom (Stack.lifts_push_push s a a)⟩
  | exch =>
    obtain ⟨⟨b, s1⟩, hb, h⟩ := bind_ok.mp h
    obtain ⟨⟨a, s2⟩, ha, h⟩ := bind_ok.mp h
    exact bind_ok.mpr ⟨_, Stack.pop_onto hb, bind_ok.mpr ⟨_, Stack.pop_onto ha,
      withStack_onto h hroom (Stack.lifts_push_push s2 b a)⟩⟩
  | index =>
    obtain ⟨⟨depth, s⟩, hdepth, h⟩ := bind_ok.mp h
    exact bind_ok.mpr ⟨_, Stack.popInt_onto hdepth,
      withStack_onto h hroom (Stack.lifts_copy s depth)⟩
  | roll =>
    obtain ⟨⟨shift, s1⟩, hshift, h⟩ := bind_ok.mp h
    obtain ⟨⟨count, s2⟩, hcount, h⟩ := bind_ok.mp h
    exact bind_ok.mpr ⟨_, Stack.popInt_onto hshift, bind_ok.mpr ⟨_, Stack.popInt_onto hcount,
      withStack_onto h hroom (Stack.lifts_roll s2 count shift)⟩⟩

end Calculator

-- ---------------------------------------------------------------------------
-- Machines
-- ---------------------------------------------------------------------------

def Operator.clearsStack : Operator → Bool
  | .arithmetic _ | .call _ | .ret | .callothersubr | .pop | .blend => false
  | _ => true

namespace Machine

variable {m m' : Machine α}

def onto (m : Machine α) (w : α) : Machine α := m.withStack (m.stack.onto w)

theorem attempt_ok {β : Type} {x : Except Error β} {b : β} : m.attempt x = .ok b ↔ x = .ok b :=
  mapError_ok

theorem push_onto {a : α} (h : m.push a = .ok m') (hroom : m'.stack.size < m'.stack.limit) :
    (m.onto w).push a = .ok (m'.onto w) := by
  obtain ⟨s, hpush, h⟩ := bind_ok.mp h
  cases h
  exact bind_ok.mpr ⟨_, attempt_ok.mpr (Stack.lifts_push _ a s (attempt_ok.mp hpush) hroom), rfl⟩

theorem popResult_onto (h : m.popResult = .ok m') (hroom : m'.stack.size < m'.stack.limit) :
    (m.onto w).popResult = .ok (m'.onto w) := by
  have hresults : (m.onto w).results = m.results := rfl
  unfold popResult at h ⊢
  rw [hresults]
  split at h
  next => exact push_onto h hroom
  next => cases h

variable [Scalar α]

theorem popInt_onto {n : ℤ} (h : m.popInt = .ok (n, m')) :
    (m.onto w).popInt = .ok (n, m'.onto w) := by
  obtain ⟨⟨k, s⟩, hpop, h⟩ := bind_ok.mp h
  cases h
  exact bind_ok.mpr ⟨_, attempt_ok.mpr (Stack.popInt_onto (attempt_ok.mp hpop)), rfl⟩

theorem endFlex_onto (m : Machine α) (w : α) : (m.onto w).endFlex = m.endFlex.onto w := by
  have hflex : (m.onto w).flex = m.flex := rfl
  unfold endFlex
  rw [hflex]
  dsimp only
  split
  · split_ifs
    · rfl
    · rw [attachMask_eq, attachMask_eq]
      rfl
  · rfl

theorem callOther_onto (h : m.callOther = .ok m') : (m.onto w).callOther = .ok (m'.onto w) := by
  obtain ⟨⟨number, m1⟩, hnumber, h⟩ := bind_ok.mp h
  obtain ⟨⟨count, m2⟩, hcount, h⟩ := bind_ok.mp h
  obtain ⟨⟨operands, s⟩, hoperands, h⟩ := bind_ok.mp h
  refine bind_ok.mpr ⟨_, popInt_onto hnumber, bind_ok.mpr ⟨_, popInt_onto hcount, bind_ok.mpr
    ⟨_, attempt_ok.mpr (Stack.popMany_onto (attempt_ok.mp hoperands)), ?_⟩⟩⟩
  rw [pure_ok] at h ⊢
  subst h
  dsimp only
  split
  · exact endFlex_onto { m2.withStack s with results := [] } w
  all_goals rfl

theorem evaluate_onto {ctx : Context α} (hversion : ctx.version = .type2) {op : Operator}
    (hknown : op.isKnownTo ctx.version = true) (hkeeps : op.clearsStack = false)
    (h : m.evaluate ctx op = .ok m') (hroom : m'.stack.size < m'.stack.limit) :
    (m.onto w).evaluate ctx op = .ok (m'.onto w) := by
  cases op with
  | arithmetic op =>
    obtain ⟨c, hc, h⟩ := bind_ok.mp h
    cases h
    exact bind_ok.mpr ⟨_, attempt_ok.mpr (Calculator.evaluate_onto (attempt_ok.mp hc) hroom), rfl⟩
  | callothersubr => exact callOther_onto h
  | pop => exact popResult_onto h hroom
  | call | ret =>
    cases h
    rfl
  | blend =>
    rw [hversion] at hknown
    cases hknown
  | _ => cases hkeeps

-- ---------------------------------------------------------------------------
-- Still no width
-- ---------------------------------------------------------------------------

omit [Scalar α] in
theorem widthTaken_push {a : α} (h : m.push a = .ok m') : m'.widthTaken = m.widthTaken := by
  obtain ⟨s, -, h⟩ := bind_ok.mp h
  cases h
  rfl

theorem widthTaken_popInt {n : ℤ} (h : m.popInt = .ok (n, m')) : m'.widthTaken = m.widthTaken := by
  obtain ⟨⟨k, s⟩, -, h⟩ := bind_ok.mp h
  cases h
  rfl

theorem widthTaken_callOther (h : m.callOther = .ok m') : m'.widthTaken = m.widthTaken := by
  obtain ⟨⟨number, m1⟩, hnumber, h⟩ := bind_ok.mp h
  obtain ⟨⟨count, m2⟩, hcount, h⟩ := bind_ok.mp h
  obtain ⟨⟨operands, s⟩, -, h⟩ := bind_ok.mp h
  rw [← widthTaken_popInt hnumber, ← widthTaken_popInt hcount]
  rw [pure_ok] at h
  subst h
  dsimp only
  split
  · unfold endFlex
    dsimp only
    split
    · split_ifs
      · rfl
      · rw [attachMask_eq]
        rfl
    · rfl
  all_goals rfl

theorem widthTaken_evaluate {ctx : Context α} (hversion : ctx.version = .type2) {op : Operator}
    (hknown : op.isKnownTo ctx.version = true) (hkeeps : op.clearsStack = false)
    (h : m.evaluate ctx op = .ok m') : m'.widthTaken = m.widthTaken := by
  cases op with
  | arithmetic op =>
    obtain ⟨c, -, h⟩ := bind_ok.mp h
    cases h
    rfl
  | callothersubr => exact widthTaken_callOther h
  | pop =>
    change m.popResult = _ at h
    unfold popResult at h
    split at h
    next a rest _ => exact widthTaken_push (m := { m with results := rest }) h
    next => cases h
  | call | ret =>
    cases h
    rfl
  | blend =>
    rw [hversion] at hknown
    cases hknown
  | _ => cases hkeeps

end Machine

-- ---------------------------------------------------------------------------
-- Steps
-- ---------------------------------------------------------------------------

namespace Configuration

variable [Scalar α] {ctx : Context α} {c c' : Configuration α}

def onto (c : Configuration α) (w : α) : Configuration α := { c with machine := c.machine.onto w }

/-- The operator that is evaluated next, unless an operand is. -/
def operator? (ctx : Context α) : Configuration α → Option Operator
  | ⟨(b :: code) :: _, _⟩ =>
    match Token.read (α := α) ctx.version b code with
    | .ok (.operator op, _) => some op
    | _ => none
  | _ => none

/-- A step that does not clear the stack and leaves no more operands on it than some limit. -/
structure Computes (ctx : Context α) (limit : ℕ) (c c' : Configuration α) : Prop where
  next : c.next ctx = some (.ok c')
  keeps : ∀ op ∈ c.operator? ctx, op.clearsStack = false
  size_le : c'.machine.stack.size ≤ limit

/-- What one token does, if it does not clear the stack, it does with an operand at the bottom
too. -/
theorem execute_onto (hversion : ctx.version = .type2) {m m' : Machine α} {t : Token α}
    (hcall : callOf? ctx t = none) (hkeeps : ∀ op, t = .operator op → op.clearsStack = false)
    {rest rest' : List UInt8} {ending : Option Ending}
    (h : Machine.execute ctx 0 t rest m = .ok ((m', ending), rest'))
    (hroom : m'.stack.size < m'.stack.limit) :
    Machine.execute ctx 0 t rest (m.onto w) = .ok ((m'.onto w, ending), rest') ∧
      m'.widthTaken = m.widthTaken := by
  cases t with
  | operand a =>
    obtain ⟨m1, hpush, h⟩ := bind_ok.mp h
    cases h
    exact ⟨bind_ok.mpr ⟨_, Machine.push_onto hpush hroom, rfl⟩, Machine.widthTaken_push hpush⟩
  | operator op =>
    have hop := hkeeps op rfl
    by_cases hknown : op.isKnownTo ctx.version = true
    · by_cases hplain : op.isPlain = true
      · rw [Machine.execute_plain hknown hplain] at h ⊢
        cases heval : m.evaluate ctx op with
        | error halt =>
          rw [heval] at h
          cases h
        | ok m1 =>
          rw [heval] at h
          cases h
          rw [Machine.evaluate_onto hversion hknown hop heval hroom]
          exact ⟨rfl, Machine.widthTaken_evaluate hversion hknown hop heval⟩
      · cases op with
        | call isGlobal =>
          rw [callOf?_call hknown] at hcall
          cases hcall
        | ret =>
          dsimp only [Machine.execute] at h ⊢
          rw [if_neg (by simp [hknown])] at h ⊢
          cases h
          exact ⟨rfl, rfl⟩
        | endchar => cases hop
        | mask => cases hop
        | _ => exact absurd rfl hplain
    · rw [Machine.execute_unknown hknown] at h
      split_ifs at h with hdot
      · rw [hdot] at hop
        cases hop
      · cases h

theorem enter_onto {isGlobal : Bool} {rest : List UInt8} {outer : List (List UInt8)}
    {m : Machine α} (h : enter ctx isGlobal rest outer m = .ok c') :
    enter ctx isGlobal rest outer (m.onto w) = .ok (c'.onto w) ∧
      c'.machine.widthTaken = m.widthTaken := by
  obtain ⟨⟨index, m1⟩, hpop, h⟩ := bind_ok.mp h
  rw [← Machine.widthTaken_popInt hpop]
  unfold enter
  rw [Machine.popInt_onto hpop]
  dsimp only [bind, Except.bind] at h ⊢
  by_cases hdeep : callLimit ≤ outer.length
  · rw [if_pos hdeep] at h ⊢
    cases h
    exact ⟨rfl, rfl⟩
  · rw [if_neg hdeep] at h ⊢
    cases hget : (if isGlobal = true then ctx.globalSubroutines
      else ctx.localSubroutines).get index with
    | error e =>
      rw [hget] at h
      cases h
      exact ⟨rfl, rfl⟩
    | ok body =>
      rw [hget] at h
      cases h
      exact ⟨rfl, rfl⟩

/-- Every step on the way to the first operator that clears the stack is the same with an operand at
the bottom, and still waits for the width. -/
theorem Computes.next_onto {limit : ℕ} (h : Computes ctx limit c c') (hversion : ctx.version = .type2)
    (hlimit : limit < c'.machine.stack.limit) (w : α) :
    (c.onto w).next ctx = some (.ok (c'.onto w)) ∧
      c'.machine.widthTaken = c.machine.widthTaken := by
  obtain ⟨hnext, hkeeps, hsize⟩ := h
  have hstep := step_of_next hnext
  generalize hx : (.ok c' : Outcome α (Configuration α)) = x at hstep
  cases hstep with
  | frameEnd =>
    cases hx
    exact ⟨rfl, rfl⟩
  | noToken _ => cases hx
  | @call b code rest outer m isGlobal hread hknown =>
    show Configuration.next ctx ⟨(b :: code) :: outer, m.onto w⟩ = _ ∧ _
    rw [next_of_call hread (callOf?_call hknown), Option.some.injEq]
    exact enter_onto hx.symm
  | @token b code rest outer m t hread hcall =>
    have hoperator (op : Operator) (ht : t = .operator op) : op.clearsStack = false := by
      refine hkeeps op ?_
      rw [operator?, hread, ht]
      rfl
    show Configuration.next ctx ⟨(b :: code) :: outer, m.onto w⟩ = _ ∧ _
    rw [next_of_not_call hread hcall, Option.some.injEq]
    rcases hexecute : Machine.execute ctx 0 t rest m with halt | ⟨⟨m', ending⟩, rest'⟩
    · rw [hexecute] at hx
      cases hx
    · rw [hexecute] at hx
      have hmachine : c'.machine = m' := by
        rcases ending with _ | _ | _ <;> cases hx <;> rfl
      obtain ⟨hsame, htaken⟩ := execute_onto (w := w) hversion hcall hoperator hexecute
        (hmachine ▸ hsize.trans_lt hlimit)
      rw [hsame, hmachine]
      refine ⟨?_, htaken⟩
      rcases ending with _ | _ | _ <;> cases hx <;> rfl

end Configuration

end Letterform.Charstring
