import Letterform.Proofs.Charstring.Frames

/-!
# Invariants of decoding

What holds of the machine before the first byte, and is kept by everything that can happen to it in
a dialect, holds of the machine that a glyph is taken from: whether evaluation came to its end or
was stopped, and whatever it went through on the way.
-/

namespace Letterform.Charstring

variable {α : Type} [Scalar α]

/-- A property of machines that everything keeps which can happen to one in the dialect of a
context. -/
structure Machine.Invariant (ctx : Context α) (P : Machine α → Prop) : Prop where
  inert : Inert P
  report {m : Machine α} (e : Error) : P m → P (m.report e)
  addMask {m : Machine α} (isCounter : Bool) (bytes : List UInt8) : P m →
    P (m.addMask ctx isCounter bytes)
  evaluate {m : Machine α} {op : Operator} : P m → op.isKnownTo ctx.version = true →
    Keeps P id (m.evaluate ctx op)
  endCharacter {m : Machine α} : P m → P (m.endCharacter ctx)

/-- A property of machines that every step keeps which evaluates no operator. It may depend on more than
what working on the stack and declaring stems leaves alone. -/
structure Machine.IsKeptAround (ctx : Context α) (P : Machine α → Prop) : Prop where
  push {m : Machine α} (a : α) : P m → Keeps P id (m.push a)
  popInt {m : Machine α} : P m → Keeps P Prod.snd m.popInt
  clear {m : Machine α} : P m → P m.clear
  prepareMask {m : Machine α} : P m → Keeps P id (m.prepareMask ctx)
  report {m : Machine α} (e : Error) : P m → P (m.report e)
  addMask {m : Machine α} (isCounter : Bool) (bytes : List UInt8) : P m →
    P (m.addMask ctx isCounter bytes)
  endCharacter {m : Machine α} : P m → P (m.endCharacter ctx)

/-- A property of machines that every step of evaluation keeps. -/
structure Machine.IsKept (ctx : Context α) (P : Machine α → Prop) : Prop
    extends IsKeptAround ctx P where
  evaluate {m : Machine α} {op : Operator} : P m → op.isKnownTo ctx.version = true →
    Keeps P id (m.evaluate ctx op)

theorem Machine.Invariant.isKept {ctx : Context α} {P : Machine α → Prop} (hP : Invariant ctx P) :
    IsKept ctx P where
  push a h := hP.inert.push h a
  popInt h := hP.inert.popInt h
  clear h := hP.inert.clear h
  prepareMask h := hP.inert.prepareMask h
  report := hP.report
  addMask := hP.addMask
  evaluate := hP.evaluate
  endCharacter := hP.endCharacter

-- ---------------------------------------------------------------------------
-- One step
-- ---------------------------------------------------------------------------

namespace Configuration

def IsAt (ctx : Context α) (op : Operator) (c : Configuration α) : Prop :=
  ∃ b code rest outer, c.frames = (b :: code) :: outer ∧
    Token.read (α := α) ctx.version b code = .ok (.operator op, rest) ∧
    op.isKnownTo ctx.version = true

theorem IsAt.next {ctx : Context α} {op : Operator} {c : Configuration α} (h : c.IsAt ctx op)
    (hplain : op.isPlain = true) :
    ∃ frames, c.next ctx = some ((c.machine.evaluate ctx op).map fun m => ⟨frames, m⟩) := by
  obtain ⟨b, code, rest, outer, hframes, hread, hknown⟩ := h
  obtain ⟨frames, m⟩ := c
  obtain rfl : frames = (b :: code) :: outer := hframes
  have hcall : callOf? ctx (.operator op : Token α) = none := by
    cases op with
    | call isGlobal => cases hplain
    | _ => rfl
  refine ⟨rest :: outer, ?_⟩
  rw [next_of_not_call hread hcall, Machine.execute_plain hknown hplain]
  cases m.evaluate ctx op <;> rfl

end Configuration

namespace Machine.IsKeptAround

variable {ctx : Context α} {P : Machine α → Prop} (hP : IsKeptAround ctx P) {m : Machine α}
include hP

theorem takeMask (h : P m) (isCounter : Bool) (rest : List UInt8) :
    Keeps P (fun next => next.1.1) (takeMask ctx isCounter rest m) := by
  unfold Machine.takeMask
  refine (hP.prepareMask h).bind fun m h => ?_
  dsimp only
  split_ifs
  · exact h
  · exact hP.addMask isCounter _ h

theorem execute (h : P m) {t : Token α} (hcall : Configuration.callOf? ctx t = none)
    (hevaluate : ∀ op, t = .operator op → op.isKnownTo ctx.version = true →
      Keeps P id (m.evaluate ctx op))
    (rest : List UInt8) : Keeps P (fun next => next.1.1) (execute ctx 0 t rest m) := by
  cases t with
  | operand a => exact (hP.push a h).bind fun _ h => h
  | operator op =>
    by_cases hknown : op.isKnownTo ctx.version = true
    · by_cases hplain : op.isPlain = true
      · rw [execute_plain hknown hplain]
        exact (hevaluate op rfl hknown).map fun _ => rfl
      · dsimp only [Machine.execute]
        rw [if_neg (by simp [hknown])]
        cases op with
        | call isGlobal =>
          rw [Configuration.callOf?_call hknown] at hcall
          cases hcall
        | mask isCounter => exact hP.takeMask h isCounter rest
        | ret => exact h
        | endchar => exact hP.endCharacter h
        | _ => exact absurd rfl hplain
    · rw [execute_unknown hknown]
      split_ifs
      · exact hP.clear (hP.report _ h)
      · exact h

theorem enter (h : P m) (isGlobal : Bool) (rest : List UInt8) (outer : List (List UInt8)) :
    Keeps P Configuration.machine (Configuration.enter ctx isGlobal rest outer m) := by
  refine (hP.popInt h).bind fun (index, m) h => ?_
  dsimp only
  split_ifs
  · exact hP.report _ h
  · split
    · exact hP.report _ h
    · exact h
  · split
    · exact hP.report _ h
    · exact h

theorem next {c : Configuration α} (h : P c.machine)
    (hevaluate : ∀ op, c.IsAt ctx op → Keeps P id (c.machine.evaluate ctx op))
    {x : Outcome α (Configuration α)} (hnext : c.next ctx = some x) :
    Keeps P Configuration.machine x := by
  cases Configuration.step_of_next hnext with
  | frameEnd => exact h
  | noToken _ => exact h
  | @call _ _ rest outer _ isGlobal _ _ => exact hP.enter h isGlobal rest outer
  | @token b code rest outer m t hread hcall =>
    refine (hP.execute h hcall ?_ rest).map ?_
    · rintro op rfl hknown
      exact hevaluate op ⟨b, code, rest, outer, rfl, hread, hknown⟩
    · rintro ⟨⟨m', _ | _ | _⟩, rest'⟩ <;> rfl

end Machine.IsKeptAround

-- ---------------------------------------------------------------------------
-- Any number of steps
-- ---------------------------------------------------------------------------

namespace Machine.IsKept

variable {ctx : Context α} {P : Machine α → Prop} (hP : IsKept ctx P)
include hP

theorem next {c : Configuration α} (h : P c.machine) {x : Outcome α (Configuration α)}
    (hnext : c.next ctx = some x) : Keeps P Configuration.machine x := by
  refine hP.toIsKeptAround.next h (fun op hop => ?_) hnext
  obtain ⟨_, _, _, _, -, -, hknown⟩ := hop
  exact hP.evaluate h hknown

theorem reaches {c c' : Configuration α} (h : P c.machine) (hreaches : c.Reaches ctx c') :
    P c'.machine := by
  induction hreaches with
  | refl => exact h
  | tail _ hnext ih => exact hP.next ih hnext

theorem exists_decode (h : P (start ctx)) (code : List UInt8) :
    ∃ m, P m ∧ decode ctx code = m.finish ctx := by
  obtain ⟨c, hreaches, ⟨-, hok⟩ | ⟨halt, hnext, herror⟩⟩ := Configuration.endsWith_run ctx code
  · cases hrun : (start ctx).run ctx callLimit code with
    | error halt =>
      rw [hrun] at hok
      cases hok
    | ok end' =>
      obtain ⟨m, ending⟩ := end'
      rw [hrun] at hok
      cases hok
      exact ⟨_, hP.reaches h hreaches, by rw [decode, hrun]⟩
  · cases hrun : (start ctx).run ctx callLimit code with
    | error halt' =>
      rw [hrun] at herror
      cases herror
      exact ⟨_, hP.report halt.error (hP.next (hP.reaches h hreaches) hnext),
        by rw [decode, hrun]; rfl⟩
    | ok end' =>
      rw [hrun] at herror
      cases herror

end Machine.IsKept

theorem Machine.Invariant.exists_decode {ctx : Context α} {P : Machine α → Prop}
    (hP : Invariant ctx P) (h : P (start ctx)) (code : List UInt8) :
    ∃ m, P m ∧ decode ctx code = m.finish ctx :=
  hP.isKept.exists_decode h code

end Letterform.Charstring
