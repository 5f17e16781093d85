import Letterform.Charstring.Machine
import Letterform.Charstring.Token
import Letterform.Outline.Decoded

/-!
# Evaluating code

The code of a charstring or of a subroutine is evaluated token by token until it ends, returns,
or ends the charstring. A call evaluates the code of a subroutine one level further down and then
goes on behind the call. Calls below the last level are reported and passed over, so evaluation
ends for all code, also for subroutines that call themselves.
-/

namespace Letterform.Charstring

variable {α : Type} [Scalar α]

inductive Ending
  /-- It is exhausted or has returned; the code that called it goes on. -/
  | returned
  /-- It has ended the charstring. -/
  | finished
  deriving DecidableEq, Repr

namespace Machine

/-- Evaluates code with a number of call levels left below it. -/
def run (ctx : Context α) (levels : Nat) (code : List UInt8) (m : Machine α) :
    Outcome α (Machine α × Ending) :=
  match code with
  | [] => .ok (m, .returned)
  | b :: code =>
    match _hread : Token.read (α := α) ctx.version b code with
    | .error e => m.halt e
    | .ok (.operand a, rest) => do run ctx levels rest (← m.push a)
    | .ok (.operator op, rest) =>
      if !op.isKnownTo ctx.version then
        let unsupported := Error.unsupportedOperator op ctx.version
        if op = .dotsection then run ctx levels rest (m.report unsupported).clear
        else m.halt unsupported
      else
        match op with
        | .call isGlobal => do
          let (index, m) ← m.popInt
          match levels with
          | 0 => run ctx 0 rest (m.report .nestingDepthLimitExceeded)
          | levels + 1 =>
            let subroutines :=
              if isGlobal then ctx.globalSubroutines else ctx.localSubroutines
            match subroutines.get index with
            | .error e => run ctx (levels + 1) rest (m.report e)
            | .ok body =>
              match ← run ctx levels body m with
              | (m, .returned) => run ctx (levels + 1) rest m
              | (m, .finished) => return (m, .finished)
        | .ret => .ok (m, .returned)
        | .endchar => .ok (m.endCharacter ctx, .finished)
        | .mask isCounter => do
          let m ← m.prepareMask ctx
          let length := HintMask.byteLength (m.hintCount ctx)
          if rest.length < length then m.halt (.hintMaskTruncated length rest.length)
          else
            run ctx levels (rest.drop length)
              (m.addMask ctx isCounter (rest.take length))
        | op => do run ctx levels rest (← m.evaluate ctx op)
termination_by (levels, code.length)
decreasing_by
  all_goals
    have := Token.length_rest_le _hread
    simp only [Prod.lex_def, List.length_cons, List.length_drop, true_and]
    omega

end Machine

structure Decoded (α : Type) extends Letterform.Decoded Error α where
  /-- The stems declared, with those before the charstring. -/
  hintCount : Nat

namespace Machine

def finish (m : Machine α) (ctx : Context α) : Decoded α :=
  let figure := m.builder.finish
  let glyph := { m.glyph with figures := if figure.isEmpty then [] else [figure] }.withBounds
  { glyph :=
      { glyph with bearing := if ctx.version = .type1 then glyph.bearing else glyph.bounds.x0 }
    diagnostics := m.diagnostics.toList
    hintCount := m.hintCount ctx }

end Machine

/-- Decodes a charstring. Those of Type 1 have to be decrypted first. -/
def decode (ctx : Context α) (code : List UInt8) : Decoded α :=
  match (Machine.start ctx).run ctx callLimit code with
  | .ok (m, _) => m.finish ctx
  | .error ⟨m, e⟩ => (m.report e).finish ctx

end Letterform.Charstring
