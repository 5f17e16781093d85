import Letterform.Charstring.Stack

/-!
# Arithmetic in charstrings

Besides the operand stack there are 32 storage places, which hold zeros at first, and a generator
of pseudo-random numbers.
-/

namespace Letterform.Charstring

variable {α : Type} [Scalar α]

namespace Generator

def seed : UInt32 := 0x2545f491

def next (state : UInt32) : UInt32 :=
  let a := state ^^^ state <<< 13
  let b := a ^^^ a >>> 17
  b ^^^ b <<< 5

def value (state : UInt32) : α := Scalar.ofInt state.toNat / Scalar.ofInt 0xffffffff

end Generator

structure Calculator (α : Type) where
  stack : Stack α
  storage : List α
  generator : UInt32 := Generator.seed
  deriving BEq, DecidableEq, Repr

namespace Calculator

def storageSize : Nat := 32

def start (limit : Nat) : Calculator α :=
  { stack := { limit }, storage := List.replicate storageSize 0 }

def truth (b : Bool) : α := if b then 1 else 0

def isTrue (a : α) : Bool := !(a == 0)

def store (c : Calculator α) (index : Int) (a : α) : Except Error (Calculator α) :=
  if 0 ≤ index ∧ index.toNat < c.storage.length then
    .ok { c with storage := c.storage.set index.toNat a }
  else .error (.invalidTransientIndex index)

def load (c : Calculator α) (index : Int) : Except Error α :=
  match (if 0 ≤ index then c.storage[index.toNat]? else none) with
  | some a => .ok a
  | none => .error (.invalidTransientIndex index)

def withStack (c : Calculator α) (result : Except Error (Stack α)) :
    Except Error (Calculator α) :=
  result.map ({ c with stack := · })

def evaluate (c : Calculator α) : Arithmetic → Except Error (Calculator α)
  | .and => c.withStack (c.stack.combineTop fun a b => truth (isTrue a && isTrue b))
  | .or => c.withStack (c.stack.combineTop fun a b => truth (isTrue a || isTrue b))
  | .not => c.withStack (c.stack.replaceTop fun a => truth (a == 0))
  | .abs => c.withStack (c.stack.replaceTop Scalar.abs)
  | .add => c.withStack (c.stack.combineTop (· + ·))
  | .sub => c.withStack (c.stack.combineTop (· - ·))
  | .div => c.withStack (c.stack.combineTop fun a b => if b == 0 then 0 else a / b)
  | .neg => c.withStack (c.stack.replaceTop (- ·))
  | .eq => c.withStack (c.stack.combineTop fun a b => truth (a == b))
  | .mul => c.withStack (c.stack.combineTop (· * ·))
  | .sqrt => c.withStack (c.stack.replaceTop fun a => Scalar.sqrt (Scalar.greatest a 0))
  | .drop => do
    let (_, stack) ← c.stack.pop
    return { c with stack }
  | .put => do
    let (index, stack) ← c.stack.popInt
    let (a, stack) ← stack.pop
    { c with stack }.store index a
  | .get => do
    let (index, stack) ← c.stack.popInt
    let a ← c.load index
    c.withStack (stack.push a)
  | .ifelse => do
    let (v2, stack) ← c.stack.pop
    let (v1, stack) ← stack.pop
    let (s2, stack) ← stack.pop
    let (s1, stack) ← stack.pop
    c.withStack (stack.push (if v1 ≤ v2 then s1 else s2))
  | .random =>
    let generator := Generator.next c.generator
    { c with generator }.withStack (c.stack.push (Generator.value generator))
  | .dup => do
    let (a, stack) ← c.stack.pop
    c.withStack (do (← stack.push a).push a)
  | .exch => do
    let (b, stack) ← c.stack.pop
    let (a, stack) ← stack.pop
    c.withStack (do (← stack.push b).push a)
  | .index => do
    let (depth, stack) ← c.stack.popInt
    c.withStack (stack.copy depth)
  | .roll => do
    let (shift, stack) ← c.stack.popInt
    let (count, stack) ← stack.popInt
    c.withStack (stack.roll count shift)

end Calculator

end Letterform.Charstring
