import Letterform.Charstring.Version
import Letterform.Hint.Stem

/-!
# Operators

Every operator has an opcode of one byte, or of two if the first is the escape byte. The dialects
know different sets of operators.
-/

namespace Letterform.Charstring

inductive PathOperator
  | rlineto
  | hlineto
  | vlineto
  | rrcurveto
  | rcurveline
  | rlinecurve
  | vvcurveto
  | hhcurveto
  | vhcurveto
  | hvcurveto
  | hflex
  | flex
  | hflex1
  | flex1
  deriving DecidableEq, Repr

inductive Arithmetic
  | and
  | or
  | not
  | abs
  | add
  | sub
  | div
  | neg
  | eq
  | drop
  | put
  | get
  | ifelse
  | random
  | mul
  | sqrt
  | dup
  | exch
  | index
  | roll
  deriving DecidableEq, Repr

inductive Operator
  | path (p : PathOperator)
  | arithmetic (a : Arithmetic)
  /-- Stems, in a charstring that has masks or in one that has none. -/
  | stems (axis : Axis) (masked : Bool)
  | threeStems (axis : Axis)
  | mask (counter : Bool)
  | rmoveto
  | hmoveto
  | vmoveto
  | closepath
  | call (isGlobal : Bool)
  | ret
  | endchar
  | hsbw
  | sbw
  | seac
  | setcurrentpoint
  | callothersubr
  | pop
  | dotsection
  | vsindex
  | blend
  deriving DecidableEq, Repr

inductive Opcode
  | short (byte : UInt8)
  | escaped (byte : UInt8)
  deriving DecidableEq, Repr

namespace Opcode

def escape : UInt8 := 12

def toBytes : Opcode → List UInt8
  | short b => [b]
  | escaped b => [escape, b]

end Opcode

namespace PathOperator

def all : List PathOperator :=
  [rlineto, hlineto, vlineto, rrcurveto, rcurveline, rlinecurve, vvcurveto, hhcurveto, vhcurveto,
    hvcurveto, hflex, flex, hflex1, flex1]

def opcode : PathOperator → Opcode
  | rlineto => .short 5
  | hlineto => .short 6
  | vlineto => .short 7
  | rrcurveto => .short 8
  | rcurveline => .short 24
  | rlinecurve => .short 25
  | vvcurveto => .short 26
  | hhcurveto => .short 27
  | vhcurveto => .short 30
  | hvcurveto => .short 31
  | hflex => .escaped 34
  | flex => .escaped 35
  | hflex1 => .escaped 36
  | flex1 => .escaped 37

def name : PathOperator → String
  | rlineto => "rlineto"
  | hlineto => "hlineto"
  | vlineto => "vlineto"
  | rrcurveto => "rrcurveto"
  | rcurveline => "rcurveline"
  | rlinecurve => "rlinecurve"
  | vvcurveto => "vvcurveto"
  | hhcurveto => "hhcurveto"
  | vhcurveto => "vhcurveto"
  | hvcurveto => "hvcurveto"
  | hflex => "hflex"
  | flex => "flex"
  | hflex1 => "hflex1"
  | flex1 => "flex1"

def isKnownTo (version : Version) : PathOperator → Bool
  | rlineto | hlineto | vlineto | rrcurveto | vhcurveto | hvcurveto => true
  | _ => version ≠ .type1

end PathOperator

namespace Arithmetic

def all : List Arithmetic :=
  [and, or, not, abs, add, sub, div, neg, eq, drop, put, get, ifelse, random, mul, sqrt, dup, exch,
    index, roll]

def opcode : Arithmetic → Opcode
  | and => .escaped 3
  | or => .escaped 4
  | not => .escaped 5
  | abs => .escaped 9
  | add => .escaped 10
  | sub => .escaped 11
  | div => .escaped 12
  | neg => .escaped 14
  | eq => .escaped 15
  | drop => .escaped 18
  | put => .escaped 20
  | get => .escaped 21
  | ifelse => .escaped 22
  | random => .escaped 23
  | mul => .escaped 24
  | sqrt => .escaped 26
  | dup => .escaped 27
  | exch => .escaped 28
  | index => .escaped 29
  | roll => .escaped 30

def name : Arithmetic → String
  | and => "and"
  | or => "or"
  | not => "not"
  | abs => "abs"
  | add => "add"
  | sub => "sub"
  | div => "div"
  | neg => "neg"
  | eq => "eq"
  | drop => "drop"
  | put => "put"
  | get => "get"
  | ifelse => "ifelse"
  | random => "random"
  | mul => "mul"
  | sqrt => "sqrt"
  | dup => "dup"
  | exch => "exch"
  | index => "index"
  | roll => "roll"

def isKnownTo (version : Version) : Arithmetic → Bool
  | div => true
  | _ => version = .type2

end Arithmetic

namespace Operator

def all : List Operator :=
  PathOperator.all.map path ++ Arithmetic.all.map arithmetic ++
    [stems .horizontal false, stems .vertical false, stems .horizontal true, stems .vertical true,
      threeStems .horizontal, threeStems .vertical, mask false, mask true, rmoveto, hmoveto,
      vmoveto, closepath, call false, call true, ret, endchar, hsbw, sbw, seac, setcurrentpoint,
      callothersubr, pop, dotsection, vsindex, blend]

def opcode : Operator → Opcode
  | path p => p.opcode
  | arithmetic a => a.opcode
  | stems .horizontal false => .short 1
  | stems .vertical false => .short 3
  | vmoveto => .short 4
  | closepath => .short 9
  | call false => .short 10
  | ret => .short 11
  | hsbw => .short 13
  | endchar => .short 14
  | vsindex => .short 15
  | blend => .short 16
  | stems .horizontal true => .short 18
  | mask false => .short 19
  | mask true => .short 20
  | rmoveto => .short 21
  | hmoveto => .short 22
  | stems .vertical true => .short 23
  | call true => .short 29
  | dotsection => .escaped 0
  | threeStems .vertical => .escaped 1
  | threeStems .horizontal => .escaped 2
  | seac => .escaped 6
  | sbw => .escaped 7
  | callothersubr => .escaped 16
  | pop => .escaped 17
  | setcurrentpoint => .escaped 33

def ofOpcode? (code : Opcode) : Option Operator := all.find? (·.opcode = code)

def name : Operator → String
  | path p => p.name
  | arithmetic a => a.name
  | stems .horizontal false => "hstem"
  | stems .vertical false => "vstem"
  | vmoveto => "vmoveto"
  | closepath => "closepath"
  | call false => "callsubr"
  | ret => "return"
  | hsbw => "hsbw"
  | endchar => "endchar"
  | vsindex => "vsindex"
  | blend => "blend"
  | stems .horizontal true => "hstemhm"
  | mask false => "hintmask"
  | mask true => "cntrmask"
  | rmoveto => "rmoveto"
  | hmoveto => "hmoveto"
  | stems .vertical true => "vstemhm"
  | call true => "callgsubr"
  | dotsection => "dotsection"
  | threeStems .vertical => "vstem3"
  | threeStems .horizontal => "hstem3"
  | seac => "seac"
  | sbw => "sbw"
  | callothersubr => "callothersubr"
  | pop => "pop"
  | setcurrentpoint => "setcurrentpoint"

/-- Whether a dialect has an operator. Calls of other subroutines are let through everywhere, for
fonts that keep the flex idiom of Type 1. -/
def isKnownTo (version : Version) : Operator → Bool
  | path p => p.isKnownTo version
  | arithmetic a => a.isKnownTo version
  | stems _ false | vmoveto | rmoveto | hmoveto | call false | callothersubr | pop => true
  | ret | endchar => version ≠ .cff2
  | closepath | hsbw | sbw | seac | setcurrentpoint | threeStems _ | dotsection =>
    version = .type1
  | vsindex | blend => version = .cff2
  | stems _ true | mask _ | call true => version ≠ .type1

end Operator

end Letterform.Charstring
