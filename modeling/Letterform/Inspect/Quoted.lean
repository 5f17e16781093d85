import Letterform.Inspect.Unseen

/-!
# Quoted text

Characters that do not show, or that would end a quotation, are written as escapes.
-/

namespace Letterform.Inspect

def lowerHex (n : Nat) : String := String.ofList (Nat.toDigits 16 n)

namespace Quoted

def codePoint (c : Char) : String := "\\u\x7b" ++ lowerHex c.toNat ++ "\x7d"

def common? (c : Char) : Option String :=
  match c with
  | '\t' => some "\\t"
  | '\r' => some "\\r"
  | '\n' => some "\\n"
  | '\\' => some "\\\\"
  | _ => none

def asciiChar (c : Char) : String :=
  match common? c with
  | some escape => escape
  | none =>
    if c = '\'' ∨ c = '"' then "\\" ++ c.toString
    else if ' ' ≤ c ∧ c ≤ '~' then c.toString
    else codePoint c

def ascii (s : String) : String := String.join (s.toList.map asciiChar)

def visibleChar (marks : List Char) (c : Char) : String :=
  match common? c with
  | some escape => escape
  | none =>
    if c = '\x00' then "\\0"
    else if c ∈ marks then "\\" ++ c.toString
    else if Unseen.isUnseen c then codePoint c
    else c.toString

/-- Puts a text in quotes; the given marks are escaped in it. -/
def quote (marks : List Char) (s : String) : String :=
  "\"" ++ String.join (s.toList.map (visibleChar marks)) ++ "\""

end Quoted

end Letterform.Inspect
