import Letterform.Charstring.Version
import Letterform.Inspect.Quoted

/-!
# Arguments of the command

The words of a command line are read from left to right. What is missing or was given twice is
noticed after all of them have been read.
-/

namespace Letterform.Inspect

inductive Format
  | charstring (version : Charstring.Version)
  | record
  deriving DecidableEq, Repr

def Format.named? (name : String) : Option Format :=
  match name.toLower with
  | "type1" | "t1" => some (.charstring .type1)
  | "type2" | "cff" => some (.charstring .type2)
  | "cff2" => some (.charstring .cff2)
  | "glyf" | "truetype" => some .record
  | _ => none

structure Arguments where
  input : String
  format : Format
  hex : Bool
  decrypt : Bool
  reencode : Bool
  deriving DecidableEq, Repr

inductive ArgumentError
  | helpRequested
  | missingValue (flag : String)
  | unknownFormat (flag name : String)
  | unexpectedFlag (flag : String)
  | unexpectedArgument (word : String)
  | required (name : String)
  | repeated (flag : String)
  deriving DecidableEq, Repr

namespace ArgumentError

def help : String :=
  "args\n  Decode a glyph program and print its outline\n\n" ++
  "ARGS:\n    <input>\n\n" ++
  "OPTIONS:\n" ++
  "    -f, --format <format>\n      One of type1, type2, cff2 or glyf\n\n" ++
  "    --hex\n      The input is hexadecimal text\n\n" ++
  "    -d, --decrypt\n      Type1 input is encrypted\n\n" ++
  "    -r, --reencode\n      Encode the decoded glyph again and print the bytes\n\n" ++
  "    -h, --help\n      Prints help information.\n"

def ticked (flag : String) : String := "`" ++ flag ++ "`"

def message : ArgumentError → String
  | helpRequested => help
  | missingValue flag => "expected a value for " ++ ticked flag
  | unknownFormat flag name =>
    "can't parse " ++ ticked flag ++ ", unknown format '" ++ Quoted.ascii name ++
      "', expected one of type1, type2, cff2, glyf"
  | unexpectedFlag flag => "unexpected flag: " ++ ticked flag
  | unexpectedArgument word => "unexpected argument: " ++ Quoted.quote ['"', '\''] word
  | required name => "flag is required: " ++ ticked name
  | repeated flag => "flag specified more than once: " ++ ticked flag

end ArgumentError

namespace Arguments

structure Given where
  input : Option String := none
  formats : List Format := []
  hex : Nat := 0
  decrypt : Nat := 0
  reencode : Nat := 0
  deriving DecidableEq, Repr

namespace Given

instance : Inhabited Given := ⟨{}⟩

def take (g : Given) (word : String) : Except ArgumentError Given :=
  match g.input with
  | none => .ok { g with input := some word }
  | some _ => .error (.unexpectedArgument word)

def mark (g : Given) (flag : String) : Except ArgumentError Given :=
  match flag with
  | "-h" | "--help" => .error .helpRequested
  | "--hex" => .ok { g with hex := g.hex + 1 }
  | "-d" | "--decrypt" => .ok { g with decrypt := g.decrypt + 1 }
  | "-r" | "--reencode" => .ok { g with reencode := g.reencode + 1 }
  | _ => .error (.unexpectedFlag flag)

def addFormat (g : Given) (flag name : String) : Except ArgumentError Given :=
  match Format.named? name with
  | some format => .ok { g with formats := g.formats ++ [format] }
  | none => .error (.unknownFormat flag name)

/-- Reads words. Those after two hyphens are no flags, and the value of a flag may be any word. -/
def read (g : Given) : List String → Except ArgumentError Given
  | [] => .ok g
  | word :: rest =>
    if word = "--" then rest.foldlM take g
    else if word = "-f" ∨ word = "--format" then
      match rest with
      | [] => .error (.missingValue word)
      | name :: rest => do read (← g.addFormat word name) rest
    else if word.startsWith "-" then do read (← g.mark word) rest
    else do read (← g.take word) rest

end Given

def once (flag : String) (count : Nat) : Except ArgumentError Bool :=
  if 1 < count then .error (.repeated flag) else .ok (count == 1)

def parse (words : List String) : Except ArgumentError Arguments := do
  let given ← Given.read {} words
  let format ← match given.formats with
    | [] => .error (.required "--format")
    | [format] => .ok format
    | _ => .error (.repeated "--format")
  let hex ← once "--hex" given.hex
  let decrypt ← once "--decrypt" given.decrypt
  let reencode ← once "--reencode" given.reencode
  match given.input with
  | none => .error (.required "input")
  | some input => return { input, format, hex, decrypt, reencode }

end Arguments

end Letterform.Inspect
