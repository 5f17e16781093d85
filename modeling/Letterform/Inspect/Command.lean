import Letterform.Charstring.Cipher
import Letterform.Charstring.Encoding
import Letterform.Charstring.Evaluation
import Letterform.Inspect.Arguments
import Letterform.Inspect.Report
import Letterform.Record.Decoding
import Letterform.Record.Encoding

/-!
# The command that shows a glyph

The command decodes the glyph program in a file and reports on the glyph and on the problems that
were met. On demand it encodes the glyph again and compares the bytes. A glyph stands alone here:
no subroutines and no other glyphs are at hand.
-/

namespace Letterform.Inspect

structure Outcome where
  exitCode : Nat
  output : String
  errors : String
  deriving DecidableEq, Repr

namespace Outcome

def success (report : Report) : Outcome := { exitCode := 0, output := report.text, errors := "" }

def failure (message : String) : Outcome :=
  { exitCode := 1
    output := ""
    errors := "Error: Error(" ++ Quoted.quote ['"'] message ++ ")\n" }

end Outcome

namespace Report

def ofDecoded {ε : Type} (message : ε → String) (d : Decoded ε Float) : Report :=
  ofGlyph d.glyph ++ d.diagnostics.map (errorLine ∘ message)

def ofRecord (reencode : Bool) (data : List UInt8) : Report :=
  let decoded : Decoded Record.Error Float := Record.decode data
  let encoded := (Record.write defaultAccuracy 0 decoded.glyph (.ofArray #[])).map (·.bytes)
  ofDecoded (·.message) decoded ++
    if reencode then ofEncoded data (encoded.mapError (·.message)) else []

/-- The report on a charstring. Only those of Type 1 can be encrypted. -/
def ofCharstring (version : Charstring.Version) (decrypt reencode : Bool) (data : List UInt8) :
    Report :=
  let ctx : Charstring.Context Float := { version }
  let lenIv := if decrypt && version == .type1 then ctx.privateDict.lenIv else -1
  let decoded := Charstring.decode ctx (Charstring.Cipher.decrypt data lenIv)
  let encoded :=
    (Charstring.encode ctx default decoded.glyph).map (Charstring.Cipher.encrypt · lenIv)
  ofDecoded (·.message) decoded.toDecoded ++
    if reencode then ofEncoded data (encoded.mapError (·.message)) else []

end Report

namespace Arguments

def inspect (a : Arguments) (content : Except String (List UInt8)) : Outcome :=
  match content with
  | .error reason => .failure ("failed to read '" ++ a.input ++ "': " ++ reason)
  | .ok content =>
    match if a.hex then Hex.parse content else .ok content with
    | .error e => .failure e.message
    | .ok data =>
      match a.format with
      | .record => .success (.ofRecord a.reencode data)
      | .charstring version => .success (.ofCharstring version a.decrypt a.reencode data)

end Arguments

def run {m : Type → Type} [Monad m] (words : List String)
    (read : String → m (Except String (List UInt8))) : m Outcome := do
  match Arguments.parse words with
  | .error e => return .failure e.message
  | .ok arguments => return arguments.inspect (← read arguments.input)

end Letterform.Inspect
