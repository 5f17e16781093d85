import Letterform.Inspect.Command
import Letterform.Number.Double

/-!
# Command line
-/

namespace Letterform

/-- The number of a system failure, which may come negated. -/
def failureNumber (code : UInt32) : Nat :=
  if code < 0x80000000 then code.toNat else (0 - code).toNat

def failureName (number : Nat) (details : String) : String :=
  match number with
  | 2 => "No such file or directory"
  | 13 => "Permission denied"
  | 20 => "Not a directory"
  | 21 => "Is a directory"
  | 36 => "File name too long"
  | 40 => "Too many levels of symbolic links"
  | _ => details.capitalize

def failureText : IO.Error → String
  | .alreadyExists _ code details | .otherError code details | .resourceBusy code details
  | .resourceVanished code details | .unsupportedOperation code details
  | .hardwareFault code details | .unsatisfiedConstraints code details
  | .illegalOperation code details | .protocolError code details | .timeExpired code details
  | .interrupted _ code details | .noFileOrDirectory _ code details
  | .invalidArgument _ code details | .permissionDenied _ code details
  | .resourceExhausted _ code details | .inappropriateType _ code details
  | .noSuchThing _ code details =>
    let number := failureNumber code
    failureName number details ++ s!" (os error {number})"
  | .unexpectedEof => "unexpected end of file"
  | .userError message => message

def readBytes (path : String) : IO (Except String (List UInt8)) := do
  try
    return .ok (← IO.FS.readBinFile path).toList
  catch e =>
    return .error (failureText e)

end Letterform

def main (words : List String) : IO UInt32 := do
  let outcome ← Letterform.Inspect.run words Letterform.readBytes
  IO.print outcome.output
  IO.eprint outcome.errors
  return outcome.exitCode.toUInt32
