import FrontEnd.Command.Invocation

/-!
# The program

Reads the source that the arguments name, if they name one, and writes the output.
-/

namespace FrontEnd

/-- What the system says about a file that cannot be read. -/
def readErrorOfSystem : IO.Error → Command.ReadError
  | .noFileOrDirectory _ code text | .interrupted _ code text => .ofCode code text
  | .alreadyExists _ code text | .invalidArgument _ code text | .permissionDenied _ code text
  | .resourceExhausted _ code text | .inappropriateType _ code text | .noSuchThing _ code text =>
    .ofCode code text
  | .otherError code text | .resourceBusy code text | .resourceVanished code text
  | .unsupportedOperation code text | .hardwareFault code text | .unsatisfiedConstraints code text
  | .illegalOperation code text | .protocolError code text | .timeExpired code text =>
    .ofCode code text
  -- The errors that the system does not number have their own text alone.
  | .unexpectedEof => .other (toString IO.Error.unexpectedEof)
  | .userError text => .other text

/-- The bytes of a file. -/
def readSource (path : String) : IO (Except Command.ReadError (List UInt8)) := do
  try
    return .ok (← IO.FS.withFile path .read fun file => file.readBinToEnd).toList
  catch e =>
    return .error (readErrorOfSystem e)

end FrontEnd

open FrontEnd in
/-- Runs the program on its arguments. -/
def main (args : List String) : IO UInt32 := do
  let invocation := Command.Invocation.ofArgs args
  let source ←
    match invocation.path? with
    | some path => readSource path
    | none => pure (.error .notFound)
  let output := invocation.output fun _ => source
  (← IO.getStdout).putStr output.stdout
  (← IO.getStderr).putStr output.stderr
  return output.status
