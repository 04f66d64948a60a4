/-!
# Options of a listing

The options with which a token stream is listed, and how they and the path of a source are read from
a list of arguments. The first argument without a leading dash is the path. An argument that is
neither an option nor the path is answered by a warning and has no other effect.
-/

namespace FrontEnd.Report

/-- How a token stream is listed. -/
structure Options where
  /-- Stop at the first byte that starts no token. -/
  stopOnUnknown : Bool := false
  /-- Add a line with the numbers of tokens. -/
  summary : Bool := false
  /-- Put before each token the position at which its scan ended. -/
  positions : Bool := false
  deriving DecidableEq, Repr

/-- An argument without effect. -/
inductive Warning where
  /-- An argument with a leading dash that is no option. -/
  | unknownOption (flag : String)
  /-- An argument after the path. -/
  | extraArgument (arg : String)
  deriving DecidableEq, Repr

namespace Warning

/-- The text of a warning. -/
def message : Warning → String
  | unknownOption flag => "warning: unknown lex option '" ++ flag ++ "'"
  | extraArgument arg => "warning: ignoring extra argument '" ++ arg ++ "'"

end Warning

/-- What a list of arguments asks for. -/
structure Arguments where
  path : Option String := none
  options : Options := {}
  /-- The warnings, in the order of the arguments. -/
  warnings : List Warning := []
  deriving DecidableEq, Repr

namespace Arguments

/-- An argument that is never a path. -/
def isFlag (arg : String) : Bool := arg.toList.head? == some '-'

/-- One more argument. -/
def add (a : Arguments) (arg : String) : Arguments :=
  if arg = "--stop-on-unknown" then { a with options := { a.options with stopOnUnknown := true } }
  else if arg = "--summary" then { a with options := { a.options with summary := true } }
  else if arg = "--positions" then { a with options := { a.options with positions := true } }
  else if isFlag arg then { a with warnings := a.warnings ++ [.unknownOption arg] }
  else if a.path.isNone then { a with path := some arg }
  else { a with warnings := a.warnings ++ [.extraArgument arg] }

/-- What the arguments ask for together. -/
def ofList (args : List String) : Arguments := args.foldl add {}

end Arguments

end FrontEnd.Report
