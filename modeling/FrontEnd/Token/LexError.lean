import FrontEnd.Position

/-!
# Lex errors

The one error of the grammar: a string literal that the source ends in. It is an answer of the
tokenizer. A caller that wants tokens alone is stopped by it instead: an `Abort` is such a stop, by
a lex error or by a fault.
-/

namespace FrontEnd

/-- An error of the source. -/
inductive LexError where
  /-- A string literal without an end, and the position after its opening quote. -/
  | unterminatedString (position : Position)
  deriving DecidableEq, Repr

namespace LexError

/-- The position that an error names. -/
def position : LexError → Position
  | unterminatedString position => position

/-- The text of an error. -/
def message : LexError → String
  | unterminatedString position => position.text ++ ": unterminated string literal"

end LexError

/-- Why a scan was stopped. -/
inductive Abort where
  | lexError (e : LexError)
  | fault (f : Fault)
  deriving DecidableEq, Repr

/-- The text of a stop. -/
def Abort.message : Abort → String
  | lexError e => e.message
  | fault f => f.message

end FrontEnd
