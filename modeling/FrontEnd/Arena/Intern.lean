import FrontEnd.Arena.Region
import FrontEnd.Token.Basic

/-!
# Interned tokens

The lexemes of a token stream, copied one after another into a region. A lexeme that does not fit,
or that is empty, is left out, and the next one is tried.
-/

namespace FrontEnd.Arena

/-- What became of a token. -/
inductive Interned where
  /-- A token without a lexeme. -/
  | plain (kind : Token.Kind)
  /-- A copy of the lexeme. -/
  | stored (b : Block)
  | refused (e : AllocError)
  deriving DecidableEq, Repr

namespace Interned

/-- The block of a copy. -/
def block? : Interned → Option Block
  | stored b => some b
  | _ => none

end Interned

namespace Region

/-- Copies the lexeme of a token. -/
def intern (token : Token) : EStateM Fault Region Interned := do
  match token.lexeme? with
  | none => return .plain token.kind
  | some lexeme =>
    match ← allocateCopy lexeme with
    | .ok b => return .stored b
    | .error e => return .refused e

/-- Copies the lexemes of a list of tokens. -/
def internAll (tokens : List Token) : EStateM Fault Region (List Interned) := tokens.mapM intern

end Region

end FrontEnd.Arena
