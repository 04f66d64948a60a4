import FrontEnd.Tokenizer.Basic

/-!
# Runs of a tokenizer

A run scans until the end of the source or an error. It lists the tokens, each with the offset and
the position at which its scan ended, and keeps the tokenizer it leaves.

* `run`: the run from any state;
* `collect`: the rest of the tokens, where an error stops the caller;
* `tokenize`: the tokens of a buffer.
-/

namespace FrontEnd

/-- A token, and where its scan ended. -/
structure Lexed where
  token : Token
  offset : Nat
  position : Position
  deriving DecidableEq, Repr

/-- The scans up to the end of the source, or up to an error. -/
structure Run where
  /-- The tokens in order, without the end of the source. -/
  lexed : List Lexed
  /-- What stopped the run before the end of the source. -/
  stop : Option Abort
  /-- The state after the last scan. -/
  final : Tokenizer
  deriving DecidableEq, Repr

namespace Run

/-- The tokens of a run. -/
def tokens (r : Run) : List Token := r.lexed.map (·.token)

/-- The tokens with their ends, and the end of the source where the run reached it. -/
def lexedWithEof (r : Run) : List Lexed :=
  match r.stop with
  | none => r.lexed ++ [⟨.eof, r.final.offset, r.final.position⟩]
  | some _ => r.lexed

end Run

namespace Tokenizer

/-- The run from a state, after the scans of `done`, which holds the latest first. -/
def runFrom (done : List Lexed) (t : Tokenizer) : Run :=
  match _h : t.scan with
  | .ok (.ok token) t' =>
    if _ht : token.isEof then ⟨done.reverse, none, t'⟩
    else runFrom (⟨token, t'.offset, t'.position⟩ :: done) t'
  | .ok (.error e) t' => ⟨done.reverse, some (.lexError e), t'⟩
  | .error f t' => ⟨done.reverse, some (.fault f), t'⟩
termination_by t.cursor.rest.length
decreasing_by exact rest_length_lt_of_scan _h (by simpa using _ht)

/-- The run from a state. -/
def run (t : Tokenizer) : Run := runFrom [] t

/-- The rest of the tokens; an error stops the caller. -/
def collect : EStateM Abort Tokenizer (List Token) := fun t =>
  let r := t.run
  match r.stop with
  | none => .ok r.tokens r.final
  | some a => .error a r.final

end Tokenizer

/-- The tokens of a buffer, or what stopped its run. -/
def tokenize (bytes : List UInt8) : Except Abort (List Token) :=
  match (Tokenizer.ofList bytes).collect with
  | .ok tokens _ => .ok tokens
  | .error a _ => .error a

end FrontEnd
