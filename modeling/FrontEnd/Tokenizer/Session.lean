import FrontEnd.Tokenizer.Run

/-!
# Sessions with a tokenizer

A session is a tokenizer and a saved copy of it, driven by operations in any order. A step gives the
answer of one operation and the session after it; a stop is an answer too, and the session goes on
from the state it left.
-/

namespace FrontEnd.Tokenizer

/-- A use of a tokenizer. -/
inductive Op where
  | scan
  | next
  | peek
  | next?
  | collect
  | reset
  | save
  | restore
  deriving DecidableEq, Repr

/-- What an operation answers. -/
inductive Answer where
  | done
  | token (t : Option Token)
  | tokens (ts : List Token)
  | lexError (e : LexError)
  | aborted (a : Abort)
  deriving DecidableEq, Repr

/-- A tokenizer and the copy saved last. -/
structure Session where
  tokenizer : Tokenizer
  saved : Tokenizer
  deriving DecidableEq, Repr

namespace Session

/-- A fresh tokenizer over a buffer, which also counts as saved. -/
def ofList (bytes : List UInt8) : Session := ⟨.ofList bytes, .ofList bytes⟩

/-- Runs a tokenizer operation and words its answer. -/
def run {ε α : Type} (s : Session) (result : EStateM.Result ε Tokenizer α) (abort : ε → Abort)
    (answer : α → Answer) : Answer × Session :=
  match result with
  | .ok a t => (answer a, { s with tokenizer := t })
  | .error e t => (.aborted (abort e), { s with tokenizer := t })

/-- Words the answer of a scan. -/
def answerOfScan : Except LexError Token → Answer
  | .ok token => .token (some token)
  | .error e => .lexError e

/-- One operation. -/
def step (s : Session) : Op → Answer × Session
  | .scan => s.run s.tokenizer.scan .fault answerOfScan
  | .next => s.run s.tokenizer.next id (.token ∘ some)
  | .peek => s.run s.tokenizer.peek id (.token ∘ some)
  | .next? => s.run s.tokenizer.next? id .token
  | .collect => s.run s.tokenizer.collect id .tokens
  | .reset => (.done, { s with tokenizer := s.tokenizer.rewound })
  | .save => (.done, { s with saved := s.tokenizer })
  | .restore => (.done, { s with tokenizer := s.saved })

/-- The session after a list of operations. -/
def after (s : Session) (ops : List Op) : Session := ops.foldl (fun s op => (s.step op).2) s

end Session

end FrontEnd.Tokenizer
