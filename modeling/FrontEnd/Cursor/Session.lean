import FrontEnd.Cursor.Basic

/-!
# Sessions with a cursor

A session is a cursor and a saved copy of it, driven by operations in any order. A step gives the
answer of one operation and the session after it; an operation that faults leaves the cursor where
the fault found it, and the session goes on from there.
-/

namespace FrontEnd.Cursor

/-- A use of a cursor. -/
inductive Op where
  | bump
  | current
  | eatWhile (p : UInt8 → Bool)
  | skipToDelimiter
  | slice (start stop : Nat)
  | sliceFrom (start : Nat)
  | reset
  | save
  | restore

/-- What an operation answers. -/
inductive Answer where
  | done
  | byte (b : Option UInt8)
  | stop (s : Stop)
  | bytes (bs : List UInt8)
  | fault (f : Fault)
  deriving DecidableEq, Repr

/-- A cursor and the copy saved last. -/
structure Session where
  cursor : Cursor
  saved : Cursor
  deriving DecidableEq, Repr

namespace Session

/-- A fresh cursor over a buffer, which also counts as saved. -/
def ofList (bytes : List UInt8) : Session := ⟨.ofList bytes, .ofList bytes⟩

/-- Runs a cursor operation and words its answer. -/
def run {α : Type} (s : Session) (result : EStateM.Result Fault Cursor α) (answer : α → Answer) :
    Answer × Session :=
  match result with
  | .ok a c => (answer a, { s with cursor := c })
  | .error f c => (.fault f, { s with cursor := c })

/-- Words the answer of a question about the cursor. -/
def ask {α : Type} (s : Session) (result : Except Fault α) (answer : α → Answer) :
    Answer × Session :=
  match result with
  | .ok a => (answer a, s)
  | .error f => (.fault f, s)

/-- One operation. -/
def step (s : Session) : Op → Answer × Session
  | .bump => s.run s.cursor.bump .byte
  | .current => (.byte s.cursor.current, s)
  | .eatWhile p => s.run (s.cursor.eatWhile p) fun _ => .done
  | .skipToDelimiter => s.run s.cursor.skipToDelimiter .stop
  | .slice start stop => s.ask (s.cursor.slice start stop) .bytes
  | .sliceFrom start => s.ask (s.cursor.sliceFrom start) .bytes
  | .reset => (.done, { s with cursor := s.cursor.rewound })
  | .save => (.done, { s with saved := s.cursor })
  | .restore => (.done, { s with cursor := s.saved })

/-- The session after a list of operations. -/
def after (s : Session) (ops : List Op) : Session := ops.foldl (fun s op => (s.step op).2) s

end Session

end FrontEnd.Cursor
