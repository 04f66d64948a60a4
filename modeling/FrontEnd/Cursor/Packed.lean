import FrontEnd.Byte.Blocks
import FrontEnd.Cursor.Session

/-!
# Cursors over blocks

A cursor over bytes in blocks, for buffers that are too long to be written out. Its operations are
those of a cursor over the bytes, with the same answers and faults; a stretch of string content is
skipped block by block.
-/

namespace FrontEnd

open Byte (Blocks)

/-- The position after a stretch of bytes in blocks, all at once. -/
def Position.skipBlocks (bs : Blocks) : EStateM Fault Position Unit := fun p =>
  if bs.count Byte.newline = 0 then
    match Word.add32 p.col (UInt32.ofNat bs.length) with
    | .ok col => .ok () ⟨p.line, col⟩
    | .error f => .error f p
  else
    match Word.add32 p.line (UInt32.ofNat (bs.count Byte.newline)) with
    | .ok line => .ok () ⟨line, UInt32.ofNat (bs.lengthAfterLast Byte.newline)⟩
    | .error f => .error f p

namespace Cursor

/-- A reader over a buffer in blocks. -/
structure Packed where
  buffer : Blocks
  /-- The bytes not yet read. -/
  rest : Blocks
  /-- The offset of the next byte. -/
  pos : Nat
  /-- The line and column after the last byte read. -/
  position : Position
  deriving DecidableEq, Repr

namespace Packed

/-- The cursor at the start of a buffer. -/
def ofBlocks (bs : Blocks) : Packed := ⟨bs, bs, 0, .start⟩

/-- The cursor at the start of the same buffer. -/
def rewound (c : Packed) : Packed := ofBlocks c.buffer

/-- Nothing is left to read. -/
def atEnd (c : Packed) : Bool := c.rest.uncons?.isNone

/-- The next byte, unread. -/
def current (c : Packed) : Option UInt8 := c.rest.uncons?.map (·.1)

/-- The cursor with `n` more bytes read, `rest` left, and the line and column at `p`. -/
def past (c : Packed) (n : Nat) (rest : Blocks) (p : Position) : Packed :=
  { c with rest := rest, pos := c.pos + n, position := p }

/-- Reads one byte. -/
def bump : EStateM Fault Packed (Option UInt8) := fun c =>
  match c.rest.uncons? with
  | none => .ok none c
  | some (b, rest) =>
    match c.position.advance b with
    | .ok _ p => .ok (some b) (c.past 1 rest p)
    | .error f p => .error f (c.past 1 rest p)

/-- Reads the bytes that satisfy `p`, up to the first that does not. -/
def eatWhile (p : UInt8 → Bool) (c : Packed) : EStateM.Result Fault Packed Unit :=
  match _h : c.rest.uncons? with
  | none => .ok () c
  | some (b, rest) =>
    if p b then
      match c.position.advance b with
      | .ok _ q => eatWhile p (c.past 1 rest q)
      | .error f q => .error f (c.past 1 rest q)
    else .ok () c
termination_by c.rest.length
decreasing_by exact Byte.Blocks.length_lt_of_uncons? _h

/-- What the next unread bytes stop a search with. -/
def stop (rest : Blocks) : Stop :=
  match rest.uncons? with
  | none => .bufferEnd
  | some (b, _) => if b = Byte.quote then .quote else .backslash

/-- Reads up to the next quote or backslash, which stays unread. -/
def skipToDelimiter : EStateM Fault Packed Stop := fun c =>
  let (skipped, rest) := c.rest.breakAt Byte.isDelimiter
  match c.position.skipBlocks skipped with
  | .ok _ p => .ok (stop rest) (c.past skipped.length rest p)
  | .error f p => .error f { c with position := p }

/-- The bytes from `start` up to `stop`, which must have been read. -/
def slice (c : Packed) (start stop : Nat) : Except Fault (List UInt8) :=
  if stop < start then .error (.sliceReversed start stop)
  else if c.pos < stop then .error (.slicePastCursor stop c.pos)
  else .ok ((c.buffer.splitAt stop).1.splitAt start).2.toList

/-- A cursor over blocks, and the copy saved last. -/
structure Session where
  cursor : Packed
  saved : Packed
  deriving DecidableEq, Repr

namespace Session

/-- A fresh cursor over a buffer, which also counts as saved. -/
def ofBlocks (bs : Blocks) : Session := ⟨.ofBlocks bs, .ofBlocks bs⟩

/-- Runs a cursor operation and words its answer. -/
def run {α : Type} (s : Session) (result : EStateM.Result Fault Packed α) (answer : α → Answer) :
    Answer × Session :=
  match result with
  | .ok a c => (answer a, { s with cursor := c })
  | .error f c => (.fault f, { s with cursor := c })

/-- Words the answer of a question about the cursor. -/
def ask {α : Type} (s : Session) (result : Except Fault α) (answer : α → Answer) :
    Answer × Session :=
  match result with
  | .ok a => (answer a, s)
  | .error f => (.fault f, s)

/-- One operation. -/
def step (s : Session) : Op → Answer × Session
  | .bump => s.run s.cursor.bump .byte
  | .current => (.byte s.cursor.current, s)
  | .eatWhile p => s.run (s.cursor.eatWhile p) fun _ => .done
  | .skipToDelimiter => s.run s.cursor.skipToDelimiter .stop
  | .slice start stop => s.ask (s.cursor.slice start stop) .bytes
  | .sliceFrom start => s.ask (s.cursor.slice start s.cursor.pos) .bytes
  | .reset => (.done, { s with cursor := s.cursor.rewound })
  | .save => (.done, { s with saved := s.cursor })
  | .restore => (.done, { s with cursor := s.saved })

/-- The session after a list of operations. -/
def after (s : Session) (ops : List Op) : Session := ops.foldl (fun s op => (s.step op).2) s

end Session

end Packed

end Cursor

end FrontEnd
