import FrontEnd.Fault
import FrontEnd.Byte.Class

/-!
# Positions

A line and a column. A buffer starts at `1:1`; a line feed moves to column 0 of the next line, and
any other byte to the next column. So columns count from 1 on the first line and from 0 on the
others, and the position after a byte is what an error message shows.

* `advance`: the position after one more byte;
* `skip`: the position after a whole stretch of bytes, from its length, its line feeds and the last
  of them. Its counts are taken modulo `2 ^ 32` before the checked sum.
-/

namespace FrontEnd

/-- A line and a column. -/
structure Position where
  line : UInt32
  col : UInt32
  deriving DecidableEq, Repr

namespace Position

/-- The position before the first byte of a buffer. -/
def start : Position := ⟨1, 1⟩

/-- The position of nothing, before every line. -/
instance : Inhabited Position := ⟨⟨0, 0⟩⟩

/-- The line, a colon and the column. -/
def text (p : Position) : String := s!"{p.line}:{p.col}"

/-- Positions are ordered by line, and within a line by column. -/
instance : Ord Position where
  compare a b := (compare a.line b.line).then (compare a.col b.col)

/-- The later of two positions. -/
instance : Max Position where
  max a b := if (compare a b).isGT then a else b

/-- The position after one more byte. The column is set before the line is counted. -/
def advance (b : UInt8) : EStateM Fault Position Unit := fun p =>
  if b = Byte.newline then
    match Word.add32 p.line 1 with
    | .ok line => .ok () ⟨line, 0⟩
    | .error f => .error f ⟨p.line, 0⟩
  else
    match Word.add32 p.col 1 with
    | .ok col => .ok () ⟨p.line, col⟩
    | .error f => .error f p

/-- The number of bytes after the last line feed. -/
def lastLineLength (bs : List UInt8) : Nat :=
  (bs.reverse.takeWhile (· != Byte.newline)).length

/-- The position after a stretch of bytes, all at once. -/
def skip (bs : List UInt8) : EStateM Fault Position Unit := fun p =>
  if bs.contains Byte.newline then
    match Word.add32 p.line (UInt32.ofNat (bs.count Byte.newline)) with
    | .ok line => .ok () ⟨line, UInt32.ofNat (lastLineLength bs)⟩
    | .error f => .error f p
  else
    match Word.add32 p.col (UInt32.ofNat bs.length) with
    | .ok col => .ok () ⟨p.line, col⟩
    | .error f => .error f p

end Position

end FrontEnd
