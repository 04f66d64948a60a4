import FrontEnd.Fault

/-!
# Blocks

The handle of a block of memory, and the reasons for which a request for one is refused.
-/

namespace FrontEnd.Arena

/-- A block of a region: where it starts and how long it is. -/
structure Block where
  offset : UInt64
  len : UInt64
  deriving DecidableEq, Repr

namespace Block

/-- A block of no bytes. -/
def isEmpty (b : Block) : Bool := b.len == 0

/-- The offset after the last byte of a block. -/
def stop (b : Block) : Except Fault UInt64 := Word.add64 b.offset b.len

end Block

/-- Why a request was refused. -/
inductive AllocError where
  /-- Blocks of no bytes are not handed out. -/
  | zeroSize
  /-- The block does not fit. -/
  | outOfMemory (requested remaining : UInt64)
  /-- Another block, or none, ends where the free bytes begin. -/
  | notTail (offset : UInt64)
  deriving DecidableEq, Repr

namespace AllocError

/-- The text of a refusal. -/
def message : AllocError → String
  | zeroSize => "zero-sized allocation"
  | outOfMemory requested remaining =>
    s!"out of memory: requested {requested} bytes, {remaining} remaining"
  | notTail offset => s!"allocation at offset {offset} is not the most recent one"

end AllocError

end FrontEnd.Arena
