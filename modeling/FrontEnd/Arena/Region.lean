import FrontEnd.Arena.Allocator

/-!
# Regions

A region is memory handed out from the left. The bytes before its cursor are in use, the others
free. A new block starts at the first free offset whose address is a multiple of `alignment`; the
block that ends at the cursor, the tail, can be resized in place.

* `allocate`, `allocateCopy`: a new block, and one that holds given bytes;
* `resize`: another length for the tail;
* `get?`, `write`, `writeAt`: the bytes of a block, a store at its start, and one within it;
* `reset`: every byte is free again. The bytes themselves stay.

Sums, differences and ranges are checked, and a failed check is a fault. A refused request is an
answer, and leaves the region as it was.
-/

namespace FrontEnd.Arena

/-- The address of every new block is a multiple of this. -/
def alignment : UInt64 := 8

/-- Memory, and how much of it is in use. -/
structure Region where
  /-- The address of the first byte. -/
  base : UInt64
  mem : List UInt8
  /-- The offset of the first free byte. -/
  cursor : UInt64
  deriving DecidableEq, Repr

namespace Region

/-- A region of zeros with no block in it. -/
def zeros (base : UInt64) (capacity : Nat) : Region := ⟨base, List.replicate capacity 0, 0⟩

/-- The size of the memory. -/
def capacity (r : Region) : UInt64 := UInt64.ofNat r.mem.length

/-- The number of bytes in use, gaps before blocks included. -/
def used (r : Region) : UInt64 := r.cursor

/-- The number of free bytes. -/
def remaining (r : Region) : Except Fault UInt64 := Word.sub64 r.capacity r.cursor

/-- The number of bytes to leave out before a new block. -/
def padding (r : Region) : Except Fault UInt64 := do
  let address ← Word.add64 r.base r.cursor
  return (alignment - address % alignment) % alignment

/-- The block that a request for `size` bytes gives. -/
def placed (r : Region) (size : UInt64) : Except Fault (Except AllocError Block) := do
  if size = 0 then
    return .error .zeroSize
  let padding ← r.padding
  let remaining ← r.remaining
  match Word.add64 padding size with
  | .ok needed =>
    if needed ≤ remaining then
      return .ok ⟨← Word.add64 r.cursor padding, size⟩
    else
      return .error (.outOfMemory size remaining)
  | .error _ => return .error (.outOfMemory size remaining)

/-- The block ends at the cursor. -/
def isTail (r : Region) (b : Block) : Except Fault Bool := do
  if b.isEmpty then
    return false
  return (← b.stop) == r.cursor

/-- The block that a request for another length gives. -/
def resized (r : Region) (b : Block) (size : UInt64) : Except Fault (Except AllocError Block) := do
  if size = 0 then
    return .error .zeroSize
  if !(← r.isTail b) then
    return .error (.notTail b.offset)
  let available ← Word.sub64 r.capacity b.offset
  if size ≤ available then
    return .ok ⟨b.offset, size⟩
  else
    return .error (.outOfMemory size available)

/-- Moves the cursor to the end of a block that was granted. -/
def settle (granted : Except AllocError Block) :
    EStateM Fault Region (Except AllocError Block) := do
  if let .ok b := granted then
    let stop ← b.stop
    modify ({ · with cursor := stop })
  return granted

/-- A new block of `size` bytes. -/
def allocate (size : UInt64) : EStateM Fault Region (Except AllocError Block) := do
  settle (← (← get).placed size)

/-- The tail with another length. Any other block is refused. -/
def resize (b : Block) (size : UInt64) : EStateM Fault Region (Except AllocError Block) := do
  settle (← (← get).resized b size)

instance : Allocator Region where
  realloc existing len :=
    match existing with
    | none => allocate len
    | some b => resize b len

/-- The memory with `bytes` stored from an offset on. -/
def store (mem : List UInt8) (offset : Nat) (bytes : List UInt8) : List UInt8 :=
  mem.take offset ++ bytes ++ mem.drop (offset + bytes.length)

/-- Stores `bytes` in a block of their length. -/
def fill (b : Block) (bytes : List UInt8) : EStateM Fault Region Unit := do
  let r ← get
  let start := b.offset.toNat
  let stop := (← b.stop).toNat
  if stop < start then
    throw (.rangeReversed start stop)
  if r.mem.length < stop then
    throw (.rangePastEnd stop r.mem.length)
  if bytes.length ≠ stop - start then
    throw (.lengthMismatch bytes.length (stop - start))
  set { r with mem := store r.mem start bytes }

/-- A new block that holds `bytes`. -/
def allocateCopy (bytes : List UInt8) : EStateM Fault Region (Except AllocError Block) := do
  let granted ← allocate (UInt64.ofNat bytes.length)
  if let .ok b := granted then
    fill b bytes
  return granted

/-- The bytes of a block, unless it reaches past the cursor. -/
def get? (r : Region) (b : Block) : Except Fault (Option (List UInt8)) := do
  let stop ← b.stop
  if r.cursor < stop then
    return none
  if r.mem.length < stop.toNat then
    return none
  return some ((r.mem.drop b.offset.toNat).take b.len.toNat)

/-- Stores the first of `bytes` in a block, as many as fit, from its start on. Their number, or
`none` where the block reaches past the cursor. -/
def write (b : Block) (bytes : List UInt8) : EStateM Fault Region (Option Nat) := do
  let r ← get
  match ← r.get? b with
  | none => return none
  | some old =>
    let stored := bytes.take old.length
    set { r with mem := store r.mem b.offset.toNat stored }
    return some stored.length

/-- Stores the first of `bytes` in a block, as many as fit, from its byte `i` on. Their number, or
`none` where the block reaches past the cursor. -/
def writeAt (b : Block) (i : Nat) (bytes : List UInt8) : EStateM Fault Region (Option Nat) := do
  let r ← get
  match ← r.get? b with
  | none => return none
  | some old =>
    let stored := bytes.take (old.length - i)
    set { r with mem := store r.mem (b.offset.toNat + i) stored }
    return some stored.length

/-- Frees every byte. -/
def reset (r : Region) : Region := { r with cursor := 0 }

end Region

end FrontEnd.Arena
