import FrontEnd.Byte.Class

/-!
# Bytes in blocks

A string of bytes as blocks, each a unit and how often it stands there one behind the other. A long
repetition takes the room of its unit. What is asked of the bytes is answered from the blocks, and
only `toList` writes them out.
-/

namespace FrontEnd.Byte

/-- A unit of bytes, so many times. -/
structure Block where
  unit : List UInt8
  times : Nat
  deriving DecidableEq, Repr

namespace Block

/-- The bytes of a block. -/
def toList (b : Block) : List UInt8 := (List.replicate b.times b.unit).flatten

/-- The number of bytes in a block. -/
def length (b : Block) : Nat := b.times * b.unit.length

end Block

/-- Blocks one behind the other. -/
abbrev Blocks := List Block

namespace Blocks

/-- The bytes of the blocks. -/
def toList (bs : Blocks) : List UInt8 := bs.flatMap Block.toList

/-- The number of bytes. -/
def length : Blocks → Nat
  | [] => 0
  | b :: bs => b.length + length bs

/-- How often a byte is among them. -/
def count (x : UInt8) : Blocks → Nat
  | [] => 0
  | b :: bs => b.times * b.unit.count x + count x bs

/-- The number of bytes behind the last one that is `x`; all of them where none is. -/
def lengthAfterLast (x : UInt8) (bs : Blocks) : Nat :=
  bs.foldl (fun n b =>
    if b.times = 0 then n
    else if x ∈ b.unit then (b.unit.reverse.takeWhile (· != x)).length
    else n + b.length) 0

/-- One more block in front, unless it is empty. -/
def push (b : Block) (bs : Blocks) : Blocks := if b.times = 0 then bs else b :: bs

/-- The first byte, and those behind it. -/
def uncons? : Blocks → Option (UInt8 × Blocks)
  | [] => none
  | ⟨_, 0⟩ :: bs => uncons? bs
  | ⟨[], _ + 1⟩ :: bs => uncons? bs
  | ⟨x :: unit, n + 1⟩ :: bs => some (x, ⟨unit, 1⟩ :: push ⟨x :: unit, n⟩ bs)

/-- The bytes before the first one that satisfies `p`, and the others. -/
def breakAt (p : UInt8 → Bool) : Blocks → Blocks × Blocks
  | [] => ([], [])
  | b :: bs =>
    if b.times = 0 ∨ b.unit.any p = false then
      let (before, rest) := breakAt p bs
      (b :: before, rest)
    else
      ([⟨b.unit.takeWhile (!p ·), 1⟩],
        ⟨b.unit.dropWhile (!p ·), 1⟩ :: push ⟨b.unit, b.times - 1⟩ bs)

/-- The first `n` bytes, and the others. -/
def splitAt (n : Nat) : Blocks → Blocks × Blocks
  | [] => ([], [])
  | b :: bs =>
    if b.length ≤ n then
      let (before, rest) := splitAt (n - b.length) bs
      (b :: before, rest)
    else
      let whole := n / b.unit.length
      let part := n % b.unit.length
      ([⟨b.unit, whole⟩, ⟨b.unit.take part, 1⟩],
        ⟨b.unit.drop part, 1⟩ :: push ⟨b.unit, b.times - whole - 1⟩ bs)

theorem length_push (b : Block) (bs : Blocks) : (push b bs).length = b.length + bs.length := by
  unfold push
  split
  · rename_i htimes
    rw [Block.length, htimes, Nat.zero_mul, Nat.zero_add]
  · rfl

/-- To read a byte leaves less to read. -/
theorem length_lt_of_uncons? {bs rest : Blocks} {x : UInt8} (h : bs.uncons? = some (x, rest)) :
    rest.length < bs.length := by
  fun_induction uncons? bs with
  | case1 => cases h
  | case2 _ bs ih | case3 _ bs ih =>
    rw [length]
    exact Nat.lt_add_left _ (ih h)
  | case4 y unit n bs =>
    cases h
    simp only [length, length_push, Block.length, List.length_cons, Nat.succ_mul]
    omega

end Blocks

end FrontEnd.Byte
