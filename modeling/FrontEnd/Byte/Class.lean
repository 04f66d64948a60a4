/-!
# Byte classes

The bytes that the scanner tells apart: letters and digits (ASCII alone), blanks and line feeds, by
a table of flags with one entry for each byte, and the string delimiters.
-/

namespace FrontEnd.Byte

/-- The line feed. -/
def newline : UInt8 := 0x0a

/-- The quotation mark, which opens and closes a string literal. -/
def quote : UInt8 := 0x22

/-- The backslash, which makes the next byte of a string literal ordinary. -/
def backslash : UInt8 := 0x5c

/-! ## Flags -/

def letterFlag : UInt8 := 0x01

def digitFlag : UInt8 := 0x02

def blankFlag : UInt8 := 0x04

def newlineFlag : UInt8 := 0x08

/-- The flag of the class that a byte is in. -/
def flagOf (b : UInt8) : UInt8 :=
  if 0x61 ≤ b ∧ b ≤ 0x7a ∨ 0x41 ≤ b ∧ b ≤ 0x5a then letterFlag
  else if 0x30 ≤ b ∧ b ≤ 0x39 then digitFlag
  else if b = 0x20 ∨ b = 0x09 then blankFlag
  else if b = newline then newlineFlag
  else 0

/-- The flags of all bytes, in their order. -/
def flagTable : Vector UInt8 256 where
  toArray := ((List.range 256).map fun n => flagOf (UInt8.ofNat n)).toArray
  size_toArray := by rw [List.size_toArray, List.length_map, List.length_range]

/-- The table has one of the flags at a byte. -/
def hasFlag (flags b : UInt8) : Bool := flagTable[b.toFin] &&& flags != 0

/-- A byte that an identifier may begin with and go on with. -/
def hasLetterFlag : UInt8 → Bool := hasFlag letterFlag

/-- A byte that a number may begin with and go on with. -/
def hasDigitFlag : UInt8 → Bool := hasFlag digitFlag

/-- A byte that is passed over before a token. -/
def hasBlankFlag : UInt8 → Bool := hasFlag (blankFlag ||| newlineFlag)

/-- The table holds the flag of each byte at the place of that byte. -/
theorem getElem_flagTable (b : UInt8) : flagTable[b.toFin] = flagOf b := by
  rw [flagTable, Fin.getElem_fin, Vector.getElem_mk, List.getElem_toArray, List.getElem_map,
    List.getElem_range]
  exact congrArg flagOf UInt8.ofNat_toNat

/-! ## Delimiters -/

/-- A byte that ends a stretch of ordinary string content. -/
def isDelimiter (b : UInt8) : Bool :=
  b == quote || b == backslash

end FrontEnd.Byte
