/-!
# Escaped bytes

One byte as printable ASCII: a tab, a line break, a quote or a backslash by its usual letter after a
backslash, other printable bytes as themselves, and the rest as `\x` and two digits.
-/

namespace FrontEnd.Byte

/-- The lower-case hexadecimal digit of a number below 16. -/
def hexDigit (n : Nat) : Char := (n % 16).digitChar

/-- The two hexadecimal digits of a byte. -/
def hexDigits (b : UInt8) : List Char := [hexDigit (b.toNat / 16), hexDigit b.toNat]

/-- The characters that stand for a byte. -/
def escapeChars (b : UInt8) : List Char :=
  if b = 0x09 then ['\\', 't']
  else if b = 0x0d then ['\\', 'r']
  else if b = 0x0a then ['\\', 'n']
  else if b = 0x27 then ['\\', '\'']
  else if b = 0x22 then ['\\', '"']
  else if b = 0x5c then ['\\', '\\']
  else if 0x20 ≤ b ∧ b ≤ 0x7e then [Char.ofNat b.toNat]
  else '\\' :: 'x' :: hexDigits b

/-- The text that stands for a byte. -/
def escape (b : UInt8) : String := String.ofList (escapeChars b)

end FrontEnd.Byte
