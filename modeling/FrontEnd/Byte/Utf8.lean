/-!
# Reading bytes as UTF-8

The text of any bytes: well-formed UTF-8 is read as it is, and every maximal part that no
well-formed sequence continues becomes one replacement character. The reader goes byte by byte, with
the sequence begun so far as its state.

* `Utf8.step`: what one byte adds to the text, and the state after it;
* `Utf8.text`: the text of a list of bytes.
-/

namespace FrontEnd.Byte.Utf8

/-- The replacement character. -/
def replacement : Char := Char.ofNat 0xfffd

/-- Where the reader stands between two bytes. -/
inductive State where
  /-- Between characters. -/
  | start
  /-- Inside a sequence that owes `owed + 1` more bytes, the next of them from `low` to `high`; its
  bytes so far carry the bits `value`. -/
  | inside (owed : Nat) (low high : UInt8) (value : Nat)
  deriving DecidableEq, Repr

/-- What a byte adds at the start of a character: a character of ASCII, nothing where it begins a
longer sequence, or a replacement where it begins none. The narrower ranges after `E0`, `ED`, `F0`
and `F4` leave out overlong forms, surrogates and values above `10FFFF`. -/
def begin (b : UInt8) : Option Char × State :=
  let low := b.toNat
  if b < 0x80 then (some (Char.ofNat low), .start)
  else if b < 0xc2 then (some replacement, .start)
  else if b < 0xe0 then (none, .inside 0 0x80 0xbf (low % 32))
  else if b = 0xe0 then (none, .inside 1 0xa0 0xbf 0)
  else if b = 0xed then (none, .inside 1 0x80 0x9f 13)
  else if b < 0xf0 then (none, .inside 1 0x80 0xbf (low % 16))
  else if b = 0xf0 then (none, .inside 2 0x90 0xbf 0)
  else if b < 0xf4 then (none, .inside 2 0x80 0xbf (low % 8))
  else if b = 0xf4 then (none, .inside 2 0x80 0x8f 4)
  else (some replacement, .start)

/-- The characters that one byte adds to a text kept latest first, and the state after it. A byte
that does not continue the sequence begun ends it with a replacement and begins anew. -/
def step : List Char × State → UInt8 → List Char × State
  | (text, .start), b =>
    let (c, s) := begin b
    (c.toList ++ text, s)
  | (text, .inside owed low high value), b =>
    if low ≤ b ∧ b ≤ high then
      let value := 64 * value + b.toNat % 64
      match owed with
      | 0 => (Char.ofNat value :: text, .start)
      | owed + 1 => (text, .inside owed 0x80 0xbf value)
    else
      let (c, s) := begin b
      (c.toList ++ replacement :: text, s)

/-- The characters of a list of bytes. A sequence cut off by the end is one replacement. -/
def chars (bytes : List UInt8) : List Char :=
  match bytes.foldl step ([], .start) with
  | (text, .start) => text.reverse
  | (text, .inside ..) => (replacement :: text).reverse

/-- The text of a list of bytes. -/
def text (bytes : List UInt8) : String := String.ofList (chars bytes)

end FrontEnd.Byte.Utf8
