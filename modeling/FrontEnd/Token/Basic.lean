import FrontEnd.Position
import FrontEnd.Byte.Escape
import FrontEnd.Byte.Utf8

/-!
# Tokens

The tokens of the source language, and their printed text. Identifiers, numbers and string literals
carry the bytes they were read from; a byte that starts no token carries the position just after it.
-/

namespace FrontEnd

/-- The kind of a token. -/
inductive Token.Kind where
  | eof
  | ident
  | number
  | openParen
  | closeParen
  | semi
  | comma
  | string
  | unknown
  deriving DecidableEq, Repr

namespace Token.Kind

/-- Every kind, in order. -/
def all : List Kind :=
  [eof, ident, number, openParen, closeParen, semi, comma, string, unknown]

/-- The place of a kind in `all`. -/
def code : Kind → Nat
  | eof => 0
  | ident => 1
  | number => 2
  | openParen => 3
  | closeParen => 4
  | semi => 5
  | comma => 6
  | string => 7
  | unknown => 8

/-- The name of a kind. -/
def name : Kind → String
  | eof => "Eof"
  | ident => "Ident"
  | number => "Number"
  | openParen => "OpenParen"
  | closeParen => "CloseParen"
  | semi => "Semi"
  | comma => "Comma"
  | string => "String"
  | unknown => "Unknown"

/-- The kind of a name. -/
def ofName? (name : String) : Option Kind := all.find? (·.name == name)

/-- Kinds are ordered as in `all`. -/
instance : Ord Kind where
  compare a b := compare a.code b.code

end Token.Kind

/-- A token. -/
inductive Token where
  /-- The end of the source. -/
  | eof
  /-- A run of letters. -/
  | ident (lexeme : List UInt8)
  /-- A run of digits. -/
  | number (lexeme : List UInt8)
  | openParen
  | closeParen
  | semi
  | comma
  /-- A string literal, without its quotes and with its escapes as written. -/
  | string (lexeme : List UInt8)
  /-- A byte that starts no token, and the position after it. -/
  | unknown (position : Position) (byte : UInt8)
  deriving DecidableEq, Repr

namespace Token

/-- The kind of a token. -/
def kind : Token → Kind
  | eof => .eof
  | ident _ => .ident
  | number _ => .number
  | openParen => .openParen
  | closeParen => .closeParen
  | semi => .semi
  | comma => .comma
  | string _ => .string
  | unknown .. => .unknown

/-- The bytes that a token carries. -/
def lexeme? : Token → Option (List UInt8)
  | ident lexeme | number lexeme | string lexeme => some lexeme
  | _ => none

/-- The end of the source. -/
def isEof (t : Token) : Bool := t.kind = .eof

/-- A byte that starts no token. -/
def isUnknown (t : Token) : Bool := t.kind = .unknown

/-- The token that one byte is on its own. -/
def ofPunctuation? (b : UInt8) : Option Token :=
  if b = 0x28 then some openParen
  else if b = 0x29 then some closeParen
  else if b = 0x3b then some semi
  else if b = 0x2c then some comma
  else none

/-- The printed text of a token. -/
def text : Token → String
  | eof => "(eof)"
  | ident lexeme => "Ident(" ++ Byte.Utf8.text lexeme ++ ")"
  | number lexeme => "Number(" ++ Byte.Utf8.text lexeme ++ ")"
  | openParen => "OpenParen"
  | closeParen => "CloseParen"
  | semi => "Semi"
  | comma => "Comma"
  | string lexeme => "String(\"" ++ Byte.Utf8.text lexeme ++ "\")"
  | unknown position byte => "(unknown:" ++ position.text ++ ": '" ++ Byte.escape byte ++ "')"

end Token

end FrontEnd
