import FrontEnd.Token.Basic

/-!
# Spellings

The token grammar, stated on bytes and apart from the scanner: how a token is written
(`Token.spelling`), which tokens can be written (`Token.WellFormed`), what may stand between two of
them (`Gap`), and which bytes a token would take in if they followed it (`Token.extendedBy`). Its
classes of bytes are ranges, and the scanner's table of flags agrees with them
(`Byte.hasLetterFlag_eq`, `Byte.hasDigitFlag_eq`, `Byte.hasBlankFlag_eq`).

A string literal is a quote, its content and a quote. Its content is a sequence of bytes that are
no delimiter and of escapes, which are a backslash and any byte (`Content`). What follows an opening
quote either begins with the content of a literal and its closing quote, or never closes
(`unclosed_or_closed`).
-/

namespace FrontEnd

namespace Byte

/-- A letter of ASCII. -/
def isLetter (b : UInt8) : Bool :=
  (0x41 ≤ b && b ≤ 0x5a) || (0x61 ≤ b && b ≤ 0x7a)

/-- A decimal digit of ASCII. -/
def isDigit (b : UInt8) : Bool :=
  0x30 ≤ b && b ≤ 0x39

/-- A space, a tab or a line feed: what may stand between tokens. -/
def isBlank (b : UInt8) : Bool :=
  b == 0x20 || b == 0x09 || b == newline

end Byte

/-- What may stand between two tokens: spaces, tabs and line feeds. -/
def Gap (bs : List UInt8) : Prop := ∀ b ∈ bs, Byte.isBlank b = true

instance (bs : List UInt8) : Decidable (Gap bs) :=
  List.decidableBAll _ bs

/-- The content of a string literal. -/
inductive Content : List UInt8 → Prop where
  | nil : Content []
  /-- A byte that is neither a quote nor a backslash. -/
  | plain {b : UInt8} {bs : List UInt8} (hb : Byte.isDelimiter b = false) (h : Content bs) :
    Content (b :: bs)
  /-- A backslash and any byte. -/
  | escape (b : UInt8) {bs : List UInt8} (h : Content bs) : Content (Byte.backslash :: b :: bs)

/-- Bytes in which a literal that has been opened does not close. -/
inductive Unclosed : List UInt8 → Prop where
  | nil : Unclosed []
  /-- An escape without its second byte. -/
  | lone : Unclosed [Byte.backslash]
  | plain {b : UInt8} {bs : List UInt8} (hb : Byte.isDelimiter b = false) (h : Unclosed bs) :
    Unclosed (b :: bs)
  | escape (b : UInt8) {bs : List UInt8} (h : Unclosed bs) : Unclosed (Byte.backslash :: b :: bs)

namespace Byte

/-- A byte that starts no token and is no blank. -/
def isStray (b : UInt8) : Bool :=
  !(isBlank b || isLetter b || isDigit b || b == quote || [0x28, 0x29, 0x3b, 0x2c].contains b)

end Byte

namespace Token

/-- The bytes that a token is written with. -/
def spelling : Token → List UInt8
  | eof => []
  | ident lexeme | number lexeme => lexeme
  | openParen => [0x28]
  | closeParen => [0x29]
  | semi => [0x3b]
  | comma => [0x2c]
  | string lexeme => Byte.quote :: (lexeme ++ [Byte.quote])
  | unknown _ byte => [byte]

/-- A token that can be written. The end of the source cannot. -/
def WellFormed : Token → Prop
  | eof => False
  | ident lexeme => lexeme ≠ [] ∧ ∀ b ∈ lexeme, Byte.isLetter b = true
  | number lexeme => lexeme ≠ [] ∧ ∀ b ∈ lexeme, Byte.isDigit b = true
  | openParen | closeParen | semi | comma => True
  | string lexeme => Content lexeme
  | unknown _ byte => Byte.isStray byte = true

/-- The byte would be part of the token if it followed it. -/
def extendedBy : Token → UInt8 → Bool
  | ident _, b => Byte.isLetter b
  | number _, b => Byte.isDigit b
  | _, _ => false

/-- The token ends where `following` begins. -/
def EndsBefore (t : Token) (following : List UInt8) : Prop :=
  ∀ b ∈ following.head?, t.extendedBy b = false

/-- The token, told the position after it, which a byte that starts no token carries. -/
def placed (p : Position) : Token → Token
  | unknown _ byte => unknown p byte
  | t => t

@[simp] theorem spelling_placed (p : Position) (t : Token) : (t.placed p).spelling = t.spelling := by
  cases t <;> rfl

@[simp] theorem placed_placed (p q : Position) (t : Token) :
    (t.placed p).placed q = t.placed q := by
  cases t <;> rfl

@[simp] theorem extendedBy_placed (p : Position) (t : Token) (b : UInt8) :
    (t.placed p).extendedBy b = t.extendedBy b := by
  cases t <;> rfl

theorem WellFormed.placed {t : Token} (h : t.WellFormed) (p : Position) :
    (t.placed p).WellFormed := by
  cases t <;> exact h

theorem WellFormed.isEof_placed {t : Token} (h : t.WellFormed) (p : Position) :
    (t.placed p).isEof = false := by
  cases t with
  | eof => exact h.elim
  | _ => rfl

theorem WellFormed.spelling_ne_nil {t : Token} (h : t.WellFormed) : t.spelling ≠ [] := by
  cases t with
  | eof => exact h.elim
  | ident => exact h.1
  | number => exact h.1
  | _ => exact List.cons_ne_nil _ _

end Token

/-! ## Classes of bytes -/

namespace Byte

/-- A property of all bytes, from their numbers. -/
theorem forall_of_forall_lt {P : UInt8 → Prop} (h : ∀ n < 256, P (UInt8.ofNat n)) (b : UInt8) :
    P b := by
  simpa using h b.toNat b.toNat_lt

/-- The table tells a class where the flags of the bytes do. -/
theorem hasFlag_eq {flags : UInt8} {p : UInt8 → Bool}
    (h : ∀ n < 256, (flagOf (UInt8.ofNat n) &&& flags != 0) = p (UInt8.ofNat n)) :
    hasFlag flags = p := by
  funext b
  rw [hasFlag, getElem_flagTable]
  exact forall_of_forall_lt (P := fun b => (flagOf b &&& flags != 0) = p b) h b

theorem hasLetterFlag_eq : hasLetterFlag = isLetter := hasFlag_eq (by decide +kernel)

theorem hasDigitFlag_eq : hasDigitFlag = isDigit := hasFlag_eq (by decide +kernel)

theorem hasBlankFlag_eq : hasBlankFlag = isBlank := hasFlag_eq (by decide +kernel)

/-- A letter begins no other token, and no gap. -/
theorem isLetter_cases : ∀ b, isLetter b = true →
    isBlank b = false ∧ b ≠ quote ∧ Token.ofPunctuation? b = none :=
  forall_of_forall_lt (by decide +kernel)

theorem isDigit_cases : ∀ b, isDigit b = true →
    isBlank b = false ∧ isLetter b = false ∧ b ≠ quote ∧ Token.ofPunctuation? b = none :=
  forall_of_forall_lt (by decide +kernel)

theorem isStray_cases : ∀ b, isStray b = true →
    isBlank b = false ∧ isLetter b = false ∧ isDigit b = false ∧ b ≠ quote ∧
      Token.ofPunctuation? b = none :=
  forall_of_forall_lt (by decide +kernel)

end Byte

/-! ## String literals -/

/-- A literal closes, or it does not. -/
theorem unclosed_or_closed :
    ∀ bs : List UInt8, Unclosed bs ∨ ∃ body rest, Content body ∧ bs = body ++ Byte.quote :: rest
  | [] => .inl .nil
  | b :: bs => by
    by_cases hq : b = Byte.quote
    · exact .inr ⟨[], bs, .nil, by rw [hq, List.nil_append]⟩
    by_cases hs : b = Byte.backslash
    · subst hs
      match bs with
      | [] => exact .inl .lone
      | e :: bs =>
        rcases unclosed_or_closed bs with h | ⟨body, rest, hbody, rfl⟩
        · exact .inl (.escape e h)
        · exact .inr ⟨_, rest, .escape e hbody, rfl⟩
    · have hb : Byte.isDelimiter b = false := by simp [Byte.isDelimiter, hq, hs]
      rcases unclosed_or_closed bs with h | ⟨body, rest, hbody, rfl⟩
      · exact .inl (.plain hb h)
      · exact .inr ⟨_, rest, .plain hb hbody, rfl⟩

end FrontEnd
