import FrontEnd.Token.Basic
import FrontEnd.Proofs.Byte.Utf8

/-!
# Printed tokens

A token is read back from its printed text, whatever follows it (`text_append_inj`): no text of a
token begins another one. The fixed beginnings of the nine texts tell the kinds apart
(`Token.kind_eq_of_text_append`), and each part between them ends where it must:

* a lexeme of letters or digits at the first closing parenthesis, a number of a position at the
  first colon (`append_cons_inj`);
* an escaped byte after one, two or four characters, which its first two tell
  (`Byte.escapeChars_append_inj`);
* the text of a string literal at the first quote that no backslash stands before
  (`QuotedText.append_quote_inj`), although it is printed as it is and may hold anything else.

What cannot be read back is which bytes were replaced in a string literal that is no UTF-8
(`Token.ReadsAs`).
-/

namespace FrontEnd

/-! ## Where a part of a text ends -/

/-- A list is known from what it makes up to the first of a separator that it does not hold. -/
theorem append_cons_inj {α : Type} {a : α} {xs xs' ys ys' : List α} (h : a ∉ xs) (h' : a ∉ xs')
    (heq : xs ++ a :: ys = xs' ++ a :: ys') : xs = xs' ∧ ys = ys' := by
  induction xs generalizing xs' with
  | nil =>
    cases xs' with
    | nil => exact ⟨rfl, List.tail_eq_of_cons_eq heq⟩
    | cons x' xs' => exact absurd (List.head_eq_of_cons_eq heq) (List.ne_of_not_mem_cons h')
  | cons x xs ih =>
    cases xs' with
    | nil => exact absurd (List.head_eq_of_cons_eq heq).symm (List.ne_of_not_mem_cons h)
    | cons x' xs' =>
      obtain ⟨rfl, htail⟩ := List.cons_eq_cons.1 heq
      obtain ⟨rfl, hys⟩ :=
        ih (List.not_mem_of_not_mem_cons h) (List.not_mem_of_not_mem_cons h') htail
      exact ⟨rfl, hys⟩

/-- The text of a string literal is known from what it makes up to its closing quote. -/
theorem QuotedText.append_quote_inj {cs cs' r r' : List Char} (h : QuotedText cs)
    (h' : QuotedText cs') (heq : cs ++ '"' :: r = cs' ++ '"' :: r') : cs = cs' ∧ r = r' := by
  induction h generalizing cs' with
  | nil =>
    cases h' with
    | nil => exact ⟨rfl, List.tail_eq_of_cons_eq heq⟩
    | plain hquote _ _ => exact absurd (List.head_eq_of_cons_eq heq).symm hquote
    | escape => exact absurd (List.head_eq_of_cons_eq heq) (by decide)
  | plain hquote hslash _ ih =>
    cases h' with
    | nil => exact absurd (List.head_eq_of_cons_eq heq) hquote
    | plain _ _ h' =>
      obtain ⟨rfl, htail⟩ := List.cons_eq_cons.1 heq
      obtain ⟨rfl, hr⟩ := ih h' htail
      exact ⟨rfl, hr⟩
    | escape => exact absurd (List.head_eq_of_cons_eq heq) hslash
  | escape c _ ih =>
    cases h' with
    | nil => exact absurd (List.head_eq_of_cons_eq heq) (by decide)
    | plain _ hslash _ => exact absurd (List.head_eq_of_cons_eq heq).symm hslash
    | escape c' h' =>
      obtain ⟨-, heq⟩ := List.cons_eq_cons.1 heq
      obtain ⟨rfl, htail⟩ := List.cons_eq_cons.1 heq
      obtain ⟨rfl, hr⟩ := ih h' htail
      exact ⟨rfl, hr⟩

/-! ## Bytes of one class -/

namespace Byte

theorem ascii_of_isLetter : ∀ b, isLetter b = true → b < 0x80 ∧ b ≠ 0x29 :=
  forall_of_forall_lt (by decide +kernel)

theorem ascii_of_isDigit : ∀ b, isDigit b = true → b < 0x80 ∧ b ≠ 0x29 :=
  forall_of_forall_lt (by decide +kernel)

theorem toChar_inj {b b' : UInt8} (h : Char.ofNat b.toNat = Char.ofNat b'.toNat) : b = b' := by
  have hback : ∀ b : UInt8, UInt8.ofNat (Char.ofNat b.toNat).toNat = b :=
    forall_of_forall_lt (by decide +kernel)
  rw [← hback b, h, hback b']

/-! ## Escaped bytes -/

/-- The number of a lower-case hexadecimal digit. -/
def hexValue (c : Char) : Nat := if c.isDigit then c.toNat - '0'.toNat else c.toNat - 'a'.toNat + 10

/-- The byte that escaped text stands for. -/
def unescape : List Char → UInt8
  | [c] => .ofNat c.toNat
  | [_, c] =>
    if c = 't' then 0x09 else if c = 'r' then 0x0d else if c = 'n' then 0x0a else .ofNat c.toNat
  | [_, _, high, low] => .ofNat (16 * hexValue high + hexValue low)
  | _ => 0

theorem unescape_escapeChars : ∀ b, unescape (escapeChars b) = b :=
  forall_of_forall_lt (by decide +kernel)

/-- The number of characters that the first two of an escaped byte announce. -/
def escapeLength : List Char → Nat
  | '\\' :: 'x' :: _ => 4
  | '\\' :: _ => 2
  | _ => 1

theorem ofNat_ne_backslash : ∀ b, b ≠ backslash → Char.ofNat b.toNat ≠ '\\' :=
  forall_of_forall_lt (by decide +kernel)

/-- The three shapes of an escaped byte. -/
theorem escapeChars_cases (b : UInt8) :
    (∃ c, c ≠ '\\' ∧ escapeChars b = [c]) ∨ (∃ c, c ≠ 'x' ∧ escapeChars b = ['\\', c]) ∨
      escapeChars b = '\\' :: 'x' :: hexDigits b := by
  unfold escapeChars
  repeat' split
  all_goals first
    | exact .inr (.inl ⟨_, by decide, rfl⟩)
    | exact .inr (.inr rfl)
    | rename_i hslash _
      exact .inl ⟨_, ofNat_ne_backslash b hslash, rfl⟩

theorem length_escapeChars (b : UInt8) (r : List Char) :
    (escapeChars b).length = escapeLength (escapeChars b ++ r) := by
  rcases escapeChars_cases b with ⟨c, hc, h⟩ | ⟨c, hc, h⟩ | h
  · rw [h]
    simp [escapeLength, hc]
  · rw [h]
    simp [escapeLength, hc]
  · rw [h]
    rfl

/-- A byte is known from its escaped text, whatever follows it. -/
theorem escapeChars_append_inj {b b' : UInt8} {r r' : List Char}
    (heq : escapeChars b ++ r = escapeChars b' ++ r') : b = b' ∧ r = r' := by
  have hlength : (escapeChars b).length = (escapeChars b').length := by
    rw [length_escapeChars b r, heq, ← length_escapeChars b' r']
  obtain ⟨h, hr⟩ := List.append_inj heq hlength
  exact ⟨by rw [← unescape_escapeChars b, h, unescape_escapeChars b'], hr⟩

end Byte

/-! ## Positions -/

/-- The digits of a word. -/
theorem toList_toString (n : UInt32) : (toString n).toList = Nat.toDigits 10 n.toNat :=
  Nat.toList_repr

theorem not_mem_toDigits {ch : Char} (hch : ch.isDigit = false) (n : Nat) :
    ch ∉ Nat.toDigits 10 n := fun h => by
  rw [Nat.isDigit_of_mem_toDigits (by decide) (by decide) h] at hch
  cases hch

theorem toDigits_inj {n n' : UInt32} (h : Nat.toDigits 10 n.toNat = Nat.toDigits 10 n'.toNat) :
    n = n' := by
  have hvalue := congrArg (Nat.ofDigitChars 10 · 0) h
  simp only [Nat.ofDigitChars_ten_toDigits] at hvalue
  exact UInt32.toNat_inj.1 hvalue

theorem Position.toList_text (p : Position) : p.text.toList =
    Nat.toDigits 10 p.line.toNat ++ ':' :: Nat.toDigits 10 p.col.toNat := by
  rw [← toList_toString, ← toList_toString]
  simp [Position.text, show toString ":" = ":" from rfl]

/-- A position is known from its text, up to the colon that follows it. -/
theorem Position.text_append_inj {p p' : Position} {r r' : List Char}
    (heq : p.text.toList ++ ':' :: r = p'.text.toList ++ ':' :: r') : p = p' ∧ r = r' := by
  rw [toList_text, toList_text, List.append_assoc, List.append_assoc] at heq
  have hcolon (n : Nat) : ':' ∉ Nat.toDigits 10 n := not_mem_toDigits rfl n
  obtain ⟨hline, heq⟩ := append_cons_inj (hcolon _) (hcolon _) heq
  obtain ⟨hcol, hr⟩ := append_cons_inj (hcolon _) (hcolon _) heq
  refine ⟨?_, hr⟩
  cases p
  cases p'
  rw [Position.mk.injEq]
  exact ⟨toDigits_inj hline, toDigits_inj hcol⟩

/-! ## Tokens -/

namespace Token

/-- The characters that the text of a token of a kind begins with, as far as they tell the kind. -/
def Kind.lead : Kind → List Char
  | .eof => ['(', 'e']
  | .ident => ['I']
  | .number => ['N']
  | .openParen => ['O']
  | .closeParen => ['C', 'l']
  | .semi => ['S', 'e']
  | .comma => ['C', 'o']
  | .string => ['S', 't']
  | .unknown => ['(', 'u']

theorem Kind.eq_of_lead_prefix {k k' : Kind} (h : k.lead <+: k'.lead) : k = k' := by
  revert h
  cases k <;> cases k' <;> decide

theorem lead_prefix_text (t : Token) : t.kind.lead <+: t.text.toList := by
  cases t <;> simp [kind, Kind.lead, text]

theorem kind_eq_of_text_append {t t' : Token} {r r' : List Char}
    (heq : t.text.toList ++ r = t'.text.toList ++ r') : t.kind = t'.kind := by
  have h : t.kind.lead <+: t.text.toList ++ r := t.lead_prefix_text.trans (List.prefix_append ..)
  have h' : t'.kind.lead <+: t.text.toList ++ r :=
    heq ▸ t'.lead_prefix_text.trans (List.prefix_append ..)
  rcases List.prefix_or_prefix_of_prefix h h' with hle | hle
  · exact Kind.eq_of_lead_prefix hle
  · exact (Kind.eq_of_lead_prefix hle).symm

/-- Two tokens that a reader of their texts takes for the same: equal ones, and string literals
whose lexemes have one text. Such lexemes are equal where they are well-formed UTF-8. -/
inductive ReadsAs : Token → Token → Prop where
  | same (t : Token) : ReadsAs t t
  | string {lexeme lexeme' : List UInt8}
    (text_eq : Byte.Utf8.text lexeme = Byte.Utf8.text lexeme')
    (eq_of_valid : Byte.Utf8.Valid lexeme → Byte.Utf8.Valid lexeme' → lexeme = lexeme') :
    ReadsAs (.string lexeme) (.string lexeme')

theorem toList_text_ident (l : List UInt8) : (ident l).text.toList =
    ['I', 'd', 'e', 'n', 't', '('] ++ (Byte.Utf8.chars l ++ [')']) := by
  simp [text, Byte.Utf8.text]

theorem toList_text_number (l : List UInt8) : (number l).text.toList =
    ['N', 'u', 'm', 'b', 'e', 'r', '('] ++ (Byte.Utf8.chars l ++ [')']) := by
  simp [text, Byte.Utf8.text]

theorem toList_text_string (l : List UInt8) : (string l).text.toList =
    ['S', 't', 'r', 'i', 'n', 'g', '(', '"'] ++ (Byte.Utf8.chars l ++ ['"', ')']) := by
  simp [text, Byte.Utf8.text]

theorem toList_text_unknown (p : Position) (b : UInt8) : (unknown p b).text.toList =
    ['(', 'u', 'n', 'k', 'n', 'o', 'w', 'n', ':'] ++
      (p.text.toList ++ ':' :: ' ' :: '\'' :: (Byte.escapeChars b ++ ['\'', ')'])) := by
  simp [text, Byte.escape]

/-- The text of a lexeme of one class of ASCII ends at the closing parenthesis. -/
theorem lexeme_append_inj {p : UInt8 → Bool} (hp : ∀ b, p b = true → b < 0x80 ∧ b ≠ 0x29)
    {l l' : List UInt8} (hl : ∀ b ∈ l, p b = true) (hl' : ∀ b ∈ l', p b = true) {r r' : List Char}
    (heq : Byte.Utf8.chars l ++ ')' :: r = Byte.Utf8.chars l' ++ ')' :: r') : l = l' ∧ r = r' := by
  have hmem {l : List UInt8} (hl : ∀ b ∈ l, p b = true) :
      ')' ∉ l.map fun b => Char.ofNat b.toNat := by
    rw [List.mem_map]
    rintro ⟨b, hb, hparen⟩
    have hb' : b = 0x29 := Byte.toChar_inj hparen
    exact (hp b (hl b hb)).2 hb'
  rw [Byte.Utf8.chars_ascii fun b hb => (hp b (hl b hb)).1,
    Byte.Utf8.chars_ascii fun b hb => (hp b (hl' b hb)).1] at heq
  obtain ⟨hchars, hr⟩ := append_cons_inj (hmem hl) (hmem hl') heq
  exact ⟨List.map_inj_right (fun _ _ => Byte.toChar_inj) |>.1 hchars, hr⟩

/-- A token is known from its text, whatever follows it, up to what is replaced in it. -/
theorem text_append_inj {t t' : Token} (h : t.WellFormed) (h' : t'.WellFormed) {r r' : List Char}
    (heq : t.text.toList ++ r = t'.text.toList ++ r') : t.ReadsAs t' ∧ r = r' := by
  have hkind := kind_eq_of_text_append heq
  cases t with
  | eof => exact h.elim
  | ident l =>
    obtain ⟨l', rfl⟩ : ∃ l', t' = .ident l' := by cases t' <;> cases hkind; exact ⟨_, rfl⟩
    simp only [toList_text_ident, List.append_assoc] at heq
    obtain ⟨rfl, hr⟩ := lexeme_append_inj Byte.ascii_of_isLetter h.2 h'.2
      (List.append_cancel_left heq)
    exact ⟨.same _, hr⟩
  | number l =>
    obtain ⟨l', rfl⟩ : ∃ l', t' = .number l' := by cases t' <;> cases hkind; exact ⟨_, rfl⟩
    simp only [toList_text_number, List.append_assoc] at heq
    obtain ⟨rfl, hr⟩ := lexeme_append_inj Byte.ascii_of_isDigit h.2 h'.2
      (List.append_cancel_left heq)
    exact ⟨.same _, hr⟩
  | openParen | closeParen | semi | comma =>
    cases t' <;> cases hkind
    exact ⟨.same _, List.append_cancel_left heq⟩
  | string l =>
    -- A literal is printed as it is, so its end is found by the grammar of its content alone.
    obtain ⟨l', rfl⟩ : ∃ l', t' = .string l' := by cases t' <;> cases hkind; exact ⟨_, rfl⟩
    simp only [toList_text_string, List.append_assoc] at heq
    obtain ⟨hchars, hr⟩ := (Byte.Utf8.quotedText_chars h).append_quote_inj
      (Byte.Utf8.quotedText_chars h') (List.append_cancel_left heq)
    refine ⟨.string (congrArg String.ofList hchars) fun hv hv' => ?_, List.tail_eq_of_cons_eq hr⟩
    exact Byte.Utf8.eq_of_chars_eq hv hv' hchars
  | unknown p b =>
    obtain ⟨p', b', rfl⟩ : ∃ p' b', t' = .unknown p' b' := by
      cases t' <;> cases hkind; exact ⟨_, _, rfl⟩
    simp only [toList_text_unknown, List.append_assoc] at heq
    have hplace := List.append_cancel_left heq
    simp only [List.cons_append, List.append_assoc] at hplace
    obtain ⟨rfl, hbyte⟩ := Position.text_append_inj hplace
    simp only [List.cons.injEq, true_and] at hbyte
    obtain ⟨rfl, hr⟩ := Byte.escapeChars_append_inj hbyte
    exact ⟨.same _, List.tail_eq_of_cons_eq (List.tail_eq_of_cons_eq hr)⟩

end Token

end FrontEnd
