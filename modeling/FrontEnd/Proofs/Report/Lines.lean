import Mathlib.Algebra.GroupWithZero.Nat
import FrontEnd.Proofs.Report.Listing

/-!
# Lines of a listing

How many lines a listing takes on the first stream. The text of a token holds the line feeds of its
lexeme (`Token.count_text`), and only the lexeme of a string literal may hold any. So one more line
is printed than there are tokens for every line feed in a literal (`Command.lines_printed`), and
there is one line for each token exactly where no literal spans lines.
-/

namespace FrontEnd

/-! ## Texts without line feeds -/

namespace Byte

theorem newline_not_mem_escapeChars : ∀ b, '\n' ∉ escapeChars b :=
  forall_of_forall_lt (by decide +kernel)

theorem isLetter_newline : isLetter newline = false := rfl

theorem isDigit_newline : isDigit newline = false := rfl

/-- The text of a lexeme of one class has no line feed, if the class has none. -/
theorem Utf8.count_chars_of_class {p : UInt8 → Bool} (hp : p newline = false) {lexeme : List UInt8}
    (h : ∀ b ∈ lexeme, p b = true) : (chars lexeme).count '\n' = 0 := by
  rw [count_chars_newline, List.count_eq_zero]
  intro hmem
  rw [h _ hmem] at hp
  cases hp

end Byte

theorem Position.newline_not_mem_text (p : Position) : '\n' ∉ p.text.toList := by
  rw [toList_text, List.mem_append, List.mem_cons]
  rintro (h | h | h)
  · exact not_mem_toDigits rfl _ h
  · exact absurd h (by decide)
  · exact not_mem_toDigits rfl _ h

/-! ## Tokens -/

namespace Token

/-- The line feeds within a token: those in the content of a string literal. -/
def lineFeeds : Token → Nat
  | string lexeme => lexeme.count Byte.newline
  | _ => 0

/-- A token is printed with the line feeds within it. -/
theorem count_text {t : Token} (h : t.WellFormed) : t.text.toList.count '\n' = t.lineFeeds := by
  cases t with
  | eof | openParen | closeParen | semi | comma => rfl
  | ident lexeme =>
    rw [toList_text_ident, List.count_append, List.count_append,
      Byte.Utf8.count_chars_of_class Byte.isLetter_newline h.2]
    rfl
  | number lexeme =>
    rw [toList_text_number, List.count_append, List.count_append,
      Byte.Utf8.count_chars_of_class Byte.isDigit_newline h.2]
    rfl
  | string lexeme =>
    rw [toList_text_string, List.count_append, List.count_append, Byte.Utf8.count_chars_newline]
    simp [lineFeeds]
  | unknown position byte =>
    have hplace := List.count_eq_zero.2 position.newline_not_mem_text
    have hbyte := List.count_eq_zero.2 (Byte.newline_not_mem_escapeChars byte)
    rw [toList_text_unknown]
    simp [List.count_append, hplace, hbyte, lineFeeds]

theorem lineFeeds_eq_zero_iff {t : Token} :
    t.lineFeeds = 0 ↔ ∀ lexeme, t = string lexeme → Byte.newline ∉ lexeme := by
  cases t <;> simp [lineFeeds, List.count_eq_zero]

end Token

/-! ## What is printed -/

namespace Command

/-- The bytes that are written for a text. -/
def written (text : String) : List UInt8 := text.toUTF8.data.toList

theorem written_eq (text : String) : written text = text.toList.flatMap String.utf8EncodeChar := by
  conv_lhs => rw [← String.ofList_toList (s := text)]
  rw [written, String.toUTF8_eq_toByteArray, String.toByteArray_ofList, List.utf8Encode,
    List.data_toByteArray]

/-- Every line is written with one line feed behind it, and those within it. -/
theorem count_written_unlines (lines : List String) :
    (written (unlines lines)).count Byte.newline =
      lines.length + (lines.map fun line => line.toList.count '\n').sum := by
  rw [written_eq, Byte.Utf8.count_encode_newline, toList_unlines]
  induction lines with
  | nil => rfl
  | cons line lines ih =>
    rw [List.flatMap_cons, List.count_append, ih, List.count_append, List.count_singleton_self,
      List.length_cons, List.map_cons, List.sum_cons]
    omega

variable {read : String → Except ReadError (List UInt8)} {args : List String} {src : List UInt8}

/-- For every token one line feed is printed, and for every line feed in a string literal one more.
So there is one for each token, and none within the text of one, exactly where no literal spans
lines. -/
theorem lines_printed (hargs : Lists read args src) (h : (Tokenizer.ofList src).run.stop = none) :
    let tokens := (Tokenizer.ofList src).run.tokens
    let printed := written (run ("lex" :: args) read).stdout
    ∃ r, Report.render {} src = .ok r ∧ r.tokens = tokens.length ∧ r.lines = tokens.map (·.text) ∧
      (∀ t ∈ tokens, t.text.toList.count '\n' = t.lineFeeds) ∧
      printed.count Byte.newline = r.tokens + (tokens.map (·.lineFeeds)).sum ∧
      (printed.count Byte.newline = r.tokens ↔
        ∀ lexeme, .string lexeme ∈ tokens → Byte.newline ∉ lexeme) ∧
      ((∀ line ∈ r.lines, '\n' ∉ line.toList) ↔
        ∀ lexeme, .string lexeme ∈ tokens → Byte.newline ∉ lexeme) := by
  intro tokens printed
  have hrender : Report.render {} src = .ok (.ofLexed {} (Tokenizer.ofList src).run.lexed false) :=
    Report.render_of_shows (.complete h (absurd · Bool.false_ne_true))
  have htext : ∀ t ∈ tokens, t.text.toList.count '\n' = t.lineFeeds := fun t ht =>
    Token.count_text (Tokenizer.wellFormed_of_mem_run t ht)
  have hlines : (Report.ofLexed {} (Tokenizer.ofList src).run.lexed false).lines =
      tokens.map (·.text) := by
    simp only [tokens, Run.tokens, List.map_map]
    rfl
  have hcount : printed.count Byte.newline = tokens.length + (tokens.map (·.lineFeeds)).sum := by
    rw [show printed = written _ from rfl, stdout_of_lists hargs h, count_written_unlines,
      List.length_map, List.map_map]
    exact congrArg _ (congrArg _ (List.map_congr_left htext))
  have hlength : (Report.ofLexed {} (Tokenizer.ofList src).run.lexed false).tokens =
      tokens.length := (List.length_map _).symm
  have hnone : (∀ t ∈ tokens, t.lineFeeds = 0) ↔
      ∀ lexeme, .string lexeme ∈ tokens → Byte.newline ∉ lexeme := by
    simp only [Token.lineFeeds_eq_zero_iff]
    exact ⟨fun h lexeme ht => h _ ht lexeme rfl, fun h t ht lexeme heq => h lexeme (heq ▸ ht)⟩
  refine ⟨_, hrender, hlength, hlines, htext, by rw [hcount, hlength], ?_, ?_⟩
  · rw [hcount, hlength, Nat.add_eq_left, List.sum_eq_zero_iff_forall_eq_nat, List.forall_mem_map,
      hnone]
  · rw [hlines, List.forall_mem_map, ← hnone]
    refine forall₂_congr fun t ht => ?_
    rw [← htext t ht, List.count_eq_zero]

/-- A literal over two line feeds, one of them behind a backslash, and one on its line. -/
theorem lines_printed_literals :
    let src : List UInt8 :=
      [0x66, 0x20, 0x22, 0x61, 0x0a, 0x5c, 0x0a, 0x22, 0x0a, 0x22, 0x5c, 0x6e, 0x22, 0x3b]
    let read : String → Except ReadError (List UInt8) := fun _ => .ok src
    let tokens := (Tokenizer.ofList src).run.tokens
    let printed := written (run ["lex", "a"] read).stdout
    Lists read ["a"] src ∧ (Tokenizer.ofList src).run.stop = none ∧
      tokens = [.ident [0x66], .string [0x61, 0x0a, 0x5c, 0x0a], .string [0x5c, 0x6e], .semi] ∧
      printed.count Byte.newline = 4 + (tokens.map (·.lineFeeds)).sum ∧
      (tokens.map (·.lineFeeds)).sum = 2 := by
  intro src read tokens printed
  have hargs : Lists read ["a"] src := ⟨by decide, "a", by decide, rfl⟩
  have hstop : (Tokenizer.ofList src).run.stop = none := by decide +kernel
  have htokens : tokens =
      [.ident [0x66], .string [0x61, 0x0a, 0x5c, 0x0a], .string [0x5c, 0x6e], .semi] := by
    decide +kernel
  obtain ⟨r, -, hlength, -, -, hcount, -⟩ := lines_printed hargs hstop
  have hfour : r.tokens = 4 := hlength.trans (congrArg List.length htokens)
  exact ⟨hargs, hstop, htokens, by rw [← hfour]; exact hcount, by rw [htokens]; rfl⟩

/-- One token, and two lines: the line feed in the literal is printed as it is. -/
theorem literal_spans_lines :
    let src : List UInt8 := [0x22, 0x0a, 0x22]
    let read : String → Except ReadError (List UInt8) := fun _ => .ok src
    Lists read ["a"] src ∧ (Tokenizer.ofList src).run.stop = none ∧
      ∃ r, Report.render {} src = .ok r ∧ r.tokens = 1 ∧
        (written (run ["lex", "a"] read).stdout).count Byte.newline = 2 ∧
        ¬(written (run ["lex", "a"] read).stdout).count Byte.newline = r.tokens ∧
        ¬∀ line ∈ r.lines, '\n' ∉ line.toList := by
  intro src read
  have hrender : Report.render {} src = .ok ⟨["String(\"\n\")"], 1, 0, false⟩ := by decide +kernel
  have htwo : (written (run ["lex", "a"] read).stdout).count Byte.newline = 2 := by
    rw [show (run ["lex", "a"] read).stdout = "String(\"\n\")\n" by decide +kernel]
    decide +kernel
  exact ⟨⟨by decide, "a", by decide, rfl⟩, by decide +kernel, _, hrender, rfl, htwo,
    by rw [htwo]; decide, by decide⟩

end Command

end FrontEnd
