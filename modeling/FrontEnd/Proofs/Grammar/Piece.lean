import FrontEnd.Proofs.Grammar.Spelling
import FrontEnd.Proofs.Position.Reached
import FrontEnd.Tokenizer.Run

/-!
# Buffers cut into pieces

A piece is a token and the gap before it. Every buffer is a sequence of pieces and a tail, which is
a gap or a literal that never closes (`exists_pieces`), such that each token ends where what follows
it begins (`Piece.Separated`).

`Piece.lexed` is what the pieces stand for: their tokens with the offsets and the positions after
them.
-/

namespace FrontEnd

/-- A token and the gap before it. -/
structure Piece where
  gap : List UInt8
  token : Token
  gap_blank : Gap gap
  wellFormed : token.WellFormed

namespace Piece

/-- The bytes of a piece. -/
def text (p : Piece) : List UInt8 := p.gap ++ p.token.spelling

/-- The bytes of a sequence of pieces. -/
def texts (ps : List Piece) : List UInt8 := ps.flatMap text

/-- Each token ends where the next piece begins, and the last one where `rest` does. -/
def Separated : List Piece → List UInt8 → Prop
  | [], _ => True
  | p :: ps, rest => p.token.EndsBefore (texts ps ++ rest) ∧ Separated ps rest

/-- The tokens of pieces that follow `done`, each with the offset and the position after it. -/
def lexed (done : List UInt8) : List Piece → List Lexed
  | [] => []
  | p :: ps =>
    let read := done ++ p.text
    ⟨p.token.placed (.after read), read.length, .after read⟩ :: lexed read ps

@[simp] theorem texts_nil : texts [] = [] := rfl

@[simp] theorem texts_cons (p : Piece) (ps : List Piece) : texts (p :: ps) = p.text ++ texts ps :=
  rfl

theorem text_length_pos (p : Piece) : 0 < p.text.length := by
  rw [text, List.length_append]
  exact Nat.add_pos_right _ (List.length_pos_iff.2 p.wellFormed.spelling_ne_nil)

end Piece

/-! ## What follows a sequence of pieces -/

/-- What ends a token still ends it where less follows. -/
theorem Token.EndsBefore.of_append {t : Token} {bs cs : List UInt8} (h : t.EndsBefore (bs ++ cs)) :
    t.EndsBefore bs := by
  intro b hb
  rw [Option.mem_def] at hb
  exact h b (by rw [List.head?_append, hb]; rfl)

/-- A byte that starts no other token goes on with none. -/
theorem Token.endsBefore_stray (t : Token) {b : UInt8} (hb : Byte.isStray b = true)
    (bs : List UInt8) : t.EndsBefore (b :: bs) := by
  obtain ⟨-, hletter, hdigit, -, -⟩ := Byte.isStray_cases b hb
  intro x hx
  rw [List.head?_cons, Option.mem_some] at hx
  subst hx
  cases t with
  | ident => exact hletter
  | number => exact hdigit
  | _ => rfl

theorem Piece.Separated.of_append {ps : List Piece} {bs cs : List UInt8}
    (h : Separated ps (bs ++ cs)) : Separated ps bs := by
  induction ps with
  | nil => trivial
  | cons p ps ih =>
    obtain ⟨hend, hsep⟩ := h
    rw [← List.append_assoc] at hend
    exact ⟨hend.of_append, ih hsep⟩

/-- Bytes that no token goes on with may follow a gap. -/
theorem Piece.Separated.append {ps : List Piece} {bs cs : List UInt8} (h : Separated ps bs)
    (hcs : ∀ t : Token, t.EndsBefore cs) : Separated ps (bs ++ cs) := by
  induction ps with
  | nil => trivial
  | cons p ps ih =>
    obtain ⟨hend, hsep⟩ := h
    refine ⟨?_, ih hsep⟩
    intro b hb
    rw [← List.append_assoc, List.head?_append, Option.mem_def, Option.or_eq_some_iff] at hb
    rcases hb with hb | ⟨-, hb⟩
    · exact hend b hb
    · exact hcs _ b hb

/-! ## Cutting off the first piece -/

namespace Byte

/-- A byte that is no blank begins a token. -/
theorem classify : ∀ b, isBlank b = false →
    isLetter b = true ∨ isDigit b = true ∨ b = quote ∨ b = 0x28 ∨ b = 0x29 ∨ b = 0x3b ∨ b = 0x2c ∨
      isStray b = true :=
  forall_of_forall_lt (by decide +kernel)

end Byte

/-- What is left after a class has been taken off does not begin with it. -/
theorem not_of_mem_head?_dropWhile {p : UInt8 → Bool} {bs : List UInt8} :
    ∀ b ∈ (bs.dropWhile p).head?, p b = false := by
  intro b hb
  have := List.head?_dropWhile_not p bs
  rw [Option.mem_def.1 hb] at this
  simpa using this

/-- Bytes that begin with no gap begin with a token, or with a literal that never closes. -/
theorem exists_token {b : UInt8} (hb : Byte.isBlank b = false) (bs : List UInt8) :
    (b = Byte.quote ∧ Unclosed bs) ∨
      ∃ t : Token, ∃ rest, t.WellFormed ∧ t.EndsBefore rest ∧ b :: bs = t.spelling ++ rest := by
  have class_run {p : UInt8 → Bool} (h : p b = true) : ∀ x ∈ b :: bs.takeWhile p, p x = true :=
    List.forall_mem_cons.2 ⟨h, fun x hx => List.all_eq_true.1 List.all_takeWhile x hx⟩
  rcases Byte.classify b hb with h | h | h | h | h | h | h | h
  · exact .inr ⟨.ident (b :: bs.takeWhile Byte.isLetter), bs.dropWhile Byte.isLetter,
      ⟨List.cons_ne_nil _ _, class_run h⟩, not_of_mem_head?_dropWhile,
      by simp [Token.spelling]⟩
  · exact .inr ⟨.number (b :: bs.takeWhile Byte.isDigit), bs.dropWhile Byte.isDigit,
      ⟨List.cons_ne_nil _ _, class_run h⟩, not_of_mem_head?_dropWhile,
      by simp [Token.spelling]⟩
  · rcases unclosed_or_closed bs with hu | ⟨body, rest, hbody, rfl⟩
    · exact .inl ⟨h, hu⟩
    · exact .inr ⟨.string body, rest, hbody, fun _ _ => rfl, by simp [Token.spelling, h]⟩
  · exact .inr ⟨.openParen, bs, trivial, fun _ _ => rfl, by rw [h]; rfl⟩
  · exact .inr ⟨.closeParen, bs, trivial, fun _ _ => rfl, by rw [h]; rfl⟩
  · exact .inr ⟨.semi, bs, trivial, fun _ _ => rfl, by rw [h]; rfl⟩
  · exact .inr ⟨.comma, bs, trivial, fun _ _ => rfl, by rw [h]; rfl⟩
  · exact .inr ⟨.unknown .start b, bs, h, fun _ _ => rfl, rfl⟩

/-- What may follow the last piece of a buffer: a gap, or a gap and a literal that never closes. -/
inductive Tail : List UInt8 → Prop where
  | blank {gap : List UInt8} (hgap : Gap gap) : Tail gap
  | unclosed {gap body : List UInt8} (hgap : Gap gap) (hbody : Unclosed body) :
    Tail (gap ++ Byte.quote :: body)

/-- A buffer begins with a piece, or is a tail. -/
theorem tail_or_piece (bs : List UInt8) :
    Tail bs ∨ ∃ p : Piece, ∃ rest, p.token.EndsBefore rest ∧ bs = p.text ++ rest := by
  have hgap : Gap (bs.takeWhile Byte.isBlank) :=
    fun b hb => List.all_eq_true.1 List.all_takeWhile b hb
  have hsplit : bs.takeWhile Byte.isBlank ++ bs.dropWhile Byte.isBlank = bs :=
    List.takeWhile_append_dropWhile
  cases hrest : bs.dropWhile Byte.isBlank with
  | nil =>
    rw [hrest, List.append_nil] at hsplit
    exact .inl (.blank (hsplit ▸ hgap))
  | cons b rest =>
    have hb : Byte.isBlank b = false := not_of_mem_head?_dropWhile b (by rw [hrest]; rfl)
    rw [hrest] at hsplit
    rcases exists_token hb rest with ⟨rfl, hu⟩ | ⟨t, rest', ht, hend, heq⟩
    · exact .inl (hsplit ▸ .unclosed hgap hu)
    · exact .inr ⟨⟨_, t, hgap, ht⟩, rest', hend,
        hsplit.symm.trans (by rw [heq, Piece.text, List.append_assoc])⟩

/-- Every buffer is a sequence of pieces and a tail. -/
theorem exists_pieces (bs : List UInt8) :
    ∃ ps tail, Piece.Separated ps tail ∧ Tail tail ∧ bs = Piece.texts ps ++ tail := by
  rcases tail_or_piece bs with htail | ⟨p, rest, hend, hbs⟩
  · exact ⟨[], bs, trivial, htail, rfl⟩
  · have hlt : rest.length < bs.length := by
      have := p.text_length_pos
      rw [hbs, List.length_append]
      omega
    obtain ⟨ps, tail, hsep, htail, hrest⟩ := exists_pieces rest
    exact ⟨p :: ps, tail, ⟨hrest ▸ hend, hsep⟩, htail,
      by rw [hbs, hrest, Piece.texts_cons, List.append_assoc]⟩
termination_by bs.length

end FrontEnd
