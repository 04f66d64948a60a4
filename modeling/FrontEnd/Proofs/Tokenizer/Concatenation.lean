import Mathlib.Data.List.Forall2
import FrontEnd.Proofs.Tokenizer.Run

/-!
# Runs over two sources, one after the other

The run over a source that follows another is its own run further along: the same tokens, with their
offsets moved by the length of what stands before, and their positions by the position there
(`Run.Shifted`). Columns go on from that position on the first line alone (`Position.Shifted`).

* `Tokenizer.shifted_run`: the run from behind some bytes, against the run over the rest alone;
* `Piece.Separated.append_of_seam`: the tokens of the first source end where they did, unless letters
  or digits stand on both sides of the seam (`Seam`);
* `run_append`: so the run over both is the one run and then the other.
-/

namespace FrontEnd

/-! ## Shifted runs -/

/-- `q` is the position `p` of a text that is written from `origin` on: columns go on from `origin`
on the first line of the text, and are its own on the other lines. -/
structure Position.Shifted (origin p q : Position) : Prop where
  line_eq : q.line.toNat = origin.line.toNat + p.line.toNat - 1
  col_eq : q.col.toNat =
    if p.line.toNat = 1 then origin.col.toNat + p.col.toNat - 1 else p.col.toNat

/-- The position after two texts is that after the second, shifted by the first. -/
theorem Position.shifted_after {bs cs : List UInt8} (h : (bs ++ cs).length ≤ 2 ^ 32 - 2) :
    Shifted (after bs) (after cs) (after (bs ++ cs)) := by
  have hlength : bs.length + cs.length ≤ 2 ^ 32 - 2 := by simpa using h
  have hbs : bs.length ≤ 2 ^ 32 - 2 := by omega
  have hcs : cs.length ≤ 2 ^ 32 - 2 := by omega
  have hline : lineAfter cs = 1 + cs.count Byte.newline := rfl
  constructor
  · rw [toNat_line_after h, toNat_line_after hbs, toNat_line_after hcs, lineAfter_append, hline]
    omega
  · rw [toNat_col_after h, toNat_col_after hbs, toNat_col_after hcs, toNat_line_after hcs,
      columnAfter_append, hline]
    by_cases hmem : Byte.newline ∈ cs
    · have hpos := List.count_pos_iff.2 hmem
      rw [if_pos hmem, if_neg (by omega), columnAfter, if_pos hmem]
    · rw [if_neg hmem, if_pos (by rw [List.count_eq_zero_of_not_mem hmem]), columnAfter.eq_def cs,
        if_neg hmem]
      omega

/-- The same token, of which the position is shifted. -/
inductive Token.Shifted (origin : Position) : Token → Token → Prop where
  | unknown {p q : Position} (byte : UInt8) (h : origin.Shifted p q) :
    Shifted origin (.unknown p byte) (.unknown q byte)
  | other (t : Token) (h : t.isUnknown = false) : Shifted origin t t

/-- The same token `n` bytes further, of which the position is shifted. -/
structure Lexed.Shifted (n : Nat) (origin : Position) (l l' : Lexed) : Prop where
  token : Token.Shifted origin l.token l'.token
  offset_eq : l'.offset = n + l.offset
  position : origin.Shifted l.position l'.position

/-- The same stop by a lex error, of which the position is shifted. -/
inductive Abort.Shifted (origin : Position) : Abort → Abort → Prop where
  | unterminatedString {p q : Position} (h : origin.Shifted p q) :
    Shifted origin (.lexError (.unterminatedString p)) (.lexError (.unterminatedString q))

/-- The same run `n` bytes further, of which the positions are shifted. -/
structure Run.Shifted (n : Nat) (origin : Position) (r r' : Run) : Prop where
  lexed : List.Forall₂ (Lexed.Shifted n origin) r.lexed r'.lexed
  stop : Option.Rel (Abort.Shifted origin) r.stop r'.stop
  offset_eq : r'.final.offset = n + r.final.offset
  position : origin.Shifted r.final.position r'.final.position

/-! ## Behind some bytes -/

theorem Token.shifted_placed {t : Token} (ht : t.WellFormed) {origin p q : Position}
    (h : origin.Shifted p q) : Shifted origin (t.placed p) (t.placed q) := by
  cases t with
  | unknown _ byte => exact .unknown byte h
  | eof => exact ht.elim
  | ident | number | openParen | closeParen | semi | comma | string => exact .other _ rfl

/-- What pieces stand for, behind some more bytes. -/
theorem Piece.shifted_lexed (bs done : List UInt8) {ps : List Piece}
    (h : (bs ++ (done ++ texts ps)).length ≤ 2 ^ 32 - 2) :
    List.Forall₂ (Lexed.Shifted bs.length (.after bs)) (lexed done ps) (lexed (bs ++ done) ps) := by
  induction ps generalizing done with
  | nil => exact .nil
  | cons p ps ih =>
    have hp : (bs ++ (done ++ p.text)).length ≤ 2 ^ 32 - 2 := by
      simp only [texts_cons, List.length_append] at h ⊢
      omega
    have hposition := Position.shifted_after hp
    simp only [lexed, List.append_assoc]
    refine .cons ⟨Token.shifted_placed p.wellFormed hposition, List.length_append, hposition⟩ ?_
    exact ih (done ++ p.text) (by simpa using h)

theorem Run.Shifted.prepend {n : Nat} {origin : Position} {ls ls' : List Lexed} {r r' : Run}
    (hls : List.Forall₂ (Lexed.Shifted n origin) ls ls') (h : r.Shifted n origin r') :
    (r.prepend ls).Shifted n origin (r'.prepend ls') where
  lexed := List.rel_append hls h.lexed
  stop := h.stop
  offset_eq := h.offset_eq
  position := h.position

namespace Tokenizer

/-- A run over a tail, further along a buffer. -/
theorem shifted_run_tail (bs done : List UInt8) {tail : List UInt8} (htail : Tail tail)
    (h : (bs ++ (done ++ tail)).length ≤ 2 ^ 32 - 2) :
    (between done tail).run.Shifted bs.length (.after bs) (between (bs ++ done) tail).run := by
  have hdone : (done ++ tail).length ≤ 2 ^ 32 - 2 := by
    rw [List.length_append] at h
    omega
  have hbs : (bs ++ done ++ tail).length ≤ 2 ^ 32 - 2 := by rwa [List.append_assoc]
  cases htail with
  | blank hgap =>
    rw [run_blank hgap hdone, run_blank hgap hbs, List.append_assoc]
    exact ⟨.nil, .none, List.length_append, Position.shifted_after h⟩
  | @unclosed gap body hgap hbody =>
    rw [run_unclosed hgap hbody hdone, run_unclosed hgap hbody hbs]
    simp only [List.append_assoc] at h ⊢
    have hopened : (bs ++ (done ++ (gap ++ [Byte.quote]))).length ≤ 2 ^ 32 - 2 := by
      simp only [List.length_append, List.length_cons, List.length_nil] at h ⊢
      omega
    exact ⟨.nil, .some (.unterminatedString (Position.shifted_after hopened)), List.length_append,
      Position.shifted_after h⟩

/-- A run over the second part of a buffer is the run over that part, further along. -/
theorem shifted_run (bs src : List UInt8) (h : (bs ++ src).length ≤ 2 ^ 32 - 2) :
    (ofList src).run.Shifted bs.length (.after bs) (between bs src).run := by
  obtain ⟨ps, tail, hsep, htail, rfl⟩ := exists_pieces src
  have hps : (bs ++ Piece.texts ps).length ≤ 2 ^ 32 - 2 := by
    simp only [List.length_append] at h ⊢
    omega
  have hsrc : (Piece.texts ps ++ tail).length ≤ 2 ^ 32 - 2 := by
    rw [List.length_append] at h
    omega
  rw [run_ofList_pieces hsep hsrc, run_pieces bs hsep h]
  have hls := Piece.shifted_lexed bs [] hps
  rw [List.append_nil] at hls
  exact .prepend hls (shifted_run_tail bs _ htail h)

end Tokenizer

/-! ## The seam -/

/-- No run of letters, and no run of digits, goes on from the end of `bs` into `cs`. -/
def Seam (bs cs : List UInt8) : Prop :=
  ∀ x ∈ bs.getLast?, ∀ y ∈ cs.head?,
    ¬ (Byte.isLetter x = true ∧ Byte.isLetter y = true) ∧
      ¬ (Byte.isDigit x = true ∧ Byte.isDigit y = true)

theorem Seam.of_append {bs bs' cs : List UInt8} (h : Seam (bs ++ bs') cs) : Seam bs' cs := by
  intro x hx
  rw [Option.mem_def] at hx
  exact h x (by rw [List.getLast?_append, hx]; rfl)

/-- A token ends at a seam after it. -/
theorem Token.endsBefore_of_seam {t : Token} (ht : t.WellFormed) {bs cs : List UInt8}
    (h : Seam (bs ++ t.spelling) cs) : t.EndsBefore cs := by
  intro y hy
  have hseam := h.of_append
  cases t with
  | ident lexeme =>
    obtain ⟨hne, hl⟩ := ht
    have hlast := List.getLast?_eq_some_getLast hne
    exact Bool.eq_false_iff.2 fun hext =>
      (hseam _ hlast y hy).1 ⟨hl _ (List.getLast_mem hne), hext⟩
  | number lexeme =>
    obtain ⟨hne, hl⟩ := ht
    have hlast := List.getLast?_eq_some_getLast hne
    exact Bool.eq_false_iff.2 fun hext =>
      (hseam _ hlast y hy).2 ⟨hl _ (List.getLast_mem hne), hext⟩
  | eof | openParen | closeParen | semi | comma | string | unknown => rfl

/-- Pieces end where they did, whatever follows them after a seam. -/
theorem Piece.Separated.append_of_seam {ps : List Piece} {bs cs : List UInt8}
    (h : Separated ps bs) (hseam : Seam (texts ps ++ bs) cs) : Separated ps (bs ++ cs) := by
  induction ps with
  | nil => trivial
  | cons p ps ih =>
    obtain ⟨hend, hsep⟩ := h
    rw [texts_cons, List.append_assoc] at hseam
    refine ⟨?_, ih hsep hseam.of_append⟩
    rw [← List.append_assoc]
    cases hfollowing : texts ps ++ bs with
    | nil =>
      rw [hfollowing, List.append_nil, text] at hseam
      exact Token.endsBefore_of_seam p.wellFormed hseam
    | cons b following =>
      intro x hx
      exact hend x (by rwa [hfollowing])

/-- The run over two sources is the run over the first, where that reaches its end and no run of
letters or digits crosses the seam, and then the run over the second, shifted. -/
theorem run_append (bs cs : List UInt8) (hlen : bs.length + cs.length ≤ 2 ^ 32 - 2)
    (hstop : (Tokenizer.ofList bs).run.stop = none) (hseam : Seam bs cs) :
    ∃ r, (Tokenizer.ofList (bs ++ cs)).run = r.prepend (Tokenizer.ofList bs).run.lexed ∧
      (Tokenizer.ofList bs).run.final.offset = bs.length ∧
      (Tokenizer.ofList cs).run.Shifted bs.length (Tokenizer.ofList bs).run.final.position r := by
  obtain ⟨ps, tail, hsep, htail, rfl⟩ := exists_pieces bs
  have hbs : (Piece.texts ps ++ tail).length ≤ 2 ^ 32 - 2 := by omega
  have hboth : (Piece.texts ps ++ (tail ++ cs)).length ≤ 2 ^ 32 - 2 := by
    simpa [Nat.add_assoc] using hlen
  rw [Tokenizer.run_ofList_pieces hsep hbs] at hstop ⊢
  cases htail with
  | unclosed hgap hbody =>
    rw [Tokenizer.run_unclosed hgap hbody hbs] at hstop
    cases hstop
  | blank hgap =>
    rw [Tokenizer.run_blank hgap hbs]
    refine ⟨(Tokenizer.between (Piece.texts ps ++ tail) cs).run, ?_, rfl, ?_⟩
    · rw [List.append_assoc, Tokenizer.run_ofList_pieces (hsep.append_of_seam hseam) hboth,
        Tokenizer.run_gap hgap hboth]
      simp
    · exact Tokenizer.shifted_run _ cs (by rwa [List.length_append])

/-- The sources `a`, line feed, `1` and `#`, line feed, ` "x`, of which the second does not close its
literal. -/
theorem run_append_unclosed :
    let bs : List UInt8 := [0x61, 0x0a, 0x31]
    let cs : List UInt8 := [0x23, 0x0a, 0x20, 0x22, 0x78]
    bs.length + cs.length ≤ 2 ^ 32 - 2 ∧ (Tokenizer.ofList bs).run.stop = none ∧ Seam bs cs ∧
      (Tokenizer.ofList cs).run.stop = some (.lexError (.unterminatedString ⟨2, 2⟩)) ∧
      (Tokenizer.ofList (bs ++ cs)).run.stop = some (.lexError (.unterminatedString ⟨3, 2⟩)) ∧
      ∃ r, (Tokenizer.ofList (bs ++ cs)).run = r.prepend (Tokenizer.ofList bs).run.lexed ∧
        (Tokenizer.ofList cs).run.Shifted bs.length (Tokenizer.ofList bs).run.final.position r := by
  intro bs cs
  have hlen : bs.length + cs.length ≤ 2 ^ 32 - 2 := by decide +kernel
  have hstop : (Tokenizer.ofList bs).run.stop = none := by decide +kernel
  have hseam : Seam bs cs := by unfold Seam; decide +kernel
  obtain ⟨r, hrun, -, hshifted⟩ := run_append bs cs hlen hstop hseam
  exact ⟨hlen, hstop, hseam, by decide +kernel, by decide +kernel, r, hrun, hshifted⟩

end FrontEnd
