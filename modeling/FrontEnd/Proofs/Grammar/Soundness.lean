import FrontEnd.Proofs.Tokenizer.Run

/-!
# What a run says about its buffer

A run that reaches the end of the source cuts it into spellings of its tokens and gaps, at the
offsets that it lists (`Spelled`). No letter follows an identifier and no digit a number, and the
bytes between two offsets are a gap and the spelling of one token. So the gaps and the spellings,
one after another, are the source (`Spelled.exists_gaps`).
-/

namespace FrontEnd

/-- From offset `o` on, `src` is the tokens of a list and a last gap: each token is spelled after a
gap, up to the offset listed with it, and does not go on with the byte there. -/
def Spelled (src : List UInt8) : Nat → List Lexed → Prop
  | o, [] => Gap (src.drop o)
  | o, l :: ls =>
    (∃ gap, Gap gap ∧ (src.take l.offset).drop o = gap ++ l.token.spelling) ∧
      l.offset ≤ src.length ∧ l.token.WellFormed ∧
      (∀ b ∈ src[l.offset]?, l.token.extendedBy b = false) ∧ Spelled src l.offset ls

theorem spelled_lexed (done : List UInt8) {last : List UInt8} {ps : List Piece}
    (hsep : Piece.Separated ps last) (hlast : Gap last) :
    Spelled (done ++ (Piece.texts ps ++ last)) done.length (Piece.lexed done ps) := by
  induction ps generalizing done with
  | nil => simpa [Spelled, Piece.lexed] using hlast
  | cons p ps ih =>
    obtain ⟨hend, hsep⟩ := hsep
    have hsrc : done ++ (Piece.texts (p :: ps) ++ last) =
        (done ++ p.text) ++ (Piece.texts ps ++ last) := by simp
    rw [hsrc]
    refine ⟨⟨p.gap, p.gap_blank, ?_⟩, ?_, p.wellFormed.placed _, fun b hb => ?_, ih _ hsep⟩
    · rw [List.take_left, List.drop_left, Token.spelling_placed, Piece.text]
    · exact (List.prefix_append (done ++ p.text) (Piece.texts ps ++ last)).length_le
    · rw [Token.extendedBy_placed]
      refine hend b ?_
      rwa [List.getElem?_append_right (Nat.le_refl _), Nat.sub_self, ← List.head?_eq_getElem?] at hb

/-- The gaps and the spellings make up the rest of the source. -/
theorem Spelled.exists_gaps {src : List UInt8} {o : Nat} {ls : List Lexed} (h : Spelled src o ls)
    (ho : o ≤ src.length) :
    ∃ (gaps : List (List UInt8)) (last : List UInt8), gaps.length = ls.length ∧
      (∀ gap ∈ gaps, Gap gap) ∧ Gap last ∧
      src.drop o = (List.zipWith (fun gap l => gap ++ l.token.spelling) gaps ls).flatten ++ last := by
  induction ls generalizing o with
  | nil => exact ⟨[], src.drop o, rfl, by simp, h, rfl⟩
  | cons l ls ih =>
    obtain ⟨⟨gap, hgap, hslice⟩, hle, hwf, -, hrest⟩ := h
    obtain ⟨gaps, last, hlen, hgaps, hlast, hdrop⟩ := ih hrest hle
    have hlt : o < l.offset := by
      have hpos := List.length_pos_iff.2 hwf.spelling_ne_nil
      have hlength := congrArg List.length hslice
      simp only [List.length_drop, List.length_take, List.length_append] at hlength
      omega
    have hsplit : src.drop o = (src.take l.offset).drop o ++ src.drop l.offset := by
      rw [← List.drop_append_of_le_length (by rw [List.length_take]; omega),
        List.take_append_drop]
    refine ⟨gap :: gaps, last, by simp [hlen], by simpa using ⟨hgap, hgaps⟩, hlast, ?_⟩
    rw [hsplit, hslice, hdrop, List.zipWith_cons_cons, List.flatten_cons, List.append_assoc,
      List.append_assoc, List.append_assoc]

/-- A run to the end of the source spells it. -/
theorem spelled_run (src : List UInt8) (hlen : src.length ≤ 2 ^ 32 - 2)
    (hstop : (Tokenizer.ofList src).run.stop = none) :
    Spelled src 0 (Tokenizer.ofList src).run.lexed ∧
      ∃ (gaps : List (List UInt8)) (last : List UInt8),
        gaps.length = (Tokenizer.ofList src).run.lexed.length ∧
        (∀ gap ∈ gaps, Gap gap) ∧ Gap last ∧
        src = (List.zipWith (fun gap l => gap ++ l.token.spelling) gaps
          (Tokenizer.ofList src).run.lexed).flatten ++ last := by
  have hspelled : Spelled src 0 (Tokenizer.ofList src).run.lexed := by
    obtain ⟨ps, tail, hsep, htail, rfl⟩ := exists_pieces src
    rw [Tokenizer.run_ofList_pieces hsep hlen] at hstop ⊢
    cases htail with
    | blank hgap =>
      rw [Run.lexed_prepend, Tokenizer.run_blank hgap hlen, List.append_nil]
      exact spelled_lexed [] hsep hgap
    | unclosed hgap hbody =>
      rw [Run.stop_prepend, Tokenizer.run_unclosed hgap hbody hlen] at hstop
      cases hstop
  exact ⟨hspelled, hspelled.exists_gaps (Nat.zero_le _)⟩

/-- The line `x1 "\""` and after it `#(`. -/
theorem spelled_run_mixed :
    let src : List UInt8 := [0x78, 0x31, 0x20, 0x22, 0x5c, 0x22, 0x22, 0x0a, 0x23, 0x28]
    src.length ≤ 2 ^ 32 - 2 ∧ (Tokenizer.ofList src).run.stop = none ∧
      (Tokenizer.ofList src).run.tokens =
        [.ident [0x78], .number [0x31], .string [0x5c, 0x22], .unknown ⟨2, 1⟩ 0x23, .openParen] ∧
      Spelled src 0 (Tokenizer.ofList src).run.lexed ∧
      ∃ (gaps : List (List UInt8)) (last : List UInt8),
        gaps.length = 5 ∧ (∀ gap ∈ gaps, Gap gap) ∧ Gap last ∧
        src = (List.zipWith (fun gap l => gap ++ l.token.spelling) gaps
          (Tokenizer.ofList src).run.lexed).flatten ++ last := by
  intro src
  have hstop : (Tokenizer.ofList src).run.stop = none := by decide +kernel
  have hlength : (Tokenizer.ofList src).run.lexed.length = 5 := by decide +kernel
  obtain ⟨hspelled, hgaps⟩ := spelled_run src (by decide) hstop
  rw [hlength] at hgaps
  exact ⟨by decide, hstop, by decide +kernel, hspelled, hgaps⟩

end FrontEnd
