import Mathlib.Data.List.Chain
import FrontEnd.Proofs.Tokenizer.Run

/-!
# What a buffer of tokens is read as

Tokens written one after another, with gaps between them, are read as these tokens
(`tokenize_texts`). The gaps may be empty except between two identifiers and between two numbers,
which would run together (`Token.RunsInto`). With such gaps each token ends where the next piece
begins (`Piece.Spaced.separated`).
-/

namespace FrontEnd

/-- Two tokens that one run of letters, or of digits, would make. -/
def Token.RunsInto (t u : Token) : Prop :=
  t.kind = .ident ∧ u.kind = .ident ∨ t.kind = .number ∧ u.kind = .number

/-- There is a gap between tokens that would run together. -/
def Piece.Spaced (ps : List Piece) : Prop :=
  ps.IsChain fun p q => p.token.RunsInto q.token → q.gap ≠ []

namespace Token

theorem extendedBy_of_isBlank : ∀ (t : Token) {b : UInt8}, Byte.isBlank b = true →
    t.extendedBy b = false := by
  intro t b hb
  have hletter : Byte.isLetter b = false := by
    by_contra h
    simp [(Byte.isLetter_cases b (by simpa using h)).1] at hb
  have hdigit : Byte.isDigit b = false := by
    by_contra h
    simp [(Byte.isDigit_cases b (by simpa using h)).1] at hb
  cases t with
  | ident => exact hletter
  | number => exact hdigit
  | _ => rfl

theorem EndsBefore.of_gap {t : Token} {gap : List UInt8} (h : Gap gap) : t.EndsBefore gap :=
  fun b hb => t.extendedBy_of_isBlank (h b (List.mem_of_mem_head? hb))

/-- Only an identifier begins with a letter, and only a number with a digit. -/
theorem WellFormed.exists_first {u : Token} (hu : u.WellFormed) :
    ∃ b bs, u.spelling = b :: bs ∧ (Byte.isLetter b = true → u.kind = .ident) ∧
      (Byte.isDigit b = true → u.kind = .number) := by
  cases u with
  | eof => exact hu.elim
  | ident lexeme =>
    obtain ⟨hne, hl⟩ := hu
    obtain ⟨b, bs, rfl⟩ := List.exists_cons_of_ne_nil hne
    refine ⟨b, bs, rfl, fun _ => rfl, fun hd => ?_⟩
    have hletter := hl b List.mem_cons_self
    rw [(Byte.isDigit_cases b hd).2.1] at hletter
    cases hletter
  | number lexeme =>
    obtain ⟨hne, hl⟩ := hu
    obtain ⟨b, bs, rfl⟩ := List.exists_cons_of_ne_nil hne
    refine ⟨b, bs, rfl, fun hletter => ?_, fun _ => rfl⟩
    rw [(Byte.isDigit_cases b (hl b List.mem_cons_self)).2.1] at hletter
    cases hletter
  | openParen | closeParen | semi | comma | string =>
    exact ⟨_, _, rfl, fun h => absurd h (by decide), fun h => absurd h (by decide)⟩
  | unknown p b =>
    obtain ⟨-, hletter, hdigit, -⟩ := Byte.isStray_cases b hu
    refine ⟨b, [], rfl, fun h => ?_, fun h => ?_⟩
    · rw [hletter] at h
      cases h
    · rw [hdigit] at h
      cases h

/-- A token ends where one begins that it does not run into. -/
theorem endsBefore_spelling {t u : Token} (hu : u.WellFormed) (h : ¬ t.RunsInto u)
    (rest : List UInt8) : t.EndsBefore (u.spelling ++ rest) := by
  obtain ⟨b, bs, hspelling, hletter, hdigit⟩ := hu.exists_first
  intro x hx
  rw [hspelling, List.cons_append, List.head?_cons, Option.mem_some] at hx
  subst hx
  rw [← Bool.not_eq_true]
  intro hext
  apply h
  cases t with
  | ident => exact .inl ⟨rfl, hletter hext⟩
  | number => exact .inr ⟨rfl, hdigit hext⟩
  | _ => cases hext

end Token

namespace Piece

/-- A gap, or the lack of a need for one, ends every token. -/
theorem Spaced.separated {ps : List Piece} {last : List UInt8} (h : Spaced ps) (hlast : Gap last) :
    Separated ps last := by
  induction ps with
  | nil => trivial
  | cons p ps ih =>
    cases ps with
    | nil => exact ⟨.of_gap hlast, trivial⟩
    | cons q qs =>
      obtain ⟨hpq, hqs⟩ := List.isChain_cons_cons.1 h
      refine ⟨?_, ih hqs⟩
      rw [texts_cons, text, List.append_assoc, List.append_assoc]
      cases hgap : q.gap with
      | nil => exact Token.endsBefore_spelling q.wellFormed (fun hrun => hpq hrun hgap) _
      | cons b bs =>
        intro x hx
        rw [List.cons_append, List.head?_cons, Option.mem_some] at hx
        subst hx
        exact p.token.extendedBy_of_isBlank (q.gap_blank b (hgap ▸ List.mem_cons_self))

/-- What the pieces stand for, positions aside, are their tokens. -/
theorem map_placed_lexed (p : Position) (done : List UInt8) (ps : List Piece) :
    ((lexed done ps).map fun l => l.token.placed p) = ps.map fun q => q.token.placed p := by
  induction ps generalizing done with
  | nil => rfl
  | cons q ps ih =>
    rw [lexed, List.map_cons, List.map_cons, ih, Token.placed_placed]

end Piece

/-- A buffer of tokens is read as these tokens, each told the position after it. Positions aside,
the answer depends on the tokens alone and not on the gaps. -/
theorem tokenize_texts (ps : List Piece) (last : List UInt8) (hspaced : Piece.Spaced ps)
    (hlast : Gap last) (hlen : (Piece.texts ps ++ last).length ≤ 2 ^ 32 - 2) :
    tokenize (Piece.texts ps ++ last) = .ok ((Piece.lexed [] ps).map (·.token)) ∧
      ∀ p, (((Piece.lexed [] ps).map (·.token)).map (·.placed p)) =
        (ps.map (·.token)).map (·.placed p) := by
  have hrun := Tokenizer.run_ofList_pieces (hspaced.separated hlast) hlen
  rw [Tokenizer.run_blank hlast hlen] at hrun
  refine ⟨?_, fun p => ?_⟩
  · rw [tokenize_of_stop_eq_none (by rw [hrun, Run.stop_prepend]), hrun, Run.tokens,
      Run.lexed_prepend, List.append_nil]
  · rw [List.map_map, List.map_map]
    exact Piece.map_placed_lexed p [] ps

/-- The pieces `ab`, ` cd`, `"\""`, `7` and `#`, and a line feed. -/
theorem tokenize_texts_mixed :
    let ps : List Piece :=
      [⟨[], .ident [0x61, 0x62], by decide, ⟨nofun, List.all_eq_true.1 rfl⟩⟩,
        ⟨[0x20], .ident [0x63, 0x64], by decide, ⟨nofun, List.all_eq_true.1 rfl⟩⟩,
        ⟨[], .string [0x5c, 0x22], by decide, .escape 0x22 .nil⟩,
        ⟨[], .number [0x37], by decide, ⟨nofun, List.all_eq_true.1 rfl⟩⟩,
        ⟨[], .unknown .start 0x23, by decide, rfl⟩]
    Piece.Spaced ps ∧ Gap [0x0a] ∧ (Piece.texts ps ++ [0x0a]).length ≤ 2 ^ 32 - 2 ∧
      tokenize (Piece.texts ps ++ [0x0a]) =
        .ok [.ident [0x61, 0x62], .ident [0x63, 0x64], .string [0x5c, 0x22], .number [0x37],
          .unknown ⟨1, 12⟩ 0x23] := by
  intro ps
  have hspaced : Piece.Spaced ps := by
    simp [ps, Piece.Spaced, Token.RunsInto, Token.kind]
  have hlast : Gap [0x0a] := by decide
  exact ⟨hspaced, hlast, by decide, (tokenize_texts ps [0x0a] hspaced hlast (by decide)).1⟩

end FrontEnd
