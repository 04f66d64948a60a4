import FrontEnd.Proofs.Tokenizer.Run

/-!
# Quotes, byte by byte

Whether a byte of a buffer is inside a string literal is decided by an automaton that reads the
buffer once (`Quoting`). The scanner never runs it, but stands between two tokens only where the
automaton is outside (`foldl_step_texts`), and meets an unclosed literal only where the automaton
has entered it for the last time (`foldl_step_take_unclosed`).

`run_unterminated`: the automaton tells which runs end in an error, where the literal opened, and
which tokens come before it. Outside of literals a backslash is a token of its own.
-/

namespace FrontEnd

/-- Where a byte stands with respect to string literals. -/
inductive Quoting where
  | outside
  | inside
  /-- Inside, after a backslash. -/
  | escaped
  deriving DecidableEq, Repr

namespace Quoting

/-- The state after one more byte. -/
def step : Quoting → UInt8 → Quoting
  | outside, b => if b = Byte.quote then inside else outside
  | inside, b =>
    if b = Byte.quote then outside else if b = Byte.backslash then escaped else inside
  | escaped, _ => inside

/-- The state after the bytes of a buffer. -/
def after (bs : List UInt8) : Quoting := bs.foldl step outside

theorem after_append (bs cs : List UInt8) : after (bs ++ cs) = cs.foldl step (after bs) :=
  List.foldl_append

theorem step_inside_of_not_delimiter {b : UInt8} (hb : Byte.isDelimiter b = false) :
    step inside b = inside := by
  simp only [Byte.isDelimiter, Bool.or_eq_false_iff, beq_eq_false_iff_ne] at hb
  rw [step, if_neg hb.1, if_neg hb.2]

theorem foldl_step_outside {bs : List UInt8} (h : Byte.quote ∉ bs) :
    bs.foldl step outside = outside := by
  induction bs with
  | nil => rfl
  | cons b bs ih =>
    have hb : b ≠ Byte.quote := (List.ne_of_not_mem_cons h).symm
    rw [List.foldl_cons, step, if_neg hb, ih (List.not_mem_of_not_mem_cons h)]

theorem foldl_step_content {body : List UInt8} (h : Content body) :
    body.foldl step inside = inside := by
  induction h with
  | nil => rfl
  | plain hb _ ih => rw [List.foldl_cons, step_inside_of_not_delimiter hb, ih]
  | escape b _ ih => exact ih

/-- A literal that never closes is never left, however much of it is read. -/
theorem foldl_step_take_unclosed {body : List UInt8} (h : Unclosed body) (k : Nat) :
    (body.take k).foldl step inside ≠ outside := by
  induction h generalizing k with
  | nil => rw [List.take_nil]; decide
  | lone => cases k <;> simp [step, Byte.quote, Byte.backslash]
  | plain hb _ ih =>
    cases k with
    | zero => exact show inside ≠ outside by decide
    | succ k =>
      rw [List.take_succ_cons, List.foldl_cons, step_inside_of_not_delimiter hb]
      exact ih k
  | escape b _ ih =>
    match k with
    | 0 => exact show inside ≠ outside by decide
    | 1 => exact show step inside Byte.backslash ≠ outside by decide
    | k + 2 => exact ih k

/-! ## Pieces are left behind -/

theorem foldl_step_gap {gap : List UInt8} (h : Gap gap) : gap.foldl step outside = outside :=
  foldl_step_outside fun hq => absurd (h _ hq) (by decide)

theorem foldl_step_spelling {t : Token} (h : t.WellFormed) :
    t.spelling.foldl step outside = outside := by
  cases t with
  | eof => exact h.elim
  | ident lexeme => exact foldl_step_outside fun hq => absurd (h.2 _ hq) (by decide)
  | number lexeme => exact foldl_step_outside fun hq => absurd (h.2 _ hq) (by decide)
  | openParen | closeParen | semi | comma => decide
  | string lexeme =>
    rw [Token.spelling, List.foldl_cons, List.foldl_append]
    show ([Byte.quote].foldl step (lexeme.foldl step inside)) = outside
    rw [foldl_step_content h]
    decide
  | unknown p b =>
    obtain ⟨-, -, -, hquote, -⟩ := Byte.isStray_cases b h
    exact foldl_step_outside (by simpa [Token.spelling] using Ne.symm hquote)

theorem foldl_step_texts (ps : List Piece) : (Piece.texts ps).foldl step outside = outside := by
  induction ps with
  | nil => rfl
  | cons p ps ih =>
    rw [Piece.texts_cons, Piece.text, List.foldl_append, List.foldl_append,
      foldl_step_gap p.gap_blank, foldl_step_spelling p.wellFormed, ih]

/-- The automaton is outside after a gap that follows pieces. -/
theorem after_texts_gap (ps : List Piece) {gap : List UInt8} (h : Gap gap) :
    after (Piece.texts ps ++ gap) = outside := by
  rw [after, List.foldl_append, foldl_step_texts, foldl_step_gap h]

/-- The automaton is not outside in a literal that never closes. -/
theorem after_unclosed_ne {done body : List UInt8} (hdone : after done = outside)
    (hbody : Unclosed body) : after (done ++ Byte.quote :: body) ≠ outside := by
  have hne := foldl_step_take_unclosed hbody body.length
  rw [List.take_length] at hne
  rw [after_append, hdone]
  exact hne

end Quoting

/-! ## The literal that does not close -/

/-- Byte `q` of `src` is the last quote that the automaton reads outside. -/
structure LastOpening (src : List UInt8) (q : Nat) : Prop where
  quote : src[q]? = some Byte.quote
  outside : Quoting.after (src.take q) = .outside
  last : ∀ q' > q, src[q']? = some Byte.quote → Quoting.after (src.take q') ≠ .outside

namespace LastOpening

theorem unique {src : List UInt8} {q q' : Nat} (h : LastOpening src q) (h' : LastOpening src q') :
    q' = q := by
  rcases Nat.lt_trichotomy q q' with hlt | rfl | hlt
  · exact absurd h'.outside (h.last q' hlt h'.quote)
  · rfl
  · exact absurd h.outside (h'.last q hlt h.quote)

theorem of_unclosed {done body : List UInt8} (hdone : Quoting.after done = .outside)
    (hbody : Unclosed body) : LastOpening (done ++ Byte.quote :: body) done.length where
  quote := by rw [List.getElem?_append_right (Nat.le_refl _), Nat.sub_self]; rfl
  outside := by rw [List.take_left, hdone]
  last q' hq' _ := by
    obtain ⟨k, rfl⟩ := Nat.exists_eq_add_of_lt hq'
    rw [List.take_append, List.take_of_length_le (by omega), Nat.add_assoc, Nat.add_sub_cancel_left,
      List.take_succ_cons, Quoting.after_append, hdone]
    exact Quoting.foldl_step_take_unclosed hbody k

end LastOpening

/-! ## Runs -/

/-- A source that ends outside of literals is cut into pieces and a gap. -/
theorem exists_pieces_of_outside {src : List UInt8} (h : Quoting.after src = .outside) :
    ∃ ps gap, Piece.Separated ps gap ∧ Gap gap ∧ src = Piece.texts ps ++ gap := by
  obtain ⟨ps, tail, hsep, htail, rfl⟩ := exists_pieces src
  cases htail with
  | blank hgap => exact ⟨ps, _, hsep, hgap, rfl⟩
  | unclosed hgap hbody =>
    rw [← List.append_assoc] at h
    exact absurd h (Quoting.after_unclosed_ne (Quoting.after_texts_gap ps hgap) hbody)

namespace Tokenizer

/-- A run over a source that ends outside of literals reaches its end. -/
theorem run_of_outside {src : List UInt8} (hlen : src.length ≤ 2 ^ 32 - 2)
    (h : Quoting.after src = .outside) : (ofList src).run.stop = none := by
  obtain ⟨ps, gap, hsep, hgap, rfl⟩ := exists_pieces_of_outside h
  rw [run_ofList_pieces hsep hlen, Run.stop_prepend, run_blank hgap hlen]

/-- A run over a source that does not ends at the literal that opened last, with the tokens of
what stands before it. -/
theorem run_of_not_outside {src : List UInt8} (hlen : src.length ≤ 2 ^ 32 - 2)
    (h : Quoting.after src ≠ .outside) :
    ∃ q, LastOpening src q ∧ tokenize (src.take q) = .ok (ofList src).run.tokens ∧
      (ofList src).run.stop =
        some (.lexError (.unterminatedString (.after (src.take (q + 1))))) ∧
      (ofList src).run.final =
        { cursor := .between src []
          failed := some (.unterminatedString (.after (src.take (q + 1)))) } := by
  obtain ⟨ps, tail, hsep, htail, rfl⟩ := exists_pieces src
  cases htail with
  | blank hgap => exact absurd (Quoting.after_texts_gap ps hgap) h
  | @unclosed gap body hgap hbody =>
    have hsrc : Piece.texts ps ++ (gap ++ Byte.quote :: body) =
        Piece.texts ps ++ gap ++ Byte.quote :: body := (List.append_assoc ..).symm
    have hbefore : (Piece.texts ps ++ gap).length ≤ 2 ^ 32 - 2 := by
      simp only [List.length_append] at hlen ⊢
      omega
    have hopening : (Piece.texts ps ++ gap ++ Byte.quote :: body).take
        ((Piece.texts ps ++ gap).length + 1) = Piece.texts ps ++ gap ++ [Byte.quote] := by
      rw [List.take_length_add_append, List.take_succ_cons, List.take_zero]
    have hrun := run_ofList_pieces hsep hlen
    rw [run_unclosed hgap hbody hlen] at hrun
    have hrun' := run_ofList_pieces hsep.of_append hbefore
    rw [run_blank hgap hbefore] at hrun'
    rw [hrun, hsrc]
    refine ⟨_, .of_unclosed (Quoting.after_texts_gap ps hgap) hbody, ?_, ?_, ?_⟩
    · rw [List.take_left, tokenize_of_stop_eq_none (by rw [hrun', Run.stop_prepend]), hrun',
        Run.tokens_prepend, Run.tokens_prepend]
      rfl
    · rw [hopening]
      rfl
    · rw [hopening]
      rfl

/-- Outside of literals a byte that starts no other token is one of its own. -/
theorem exists_lexed_stray {src : List UInt8} (hlen : src.length ≤ 2 ^ 32 - 2) {i : Nat} {b : UInt8}
    (hb : Byte.isStray b = true) (hi : src[i]? = some b)
    (h : Quoting.after (src.take i) = .outside) :
    ⟨.unknown (.after (src.take (i + 1))) b, i + 1, .after (src.take (i + 1))⟩ ∈
      (ofList src).run.lexed := by
  obtain ⟨hlt, hget⟩ := List.getElem?_eq_some_iff.1 hi
  obtain ⟨ps, gap, hsep, hgap, htake⟩ := exists_pieces_of_outside h
  have hnext : src.take (i + 1) = Piece.texts ps ++ gap ++ [b] := by
    rw [List.take_succ_eq_append_getElem hlt, hget, htake]
  have hsrc : src = Piece.texts ps ++ (gap ++ (b :: src.drop (i + 1))) := by
    refine (List.take_append_drop (i + 1) src).symm.trans ?_
    rw [hnext, List.append_assoc, List.append_assoc, List.singleton_append]
  let p : Piece := ⟨gap, .unknown .start b, hgap, hb⟩
  have htext : gap ++ (b :: src.drop (i + 1)) = p.text ++ src.drop (i + 1) := by
    rw [Piece.text, List.append_assoc]
    rfl
  have hrun := run_ofList_pieces (hsep.append fun t => t.endsBefore_stray hb _) (hsrc ▸ hlen)
  rw [htext] at hrun hsrc
  rw [run_piece p (fun _ _ => rfl) (hsrc ▸ hlen), Run.prepend_prepend, ← hsrc] at hrun
  have hread : Piece.texts ps ++ p.text = src.take (i + 1) := by
    rw [hnext, Piece.text, ← List.append_assoc]
    rfl
  rw [hrun, Run.lexed_prepend]
  refine List.mem_append_left _ (List.mem_append_right _ ?_)
  rw [Piece.lexed, hread, List.length_take, Nat.min_eq_left (by omega)]
  exact List.mem_cons_self

end Tokenizer

/-- A run ends in an error exactly where the automaton is left in a literal. The error names the
position after the quote that opened it, and the tokens before it are those of what stands before
that quote. A backslash outside of literals is a token, so it makes no quote ordinary. -/
theorem run_unterminated (src : List UInt8) (hlen : src.length ≤ 2 ^ 32 - 2) :
    let run := (Tokenizer.ofList src).run
    (run.stop = none ↔ Quoting.after src = .outside) ∧
    (Quoting.after src ≠ .outside → ∃ q e, LastOpening src q ∧ (∀ q', LastOpening src q' → q' = q) ∧
      tokenize (src.take q) = .ok run.tokens ∧ run.stop = some (.lexError e) ∧
      e.position.line.toNat = 1 + (src.take q).count Byte.newline ∧
      e.position.col.toNat = Position.columnAfter (src.take (q + 1)) ∧
      run.final = { cursor := .between src [], failed := some e }) ∧
    ∀ i, src[i]? = some Byte.backslash → Quoting.after (src.take i) = .outside →
      ⟨.unknown (.after (src.take (i + 1))) Byte.backslash, i + 1, .after (src.take (i + 1))⟩ ∈
        run.lexed := by
  intro run
  refine ⟨⟨fun hstop => Decidable.byContradiction fun h => ?_, Tokenizer.run_of_outside hlen⟩,
    fun h => ?_, fun i => Tokenizer.exists_lexed_stray hlen (by decide)⟩
  · obtain ⟨q, -, -, hstop', -⟩ := Tokenizer.run_of_not_outside hlen h
    rw [hstop] at hstop'
    cases hstop'
  · obtain ⟨q, hq, htokens, hstop, hfinal⟩ := Tokenizer.run_of_not_outside hlen h
    obtain ⟨hlt, hget⟩ := List.getElem?_eq_some_iff.1 hq.quote
    have htake : (src.take (q + 1)).length ≤ 2 ^ 32 - 2 := by
      rw [List.length_take]
      omega
    refine ⟨q, _, hq, fun q' => hq.unique, htokens, hstop, ?_, Position.toNat_col_after htake, hfinal⟩
    show (Position.after _).line.toNat = _
    rw [Position.toNat_line_after htake, Position.lineAfter, List.take_succ_eq_append_getElem hlt,
      hget, List.count_append]
    rfl

/-- The source `\"a\"b`, of which the first quote opens a literal and the second does not close it. -/
theorem run_unterminated_escaped :
    let src : List UInt8 := [0x5c, 0x22, 0x61, 0x5c, 0x22, 0x62]
    src.length ≤ 2 ^ 32 - 2 ∧ Quoting.after src ≠ .outside ∧ LastOpening src 1 ∧
      tokenize [0x5c] = .ok (Tokenizer.ofList src).run.tokens ∧
      ∃ e, (Tokenizer.ofList src).run.stop = some (.lexError e) ∧ e.position.col.toNat = 3 := by
  intro src
  have h : Quoting.after src ≠ .outside := by decide
  have hopening : LastOpening ([0x5c] ++ Byte.quote :: [0x61, 0x5c, 0x22, 0x62]) 1 :=
    .of_unclosed (by decide) (.plain (by decide) (.escape 0x22 (.plain (by decide) .nil)))
  obtain ⟨q, e, -, hunique, htokens, hstop, -, hcol, -⟩ := (run_unterminated src (by decide)).2.1 h
  obtain rfl : 1 = q := hunique 1 hopening
  exact ⟨by decide, h, hopening, htokens, e, hstop, hcol⟩

end FrontEnd
