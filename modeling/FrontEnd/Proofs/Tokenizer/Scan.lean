import FrontEnd.Tokenizer.Basic
import FrontEnd.Proofs.Cursor.Between
import FrontEnd.Proofs.Grammar.Spelling

/-!
# One scan, token by token

What one scan does with bytes of each shape of the grammar, from a cursor between two halves of a
buffer of at most `2 ^ 32 - 2` bytes:

* `token_gap`: a gap is passed over;
* `token_between_nil`: nothing left is the end of the source;
* `token_spelling`: the spelling of a token is that token, told the position after it;
* `token_unclosed`: a literal that never closes is an error, told the position after its opening
  quote.

String literals come first. `segment` jumps from delimiter to delimiter, but a stretch may begin
anywhere between two of them (`segment_plain`), so that `stringBody` can be followed along the
constructors of `Content` and `Unclosed`.
-/

namespace FrontEnd

namespace Cursor

variable {done rest : List UInt8}

/-! ## String literals -/

/-- The search passes over a byte that is no delimiter. -/
theorem skipToDelimiter_plain {b : UInt8} (hb : Byte.isDelimiter b = false)
    (h : (done ++ b :: rest).length ≤ 2 ^ 32 - 2) :
    (between done (b :: rest)).skipToDelimiter =
      (between (done ++ [b]) rest).skipToDelimiter := by
  rw [skipToDelimiter_between h, skipToDelimiter_between (by simpa using h)]
  simp [hb]

/-- The search stays at a delimiter. -/
theorem skipToDelimiter_delimiter {b : UInt8} (hb : Byte.isDelimiter b = true)
    (h : (done ++ b :: rest).length ≤ 2 ^ 32 - 2) :
    (between done (b :: rest)).skipToDelimiter =
      .ok (.ofRest (b :: rest)) (between done (b :: rest)) := by
  rw [skipToDelimiter_between h]
  simp [hb]

/-- A stretch may begin at any of its bytes. -/
theorem segment_plain (start : Nat) {b : UInt8} (hb : Byte.isDelimiter b = false)
    (h : (done ++ b :: rest).length ≤ 2 ^ 32 - 2) :
    (between done (b :: rest)).segment start = (between (done ++ [b]) rest).segment start := by
  change EStateM.bind _ _ _ = EStateM.bind _ _ _
  simp only [EStateM.bind, skipToDelimiter_plain hb h]

/-- The closing quote ends the content. -/
theorem segment_quote {start : Nat} (hstart : start ≤ done.length)
    (h : (done ++ Byte.quote :: rest).length ≤ 2 ^ 32 - 2) :
    (between done (Byte.quote :: rest)).segment start =
      .ok (.closed (done.drop start)) (between (done ++ [Byte.quote]) rest) := by
  have hslice : (between (done ++ [Byte.quote]) rest).slice start done.length =
      .ok (done.drop start) := by
    rw [slice_between hstart (by simp), List.take_left]
  rw [segment, bind_of_ok (skipToDelimiter_delimiter (by decide) h)]
  show ((get >>= fun c : Cursor => _) : EStateM Fault Cursor Segment) _ = _
  rw [get_bind, pos_between, bind_of_ok (bump_between h), get_bind, liftM_bind_of_ok hslice]
  rfl

/-- An escape is passed over, whatever its second byte is. -/
theorem segment_escape (start : Nat) (b : UInt8)
    (h : (done ++ Byte.backslash :: b :: rest).length ≤ 2 ^ 32 - 2) :
    (between done (Byte.backslash :: b :: rest)).segment start =
      .ok .escaped (between (done ++ [Byte.backslash, b]) rest) := by
  have h' : ((done ++ [Byte.backslash]) ++ b :: rest).length ≤ 2 ^ 32 - 2 := by simpa using h
  rw [segment, bind_of_ok (skipToDelimiter_delimiter (by decide) h)]
  show ((bump >>= fun _ => _) : EStateM Fault Cursor Segment) _ = _
  rw [bind_of_ok (bump_between h), bind_of_ok (bump_between h'), List.append_assoc,
    List.singleton_append]
  rfl

/-- The buffer ends in an escape. -/
theorem segment_lone (start : Nat) (h : (done ++ [Byte.backslash]).length ≤ 2 ^ 32 - 2) :
    (between done [Byte.backslash]).segment start =
      .ok .cutOff (between (done ++ [Byte.backslash]) []) := by
  rw [segment, bind_of_ok (skipToDelimiter_delimiter (by decide) h)]
  show ((bump >>= fun _ => _) : EStateM Fault Cursor Segment) _ = _
  rw [bind_of_ok (bump_between h), bind_of_ok bump_between_nil]
  rfl

/-- The buffer ends in a stretch. -/
theorem segment_nil (start : Nat) (h : done.length ≤ 2 ^ 32 - 2) :
    (between done []).segment start = .ok .cutOff (between done []) := by
  have hs : (between done []).skipToDelimiter = .ok .bufferEnd (between done []) := by
    rw [skipToDelimiter_between (by simpa using h)]
    simp [Stop.ofRest]
  rw [segment, bind_of_ok hs]
  rfl

/-- A literal is read segment by segment. -/
theorem stringBody_eq (start : Nat) (c : Cursor) :
    c.stringBody start =
      match c.segment start with
      | .ok (.closed body) c' => .ok (some body) c'
      | .ok .escaped c' => c'.stringBody start
      | .ok .cutOff c' => .ok none c'
      | .error f c' => .error f c' := by
  rw [stringBody]
  split <;> simp only [*]

/-- A literal is read past its closing quote, and its content is what stands before. -/
theorem stringBody_content {body : List UInt8} (hbody : Content body) {start : Nat}
    (hstart : start ≤ done.length)
    (h : (done ++ (body ++ Byte.quote :: rest)).length ≤ 2 ^ 32 - 2) :
    (between done (body ++ Byte.quote :: rest)).stringBody start =
      .ok (some ((done ++ body).drop start)) (between (done ++ body ++ [Byte.quote]) rest) := by
  -- `start` stays at the opening quote while the cursor moves away from it.
  induction hbody generalizing done with
  | nil =>
    rw [List.nil_append] at h ⊢
    rw [stringBody_eq, segment_quote hstart h, List.append_nil]
  | @plain b bs hb _ ih =>
    rw [List.cons_append] at h ⊢
    rw [stringBody_eq, segment_plain start hb h, ← stringBody_eq,
      ih (by simp; omega) (by simpa using h)]
    simp
  | @escape b bs _ ih =>
    rw [List.cons_append, List.cons_append] at h ⊢
    rw [stringBody_eq, segment_escape start b h]
    show stringBody start _ = _
    rw [ih (by simp; omega) (by simpa using h)]
    simp

/-- A literal that never closes is read to the end of the buffer. -/
theorem stringBody_unclosed {body : List UInt8} (hbody : Unclosed body) (start : Nat)
    (h : (done ++ body).length ≤ 2 ^ 32 - 2) :
    (between done body).stringBody start = .ok none (between (done ++ body) []) := by
  induction hbody generalizing done with
  | nil => rw [stringBody_eq, segment_nil start (by simpa using h), List.append_nil]
  | lone => rw [stringBody_eq, segment_lone start h]
  | @plain b bs hb _ ih =>
    rw [stringBody_eq, segment_plain start hb h, ← stringBody_eq, ih (by simpa using h),
      List.append_assoc, List.singleton_append]
  | @escape b bs _ ih =>
    rw [stringBody_eq, segment_escape start b h]
    show stringBody start _ = _
    rw [ih (by simpa using h)]
    simp

/-! ## Tokens -/

/-- A run of one class, of which one byte has been read, up to what does not go on with it. -/
theorem runToken_between {p : UInt8 → Bool} (make : List UInt8 → Token) {b : UInt8}
    {bs : List UInt8} (hbs : ∀ x ∈ bs, p x = true) (hend : ∀ x ∈ rest.head?, p x = false)
    (h : (done ++ [b] ++ (bs ++ rest)).length ≤ 2 ^ 32 - 2) :
    (between (done ++ [b]) (bs ++ rest)).runToken p done.length make =
      .ok (.ok (make (b :: bs))) (between (done ++ b :: bs) rest) := by
  have ht : rest.takeWhile p = [] ∧ rest.dropWhile p = rest := by
    cases rest with
    | nil => exact ⟨rfl, rfl⟩
    | cons x xs => simp [hend x rfl]
  have he := eatWhile_between p h
  rw [List.takeWhile_append_of_pos hbs, List.dropWhile_append_of_pos hbs, ht.1, ht.2,
    List.append_nil, List.append_assoc, List.singleton_append] at he
  rw [runToken, bind_of_ok he, get_bind, liftM_bind_of_ok (sliceFrom_between (b :: bs))]
  rfl

/-- The first byte that is no blank begins a token. -/
theorem token_cons {b : UInt8} (hb : Byte.isBlank b = false)
    (h : (done ++ b :: rest).length ≤ 2 ^ 32 - 2) :
    (between done (b :: rest)).token = (between (done ++ [b]) rest).tokenFrom done.length b := by
  have he := eatWhile_between Byte.isBlank h
  rw [List.takeWhile_cons_of_neg (by simp [hb]), List.dropWhile_cons_of_neg (by simp [hb]),
    List.append_nil] at he
  rw [token, Byte.hasBlankFlag_eq, bind_of_ok he, get_bind, bind_of_ok (bump_between h)]
  rfl

/-- A gap is passed over. -/
theorem token_gap {gap : List UInt8} (hgap : Gap gap)
    (h : (done ++ (gap ++ rest)).length ≤ 2 ^ 32 - 2) :
    (between done (gap ++ rest)).token = (between (done ++ gap) rest).token := by
  have he := eatWhile_between Byte.isBlank h
  rw [List.takeWhile_append_of_pos hgap, List.dropWhile_append_of_pos hgap,
    ← List.append_assoc] at he
  have he' : (between (done ++ gap) rest).eatWhile Byte.isBlank = .ok () _ :=
    eatWhile_between Byte.isBlank (by simpa using h)
  rw [token, Byte.hasBlankFlag_eq, bind_of_ok he, bind_of_ok he']

/-- Nothing is left but the end of the source. -/
theorem token_between_nil (h : done.length ≤ 2 ^ 32 - 2) :
    (between done []).token = .ok (.ok .eof) (between done []) := by
  have he : (between done []).eatWhile Byte.isBlank = .ok () _ :=
    eatWhile_between Byte.isBlank (by simpa using h)
  rw [List.takeWhile_nil, List.dropWhile_nil, List.append_nil] at he
  rw [token, Byte.hasBlankFlag_eq, bind_of_ok he, get_bind, bind_of_ok bump_between_nil]
  rfl

/-- A quote opens a string literal. -/
theorem token_quote (h : (done ++ Byte.quote :: rest).length ≤ 2 ^ 32 - 2) :
    (between done (Byte.quote :: rest)).token = (between (done ++ [Byte.quote]) rest).stringToken := by
  rw [token_cons (by decide) h]
  rfl

/-- A byte that is no punctuation mark and no quote is told by the ranges of letters and digits. -/
theorem tokenFrom_eq {b : UInt8} (hpunct : Token.ofPunctuation? b = none) (hquote : b ≠ Byte.quote)
    (start : Nat) :
    tokenFrom start b =
      if Byte.isLetter b then runToken Byte.isLetter start .ident
      else if Byte.isDigit b then runToken Byte.isDigit start .number
      else do return .ok (.unknown (← get).position b) := by
  rw [tokenFrom, hpunct, Byte.hasLetterFlag_eq, Byte.hasDigitFlag_eq]
  exact if_neg hquote

theorem tokenFrom_letter {b : UInt8} (hb : Byte.isLetter b = true) (start : Nat) :
    tokenFrom start b = runToken Byte.isLetter start .ident := by
  obtain ⟨-, hquote, hpunct⟩ := Byte.isLetter_cases b hb
  rw [tokenFrom_eq hpunct hquote, if_pos hb]

theorem tokenFrom_digit {b : UInt8} (hb : Byte.isDigit b = true) (start : Nat) :
    tokenFrom start b = runToken Byte.isDigit start .number := by
  obtain ⟨-, hletter, hquote, hpunct⟩ := Byte.isDigit_cases b hb
  rw [tokenFrom_eq hpunct hquote, if_neg (by simp [hletter]), if_pos hb]

theorem tokenFrom_stray {b : UInt8} (hb : Byte.isStray b = true) (start : Nat) :
    (between done rest).tokenFrom start b =
      .ok (.ok (.unknown (.after done) b)) (between done rest) := by
  obtain ⟨-, hletter, hdigit, hquote, hpunct⟩ := Byte.isStray_cases b hb
  rw [tokenFrom_eq hpunct hquote, if_neg (by simp [hletter]), if_neg (by simp [hdigit]), get_bind]
  rfl

/-- The spelling of a token is read as that token. -/
theorem token_spelling {t : Token} (ht : t.WellFormed) (hend : t.EndsBefore rest)
    (h : (done ++ (t.spelling ++ rest)).length ≤ 2 ^ 32 - 2) :
    (between done (t.spelling ++ rest)).token =
      .ok (.ok (t.placed (.after (done ++ t.spelling)))) (between (done ++ t.spelling) rest) := by
  cases t with
  | eof => exact ht.elim
  | ident lexeme =>
    obtain ⟨hne, hl⟩ := ht
    match lexeme with
    | [] => exact absurd rfl hne
    | b :: bs =>
      have hb := hl b List.mem_cons_self
      simp only [Token.spelling, List.cons_append] at h ⊢
      rw [token_cons (Byte.isLetter_cases b hb).1 h, tokenFrom_letter hb]
      exact runToken_between .ident (fun x hx => hl x (List.mem_cons_of_mem _ hx)) hend
        (by simpa using h)
  | number lexeme =>
    obtain ⟨hne, hl⟩ := ht
    match lexeme with
    | [] => exact absurd rfl hne
    | b :: bs =>
      have hb := hl b List.mem_cons_self
      simp only [Token.spelling, List.cons_append] at h ⊢
      rw [token_cons (Byte.isDigit_cases b hb).1 h, tokenFrom_digit hb]
      exact runToken_between .number (fun x hx => hl x (List.mem_cons_of_mem _ hx)) hend
        (by simpa using h)
  | openParen | closeParen | semi | comma => exact token_cons (by decide) h
  | string lexeme =>
    have hs : Token.spelling (.string lexeme) ++ rest =
        Byte.quote :: (lexeme ++ Byte.quote :: rest) := by simp [Token.spelling]
    rw [hs] at h ⊢
    rw [token_quote h, stringToken, get_bind, pos_between]
    rw [bind_of_ok (stringBody_content ht (Nat.le_refl _) (by simpa using h))]
    simp [Token.spelling, Token.placed, pure, EStateM.pure]
  | unknown p b =>
    simp only [Token.spelling, List.singleton_append] at h ⊢
    exact (token_cons (Byte.isStray_cases b ht).1 h).trans (tokenFrom_stray ht _)

/-- A literal that never closes is an error, which names the position after its quote. -/
theorem token_unclosed {body : List UInt8} (hbody : Unclosed body)
    (h : (done ++ Byte.quote :: body).length ≤ 2 ^ 32 - 2) :
    (between done (Byte.quote :: body)).token =
      .ok (.error (.unterminatedString (.after (done ++ [Byte.quote]))))
        (between (done ++ Byte.quote :: body) []) := by
  rw [token_quote h, stringToken, get_bind, pos_between,
    bind_of_ok (stringBody_unclosed hbody _ (by simpa using h)), List.append_assoc]
  rfl

end Cursor

namespace Tokenizer

/-- The tokenizer that has read `done`, has `rest` left and met no error. -/
def between (done rest : List UInt8) : Tokenizer := { cursor := .between done rest }

variable {done rest : List UInt8}

@[simp] theorem offset_between : (between done rest).offset = done.length := rfl

@[simp] theorem position_between : (between done rest).position = .after done := rfl

theorem ofList_eq_between (bytes : List UInt8) : ofList bytes = between [] bytes := rfl

theorem scan_gap {gap : List UInt8} (hgap : Gap gap)
    (h : (done ++ (gap ++ rest)).length ≤ 2 ^ 32 - 2) :
    (between done (gap ++ rest)).scan = (between (done ++ gap) rest).scan := by
  simp only [scan, between, Cursor.token_gap hgap h]

theorem scan_between_nil (h : done.length ≤ 2 ^ 32 - 2) :
    (between done []).scan = .ok (.ok .eof) (between done []) := by
  simp only [scan, between, Cursor.token_between_nil h]

theorem scan_spelling {t : Token} (ht : t.WellFormed) (hend : t.EndsBefore rest)
    (h : (done ++ (t.spelling ++ rest)).length ≤ 2 ^ 32 - 2) :
    (between done (t.spelling ++ rest)).scan =
      .ok (.ok (t.placed (.after (done ++ t.spelling)))) (between (done ++ t.spelling) rest) := by
  simp only [scan, between, Cursor.token_spelling ht hend h]

theorem scan_unclosed {body : List UInt8} (hbody : Unclosed body)
    (h : (done ++ Byte.quote :: body).length ≤ 2 ^ 32 - 2) :
    (between done (Byte.quote :: body)).scan =
      .ok (.error (.unterminatedString (.after (done ++ [Byte.quote]))))
        { cursor := .between (done ++ Byte.quote :: body) []
          failed := some (.unterminatedString (.after (done ++ [Byte.quote]))) } := by
  simp only [scan, between, Cursor.token_unclosed hbody h]

end Tokenizer

end FrontEnd
