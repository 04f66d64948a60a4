import FrontEnd.Proofs.Grammar.Piece

/-!
# Scanned tokens

Every token of a run can be written (`wellFormed_of_mem_run`): identifiers are letters, numbers are
digits, and the lexeme of a string literal is the content of a literal. This holds from any state
and over a buffer of any length, also where the run ends in an error or a fault, because it depends
on which bytes were read and not on how they were counted.

An operation that answers took some bytes off what was left (`Cursor.Took`); what was taken since a
cursor is what is cut out from its offset (`Cursor.Took.slice_eq`).
-/

namespace FrontEnd

namespace Content

theorem of_forall {bs : List UInt8} (h : ∀ b ∈ bs, Byte.isDelimiter b = false) : Content bs := by
  induction bs with
  | nil => exact .nil
  | cons b bs ih =>
    exact .plain (h b List.mem_cons_self) (ih fun x hx => h x (List.mem_cons_of_mem _ hx))

theorem append {bs cs : List UInt8} (h : Content bs) (h' : Content cs) : Content (bs ++ cs) := by
  induction h with
  | nil => exact h'
  | plain hb _ ih => exact .plain hb ih
  | escape b _ ih => exact .escape b ih

end Content

namespace Cursor

variable {c₀ c c' : Cursor} {bs : List UInt8}

/-- `c'` has read the bytes `bs` beyond those that `c` has read. -/
structure Took (c : Cursor) (bs : List UInt8) (c' : Cursor) : Prop where
  rest_eq : c.rest = bs ++ c'.rest
  read_eq : c'.read = bs.reverse ++ c.read

namespace Took

theorem refl (c : Cursor) : c.Took [] c := ⟨rfl, rfl⟩

theorem trans {c₁ c₂ c₃ : Cursor} {bs bs' : List UInt8} (h : c₁.Took bs c₂) (h' : c₂.Took bs' c₃) :
    c₁.Took (bs ++ bs') c₃ :=
  ⟨by rw [h.rest_eq, h'.rest_eq, List.append_assoc],
    by rw [h'.read_eq, h.read_eq, List.reverse_append, List.append_assoc]⟩

theorem pos_eq (h : c.Took bs c') : c'.pos = c.pos + bs.length := by
  rw [c'.pos_eq, c.pos_eq, h.read_eq, List.length_append, List.length_reverse, Nat.add_comm]

/-- What was taken is cut out by its ends, also after more has been read. -/
theorem slice_eq {c₂ : Cursor} (h : c.Took bs c') (h₂ : c'.Reads c₂) :
    c₂.slice c.pos c'.pos = .ok bs := by
  obtain ⟨bs₂, hrest, hread⟩ := h₂
  have hpos₂ : c₂.pos = c'.pos + bs₂.length := pos_eq ⟨hrest, hread⟩
  have hpos := h.pos_eq
  rw [slice, if_neg (by omega), if_neg (by omega), hpos₂, Nat.add_sub_cancel_left, hread,
    List.drop_left' (by rw [List.length_reverse]), h.read_eq, hpos, Nat.add_sub_cancel_left,
    List.take_left' (by rw [List.length_reverse]), List.reverse_reverse]

end Took

/-! ## What an operation takes -/

theorem took_of_bump {b : UInt8} (h : c.bump = .ok (some b) c') : c.Took [b] c' := by
  obtain ⟨bs, hrest, hread⟩ := reads_of_bump h
  rw [rest_of_bump_some h] at hrest
  obtain rfl : bs = [b] := List.append_cancel_right hrest.symm
  exact ⟨rest_of_bump_some h, hread⟩

theorem took_of_eatWhile {p : UInt8 → Bool} (h : c.eatWhile p = .ok () c') :
    ∃ bs, c.Took bs c' ∧ (∀ b ∈ bs, p b = true) ∧ ∀ b ∈ c'.rest.head?, p b = false := by
  fun_induction eatWhile p c with
  | case1 c hr =>
    obtain ⟨-, rfl⟩ := EStateM.Result.ok.inj h
    exact ⟨[], .refl c, by simp, by simp [hr]⟩
  | case2 c b rest hr hb u q _ ih =>
    obtain ⟨bs, htook, hbs, hend⟩ := ih h
    exact ⟨b :: bs, Took.trans ⟨hr, rfl⟩ htook, List.forall_mem_cons.2 ⟨hb, hbs⟩, hend⟩
  | case3 => simp at h
  | case4 c b rest hr hb =>
    obtain ⟨-, rfl⟩ := EStateM.Result.ok.inj h
    exact ⟨[], .refl c, by simp, by simpa [hr] using hb⟩

theorem took_of_skipToDelimiter {s : Stop} (h : c.skipToDelimiter = .ok s c') :
    ∃ bs, c.Took bs c' ∧ (∀ b ∈ bs, Byte.isDelimiter b = false) ∧
      s = .ofRest c'.rest ∧ ∀ b ∈ c'.rest.head?, Byte.isDelimiter b = true := by
  unfold skipToDelimiter at h
  simp only at h
  split at h
  · obtain ⟨rfl, rfl⟩ := EStateM.Result.ok.inj h
    refine ⟨_, ⟨List.takeWhile_append_dropWhile.symm, rfl⟩, fun b hb => ?_, rfl, fun b hb => ?_⟩
    · simpa using List.all_eq_true.1 List.all_takeWhile b hb
    · have hend := List.head?_dropWhile_not (!Byte.isDelimiter ·) c.rest
      rw [rest_past, Option.mem_def] at hb
      simpa [hb] using hend
  · simp at h

/-- The byte that a search stops at. -/
def Stop.byte? : Stop → Option UInt8
  | quote => some Byte.quote
  | backslash => some Byte.backslash
  | bufferEnd => none

/-- What a search stops with tells the next byte. -/
theorem Stop.byte?_ofRest_dropWhile (bs : List UInt8) :
    (ofRest (bs.dropWhile (!Byte.isDelimiter ·))).byte? =
      (bs.dropWhile (!Byte.isDelimiter ·)).head? := by
  cases hrest : bs.dropWhile (!Byte.isDelimiter ·) with
  | nil => rfl
  | cons b rest =>
    have hb : (!Byte.isDelimiter b) = false :=
      not_of_mem_head?_dropWhile b (by rw [hrest]; rfl)
    simp only [Byte.isDelimiter, Bool.not_eq_false', Bool.or_eq_true, beq_iff_eq] at hb
    rcases hb with rfl | rfl <;> rfl

/-- What a search stopped at stays unread. -/
theorem current_of_skipToDelimiter {s : Stop} (h : c.skipToDelimiter = .ok s c') :
    c'.current = s.byte? := by
  unfold skipToDelimiter at h
  simp only at h
  split at h
  · obtain ⟨rfl, rfl⟩ := EStateM.Result.ok.inj h
    exact (Stop.byte?_ofRest_dropWhile c.rest).symm
  · simp at h

/-! ## String literals -/

/-- The rest of a literal up to its next escape is content. -/
theorem content_of_segment_escaped {start : Nat} (h : c.segment start = .ok .escaped c') :
    ∃ bs, c.Took bs c' ∧ Content bs := by
  cases steps_of_segment h with
  | @escaped c₁ c₂ _ d e hskip hbump hbump' =>
    obtain ⟨bs, htook, hbs, -⟩ := took_of_skipToDelimiter hskip
    have hcurrent := current_of_skipToDelimiter hskip
    cases d with
    | none =>
      obtain ⟨-, hnil⟩ := eq_of_bump_none hbump
      simp [current, hnil, Stop.byte?] at hcurrent
    | some d =>
      rw [current, rest_of_bump_some hbump] at hcurrent
      obtain rfl : d = Byte.backslash := Option.some.inj hcurrent
      exact ⟨bs ++ ([Byte.backslash] ++ [e]),
        htook.trans ((took_of_bump hbump).trans (took_of_bump hbump')),
        (Content.of_forall hbs).append (.escape e .nil)⟩

/-- What a closing quote makes the lexeme is all that was taken since the opening one. -/
theorem content_of_segment_closed {body : List UInt8} (h₀ : c₀.Took bs c) (hbs : Content bs)
    (h : c.segment c₀.pos = .ok (.closed body) c') : Content body := by
  cases steps_of_segment h with
  | closed hskip hbump hslice =>
    obtain ⟨bs₁, htook, hbs₁, -⟩ := took_of_skipToDelimiter hskip
    rw [(h₀.trans htook).slice_eq (reads_of_bump hbump)] at hslice
    cases hslice
    exact hbs.append (.of_forall hbs₁)

theorem content_of_stringBody {start : Nat} {r : Option (List UInt8)} {body : List UInt8}
    (h₀ : c₀.Took bs c) (hbs : Content bs) (hstart : start = c₀.pos)
    (h : c.stringBody start = .ok r c') (hr : r = some body) : Content body := by
  -- The literal grows by a segment at a time; `c₀` stays just after the opening quote.
  fun_induction stringBody start c generalizing bs with
  | case1 c body' c₁ h₁ =>
    obtain ⟨rfl, -⟩ := EStateM.Result.ok.inj h
    cases hr
    exact content_of_segment_closed h₀ hbs (hstart ▸ h₁)
  | case2 c c₁ h₁ ih =>
    obtain ⟨bs₁, htook, hbs₁⟩ := content_of_segment_escaped h₁
    exact ih (h₀.trans htook) (hbs.append hbs₁) h
  | case3 c c₁ h₁ =>
    obtain ⟨rfl, -⟩ := EStateM.Result.ok.inj h
    cases hr
  | case4 => simp at h

/-! ## Tokens -/

/-- A run of one class is the byte it began with and more bytes of the class. -/
theorem exists_of_run {p : UInt8 → Bool} {b : UInt8} {lexeme : List UInt8} (h₀ : c₀.Took [b] c)
    (hrun : c.eatWhile p = .ok () c') (hslice : c'.sliceFrom c₀.pos = .ok lexeme) :
    ∃ bs, lexeme = b :: bs ∧ ∀ x ∈ bs, p x = true := by
  obtain ⟨bs, htook, hbs, -⟩ := took_of_eatWhile hrun
  rw [sliceFrom, (h₀.trans htook).slice_eq (.refl _)] at hslice
  cases hslice
  exact ⟨bs, rfl, hbs⟩

theorem wellFormed_of_ofPunctuation? {b : UInt8} {t : Token} (h : Token.ofPunctuation? b = some t) :
    t.WellFormed := by
  unfold Token.ofPunctuation? at h
  repeat' split at h
  all_goals cases h
  all_goals trivial

/-- A byte that starts no token is none of those that start one. -/
theorem isStray_of_unknown {b : UInt8} (hblank : Byte.isBlank b = false)
    (hp : Token.ofPunctuation? b = none) (hquote : b ≠ Byte.quote)
    (hletter : ¬Byte.isLetter b = true) (hdigit : ¬Byte.isDigit b = true) :
    Byte.isStray b = true := by
  rcases Byte.classify b hblank with h | h | h | rfl | rfl | rfl | rfl | h
  · exact absurd h hletter
  · exact absurd h hdigit
  · exact absurd h hquote
  -- The four punctuation marks are tokens of their own.
  · cases hp
  · cases hp
  · cases hp
  · cases hp
  · exact h

theorem wellFormed_of_token {t : Token} (h : c.token = .ok (.ok t) c') (ht : t.isEof = false) :
    t.WellFormed := by
  cases steps_of_token h with
  | eof => cases ht
  | punctuation _ _ hp => exact wellFormed_of_ofPunctuation? hp
  | string _ _ hbody => exact content_of_stringBody (.refl _) .nil rfl hbody rfl
  | ident _ hbump hletter hrun hslice =>
    rw [Byte.hasLetterFlag_eq] at hletter hrun
    obtain ⟨bs, rfl, hbs⟩ := exists_of_run (took_of_bump hbump) hrun hslice
    exact ⟨List.cons_ne_nil _ _, List.forall_mem_cons.2 ⟨hletter, hbs⟩⟩
  | number _ hbump hdigit hrun hslice =>
    rw [Byte.hasDigitFlag_eq] at hdigit hrun
    obtain ⟨bs, rfl, hbs⟩ := exists_of_run (took_of_bump hbump) hrun hslice
    exact ⟨List.cons_ne_nil _ _, List.forall_mem_cons.2 ⟨hdigit, hbs⟩⟩
  | @unknown _ _ b heat hbump hp hquote hletter hdigit =>
    rw [Byte.hasBlankFlag_eq] at heat
    rw [Byte.hasLetterFlag_eq] at hletter
    rw [Byte.hasDigitFlag_eq] at hdigit
    obtain ⟨-, -, -, hend⟩ := took_of_eatWhile heat
    have hblank : Byte.isBlank b = false := hend b (by rw [rest_of_bump_some hbump]; rfl)
    exact isStray_of_unknown hblank hp hquote hletter hdigit

end Cursor

namespace Tokenizer

theorem wellFormed_of_scan {t t' : Tokenizer} {token : Token} (h : t.scan = .ok (.ok token) t')
    (ht : token.isEof = false) : token.WellFormed := by
  cases steps_of_scan h with
  | token _ htoken => exact Cursor.wellFormed_of_token htoken ht

theorem wellFormed_of_mem_runFrom {ls : List Lexed} {t : Tokenizer}
    (hls : ∀ l ∈ ls, l.token.WellFormed) : ∀ l ∈ (runFrom ls t).lexed, l.token.WellFormed := by
  fun_induction runFrom ls t with
  | case2 ls t token t' h ht ih =>
    exact ih (List.forall_mem_cons.2 ⟨wellFormed_of_scan h (by simpa using ht), hls⟩)
  | _ => exact fun l hl => hls l (List.mem_reverse.1 hl)

/-- Every token of a run can be written. -/
theorem wellFormed_of_mem_run {t : Tokenizer} : ∀ token ∈ t.run.tokens, token.WellFormed := by
  intro token htoken
  obtain ⟨l, hl, rfl⟩ := List.mem_map.1 htoken
  exact wellFormed_of_mem_runFrom (by simp) l hl

end Tokenizer

end FrontEnd
