import FrontEnd.Cursor.Basic
import FrontEnd.Token.Basic
import FrontEnd.Token.LexError

/-!
# Scanning one token

One scan passes the blanks before a token, then reads the token by its first byte: a punctuation
mark, a run of letters, a run of digits, a string literal, or a byte that is none of them. Inside a
string literal a backslash makes the next byte ordinary, whatever it is.

* `token`: the next token, the end of the source included, or the error of a string literal that the
  buffer ends in;
* `steps_of_segment`, `steps_of_token`: the steps behind an answer;
* `rest_length_lt_of_token`: a token other than the end of the source takes at least one byte.
-/

namespace FrontEnd

namespace Cursor

/-- What ended a stretch of a string literal. -/
inductive Segment where
  /-- The closing quote: the whole content. -/
  | closed (body : List UInt8)
  /-- A backslash and the byte after it. -/
  | escaped
  /-- The end of the buffer. -/
  | cutOff
  deriving DecidableEq, Repr

/-- Reads a string literal, whose content began at `start`, up to its closing quote or past its
next escape. -/
def segment (start : Nat) : EStateM Fault Cursor Segment := do
  match ← skipToDelimiter with
  | .quote =>
    let stop := (← get).pos
    let _ ← bump
    return .closed (← (← get).slice start stop)
  | .backslash =>
    let _ ← bump
    match ← bump with
    | some _ => return .escaped
    | none => return .cutOff
  | .bufferEnd => return .cutOff

/-- The steps by which a segment is read, by what ended it. -/
inductive SegmentSteps (start : Nat) (c : Cursor) : Segment → Cursor → Prop where
  | closed {c₁ c' : Cursor} {b : Option UInt8} {body : List UInt8} :
    c.skipToDelimiter = .ok .quote c₁ → c₁.bump = .ok b c' → c'.slice start c₁.pos = .ok body →
      SegmentSteps start c (.closed body) c'
  | escaped {c₁ c₂ c' : Cursor} {d : Option UInt8} {b : UInt8} :
    c.skipToDelimiter = .ok .backslash c₁ → c₁.bump = .ok d c₂ → c₂.bump = .ok (some b) c' →
      SegmentSteps start c .escaped c'
  | lone {c₁ c₂ c' : Cursor} {d : Option UInt8} :
    c.skipToDelimiter = .ok .backslash c₁ → c₁.bump = .ok d c₂ → c₂.bump = .ok none c' →
      SegmentSteps start c .cutOff c'
  | bufferEnd {c' : Cursor} :
    c.skipToDelimiter = .ok .bufferEnd c' → SegmentSteps start c .cutOff c'

theorem steps_of_segment {start : Nat} {c c' : Cursor} {s : Segment}
    (h : c.segment start = .ok s c') : SegmentSteps start c s c' := by
  unfold segment at h
  obtain ⟨stop, c₁, hskip, h⟩ := bind_eq_ok_iff.1 h
  cases stop with
  | quote =>
    obtain ⟨_, c₂, hget, h⟩ := bind_eq_ok_iff.1 h
    obtain ⟨_, c₃, hbump, h⟩ := bind_eq_ok_iff.1 h
    obtain ⟨_, c₄, hget', h⟩ := bind_eq_ok_iff.1 h
    obtain ⟨_, c₅, hslice, h⟩ := bind_eq_ok_iff.1 h
    obtain ⟨rfl, rfl⟩ := get_eq_ok_iff.1 hget
    obtain ⟨rfl, rfl⟩ := get_eq_ok_iff.1 hget'
    obtain ⟨hbody, rfl⟩ := liftM_eq_ok_iff.1 hslice
    obtain ⟨rfl, rfl⟩ := pure_eq_ok_iff.1 h
    exact .closed hskip hbump hbody
  | backslash =>
    obtain ⟨_, c₂, hbump, h⟩ := bind_eq_ok_iff.1 h
    obtain ⟨b, c₃, hbump', h⟩ := bind_eq_ok_iff.1 h
    cases b with
    | none =>
      obtain ⟨rfl, rfl⟩ := pure_eq_ok_iff.1 h
      exact .lone hskip hbump hbump'
    | some b =>
      obtain ⟨rfl, rfl⟩ := pure_eq_ok_iff.1 h
      exact .escaped hskip hbump hbump'
  | bufferEnd =>
    obtain ⟨rfl, rfl⟩ := pure_eq_ok_iff.1 h
    exact .bufferEnd hskip

/-- An escape is two bytes. -/
theorem rest_length_lt_of_segment {start : Nat} {c c' : Cursor}
    (h : c.segment start = .ok .escaped c') : c'.rest.length < c.rest.length := by
  cases steps_of_segment h with
  | escaped hskip hbump hbump' =>
    have l₁ := (reads_of_skipToDelimiter hskip).rest_length_le
    have l₂ := (reads_of_bump hbump).rest_length_le
    have l₃ := congrArg List.length (rest_of_bump_some hbump')
    simp only [List.length_cons] at l₃
    omega

/-- Reads a string literal, whose content began at `start`, past its closing quote. Its content, or
`none` where the buffer ends first. -/
def stringBody (start : Nat) (c : Cursor) : EStateM.Result Fault Cursor (Option (List UInt8)) :=
  match _h : c.segment start with
  | .ok (.closed body) c' => .ok (some body) c'
  | .ok .escaped c' => stringBody start c'
  | .ok .cutOff c' => .ok none c'
  | .error f c' => .error f c'
termination_by c.rest.length
decreasing_by exact rest_length_lt_of_segment _h

/-- Reads a string literal whose opening quote has just been read. An error names the position after
that quote. -/
def stringToken : EStateM Fault Cursor (Except LexError Token) := do
  let opened ← get
  match ← stringBody opened.pos with
  | some body => return .ok (.string body)
  | none => return .error (.unterminatedString opened.position)

/-- Reads the rest of a run of one class, which began at `start`, and makes a token of all of it. -/
def runToken (p : UInt8 → Bool) (start : Nat) (make : List UInt8 → Token) :
    EStateM Fault Cursor (Except LexError Token) := do
  eatWhile p
  return .ok (make (← (← get).sliceFrom start))

/-- Reads the token that began with the byte `b` at `start`, which has just been read. -/
def tokenFrom (start : Nat) (b : UInt8) : EStateM Fault Cursor (Except LexError Token) := do
  match Token.ofPunctuation? b with
  | some t => return .ok t
  | none =>
    if b = Byte.quote then
      stringToken
    else if Byte.hasLetterFlag b then
      runToken Byte.hasLetterFlag start .ident
    else if Byte.hasDigitFlag b then
      runToken Byte.hasDigitFlag start .number
    else
      return .ok (.unknown (← get).position b)

/-- Reads the blanks before a token, and the token. -/
def token : EStateM Fault Cursor (Except LexError Token) := do
  eatWhile Byte.hasBlankFlag
  let start := (← get).pos
  match ← bump with
  | none => return .ok .eof
  | some b => tokenFrom start b

/-! ## The steps of a scan -/

/-- The steps by which a token is read, by the answer. -/
inductive TokenSteps (c : Cursor) : Except LexError Token → Cursor → Prop where
  | eof {c₁ c' : Cursor} :
    c.eatWhile Byte.hasBlankFlag = .ok () c₁ → c₁.bump = .ok none c' → TokenSteps c (.ok .eof) c'
  | punctuation {c₁ c' : Cursor} {b : UInt8} {t : Token} :
    c.eatWhile Byte.hasBlankFlag = .ok () c₁ → c₁.bump = .ok (some b) c' →
      Token.ofPunctuation? b = some t → TokenSteps c (.ok t) c'
  | string {c₁ c₂ c' : Cursor} {body : List UInt8} :
    c.eatWhile Byte.hasBlankFlag = .ok () c₁ → c₁.bump = .ok (some Byte.quote) c₂ →
      c₂.stringBody c₂.pos = .ok (some body) c' → TokenSteps c (.ok (.string body)) c'
  | unterminated {c₁ c₂ c' : Cursor} :
    c.eatWhile Byte.hasBlankFlag = .ok () c₁ → c₁.bump = .ok (some Byte.quote) c₂ →
      c₂.stringBody c₂.pos = .ok none c' →
      TokenSteps c (.error (.unterminatedString c₂.position)) c'
  | ident {c₁ c₂ c' : Cursor} {b : UInt8} {lexeme : List UInt8} :
    c.eatWhile Byte.hasBlankFlag = .ok () c₁ → c₁.bump = .ok (some b) c₂ →
      Byte.hasLetterFlag b = true → c₂.eatWhile Byte.hasLetterFlag = .ok () c' →
      c'.sliceFrom c₁.pos = .ok lexeme → TokenSteps c (.ok (.ident lexeme)) c'
  | number {c₁ c₂ c' : Cursor} {b : UInt8} {lexeme : List UInt8} :
    c.eatWhile Byte.hasBlankFlag = .ok () c₁ → c₁.bump = .ok (some b) c₂ →
      Byte.hasDigitFlag b = true → c₂.eatWhile Byte.hasDigitFlag = .ok () c' →
      c'.sliceFrom c₁.pos = .ok lexeme → TokenSteps c (.ok (.number lexeme)) c'
  | unknown {c₁ c' : Cursor} {b : UInt8} :
    c.eatWhile Byte.hasBlankFlag = .ok () c₁ → c₁.bump = .ok (some b) c' →
      Token.ofPunctuation? b = none → b ≠ Byte.quote → ¬Byte.hasLetterFlag b = true →
      ¬Byte.hasDigitFlag b = true → TokenSteps c (.ok (.unknown c'.position b)) c'

theorem exists_of_runToken {p : UInt8 → Bool} {start : Nat} {make : List UInt8 → Token}
    {c c' : Cursor} {r : Except LexError Token} (h : c.runToken p start make = .ok r c') :
    ∃ lexeme, c.eatWhile p = .ok () c' ∧ c'.sliceFrom start = .ok lexeme ∧ r = .ok (make lexeme) := by
  unfold runToken at h
  obtain ⟨_, c₁, heat, h⟩ := bind_eq_ok_iff.1 h
  obtain ⟨_, c₂, hget, h⟩ := bind_eq_ok_iff.1 h
  obtain ⟨lexeme, c₃, hslice, h⟩ := bind_eq_ok_iff.1 h
  obtain ⟨rfl, rfl⟩ := get_eq_ok_iff.1 hget
  obtain ⟨hlexeme, rfl⟩ := liftM_eq_ok_iff.1 hslice
  obtain ⟨rfl, rfl⟩ := pure_eq_ok_iff.1 h
  exact ⟨lexeme, heat, hlexeme, rfl⟩

theorem steps_of_tokenFrom {c c₁ c₂ c' : Cursor} {b : UInt8} {r : Except LexError Token}
    (heat : c.eatWhile Byte.hasBlankFlag = .ok () c₁) (hbump : c₁.bump = .ok (some b) c₂)
    (h : c₂.tokenFrom c₁.pos b = .ok r c') : TokenSteps c r c' := by
  unfold tokenFrom at h
  cases hp : Token.ofPunctuation? b with
  | some t =>
    simp only [hp] at h
    obtain ⟨rfl, rfl⟩ := pure_eq_ok_iff.1 h
    exact .punctuation heat hbump hp
  | none =>
    simp only [hp] at h
    split at h
    · rename_i hquote
      subst hquote
      unfold stringToken at h
      obtain ⟨_, _, hget, h⟩ := bind_eq_ok_iff.1 h
      obtain ⟨rfl, rfl⟩ := get_eq_ok_iff.1 hget
      obtain ⟨body, _, hbody, h⟩ := bind_eq_ok_iff.1 h
      cases body <;> obtain ⟨rfl, rfl⟩ := pure_eq_ok_iff.1 h
      · exact .unterminated heat hbump hbody
      · exact .string heat hbump hbody
    rename_i hquote
    split at h
    · rename_i hletter
      obtain ⟨lexeme, hrun, hlexeme, rfl⟩ := exists_of_runToken h
      exact .ident heat hbump hletter hrun hlexeme
    rename_i hletter
    split at h
    · rename_i hdigit
      obtain ⟨lexeme, hrun, hlexeme, rfl⟩ := exists_of_runToken h
      exact .number heat hbump hdigit hrun hlexeme
    rename_i hdigit
    obtain ⟨_, _, hget, h⟩ := bind_eq_ok_iff.1 h
    obtain ⟨rfl, rfl⟩ := get_eq_ok_iff.1 hget
    obtain ⟨rfl, rfl⟩ := pure_eq_ok_iff.1 h
    exact .unknown heat hbump hp hquote hletter hdigit

theorem steps_of_token {c c' : Cursor} {r : Except LexError Token} (h : c.token = .ok r c') :
    TokenSteps c r c' := by
  unfold token at h
  obtain ⟨_, c₁, heat, h⟩ := bind_eq_ok_iff.1 h
  obtain ⟨_, c₂, hget, h⟩ := bind_eq_ok_iff.1 h
  obtain ⟨b, c₃, hbump, h⟩ := bind_eq_ok_iff.1 h
  obtain ⟨rfl, rfl⟩ := get_eq_ok_iff.1 hget
  cases b with
  | none =>
    obtain ⟨rfl, rfl⟩ := pure_eq_ok_iff.1 h
    exact .eof heat hbump
  | some b => exact steps_of_tokenFrom heat hbump h

/-! ## What a scan leaves -/

theorem reads_of_segment {start : Nat} {c c' : Cursor} {s : Segment}
    (h : c.segment start = .ok s c') : c.Reads c' := by
  cases steps_of_segment h with
  | closed hskip hbump _ => exact (reads_of_skipToDelimiter hskip).trans (reads_of_bump hbump)
  | escaped hskip hbump hbump' | lone hskip hbump hbump' =>
    exact (reads_of_skipToDelimiter hskip).trans
      ((reads_of_bump hbump).trans (reads_of_bump hbump'))
  | bufferEnd hskip => exact reads_of_skipToDelimiter hskip

theorem reads_of_stringBody {start : Nat} {c c' : Cursor} {body : Option (List UInt8)}
    (h : c.stringBody start = .ok body c') : c.Reads c' := by
  fun_induction stringBody start c with
  | case1 _ _ _ h₁ | case3 _ _ h₁ =>
    obtain ⟨-, rfl⟩ := EStateM.Result.ok.inj h
    exact reads_of_segment h₁
  | case2 _ _ h₁ ih => exact (reads_of_segment h₁).trans (ih h)
  | case4 => simp at h

/-- The first byte of a token is read behind the blanks, and the rest of the token behind it. -/
theorem TokenSteps.exists_bump {c c' : Cursor} {r : Except LexError Token} (h : TokenSteps c r c') :
    ∃ c₁ c₂ b, c.eatWhile Byte.hasBlankFlag = .ok () c₁ ∧ c₁.bump = .ok b c₂ ∧ c₂.Reads c' ∧
      (b = none → r = .ok .eof) := by
  cases h with
  | eof heat hbump => exact ⟨_, _, _, heat, hbump, .refl _, fun _ => rfl⟩
  | punctuation heat hbump | unknown heat hbump =>
    exact ⟨_, _, _, heat, hbump, .refl _, fun h => by cases h⟩
  | string heat hbump hbody | unterminated heat hbump hbody =>
    exact ⟨_, _, _, heat, hbump, reads_of_stringBody hbody, fun h => by cases h⟩
  | ident heat hbump _ hrun | number heat hbump _ hrun =>
    exact ⟨_, _, _, heat, hbump, reads_of_eatWhile hrun, fun h => by cases h⟩

theorem reads_of_token {c c' : Cursor} {r : Except LexError Token} (h : c.token = .ok r c') :
    c.Reads c' := by
  obtain ⟨c₁, c₂, b, heat, hbump, hreads, -⟩ := (steps_of_token h).exists_bump
  exact (reads_of_eatWhile heat).trans ((reads_of_bump hbump).trans hreads)

/-- A token other than the end of the source takes at least one byte. -/
theorem rest_length_lt_of_token {c c' : Cursor} {t : Token} (h : c.token = .ok (.ok t) c')
    (ht : t.isEof = false) : c'.rest.length < c.rest.length := by
  obtain ⟨c₁, c₂, b, heat, hbump, hreads, heof⟩ := (steps_of_token h).exists_bump
  cases b with
  | none =>
    cases heof rfl
    cases ht
  | some b =>
    have l₁ := (reads_of_eatWhile heat).rest_length_le
    have l₂ := hreads.rest_length_le
    have l₃ := congrArg List.length (rest_of_bump_some hbump)
    simp only [List.length_cons] at l₃
    omega

end Cursor

end FrontEnd
