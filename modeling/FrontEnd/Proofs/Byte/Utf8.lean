import FrontEnd.Byte.Utf8
import FrontEnd.Proofs.Grammar.Spelling

/-!
# The text of bytes

The reader of UTF-8, opened at any state: `charsFrom s bs` is the text of `bs` after a sequence that
is begun so far as `s` says. Two facts about it are what a reader of texts relies on:

* bytes of ASCII are read as themselves, whatever was begun before them, and a sequence that one of
  them cuts off is a replacement. No other byte goes into a character of ASCII, because the values
  that a sequence can still come to are above it (`State.Sound`). So the content of a string literal
  is still cut into plain characters and escapes after it has been read (`quotedText_chars`), and
  line feeds are read as such, and nothing else is (`count_chars_newline`);
* well-formed UTF-8 is read as it is (`chars_encode`), so it is known from its text
  (`eq_of_chars_eq`).
-/

namespace FrontEnd

/-- The text of the content of a string literal: characters that are no delimiter, and escapes,
which are a backslash and any character. -/
inductive QuotedText : List Char → Prop where
  | nil : QuotedText []
  | plain {c : Char} {cs : List Char} (hquote : c ≠ '"') (hslash : c ≠ '\\') (h : QuotedText cs) :
    QuotedText (c :: cs)
  | escape (c : Char) {cs : List Char} (h : QuotedText cs) : QuotedText ('\\' :: c :: cs)

namespace Byte.Utf8

/-! ## The reader from any state -/

/-- The text of a sequence that is cut off. -/
def State.cutOff : State → List Char
  | .start => []
  | .inside .. => [replacement]

/-- The text of bytes that follow a sequence begun so far. -/
def charsFrom : State → List UInt8 → List Char
  | s, [] => s.cutOff
  | s, b :: bs => (step ([], s) b).1.reverse ++ charsFrom (step ([], s) b).2 bs

/-- What a byte adds does not depend on the text before it. -/
theorem step_eq (text : List Char) (s : State) (b : UInt8) :
    step (text, s) b = ((step ([], s) b).1 ++ text, (step ([], s) b).2) := by
  cases s with
  | start => simp [step]
  | inside owed low high value =>
    simp only [step]
    split
    · cases owed <;> simp
    · simp

/-- The text of a fold, in order. -/
theorem foldl_step (text : List Char) (s : State) (bs : List UInt8) :
    let r := bs.foldl step (text, s)
    r.1.reverse ++ r.2.cutOff = text.reverse ++ charsFrom s bs := by
  induction bs generalizing text s with
  | nil => rfl
  | cons b bs ih =>
    rw [List.foldl_cons, step_eq, charsFrom, ← List.append_assoc, ← List.reverse_append]
    exact ih _ _

theorem chars_eq_charsFrom (bs : List UInt8) : chars bs = charsFrom .start bs := by
  refine Eq.trans ?_ (foldl_step [] .start bs)
  rw [chars]
  split <;> rename_i h <;> simp [h, State.cutOff]

section Rules

variable {b : UInt8} {bs : List UInt8} {owed : Nat} {low high : UInt8} {value : Nat}

/-- Between characters, a byte of ASCII is read as itself. -/
theorem charsFrom_start_ascii (hb : b < 0x80) :
    charsFrom .start (b :: bs) = Char.ofNat b.toNat :: charsFrom .start bs := by
  simp [charsFrom, step, begin, hb]

/-- A byte begins a longer sequence. -/
theorem charsFrom_start_of_begin {s : State} (h : begin b = (none, s)) :
    charsFrom .start (b :: bs) = charsFrom s bs := by
  simp [charsFrom, step, h]

/-- A byte begins no sequence. -/
theorem charsFrom_start_of_stray (h : begin b = (some replacement, .start)) :
    charsFrom .start (b :: bs) = replacement :: charsFrom .start bs := by
  simp [charsFrom, step, h]

/-- A byte that does not continue a sequence begins anew. -/
theorem charsFrom_inside_of_break (h : ¬(low ≤ b ∧ b ≤ high)) :
    charsFrom (.inside owed low high value) (b :: bs) =
      replacement :: charsFrom .start (b :: bs) := by
  simp [charsFrom, step, h]

/-- The last byte of a sequence. -/
theorem charsFrom_inside_last (h : low ≤ b ∧ b ≤ high) :
    charsFrom (.inside 0 low high value) (b :: bs) =
      Char.ofNat (64 * value + b.toNat % 64) :: charsFrom .start bs := by
  simp [charsFrom, step, h]

/-- A byte of a sequence that owes more of them. -/
theorem charsFrom_inside_next (h : low ≤ b ∧ b ≤ high) :
    charsFrom (.inside (owed + 1) low high value) (b :: bs) =
      charsFrom (.inside owed 0x80 0xbf (64 * value + b.toNat % 64)) bs := by
  simp [charsFrom, step, h]

end Rules

/-! ## Bytes of ASCII -/

/-- The least value that a sequence can still come to is above ASCII, and only bytes from `80` to
`BF` continue it. -/
def State.Sound : State → Prop
  | .start => True
  | .inside owed low high value =>
    0x80 ≤ low ∧ high ≤ 0xbf ∧ (2 ≤ value ∨ 0 < owed ∧ 2 ≤ 64 * value + low.toNat % 64)

instance (s : State) : Decidable s.Sound := by
  cases s <;> unfold State.Sound <;> infer_instance

section Continuation

variable {owed value : Nat} {low high b : UInt8}

/-- What goes on with a sound sequence is above ASCII. -/
theorem State.Sound.toNat_bounds (h : (State.inside owed low high value).Sound)
    (hin : low ≤ b ∧ b ≤ high) : low.toNat ≤ b.toNat ∧ b.toNat ≤ 0xbf ∧ 0x80 ≤ low.toNat :=
  ⟨hin.1, UInt8.le_trans hin.2 h.2.1, h.1⟩

/-- A sound sequence that is finished stands for no character of ASCII. -/
theorem State.Sound.le_value (h : (State.inside 0 low high value).Sound)
    (hin : low ≤ b ∧ b ≤ high) : 128 ≤ 64 * value + b.toNat % 64 := by
  have hbounds := h.toNat_bounds hin
  obtain ⟨-, -, hvalue⟩ := h
  omega

/-- A sound sequence stays so as it goes on. -/
theorem State.Sound.next (h : (State.inside (owed + 1) low high value).Sound)
    (hin : low ≤ b ∧ b ≤ high) :
    (State.inside owed 0x80 0xbf (64 * value + b.toNat % 64)).Sound := by
  have hbounds := h.toNat_bounds hin
  obtain ⟨-, -, hvalue⟩ := h
  exact ⟨by decide, by decide, .inl (by omega)⟩

end Continuation

/-- A byte above ASCII begins no sequence, or one that is sound. -/
theorem begin_cases : ∀ b, ¬b < 0x80 → begin b = (some replacement, .start) ∨
    (begin b).1 = none ∧ (begin b).2 ≠ .start ∧ (begin b).2.Sound :=
  forall_of_forall_lt (by decide +kernel)

/-- A byte after a character is one of its own, is replaced, or begins a sequence. -/
theorem charsFrom_start_cases (b : UInt8) (bs : List UInt8) :
    (b < 0x80 ∧ charsFrom .start (b :: bs) = Char.ofNat b.toNat :: charsFrom .start bs) ∨
      charsFrom .start (b :: bs) = replacement :: charsFrom .start bs ∨
      ∃ s : State, s.Sound ∧ s ≠ .start ∧ charsFrom .start (b :: bs) = charsFrom s bs := by
  by_cases hb : b < 0x80
  · exact .inl ⟨hb, charsFrom_start_ascii hb⟩
  rcases begin_cases b hb with hstray | ⟨hnone, hne, hsound⟩
  · exact .inr (.inl (charsFrom_start_of_stray hstray))
  · exact .inr (.inr ⟨_, hsound, hne, charsFrom_start_of_begin (Prod.ext hnone rfl)⟩)

theorem toNat_ofNat {n : Nat} (h : n.isValidChar) : (Char.ofNat n).toNat = n := by
  rw [Char.ofNat, dif_pos h]
  rfl

/-- A character of a number that is not its own. -/
theorem ofNat_ne {n : Nat} {c : Char} (hn : n ≠ c.toNat) (hc : c.toNat ≠ 0) : Char.ofNat n ≠ c := by
  rintro rfl
  by_cases hv : n.isValidChar
  · exact hn (by rw [toNat_ofNat hv])
  · exact hc (by rw [Char.ofNat, dif_neg hv]; rfl)

theorem ofNat_ne_of_not_delimiter : ∀ b, isDelimiter b = false →
    Char.ofNat b.toNat ≠ '"' ∧ Char.ofNat b.toNat ≠ '\\' :=
  forall_of_forall_lt (by decide +kernel)

/-- A character that is no delimiter, and then the text of content. -/
inductive PlainFirst : List Char → Prop where
  | mk {c : Char} {cs : List Char} (hquote : c ≠ '"') (hslash : c ≠ '\\') (h : QuotedText cs) :
    PlainFirst (c :: cs)

theorem PlainFirst.quotedText {cs : List Char} : PlainFirst cs → QuotedText cs
  | .mk hquote hslash h => .plain hquote hslash h

theorem PlainFirst.exists_cons {cs : List Char} :
    PlainFirst cs → ∃ c cs', cs = c :: cs' ∧ QuotedText cs'
  | .mk _ _ h => ⟨_, _, rfl, h⟩

theorem PlainFirst.of_replacement {cs : List Char} (h : QuotedText cs) :
    PlainFirst (replacement :: cs) :=
  .mk (by decide) (by decide) h

/-- A sequence that is finished stands for no delimiter. -/
theorem PlainFirst.of_value {n : Nat} {cs : List Char} (hn : 128 ≤ n) (h : QuotedText cs) :
    PlainFirst (Char.ofNat n :: cs) := by
  have hquote : '"'.toNat = 34 := rfl
  have hslash : '\\'.toNat = 92 := rfl
  exact .mk (ofNat_ne (by omega) (by omega)) (ofNat_ne (by omega) (by omega)) h

/-- Bytes are read as the text of content from between characters, and as one more character before
it from inside a sequence. -/
structure ReadAsContent (bs : List UInt8) : Prop where
  start : QuotedText (charsFrom .start bs)
  inside : ∀ s : State, s.Sound → s ≠ .start → PlainFirst (charsFrom s bs)

namespace ReadAsContent

variable {b : UInt8} {bs : List UInt8}

theorem nil : ReadAsContent [] where
  start := .nil
  inside s _ hs := by
    cases s with
    | start => exact absurd rfl hs
    | inside => exact .of_replacement .nil

/-- One byte of any kind is read as some character, and the bytes after it as content. -/
theorem exists_cons (h : ReadAsContent bs) (b : UInt8) :
    ∃ c cs, charsFrom .start (b :: bs) = c :: cs ∧ QuotedText cs := by
  rcases charsFrom_start_cases b bs with ⟨-, heq⟩ | heq | ⟨s, hsound, hs, heq⟩
  · exact ⟨_, _, heq, h.start⟩
  · exact ⟨_, _, heq, h.start⟩
  · exact heq ▸ (h.inside s hsound hs).exists_cons

/-- Inside a sequence a byte goes on with it, or cuts it off and is read as after anything else. -/
theorem cons_inside (h : ReadAsContent bs) (hb : QuotedText (charsFrom .start (b :: bs))) (s : State)
    (hsound : s.Sound) (hs : s ≠ .start) : PlainFirst (charsFrom s (b :: bs)) := by
  match s, hsound with
  | .start, _ => exact absurd rfl hs
  | .inside owed low high value, hsound =>
    by_cases hin : low ≤ b ∧ b ≤ high
    · cases owed with
      | zero =>
        rw [charsFrom_inside_last hin]
        exact .of_value (hsound.le_value hin) h.start
      | succ owed =>
        rw [charsFrom_inside_next hin]
        exact h.inside _ (hsound.next hin) (by simp)
    · rw [charsFrom_inside_of_break hin]
      exact .of_replacement hb

/-- A byte that is no delimiter is read as a character that is none, or goes into one. -/
theorem cons_plain (hb : Byte.isDelimiter b = false) (h : ReadAsContent bs) :
    ReadAsContent (b :: bs) := by
  have hstart : QuotedText (charsFrom .start (b :: bs)) := by
    rcases charsFrom_start_cases b bs with ⟨-, heq⟩ | heq | ⟨s, hsound, hs, heq⟩
    · obtain ⟨hquote, hslash⟩ := ofNat_ne_of_not_delimiter b hb
      exact heq ▸ .plain hquote hslash h.start
    · exact heq ▸ (PlainFirst.of_replacement h.start).quotedText
    · exact heq ▸ (h.inside s hsound hs).quotedText
  exact ⟨hstart, h.cons_inside hstart⟩

/-- A backslash is a character of its own, and takes the character that follows it. -/
theorem cons_escape (b : UInt8) (h : ReadAsContent bs) :
    ReadAsContent (Byte.backslash :: b :: bs) := by
  obtain ⟨c, cs, heq, hcs⟩ := h.exists_cons b
  have hstart : QuotedText (charsFrom .start (Byte.backslash :: b :: bs)) := by
    rw [charsFrom_start_ascii (by decide), heq]
    exact .escape c hcs
  refine ⟨hstart, fun s hsound hs => ?_⟩
  match s, hsound with
  | .start, _ => exact absurd rfl hs
  | .inside owed low high value, ⟨hlow, _, _⟩ =>
    have hout : ¬(low ≤ Byte.backslash ∧ Byte.backslash ≤ high) := fun hin =>
      absurd (UInt8.le_trans hlow hin.1) (by decide)
    rw [charsFrom_inside_of_break hout]
    exact .of_replacement hstart

/-- The induction is on the content, and carries both states: an escape may leave the reader inside
the sequence that its second byte begins. -/
theorem of_content (h : Content bs) : ReadAsContent bs := by
  induction h with
  | nil => exact nil
  | plain hb _ ih => exact cons_plain hb ih
  | escape b _ ih => exact cons_escape b ih

end ReadAsContent

/-- The content of a literal is read as the text of content. -/
theorem quotedText_chars {bs : List UInt8} (h : Content bs) : QuotedText (chars bs) :=
  chars_eq_charsFrom bs ▸ (ReadAsContent.of_content h).start

/-- Bytes of ASCII are read one by one. -/
theorem chars_ascii {bs : List UInt8} (h : ∀ b ∈ bs, b < 0x80) :
    chars bs = bs.map fun b => Char.ofNat b.toNat := by
  rw [chars_eq_charsFrom]
  induction bs with
  | nil => rfl
  | cons b bs ih =>
    rw [charsFrom_start_ascii (h b List.mem_cons_self),
      ih fun x hx => h x (List.mem_cons_of_mem _ hx), List.map_cons]

/-! ## Line feeds -/

theorem ofNat_eq_newline_iff : ∀ b : UInt8, Char.ofNat b.toNat = '\n' ↔ b = newline :=
  forall_of_forall_lt (by decide +kernel)

theorem ne_newline_of_not_ascii : ∀ b : UInt8, ¬b < 0x80 → b ≠ newline :=
  forall_of_forall_lt (by decide +kernel)

/-- From any state that is sound, line feeds alone are read as line feeds. -/
theorem count_charsFrom_newline {s : State} (hs : s.Sound) (bs : List UInt8) :
    (charsFrom s bs).count '\n' = bs.count newline := by
  induction bs generalizing s with
  | nil => cases s <;> rfl
  | cons b bs ih =>
    have hstart : (charsFrom .start (b :: bs)).count '\n' = (b :: bs).count newline := by
      by_cases hb : b < 0x80
      · simp only [charsFrom_start_ascii hb, List.count_cons, ih (s := .start) trivial, beq_iff_eq,
          ofNat_eq_newline_iff]
      · rw [List.count_cons_of_ne (ne_newline_of_not_ascii b hb)]
        rcases begin_cases b hb with hstray | ⟨hnone, -, hsound⟩
        · rw [charsFrom_start_of_stray hstray, List.count_cons_of_ne (by decide),
            ih (s := .start) trivial]
        · rw [charsFrom_start_of_begin (Prod.ext hnone rfl), ih hsound]
    match s, hs with
    | .start, _ => exact hstart
    | .inside owed low high value, hs =>
      by_cases hin : low ≤ b ∧ b ≤ high
      · have hb : ¬b < 0x80 := UInt8.not_lt.2 (UInt8.le_trans hs.1 hin.1)
        rw [List.count_cons_of_ne (ne_newline_of_not_ascii b hb)]
        cases owed with
        | zero =>
          have hvalue := hs.le_value hin
          have hfeed : '\n'.toNat = 10 := rfl
          rw [charsFrom_inside_last hin, List.count_cons_of_ne (ofNat_ne (by omega) (by omega)),
            ih (s := .start) trivial]
        | succ owed => rw [charsFrom_inside_next hin, ih (hs.next hin)]
      · rw [charsFrom_inside_of_break hin, List.count_cons_of_ne (by decide), hstart]

/-- A text has the line feeds of its bytes. -/
theorem count_chars_newline (bs : List UInt8) : (chars bs).count '\n' = bs.count newline := by
  rw [chars_eq_charsFrom, count_charsFrom_newline (s := .start) trivial]

/-! ## Well-formed UTF-8 -/

/-- The bytes are the encoding of some characters. -/
def Valid (bs : List UInt8) : Prop := ∃ cs : List Char, cs.flatMap String.utf8EncodeChar = bs

theorem begin_two : ∀ b, 0xc2 ≤ b → b < 0xe0 →
    begin b = (none, .inside 0 0x80 0xbf (b.toNat % 32)) :=
  forall_of_forall_lt (by decide +kernel)

theorem begin_three : ∀ b, 0xe0 ≤ b → b < 0xf0 →
    begin b = (none, .inside 1 (if b = 0xe0 then 0xa0 else 0x80) (if b = 0xed then 0x9f else 0xbf)
      (b.toNat % 16)) :=
  forall_of_forall_lt (by decide +kernel)

theorem begin_four : ∀ b, 0xf0 ≤ b → b ≤ 0xf4 →
    begin b = (none, .inside 2 (if b = 0xf0 then 0x90 else 0x80) (if b = 0xf4 then 0x8f else 0xbf)
      (b.toNat % 8)) :=
  forall_of_forall_lt (by decide +kernel)

/-- The byte of a sequence that carries the last six bits of `n`. -/
def tail (n : Nat) : UInt8 := .ofNat (n % 0x40 + 0x80)

section Encode

variable {owed value n : Nat} {low high : UInt8} (bs : List UInt8)

theorem toNat_tail (n : Nat) : (tail n).toNat = n % 64 + 128 := by
  rw [tail, UInt8.toNat_ofNat']
  omega

theorem tail_bits (n : Nat) : (n % 64 + 128) % 64 = n % 64 := by omega

theorem charsFrom_tail_last (value n : Nat) :
    charsFrom (.inside 0 0x80 0xbf value) (tail n :: bs) =
      Char.ofNat (64 * value + n % 64) :: charsFrom .start bs := by
  have hin : 0x80 ≤ tail n ∧ tail n ≤ 0xbf := by
    simp only [UInt8.le_iff_toNat_le, toNat_tail, UInt8.reduceToNat]
    omega
  rw [charsFrom_inside_last hin, toNat_tail, tail_bits]

/-- The second byte of a sequence of more than two, whose range the first byte may narrow. -/
theorem charsFrom_tail (hlow : low.toNat ≤ n % 64 + 128) (hhigh : n % 64 + 128 ≤ high.toNat) :
    charsFrom (.inside (owed + 1) low high value) (tail n :: bs) =
      charsFrom (.inside owed 0x80 0xbf (64 * value + n % 64)) bs := by
  have hin : low ≤ tail n ∧ tail n ≤ high := by
    simp only [UInt8.le_iff_toNat_le, toNat_tail]
    exact ⟨hlow, hhigh⟩
  rw [charsFrom_inside_next hin, toNat_tail, tail_bits]

/-- A sequence of two bytes. -/
theorem charsFrom_two (h : 0x7f < n) (h' : n ≤ 0x7ff) :
    charsFrom .start (.ofNat (n / 64 % 0x20 + 0xc0) :: tail n :: bs) =
      Char.ofNat n :: charsFrom .start bs := by
  have hlead : (UInt8.ofNat (n / 64 % 0x20 + 0xc0)).toNat = n / 64 + 192 := by
    rw [UInt8.toNat_ofNat']
    omega
  generalize UInt8.ofNat (n / 64 % 0x20 + 0xc0) = b at *
  have hbegin := begin_two b (by rw [UInt8.le_iff_toNat_le, hlead]; simp; omega)
    (by rw [UInt8.lt_iff_toNat_lt, hlead]; simp; omega)
  have hvalue : 64 * ((n / 64 + 192) % 32) + n % 64 = n := by omega
  rw [charsFrom_start_of_begin hbegin, charsFrom_tail_last, hlead, hvalue]

/-- A sequence of three bytes. The narrower ranges hold, because the number is not below `800` and
is no surrogate. -/
theorem charsFrom_three (h : 0x7ff < n) (h' : n ≤ 0xffff) (hn : n < 0xd800 ∨ 0xdfff < n) :
    charsFrom .start (.ofNat (n / 4096 % 0x10 + 0xe0) :: tail (n / 64) :: tail n :: bs) =
      Char.ofNat n :: charsFrom .start bs := by
  have hlead : (UInt8.ofNat (n / 4096 % 0x10 + 0xe0)).toNat = n / 4096 + 224 := by
    rw [UInt8.toNat_ofNat']
    omega
  generalize UInt8.ofNat (n / 4096 % 0x10 + 0xe0) = b at *
  have hbegin := begin_three b (by rw [UInt8.le_iff_toNat_le, hlead]; simp)
    (by rw [UInt8.lt_iff_toNat_lt, hlead]; simp; omega)
  have hlow : (if b = 0xe0 then 0xa0 else 0x80 : UInt8).toNat ≤ n / 64 % 64 + 128 := by
    split <;> simp_all [← UInt8.toNat_inj]
    omega
  have hhigh : n / 64 % 64 + 128 ≤ (if b = 0xed then 0x9f else 0xbf : UInt8).toNat := by
    split <;> simp_all [← UInt8.toNat_inj] <;> omega
  have hvalue : 64 * (64 * ((n / 4096 + 224) % 16) + n / 64 % 64) + n % 64 = n := by omega
  rw [charsFrom_start_of_begin hbegin, charsFrom_tail _ hlow hhigh, charsFrom_tail_last, hlead,
    hvalue]

/-- A sequence of four bytes. The narrower ranges hold, because the number is above `FFFF` and not
above `10FFFF`. -/
theorem charsFrom_four (h : 0xffff < n) (h' : n < 0x110000) :
    charsFrom .start (.ofNat (n / 262144 % 0x08 + 0xf0) :: tail (n / 4096) :: tail (n / 64) ::
      tail n :: bs) = Char.ofNat n :: charsFrom .start bs := by
  have hlead : (UInt8.ofNat (n / 262144 % 0x08 + 0xf0)).toNat = n / 262144 + 240 := by
    rw [UInt8.toNat_ofNat']
    omega
  generalize UInt8.ofNat (n / 262144 % 0x08 + 0xf0) = b at *
  have hbegin := begin_four b (by rw [UInt8.le_iff_toNat_le, hlead]; simp)
    (by rw [UInt8.le_iff_toNat_le, hlead]; simp; omega)
  have hlow : (if b = 0xf0 then 0x90 else 0x80 : UInt8).toNat ≤ n / 4096 % 64 + 128 := by
    split <;> simp_all [← UInt8.toNat_inj]
    omega
  have hhigh : n / 4096 % 64 + 128 ≤ (if b = 0xf4 then 0x8f else 0xbf : UInt8).toNat := by
    split <;> simp_all [← UInt8.toNat_inj] <;> omega
  have hvalue : 64 * (64 * (64 * ((n / 262144 + 240) % 8) + n / 4096 % 64) + n / 64 % 64) + n % 64 =
      n := by omega
  rw [charsFrom_start_of_begin hbegin, charsFrom_tail _ hlow hhigh,
    charsFrom_tail _ (by simp) (by simp; omega), charsFrom_tail_last, hlead, hvalue]

/-- The encoding of a character is read as that character. -/
theorem charsFrom_encode (c : Char) :
    charsFrom .start (String.utf8EncodeChar c ++ bs) = c :: charsFrom .start bs := by
  have hvalid : c.val.toNat < 0xd800 ∨ 0xdfff < c.val.toNat ∧ c.val.toNat < 0x110000 := c.valid
  have hc : Char.ofNat c.val.toNat = c := Char.ofNat_toNat c
  simp only [String.utf8EncodeChar]
  split
  · rename_i hascii
    have hb : (UInt8.ofNat c.val.toNat).toNat = c.val.toNat := by
      rw [UInt8.toNat_ofNat']
      omega
    rw [List.singleton_append, charsFrom_start_ascii, hb, hc]
    rw [UInt8.lt_iff_toNat_lt, hb]
    exact Nat.lt_succ_of_le hascii
  split
  · exact (charsFrom_two bs (by omega) (by omega)).trans (by rw [hc])
  split
  · exact (charsFrom_three bs (by omega) (by omega) (by omega)).trans (by rw [hc])
  · exact (charsFrom_four bs (by omega) (by omega)).trans (by rw [hc])

end Encode

/-- Well-formed UTF-8 is read as the characters that it encodes. -/
theorem chars_encode (cs : List Char) : chars (cs.flatMap String.utf8EncodeChar) = cs := by
  rw [chars_eq_charsFrom]
  induction cs with
  | nil => rfl
  | cons c cs ih => rw [List.flatMap_cons, charsFrom_encode, ih]

/-- Characters are written with as many line feeds as there are among them. -/
theorem count_encode_newline (cs : List Char) :
    (cs.flatMap String.utf8EncodeChar).count newline = cs.count '\n' := by
  rw [← count_chars_newline, chars_encode]

/-- Well-formed UTF-8 is known from its text. -/
theorem eq_of_chars_eq {bs bs' : List UInt8} (h : Valid bs) (h' : Valid bs')
    (heq : chars bs = chars bs') : bs = bs' := by
  obtain ⟨cs, rfl⟩ := h
  obtain ⟨cs', rfl⟩ := h'
  rw [chars_encode, chars_encode] at heq
  rw [heq]

end Byte.Utf8

end FrontEnd
