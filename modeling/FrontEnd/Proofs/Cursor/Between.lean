import FrontEnd.Cursor.Basic
import FrontEnd.Proofs.Position.Reached

/-!
# Cursors between two halves of a buffer

A cursor over a buffer is determined by what it has read: `between done rest` has read `done`, has
`rest` left, and stands at the position after `done`. Over a buffer of at most `2 ^ 32 - 2` bytes
each operation answers, and moves from one such cursor to another:

* `bump_between`, `bump_between_nil`: one byte further, or nowhere at the end;
* `eatWhile_between`: past the bytes of a class;
* `skipToDelimiter_between`: to the next delimiter;
* `slice_between`: the bytes cut out of what was read.
-/

namespace FrontEnd

namespace Cursor

/-- The cursor that has read `done` and has `rest` left. -/
def between (done rest : List UInt8) : Cursor where
  read := done.reverse
  rest := rest
  pos := done.length
  position := .after done
  pos_eq := by simp

variable {done rest : List UInt8}

theorem ofList_eq_between (bytes : List UInt8) : ofList bytes = between [] bytes := rfl

@[simp] theorem rest_between : (between done rest).rest = rest := rfl

@[simp] theorem pos_between : (between done rest).pos = done.length := rfl

@[simp] theorem position_between : (between done rest).position = .after done := rfl

/-- Reading `bs` moves it over to what has been read. -/
theorem past_between (bs rest' : List UInt8) :
    (between done rest).past bs rest' (.after (done ++ bs)) = between (done ++ bs) rest' := by
  simp only [past, between, List.reverse_append, List.length_append]

theorem bump_between {b : UInt8} (h : (done ++ b :: rest).length ≤ 2 ^ 32 - 2) :
    (between done (b :: rest)).bump = .ok (some b) (between (done ++ [b]) rest) := by
  have ha : Position.advance b (.after done) = .ok () (.after (done ++ [b])) :=
    Position.advance_after (by simp only [List.length_append, List.length_cons] at h; omega)
  simp only [bump, rest_between, position_between, ha, past_between]

theorem bump_between_nil : (between done []).bump = .ok none (between done []) := rfl

theorem eatWhile_between (p : UInt8 → Bool) (h : (done ++ rest).length ≤ 2 ^ 32 - 2) :
    (between done rest).eatWhile p =
      .ok () (between (done ++ rest.takeWhile p) (rest.dropWhile p)) := by
  induction rest generalizing done with
  | nil =>
    rw [eatWhile]
    simp
  | cons b rest ih =>
    have ha : Position.advance b (.after done) = .ok () (.after (done ++ [b])) :=
      Position.advance_after (by simp only [List.length_append, List.length_cons] at h; omega)
    rw [eatWhile]
    simp only [rest_between, position_between, ha, past_between]
    by_cases hb : p b
    · rw [if_pos hb, ih (by simpa using h), List.takeWhile_cons_of_pos hb,
        List.dropWhile_cons_of_pos hb, List.append_assoc, List.singleton_append]
    · rw [if_neg hb, List.takeWhile_cons_of_neg hb, List.dropWhile_cons_of_neg hb, List.append_nil]

theorem skipToDelimiter_between (h : (done ++ rest).length ≤ 2 ^ 32 - 2) :
    (between done rest).skipToDelimiter =
      .ok (.ofRest (rest.dropWhile (!Byte.isDelimiter ·)))
        (between (done ++ rest.takeWhile (!Byte.isDelimiter ·))
          (rest.dropWhile (!Byte.isDelimiter ·))) := by
  have hs : (rest.takeWhile (!Byte.isDelimiter ·)).length ≤ rest.length :=
    (List.takeWhile_prefix _).length_le
  have ha : Position.skip (rest.takeWhile (!Byte.isDelimiter ·)) (.after done) = .ok () _ :=
    Position.skip_after (by simp only [List.length_append] at h ⊢; omega)
  simp only [skipToDelimiter, rest_between, position_between, ha, past_between]

/-- A range of what has been read. -/
theorem slice_eq {c : Cursor} {start stop : Nat} (h₁ : start ≤ stop) (h₂ : stop ≤ c.pos) :
    c.slice start stop = .ok ((c.buffer.take stop).drop start) := by
  have hread : stop ≤ c.read.length := c.pos_eq ▸ h₂
  rw [slice, if_neg (by omega), if_neg (by omega), buffer, List.take_append_of_le_length (by simpa),
    List.take_reverse, List.drop_reverse, List.length_drop, c.pos_eq, Nat.sub_sub_self hread]

theorem slice_between {start stop : Nat} (h₁ : start ≤ stop) (h₂ : stop ≤ done.length) :
    (between done rest).slice start stop = .ok ((done.take stop).drop start) := by
  rw [slice_eq h₁ h₂, buffer, between, List.reverse_reverse, List.take_append_of_le_length h₂]

/-- The bytes read since `start` are those read last. -/
theorem sliceFrom_between (bs : List UInt8) :
    (between (done ++ bs) rest).sliceFrom done.length = .ok bs := by
  rw [sliceFrom, pos_between, slice_between (by simp) (Nat.le_refl _), List.take_length,
    List.drop_left]

end Cursor

end FrontEnd
