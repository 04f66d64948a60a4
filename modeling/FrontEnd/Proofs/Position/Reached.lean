import Mathlib.Algebra.Group.Nat.Defs
import FrontEnd.Position

/-!
# The position after some bytes

The line and the column after a stretch of bytes, counted on the bytes themselves: from the start of
a buffer (`lineAfter`, `columnAfter`), or from any position (`lineOver`, `columnOver`). `after` is
the position with the former. Reading keeps to it, whichever way the bytes are read:

* `advance_after`: one byte at a time;
* `skip_after`: a whole stretch at once.

Both need the counts to fit their words, which they do over at most `2 ^ 32 - 2` bytes
(`lineAfter_le`, `columnAfter_le`).
-/

namespace FrontEnd.Position

/-- The line after some bytes: one more than there are line feeds among them. -/
def lineAfter (bs : List UInt8) : Nat := 1 + bs.count Byte.newline

/-- The column after some bytes: on the first line one more than their number, and on a later line
the number of those after the last line feed. -/
def columnAfter (bs : List UInt8) : Nat :=
  if Byte.newline ∈ bs then lastLineLength bs else 1 + bs.length

/-- The line that `p` moves to over some bytes, however large. -/
def lineOver (p : Position) (bs : List UInt8) : Nat := p.line.toNat + bs.count Byte.newline

/-- The column that `p` moves to over some bytes, however large. -/
def columnOver (p : Position) (bs : List UInt8) : Nat :=
  if Byte.newline ∈ bs then lastLineLength bs else p.col.toNat + bs.length

/-- The position after some bytes. -/
def after (bs : List UInt8) : Position :=
  ⟨UInt32.ofNat (lineAfter bs), UInt32.ofNat (columnAfter bs)⟩

@[simp] theorem after_nil : after [] = start := rfl

/-! ## Counts -/

theorem lineOver_append (p : Position) (bs cs : List UInt8) :
    p.lineOver (bs ++ cs) = p.lineOver bs + cs.count Byte.newline := by
  simp only [lineOver, List.count_append, Nat.add_assoc]

theorem lineAfter_append (bs cs : List UInt8) :
    lineAfter (bs ++ cs) = lineAfter bs + cs.count Byte.newline := lineOver_append start bs cs

/-- A stretch without a line feed lengthens the last line. -/
theorem lastLineLength_append_of_not_mem (bs : List UInt8) {cs : List UInt8}
    (h : Byte.newline ∉ cs) : lastLineLength (bs ++ cs) = lastLineLength bs + cs.length := by
  simp only [lastLineLength, List.reverse_append]
  rw [List.takeWhile_append_of_pos (fun b hb => ?_), List.length_append, List.length_reverse,
    Nat.add_comm]
  simp only [bne_iff_ne, ne_eq]
  rintro rfl
  exact h (List.mem_reverse.1 hb)

/-- A stretch with a line feed hides the lines before it. -/
theorem lastLineLength_append_of_mem (bs : List UInt8) {cs : List UInt8} (h : Byte.newline ∈ cs) :
    lastLineLength (bs ++ cs) = lastLineLength cs := by
  simp only [lastLineLength, List.reverse_append]
  rw [List.takeWhile_append, if_neg]
  intro hl
  have hall := List.all_takeWhile (p := (· != Byte.newline)) (l := cs.reverse)
  rw [(List.takeWhile_prefix _).eq_of_length hl, List.all_eq_true] at hall
  simpa using hall _ (List.mem_reverse.2 h)

theorem columnOver_append (p : Position) (bs cs : List UInt8) :
    p.columnOver (bs ++ cs) =
      if Byte.newline ∈ cs then lastLineLength cs else p.columnOver bs + cs.length := by
  simp only [columnOver, List.mem_append, List.length_append]
  by_cases hc : Byte.newline ∈ cs
  · rw [if_pos (.inr hc), if_pos hc, lastLineLength_append_of_mem _ hc]
  · rw [if_neg hc]
    by_cases hb : Byte.newline ∈ bs
    · rw [if_pos (.inl hb), if_pos hb, lastLineLength_append_of_not_mem _ hc]
    · rw [if_neg (not_or.2 ⟨hb, hc⟩), if_neg hb, Nat.add_assoc]

theorem columnAfter_append (bs cs : List UInt8) :
    columnAfter (bs ++ cs) =
      if Byte.newline ∈ cs then lastLineLength cs else columnAfter bs + cs.length :=
  columnOver_append start bs cs

theorem lineAfter_le (bs : List UInt8) : lineAfter bs ≤ 1 + bs.length :=
  Nat.add_le_add_left List.count_le_length 1

theorem lastLineLength_le (bs : List UInt8) : lastLineLength bs ≤ bs.length := by
  simpa [lastLineLength] using
    (List.takeWhile_prefix (l := bs.reverse) (· != Byte.newline)).length_le

theorem columnAfter_le (bs : List UInt8) : columnAfter bs ≤ 1 + bs.length := by
  have := lastLineLength_le bs
  unfold columnAfter
  split <;> omega

theorem toNat_line_after {bs : List UInt8} (h : bs.length ≤ 2 ^ 32 - 2) :
    (after bs).line.toNat = lineAfter bs := by
  have := lineAfter_le bs
  exact UInt32.toNat_ofNat_of_lt' (show _ < 2 ^ 32 by omega)

theorem toNat_col_after {bs : List UInt8} (h : bs.length ≤ 2 ^ 32 - 2) :
    (after bs).col.toNat = columnAfter bs := by
  have := columnAfter_le bs
  exact UInt32.toNat_ofNat_of_lt' (show _ < 2 ^ 32 by omega)

/-- A sum of words is the word of the sum. -/
theorem add32_ofNat {a b : Nat} (h : a + b < 2 ^ 32) :
    Word.add32 (UInt32.ofNat a) (UInt32.ofNat b) = .ok (UInt32.ofNat (a + b)) := by
  rw [Word.add32_eq_ok, UInt32.toNat_ofNat_of_lt' (show a < 2 ^ 32 by omega),
    UInt32.toNat_ofNat_of_lt' (show b < 2 ^ 32 by omega), UInt32.toNat_ofNat_of_lt' h]

/-! ## Reading -/

/-- One byte moves the position to the one after it. -/
theorem advance_after {bs : List UInt8} {b : UInt8} (h : bs.length < 2 ^ 32 - 2) :
    advance b (after bs) = .ok () (after (bs ++ [b])) := by
  have hl := lineAfter_le bs
  have hc := columnAfter_le bs
  have one : (1 : UInt32) = UInt32.ofNat 1 := rfl
  unfold advance
  by_cases hb : b = Byte.newline
  · subst hb
    rw [if_pos rfl, after, one, add32_ofNat (by omega)]
    simp [after, lineAfter_append, columnAfter_append, lastLineLength]
  · rw [if_neg hb, after, one, add32_ofNat (by omega)]
    simp [after, lineAfter_append, columnAfter_append, Ne.symm hb, hb]

/-- A stretch counted at once moves the position to the one after it. -/
theorem skip_after {bs cs : List UInt8} (h : (bs ++ cs).length ≤ 2 ^ 32 - 2) :
    skip cs (after bs) = .ok () (after (bs ++ cs)) := by
  rw [List.length_append] at h
  have hl := lineAfter_le bs
  have hc := columnAfter_le bs
  have hn := List.count_le_length (a := Byte.newline) (l := cs)
  unfold skip
  by_cases hb : Byte.newline ∈ cs
  · rw [if_pos (List.contains_iff_mem.2 hb), after, add32_ofNat (by omega)]
    simp only [after, lineAfter_append, columnAfter_append, if_pos hb]
  · rw [if_neg (by simpa using hb), after, add32_ofNat (by omega)]
    simp only [after, lineAfter_append, columnAfter_append, if_neg hb,
      List.count_eq_zero_of_not_mem hb, Nat.add_zero]

end FrontEnd.Position
