import FrontEnd.Cursor.Session
import FrontEnd.Proofs.Tokenizer.Course

/-!
# Positions are exact

The position that a cursor or a tokenizer tells is that of the bytes it has read, counted on the
buffer itself (`Position.Exact`), and so the same whichever way these bytes were read
(`Position.Exact.unique`). Over at most `2 ^ 32 - 2` bytes this holds of every state that is reached:

* `Cursor.Session.step_within`: an operation of a cursor moves it within its buffer, and does not
  fault unless it cuts out bytes that have not been read;
* `Tokenizer.within_of_scan`: a scan moves the cursor of its tokenizer in the same way;
* `reached_exact`: whatever the operations and the copies restored, every position is exact.
-/

namespace FrontEnd

/-! ## The position of a prefix -/

namespace Position

/-- Byte `i` is the last line feed of `bs`. -/
def LastNewline (bs : List UInt8) (i : Nat) : Prop :=
  bs[i]? = some Byte.newline ∧ ∀ j > i, bs[j]? ≠ some Byte.newline

/-- `p` is the line and the column after the first `n` bytes of `src`. Lines are counted from 1.
Columns are counted from 1 on the first line, and from 0 behind a line feed. -/
structure Exact (src : List UInt8) (n : Nat) (p : Position) : Prop where
  le_length : n ≤ src.length
  line_eq : p.line.toNat = 1 + (src.take n).count Byte.newline
  col_eq_of_not_mem : Byte.newline ∉ src.take n → p.col.toNat = 1 + n
  col_eq_of_last : ∀ i, LastNewline (src.take n) i → p.col.toNat = n - i - 1

theorem exists_lastNewline {bs : List UInt8} (h : Byte.newline ∈ bs) : ∃ i, LastNewline bs i := by
  induction bs with
  | nil => cases h
  | cons b bs ih =>
    by_cases hmem : Byte.newline ∈ bs
    · obtain ⟨i, hbyte, hlast⟩ := ih hmem
      refine ⟨i + 1, hbyte, fun j hj => ?_⟩
      obtain ⟨k, rfl⟩ := Nat.exists_eq_succ_of_ne_zero (Nat.ne_zero_of_lt hj)
      exact hlast k (Nat.lt_of_succ_lt_succ hj)
    · obtain rfl : Byte.newline = b := (List.mem_cons.1 h).resolve_right hmem
      refine ⟨0, rfl, fun j hj hbyte => ?_⟩
      obtain ⟨k, rfl⟩ := Nat.exists_eq_succ_of_ne_zero (Nat.ne_zero_of_lt hj)
      exact hmem (List.mem_of_getElem? hbyte)

/-- The column counts the bytes behind the last line feed. -/
theorem LastNewline.columnAfter_eq {bs : List UInt8} {i : Nat} (h : LastNewline bs i) :
    columnAfter bs = bs.length - i - 1 := by
  obtain ⟨hbyte, hlast⟩ := h
  obtain ⟨hi, hget⟩ := List.getElem?_eq_some_iff.1 hbyte
  have hsplit : bs = bs.take (i + 1) ++ bs.drop (i + 1) := (List.take_append_drop _ _).symm
  have hmem : Byte.newline ∉ bs.drop (i + 1) := fun hmem => by
    obtain ⟨k, hk⟩ := List.mem_iff_getElem?.1 hmem
    rw [List.getElem?_drop] at hk
    exact hlast _ (by omega) hk
  have htake : bs.take (i + 1) = bs.take i ++ [Byte.newline] := by
    rw [List.take_succ_eq_append_getElem hi, hget]
  have hline : columnAfter (bs.take (i + 1)) = 0 := by
    rw [htake, columnAfter_append, if_pos (List.mem_singleton.2 rfl)]
    rfl
  rw [hsplit, columnAfter_append, if_neg hmem, hline, List.length_append, List.length_take,
    List.length_drop]
  omega

theorem exact_after {done rest : List UInt8} (h : (done ++ rest).length ≤ 2 ^ 32 - 2) :
    (after done).Exact (done ++ rest) done.length := by
  have hdone : done.length ≤ 2 ^ 32 - 2 := by
    rw [List.length_append] at h
    omega
  refine ⟨by simp, ?_, fun hmem => ?_, fun i hlast => ?_⟩
  · rw [toNat_line_after hdone, List.take_left, lineAfter]
  · rw [List.take_left] at hmem
    rw [toNat_col_after hdone, columnAfter, if_neg hmem]
  · rw [List.take_left] at hlast
    rw [toNat_col_after hdone, hlast.columnAfter_eq]

/-- The column that is exact, by the bytes read alone. -/
theorem Exact.toNat_col_eq {src : List UInt8} {n : Nat} {p : Position} (h : p.Exact src n) :
    p.col.toNat = columnAfter (src.take n) := by
  have hlength : (src.take n).length = n := by
    rw [List.length_take, Nat.min_eq_left h.le_length]
  by_cases hmem : Byte.newline ∈ src.take n
  · obtain ⟨i, hlast⟩ := exists_lastNewline hmem
    rw [h.col_eq_of_last i hlast, hlast.columnAfter_eq, hlength]
  · rw [h.col_eq_of_not_mem hmem, columnAfter, if_neg hmem, hlength]

/-- A position is exact where it is so in numbers. -/
theorem exact_iff {src : List UInt8} {n : Nat} {p : Position} :
    p.Exact src n ↔ n ≤ src.length ∧ p.line.toNat = lineAfter (src.take n) ∧
      p.col.toNat = columnAfter (src.take n) := by
  refine ⟨fun h => ⟨h.le_length, h.line_eq, h.toNat_col_eq⟩, fun ⟨hn, hline, hcol⟩ => ?_⟩
  have hlength : (src.take n).length = n := by rw [List.length_take, Nat.min_eq_left hn]
  refine ⟨hn, hline, fun hmem => ?_, fun i hlast => ?_⟩
  · rw [hcol, columnAfter, if_neg hmem, hlength]
  · rw [hcol, hlast.columnAfter_eq, hlength]

/-- After the same bytes there is one exact position. -/
theorem Exact.unique {src src' : List UInt8} {n n' : Nat} {p p' : Position} (h : p.Exact src n)
    (h' : p'.Exact src' n') (hread : src'.take n' = src.take n) : p' = p := by
  have hline : p'.line = p.line := by
    rw [← UInt32.toNat_inj, h'.line_eq, h.line_eq, hread]
  have hcol : p'.col = p.col := by
    rw [← UInt32.toNat_inj, h'.toNat_col_eq, h.toNat_col_eq, hread]
  exact congrArg₂ Position.mk hline hcol

end Position

/-! ## Cursors -/

namespace Cursor

/-- The operation cuts out bytes. It moves no cursor, and asks for bytes that may not be there. -/
def Op.isSlice : Op → Bool
  | .slice _ _ | .sliceFrom _ => true
  | .bump | .current | .eatWhile _ | .skipToDelimiter | .reset | .save | .restore => false

/-- The states that the uses of cursors over `src` reach: a fresh one, and what an operation leaves
of a state reached before. The copy that it may restore is any state reached before. -/
inductive Reachable (src : List UInt8) : Cursor → Prop where
  | fresh : Reachable src (ofList src)
  | step {c saved : Cursor} (hc : Reachable src c) (hsaved : Reachable src saved) (op : Op) :
    Reachable src (Session.step ⟨c, saved⟩ op).2.cursor

/-- The cursor is between two halves of `src`. -/
def Within (src : List UInt8) (c : Cursor) : Prop :=
  ∃ done rest, done ++ rest = src ∧ c = between done rest

theorem rewound_between (done rest : List UInt8) :
    (between done rest).rewound = between [] (done ++ rest) := by
  rw [rewound, buffer, between, List.reverse_reverse, ofList_eq_between]

/-- An operation moves the cursor within its buffer. It faults only where it cuts out bytes. -/
theorem Session.step_within {src : List UInt8} (hlen : src.length ≤ 2 ^ 32 - 2) {c saved : Cursor}
    (hc : c.Within src) (hsaved : saved.Within src) (op : Op) :
    (Session.step ⟨c, saved⟩ op).2.cursor.Within src ∧
      (op.isSlice = false → ∀ f, (Session.step ⟨c, saved⟩ op).1 ≠ .fault f) := by
  obtain ⟨done, rest, rfl, rfl⟩ := hc
  cases op with
  | bump =>
    cases rest with
    | nil => exact ⟨⟨done, [], rfl, rfl⟩, fun _ _ => nofun⟩
    | cons b rest =>
      simp only [step, run, bump_between hlen]
      exact ⟨⟨done ++ [b], rest, by simp, rfl⟩, fun _ _ => nofun⟩
  | eatWhile p =>
    simp only [step, run, eatWhile_between p hlen]
    exact ⟨⟨_, _, by rw [List.append_assoc, List.takeWhile_append_dropWhile], rfl⟩,
      fun _ _ => nofun⟩
  | skipToDelimiter =>
    simp only [step, run, skipToDelimiter_between hlen]
    exact ⟨⟨_, _, by rw [List.append_assoc, List.takeWhile_append_dropWhile], rfl⟩,
      fun _ _ => nofun⟩
  | current => exact ⟨⟨done, rest, rfl, rfl⟩, fun _ _ => nofun⟩
  | slice start stop =>
    simp only [step, ask]
    refine ⟨?_, nofun⟩
    split <;> exact ⟨done, rest, rfl, rfl⟩
  | sliceFrom start =>
    simp only [step, ask]
    refine ⟨?_, nofun⟩
    split <;> exact ⟨done, rest, rfl, rfl⟩
  | reset => exact ⟨⟨[], _, rfl, rewound_between done rest⟩, fun _ _ => nofun⟩
  | save => exact ⟨⟨done, rest, rfl, rfl⟩, fun _ _ => nofun⟩
  | restore => exact ⟨hsaved, fun _ _ => nofun⟩

theorem Reachable.within {src : List UInt8} (hlen : src.length ≤ 2 ^ 32 - 2) {c : Cursor}
    (h : Reachable src c) : c.Within src := by
  induction h with
  | fresh => exact ⟨[], src, rfl, rfl⟩
  | step _ _ op ihc ihs => exact (Session.step_within hlen ihc ihs op).1

/-- Only saving replaces the copy. -/
theorem Session.saved_step (s : Session) (op : Op) :
    (s.step op).2.saved = s.cursor ∨ (s.step op).2.saved = s.saved := by
  cases op with
  | save => exact .inl rfl
  | bump | eatWhile | skipToDelimiter =>
    right
    simp only [step, run]
    split <;> rfl
  | slice | sliceFrom =>
    right
    simp only [step, ask]
    split <;> rfl
  | current | reset | restore => exact .inr rfl

/-- A session reaches such states alone. -/
theorem Session.reachable_after (src : List UInt8) (ops : List Op) :
    Reachable src ((Session.ofList src).after ops).cursor := by
  suffices h : ∀ s : Session, Reachable src s.cursor → Reachable src s.saved →
      Reachable src (s.after ops).cursor from h _ .fresh .fresh
  intro s hc hs
  induction ops generalizing s with
  | nil => exact hc
  | cons op ops ih =>
    refine ih _ (.step hc hs op) ?_
    rcases s.saved_step op with h | h <;> rw [h]
    · exact hc
    · exact hs

theorem Within.exact {src : List UInt8} (hlen : src.length ≤ 2 ^ 32 - 2) {c : Cursor}
    (h : c.Within src) : c.position.Exact src c.pos := by
  obtain ⟨done, rest, rfl, rfl⟩ := h
  exact Position.exact_after hlen

end Cursor

/-! ## Tokenizers -/

namespace Tokenizer

/-- A scan moves the cursor within its buffer. -/
theorem within_of_scan {src : List UInt8} (hlen : src.length ≤ 2 ^ 32 - 2) {t t' : Tokenizer}
    {r : Except LexError Token} (h : t.scan = .ok r t') (ht : t.cursor.Within src) :
    t'.cursor.Within src := by
  obtain ⟨c, failed⟩ := t
  obtain ⟨done, rest, rfl, rfl⟩ := ht
  cases failed with
  | some e =>
    obtain ⟨-, rfl⟩ := EStateM.Result.ok.inj h
    exact ⟨done, rest, rfl, rfl⟩
  | none =>
    change (between done rest).scan = _ at h
    rcases scan_cases hlen with ⟨-, hscan⟩ | ⟨gap, body, e, -, -, -, -, hscan⟩ | ⟨p, rest', rfl, hscan⟩
    · rw [hscan] at h
      obtain ⟨-, rfl⟩ := EStateM.Result.ok.inj h
      exact ⟨_, [], List.append_nil _, rfl⟩
    · rw [hscan] at h
      obtain ⟨-, rfl⟩ := EStateM.Result.ok.inj h
      exact ⟨_, [], List.append_nil _, rfl⟩
    · rw [hscan] at h
      obtain ⟨-, rfl⟩ := EStateM.Result.ok.inj h
      exact ⟨_, rest', List.append_assoc .., rfl⟩

theorem Reachable.within {src : List UInt8} (hlen : src.length ≤ 2 ^ 32 - 2) {t : Tokenizer}
    (h : Reachable src t) : t.cursor.Within src := by
  obtain ⟨tokens, ending, hc⟩ := exists_course src hlen
  obtain ⟨i, hi⟩ := hc.exists_afterScans h
  rw [hi]
  clear h hi
  induction i with
  | zero => exact ⟨[], src, rfl, rfl⟩
  | succ i ih => exact within_of_scan hlen (hc.scan_eq i) ih

end Tokenizer

/-! ## Every position -/

/-- A cursor or a tokenizer over `src` comes to offset `n`, and tells the position `p` there. -/
inductive Position.Reached (src : List UInt8) : Nat → Position → Prop where
  | cursor {c : Cursor} (h : Cursor.Reachable src c) : Reached src c.pos c.position
  | tokenizer {t : Tokenizer} (h : Tokenizer.Reachable src t) : Reached src t.offset t.position

theorem Position.Reached.exact {src : List UInt8} (hlen : src.length ≤ 2 ^ 32 - 2) {n : Nat}
    {p : Position} (h : Reached src n p) : p.Exact src n := by
  cases h with
  | cursor h => exact (h.within hlen).exact hlen
  | tokenizer h => exact (h.within hlen).exact hlen

/-- Over a buffer of at most `2 ^ 32 - 2` bytes every position that is told is exact, so that it
depends on the bytes read alone, also among different buffers, and no operation of a cursor faults
except to cut out bytes. -/
theorem reached_exact (src : List UInt8) (hlen : src.length ≤ 2 ^ 32 - 2) :
    (∀ n p, Position.Reached src n p → p.Exact src n) ∧
      (∀ src' n n' p p', src'.length ≤ 2 ^ 32 - 2 → Position.Reached src n p →
        Position.Reached src' n' p' → src'.take n' = src.take n → p' = p) ∧
      (∀ c saved, Cursor.Reachable src c → Cursor.Reachable src saved → ∀ op : Cursor.Op,
        op.isSlice = false → ∀ f, (Cursor.Session.step ⟨c, saved⟩ op).1 ≠ .fault f) ∧
      (∀ ops, Cursor.Reachable src ((Cursor.Session.ofList src).after ops).cursor) ∧
      ∀ ops, Tokenizer.Reachable src ((Tokenizer.Session.ofList src).after ops).tokenizer :=
  ⟨fun _ _ h => h.exact hlen,
    fun _ _ _ _ _ hlen' h h' hread => (h.exact hlen).unique (h'.exact hlen') hread,
    fun _ _ hc hs op => (Cursor.Session.step_within hlen (hc.within hlen) (hs.within hlen) op).2,
    Cursor.Session.reachable_after src, Tokenizer.reachable_after src⟩

/-- Two lines, read by bytes, by a class and by a stretch, and then by tokens up to an error; and
the start of the first, read again after a reset. -/
theorem reached_exact_lines :
    let src : List UInt8 := [0x61, 0x62, 0x0a, 0x22, 0x63, 0x5c, 0x64]
    let c := ((Cursor.Session.ofList src).after [.bump, .save, .eatWhile (· != Byte.quote),
      .restore, .skipToDelimiter, .bump, .skipToDelimiter]).cursor
    let c' := ((Cursor.Session.ofList src).after [.skipToDelimiter, .reset, .bump]).cursor
    let t := ((Tokenizer.Session.ofList src).after [.next, .peek]).tokenizer
    let t' := ((Tokenizer.Session.ofList src).after [.next, .peek, .reset, .scan]).tokenizer
    src.length ≤ 2 ^ 32 - 2 ∧ c.pos = 5 ∧ c.position = ⟨2, 2⟩ ∧ c.position.Exact src c.pos ∧
      c'.pos = 1 ∧ c'.position = ⟨1, 2⟩ ∧ c'.position.Exact src c'.pos ∧
      t.offset = 7 ∧ t.position = ⟨2, 4⟩ ∧ t.position.Exact src t.offset ∧
      t'.offset = 2 ∧ t'.position = ⟨1, 3⟩ ∧ t'.position.Exact src t'.offset ∧
      ∀ f, (Cursor.Session.step ⟨c, c⟩ .bump).1 ≠ .fault f := by
  intro src c c' t t'
  obtain ⟨hexact, -, hfault, hcursor, htokenizer⟩ := reached_exact src (by decide)
  have hc : Cursor.Reachable src c := hcursor _
  exact ⟨by decide,
    by decide +kernel, by decide +kernel, hexact _ _ (.cursor hc),
    by decide +kernel, by decide +kernel, hexact _ _ (.cursor (hcursor _)),
    by decide +kernel, by decide +kernel, hexact _ _ (.tokenizer (htokenizer _)),
    by decide +kernel, by decide +kernel, hexact _ _ (.tokenizer (htokenizer _)),
    hfault c c hc hc .bump rfl⟩

end FrontEnd
