import FrontEnd.Position

/-!
# Cursors

A cursor reads a buffer of bytes once, from the left, and knows how far it is and at which line and
column. It holds the bytes read (latest first) and those left, so that what it may still read and
what it may cut out are its two halves.

* `bump`: the next byte;
* `eatWhile`: the bytes of a class, up to the first of another;
* `skipToDelimiter`: a stretch of string content, counted at once and not byte by byte;
* `slice`: a range of the bytes read.

Every operation reads a stretch of what is left (`Reads`), which is why the loops over a cursor end
and why its buffer stays the same (`Reads.buffer_eq`).
-/

namespace FrontEnd

/-- A reader over a buffer of bytes. -/
structure Cursor where
  /-- The bytes read, latest first. -/
  read : List UInt8
  /-- The bytes not yet read. -/
  rest : List UInt8
  /-- The offset of the next byte. -/
  pos : Nat
  /-- The line and column after the last byte read. -/
  position : Position
  pos_eq : pos = read.length
  deriving DecidableEq, Repr

namespace Cursor

/-- The cursor at the start of a buffer. -/
def ofList (bytes : List UInt8) : Cursor := ⟨[], bytes, 0, .start, rfl⟩

/-- The whole buffer. -/
def buffer (c : Cursor) : List UInt8 := c.read.reverse ++ c.rest

/-- The cursor at the start of the same buffer. -/
def rewound (c : Cursor) : Cursor := ofList c.buffer

/-- Nothing is left to read. -/
def atEnd (c : Cursor) : Bool := c.rest.isEmpty

/-- The next byte, unread. -/
def current (c : Cursor) : Option UInt8 := c.rest.head?

/-- The cursor with the bytes `bs` read, `rest` left, and the line and column at `p`. -/
def past (c : Cursor) (bs rest : List UInt8) (p : Position) : Cursor where
  read := bs.reverse ++ c.read
  rest := rest
  pos := c.pos + bs.length
  position := p
  pos_eq := by simp [c.pos_eq, Nat.add_comm]

/-- Reads one byte: the offset moves first, then line and column. -/
def bump : EStateM Fault Cursor (Option UInt8) := fun c =>
  match c.rest with
  | [] => .ok none c
  | b :: rest =>
    match c.position.advance b with
    | .ok _ p => .ok (some b) (c.past [b] rest p)
    | .error f p => .error f (c.past [b] rest p)

/-- Reads the bytes that satisfy `p`, up to the first that does not. -/
def eatWhile (p : UInt8 → Bool) (c : Cursor) : EStateM.Result Fault Cursor Unit :=
  match _h : c.rest with
  | [] => .ok () c
  | b :: rest =>
    if p b then
      match c.position.advance b with
      | .ok _ q => eatWhile p (c.past [b] rest q)
      | .error f q => .error f (c.past [b] rest q)
    else .ok () c
termination_by c.rest.length
decreasing_by simp [past, _h]

/-- What stopped a search for a string delimiter. -/
inductive Stop where
  | quote
  | backslash
  | bufferEnd
  deriving DecidableEq, Repr

/-- What the next unread bytes stop a search with: only a delimiter or the end of the buffer does. -/
def Stop.ofRest : List UInt8 → Stop
  | [] => .bufferEnd
  | b :: _ => if b = Byte.quote then .quote else .backslash

/-- Reads up to the next quote or backslash, which stays unread. Line and column are counted over
the whole stretch at once, before the offset moves. -/
def skipToDelimiter : EStateM Fault Cursor Stop := fun c =>
  let skipped := c.rest.takeWhile (!Byte.isDelimiter ·)
  let rest := c.rest.dropWhile (!Byte.isDelimiter ·)
  match c.position.skip skipped with
  | .ok _ p => .ok (.ofRest rest) (c.past skipped rest p)
  | .error f p => .error f { c with position := p }

/-- The bytes from `start` up to `stop`, which must have been read. -/
def slice (c : Cursor) (start stop : Nat) : Except Fault (List UInt8) :=
  if stop < start then .error (.sliceReversed start stop)
  else if c.pos < stop then .error (.slicePastCursor stop c.pos)
  else .ok ((c.read.drop (c.pos - stop)).take (stop - start)).reverse

/-- The bytes from `start` up to the cursor. -/
def sliceFrom (c : Cursor) (start : Nat) : Except Fault (List UInt8) := c.slice start c.pos

/-! ## What an operation leaves -/

@[simp] theorem rest_past (c : Cursor) (bs rest : List UInt8) (p : Position) :
    (c.past bs rest p).rest = rest := rfl

@[simp] theorem read_past (c : Cursor) (bs rest : List UInt8) (p : Position) :
    (c.past bs rest p).read = bs.reverse ++ c.read := rfl

@[simp] theorem pos_past (c : Cursor) (bs rest : List UInt8) (p : Position) :
    (c.past bs rest p).pos = c.pos + bs.length := rfl

@[simp] theorem position_past (c : Cursor) (bs rest : List UInt8) (p : Position) :
    (c.past bs rest p).position = p := rfl

/-- `c'` is over the same buffer as `c` and has read as much of it, or more. -/
def Reads (c c' : Cursor) : Prop :=
  ∃ bs, c.rest = bs ++ c'.rest ∧ c'.read = bs.reverse ++ c.read

namespace Reads

theorem refl (c : Cursor) : c.Reads c := ⟨[], rfl, rfl⟩

theorem trans {c₁ c₂ c₃ : Cursor} (h : c₁.Reads c₂) (h' : c₂.Reads c₃) : c₁.Reads c₃ := by
  obtain ⟨bs, hr, hd⟩ := h
  obtain ⟨bs', hr', hd'⟩ := h'
  exact ⟨bs ++ bs', by rw [hr, hr', List.append_assoc],
    by rw [hd', hd, List.reverse_append, List.append_assoc]⟩

theorem rest_length_le {c c' : Cursor} (h : c.Reads c') : c'.rest.length ≤ c.rest.length := by
  obtain ⟨bs, hr, -⟩ := h
  simp [hr]

theorem buffer_eq {c c' : Cursor} (h : c.Reads c') : c'.buffer = c.buffer := by
  obtain ⟨bs, hr, hd⟩ := h
  simp [buffer, hr, hd]

end Reads

theorem reads_past {c : Cursor} {bs rest : List UInt8} (p : Position) (h : c.rest = bs ++ rest) :
    c.Reads (c.past bs rest p) := ⟨bs, h, rfl⟩

/-- A byte that was read was the first of those left. -/
theorem rest_of_bump_some {c c' : Cursor} {b : UInt8} (h : c.bump = .ok (some b) c') :
    c.rest = b :: c'.rest := by
  unfold bump at h
  split at h
  · simp at h
  · split at h
    · simp only [EStateM.Result.ok.injEq, Option.some.injEq] at h
      obtain ⟨rfl, rfl⟩ := h
      simpa
    · simp at h

/-- At the end of the buffer nothing moves. -/
theorem eq_of_bump_none {c c' : Cursor} (h : c.bump = .ok none c') : c' = c ∧ c.rest = [] := by
  unfold bump at h
  split at h
  · simp only [EStateM.Result.ok.injEq, true_and] at h
    exact ⟨h.symm, by assumption⟩
  · split at h <;> simp at h

theorem reads_of_bump {c c' : Cursor} {b : Option UInt8} (h : c.bump = .ok b c') : c.Reads c' := by
  unfold bump at h
  split at h
  · simp only [EStateM.Result.ok.injEq] at h
    exact h.2 ▸ .refl c
  · rename_i hr
    split at h
    · simp only [EStateM.Result.ok.injEq] at h
      exact h.2 ▸ reads_past _ hr
    · simp at h

theorem reads_of_eatWhile {p : UInt8 → Bool} {c c' : Cursor} (h : c.eatWhile p = .ok () c') :
    c.Reads c' := by
  fun_induction eatWhile p c with
  | case1 =>
    obtain ⟨-, rfl⟩ := EStateM.Result.ok.inj h
    exact .refl _
  | case2 c b rest hr _ u q _ ih => exact (reads_past q hr).trans (ih h)
  | case3 => simp at h
  | case4 =>
    obtain ⟨-, rfl⟩ := EStateM.Result.ok.inj h
    exact .refl _

theorem reads_of_skipToDelimiter {c c' : Cursor} {s : Stop} (h : c.skipToDelimiter = .ok s c') :
    c.Reads c' := by
  unfold skipToDelimiter at h
  simp only at h
  split at h
  · simp only [EStateM.Result.ok.injEq] at h
    exact h.2 ▸ reads_past _ List.takeWhile_append_dropWhile.symm
  · simp at h

end Cursor

end FrontEnd
