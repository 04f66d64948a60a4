import Mathlib.Data.Fin.Tuple.Basic
import Mathlib.Data.List.Basic
import FrontEnd.Proofs.Grammar.Scanned
import FrontEnd.Proofs.Position.Exact

/-!
# Stretches of string content, at once and byte by byte

A stretch of string content is skipped at once: its line feeds are counted, the last of them gives
the column, and both numbers are cut to 32 bits. Where its bytes can be read one by one this is
exact, at any line and column:

* `Position.skip_of_advances`: as far as the counters do not overflow, a stretch moves them as its
  bytes do;
* `Cursor.eatWhile_eq_bumps`: to read the bytes of a class is to read as many bytes one by one;
* `Cursor.skipBy_eq`: any searches that find what they should (`Search.Lawful`) serve to skip;
* `skip_eq_bytewise`: so a stretch that is skipped leaves the cursor that its bytes leave.
-/

namespace FrontEnd

/-! ## Positions -/

namespace Position

/-- The position after some bytes, one after another. -/
def advances : List UInt8 → EStateM Fault Position Unit
  | [] => pure ()
  | b :: bs => do
    advance b
    advances bs

theorem toNat_of_advance {b : UInt8} {p q : Position} (h : advance b p = .ok () q) :
    q.line.toNat = p.line.toNat + (if b = Byte.newline then 1 else 0) ∧
      q.col.toNat = if b = Byte.newline then 0 else p.col.toNat + 1 := by
  unfold advance at h
  by_cases hb : b = Byte.newline
  · simp only [if_pos hb] at h ⊢
    cases hline : Word.add32 p.line 1 with
    | error f => simp [hline] at h
    | ok line =>
      simp only [hline, EStateM.Result.ok.injEq, true_and] at h
      rw [← h]
      exact ⟨(Word.add32_eq_ok.1 hline).symm, rfl⟩
  · simp only [if_neg hb] at h ⊢
    cases hcol : Word.add32 p.col 1 with
    | error f => simp [hcol] at h
    | ok col =>
      simp only [hcol, EStateM.Result.ok.injEq, true_and] at h
      rw [← h]
      exact ⟨rfl, (Word.add32_eq_ok.1 hcol).symm⟩

/-- What is left to count behind a byte counts from the position after it. -/
theorem over_of_advance {b : UInt8} {p q : Position} (h : advance b p = .ok () q) (bs : List UInt8) :
    q.lineOver bs = p.lineOver (b :: bs) ∧ q.columnOver bs = p.columnOver (b :: bs) := by
  obtain ⟨hline, hcol⟩ := toNat_of_advance h
  have hfirst : q.col.toNat = p.columnOver [b] := by
    rw [hcol, columnOver]
    by_cases hb : b = Byte.newline
    · rw [if_pos hb, if_pos (List.mem_singleton.2 hb.symm), hb]
      rfl
    · rw [if_neg hb, if_neg fun hmem => hb (List.mem_singleton.1 hmem).symm, List.length_singleton]
  rw [← List.singleton_append, lineOver_append, columnOver_append, ← hfirst, lineOver, hline, lineOver,
    List.count_singleton]
  exact ⟨by simp only [beq_iff_eq], rfl⟩

/-- Bytes that are read one by one move the line by their line feeds, and the column to the length
of the last line. -/
theorem toNat_of_advances {bs : List UInt8} {p q : Position} (h : advances bs p = .ok () q) :
    q.line.toNat = p.lineOver bs ∧ q.col.toNat = p.columnOver bs := by
  induction bs generalizing p with
  | nil =>
    obtain ⟨-, rfl⟩ := pure_eq_ok_iff.1 h
    exact ⟨rfl, rfl⟩
  | cons b bs ih =>
    obtain ⟨_, p₁, hfirst, hrest⟩ := bind_eq_ok_iff.1 h
    obtain ⟨hline, hcol⟩ := ih hrest
    obtain ⟨hline₁, hcol₁⟩ := over_of_advance hfirst bs
    exact ⟨hline.trans hline₁, hcol.trans hcol₁⟩

/-- A count that is reached byte by byte fits its word. -/
theorem add32_ofNat_of_toNat {a c : UInt32} {n : Nat} (h : c.toNat = a.toNat + n) :
    Word.add32 a (UInt32.ofNat n) = .ok c := by
  have hc := c.toNat_lt
  rw [Word.add32_eq_ok, UInt32.toNat_ofNat_of_lt' (show n < 2 ^ 32 by omega), h]

/-- A stretch at once leaves the position that its bytes leave. -/
theorem skip_of_advances {bs : List UInt8} {p q : Position} (h : advances bs p = .ok () q) :
    skip bs p = .ok () q := by
  obtain ⟨hline, hcol⟩ := toNat_of_advances h
  unfold lineOver at hline
  unfold columnOver at hcol
  unfold skip
  by_cases hmem : Byte.newline ∈ bs
  · rw [if_pos hmem] at hcol
    rw [if_pos (List.contains_iff_mem.2 hmem), add32_ofNat_of_toNat hline, ← hcol,
      UInt32.ofNat_toNat]
  · rw [if_neg hmem] at hcol
    rw [List.count_eq_zero_of_not_mem hmem, Nat.add_zero, UInt32.toNat_inj] at hline
    rw [if_neg (by simpa using hmem), add32_ofNat_of_toNat hcol, ← hline]

end Position

/-! ## Cursors -/

namespace Cursor

/-- Reads as many bytes one by one. -/
def bumps : Nat → EStateM Fault Cursor Unit
  | 0 => pure ()
  | n + 1 => do
    let _ ← bump
    bumps n

theorem bump_of_advance {c : Cursor} {b : UInt8} {rest : List UInt8} {q : Position}
    (hrest : c.rest = b :: rest) (h : Position.advance b c.position = .ok () q) :
    c.bump = .ok (some b) (c.past [b] rest q) := by
  rw [bump, hrest]
  simp only [h]

/-- To read the bytes of a class is to read as many bytes as there are of it. -/
theorem eatWhile_eq_bumps (p : UInt8 → Bool) (c : Cursor) :
    c.eatWhile p = c.bumps (c.rest.takeWhile p).length := by
  fun_induction eatWhile p c with
  | case1 c hrest =>
    rw [hrest]
    rfl
  | case2 c b rest hrest hb u q hadvance ih =>
    rw [ih, hrest, List.takeWhile_cons_of_pos hb, List.length_cons, bumps,
      bind_of_ok (bump_of_advance hrest hadvance)]
    rfl
  | case3 c b rest hrest hb f q hadvance =>
    have hbump : c.bump = .error f (c.past [b] rest q) := by
      rw [bump, hrest]
      simp only [hadvance]
    rw [hrest, List.takeWhile_cons_of_pos hb, List.length_cons, bumps]
    show _ = EStateM.bind bump _ c
    rw [EStateM.bind, hbump]
  | case4 c b rest hrest hb =>
    rw [hrest, List.takeWhile_cons_of_neg hb]
    rfl

theorem past_past (c : Cursor) (bs cs rest rest' : List UInt8) (p q : Position) :
    (c.past bs rest p).past cs rest' q = c.past (bs ++ cs) rest' q := by
  simp only [past, List.reverse_append, List.append_assoc, List.length_append, Nat.add_assoc]

/-- Bytes that are read one by one are read past, and move the position one after another. -/
theorem exists_advances_of_bumps {bs rest : List UInt8} {c c' : Cursor} (hrest : c.rest = bs ++ rest)
    (h : c.bumps bs.length = .ok () c') :
    ∃ q, Position.advances bs c.position = .ok () q ∧ c' = c.past bs rest q := by
  induction bs generalizing c with
  | nil =>
    obtain ⟨-, rfl⟩ := pure_eq_ok_iff.1 h
    exact ⟨c.position, rfl, by rw [← List.nil_append rest, ← hrest]; rfl⟩
  | cons b bs ih =>
    obtain ⟨_, c₁, hbump, h⟩ := bind_eq_ok_iff.1 h
    rw [bump, hrest, List.cons_append] at hbump
    cases hadvance : Position.advance b c.position with
    | error f p => simp [hadvance] at hbump
    | ok _ p =>
      simp only [hadvance, EStateM.Result.ok.injEq] at hbump
      obtain ⟨-, rfl⟩ := hbump
      obtain ⟨q, hadvances, rfl⟩ := ih rfl h
      refine ⟨q, ?_, past_past ..⟩
      rw [Position.advances, bind_of_ok hadvance]
      exact hadvances

/-- The number of bytes before the first delimiter. -/
theorem length_takeWhile_eq_findIdx (bs : List UInt8) :
    (bs.takeWhile (!Byte.isDelimiter ·)).length = bs.findIdx Byte.isDelimiter := by
  rw [List.takeWhile_eq_take_findIdx_not, List.length_take]
  simp only [Bool.not_not]
  exact Nat.min_eq_left List.findIdx_le_length

/-- A stretch that can be read one by one is skipped to the same cursor. -/
theorem skipToDelimiter_of_bumps {c c' : Cursor}
    (h : c.bumps (c.rest.findIdx Byte.isDelimiter) = .ok () c') :
    c.skipToDelimiter = .ok (.ofRest c'.rest) c' ∧
      c'.rest = c.rest.dropWhile (!Byte.isDelimiter ·) := by
  rw [← length_takeWhile_eq_findIdx] at h
  obtain ⟨q, hadvances, rfl⟩ :=
    exists_advances_of_bumps List.takeWhile_append_dropWhile.symm h
  simp only [skipToDelimiter, Position.skip_of_advances hadvances, rest_past, and_self]

end Cursor

/-! ## Searches -/

/-- Searches in a string of bytes. -/
structure Search where
  /-- Where the first of two bytes is. -/
  first : UInt8 → UInt8 → List UInt8 → Option Nat
  /-- Where a byte is last. -/
  last : UInt8 → List UInt8 → Option Nat
  /-- Wherever a byte is. -/
  all : UInt8 → List UInt8 → List Nat

/-- The searches find what they are to find. -/
structure Search.Lawful (s : Search) : Prop where
  first_eq_some_iff : ∀ a b bs i, s.first a b bs = some i ↔
    (bs[i]? = some a ∨ bs[i]? = some b) ∧ ∀ j < i, bs[j]? ≠ some a ∧ bs[j]? ≠ some b
  last_eq_some_iff : ∀ b bs i, s.last b bs = some i ↔ bs[i]? = some b ∧ ∀ j > i, bs[j]? ≠ some b
  mem_all_iff : ∀ b bs i, i ∈ s.all b bs ↔ bs[i]? = some b
  nodup_all : ∀ b bs, (s.all b bs).Nodup

/-- The first index at which one of two bytes is. -/
theorem findIdx?_eq_some_iff_of_either {a b : UInt8} {bs : List UInt8} {i : Nat} :
    bs.findIdx? (fun x => x == a || x == b) = some i ↔
      (bs[i]? = some a ∨ bs[i]? = some b) ∧ ∀ j < i, bs[j]? ≠ some a ∧ bs[j]? ≠ some b := by
  have heither (j : Nat) : (bs[j]? = some a ∨ bs[j]? = some b) ↔
      ∃ hj : j < bs.length, (bs[j] == a || bs[j] == b) = true := by
    simp only [List.getElem?_eq_some_iff, Bool.or_eq_true, beq_iff_eq, ← exists_or]
  simp only [List.findIdx?_eq_some_iff_getElem, ne_eq, ← not_or, heither]
  constructor
  · rintro ⟨hi, hb, hbefore⟩
    exact ⟨⟨hi, hb⟩, fun j hj ⟨_, hb'⟩ => hbefore j hj hb'⟩
  · rintro ⟨⟨hi, hb⟩, hbefore⟩
    exact ⟨hi, hb, fun j hj hb' => hbefore j hj ⟨Nat.lt_trans hj hi, hb'⟩⟩

/-- The searches that try one index after another. -/
def Search.linear : Search where
  first a b bs := bs.findIdx? fun x => x == a || x == b
  last b bs := (Fin.findRev? fun i : Fin bs.length => bs[i] == b).map Fin.val
  all b bs := bs.idxsOf b

theorem Search.linear_lawful : linear.Lawful where
  first_eq_some_iff _ _ _ _ := findIdx?_eq_some_iff_of_either
  last_eq_some_iff b bs i := by
    simp only [linear, Option.map_eq_some_iff, Fin.findRev?_eq_some_iff]
    constructor
    · rintro ⟨k, ⟨hb, hafter⟩, rfl⟩
      refine ⟨List.getElem?_eq_some_iff.2 ⟨k.isLt, eq_of_beq hb⟩, fun j hj hj' => ?_⟩
      obtain ⟨hlt, hj'⟩ := List.getElem?_eq_some_iff.1 hj'
      exact ne_of_beq_false (hafter ⟨j, hlt⟩ hj) hj'
    · rintro ⟨hb, hafter⟩
      obtain ⟨hi, hb⟩ := List.getElem?_eq_some_iff.1 hb
      refine ⟨⟨i, hi⟩, ⟨beq_iff_eq.2 hb, fun j hj => beq_false_of_ne fun hb' => ?_⟩, rfl⟩
      exact hafter j hj (List.getElem?_eq_some_iff.2 ⟨j.isLt, hb'⟩)
  mem_all_iff b bs i := by
    simp [linear, List.mem_idxsOf_iff_getElem_sub_pos, List.getElem?_eq_some_iff]
  nodup_all _ _ := List.nodup_idxsOf

/-- The position after a stretch of bytes, all at once, by where its line feeds are. -/
def Position.skipBy (s : Search) (bs : List UInt8) : EStateM Fault Position Unit := fun p =>
  match s.last Byte.newline bs with
  | some last =>
    match Word.add32 p.line (UInt32.ofNat (s.all Byte.newline bs).length) with
    | .ok line => .ok () ⟨line, UInt32.ofNat (bs.length - last - 1)⟩
    | .error f => .error f p
  | none =>
    match Word.add32 p.col (UInt32.ofNat bs.length) with
    | .ok col => .ok () ⟨p.line, col⟩
    | .error f => .error f p

/-- Reads up to the next quote or backslash, by where the first of them is. -/
def Cursor.skipBy (s : Search) : EStateM Fault Cursor Cursor.Stop := fun c =>
  let found := s.first Byte.quote Byte.backslash c.rest
  let n := found.getD c.rest.length
  let stop :=
    match found with
    | some i => if c.rest[i]? = some Byte.quote then Cursor.Stop.quote else .backslash
    | none => .bufferEnd
  match Position.skipBy s (c.rest.take n) c.position with
  | .ok _ p => .ok stop (c.past (c.rest.take n) (c.rest.drop n) p)
  | .error f p => .error f { c with position := p }

namespace Search.Lawful

variable {s : Search}

theorem first_eq_findIdx? (h : s.Lawful) (bs : List UInt8) :
    s.first Byte.quote Byte.backslash bs = bs.findIdx? Byte.isDelimiter :=
  Option.ext fun i => (h.first_eq_some_iff _ _ bs i).trans findIdx?_eq_some_iff_of_either.symm

theorem length_all (h : s.Lawful) (b : UInt8) (bs : List UInt8) :
    (s.all b bs).length = bs.count b := by
  have hperm : (s.all b bs).Perm (bs.idxsOf b) := by
    refine (List.perm_ext_iff_of_nodup (h.nodup_all b bs) List.nodup_idxsOf).2 fun i => ?_
    rw [h.mem_all_iff, List.mem_idxsOf_iff_getElem_sub_pos, List.getElem?_eq_some_iff]
    simp
  rw [hperm.length_eq, List.length_idxsOf]

/-- A stretch is counted the same by lawful searches. -/
theorem skipBy_eq_skip (h : s.Lawful) (bs : List UInt8) :
    Position.skipBy s bs = Position.skip bs := by
  funext p
  unfold Position.skipBy Position.skip
  cases hlast : s.last Byte.newline bs with
  | none =>
    have hmem : Byte.newline ∉ bs := fun hmem => by
      obtain ⟨i, hi⟩ := Position.exists_lastNewline hmem
      rw [(h.last_eq_some_iff _ _ i).2 hi] at hlast
      cases hlast
    rewrite [if_neg (by simpa using hmem)]
    rfl
  | some i =>
    have hi : Position.LastNewline bs i := (h.last_eq_some_iff _ _ i).1 hlast
    have hmem : Byte.newline ∈ bs := List.mem_of_getElem? hi.1
    have hcol := hi.columnAfter_eq
    rw [Position.columnAfter, if_pos hmem] at hcol
    rewrite [if_pos (List.contains_iff_mem.2 hmem), h.length_all, hcol]
    rfl

end Search.Lawful

namespace Cursor

/-- The stop that a search reports is the one of the bytes that it leaves. -/
theorem Stop.ofRest_drop_findIdx (bs : List UInt8) :
    Stop.ofRest (bs.drop (bs.findIdx Byte.isDelimiter)) =
      match bs.findIdx? Byte.isDelimiter with
      | some i => if bs[i]? = some Byte.quote then .quote else .backslash
      | none => .bufferEnd := by
  cases hfound : bs.findIdx? Byte.isDelimiter with
  | none =>
    rw [List.findIdx?_eq_none_iff_findIdx_eq.1 hfound, List.drop_length]
    rfl
  | some i =>
    obtain ⟨hi, hidx⟩ := List.findIdx?_eq_some_iff_findIdx_eq.1 hfound
    rw [hidx, List.drop_eq_getElem_cons hi]
    simp only [ofRest, List.getElem?_eq_getElem hi, Option.some.injEq]

/-- A cursor skips the same by lawful searches. -/
theorem skipBy_eq {s : Search} (h : s.Lawful) : skipBy s = skipToDelimiter := by
  funext c
  have htake : c.rest.takeWhile (!Byte.isDelimiter ·) =
      c.rest.take (c.rest.findIdx Byte.isDelimiter) := by
    simp only [List.takeWhile_eq_take_findIdx_not, Bool.not_not]
  have hdrop : c.rest.dropWhile (!Byte.isDelimiter ·) =
      c.rest.drop (c.rest.findIdx Byte.isDelimiter) := by
    simp only [List.dropWhile_eq_drop_findIdx_not, Bool.not_not]
  dsimp only [skipBy, skipToDelimiter]
  rewrite [h.first_eq_findIdx?, h.skipBy_eq_skip, htake, hdrop, Stop.ofRest_drop_findIdx,
    List.findIdx_eq_getD_findIdx?]
  rfl

end Cursor

/-- Where the bytes before the next delimiter can be read one by one, the stretch is skipped without
a fault: to the same cursor, and to the stop that the byte there asks for. -/
theorem skip_eq_bytewise {s : Search} (hs : s.Lawful) {c c' : Cursor}
    (h : c.bumps (c.rest.findIdx Byte.isDelimiter) = .ok () c') :
    ∃ stop : Cursor.Stop, c.skipBy s = .ok stop c' ∧ c.skipToDelimiter = .ok stop c' ∧
      c.eatWhile (!Byte.isDelimiter ·) = .ok () c' ∧ c'.current = stop.byte? := by
  obtain ⟨hskip, hrest⟩ := Cursor.skipToDelimiter_of_bumps h
  refine ⟨.ofRest c'.rest, ?_, hskip, ?_, ?_⟩
  · rw [Cursor.skipBy_eq hs, hskip]
  · rw [Cursor.eatWhile_eq_bumps, Cursor.length_takeWhile_eq_findIdx, h]
  · rw [Cursor.current, hrest, Cursor.Stop.byte?_ofRest_dropWhile]

/-- At the last line there is: the third line feed would not fit, and the skip stops before it. -/
theorem skip_eq_bytewise_lastLine :
    ∃ c c' : Cursor, c.read ≠ [] ∧ c.position = ⟨4294967293, 4294967295⟩ ∧
      c'.position = ⟨4294967295, 1⟩ ∧ Search.linear.Lawful ∧
      c.bumps (c.rest.findIdx Byte.isDelimiter) = .ok () c' ∧
      ∃ stop : Cursor.Stop, c.skipBy Search.linear = .ok stop c' ∧
        c.skipToDelimiter = .ok stop c' ∧ c.eatWhile (!Byte.isDelimiter ·) = .ok () c' ∧
        c'.current = stop.byte? := by
  let c : Cursor := ⟨[0x61], [0x0a, 0x62, 0x63, 0x0a, 0x64, 0x22, 0x0a], 1,
    ⟨4294967293, 4294967295⟩, rfl⟩
  let c' : Cursor := ⟨[0x64, 0x0a, 0x63, 0x62, 0x0a, 0x61], [0x22, 0x0a], 6,
    ⟨4294967295, 1⟩, rfl⟩
  have h : c.bumps (c.rest.findIdx Byte.isDelimiter) = .ok () c' := rfl
  exact ⟨c, c', by decide, rfl, rfl, Search.linear_lawful, h,
    skip_eq_bytewise Search.linear_lawful h⟩

end FrontEnd
