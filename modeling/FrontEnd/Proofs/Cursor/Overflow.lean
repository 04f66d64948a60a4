import FrontEnd.Proofs.Cursor.Bytewise
import FrontEnd.Proofs.Cursor.Packed

/-!
# Counters that overflow

Byte by byte a counter that leaves its word is a fault. A stretch that is skipped at once cuts its
counts to 32 bits before they are added, and sets the column outright behind a line feed, so it can
answer where its bytes fault, and with counters that are not true:

* `Position.exists_advances_iff`: bytes are read one by one exactly where both counters fit at each
  of them (`Position.Fits`);
* `Cursor.Tracked.step`: over a buffer that fits, of any length, every operation answers and keeps
  the position that the bytes read leave;
* `skip_counts_iff`: a skip that answers is as good as reading its bytes exactly where they fit.
-/

namespace FrontEnd

theorem Word.exists_add32_iff {a b : UInt32} :
    (∃ c, add32 a b = .ok c) ↔ a.toNat + b.toNat < 2 ^ 32 := by
  unfold add32
  split <;> simp_all [UInt32.size]

/-! ## Positions -/

namespace Position

/-- Both counters of `p` stay within their words at every byte of `bs`. -/
def Fits (p : Position) (bs : List UInt8) : Prop :=
  ∀ cs, cs <+: bs → p.lineOver cs < 2 ^ 32 ∧ p.columnOver cs < 2 ^ 32

theorem Fits.of_prefix {p : Position} {bs cs : List UInt8} (h : p.Fits bs) (hcs : cs <+: bs) :
    p.Fits cs :=
  fun ds hds => h ds (hds.trans hcs)

/-- A buffer of at most `2 ^ 32 - 2` bytes fits from its start. -/
theorem fits_start_of_length_le {bs : List UInt8} (h : bs.length ≤ 2 ^ 32 - 2) : start.Fits bs := by
  intro cs hcs
  have hlength := hcs.length_le
  have hline := lineAfter_le cs
  have hcol := columnAfter_le cs
  change lineAfter cs < 2 ^ 32 ∧ columnAfter cs < 2 ^ 32
  omega

theorem exists_advance_iff {b : UInt8} {p : Position} :
    (∃ q, advance b p = .ok () q) ↔ p.lineOver [b] < 2 ^ 32 ∧ p.columnOver [b] < 2 ^ 32 := by
  by_cases hb : b = Byte.newline
  · have hadd : (∃ q, advance b p = .ok () q) ↔ ∃ line, Word.add32 p.line 1 = .ok line := by
      unfold advance
      cases Word.add32 p.line 1 <;> simp [hb]
    subst hb
    rw [hadd, Word.exists_add32_iff]
    exact ⟨fun h => ⟨h, show lastLineLength [Byte.newline] < 2 ^ 32 by decide⟩, And.left⟩
  · have hadd : (∃ q, advance b p = .ok () q) ↔ ∃ col, Word.add32 p.col 1 = .ok col := by
      unfold advance
      cases Word.add32 p.col 1 <;> simp [hb]
    have hmem : Byte.newline ∉ [b] := fun h => hb (List.mem_singleton.1 h).symm
    rw [hadd, Word.exists_add32_iff, lineOver, columnOver, if_neg hmem,
      List.count_eq_zero_of_not_mem hmem]
    exact ⟨fun h => ⟨p.line.toNat_lt, h⟩, And.right⟩

/-- Some bytes fit where the first does, and the others do from the position behind it. -/
theorem fits_cons {b : UInt8} {bs : List UInt8} {p : Position} :
    p.Fits (b :: bs) ↔ ∃ q, advance b p = .ok () q ∧ q.Fits bs := by
  constructor
  · intro h
    obtain ⟨q, hq⟩ := exists_advance_iff.2 (h [b] (List.prefix_append [b] bs))
    refine ⟨q, hq, fun cs hcs => ?_⟩
    obtain ⟨hline, hcol⟩ := over_of_advance hq cs
    rw [hline, hcol]
    exact h _ ((List.prefix_cons_inj b).2 hcs)
  · rintro ⟨q, hq, h⟩ cs hcs
    rcases List.prefix_cons_iff.1 hcs with rfl | ⟨ds, rfl, hds⟩
    · exact ⟨p.line.toNat_lt, p.col.toNat_lt⟩
    · obtain ⟨hline, hcol⟩ := over_of_advance hq ds
      rw [← hline, ← hcol]
      exact h ds hds

/-- Bytes are read one by one exactly where the counters fit at each of them. -/
theorem exists_advances_iff {bs : List UInt8} {p : Position} :
    (∃ q, advances bs p = .ok () q) ↔ p.Fits bs := by
  induction bs generalizing p with
  | nil =>
    refine ⟨fun _ cs hcs => ?_, fun _ => ⟨p, rfl⟩⟩
    rw [List.prefix_nil.1 hcs]
    exact ⟨p.line.toNat_lt, p.col.toNat_lt⟩
  | cons b bs ih =>
    rw [fits_cons]
    constructor
    · rintro ⟨q, h⟩
      obtain ⟨_, q₁, hfirst, hrest⟩ := bind_eq_ok_iff.1 h
      exact ⟨q₁, hfirst, ih.1 ⟨q, hrest⟩⟩
    · rintro ⟨q₁, hfirst, hfits⟩
      obtain ⟨q, hrest⟩ := ih.2 hfits
      exact ⟨q, bind_eq_ok_iff.2 ⟨(), q₁, hfirst, hrest⟩⟩

theorem advances_append {bs cs : List UInt8} {p r : Position} :
    advances (bs ++ cs) p = .ok () r ↔
      ∃ q, advances bs p = .ok () q ∧ advances cs q = .ok () r := by
  induction bs generalizing p with
  | nil => exact ⟨fun h => ⟨p, rfl, h⟩, fun ⟨q, hq, h⟩ => (pure_eq_ok_iff.1 hq).2 ▸ h⟩
  | cons b bs ih =>
    simp only [List.cons_append, advances, bind_eq_ok_iff, ih]
    constructor
    · rintro ⟨u, p₁, hfirst, q, hbs, hcs⟩
      exact ⟨q, ⟨u, p₁, hfirst, hbs⟩, hcs⟩
    · rintro ⟨q, ⟨u, p₁, hfirst, hbs⟩, hcs⟩
      exact ⟨u, p₁, hfirst, q, hbs, hcs⟩

/-- A stretch that is read one by one keeps a true line true. So it does with a column, which is
true behind a line feed in any case. -/
theorem exact_of_advances_iff {bs : List UInt8} {p q : Position} (h : advances bs p = .ok () q)
    (done rest : List UInt8) :
    q.Exact (done ++ (bs ++ rest)) (done.length + bs.length) ↔
      p.line.toNat = lineAfter done ∧ (Byte.newline ∈ bs ∨ p.col.toNat = columnAfter done) := by
  obtain ⟨hline, hcol⟩ := toNat_of_advances h
  have hle : done.length + bs.length ≤ (done ++ (bs ++ rest)).length := by
    simp only [List.length_append]
    omega
  have htake : (done ++ (bs ++ rest)).take (done.length + bs.length) = done ++ bs := by
    rw [List.take_length_add_append, List.take_left]
  rw [exact_iff, htake, hline, hcol, lineAfter_append, columnAfter_append, lineOver, columnOver,
    Nat.add_right_cancel_iff, and_iff_right hle]
  by_cases hmem : Byte.newline ∈ bs
  · rw [if_pos hmem, if_pos hmem]
    exact and_congr_right fun _ => iff_of_true rfl (.inl hmem)
  · rw [if_neg hmem, if_neg hmem, or_iff_right hmem, Nat.add_right_cancel_iff]

end Position

/-! ## Cursors -/

namespace Cursor

variable {src bs rest : List UInt8} {c c' saved : Cursor}

theorem bumps_of_advances {q : Position} (hrest : c.rest = bs ++ rest)
    (h : Position.advances bs c.position = .ok () q) :
    c.bumps bs.length = .ok () (c.past bs rest q) := by
  induction bs generalizing c with
  | nil =>
    obtain ⟨-, rfl⟩ := pure_eq_ok_iff.1 h
    rw [← List.nil_append rest, ← hrest]
    rfl
  | cons b bs ih =>
    obtain ⟨_, p, hadvance, h⟩ := bind_eq_ok_iff.1 h
    rw [List.length_cons, bumps, bind_of_ok (bump_of_advance hrest hadvance)]
    exact (ih rfl h).trans (by rw [past_past]; rfl)

/-- Bytes are read one by one where the position fits them. -/
theorem exists_bumps_iff (hrest : c.rest = bs ++ rest) :
    (∃ c', c.bumps bs.length = .ok () c') ↔ c.position.Fits bs := by
  rw [← Position.exists_advances_iff]
  constructor
  · rintro ⟨c', h⟩
    obtain ⟨q, hq, -⟩ := exists_advances_of_bumps hrest h
    exact ⟨q, hq⟩
  · rintro ⟨q, hq⟩
    exact ⟨_, bumps_of_advances hrest hq⟩

/-- The bytes before the next delimiter, and the others. -/
theorem rest_eq_stretch (c : Cursor) :
    c.rest = c.rest.takeWhile (!Byte.isDelimiter ·) ++ c.rest.dropWhile (!Byte.isDelimiter ·) :=
  List.takeWhile_append_dropWhile.symm

theorem skipToDelimiter_cases {stop : Stop} (h : c.skipToDelimiter = .ok stop c') :
    ∃ q, Position.skip (c.rest.takeWhile (!Byte.isDelimiter ·)) c.position = .ok () q ∧
      c' = c.past (c.rest.takeWhile (!Byte.isDelimiter ·))
        (c.rest.dropWhile (!Byte.isDelimiter ·)) q := by
  unfold skipToDelimiter at h
  dsimp only at h
  split at h
  · rename_i q hq
    exact ⟨q, hq, (EStateM.Result.ok.inj h).2.symm⟩
  · cases h

/-! ### The buffer -/

/-- The cursor that an operation leaves, also where it faults. -/
def leaves {α : Type} : EStateM.Result Fault Cursor α → Cursor
  | .ok _ c => c
  | .error _ c => c

theorem reads_leaves_bump (c : Cursor) : c.Reads (leaves c.bump) := by
  unfold bump
  split
  · exact .refl c
  · rename_i hrest
    split <;> exact reads_past _ hrest

theorem reads_leaves_eatWhile (p : UInt8 → Bool) (c : Cursor) : c.Reads (leaves (c.eatWhile p)) := by
  fun_induction eatWhile p c with
  | case1 c => exact .refl c
  | case2 c b rest hrest hb u q hadvance ih => exact (reads_past q hrest).trans ih
  | case3 c b rest hrest hb f q hadvance => exact reads_past q hrest
  | case4 c b rest hrest hb => exact .refl c

theorem reads_leaves_skipToDelimiter (c : Cursor) : c.Reads (leaves c.skipToDelimiter) := by
  unfold skipToDelimiter
  dsimp only
  split
  · exact reads_past _ List.takeWhile_append_dropWhile.symm
  · exact ⟨[], rfl, rfl⟩

theorem Session.cursor_run {α : Type} (s : Session) (r : EStateM.Result Fault Cursor α)
    (answer : α → Answer) : (s.run r answer).2.cursor = leaves r := by
  cases r <;> rfl

theorem Session.snd_ask {α : Type} (s : Session) (r : Except Fault α) (answer : α → Answer) :
    (s.ask r answer).2 = s := by
  cases r <;> rfl

/-- An operation keeps the buffer, also where it faults. -/
theorem Session.buffer_step (hc : c.buffer = src) (hsaved : saved.buffer = src) (op : Op) :
    (step ⟨c, saved⟩ op).2.cursor.buffer = src := by
  cases op with
  | bump => rw [step, cursor_run, (reads_leaves_bump c).buffer_eq, hc]
  | eatWhile p => rw [step, cursor_run, (reads_leaves_eatWhile p c).buffer_eq, hc]
  | skipToDelimiter => rw [step, cursor_run, (reads_leaves_skipToDelimiter c).buffer_eq, hc]
  | slice start stop => rw [step, snd_ask, hc]
  | sliceFrom start => rw [step, snd_ask, hc]
  | reset => exact hc
  | current | save => exact hc
  | restore => exact hsaved

theorem Reachable.buffer_eq (h : Reachable src c) : c.buffer = src := by
  induction h with
  | fresh => rfl
  | step _ _ op ihc ihs => exact Session.buffer_step ihc ihs op

/-! ### Buffers that fit -/

/-- The cursor is over `src`, at the position that the bytes read leave one after another. -/
structure Tracked (src : List UInt8) (c : Cursor) : Prop where
  buffer_eq : c.buffer = src
  advances_read : Position.advances c.read.reverse .start = .ok () c.position

/-- Where the buffer fits, any bytes left can be read, and are kept to. -/
theorem Tracked.past (hfits : Position.start.Fits src) (h : c.Tracked src) (bs : List UInt8)
    (hrest : c.rest = bs ++ rest) :
    ∃ q, Position.advances bs c.position = .ok () q ∧ (c.past bs rest q).Tracked src := by
  have hsplit : c.read.reverse ++ bs ++ rest = src := by
    rw [← h.buffer_eq, buffer, hrest, List.append_assoc]
  -- The bytes read and these can be read from the start; the first of them lead to this cursor.
  obtain ⟨r, hr⟩ := Position.exists_advances_iff.2 (hfits.of_prefix ⟨rest, hsplit⟩)
  obtain ⟨q, hq, hbs⟩ := Position.advances_append.1 hr
  obtain rfl : c.position = q := (EStateM.Result.ok.inj (h.advances_read.symm.trans hq)).2
  refine ⟨r, hbs, (reads_past r hrest).buffer_eq.trans h.buffer_eq, ?_⟩
  rw [read_past, List.reverse_append, List.reverse_reverse]
  exact hr

/-- An operation keeps to the buffer, and faults only where it cuts out bytes. -/
theorem Tracked.step (hfits : Position.start.Fits src) (hc : c.Tracked src)
    (hsaved : saved.Tracked src) (op : Op) :
    (Session.step ⟨c, saved⟩ op).2.cursor.Tracked src ∧
      (op.isSlice = false → ∀ f, (Session.step ⟨c, saved⟩ op).1 ≠ .fault f) := by
  cases op with
  | bump =>
    simp only [Session.step, Session.run]
    cases hrest : c.rest with
    | nil =>
      rw [bump, hrest]
      exact ⟨hc, fun _ _ h => by cases h⟩
    | cons b rest =>
      obtain ⟨q, hq, htracked⟩ := hc.past hfits [b] hrest
      obtain ⟨_, p, hadvance, hp⟩ := bind_eq_ok_iff.1 hq
      obtain ⟨-, rfl⟩ := pure_eq_ok_iff.1 hp
      rw [bump_of_advance hrest hadvance]
      exact ⟨htracked, fun _ _ h => by cases h⟩
  | eatWhile p =>
    have hrest : c.rest = c.rest.takeWhile p ++ c.rest.dropWhile p :=
      List.takeWhile_append_dropWhile.symm
    obtain ⟨q, hq, htracked⟩ := hc.past hfits _ hrest
    simp only [Session.step, Session.run, eatWhile_eq_bumps, bumps_of_advances hrest hq]
    exact ⟨htracked, fun _ _ h => by cases h⟩
  | skipToDelimiter =>
    obtain ⟨q, hq, htracked⟩ := hc.past hfits _ c.rest_eq_stretch
    simp only [Session.step, Session.run, skipToDelimiter, Position.skip_of_advances hq]
    exact ⟨htracked, fun _ _ h => by cases h⟩
  | slice start stop =>
    rw [Session.step, Session.snd_ask]
    exact ⟨hc, fun h => by cases h⟩
  | sliceFrom start =>
    rw [Session.step, Session.snd_ask]
    exact ⟨hc, fun h => by cases h⟩
  | reset => exact ⟨⟨hc.buffer_eq, rfl⟩, fun _ _ h => by cases h⟩
  | current | save => exact ⟨hc, fun _ _ h => by cases h⟩
  | restore => exact ⟨hsaved, fun _ _ h => by cases h⟩

theorem Reachable.tracked (hfits : Position.start.Fits src) (h : Reachable src c) :
    c.Tracked src := by
  induction h with
  | fresh => exact ⟨rfl, rfl⟩
  | step _ _ op ihc ihs => exact (ihc.step hfits ihs op).1

theorem Tracked.exact (h : c.Tracked src) : c.position.Exact src c.pos := by
  have hexact := (Position.exact_of_advances_iff h.advances_read [] c.rest).2 ⟨rfl, .inr rfl⟩
  rw [← h.buffer_eq, c.pos_eq]
  simpa [buffer] using hexact

end Cursor

/-- A stretch that is skipped is as good as its bytes read one by one exactly where the counters fit
at each of them, from a line that is true and a column that is true or that a line feed sets anew.
Where a buffer fits from its start this holds of every cursor over it, however long it is, and every
skip answers. -/
theorem skip_counts_iff (src : List UInt8) :
    (∀ c stop c', Cursor.Reachable src c → c.skipToDelimiter = .ok stop c' →
      let stretch := c.rest.takeWhile (!Byte.isDelimiter ·)
      ((∃ c'', c.bumps (c.rest.findIdx Byte.isDelimiter) = .ok () c'') ∧
          c'.position.Exact src c'.pos ↔
        c.position.Fits stretch ∧ c.position.line.toNat = Position.lineAfter (src.take c.pos) ∧
          (Byte.newline ∈ stretch ∨
            c.position.col.toNat = Position.columnAfter (src.take c.pos)))) ∧
      (Position.start.Fits src → ∀ c, Cursor.Reachable src c →
        ∃ stop c', c.skipToDelimiter = .ok stop c' ∧
          c.bumps (c.rest.findIdx Byte.isDelimiter) = .ok () c' ∧
          c'.position.Exact src c'.pos) := by
  refine ⟨fun c stop c' hc h => ?_, fun hfits c hc => ?_⟩
  · intro stretch
    obtain ⟨q, hq, rfl⟩ := Cursor.skipToDelimiter_cases h
    have hsrc : c.read.reverse ++ (stretch ++ c.rest.dropWhile (!Byte.isDelimiter ·)) = src := by
      rw [← c.rest_eq_stretch]
      exact hc.buffer_eq
    have hpos : c.pos = c.read.reverse.length := by rw [c.pos_eq, List.length_reverse]
    have hdone : src.take c.pos = c.read.reverse := by rw [← hsrc, hpos, List.take_left]
    rw [← Cursor.length_takeWhile_eq_findIdx, Cursor.exists_bumps_iff c.rest_eq_stretch]
    -- Bytes that can be read one by one leave the position of the skip, and so its counts.
    refine and_congr_right fun hfits => ?_
    obtain ⟨q', hq'⟩ := Position.exists_advances_iff.2 hfits
    obtain rfl : q' = q :=
      (EStateM.Result.ok.inj ((Position.skip_of_advances hq').symm.trans hq)).2
    rw [Cursor.position_past, Cursor.pos_past, hdone, hpos, ← hsrc]
    exact Position.exact_of_advances_iff hq' _ _
  · obtain ⟨q, hq, htracked⟩ := (hc.tracked hfits).past hfits _ c.rest_eq_stretch
    have hbumps := Cursor.bumps_of_advances c.rest_eq_stretch hq
    rw [Cursor.length_takeWhile_eq_findIdx] at hbumps
    exact ⟨_, _, (Cursor.skipToDelimiter_of_bumps hbumps).1, hbumps, htracked.exact⟩

/-- A stretch with a line feed, behind a byte of the first line, and then no stretch at all. -/
theorem skip_counts_iff_lines :
    ∃ c c' : Cursor, Cursor.Reachable [0x61, 0x0a, 0x62, 0x22] c ∧ c.pos = 1 ∧
      c.skipToDelimiter = .ok .quote c' ∧ c.bumps 2 = .ok () c' ∧ c'.position = ⟨2, 1⟩ ∧
      c'.position.Exact [0x61, 0x0a, 0x62, 0x22] c'.pos ∧ c.position.Fits [0x0a, 0x62] ∧
      Position.start.Fits [0x61, 0x0a, 0x62, 0x22] ∧
      ∃ stop c'', c'.skipToDelimiter = .ok stop c'' ∧
        c'.bumps (c'.rest.findIdx Byte.isDelimiter) = .ok () c'' ∧
        c''.position.Exact [0x61, 0x0a, 0x62, 0x22] c''.pos := by
  let s := (Cursor.Session.ofList [0x61, 0x0a, 0x62, 0x22]).after [.bump]
  let c' := (s.step .skipToDelimiter).2.cursor
  have hc : Cursor.Reachable _ s.cursor := Cursor.Session.reachable_after _ [.bump]
  have hskip : s.cursor.skipToDelimiter = .ok .quote c' := rfl
  have hbumps : s.cursor.bumps 2 = .ok () c' := rfl
  have hfits : Position.start.Fits [0x61, 0x0a, 0x62, 0x22] :=
    Position.fits_start_of_length_le (by decide)
  obtain ⟨hiff, hall⟩ := skip_counts_iff [0x61, 0x0a, 0x62, 0x22]
  have hexact : c'.position.Exact _ c'.pos := (hc.step hc .skipToDelimiter |>.tracked hfits).exact
  exact ⟨s.cursor, c', hc, rfl, hskip, hbumps, rfl, hexact,
    ((hiff _ _ _ hc hskip).1 ⟨⟨c', hbumps⟩, hexact⟩).1, hfits,
    hall hfits c' (hc.step hc .skipToDelimiter)⟩

/-- Over `2 ^ 32` bytes of one line the column comes back to 1, where the bytes one by one fault. -/
theorem skip_wraps :
    ∃ c c' : Cursor, Cursor.Reachable (List.replicate (2 ^ 32) 0x61) c ∧ c.pos = 0 ∧
      c.skipToDelimiter = .ok .bufferEnd c' ∧ c'.pos = 2 ^ 32 ∧ c'.position = ⟨1, 1⟩ ∧
      ¬c'.position.Exact (List.replicate (2 ^ 32) 0x61) c'.pos ∧
      ∀ c'', c.bumps (c.rest.findIdx Byte.isDelimiter) ≠ .ok () c'' := by
  -- The bytes are too many to be written out: the skip is run over a block of them.
  have hsrc : Byte.Blocks.toList [⟨[0x61], 2 ^ 32⟩] = List.replicate (2 ^ 32) 0x61 := by
    rw [Byte.Blocks.toList, List.flatMap_singleton, Byte.Block.toList_singleton]
  have hagree := (Cursor.Packed.stands_ofBlocks [⟨[0x61], 2 ^ 32⟩]).skipToDelimiter
  rw [hsrc] at hagree
  obtain ⟨c, hc⟩ : ∃ c, c = Cursor.ofList (List.replicate (2 ^ 32) 0x61) := ⟨_, rfl⟩
  rw [← hc] at hagree
  obtain ⟨c', hskip, hstands⟩ :=
    hagree.exists_ok (p := ⟨[⟨[0x61], 2 ^ 32⟩], [], 2 ^ 32, ⟨1, 1⟩⟩) rfl
  have hzero : c.pos = 0 := hc ▸ rfl
  have hpos : c'.pos = 2 ^ 32 := hstands.pos_eq.symm
  have hposition : c'.position = ⟨1, 1⟩ := hstands.position_eq.symm
  have hmem {bs : List UInt8} (hbs : bs <+: List.replicate (2 ^ 32) 0x61) : Byte.newline ∉ bs :=
    fun h => absurd (List.eq_of_mem_replicate (hbs.subset h)) (by decide)
  refine ⟨c, c', hc ▸ .fresh, hzero, hskip, hpos, hposition, fun h => ?_, fun c'' h => ?_⟩
  · have hcol := h.col_eq_of_not_mem (hmem (List.take_prefix _ _))
    rw [hposition, hpos] at hcol
    exact absurd hcol (by decide)
  · obtain ⟨q, -, hpast⟩ := Cursor.skipToDelimiter_cases hskip
    have hlength := congrArg Cursor.pos hpast
    have hstretch : Byte.newline ∉ c.rest.takeWhile (!Byte.isDelimiter ·) :=
      hmem (hc ▸ List.takeWhile_prefix _)
    rw [← Cursor.length_takeWhile_eq_findIdx] at h
    obtain ⟨-, hcol⟩ :=
      (Cursor.exists_bumps_iff c.rest_eq_stretch).1 ⟨c'', h⟩ _ (List.prefix_refl _)
    rw [Position.columnOver, if_neg hstretch] at hcol
    rw [hpos, Cursor.pos_past, hzero] at hlength
    omega

end FrontEnd
