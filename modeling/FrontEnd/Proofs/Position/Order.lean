import FrontEnd.Proofs.Grammar.Quoting
import FrontEnd.Proofs.Position.Exact

/-!
# Positions and offsets

Over a buffer of at most `2 ^ 32 - 2` bytes positions come in the order of the offsets at which they
are told, although the column goes back at every line feed (`Position.Exact.compare_eq`). So a
position tells its offset, and what it was told about:

* `Tokenizer.unknown_of_scan`: a token that carries a position carries the one behind its byte;
* `Tokenizer.Reachable.told`: the tokens of a run are told at growing offsets;
* `position_tells_byte`: the position in a token or in an error is told at one offset alone, behind
  the byte that starts no token or behind the quote that opened the literal.
-/

namespace FrontEnd

namespace Position

/-! ## The order of positions -/

/-- The line comes first, as a number, and then the column. -/
theorem compare_eq (p q : Position) :
    compare p q =
      (compare p.line.toNat q.line.toNat).then (compare p.col.toNat q.col.toNat) := by
  have hword (a b : UInt32) : compare a b = compare a.toNat b.toNat := by
    simp only [compare, compareOfLessAndEq, UInt32.lt_iff_toNat_lt, UInt32.toNat_inj]
  rw [← hword, ← hword]
  rfl

theorem compare_swap (p q : Position) : (compare p q).swap = compare q p := by
  rw [compare_eq, compare_eq, Ordering.swap_then, Nat.compare_swap, Nat.compare_swap]

theorem compare_self (p : Position) : compare p p = .eq := by
  rw [compare_eq, Nat.compare_eq_eq.2 rfl, Nat.compare_eq_eq.2 rfl]
  rfl

/-- More bytes move on to a later line, or further along the same one. -/
theorem after_append_lt (bs : List UInt8) {cs : List UInt8} (hcs : cs ≠ []) :
    lineAfter bs < lineAfter (bs ++ cs) ∨
      lineAfter bs = lineAfter (bs ++ cs) ∧ columnAfter bs < columnAfter (bs ++ cs) := by
  rw [lineAfter_append, columnAfter_append]
  by_cases hmem : Byte.newline ∈ cs
  · have hcount := List.count_pos_iff.2 hmem
    exact .inl (by omega)
  · have hlength := List.length_pos_iff.2 hcs
    rw [if_neg hmem, List.count_eq_zero_of_not_mem hmem]
    exact .inr ⟨rfl, by omega⟩

namespace Exact

variable {src : List UInt8} {n n' : Nat} {p p' : Position}

theorem compare_eq_lt (h : p.Exact src n) (h' : p'.Exact src n') (hlt : n < n') :
    compare p p' = .lt := by
  have hsplit : src.take n' = src.take n ++ (src.drop n).take (n' - n) := by
    rw [← List.take_add, Nat.add_sub_cancel' (Nat.le_of_lt hlt)]
  have hne : (src.drop n).take (n' - n) ≠ [] := by
    have hle := h'.le_length
    rw [← List.length_pos_iff, List.length_take, List.length_drop]
    omega
  have hline : p.line.toNat = lineAfter (src.take n) := h.line_eq
  have hline' : p'.line.toNat = lineAfter (src.take n') := h'.line_eq
  rw [Position.compare_eq, hline, hline', h.toNat_col_eq, h'.toNat_col_eq, hsplit]
  rcases after_append_lt (src.take n) hne with hlater | ⟨hsame, hfurther⟩
  · rw [Nat.compare_eq_lt.2 hlater]
    rfl
  · rw [Nat.compare_eq_eq.2 hsame, Nat.compare_eq_lt.2 hfurther]
    rfl

/-- Positions are ordered as the offsets they are told at. -/
theorem compare_eq (h : p.Exact src n) (h' : p'.Exact src n') : compare p p' = compare n n' := by
  rcases Nat.lt_trichotomy n n' with hlt | rfl | hlt
  · rw [h.compare_eq_lt h' hlt, Nat.compare_eq_lt.2 hlt]
  · rw [h.unique h' rfl, compare_self, Nat.compare_eq_eq.2 rfl]
  · rw [← compare_swap, h'.compare_eq_lt h hlt, Nat.compare_eq_gt.2 hlt]
    rfl

/-- A position tells its offset. -/
theorem offset_eq (h : p.Exact src n) (h' : p.Exact src n') : n' = n := by
  have hsame := h.compare_eq h'
  rw [compare_self] at hsame
  exact (Nat.compare_eq_eq.1 hsame.symm).symm

end Exact

/-- Every offset of a buffer is come to, and its position told there. -/
theorem Reached.of_exact {src : List UInt8} (hlen : src.length ≤ 2 ^ 32 - 2) {n : Nat} {p : Position}
    (h : p.Exact src n) : Reached src n p := by
  have hreach : ∀ k ≤ src.length, Cursor.Reachable src (.between (src.take k) (src.drop k)) := by
    intro k hk
    induction k with
    | zero => exact .fresh
    | succ k ih =>
      have hdrop := List.drop_eq_getElem_cons hk
      have hbuffer : (src.take k ++ src[k] :: src.drop (k + 1)).length ≤ 2 ^ 32 - 2 := by
        rwa [← hdrop, List.take_append_drop]
      have hstep := Cursor.Reachable.step (ih (Nat.le_of_lt hk)) .fresh .bump
      simp only [hdrop, Cursor.Session.step, Cursor.Session.run, Cursor.bump_between hbuffer] at hstep
      rwa [← List.take_succ_eq_append_getElem hk] at hstep
  have hat : Reached src (src.take n).length (after (src.take n)) :=
    .cursor (hreach n h.le_length)
  rw [List.length_take, Nat.min_eq_left h.le_length] at hat
  rwa [h.unique (hat.exact hlen) rfl] at hat

end Position

/-! ## What carries a position -/

namespace Tokenizer

variable {src : List UInt8} {t t' : Tokenizer}

/-- A byte that starts no token is read last, and its token carries the position behind it. -/
theorem unknown_of_scan (hlen : src.length ≤ 2 ^ 32 - 2) (ht : t.cursor.Within src) {p : Position}
    {b : UInt8} (h : t.scan = .ok (.ok (.unknown p b)) t') :
    p = t'.position ∧ ∃ n, t'.offset = n + 1 ∧ src[n]? = some b := by
  obtain ⟨c, failed⟩ := t
  obtain ⟨done, rest, rfl, rfl⟩ := ht
  cases failed with
  | some e => simp [scan] at h
  | none =>
    change (between done rest).scan = _ at h
    rcases scan_cases hlen with ⟨-, hscan⟩ | ⟨_, _, e, -, -, -, -, hscan⟩ |
      ⟨⟨gap, token, _, _⟩, rest', rfl, hscan⟩
    · rw [hscan] at h
      cases h
    · rw [hscan] at h
      cases h
    · rw [hscan] at h
      obtain ⟨htoken, rfl⟩ := EStateM.Result.ok.inj h
      cases token <;> cases htoken
      refine ⟨rfl, (done ++ gap).length, ?_, by simp [Piece.text, Token.spelling]⟩
      rw [offset_between, Piece.text, Token.spelling, ← List.append_assoc, List.length_append]
      rfl

end Tokenizer

/-- A token that is listed over `src`, behind offset `o`: where it ended, and what it carries. -/
structure Lexed.Told (src : List UInt8) (o : Nat) (l : Lexed) : Prop where
  offset_lt : o < l.offset
  reached : Position.Reached src l.offset l.position
  unknown : ∀ p b, l.token = .unknown p b →
    p = l.position ∧ ∃ n, l.offset = n + 1 ∧ src[n]? = some b

namespace Tokenizer.Reachable

variable {src : List UInt8} {t : Tokenizer}

/-- The tokens of a run are told one behind the other. -/
theorem told (hlen : src.length ≤ 2 ^ 32 - 2) (ht : Reachable src t) :
    (∀ l ∈ t.run.lexed, l.Told src t.offset) ∧
      t.run.lexed.Pairwise fun l l' => l.offset < l'.offset := by
  induction hls : t.run.lexed generalizing t with
  | nil => exact ⟨nofun, .nil⟩
  | cons l ls ih =>
    obtain ⟨t', hscan, heof, hoffset, hposition, hrest⟩ := exists_scan_of_lexed_run hls
    have hlt : t.offset < l.offset := hoffset ▸ offset_lt_of_scan hscan heof
    have hnext := ht.scan hscan
    obtain ⟨htold, hpairwise⟩ := ih hnext hrest
    rw [← hoffset] at htold
    refine ⟨List.forall_mem_cons.2 ⟨⟨hlt, ?_, fun p b htoken => ?_⟩, fun l' hl' => ?_⟩,
      List.pairwise_cons.2 ⟨fun l' hl' => (htold l' hl').offset_lt, hpairwise⟩⟩
    · rw [hoffset, hposition]
      exact .tokenizer hnext
    · rw [htoken] at hscan
      rw [hoffset, hposition]
      exact unknown_of_scan hlen (ht.within hlen) hscan
    · obtain ⟨hoffset', hreached, hunknown⟩ := htold l' hl'
      exact ⟨Nat.lt_trans hlt hoffset', hreached, hunknown⟩

/-- The positions of a run grow from token to token. -/
theorem pairwise_position (hlen : src.length ≤ 2 ^ 32 - 2) (ht : Reachable src t) :
    t.run.lexed.Pairwise fun l l' => compare l.position l'.position = .lt := by
  obtain ⟨htold, hpairwise⟩ := ht.told hlen
  refine hpairwise.imp_of_mem fun hl hl' hlt => ?_
  exact ((htold _ hl).reached.exact hlen).compare_eq_lt ((htold _ hl').reached.exact hlen) hlt

/-- The runs over a buffer end in the same error, or all in none. -/
theorem stop_run (hlen : src.length ≤ 2 ^ 32 - 2) (ht : Reachable src t) :
    t.run.stop = (ofList src).run.stop := by
  obtain ⟨tokens, ending, hc⟩ := exists_course src hlen
  obtain ⟨i, rfl⟩ := hc.exists_afterScans ht
  exact (hc.stop_run i).trans (hc.stop_run 0).symm

end Tokenizer.Reachable

/-! ## From a position back to its byte -/

/-- The position `p` is told at one offset of `src` alone, behind byte `n`, which is `b`. -/
structure Position.Tells (src : List UInt8) (p : Position) (n : Nat) (b : UInt8) : Prop where
  byte_eq : src[n]? = some b
  reached : Reached src (n + 1) p
  unique : ∀ m, Reached src m p → m = n + 1

namespace Position

variable {src : List UInt8} {p : Position} {n : Nat} {b : UInt8}

theorem Reached.tells (hlen : src.length ≤ 2 ^ 32 - 2) (h : Reached src (n + 1) p)
    (hb : src[n]? = some b) : p.Tells src n b :=
  ⟨hb, h, fun _ hm => (h.exact hlen).offset_eq (hm.exact hlen)⟩

theorem exists_tells_unknown (hlen : src.length ≤ 2 ^ 32 - 2) {t : Tokenizer}
    (ht : Tokenizer.Reachable src t) (h : .unknown p b ∈ t.run.tokens) :
    ∃ n, p.Tells src n b := by
  obtain ⟨l, hl, htoken⟩ := List.mem_map.1 h
  obtain ⟨-, hreached, hunknown⟩ := (ht.told hlen).1 l hl
  obtain ⟨rfl, n, hoffset, hbyte⟩ := hunknown p b htoken
  exact ⟨n, (hoffset ▸ hreached).tells hlen hbyte⟩

theorem exists_tells_opening (hlen : src.length ≤ 2 ^ 32 - 2) {t : Tokenizer}
    (ht : Tokenizer.Reachable src t)
    (h : t.run.stop = some (.lexError (.unterminatedString p))) :
    ∃ q, LastOpening src q ∧ p.Tells src q Byte.quote := by
  rw [ht.stop_run hlen] at h
  have hout : Quoting.after src ≠ .outside := fun hout => by
    rw [Tokenizer.run_of_outside hlen hout] at h
    cases h
  obtain ⟨q, hq, -, hstop, -⟩ := Tokenizer.run_of_not_outside hlen hout
  rw [h] at hstop
  cases hstop
  obtain ⟨hlt, -⟩ := List.getElem?_eq_some_iff.1 hq.quote
  have hexact : (after (src.take (q + 1))).Exact
      (src.take (q + 1) ++ src.drop (q + 1)) (src.take (q + 1)).length :=
    exact_after (by rwa [List.take_append_drop])
  rw [List.take_append_drop, List.length_take, Nat.min_eq_left hlt] at hexact
  exact ⟨q, hq, (Reached.of_exact hlen hexact).tells hlen hq.quote⟩

end Position

/-- Over a buffer of at most `2 ^ 32 - 2` bytes any two positions that are told compare as their
offsets do. So the position in a token is told at one offset alone, behind the byte that starts no
token, and these positions grow along a run; and the position in an error is told at one offset
alone, behind the quote that opened the last literal. -/
theorem position_tells_byte (src : List UInt8) (hlen : src.length ≤ 2 ^ 32 - 2) :
    (∀ n n' p p', Position.Reached src n p → Position.Reached src n' p' →
      compare p p' = compare n n' ∧ (p = p' → n = n')) ∧
    ∀ t, Tokenizer.Reachable src t →
      (∀ p b, .unknown p b ∈ t.run.tokens → ∃ n, p.Tells src n b) ∧
      (∀ p, t.run.stop = some (.lexError (.unterminatedString p)) →
        ∃ q, LastOpening src q ∧ p.Tells src q Byte.quote) ∧
      t.run.tokens.Pairwise fun token token' =>
        ∀ p b p' b', token = .unknown p b → token' = .unknown p' b' → compare p p' = .lt := by
  refine ⟨fun n n' p p' h h' => ⟨(h.exact hlen).compare_eq (h'.exact hlen), ?_⟩, fun t ht => ?_⟩
  · rintro rfl
    exact (h'.exact hlen).offset_eq (h.exact hlen)
  · refine ⟨fun p b => Position.exists_tells_unknown hlen ht,
      fun p => Position.exists_tells_opening hlen ht, List.pairwise_map.2 ?_⟩
    refine (ht.pairwise_position hlen).imp_of_mem fun hl hl' hlt p b p' b' htoken htoken' => ?_
    obtain ⟨rfl, -⟩ := ((ht.told hlen).1 _ hl).unknown p b htoken
    obtain ⟨rfl, -⟩ := ((ht.told hlen).1 _ hl').unknown p' b' htoken'
    exact hlt

/-- The lines `a@` and `@"b`: behind the first line feed the column is less than before it. The
bytes that start no token and the quote are told apart by their positions, also after a reset. -/
theorem position_tells_byte_lines :
    let src : List UInt8 := [0x61, 0x40, 0x0a, 0x40, 0x22, 0x62]
    let c := ((Cursor.Session.ofList src).after [.skipToDelimiter, .reset,
      .eatWhile (· != Byte.newline), .bump]).cursor
    let t := ((Tokenizer.Session.ofList src).after [.collect, .reset, .next, .scan]).tokenizer
    let u := ((Tokenizer.Session.ofList src).after [.peek, .next]).tokenizer
    src.length ≤ 2 ^ 32 - 2 ∧ c.pos = 3 ∧ c.position = ⟨2, 0⟩ ∧ t.offset = 2 ∧
      t.position = ⟨1, 3⟩ ∧ compare t.position c.position = compare t.offset c.pos ∧
      .unknown ⟨2, 1⟩ 0x40 ∈ t.run.tokens ∧ (∃ n, Position.Tells src ⟨2, 1⟩ n 0x40) ∧
      t.run.stop = some (.lexError (.unterminatedString ⟨2, 2⟩)) ∧
      (∃ q, LastOpening src q ∧ Position.Tells src ⟨2, 2⟩ q Byte.quote) ∧
      u.run.tokens = [.unknown ⟨1, 3⟩ 0x40, .unknown ⟨2, 1⟩ 0x40] ∧
      compare (⟨1, 3⟩ : Position) ⟨2, 1⟩ = .lt := by
  intro src c t u
  obtain ⟨hcompare, hruns⟩ := position_tells_byte src (by decide)
  have ht : Tokenizer.Reachable src t := Tokenizer.reachable_after src _
  obtain ⟨hunknown, hunterminated, -⟩ := hruns t ht
  obtain ⟨-, -, hpairwise⟩ := hruns u (Tokenizer.reachable_after src _)
  have hmem : .unknown ⟨2, 1⟩ 0x40 ∈ t.run.tokens := by decide +kernel
  have hstop : t.run.stop = some (.lexError (.unterminatedString ⟨2, 2⟩)) := by decide +kernel
  have htokens : u.run.tokens = [.unknown ⟨1, 3⟩ 0x40, .unknown ⟨2, 1⟩ 0x40] := by decide +kernel
  rw [htokens, List.pairwise_pair] at hpairwise
  exact ⟨by decide, by decide +kernel, by decide +kernel, by decide +kernel, by decide +kernel,
    (hcompare _ _ _ _ (.tokenizer ht) (.cursor (Cursor.Session.reachable_after src _))).1, hmem,
    hunknown _ _ hmem, hstop, hunterminated _ hstop, htokens, hpairwise _ _ _ _ rfl rfl⟩

end FrontEnd
