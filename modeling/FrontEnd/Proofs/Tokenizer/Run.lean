import FrontEnd.Proofs.Tokenizer.Scan
import FrontEnd.Proofs.Grammar.Piece

/-!
# Runs, piece by piece

A run goes on from scan to scan (`run_of_token`, `run_of_eof`, `run_of_error`,
`run_of_fault`), so it reads a buffer
piece by piece and lists what the pieces stand for:

* `run_pieces`: pieces, followed by anything that ends the last of them;
* `run_blank`: a gap, after which the source ends;
* `run_unclosed`: a gap and a literal that never closes, which is the error.

As every buffer is pieces and a tail (`exists_pieces`), these describe every run over a buffer of at
most `2 ^ 32 - 2` bytes.
-/

namespace FrontEnd

/-- A run after more scans. -/
def Run.prepend (ls : List Lexed) (r : Run) : Run := { r with lexed := ls ++ r.lexed }

namespace Run

@[simp] theorem lexed_prepend (ls : List Lexed) (r : Run) :
    (r.prepend ls).lexed = ls ++ r.lexed := rfl

@[simp] theorem stop_prepend (ls : List Lexed) (r : Run) : (r.prepend ls).stop = r.stop := rfl

@[simp] theorem final_prepend (ls : List Lexed) (r : Run) : (r.prepend ls).final = r.final := rfl

@[simp] theorem tokens_prepend (ls : List Lexed) (r : Run) :
    (r.prepend ls).tokens = ls.map (·.token) ++ r.tokens := by
  simp [tokens]

@[simp] theorem prepend_nil (r : Run) : r.prepend [] = r := rfl

theorem prepend_prepend (ls ls' : List Lexed) (r : Run) :
    (r.prepend ls').prepend ls = r.prepend (ls ++ ls') := by
  simp [prepend]

end Run

namespace Tokenizer

/-! ## From scan to scan -/

/-- The run, by the answer of its first scan. -/
theorem runFrom_eq (ls : List Lexed) (t : Tokenizer) :
    runFrom ls t =
      match t.scan with
      | .ok (.ok token) t' =>
        if token.isEof then ⟨ls.reverse, none, t'⟩
        else runFrom (⟨token, t'.offset, t'.position⟩ :: ls) t'
      | .ok (.error e) t' => ⟨ls.reverse, some (.lexError e), t'⟩
      | .error f t' => ⟨ls.reverse, some (.fault f), t'⟩ := by
  rw [runFrom]
  split <;> rename_i h <;> simp only [h]
  split <;> rfl

/-- What was scanned before a run stays before it. -/
theorem runFrom_eq_prepend (ls : List Lexed) (t : Tokenizer) :
    runFrom ls t = t.run.prepend ls.reverse := by
  -- Every token that is listed leaves less of the source.
  induction hn : t.cursor.rest.length using Nat.strongRecOn generalizing ls t with
  | ind n ih =>
    rw [run, runFrom_eq, runFrom_eq [] t]
    cases hs : t.scan with
    | error f t' => simp [Run.prepend]
    | ok r t' =>
      cases r with
      | error e => simp [Run.prepend]
      | ok token =>
        by_cases ht : token.isEof
        · simp [Run.prepend, ht]
        · have hlt := rest_length_lt_of_scan hs (by simpa using ht)
          simp only [if_neg ht]
          rw [ih _ (hn ▸ hlt) _ t' rfl, ih _ (hn ▸ hlt) [_] t' rfl, Run.prepend_prepend]
          simp

theorem run_of_token {t t' : Tokenizer} {token : Token} (h : t.scan = .ok (.ok token) t')
    (ht : token.isEof = false) :
    t.run = t'.run.prepend [⟨token, t'.offset, t'.position⟩] := by
  rw [run, runFrom_eq]
  simp only [h, ht, Bool.false_eq_true, if_false]
  rw [runFrom_eq_prepend, List.reverse_singleton]

theorem run_of_eof {t t' : Tokenizer} (h : t.scan = .ok (.ok .eof) t') : t.run = ⟨[], none, t'⟩ := by
  rw [run, runFrom_eq]
  simp only [h]
  rfl

theorem run_of_error {t t' : Tokenizer} {e : LexError} (h : t.scan = .ok (.error e) t') :
    t.run = ⟨[], some (.lexError e), t'⟩ := by
  rw [run, runFrom_eq]
  simp only [h]
  rfl

theorem run_of_fault {t t' : Tokenizer} {f : Fault} (h : t.scan = .error f t') :
    t.run = ⟨[], some (.fault f), t'⟩ := by
  rw [run, runFrom_eq]
  simp only [h]
  rfl

/-- What a run lists first is what the first scan gives, and the rest is listed from there. -/
theorem exists_scan_of_lexed_run {t : Tokenizer} {l : Lexed} {ls : List Lexed}
    (h : t.run.lexed = l :: ls) :
    ∃ t', t.scan = .ok (.ok l.token) t' ∧ l.token.isEof = false ∧ l.offset = t'.offset ∧
      l.position = t'.position ∧ t'.run.lexed = ls := by
  cases hscan : t.scan with
  | error f t' =>
    rw [run_of_fault hscan] at h
    cases h
  | ok r t' =>
    cases r with
    | error e =>
      rw [run_of_error hscan] at h
      cases h
    | ok token =>
      cases heof : token.isEof with
      | true =>
        cases token <;> cases heof
        rw [run_of_eof hscan] at h
        cases h
      | false =>
        rw [run_of_token hscan heof] at h
        obtain ⟨rfl, rfl⟩ := List.cons_eq_cons.1 h
        exact ⟨t', rfl, heof, rfl, rfl, rfl⟩

/-- A run depends on its state through the first scan alone. -/
theorem run_congr {t t' : Tokenizer} (h : t.scan = t'.scan) : t.run = t'.run := by
  rw [run, run, runFrom_eq, runFrom_eq [] t', h]

/-! ## From piece to piece -/

variable {done rest : List UInt8}

theorem run_gap {gap : List UInt8} (hgap : Gap gap)
    (h : (done ++ (gap ++ rest)).length ≤ 2 ^ 32 - 2) :
    (between done (gap ++ rest)).run = (between (done ++ gap) rest).run :=
  run_congr (scan_gap hgap h)

/-- The scan of a piece. -/
theorem scan_piece (p : Piece) (hend : p.token.EndsBefore rest)
    (h : (done ++ (p.text ++ rest)).length ≤ 2 ^ 32 - 2) :
    (between done (p.text ++ rest)).scan =
      .ok (.ok (p.token.placed (.after (done ++ p.text)))) (between (done ++ p.text) rest) := by
  rw [Piece.text, List.append_assoc] at h ⊢
  rw [scan_gap p.gap_blank h, ← List.append_assoc]
  rw [← List.append_assoc] at h
  exact scan_spelling p.wellFormed hend h

/-- The scan of what is left of a buffer: a gap and the end of the source, a literal that never
closes, or a piece. -/
theorem scan_cases (h : (done ++ rest).length ≤ 2 ^ 32 - 2) :
    (Gap rest ∧ (between done rest).scan = .ok (.ok .eof) (between (done ++ rest) [])) ∨
    (∃ gap body e, Gap gap ∧ Unclosed body ∧ rest = gap ++ Byte.quote :: body ∧
      e = .unterminatedString (.after (done ++ gap ++ [Byte.quote])) ∧
      (between done rest).scan =
        .ok (.error e) { cursor := .between (done ++ rest) [], failed := some e }) ∨
    ∃ (p : Piece) (rest' : List UInt8), rest = p.text ++ rest' ∧
      (between done rest).scan =
        .ok (.ok (p.token.placed (.after (done ++ p.text)))) (between (done ++ p.text) rest') := by
  rcases tail_or_piece rest with htail | ⟨p, rest', hend, rfl⟩
  · cases htail with
    | blank hgap =>
      have hscan : (between done (rest ++ [])).scan = _ := scan_gap hgap (by simpa using h)
      rw [List.append_nil, scan_between_nil h] at hscan
      exact .inl ⟨hgap, hscan⟩
    | @unclosed gap body hgap hbody =>
      refine .inr (.inl ⟨gap, body, _, hgap, hbody, rfl, rfl, ?_⟩)
      rw [scan_gap hgap h, scan_unclosed hbody (by simpa using h),
        List.append_assoc done gap (_ :: body)]
  · exact .inr (.inr ⟨p, rest', rfl, scan_piece p hend h⟩)

theorem run_piece (p : Piece) (hend : p.token.EndsBefore rest)
    (h : (done ++ (p.text ++ rest)).length ≤ 2 ^ 32 - 2) :
    (between done (p.text ++ rest)).run =
      (between (done ++ p.text) rest).run.prepend (Piece.lexed done [p]) :=
  run_of_token (scan_piece p hend h) (p.wellFormed.isEof_placed _)

/-- The scans of a sequence of pieces. -/
theorem run_pieces (done : List UInt8) {ps : List Piece} (hsep : Piece.Separated ps rest)
    (h : (done ++ (Piece.texts ps ++ rest)).length ≤ 2 ^ 32 - 2) :
    (between done (Piece.texts ps ++ rest)).run =
      (between (done ++ Piece.texts ps) rest).run.prepend (Piece.lexed done ps) := by
  induction ps generalizing done with
  | nil => simp [Piece.lexed]
  | cons p ps ih =>
    obtain ⟨hend, hsep⟩ := hsep
    rw [Piece.texts_cons, List.append_assoc] at h ⊢
    rw [run_piece p hend h]
    rw [← List.append_assoc] at h
    rw [ih _ hsep h, Run.prepend_prepend, List.append_assoc]
    rfl

/-- The source ends after a gap. -/
theorem run_blank {gap : List UInt8} (hgap : Gap gap) (h : (done ++ gap).length ≤ 2 ^ 32 - 2) :
    (between done gap).run = ⟨[], none, between (done ++ gap) []⟩ := by
  have hrun : (between done (gap ++ [])).run = _ := run_gap hgap (by simpa using h)
  rw [List.append_nil] at hrun
  rw [hrun, run_of_eof (scan_between_nil h)]

/-- A literal that never closes is the error, wherever it opens. -/
theorem run_unclosed {gap body : List UInt8} (hgap : Gap gap) (hbody : Unclosed body)
    (h : (done ++ (gap ++ Byte.quote :: body)).length ≤ 2 ^ 32 - 2) :
    (between done (gap ++ Byte.quote :: body)).run =
      let e := .unterminatedString (.after (done ++ gap ++ [Byte.quote]))
      ⟨[], some (.lexError e),
        { cursor := .between (done ++ gap ++ Byte.quote :: body) [], failed := some e }⟩ := by
  rw [run_gap hgap h, run_of_error (scan_unclosed hbody (by simpa using h))]

/-- A run over a buffer lists its first pieces, and goes on with what follows them. -/
theorem run_ofList_pieces {ps : List Piece} (hsep : Piece.Separated ps rest)
    (h : (Piece.texts ps ++ rest).length ≤ 2 ^ 32 - 2) :
    (ofList (Piece.texts ps ++ rest)).run =
      (between (Piece.texts ps) rest).run.prepend (Piece.lexed [] ps) :=
  run_pieces [] hsep h

end Tokenizer

/-- The tokens of a buffer are those of its run. -/
theorem tokenize_of_stop_eq_none {src : List UInt8} (h : (Tokenizer.ofList src).run.stop = none) :
    tokenize src = .ok (Tokenizer.ofList src).run.tokens := by
  simp only [tokenize, Tokenizer.collect, h]

end FrontEnd
