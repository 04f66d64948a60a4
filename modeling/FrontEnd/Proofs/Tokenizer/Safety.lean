import FrontEnd.Proofs.Grammar.Scanned
import FrontEnd.Proofs.Position.Exact

/-!
# What a scan relies on

A scan never faults, and an operation that is stopped is stopped by an error that a scan answers
(`Tokenizer.StoppedBy`). The reason is what it relies on where it uses its buffer. `Cursor.Use` has
the places: a search of what is left, a range that is cut out, and a delimiter that is read after a
search found it. The offset at which a literal or a run began is saved before the cursor goes on by
stretches and escapes; it stays behind the cursor (`BodyUses.sound`), so that every use is sound
(`Cursor.Use.Sound`) in all states that are reached.

`Tokenizer.stopped_by_lexError` has both, for all sequences of operations.
-/

namespace FrontEnd

namespace Cursor

/-! ## Uses of the buffer -/

/-- A use of the buffer that relies on what was read before. -/
inductive Use where
  /-- A search of all that is left. -/
  | search
  /-- A range that is cut out. -/
  | slice (start stop : Nat)
  /-- The delimiter `b`, read where a search found it. -/
  | take (b : UInt8)
  deriving DecidableEq, Repr

/-- What a use relies on, made by the cursor `c` over `src`. -/
def Use.Sound (src : List UInt8) (c : Cursor) : Use → Prop
  | search => c.pos ≤ src.length ∧ c.rest = src.drop c.pos
  | slice start stop =>
    start ≤ stop ∧ stop ≤ c.pos ∧ stop ≤ src.length ∧
      c.slice start stop = .ok ((src.take stop).drop start)
  | take b => c.current = some b ∧ ∃ c', c.bump = .ok (some b) c' ∧ c'.pos = c.pos + 1

/-- The uses up to the next delimiter of a string literal whose content began at `start`, each with
the cursor that makes it. -/
inductive SegmentUses (start : Nat) (c : Cursor) : Cursor → Use → Prop where
  | search : SegmentUses start c c .search
  | closing {c₁ : Cursor} :
    c.skipToDelimiter = .ok .quote c₁ → SegmentUses start c c₁ (.take Byte.quote)
  | content {c₁ c₂ : Cursor} {b : Option UInt8} :
    c.skipToDelimiter = .ok .quote c₁ → c₁.bump = .ok b c₂ →
      SegmentUses start c c₂ (.slice start c₁.pos)
  | escape {c₁ : Cursor} :
    c.skipToDelimiter = .ok .backslash c₁ → SegmentUses start c c₁ (.take Byte.backslash)

/-- The uses in the rest of a string literal whose content began at `start`. -/
inductive BodyUses (start : Nat) : Cursor → Cursor → Use → Prop where
  | here {c c' : Cursor} {u : Use} : SegmentUses start c c' u → BodyUses start c c' u
  | later {c c₁ c' : Cursor} {u : Use} :
    c.segment start = .ok .escaped c₁ → BodyUses start c₁ c' u → BodyUses start c c' u

/-- The uses in a token. -/
inductive TokenUses (c : Cursor) : Cursor → Use → Prop where
  | literal {c₁ c₂ c' : Cursor} {u : Use} :
    c.eatWhile Byte.hasBlankFlag = .ok () c₁ → c₁.bump = .ok (some Byte.quote) c₂ →
      BodyUses c₂.pos c₂ c' u → TokenUses c c' u
  | run {c₁ c₂ c₃ : Cursor} {b : UInt8} {p : UInt8 → Bool} :
    c.eatWhile Byte.hasBlankFlag = .ok () c₁ → c₁.bump = .ok (some b) c₂ →
      p = Byte.hasLetterFlag ∨ p = Byte.hasDigitFlag → p b = true → c₂.eatWhile p = .ok () c₃ →
      TokenUses c c₃ (.slice c₁.pos c₃.pos)

variable {src : List UInt8} {c c' : Cursor} {u : Use}

theorem Reads.pos_le (h : c.Reads c') : c.pos ≤ c'.pos := by
  obtain ⟨bs, hrest, hread⟩ := h
  rw [Took.pos_eq ⟨hrest, hread⟩]
  exact Nat.le_add_right ..

/-! ## Within the buffer -/

namespace Within

variable (hlen : src.length ≤ 2 ^ 32 - 2) (h : c.Within src)
include hlen h

theorem bump {b : Option UInt8} (hbump : c.bump = .ok b c') : c'.Within src := by
  have hstep := (Session.step_within hlen h h .bump).1
  simp only [Session.step, Session.run, hbump] at hstep
  exact hstep

theorem eatWhile {p : UInt8 → Bool} (heat : c.eatWhile p = .ok () c') : c'.Within src := by
  have hstep := (Session.step_within hlen h h (.eatWhile p)).1
  simp only [Session.step, Session.run, heat] at hstep
  exact hstep

theorem skipToDelimiter {s : Stop} (hskip : c.skipToDelimiter = .ok s c') : c'.Within src := by
  have hstep := (Session.step_within hlen h h .skipToDelimiter).1
  simp only [Session.step, Session.run, hskip] at hstep
  exact hstep

end Within

theorem Within.segment_escaped (hlen : src.length ≤ 2 ^ 32 - 2) (h : c.Within src) {start : Nat}
    (hsegment : c.segment start = .ok .escaped c') : c'.Within src := by
  cases steps_of_segment hsegment with
  | escaped hskip hbump hbump' =>
    exact ((h.skipToDelimiter hlen hskip).bump hlen hbump).bump hlen hbump'

theorem Within.sound_search (h : c.Within src) : Use.search.Sound src c := by
  obtain ⟨done, rest, rfl, rfl⟩ := h
  exact ⟨by simp, by rw [pos_between, List.drop_left, rest_between]⟩

theorem Within.sound_slice (h : c.Within src) {start stop : Nat} (hstart : start ≤ stop)
    (hstop : stop ≤ c.pos) : (Use.slice start stop).Sound src c := by
  have hle : c.pos ≤ src.length := h.sound_search.1
  obtain ⟨done, rest, rfl, rfl⟩ := h
  refine ⟨hstart, hstop, Nat.le_trans hstop hle, ?_⟩
  rw [slice_between hstart hstop, List.take_append_of_le_length hstop]

theorem Within.sound_take (hlen : src.length ≤ 2 ^ 32 - 2) (h : c.Within src) {b : UInt8}
    (hcurrent : c.current = some b) : (Use.take b).Sound src c := by
  obtain ⟨done, rest, rfl, rfl⟩ := h
  cases rest with
  | nil => cases hcurrent
  | cons b' rest =>
    obtain rfl : b' = b := Option.some.inj hcurrent
    exact ⟨hcurrent, _, bump_between hlen, by simp⟩

/-! ## Uses are sound -/

section Uses

variable (hlen : src.length ≤ 2 ^ 32 - 2) (hc : c.Within src) {start : Nat}
include hlen hc

theorem SegmentUses.sound (hstart : start ≤ c.pos) (h : SegmentUses start c c' u) :
    u.Sound src c' := by
  cases h with
  | search => exact hc.sound_search
  | closing hskip =>
    exact (hc.skipToDelimiter hlen hskip).sound_take hlen (current_of_skipToDelimiter hskip)
  | content hskip hbump =>
    have hskipped := hc.skipToDelimiter hlen hskip
    exact (hskipped.bump hlen hbump).sound_slice
      (Nat.le_trans hstart (reads_of_skipToDelimiter hskip).pos_le) (reads_of_bump hbump).pos_le
  | escape hskip =>
    exact (hc.skipToDelimiter hlen hskip).sound_take hlen (current_of_skipToDelimiter hskip)

/-- The cursor moves on from escape to escape, and the start of the literal stays behind it. -/
theorem BodyUses.sound (hstart : start ≤ c.pos) (h : BodyUses start c c' u) : u.Sound src c' := by
  induction h with
  | here h => exact h.sound hlen hc hstart
  | later hsegment _ ih =>
    exact ih (hc.segment_escaped hlen hsegment)
      (Nat.le_trans hstart (reads_of_segment hsegment).pos_le)

theorem TokenUses.sound (h : TokenUses c c' u) : u.Sound src c' := by
  cases h with
  | literal heat hbump hbody =>
    exact hbody.sound hlen ((hc.eatWhile hlen heat).bump hlen hbump) (Nat.le_refl _)
  | run heat hbump _ _ hrun =>
    exact (((hc.eatWhile hlen heat).bump hlen hbump).eatWhile hlen hrun).sound_slice
      ((reads_of_bump hbump).trans (reads_of_eatWhile hrun)).pos_le (Nat.le_refl _)

end Uses

/-! ## What a token carries is cut out -/

theorem exists_slice_of_stringBody {start : Nat} {r : Option (List UInt8)} {body : List UInt8}
    (h : c.stringBody start = .ok r c') (hr : r = some body) :
    ∃ c₁ stop, BodyUses start c c₁ (.slice start stop) ∧ c₁.slice start stop = .ok body := by
  fun_induction stringBody start c with
  | case1 c body' c₁ hsegment =>
    obtain ⟨rfl, -⟩ := EStateM.Result.ok.inj h
    cases hr
    cases steps_of_segment hsegment with
    | closed hskip hbump hslice => exact ⟨_, _, .here (.content hskip hbump), hslice⟩
  | case2 c c₁ hsegment ih =>
    obtain ⟨c₂, stop, huse, hslice⟩ := ih h
    exact ⟨c₂, stop, .later hsegment huse, hslice⟩
  | case3 c c₁ hsegment =>
    obtain ⟨rfl, -⟩ := EStateM.Result.ok.inj h
    cases hr
  | case4 => simp at h

theorem lexeme?_of_ofPunctuation? {b : UInt8} {t : Token} (h : Token.ofPunctuation? b = some t) :
    t.lexeme? = none := by
  unfold Token.ofPunctuation? at h
  repeat' split at h
  all_goals cases h
  all_goals rfl

/-- What a token carries is one of the ranges that its scan cuts out. -/
theorem exists_slice_of_token {t : Token} {bs : List UInt8} (h : c.token = .ok (.ok t) c')
    (ht : t.lexeme? = some bs) :
    ∃ c₁ start stop, TokenUses c c₁ (.slice start stop) ∧ c₁.slice start stop = .ok bs := by
  cases steps_of_token h with
  | eof | unknown => cases ht
  | punctuation _ _ hp =>
    rw [lexeme?_of_ofPunctuation? hp] at ht
    cases ht
  | string heat hbump hbody =>
    obtain rfl := Option.some.inj ht
    obtain ⟨c₁, stop, huse, hslice⟩ := exists_slice_of_stringBody hbody rfl
    exact ⟨c₁, _, stop, .literal heat hbump huse, hslice⟩
  | ident heat hbump hletter hrun hslice =>
    obtain rfl := Option.some.inj ht
    exact ⟨_, _, _, .run heat hbump (.inl rfl) hletter hrun, hslice⟩
  | number heat hbump hdigit hrun hslice =>
    obtain rfl := Option.some.inj ht
    exact ⟨_, _, _, .run heat hbump (.inr rfl) hdigit hrun, hslice⟩

end Cursor

namespace Tokenizer

variable {src : List UInt8} {t : Tokenizer}

/-- The uses of the buffer in the next scan. An error that was met before is answered without. -/
def Uses (t : Tokenizer) (c : Cursor) (u : Cursor.Use) : Prop :=
  t.failed = none ∧ t.cursor.TokenUses c u

/-! ## Stops -/

/-- The operations that an error stops. -/
def Op.canStop : Op → Bool
  | next | peek | next? | collect => true
  | scan | reset | save | restore => false

/-- The operation `op` on `t` is stopped by the error that the scans answer. -/
structure StoppedBy (t : Tokenizer) (op : Op) (a : Abort) : Prop where
  canStop : op.canStop = true
  stop_run : t.run.stop = some a
  eq_lexError : ∃ p, a = .lexError (.unterminatedString p) ∧
    a.message = p.text ++ ": unterminated string literal" ∧
    (op ≠ .collect → ∃ t', t.scan = .ok (.error (.unterminatedString p)) t')

theorem StoppedBy.of_scan {t' : Tokenizer} {op : Op} {e : LexError} (hop : op.canStop = true)
    (h : t.scan = .ok (.error e) t') : t.StoppedBy op (.lexError e) := by
  cases e with
  | unterminatedString p =>
    exact ⟨hop, by rw [run_of_error h], p, rfl, rfl, fun _ => ⟨t', h⟩⟩

/-- An operation that an error stops is stopped where its answer is the error. -/
theorem Session.eq_error_of_aborted {α : Type} {s : Session} {answer : Except LexError α}
    {t' : Tokenizer} {word : α → Answer} {a : Abort} (hword : ∀ x, word x ≠ .aborted a)
    (h : (s.run (outcome answer t') id word).1 = .aborted a) :
    ∃ e, answer = .error e ∧ a = .lexError e := by
  cases answer with
  | ok x => exact absurd h (hword x)
  | error e => exact ⟨e, rfl, (Answer.aborted.inj h).symm⟩

namespace Reachable

variable (hlen : src.length ≤ 2 ^ 32 - 2) (ht : Reachable src t)
include hlen ht

/-- A scan answers. -/
theorem exists_scan : ∃ r t', t.scan = .ok r t' := by
  obtain ⟨tokens, ending, hc⟩ := exists_course src hlen
  obtain ⟨i, rfl⟩ := hc.exists_afterScans ht
  exact ⟨_, _, hc.scan_eq i⟩

theorem stoppedBy {saved : Tokenizer} {op : Op} {a : Abort}
    (h : (Session.step ⟨t, saved⟩ op).1 = .aborted a) : t.StoppedBy op a := by
  obtain ⟨tokens, ending, hc⟩ := exists_course src hlen
  obtain ⟨i, rfl⟩ := hc.exists_afterScans ht
  have hscan := hc.scan_eq i
  obtain ⟨hnext, hnext?, hpeek, hcollect⟩ := hc.reports i
  cases op with
  | scan =>
    simp only [Session.step, Session.run, hscan] at h
    cases hanswer : answerAt tokens ending i <;> rw [hanswer] at h <;> cases h
  | next =>
    rw [Session.step, hnext] at h
    obtain ⟨e, hanswer, rfl⟩ := Session.eq_error_of_aborted (fun _ h => by cases h) h
    exact .of_scan rfl (hanswer ▸ hscan)
  | peek =>
    rw [Session.step, hpeek] at h
    obtain ⟨e, hanswer, rfl⟩ := Session.eq_error_of_aborted (fun _ h => by cases h) h
    exact .of_scan rfl (hanswer ▸ hscan)
  | next? =>
    rw [Session.step, hnext?] at h
    obtain ⟨e, hanswer, rfl⟩ := Session.eq_error_of_aborted (fun _ h => by cases h) h
    cases hcases : answerAt tokens ending i with
    | ok token =>
      rw [hcases] at hanswer
      cases hanswer
    | error e' =>
      rw [hcases] at hanswer hscan
      cases hanswer
      exact .of_scan rfl hscan
  | collect =>
    rw [Session.step, hcollect] at h
    obtain ⟨e, hanswer, rfl⟩ := Session.eq_error_of_aborted (fun _ h => by cases h) h
    have hstop := hc.stop_run i
    cases ending with
    | ok token => cases hanswer
    | error e' =>
      cases hanswer
      cases e with
      | unterminatedString p => exact ⟨rfl, hstop, p, rfl, rfl, fun h => absurd rfl h⟩
  | reset | save | restore => cases h

end Reachable

/-- However a tokenizer over at most `2 ^ 32 - 2` bytes is driven, a scan answers, only the error of
a literal that never closes stops an operation, and what scans rely on where they use the buffer
holds. The lexemes of tokens are among what is cut out. -/
theorem stopped_by_lexError (src : List UInt8) (hlen : src.length ≤ 2 ^ 32 - 2) :
    (∀ ops, Reachable src ((Session.ofList src).after ops).tokenizer) ∧
      ∀ t, Reachable src t →
        (∃ r t', t.scan = .ok r t') ∧
        (∀ saved op a, (Session.step ⟨t, saved⟩ op).1 = .aborted a → t.StoppedBy op a) ∧
        (∀ c u, t.Uses c u → u.Sound src c) ∧
        ∀ token t' bs, t.scan = .ok (.ok token) t' → token.lexeme? = some bs →
          ∃ c start stop, t.Uses c (.slice start stop) ∧ c.slice start stop = .ok bs := by
  refine ⟨reachable_after src, fun t ht => ⟨ht.exists_scan hlen,
    fun saved op a h => ht.stoppedBy hlen h, fun c u h => h.2.sound hlen (ht.within hlen),
    fun token t' bs h hbs => ?_⟩⟩
  cases steps_of_scan h with
  | token hfailed htoken =>
    obtain ⟨c, start, stop, huse, hslice⟩ := Cursor.exists_slice_of_token htoken hbs
    exact ⟨c, start, stop, ⟨hfailed, huse⟩, hslice⟩

/-- The literal `"\"c"`, a number and a literal that the buffer ends in with a lone backslash. The
first literal is cut out past its escaped quote, also where the tokenizer is reset after an error;
and the error that was met while looking ahead is what stops the next operation. -/
theorem stopped_by_lexError_escapes :
    let src : List UInt8 := [0x22, 0x5c, 0x22, 0x63, 0x22, 0x37, 0x22, 0x5c]
    let t := ((Session.ofList src).after
      [.save, .next, .next, .peek, .restore, .collect, .reset]).tokenizer
    let u := ((Session.ofList src).after [.next, .next, .peek]).tokenizer
    src.length ≤ 2 ^ 32 - 2 ∧
      (∃ c start stop, t.Uses c (.slice start stop) ∧
        (Cursor.Use.slice start stop).Sound src c ∧ c.slice start stop = .ok [0x5c, 0x22, 0x63]) ∧
      u.failed = some (.unterminatedString ⟨1, 8⟩) ∧ (∃ r u', u.scan = .ok r u') ∧
      (Session.step ⟨u, t⟩ .next?).1 = .aborted (.lexError (.unterminatedString ⟨1, 8⟩)) ∧
      u.StoppedBy .next? (.lexError (.unterminatedString ⟨1, 8⟩)) := by
  intro src t u
  obtain ⟨hreach, hstates⟩ := stopped_by_lexError src (by decide)
  obtain ⟨-, -, hsound, hlexeme⟩ := hstates t (hreach _)
  obtain ⟨hscan, hstopped, -, -⟩ := hstates u (hreach _)
  have hfirst : t.run.lexed[0]? = some ⟨.string [0x5c, 0x22, 0x63], 5, ⟨1, 6⟩⟩ := by decide +kernel
  have hstop : (Session.step ⟨u, t⟩ .next?).1 =
      .aborted (.lexError (.unterminatedString ⟨1, 8⟩)) := by decide +kernel
  obtain ⟨c, start, stop, huses, hslice⟩ := hlexeme _ _ _ (scan_of_getElem?_lexed_run hfirst).1 rfl
  exact ⟨by decide, ⟨c, start, stop, huses, hsound c _ huses, hslice⟩, by decide +kernel, hscan,
    hstop, hstopped _ _ _ hstop⟩

end Tokenizer

end FrontEnd
