import Mathlib.Logic.Function.Iterate
import FrontEnd.Tokenizer.Session
import FrontEnd.Proofs.Tokenizer.Run

/-!
# The course of a tokenizer

The scans from a state make up its course: some tokens, each further along the buffer, and from then
on one ending, which is the end of the source or an error and leaves the state as it is (`Course`).
Over at most `2 ^ 32 - 2` bytes a fresh tokenizer has a course (`exists_course`), and its uses keep
to it:

* `Course.reports`: the operations that an error stops report the tokens of the course from any of
  its states on, and are stopped where its scans answer the error;
* `Course.eq_of_offset`: the offset tells which state of the course it is;
* `driven_on_course`: whatever the operations, the clones and the stops, no other state is reached.
-/

namespace FrontEnd

namespace Tokenizer

/-- The state after one scan. -/
def scanned (t : Tokenizer) : Tokenizer :=
  match t.scan with
  | .ok _ t' => t'
  | .error _ t' => t'

/-- The state after a number of scans. -/
def afterScans (t : Tokenizer) (k : Nat) : Tokenizer := scanned^[k] t

/-- The answer of scan `i`, where the first scans give `tokens` and all later ones `ending`. -/
def answerAt (tokens : List Token) (ending : Except LexError Token) (i : Nat) :
    Except LexError Token :=
  match tokens[i]? with
  | some token => .ok token
  | none => ending

/-- The scans from a state: they answer `tokens`, each further along the buffer, and `ending` from
then on, at the end of the buffer. -/
structure Course (t : Tokenizer) (tokens : List Token) (ending : Except LexError Token) : Prop where
  length_le : tokens.length ≤ t.cursor.rest.length
  isEof_eq_false : ∀ token ∈ tokens, token.isEof = false
  scan_eq : ∀ i, (t.afterScans i).scan = .ok (answerAt tokens ending i) (t.afterScans (i + 1))
  offset_lt : ∀ i < tokens.length, (t.afterScans i).offset < (t.afterScans (i + 1)).offset
  ended : ∀ i > tokens.length, t.afterScans i = t.afterScans (tokens.length + 1)
  offset_ended : (t.afterScans (tokens.length + 1)).offset = t.cursor.buffer.length
  ending_cases :
    ending = .ok .eof ∧ (t.afterScans (tokens.length + 1)).failed = none ∨
      ∃ e, ending = .error e ∧ (t.afterScans (tokens.length + 1)).failed = some e

/-! ## One scan -/

theorem reads_of_scan {t t' : Tokenizer} {r : Except LexError Token} (h : t.scan = .ok r t') :
    t.cursor.Reads t'.cursor := by
  cases steps_of_scan h with
  | failed => exact .refl _
  | token _ htoken | error _ htoken => exact Cursor.reads_of_token htoken

/-- A scan that gives a token moves the cursor alone. -/
theorem restored_of_scan {t t' : Tokenizer} {token : Token} (h : t.scan = .ok (.ok token) t') :
    { t' with cursor := t.cursor } = t := by
  cases steps_of_scan h with
  | token => rfl

theorem offset_add_rest (t : Tokenizer) :
    t.offset + t.cursor.rest.length = t.cursor.buffer.length := by
  rw [offset, t.cursor.pos_eq, Cursor.buffer, List.length_append, List.length_reverse]

/-- A token other than the end of the source moves the offset. -/
theorem offset_lt_of_scan {t t' : Tokenizer} {token : Token} (h : t.scan = .ok (.ok token) t')
    (ht : token.isEof = false) : t.offset < t'.offset := by
  have hrest := rest_length_lt_of_scan h ht
  have hbuffer := congrArg List.length (reads_of_scan h).buffer_eq
  have := t.offset_add_rest
  have := t'.offset_add_rest
  omega

/-- At the end of the buffer a scan does not move. -/
theorem eq_of_scan_of_rest {t t' : Tokenizer} {r : Except LexError Token} (h : t.scan = .ok r t')
    (hrest : t.cursor.rest = []) : t' = t := by
  obtain ⟨c, failed⟩ := t
  cases failed with
  | some e => exact (EStateM.Result.ok.inj h).2.symm
  | none =>
    have he : c.eatWhile Byte.hasBlankFlag = .ok () c := by
      rw [Cursor.eatWhile]
      split <;> simp_all
    have hb : c.bump = .ok none c := by
      simp only [Cursor.bump, show c.rest = [] from hrest]
    have ht : c.token = .ok (.ok .eof) c := by
      rw [Cursor.token, bind_of_ok he, get_bind, bind_of_ok hb]
      rfl
    simp only [scan, ht, EStateM.Result.ok.injEq] at h
    exact h.2.symm

/-- The scans after the first are those of the state that it leaves. -/
theorem afterScans_succ {t t' : Tokenizer} {r : Except LexError Token} (h : t.scan = .ok r t')
    (k : Nat) : t.afterScans (k + 1) = t'.afterScans k := by
  have hs : t.scanned = t' := by rw [scanned, h]
  rw [afterScans, afterScans, Function.iterate_succ_apply, hs]

/-- Every token that a run lists is given by a scan, and told its position after it. -/
theorem scan_of_getElem?_lexed_run {t : Tokenizer} {i : Nat} {l : Lexed}
    (h : t.run.lexed[i]? = some l) :
    (t.afterScans i).scan = .ok (.ok l.token) (t.afterScans (i + 1)) ∧
      l.position = (t.afterScans (i + 1)).position := by
  induction hls : t.run.lexed generalizing t i with
  | nil =>
    rw [hls] at h
    cases h
  | cons l' ls ih =>
    obtain ⟨t', hscan, -, -, hposition, hrest⟩ := exists_scan_of_lexed_run hls
    rw [hls] at h
    cases i with
    | zero =>
      obtain rfl : l' = l := Option.some.inj h
      rw [afterScans_succ hscan]
      exact ⟨hscan, hposition⟩
    | succ i =>
      rw [afterScans_succ hscan, afterScans_succ hscan]
      exact ih (by rwa [hrest]) hrest

/-! ## Courses -/

namespace Course

variable {t t' : Tokenizer} {tokens : List Token} {ending : Except LexError Token}

/-- A course without tokens. -/
theorem ending_only (h : t.scan = .ok ending t') (h' : t'.scan = .ok ending t')
    (hrest : t'.cursor.rest = [])
    (hcases : ending = .ok .eof ∧ t'.failed = none ∨ ∃ e, ending = .error e ∧ t'.failed = some e) :
    Course t [] ending := by
  have hstay : ∀ k, t'.afterScans k = t' := fun k => by
    induction k with
    | zero => rfl
    | succ k ih => rw [afterScans_succ h', ih]
  have hlater : ∀ k, t.afterScans (k + 1) = t' := fun k => by rw [afterScans_succ h, hstay]
  refine ⟨Nat.zero_le _, nofun, fun i => ?_, nofun, fun i hi => ?_, ?_, ?_⟩
  · cases i with
    | zero => rwa [hlater]
    | succ i => rwa [hlater, hlater]
  · obtain ⟨k, rfl⟩ := Nat.exists_eq_succ_of_ne_zero (Nat.ne_of_gt hi)
    rw [hlater, hlater]
  · have hoffset := t'.offset_add_rest
    rwa [hrest, List.length_nil, Nat.add_zero, (reads_of_scan h).buffer_eq, ← hlater 0] at hoffset
  · rwa [← hlater 0] at hcases

/-- A course that begins with a token. -/
theorem cons {token : Token} (h : t.scan = .ok (.ok token) t') (ht : token.isEof = false)
    (hc : Course t' tokens ending) : Course t (token :: tokens) ending := by
  have hbuffer := (reads_of_scan h).buffer_eq
  have hnext := afterScans_succ h
  refine ⟨?_, List.forall_mem_cons.2 ⟨ht, hc.isEof_eq_false⟩, fun i => ?_, fun i hi => ?_,
    fun i hi => ?_, ?_, ?_⟩
  · exact Nat.le_trans (Nat.succ_le_succ hc.length_le) (rest_length_lt_of_scan h ht)
  · cases i with
    | zero => rw [hnext]; exact h
    | succ i => rw [hnext, hnext]; exact hc.scan_eq i
  · cases i with
    | zero => rw [hnext]; exact offset_lt_of_scan h ht
    | succ i => rw [hnext, hnext]; exact hc.offset_lt i (Nat.lt_of_succ_lt_succ hi)
  · obtain ⟨k, rfl⟩ := Nat.exists_eq_succ_of_ne_zero (Nat.ne_zero_of_lt hi)
    rw [hnext, hnext]
    exact hc.ended k (Nat.lt_of_succ_lt_succ hi)
  · rw [hnext, ← hbuffer]
    exact hc.offset_ended
  · rw [List.length_cons, hnext]
    exact hc.ending_cases

/-- Every state of a course is over the same buffer. -/
theorem cursor_buffer (hc : Course t tokens ending) (i : Nat) :
    (t.afterScans i).cursor.buffer = t.cursor.buffer := by
  induction i with
  | zero => rfl
  | succ i ih => rw [(reads_of_scan (hc.scan_eq i)).buffer_eq, ih]

theorem exists_le (hc : Course t tokens ending) (i : Nat) :
    ∃ j ≤ tokens.length + 1, t.afterScans i = t.afterScans j := by
  by_cases hi : i ≤ tokens.length
  · exact ⟨i, by omega, rfl⟩
  · exact ⟨tokens.length + 1, Nat.le_refl _, hc.ended i (by omega)⟩

theorem offset_lt_offset (hc : Course t tokens ending) {i j : Nat} (hij : i < j)
    (hj : j ≤ tokens.length) : (t.afterScans i).offset < (t.afterScans j).offset := by
  obtain ⟨k, rfl⟩ := Nat.exists_eq_add_of_lt hij
  induction k with
  | zero => exact hc.offset_lt i hj
  | succ k ih => exact Nat.lt_trans (ih (by omega) (by omega)) (hc.offset_lt _ hj)

theorem afterScans_succ_eq (hc : Course t tokens ending) {i : Nat}
    (hi : (t.afterScans i).offset = t.cursor.buffer.length) :
    t.afterScans (i + 1) = t.afterScans i := by
  have hrest := (t.afterScans i).offset_add_rest
  rw [hc.cursor_buffer, hi] at hrest
  exact eq_of_scan_of_rest (hc.scan_eq i) (List.eq_nil_of_length_eq_zero (by omega))

theorem eq_of_offset_of_lt (hc : Course t tokens ending) {i j : Nat} (hij : i < j)
    (h : (t.afterScans i).offset = (t.afterScans j).offset) : t.afterScans i = t.afterScans j := by
  by_cases hj : j ≤ tokens.length
  · exact absurd h (Nat.ne_of_lt (hc.offset_lt_offset hij hj))
  rw [hc.ended j (by omega)] at h ⊢
  rcases Nat.lt_trichotomy i tokens.length with hi | rfl | hi
  · have hlt := hc.offset_lt i hi
    rw [hc.afterScans_succ_eq (h.trans hc.offset_ended)] at hlt
    exact absurd hlt (Nat.lt_irrefl _)
  · exact (hc.afterScans_succ_eq (h.trans hc.offset_ended)).symm
  · exact hc.ended i hi

/-- The offset tells the state. -/
theorem eq_of_offset (hc : Course t tokens ending) {i j : Nat}
    (h : (t.afterScans i).offset = (t.afterScans j).offset) : t.afterScans i = t.afterScans j := by
  rcases Nat.lt_trichotomy i j with hij | rfl | hij
  · exact hc.eq_of_offset_of_lt hij h
  · rfl
  · exact (hc.eq_of_offset_of_lt hij h.symm).symm

end Course

/-! ## Every buffer has a course -/

/-- A tail has no tokens. -/
theorem course_tail (done : List UInt8) {tail : List UInt8} (htail : Tail tail)
    (h : (done ++ tail).length ≤ 2 ^ 32 - 2) : ∃ ending, Course (between done tail) [] ending := by
  cases htail with
  | blank hgap =>
    have hscan : (between done tail).scan = .ok (.ok .eof) (between (done ++ tail) []) := by
      have hgap' : (between done (tail ++ [])).scan = _ := scan_gap hgap (by simpa using h)
      rw [List.append_nil] at hgap'
      rw [hgap', scan_between_nil h]
    exact ⟨_, .ending_only hscan (scan_between_nil h) rfl (.inl ⟨rfl, rfl⟩)⟩
  | @unclosed gap body hgap hbody =>
    have hscan : (between done (gap ++ Byte.quote :: body)).scan = _ :=
      (scan_gap hgap h).trans (scan_unclosed hbody (by simpa using h))
    exact ⟨_, .ending_only hscan rfl rfl (.inr ⟨_, rfl, rfl⟩)⟩

theorem course_pieces (done : List UInt8) {ps : List Piece} {tail : List UInt8}
    (hsep : Piece.Separated ps tail) (htail : Tail tail)
    (h : (done ++ (Piece.texts ps ++ tail)).length ≤ 2 ^ 32 - 2) :
    ∃ tokens ending, Course (between done (Piece.texts ps ++ tail)) tokens ending := by
  induction ps generalizing done with
  | nil =>
    obtain ⟨ending, hc⟩ := course_tail done htail h
    exact ⟨[], ending, hc⟩
  | cons p ps ih =>
    obtain ⟨hend, hsep⟩ := hsep
    rw [Piece.texts_cons, List.append_assoc] at h ⊢
    obtain ⟨tokens, ending, hc⟩ := ih (done ++ p.text) hsep (by rwa [List.append_assoc])
    exact ⟨_, ending, hc.cons (scan_piece p hend h) (p.wellFormed.isEof_placed _)⟩

/-- A fresh tokenizer has a course. -/
theorem exists_course (src : List UInt8) (hlen : src.length ≤ 2 ^ 32 - 2) :
    ∃ tokens ending, Course (ofList src) tokens ending := by
  obtain ⟨ps, tail, hsep, htail, rfl⟩ := exists_pieces src
  exact course_pieces [] hsep htail hlen

/-! ## What the operations report -/

/-- An operation that an error stops, where it would answer `answer` and leaves `t`. -/
def outcome {α : Type} (answer : Except LexError α) (t : Tokenizer) :
    EStateM.Result Abort Tokenizer α :=
  match answer with
  | .ok a => .ok a t
  | .error e => .error (.lexError e) t

/-- What the operations that an error stops report after `i` scans: the tokens of the course from
there on, or its error. -/
structure Reports (t : Tokenizer) (tokens : List Token) (ending : Except LexError Token)
    (i : Nat) : Prop where
  next_eq : (t.afterScans i).next = outcome (answerAt tokens ending i) (t.afterScans (i + 1))
  next?_eq : (t.afterScans i).next? =
    outcome ((answerAt tokens ending i).map fun token => if token.isEof then none else some token)
      (t.afterScans (i + 1))
  peek_eq : (t.afterScans i).peek =
    outcome (answerAt tokens ending i)
      (if (answerAt tokens ending i).isOk then t.afterScans i else t.afterScans (i + 1))
  collect_eq : (t.afterScans i).collect =
    outcome (ending.map fun _ => tokens.drop i) (t.afterScans (tokens.length + 1))

/-- What is collected before a token is the token and what is collected after it. -/
theorem collect_of_token {t t' : Tokenizer} {token : Token} (h : t.scan = .ok (.ok token) t')
    (ht : token.isEof = false) {rest : Except LexError (List Token)} {final : Tokenizer}
    (h' : t'.collect = outcome rest final) :
    t.collect = outcome (rest.map (token :: ·)) final := by
  simp only [collect] at h'
  simp only [collect, run_of_token h ht, Run.stop_prepend, Run.tokens_prepend, Run.final_prepend]
  cases rest <;> cases hstop : t'.run.stop <;> simp_all [outcome, Except.map]

namespace Course

variable {t : Tokenizer} {tokens : List Token} {ending : Except LexError Token}

theorem answerAt_of_le {i : Nat} (hi : tokens.length ≤ i) : answerAt tokens ending i = ending := by
  rw [answerAt, List.getElem?_eq_none hi]

theorem answerAt_of_lt {i : Nat} (hi : i < tokens.length) :
    answerAt tokens ending i = .ok tokens[i] := by
  rw [answerAt, List.getElem?_eq_getElem hi]

theorem collect_of_le (hc : Course t tokens ending) {i : Nat} (hi : tokens.length ≤ i) :
    (t.afterScans i).collect = outcome (ending.map fun _ => []) (t.afterScans (tokens.length + 1)) := by
  have hscan := hc.scan_eq i
  rw [answerAt_of_le hi, hc.ended (i + 1) (by omega)] at hscan
  rcases hc.ending_cases with ⟨rfl, -⟩ | ⟨e, rfl, -⟩
  · rw [collect, run_of_eof hscan]
    rfl
  · rw [collect, run_of_error hscan]
    rfl

theorem collect_eq (hc : Course t tokens ending) (i : Nat) :
    (t.afterScans i).collect =
      outcome (ending.map fun _ => tokens.drop i) (t.afterScans (tokens.length + 1)) := by
  -- From the end of the course back to its start.
  induction hk : tokens.length - i generalizing i with
  | zero =>
    rw [hc.collect_of_le (by omega), List.drop_eq_nil_of_le (by omega)]
  | succ k ih =>
    have hi : i < tokens.length := by omega
    have hscan := hc.scan_eq i
    rw [answerAt_of_lt hi] at hscan
    rw [collect_of_token hscan (hc.isEof_eq_false _ (List.getElem_mem hi)) (ih (i + 1) (by omega)),
      List.drop_eq_getElem_cons hi]
    cases ending <;> rfl

/-- A run from any state of a course is stopped by the error of the course, if it ends in one. -/
theorem stop_run (hc : Course t tokens ending) (i : Nat) :
    (t.afterScans i).run.stop =
      match ending with
      | .ok _ => none
      | .error e => some (.lexError e) := by
  have hcollect := hc.collect_eq i
  rw [collect] at hcollect
  cases hstop : (t.afterScans i).run.stop <;> cases ending <;>
    simp_all [outcome, Except.map]

theorem reports (hc : Course t tokens ending) (i : Nat) : Reports t tokens ending i := by
  have hnext : (t.afterScans i).next =
      outcome (answerAt tokens ending i) (t.afterScans (i + 1)) := by
    rw [next, hc.scan_eq i]
    cases answerAt tokens ending i <;> rfl
  refine ⟨hnext, ?_, ?_, hc.collect_eq i⟩
  · show EStateM.bind next _ (t.afterScans i) = _
    rw [EStateM.bind, hnext]
    cases answerAt tokens ending i <;> rfl
  · rw [peek, hnext]
    have hscan := hc.scan_eq i
    cases h : answerAt tokens ending i with
    | error e => rfl
    | ok token =>
      rw [h] at hscan
      simp [outcome, restored_of_scan hscan, Except.isOk, Except.toBool]

end Course

/-! ## Every use keeps to the course -/

/-- The states that the uses of tokenizers over `src` reach: a fresh one, and what an operation
leaves of a state reached before. The clone that it may restore is any state reached before. -/
inductive Reachable (src : List UInt8) : Tokenizer → Prop where
  | fresh : Reachable src (ofList src)
  | step {t saved : Tokenizer} (ht : Reachable src t) (hsaved : Reachable src saved) (op : Op) :
    Reachable src (Session.step ⟨t, saved⟩ op).2.tokenizer

theorem Reachable.scan {src : List UInt8} {t t' : Tokenizer} {r : Except LexError Token}
    (ht : Reachable src t) (h : t.scan = .ok r t') : Reachable src t' := by
  have hstep := Reachable.step ht .fresh .scan
  simp only [Session.step, Session.run, h] at hstep
  exact hstep

/-- Only saving replaces the clone. -/
theorem Session.saved_step (s : Session) (op : Op) :
    (s.step op).2.saved = if op = .save then s.tokenizer else s.saved := by
  cases op <;> simp only [step, run, reduceCtorEq, if_false, if_true] <;> split <;> rfl

/-- A session reaches such states alone. -/
theorem reachable_after (src : List UInt8) (ops : List Op) :
    Reachable src ((Session.ofList src).after ops).tokenizer := by
  suffices h : ∀ s : Session, Reachable src s.tokenizer → Reachable src s.saved →
      Reachable src (s.after ops).tokenizer from h _ .fresh .fresh
  intro s ht hs
  induction ops generalizing s with
  | nil => exact ht
  | cons op ops ih =>
    refine ih _ (.step ht hs op) ?_
    rw [Session.saved_step]
    split
    · exact ht
    · exact hs

namespace Course

variable {src : List UInt8} {tokens : List Token} {ending : Except LexError Token}

/-- A use of a state of the course leaves one of them. -/
theorem exists_afterScans_step (hc : Course (ofList src) tokens ending) (i j : Nat) (op : Op) :
    ∃ k, (Session.step ⟨(ofList src).afterScans i, (ofList src).afterScans j⟩ op).2.tokenizer =
      (ofList src).afterScans k := by
  have hr := hc.reports i
  cases op with
  | scan => exact ⟨i + 1, by simp only [Session.step, Session.run, hc.scan_eq i]⟩
  | next =>
    refine ⟨i + 1, ?_⟩
    simp only [Session.step, Session.run, hr.next_eq]
    cases answerAt tokens ending i <;> rfl
  | next? =>
    refine ⟨i + 1, ?_⟩
    simp only [Session.step, Session.run, hr.next?_eq]
    cases answerAt tokens ending i <;> rfl
  | peek =>
    simp only [Session.step, Session.run, hr.peek_eq]
    cases answerAt tokens ending i with
    | ok token => exact ⟨i, rfl⟩
    | error e => exact ⟨i + 1, rfl⟩
  | collect =>
    refine ⟨tokens.length + 1, ?_⟩
    simp only [Session.step, Session.run, hr.collect_eq]
    cases ending <;> rfl
  | reset =>
    refine ⟨0, ?_⟩
    simp only [Session.step, rewound, Cursor.rewound, hc.cursor_buffer]
    rfl
  | save => exact ⟨i, rfl⟩
  | restore => exact ⟨j, rfl⟩

/-- Every state that is reached is one of the course. -/
theorem exists_afterScans (hc : Course (ofList src) tokens ending) {t : Tokenizer}
    (ht : Reachable src t) : ∃ i, t = (ofList src).afterScans i := by
  induction ht with
  | fresh => exact ⟨0, rfl⟩
  | step _ _ op iht ihs =>
    obtain ⟨i, rfl⟩ := iht
    obtain ⟨j, rfl⟩ := ihs
    exact hc.exists_afterScans_step i j op

end Course

/-- Every way of driving a tokenizer keeps to the course of a fresh one: its operations reach the
states of that course alone, of which the offset tells one from another, and report its answers
from there on. -/
theorem driven_on_course (src : List UInt8) (hlen : src.length ≤ 2 ^ 32 - 2) :
    ∃ tokens ending, Course (ofList src) tokens ending ∧
      (∀ t, Reachable src t → ∃ i ≤ tokens.length + 1, t = (ofList src).afterScans i) ∧
      (∀ t t', Reachable src t → Reachable src t' → t.offset = t'.offset → t = t') ∧
      (∀ i, Reports (ofList src) tokens ending i) ∧
      ∀ ops, Reachable src ((Session.ofList src).after ops).tokenizer := by
  obtain ⟨tokens, ending, hc⟩ := exists_course src hlen
  refine ⟨tokens, ending, hc, fun t ht => ?_, fun t t' ht ht' h => ?_, hc.reports,
    reachable_after src⟩
  · obtain ⟨i, rfl⟩ := hc.exists_afterScans ht
    exact hc.exists_le i
  · obtain ⟨i, rfl⟩ := hc.exists_afterScans ht
    obtain ⟨j, rfl⟩ := hc.exists_afterScans ht'
    exact hc.eq_of_offset h

/-- The source `a "b`, with a panic while looking ahead and a clone from before it. A reset after
the error starts the course again: one scan from there is one scan from the start. -/
theorem driven_on_course_unclosed :
    let src : List UInt8 := [0x61, 0x20, 0x22, 0x62]
    let t := ((Session.ofList src).after [.next, .save, .peek, .restore, .next?]).tokenizer
    let u := ((Session.ofList src).after [.next, .next?, .reset, .scan]).tokenizer
    src.length ≤ 2 ^ 32 - 2 ∧ t.failed = some (.unterminatedString ⟨1, 4⟩) ∧
      u.failed = none ∧ u.offset = 1 ∧ u = ((Session.ofList src).after [.next]).tokenizer ∧
      ∃ tokens ending, Course (ofList src) tokens ending ∧
        (∃ i ≤ tokens.length + 1, t = (ofList src).afterScans i) ∧
        ∃ i ≤ tokens.length + 1, u = (ofList src).afterScans i := by
  intro src t u
  obtain ⟨tokens, ending, hc, hreach, hoffset, -, hafter⟩ := driven_on_course src (by decide)
  have hu : u.offset = ((Session.ofList src).after [.next]).tokenizer.offset := by decide +kernel
  exact ⟨by decide, by decide +kernel, by decide +kernel, by decide +kernel,
    hoffset u _ (hafter _) (hafter _) hu, tokens, ending, hc, hreach t (hafter _),
    hreach u (hafter _)⟩

end Tokenizer

end FrontEnd
