import Mathlib.Data.List.Basic
import FrontEnd.Proofs.Grammar.Quoting
import FrontEnd.Report.Basic

/-!
# How listings end

A listing goes along a run. It adds the tokens of the run one by one, up to and with the first byte
that starts no token where it is to stop there; otherwise it ends as the run does
(`Report.renderFrom_eq_of_run`, `Report.renderFrom_eq_of_stop`).

`Report.Shows` says so of a whole source without following the loop, and by `Report.render_of_shows`
it tells the listing. Every source that the counters can hold is shown in one way
(`Report.exists_shows`).
-/

namespace FrontEnd

/-- No token is a byte that starts none. -/
def Lexed.AllKnown (ls : List Lexed) : Prop := ∀ l ∈ ls, l.token.isUnknown = false

/-- Where one token is such a byte, one is the first. -/
theorem Lexed.exists_first_unknown {ls : List Lexed} (h : ¬AllKnown ls) :
    ∃ before l after, ls = before ++ l :: after ∧ AllKnown before ∧ l.token.isUnknown = true := by
  cases hfind : ls.find? (·.token.isUnknown) with
  | none => exact absurd (fun l hl => by simpa using List.find?_eq_none.1 hfind l hl) h
  | some l =>
    obtain ⟨hl, before, after, hls, hbefore⟩ := List.find?_eq_some_iff_append.1 hfind
    exact ⟨before, l, after, hls, fun l hl => by simpa using hbefore l hl, hl⟩

namespace Report

variable {options : Options}

/-! ## Tokens added one by one -/

/-- The report with more tokens, each with the position after it. -/
def addLexed (options : Options) (r : Report) (ls : List Lexed) : Report :=
  ls.foldl (fun r l => r.addToken options l.position l.token) r

/-- The report of some tokens, in order. -/
def ofLexed (options : Options) (ls : List Lexed) (stopped : Bool) : Report where
  lines := ls.map fun l => entry options l.position l.token
  tokens := ls.length
  unknown := ls.countP (·.token.isUnknown)
  stoppedOnUnknown := stopped

theorem addLexed_cons (r : Report) (l : Lexed) (ls : List Lexed) :
    r.addLexed options (l :: ls) = (r.addToken options l.position l.token).addLexed options ls :=
  rfl

theorem lines_addLexed (r : Report) (ls : List Lexed) :
    (r.addLexed options ls).lines =
      (ls.map fun l => entry options l.position l.token).reverse ++ r.lines := by
  induction ls generalizing r with
  | nil => rfl
  | cons l ls ih =>
    rw [addLexed_cons, ih, addToken, List.map_cons, List.reverse_cons, List.append_assoc,
      List.singleton_append]

theorem tokens_addLexed (r : Report) (ls : List Lexed) :
    (r.addLexed options ls).tokens = r.tokens + ls.length := by
  induction ls generalizing r with
  | nil => rfl
  | cons l ls ih =>
    rw [addLexed_cons, ih, List.length_cons, addToken]
    show r.tokens + 1 + ls.length = _
    omega

theorem unknown_addLexed (r : Report) (ls : List Lexed) :
    (r.addLexed options ls).unknown = r.unknown + ls.countP (·.token.isUnknown) := by
  induction ls generalizing r with
  | nil => rfl
  | cons l ls ih =>
    rw [addLexed_cons, ih, List.countP_cons, addToken]
    show (if l.token.isUnknown then r.unknown + 1 else r.unknown) + _ = _
    split <;> omega

/-- Only the last token tells whether a listing stopped. -/
theorem stoppedOnUnknown_addLexed_append (r : Report) (ls : List Lexed) (l : Lexed) :
    (r.addLexed options (ls ++ [l])).stoppedOnUnknown =
      (l.token.isUnknown && options.stopOnUnknown) := by
  rw [addLexed, List.foldl_append]
  rfl

theorem stoppedOnUnknown_addLexed {r : Report} {ls : List Lexed}
    (h : options.stopOnUnknown = true → Lexed.AllKnown ls) (hr : r.stoppedOnUnknown = false) :
    (r.addLexed options ls).stoppedOnUnknown = false := by
  rcases List.eq_nil_or_concat' ls with rfl | ⟨ls, l, rfl⟩
  · exact hr
  · rw [stoppedOnUnknown_addLexed_append, Bool.and_eq_false_iff]
    by_cases hstop : options.stopOnUnknown = true
    · exact .inl (h hstop l (by simp))
    · exact .inr (by simpa using hstop)

theorem finish_addLexed {ls : List Lexed} {stopped : Bool}
    (h : (addLexed options {} ls).stoppedOnUnknown = stopped) :
    (addLexed options {} ls).finish = ofLexed options ls stopped := by
  rw [finish, lines_addLexed, List.append_nil, List.reverse_reverse, tokens_addLexed,
    unknown_addLexed, h, Nat.zero_add, Nat.zero_add, ofLexed]

/-! ## Along the run -/

/-- A listing that meets no byte to stop at ends as the run does. -/
theorem renderFrom_eq_of_run {r : Report} {t : Tokenizer}
    (h : options.stopOnUnknown = true → Lexed.AllKnown t.run.lexed) :
    renderFrom options r t =
      match t.run.stop with
      | none => .ok (r.addLexed options t.run.lexed).finish
      | some a => .error a := by
  fun_induction renderFrom options r t with
  | case1 r t token t' hscan ht =>
    cases token with
    | eof =>
      rw [Tokenizer.run_of_eof hscan]
      rfl
    | _ => cases ht
  | case2 r t token t' hscan ht r' hstop =>
    rw [Tokenizer.run_of_token hscan (by simpa using ht)] at h
    obtain ⟨hunknown, hoption⟩ := Bool.and_eq_true_iff.1 hstop
    exact absurd hunknown (by rw [(List.forall_mem_cons.1 (h hoption)).1]; decide)
  | case3 r t token t' hscan ht r' hstop ih =>
    rw [Tokenizer.run_of_token hscan (by simpa using ht)] at h ⊢
    rw [ih fun hoption => (List.forall_mem_cons.1 (h hoption)).2]
    rfl
  | case4 r t e t' hscan => rw [Tokenizer.run_of_error hscan]
  | case5 r t f t' hscan => rw [Tokenizer.run_of_fault hscan]

/-- A listing that is to stop at the first byte that starts no token does so. -/
theorem renderFrom_eq_of_stop (h : options.stopOnUnknown = true) {r : Report} {t : Tokenizer}
    {before after : List Lexed} {l : Lexed} (hlexed : t.run.lexed = before ++ l :: after)
    (hbefore : Lexed.AllKnown before) (hl : l.token.isUnknown = true) :
    renderFrom options r t = .ok (r.addLexed options (before ++ [l])).finish := by
  fun_induction renderFrom options r t generalizing before with
  | case1 r t token t' hscan ht =>
    cases token with
    | eof =>
      rw [Tokenizer.run_of_eof hscan] at hlexed
      exact absurd hlexed (by simp)
    | _ => cases ht
  | case2 r t token t' hscan ht r' =>
    rename_i hstop
    rw [Tokenizer.run_of_token hscan (by simpa using ht), Run.lexed_prepend] at hlexed
    obtain ⟨hunknown, -⟩ := Bool.and_eq_true_iff.1 hstop
    cases before with
    | nil =>
      obtain ⟨rfl, -⟩ := List.cons_eq_cons.1 hlexed
      rfl
    | cons l' before =>
      obtain ⟨rfl, -⟩ := List.cons_eq_cons.1 hlexed
      exact absurd hunknown (by rw [(List.forall_mem_cons.1 hbefore).1]; decide)
  | case3 r t token t' hscan ht r' hstop =>
    rename_i ih
    rw [Tokenizer.run_of_token hscan (by simpa using ht), Run.lexed_prepend] at hlexed
    cases before with
    | nil =>
      obtain ⟨rfl, -⟩ := List.cons_eq_cons.1 hlexed
      exact absurd (Bool.and_eq_true_iff.2 ⟨hl, h⟩) hstop
    | cons l' before =>
      obtain ⟨rfl, hrest⟩ := List.cons_eq_cons.1 hlexed
      exact ih hrest (List.forall_mem_cons.1 hbefore).2
  | case4 r t e t' hscan =>
    rw [Tokenizer.run_of_error hscan] at hlexed
    exact absurd hlexed (by simp)
  | case5 r t f t' hscan =>
    rw [Tokenizer.run_of_fault hscan] at hlexed
    exact absurd hlexed (by simp)

/-! ## Listings of sources -/

/-- How a listing ends. -/
inductive Ending where
  /-- At the end of the source. -/
  | complete
  /-- In a literal that never closes, after the quote that opens it. -/
  | unterminated (position : Position)
  /-- At the first byte that starts no token. -/
  | stopped
  deriving DecidableEq, Repr

/-- The tokens that are met in a source, and how the listing of it ends: where it is to stop at a
byte that starts no token, the first of them is the last token. -/
inductive Shows (stop : Bool) (src : List UInt8) : List Lexed → Ending → Prop where
  | complete :
      (Tokenizer.ofList src).run.stop = none →
      (stop = true → Lexed.AllKnown (Tokenizer.ofList src).run.lexed) →
      Shows stop src (Tokenizer.ofList src).run.lexed .complete
  | unterminated {p : Position} :
      (Tokenizer.ofList src).run.stop = some (.lexError (.unterminatedString p)) →
      (stop = true → Lexed.AllKnown (Tokenizer.ofList src).run.lexed) →
      Shows stop src (Tokenizer.ofList src).run.lexed (.unterminated p)
  | stopped {before after : List Lexed} {l : Lexed} :
      stop = true → (Tokenizer.ofList src).run.lexed = before ++ l :: after →
      Lexed.AllKnown before → l.token.isUnknown = true →
      Shows stop src (before ++ [l]) .stopped

/-- The listing of a source, by what it shows. -/
theorem render_of_shows {src : List UInt8} {ls : List Lexed} {e : Ending}
    (h : Shows options.stopOnUnknown src ls e) :
    render options src =
      match e with
      | .complete => .ok (ofLexed options ls false)
      | .unterminated p => .error (.lexError (.unterminatedString p))
      | .stopped => .ok (ofLexed options ls true) := by
  cases h with
  | complete hstop hknown =>
    rw [render, renderFrom_eq_of_run hknown, hstop]
    exact congrArg _ (finish_addLexed (stoppedOnUnknown_addLexed hknown rfl))
  | unterminated hstop hknown => rw [render, renderFrom_eq_of_run hknown, hstop]
  | stopped hoption hlexed hbefore hl =>
    rw [render, renderFrom_eq_of_stop hoption hlexed hbefore hl]
    refine congrArg _ (finish_addLexed ?_)
    rw [stoppedOnUnknown_addLexed_append, hl, hoption]
    rfl

/-- Every source that the counters can hold is shown in some way. -/
theorem exists_shows (stop : Bool) {src : List UInt8} (hlen : src.length ≤ 2 ^ 32 - 2) :
    ∃ ls e, Shows stop src ls e := by
  by_cases h : stop = true → Lexed.AllKnown (Tokenizer.ofList src).run.lexed
  · by_cases hout : Quoting.after src = .outside
    · exact ⟨_, _, .complete (Tokenizer.run_of_outside hlen hout) h⟩
    · obtain ⟨q, -, -, hstop, -⟩ := Tokenizer.run_of_not_outside hlen hout
      exact ⟨_, _, .unterminated hstop h⟩
  · obtain ⟨hstop, hunknown⟩ := Classical.not_imp.1 h
    obtain ⟨before, l, after, hlexed, hbefore, hl⟩ := Lexed.exists_first_unknown hunknown
    exact ⟨_, _, .stopped hstop hlexed hbefore hl⟩

end Report

end FrontEnd
