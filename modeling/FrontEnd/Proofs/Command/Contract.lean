import FrontEnd.Command.Invocation
import FrontEnd.Proofs.Report.Arguments
import FrontEnd.Proofs.Report.Ending

/-!
# What a listing leaves

The status and the two streams of the command `lex`, for all arguments and whatever reading the
source answers. `Command.Leaves` has one rule for each way in which the command ends, and says
what it leaves in full, with its texts written out: the warnings about the arguments stand before
all else that is written to the second stream, and the first stream is empty unless the whole
listing could be made.

`Command.run_lex` is the contract: the command leaves what the rules say and nothing else, and
succeeds exactly where a source is read and listed to its end.
-/

namespace FrontEnd.Command

open Report (Options Ending Shows)
open Report.Arguments (path? warningsOf)

/-- The text of a listing: a line for each token, and one with their numbers where it is asked
for. -/
def listed (options : Options) (ls : List Lexed) : String :=
  unlines <|
    ls.map (fun l => Report.entry options l.position l.token) ++
      if options.summary then
        [toString ls.length ++ " tokens, " ++ toString (ls.countP (·.token.isUnknown)) ++ " unknown"]
      else []

/-- The lines of the warnings about the arguments, and more text after them. -/
def warned (args : List String) (text : String) : String :=
  unlines ((warningsOf args).map (·.message)) ++ text

/-- What the command leaves for its arguments, by how it ends. -/
inductive Leaves (read : String → Except ReadError (List UInt8)) (args : List String) :
    Output → Prop where
  | noPath :
      path? args = none →
      Leaves read args
        ⟨1, "", warned args <|
          unlines
            ["Usage: quillc lex <file> [options]",
             "",
             "Options:",
             "  --stop-on-unknown   Fail on the first unrecognized byte",
             "  --summary           Print token and unknown counts",
             "  --positions         Prefix each token with line:col"]⟩
  | notFound {path : String} :
      path? args = some path → read path = .error .notFound →
      Leaves read args ⟨1, "", warned args (unlines ["error: cannot find file '" ++ path ++ "'"])⟩
  | permissionDenied {path : String} :
      path? args = some path → read path = .error .permissionDenied →
      Leaves read args
        ⟨1, "", warned args (unlines ["error: permission denied reading '" ++ path ++ "'"])⟩
  | unreadable {path text : String} :
      path? args = some path → read path = .error (.other text) →
      Leaves read args
        ⟨1, "", warned args (unlines ["error: error reading '" ++ path ++ "': " ++ text])⟩
  | unterminated {path : String} {src : List UInt8} {ls : List Lexed} {p : Position} :
      path? args = some path → read path = .ok src →
      Shows (Options.among args).stopOnUnknown src ls (.unterminated p) →
      Leaves read args
        ⟨1, "", warned args <|
          unlines ["error: " ++ path ++ ":" ++ p.text ++ ": unterminated string literal"]⟩
  | stopped {path : String} {src : List UInt8} {ls : List Lexed} :
      path? args = some path → read path = .ok src →
      Shows (Options.among args).stopOnUnknown src ls .stopped →
      Leaves read args
        ⟨1, listed (.among args) ls, warned args <|
          unlines ["error: " ++ path ++ ": stopped at unknown byte"]⟩
  | complete {path : String} {src : List UInt8} {ls : List Lexed} :
      path? args = some path → read path = .ok src →
      Shows (Options.among args).stopOnUnknown src ls .complete →
      Leaves read args ⟨0, listed (.among args) ls, warned args ""⟩

variable {read : String → Except ReadError (List UInt8)} {args : List String} {o : Output}

/-- The line about a source that cannot be read. -/
theorem ReadError.line_eq (path : String) (e : ReadError) :
    "error: " ++ e.message path =
      match e with
      | notFound => "error: cannot find file '" ++ path ++ "'"
      | permissionDenied => "error: permission denied reading '" ++ path ++ "'"
      | other text => "error: error reading '" ++ path ++ "': " ++ text := by
  have happend (head tail : String) :
      "error: " ++ (head ++ path ++ tail) = "error: " ++ head ++ path ++ tail := by
    simp only [String.append_assoc]
  cases e with
  | notFound => exact happend "cannot find file '" "'"
  | permissionDenied => exact happend "permission denied reading '" "'"
  | other text =>
    calc "error: " ++ ("error reading '" ++ path ++ "': " ++ text)
      _ = "error: " ++ ("error reading '" ++ path ++ "': ") ++ text := String.append_assoc.symm
      _ = "error: error reading '" ++ path ++ "': " ++ text :=
        congrArg (· ++ text) (happend "error reading '" "': ")

/-- The command leaves what the rules say. -/
theorem Leaves.run_eq (h : Leaves read args o) : run ("lex" :: args) read = o := by
  rw [run, Invocation.ofArgs, if_pos rfl, Report.Arguments.ofList_eq, Invocation.output]
  cases h with
  | noPath hpath =>
    simp only [hpath]
    rfl
  | notFound hpath hread | permissionDenied hpath hread | unreadable hpath hread =>
    simp only [hpath, hread, Invocation.unreadable, ReadError.line_eq]
    rfl
  | unterminated hpath hread hshows =>
    have hrender := Report.render_of_shows hshows
    simp only [hpath, hread, Invocation.lexOutput, hrender, Abort.message, LexError.message,
      ← String.append_assoc]
    rfl
  | stopped hpath hread hshows =>
    have hrender := Report.render_of_shows hshows
    simp only [hpath, hread, Invocation.lexOutput, hrender]
    rfl
  | complete hpath hread hshows =>
    have hrender := Report.render_of_shows hshows
    simp only [hpath, hread, Invocation.lexOutput, hrender]
    rfl

/-- There is a rule for every source that the counters can hold. -/
theorem exists_leaves
    (hlen : ∀ path src, path? args = some path → read path = .ok src → src.length ≤ 2 ^ 32 - 2) :
    ∃ o, Leaves read args o := by
  cases hpath : path? args with
  | none => exact ⟨_, .noPath hpath⟩
  | some path =>
    cases hread : read path with
    | error e =>
      cases e with
      | notFound => exact ⟨_, .notFound hpath hread⟩
      | permissionDenied => exact ⟨_, .permissionDenied hpath hread⟩
      | other text => exact ⟨_, .unreadable hpath hread⟩
    | ok src =>
      obtain ⟨ls, e, hshows⟩ :=
        Report.exists_shows (Options.among args).stopOnUnknown (hlen path src hpath hread)
      cases e with
      | complete => exact ⟨_, .complete hpath hread hshows⟩
      | unterminated p => exact ⟨_, .unterminated hpath hread hshows⟩
      | stopped => exact ⟨_, .stopped hpath hread hshows⟩

/-- A source is read, and its scan reaches the end over no byte that it is to stop at. -/
def Completes (read : String → Except ReadError (List UInt8)) (args : List String) : Prop :=
  ∃ path src, path? args = some path ∧ read path = .ok src ∧
    (Tokenizer.ofList src).run.stop = none ∧
    ("--stop-on-unknown" ∈ args → Lexed.AllKnown (Tokenizer.ofList src).run.lexed)

theorem Leaves.status_eq_or (h : Leaves read args o) : o.status = 0 ∨ o.status = 1 := by
  cases h with
  | complete => exact .inl rfl
  | _ => exact .inr rfl

theorem Leaves.completes (h : Leaves read args o) (hstatus : o.status = 0) : Completes read args := by
  cases h with
  | complete hpath hread hshows =>
    cases hshows with
    | complete hstop hknown =>
      exact ⟨_, _, hpath, hread, hstop, fun hmem => hknown (decide_eq_true hmem)⟩
  | _ => exact absurd hstatus (show (1 : UInt32) ≠ 0 by decide)

theorem Completes.status_eq (h : Completes read args) : (run ("lex" :: args) read).status = 0 := by
  obtain ⟨path, src, hpath, hread, hstop, hknown⟩ := h
  have hshows := Shows.complete hstop fun hmem => hknown (of_decide_eq_true hmem)
  rw [(Leaves.complete hpath hread hshows).run_eq]

/-- The contract of the command `lex`: it leaves what the rules say and nothing else, and succeeds
exactly where a source is listed to its end. -/
theorem run_lex
    (hlen : ∀ path src, path? args = some path → read path = .ok src → src.length ≤ 2 ^ 32 - 2) :
    let o := run ("lex" :: args) read
    Leaves read args o ∧ (∀ o', Leaves read args o' → o' = o) ∧ (o.status = 0 ∨ o.status = 1) ∧
      (o.status = 0 ↔ Completes read args) := by
  intro o
  obtain ⟨o', ho'⟩ := exists_leaves hlen
  have ho : Leaves read args o := by rwa [← ho'.run_eq] at ho'
  exact ⟨ho, fun _ h => h.run_eq.symm, ho.status_eq_or, ho.completes, Completes.status_eq⟩

/-- Every way in which the command ends. Where an unknown byte stands before a literal that never
closes, the arguments say which of them ends it, and only the former leaves the tokens before it. -/
theorem run_lex_defects :
    let src : List UInt8 := [0x78, 0x0a, 0x40, 0x22]
    let read : String → Except ReadError (List UInt8) := fun path =>
      if path = "a" then .ok src
      else if path = "b" then .ok [0x78]
      else if path = "c" then .error .permissionDenied
      else if path = "d" then .error .isDirectory
      else .error .notFound
    let args := ["-x", "--positions", "a", "b", "--summary"]
    let args' := "--stop-on-unknown" :: args
    (∀ given path bytes, path? given = some path → read path = .ok bytes →
      bytes.length ≤ 2 ^ 32 - 2) ∧
      ¬Completes read args ∧ ¬Completes read args' ∧ Completes read ["b"] ∧
      Leaves read args ⟨1, "", "warning: unknown lex option '-x'\n" ++
        "warning: ignoring extra argument 'b'\nerror: a:2:2: unterminated string literal\n"⟩ ∧
      Leaves read args' ⟨1, "1:2  Ident(x)\n2:1  (unknown:2:1: '@')\n2 tokens, 1 unknown\n",
        "warning: unknown lex option '-x'\nwarning: ignoring extra argument 'b'\n" ++
          "error: a: stopped at unknown byte\n"⟩ ∧
      Leaves read ["b"] ⟨0, "Ident(x)\n", ""⟩ ∧
      Leaves read ["--summary", "-x"] ⟨1, "", "warning: unknown lex option '-x'\n" ++
        "Usage: quillc lex <file> [options]\n\nOptions:\n" ++
        "  --stop-on-unknown   Fail on the first unrecognized byte\n" ++
        "  --summary           Print token and unknown counts\n" ++
        "  --positions         Prefix each token with line:col\n"⟩ ∧
      Leaves read ["c", "b"] ⟨1, "",
        "warning: ignoring extra argument 'b'\nerror: permission denied reading 'c'\n"⟩ ∧
      Leaves read ["d"] ⟨1, "", "error: error reading 'd': Is a directory (os error 21)\n"⟩ ∧
      Leaves read ["e", "--summary"] ⟨1, "", "error: cannot find file 'e'\n"⟩ := by
  intro src read args args'
  have hlen (given : List String) (path : String) (bytes : List UInt8)
      (_ : path? given = some path) (hread : read path = .ok bytes) :
      bytes.length ≤ 2 ^ 32 - 2 := by
    simp only [read] at hread
    split_ifs at hread <;> cases hread <;> decide
  have hleaves (given : List String) (o : Output) (h : run ("lex" :: given) read = o) :
      Leaves read given o := h ▸ (run_lex (hlen given)).1
  have hcompletes (given : List String) :
      (run ("lex" :: given) read).status = 0 ↔ Completes read given :=
    (run_lex (hlen given)).2.2.2
  exact ⟨hlen, (hcompletes _).not.1 (by decide +kernel), (hcompletes _).not.1 (by decide +kernel),
    (hcompletes _).1 (by decide +kernel), hleaves _ _ (by decide +kernel),
    hleaves _ _ (by decide +kernel), hleaves _ _ (by decide +kernel),
    hleaves _ _ (by decide +kernel), hleaves _ _ (by decide +kernel),
    hleaves _ _ (by decide +kernel), hleaves _ _ (by decide +kernel)⟩

end FrontEnd.Command
