import FrontEnd.Command.Reading
import FrontEnd.Report.Basic

/-!
# The command line

What a list of arguments asks for, and what is written and returned for it. An invocation reads at
most one source (`Invocation.path?`); all else follows from the arguments and that source.
-/

namespace FrontEnd.Command

/-- What a run of the program leaves. -/
structure Output where
  /-- The exit status. -/
  status : UInt32 := 0
  stdout : String := ""
  stderr : String := ""
  deriving DecidableEq, Repr

/-- Lines of text, each with its end. -/
def unlines (lines : List String) : String := String.join (lines.map (· ++ "\n"))

/-- The name and the version of the program. -/
def version : String := "quillc 0.1.0"

/-- The lines that explain the options of a listing. -/
def optionLines : List String :=
  ["  --stop-on-unknown   Fail on the first unrecognized byte",
   "  --summary           Print token and unknown counts",
   "  --positions         Prefix each token with line:col"]

/-- The text that explains the program. -/
def usage : String :=
  unlines <|
    ["Quill front-end driver",
     "",
     "Usage: quillc <command> [options]",
     "",
     "Commands:",
     "  lex <file>           Tokenize a file and print one token per line",
     "  help                 Show this help message",
     "  version              Show version information",
     "",
     "Lex options:"] ++ optionLines ++
    ["",
     "Set RUST_LOG (e.g. RUST_LOG=quill_lexer=trace) for debug output."]

/-- The text that explains a listing. -/
def lexUsage : String :=
  unlines (["Usage: quillc lex <file> [options]", "", "Options:"] ++ optionLines)

/-- What is asked for. -/
inductive Invocation where
  | help
  | version
  /-- A listing, with or without the path of a source. -/
  | lex (arguments : Report.Arguments)
  | unknown (command : String)
  deriving DecidableEq, Repr

namespace Invocation

/-- What the arguments of the program ask for. -/
def ofArgs : List String → Invocation
  | [] => .help
  | command :: args =>
    if command = "lex" then .lex (.ofList args)
    else if command = "help" ∨ command = "--help" ∨ command = "-h" then .help
    else if command = "version" ∨ command = "--version" ∨ command = "-V" then .version
    else .unknown command

/-- The source to read. -/
def path? : Invocation → Option String
  | lex arguments => arguments.path
  | _ => none

/-- The text of a listing: its lines, and the summary where it is asked for. -/
def listing (options : Report.Options) (r : Report) : String :=
  unlines (r.lines ++ if options.summary then [r.summaryLine] else [])

/-- What is left for a listing of the source at `path`. -/
def lexOutput (options : Report.Options) (path : String) (source : List UInt8) : Output :=
  match Report.render options source with
  | .error a => { status := 1, stderr := unlines ["error: " ++ path ++ ":" ++ a.message] }
  | .ok r =>
    if r.stoppedOnUnknown then
      { status := 1
        stdout := listing options r
        stderr := unlines ["error: " ++ path ++ ": stopped at unknown byte"] }
    else { stdout := listing options r }

/-- What is left for a source that cannot be read. -/
def unreadable (path : String) (e : ReadError) : Output :=
  { status := 1, stderr := unlines ["error: " ++ e.message path] }

/-- The output after the warnings about the arguments. -/
def afterWarnings (warnings : List Report.Warning) (o : Output) : Output :=
  { o with stderr := unlines (warnings.map (·.message)) ++ o.stderr }

/-- What is left, with sources read by `read`. -/
def output (read : String → Except ReadError (List UInt8)) : Invocation → Output
  | help => { stdout := usage }
  | version => { stdout := unlines [Command.version] }
  | unknown command =>
    { status := 1, stdout := usage, stderr := unlines ["Unknown command: " ++ command, ""] }
  | lex arguments =>
    afterWarnings arguments.warnings <|
      match arguments.path with
      | none => { status := 1, stderr := lexUsage }
      | some path =>
        match read path with
        | .ok source => lexOutput arguments.options path source
        | .error e => unreadable path e

end Invocation

/-- What the program leaves for its arguments, with sources read by `read`. -/
def run (args : List String) (read : String → Except ReadError (List UInt8)) : Output :=
  (Invocation.ofArgs args).output read

end FrontEnd.Command
