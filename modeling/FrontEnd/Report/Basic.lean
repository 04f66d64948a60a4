import FrontEnd.Log.Tokenizer
import FrontEnd.Report.Options

/-!
# Listings

The listing of a source: one entry for each token up to the end of the source, or up to and with the
first byte that starts no token where the options ask to stop there. A lex error that the listing
meets leaves no listing at all.
-/

namespace FrontEnd

/-- A listed token stream. -/
structure Report where
  /-- The text of each token, the end of the source left out. -/
  lines : List String := []
  tokens : Nat := 0
  /-- The number of bytes that start no token. -/
  unknown : Nat := 0
  /-- The listing stopped early, at a byte that starts no token. -/
  stoppedOnUnknown : Bool := false
  deriving DecidableEq, Repr

namespace Report

/-- The line with the numbers of tokens. -/
def summaryLine (r : Report) : String :=
  toString r.tokens ++ " tokens, " ++ toString r.unknown ++ " unknown"

/-- The entry of a token whose scan ended at `position`. -/
def entry (options : Options) (position : Position) (token : Token) : String :=
  if options.positions then position.text ++ "  " ++ token.text else token.text

/-- The report with one more token. Its lines are kept latest first. -/
def addToken (options : Options) (r : Report) (position : Position) (token : Token) : Report where
  lines := entry options position token :: r.lines
  tokens := r.tokens + 1
  unknown := if token.isUnknown then r.unknown + 1 else r.unknown
  stoppedOnUnknown := token.isUnknown && options.stopOnUnknown

/-- The report with its lines in order. -/
def finish (r : Report) : Report := { r with lines := r.lines.reverse }

/-- The listing of the rest of a source, after the tokens of `r`, whose lines are kept latest
first. -/
def renderFrom (options : Options) (r : Report) (t : Tokenizer) : Except Abort Report :=
  match _h : t.scan with
  | .ok (.ok token) t' =>
    if _ht : token.isEof then .ok r.finish
    else
      let r := r.addToken options t'.position token
      if r.stoppedOnUnknown then .ok r.finish else renderFrom options r t'
  | .ok (.error e) _ => .error (.lexError e)
  | .error f _ => .error (.fault f)
termination_by t.cursor.rest.length
decreasing_by exact Tokenizer.rest_length_lt_of_scan _h (by simpa using _ht)

/-- The listing of a source. -/
def render (options : Options) (source : List UInt8) : Except Abort Report :=
  renderFrom options {} (.ofList source)

/-- The part of a token list that a listing shows. -/
def shown (options : Options) (tokens : List Token) : List Token :=
  if options.stopOnUnknown then
    tokens.takeWhile (!·.isUnknown) ++ (tokens.find? (·.isUnknown)).toList
  else tokens

/-- The events of a listing: those of the tokens it scans, and how it ends. -/
def events (options : Options) (source : List UInt8) : List Event :=
  (shown options (Tokenizer.ofList source).run.tokens).filterMap (·.event?) ++
    match render options source with
    | .ok r => [.rendered r.tokens r.unknown]
    | .error a => a.event?.toList

end Report

end FrontEnd
