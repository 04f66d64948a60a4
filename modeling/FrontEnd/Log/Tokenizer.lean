import FrontEnd.Log.Event
import FrontEnd.Tokenizer.Session

/-!
# Events of a tokenizer

Every scan of a byte that starts no token is an event, also when the token is only looked at. A lex
error is one where it stops a caller, and none where it is given as an answer. So the events of an
operation follow from the scans that it makes.
-/

namespace FrontEnd

/-- The event of a token, if it has one. -/
def Token.event? : Token → Option Event
  | .unknown position byte => some (.unknownByte position byte)
  | _ => none

/-- The event of a stop, if it has one. -/
def Abort.event? : Abort → Option Event
  | .lexError e => some (.fatal e)
  | .fault _ => none

/-- The events of the scans of a run. -/
def Run.scanEvents (r : Run) : List Event := r.tokens.filterMap (·.event?)

/-- The events of a run whose errors stop the caller. -/
def Run.events (r : Run) : List Event := r.scanEvents ++ (r.stop.bind (·.event?)).toList

/-- The events of one scan whose errors stop the caller. -/
def Tokenizer.nextEvents (t : Tokenizer) : List Event :=
  match t.next with
  | .ok token _ => token.event?.toList
  | .error a _ => a.event?.toList

/-- The events of an operation. -/
def Tokenizer.Session.events (s : Session) : Op → List Event
  | .scan =>
    match s.tokenizer.scan with
    | .ok (.ok token) _ => token.event?.toList
    | _ => []
  | .next | .peek | .next? => s.tokenizer.nextEvents
  | .collect => s.tokenizer.run.events
  | .reset | .save | .restore => []

end FrontEnd
