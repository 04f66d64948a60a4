import FrontEnd.Token.LexError
import FrontEnd.Arena.Block

/-!
# Events

What the front end reports about its work beside its answers: bytes that start no token, the stop of
a scan, and every change of a region. An event has a level, a target, a message and named fields.
-/

namespace FrontEnd

/-- How much an event matters. -/
inductive Event.Level where
  | trace
  | debug
  | error
  deriving DecidableEq, Repr

/-- The name of a level. -/
def Event.Level.name : Level → String
  | trace => "TRACE"
  | debug => "DEBUG"
  | error => "ERROR"

/-- Something worth a line of a log. -/
inductive Event where
  /-- A scan met a byte that starts no token. -/
  | unknownByte (position : Position) (byte : UInt8)
  /-- A lex error stopped a caller. -/
  | fatal (e : LexError)
  /-- A region was reset, with so many bytes in use. -/
  | reset (reclaimed : UInt64)
  /-- A new block, after a gap of `padding` bytes. -/
  | allocated (b : Arena.Block) (padding : UInt64)
  /-- A block with another length. -/
  | resized (b : Arena.Block) (oldLen : UInt64)
  /-- A refused request. -/
  | refused (e : Arena.AllocError)
  /-- A finished report. -/
  | rendered (tokens unknown : Nat)
  deriving DecidableEq, Repr

namespace Event

/-- The level of an event. -/
def level : Event → Level
  | unknownByte .. | reset .. | allocated .. | resized .. => .trace
  | refused .. | rendered .. => .debug
  | fatal .. => .error

/-- The part of the front end that an event comes from. -/
def target : Event → String
  | unknownByte .. => "quill_lexer::tokenizer"
  | fatal .. => "quill_lexer::error"
  | reset .. | allocated .. | resized .. | refused .. => "quill_arena::bump"
  | rendered .. => "quillc::commands::lex"

/-- The message of an event. -/
def message : Event → String
  | unknownByte .. => "tokenizer: unknown byte"
  | fatal .. => "tokenizer: fatal error"
  | reset .. => "bump: reset"
  | allocated .. => "bump: allocated"
  | resized .. => "bump: resized in place"
  | refused .. => "bump: request refused"
  | rendered .. => "lex: rendered token stream"

/-- The named values of an event. -/
def fields : Event → List (String × String)
  | unknownByte position byte =>
    [("line", toString position.line), ("col", toString position.col), ("byte", toString byte)]
  | fatal e => [("err", e.message)]
  | reset reclaimed => [("reclaimed", toString reclaimed)]
  | allocated b padding =>
    [("offset", toString b.offset), ("len", toString b.len), ("padding", toString padding)]
  | resized b oldLen =>
    [("offset", toString b.offset), ("old_len", toString oldLen), ("new_len", toString b.len)]
  | refused e => [("err", e.message)]
  | rendered tokens unknown => [("tokens", toString tokens), ("unknown", toString unknown)]

end Event

end FrontEnd
