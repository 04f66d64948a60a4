import FrontEnd.Tokenizer.Scan

/-!
# The tokenizer

A tokenizer is a cursor and the error its scans met, if any. An error is final: every later scan
reports it again and does not move, until the tokenizer goes back to the start of its buffer.

* `scan`: the next token, or the error (`steps_of_scan` has the steps behind its answer);
* `next`, `peek`, `next?`: the next token where an error stops the caller.
-/

namespace FrontEnd

/-- A cursor, and the error that its scans met. -/
structure Tokenizer where
  cursor : Cursor
  failed : Option LexError := none
  deriving DecidableEq, Repr

namespace Tokenizer

/-- The tokenizer at the start of a buffer. -/
def ofList (bytes : List UInt8) : Tokenizer := { cursor := .ofList bytes }

/-- The tokenizer at the start of the same buffer. -/
def rewound (t : Tokenizer) : Tokenizer := { cursor := t.cursor.rewound }

/-- The offset of the next byte. -/
def offset (t : Tokenizer) : Nat := t.cursor.pos

/-- The line and column after the last byte read. -/
def position (t : Tokenizer) : Position := t.cursor.position

/-- The whole buffer has been read. -/
def atEnd (t : Tokenizer) : Bool := t.cursor.atEnd

/-- The next token, or the error. An error stays: it is the answer of every later scan. -/
def scan : EStateM Fault Tokenizer (Except LexError Token) := fun t =>
  match t.failed with
  | some e => .ok (.error e) t
  | none =>
    match t.cursor.token with
    | .ok (.ok token) c => .ok (.ok token) { t with cursor := c }
    | .ok (.error e) c => .ok (.error e) { cursor := c, failed := some e }
    | .error f c => .error f { t with cursor := c }

/-- The steps by which a scan answers: the error met before, or what the cursor reads. -/
inductive ScanSteps (t : Tokenizer) : Except LexError Token → Tokenizer → Prop where
  | failed {e : LexError} : t.failed = some e → ScanSteps t (.error e) t
  | token {token : Token} {c : Cursor} :
    t.failed = none → t.cursor.token = .ok (.ok token) c →
      ScanSteps t (.ok token) { t with cursor := c }
  | error {e : LexError} {c : Cursor} :
    t.failed = none → t.cursor.token = .ok (.error e) c →
      ScanSteps t (.error e) { cursor := c, failed := some e }

theorem steps_of_scan {t t' : Tokenizer} {r : Except LexError Token} (h : t.scan = .ok r t') :
    ScanSteps t r t' := by
  unfold scan at h
  split at h
  · rename_i e hfailed
    obtain ⟨rfl, rfl⟩ := EStateM.Result.ok.inj h
    exact .failed hfailed
  · rename_i hfailed
    split at h
    · rename_i token c htoken
      obtain ⟨rfl, rfl⟩ := EStateM.Result.ok.inj h
      exact .token hfailed htoken
    · rename_i e c htoken
      obtain ⟨rfl, rfl⟩ := EStateM.Result.ok.inj h
      exact .error hfailed htoken
    · simp at h

/-- A token other than the end of the source takes at least one byte. -/
theorem rest_length_lt_of_scan {t t' : Tokenizer} {token : Token}
    (h : t.scan = .ok (.ok token) t') (ht : token.isEof = false) :
    t'.cursor.rest.length < t.cursor.rest.length := by
  cases steps_of_scan h with
  | token _ htoken => exact Cursor.rest_length_lt_of_token htoken ht

/-- The next token; an error stops the caller. -/
def next : EStateM Abort Tokenizer Token := fun t =>
  match t.scan with
  | .ok (.ok token) t' => .ok token t'
  | .ok (.error e) t' => .error (.lexError e) t'
  | .error f t' => .error (.fault f) t'

/-- The next token, which stays unread. A stop leaves the tokenizer where `next` leaves it. -/
def peek : EStateM Abort Tokenizer Token := fun t =>
  match t.next with
  | .ok token t' => .ok token { t' with cursor := t.cursor }
  | .error a t' => .error a t'

/-- The next token, and none at the end of the source. -/
def next? : EStateM Abort Tokenizer (Option Token) := do
  let token ← next
  return if token.isEof then none else some token

end Tokenizer

end FrontEnd
