import FrontEnd.Cursor.Session
import FrontEnd.Cursor.Packed
import FrontEnd.Log.Arena
import FrontEnd.Arena.Intern
import FrontEnd.Main
import FrontEnd.Proofs.Grammar.Soundness
import FrontEnd.Proofs.Grammar.Quoting
import FrontEnd.Proofs.Grammar.Completeness
import FrontEnd.Proofs.Tokenizer.Course
import FrontEnd.Proofs.Tokenizer.Concatenation
import FrontEnd.Proofs.Arena.Request
import FrontEnd.Proofs.Arena.Ledger
import FrontEnd.Proofs.Arena.Journal
import FrontEnd.Proofs.Arena.Superseded
import FrontEnd.Proofs.Position.Order
import FrontEnd.Proofs.Tokenizer.Peeking
import FrontEnd.Proofs.Arena.Foreign
import FrontEnd.Proofs.Report.Lines
import FrontEnd.Proofs.Arena.Refusal
import FrontEnd.Proofs.Arena.FirstFit
import FrontEnd.Proofs.Command.Contract
import FrontEnd.Proofs.Cursor.Overflow
import FrontEnd.Proofs.Report.Agreement
import FrontEnd.Proofs.Tokenizer.Safety
