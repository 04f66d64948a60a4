import Mathlib.Data.List.Forall2
import FrontEnd.Command.Invocation
import FrontEnd.Proofs.Grammar.Scanned
import FrontEnd.Proofs.Report.Ending
import FrontEnd.Proofs.Token.Text

/-!
# Listings and runs

A listing without options shows all tokens of a run that reaches the end of the source, so the
program prints the text of each token and a line feed (`Command.stdout_of_lists`).

`Command.readsAs_of_stdout_eq`: what is printed can be read back. The texts of string literals may
hold line feeds and quotes, so a line of the output need not be a token; but tokens are still known
from their texts one after another, as each is known whatever follows it.
-/

namespace FrontEnd

namespace Command

/-- The arguments ask for no option, and for a source of the bytes `src`. -/
structure Lists (read : String → Except ReadError (List UInt8)) (args : List String)
    (src : List UInt8) : Prop where
  options_eq : (Report.Arguments.ofList args).options = {}
  exists_path : ∃ path, (Report.Arguments.ofList args).path = some path ∧ read path = .ok src

variable {read read' : String → Except ReadError (List UInt8)} {args args' : List String}
  {src src' : List UInt8}

/-- A listing prints what the run lists. -/
theorem stdout_lexOutput {path : String} (h : (Tokenizer.ofList src).run.stop = none) :
    (Invocation.lexOutput {} path src).stdout =
      unlines ((Tokenizer.ofList src).run.tokens.map (·.text)) := by
  have hrender : Report.render {} src = .ok (.ofLexed {} (Tokenizer.ofList src).run.lexed false) :=
    Report.render_of_shows (.complete h (absurd · Bool.false_ne_true))
  rw [Invocation.lexOutput, hrender, Run.tokens, List.map_map]
  simp only [Invocation.listing, Report.ofLexed, Bool.false_eq_true, if_false, List.append_nil]
  rfl

/-- Without options the text of each token is printed, with its line feed. -/
theorem stdout_of_lists (hargs : Lists read args src)
    (h : (Tokenizer.ofList src).run.stop = none) :
    (run ("lex" :: args) read).stdout =
      unlines ((Tokenizer.ofList src).run.tokens.map (·.text)) := by
  obtain ⟨path, hpath, hread⟩ := hargs.exists_path
  rw [run, Invocation.ofArgs, if_pos rfl, Invocation.output, hpath, hargs.options_eq]
  simp only [hread]
  exact stdout_lexOutput h

theorem toList_unlines (lines : List String) :
    (unlines lines).toList = lines.flatMap fun l => l.toList ++ ['\n'] := by
  simp only [unlines, String.toList_join, List.flatMap_map, String.toList_append]
  rfl

/-- Lines of tokens are read back one token after another. -/
theorem forall₂_readsAs_of_unlines_eq {ts ts' : List Token} (h : ∀ t ∈ ts, t.WellFormed)
    (h' : ∀ t ∈ ts', t.WellFormed) (heq : unlines (ts.map (·.text)) = unlines (ts'.map (·.text))) :
    List.Forall₂ Token.ReadsAs ts ts' := by
  have hchars := congrArg String.toList heq
  rw [toList_unlines, toList_unlines, List.flatMap_map, List.flatMap_map] at hchars
  clear heq
  -- What follows the first token of both is again the text of tokens.
  induction ts generalizing ts' with
  | nil =>
    cases ts' with
    | nil => exact .nil
    | cons t' ts' => simp at hchars
  | cons t ts ih =>
    cases ts' with
    | nil => simp at hchars
    | cons t' ts' =>
      obtain ⟨ht, hts⟩ := List.forall_mem_cons.1 h
      obtain ⟨ht', hts'⟩ := List.forall_mem_cons.1 h'
      simp only [List.flatMap_cons, List.append_assoc] at hchars
      obtain ⟨hreads, hrest⟩ := Token.text_append_inj ht ht' hchars
      exact .cons hreads (ih hts hts' (List.append_cancel_left hrest))

/-- Two sources whose scans reach the end, and for which the same is printed, have the same tokens up
to what is replaced in string literals that are no UTF-8. -/
theorem readsAs_of_stdout_eq (hargs : Lists read args src) (hargs' : Lists read' args' src')
    (h : (Tokenizer.ofList src).run.stop = none) (h' : (Tokenizer.ofList src').run.stop = none)
    (heq : (run ("lex" :: args) read).stdout = (run ("lex" :: args') read').stdout) :
    List.Forall₂ Token.ReadsAs (Tokenizer.ofList src).run.tokens
      (Tokenizer.ofList src').run.tokens := by
  rw [stdout_of_lists hargs h, stdout_of_lists hargs' h'] at heq
  exact forall₂_readsAs_of_unlines_eq Tokenizer.wellFormed_of_mem_run
    Tokenizer.wellFormed_of_mem_run heq

/-- Two literals over a line feed and an escaped quote, one of them with a byte that is replaced and
the other with the replacement itself, before an unknown byte at one position. -/
theorem readsAs_of_stdout_eq_replaced :
    let src : List UInt8 :=
      [0x66, 0x28, 0x22, 0xff, 0x5c, 0x22, 0x0a, 0x29, 0x22, 0x20, 0x29, 0x40, 0x37]
    let src' : List UInt8 :=
      [0x66, 0x20, 0x28, 0x22, 0xef, 0xbf, 0xbd, 0x5c, 0x22, 0x0a, 0x29, 0x22, 0x29, 0x20, 0x40, 0x20,
        0x37, 0x0a]
    let read : String → Except ReadError (List UInt8) := fun _ => .ok src
    let read' : String → Except ReadError (List UInt8) := fun _ => .ok src'
    Lists read ["a"] src ∧ Lists read' ["b"] src' ∧ (Tokenizer.ofList src).run.stop = none ∧
      (Tokenizer.ofList src').run.stop = none ∧
      (run ["lex", "a"] read).stdout = (run ["lex", "b"] read').stdout ∧
      List.Forall₂ Token.ReadsAs (Tokenizer.ofList src).run.tokens
        (Tokenizer.ofList src').run.tokens := by
  intro src src' read read'
  have hargs : Lists read ["a"] src := ⟨by decide, "a", by decide, rfl⟩
  have hargs' : Lists read' ["b"] src' := ⟨by decide, "b", by decide, rfl⟩
  have hstop : (Tokenizer.ofList src).run.stop = none := by decide +kernel
  have hstop' : (Tokenizer.ofList src').run.stop = none := by decide +kernel
  have heq : (run ["lex", "a"] read).stdout = (run ["lex", "b"] read').stdout := by decide +kernel
  exact ⟨hargs, hargs', hstop, hstop', heq, readsAs_of_stdout_eq hargs hargs' hstop hstop' heq⟩

end Command

end FrontEnd
