import Mathlib.Data.List.Forall2
import FrontEnd.Proofs.Tokenizer.Course

/-!
# Looking ahead

A tokenizer that looks ahead answers every later operation as if it had not. It is the same
tokenizer again where there is a token to look at. Where there is an error, it is left behind the
scan that met the error, and so is every clone made of it from then on; but this tokenizer has the
scan of the one before (`Alike`), and no operation tells the two apart:

* `Alike.step`: like tokenizers answer alike and stay alike, if they do not look ahead;
* `Peeks.alike`: looking ahead leaves a tokenizer like the one before;
* `trace_filter_peek`: so the peeks of a run can be left out.
-/

namespace FrontEnd.Tokenizer

/-! ## Tokenizers that cannot be told apart -/

/-- The tokenizers are over the same buffer and scan the same. -/
structure Alike (t t' : Tokenizer) : Prop where
  scan_eq : t.scan = t'.scan
  buffer_eq : t.cursor.buffer = t'.cursor.buffer

theorem Alike.refl (t : Tokenizer) : Alike t t := ⟨rfl, rfl⟩

theorem Alike.trans {t₁ t₂ t₃ : Tokenizer} (h : Alike t₁ t₂) (h' : Alike t₂ t₃) : Alike t₁ t₃ :=
  ⟨h.scan_eq.trans h'.scan_eq, h.buffer_eq.trans h'.buffer_eq⟩

theorem Alike.next_eq {t t' : Tokenizer} (h : Alike t t') : t.next = t'.next := by
  rw [next, next, h.scan_eq]

theorem Alike.next?_eq {t t' : Tokenizer} (h : Alike t t') : t.next? = t'.next? := by
  show EStateM.bind next _ t = EStateM.bind next _ t'
  rw [EStateM.bind, EStateM.bind, h.next_eq]

theorem Alike.collect_eq {t t' : Tokenizer} (h : Alike t t') : t.collect = t'.collect := by
  rw [collect, collect, run_congr h.scan_eq]

theorem Alike.rewound_eq {t t' : Tokenizer} (h : Alike t t') : t.rewound = t'.rewound := by
  rw [rewound, rewound, Cursor.rewound, Cursor.rewound, h.buffer_eq]

/-- Like tokenizers, with like clones to restore, answer an operation alike and stay alike. -/
theorem Alike.step {t t' saved saved' : Tokenizer} (h : Alike t t') (hsaved : Alike saved saved')
    {op : Op} (hop : op ≠ .peek) :
    (Session.step ⟨t, saved⟩ op).1 = (Session.step ⟨t', saved'⟩ op).1 ∧
      Alike (Session.step ⟨t, saved⟩ op).2.tokenizer (Session.step ⟨t', saved'⟩ op).2.tokenizer := by
  cases op with
  | peek => exact absurd rfl hop
  | scan =>
    simp only [Session.step, Session.run, h.scan_eq]
    cases t'.scan <;> exact ⟨rfl, .refl _⟩
  | next =>
    simp only [Session.step, Session.run, h.next_eq]
    cases t'.next <;> exact ⟨rfl, .refl _⟩
  | next? =>
    simp only [Session.step, Session.run, h.next?_eq]
    cases t'.next? <;> exact ⟨rfl, .refl _⟩
  | collect =>
    simp only [Session.step, Session.run, h.collect_eq]
    cases t'.collect <;> exact ⟨rfl, .refl _⟩
  | reset =>
    refine ⟨rfl, ?_⟩
    show Alike t.rewound t'.rewound
    rw [h.rewound_eq]
    exact .refl _
  | save => exact ⟨rfl, h⟩
  | restore => exact ⟨rfl, hsaved⟩

/-! ## Looking ahead once -/

/-- An error is met again by the next scan. -/
theorem scan_of_scan_error {t t' : Tokenizer} {e : LexError} (h : t.scan = .ok (.error e) t') :
    t'.scan = .ok (.error e) t' := by
  have hfailed : t'.failed = some e := by
    cases steps_of_scan h with
    | failed hfailed => exact hfailed
    | error => rfl
  rw [scan, hfailed]

/-- What a tokenizer shows without moving is what its next scan gives; an error stops both ways of
asking with the same text, and leaves the same state. -/
inductive Peeks (t : Tokenizer) : Prop
  | token {token : Token} {t' : Tokenizer} (scan_eq : t.scan = .ok (.ok token) t')
      (next_eq : t.next = .ok token t') (peek_eq : t.peek = .ok token t)
  | error {e : LexError} {t' : Tokenizer} (scan_eq : t.scan = .ok (.error e) t')
      (next_eq : t.next = .error (.lexError e) t') (peek_eq : t.peek = .error (.lexError e) t')

theorem peeks_of_scan {t t' : Tokenizer} {r : Except LexError Token} (h : t.scan = .ok r t') :
    Peeks t := by
  cases r with
  | ok token =>
    have hnext : t.next = .ok token t' := by rw [next, h]
    refine .token h hnext ?_
    rw [peek, hnext]
    simp only [restored_of_scan h]
  | error e =>
    have hnext : t.next = .error (.lexError e) t' := by rw [next, h]
    exact .error h hnext (by rw [peek, hnext])

/-- Looking ahead leaves a tokenizer like the one before. -/
theorem Peeks.alike {t : Tokenizer} (h : Peeks t) (saved : Tokenizer) :
    Alike (Session.step ⟨t, saved⟩ .peek).2.tokenizer t := by
  cases h with
  | token _ _ hpeek =>
    simp only [Session.step, Session.run, hpeek]
    exact .refl t
  | error hscan _ hpeek =>
    simp only [Session.step, Session.run, hpeek]
    exact ⟨(scan_of_scan_error hscan).trans hscan.symm, (reads_of_scan hscan).buffer_eq⟩

/-- Every state that is reached over a buffer of at most `2 ^ 32 - 2` bytes shows what comes. -/
theorem Reachable.peeks {src : List UInt8} (hlen : src.length ≤ 2 ^ 32 - 2) {t : Tokenizer}
    (ht : Reachable src t) : Peeks t := by
  obtain ⟨tokens, ending, hc⟩ := exists_course src hlen
  obtain ⟨i, rfl⟩ := hc.exists_afterScans ht
  exact peeks_of_scan (hc.scan_eq i)

/-! ## Runs with any number of clones -/

/-- A tokenizer and the clones put aside, latest first. -/
structure Shelf where
  tokenizer : Tokenizer
  clones : List Tokenizer

namespace Shelf

/-- An operation, and the number of the clone that it restores, if it restores one. -/
structure Use where
  op : Op
  clone : Nat := 0

/-- The use looks ahead. -/
def Use.isPeek (u : Use) : Bool := u.op = .peek

/-- A fresh tokenizer over a buffer, and a clone of it. -/
def ofList (bytes : List UInt8) : Shelf := ⟨.ofList bytes, [.ofList bytes]⟩

/-- The clone that a use restores. Where there is none of its number, nothing is restored. -/
def chosen (s : Shelf) (u : Use) : Tokenizer := s.clones.getD u.clone s.tokenizer

/-- One operation. -/
def step (s : Shelf) (u : Use) : Answer × Shelf :=
  let done := Session.step ⟨s.tokenizer, s.chosen u⟩ u.op
  (done.1, ⟨done.2.tokenizer, if u.op = .save then s.tokenizer :: s.clones else s.clones⟩)

/-- The uses of a run, each with its answer. -/
def trace (s : Shelf) : List Use → List (Use × Answer)
  | [] => []
  | u :: us => (u, (s.step u).1) :: trace (s.step u).2 us

/-- Every tokenizer on the shelf is one that is reached over `src`. -/
structure Over (src : List UInt8) (s : Shelf) : Prop where
  tokenizer : Reachable src s.tokenizer
  clones : ∀ t ∈ s.clones, Reachable src t

/-- The shelves hold like tokenizers. -/
structure Alike (s s' : Shelf) : Prop where
  tokenizer : s.tokenizer.Alike s'.tokenizer
  clones : List.Forall₂ Tokenizer.Alike s.clones s'.clones

theorem Over.chosen {src : List UInt8} {s : Shelf} (h : s.Over src) (u : Use) :
    Reachable src (s.chosen u) := by
  rw [Shelf.chosen, List.getD_eq_getElem?_getD]
  cases hget : s.clones[u.clone]? with
  | none => exact h.tokenizer
  | some t => exact h.clones t (List.mem_of_getElem? hget)

theorem Over.step {src : List UInt8} {s : Shelf} (h : s.Over src) (u : Use) :
    (s.step u).2.Over src := by
  refine ⟨.step h.tokenizer (h.chosen u) u.op, fun t ht => ?_⟩
  simp only [Shelf.step] at ht
  split at ht
  · rcases List.mem_cons.1 ht with rfl | ht
    · exact h.tokenizer
    · exact h.clones t ht
  · exact h.clones t ht

theorem Alike.chosen {s s' : Shelf} (h : s.Alike s') (u : Use) :
    (s.chosen u).Alike (s'.chosen u) := by
  suffices hall : ∀ {ts ts' : List Tokenizer}, List.Forall₂ Tokenizer.Alike ts ts' → ∀ k,
      (ts.getD k s.tokenizer).Alike (ts'.getD k s'.tokenizer) from hall h.clones u.clone
  intro ts ts' hts
  induction hts with
  | nil => exact fun _ => h.tokenizer
  | cons hclone _ ih =>
    intro k
    cases k with
    | zero => exact hclone
    | succ k => exact ih k

theorem Alike.step {s s' : Shelf} (h : s.Alike s') {u : Use} (hu : u.isPeek = false) :
    (s.step u).1 = (s'.step u).1 ∧ (s.step u).2.Alike (s'.step u).2 := by
  obtain ⟨hanswer, htokenizer⟩ := h.tokenizer.step (h.chosen u) (of_decide_eq_false hu)
  refine ⟨hanswer, htokenizer, ?_⟩
  simp only [Shelf.step]
  split
  · exact .cons h.tokenizer h.clones
  · exact h.clones

theorem Alike.peek {src : List UInt8} (hlen : src.length ≤ 2 ^ 32 - 2) {s s' : Shelf}
    (hs : s.Over src) (h : s.Alike s') {u : Use} (hu : u.isPeek = true) :
    (s.step u).2.Alike s' := by
  have hpeek : u.op = .peek := of_decide_eq_true hu
  have hlike := (hs.tokenizer.peeks hlen).alike (s.chosen u)
  refine ⟨?_, ?_⟩
  · simp only [Shelf.step, hpeek]
    exact hlike.trans h.tokenizer
  · simp only [Shelf.step, hpeek, reduceCtorEq, if_false]
    exact h.clones

theorem trace_filter {src : List UInt8} (hlen : src.length ≤ 2 ^ 32 - 2) {s s' : Shelf}
    (hs : s.Over src) (h : s.Alike s') (us : List Use) :
    (s.trace us).filter (!·.1.isPeek) = s'.trace (us.filter (!·.isPeek)) := by
  induction us generalizing s s' with
  | nil => rfl
  | cons u us ih =>
    cases hu : u.isPeek with
    | true => simpa [trace, hu] using ih (hs.step u) (h.peek hlen hs hu)
    | false =>
      obtain ⟨hanswer, hnext⟩ := h.step hu
      simp [trace, hu, hanswer, ih (hs.step u) hnext]

theorem Over.ofList (src : List UInt8) : (ofList src).Over src :=
  ⟨.fresh, fun _ ht => List.mem_singleton.1 ht ▸ .fresh⟩

theorem Alike.refl (s : Shelf) : s.Alike s :=
  ⟨.refl _, List.forall₂_same.2 fun t _ => .refl t⟩

end Shelf

/-- Over a buffer of at most `2 ^ 32 - 2` bytes the uses of a tokenizer and its clones answer the
same without those that look ahead, and looking ahead shows what the next scan gives. -/
theorem trace_filter_peek (src : List UInt8) (hlen : src.length ≤ 2 ^ 32 - 2) :
    (∀ us, ((Shelf.ofList src).trace us).filter (!·.1.isPeek) =
      (Shelf.ofList src).trace (us.filter (!·.isPeek))) ∧
    ∀ t, Reachable src t → Peeks t :=
  ⟨fun us => Shelf.trace_filter hlen (.ofList src) (.refl _) us, fun _ ht => ht.peeks hlen⟩

/-- The source `a "b`: a peek shows the word, another meets the error, a clone is made of what that
one leaves, and the clones from after and from before it are restored. A reset after the error
shows the word again. -/
theorem trace_filter_peek_unclosed :
    let src : List UInt8 := [0x61, 0x20, 0x22, 0x62]
    let us : List Shelf.Use := [⟨.peek, 0⟩, ⟨.next, 0⟩, ⟨.save, 0⟩, ⟨.peek, 0⟩, ⟨.save, 0⟩,
      ⟨.scan, 0⟩, ⟨.restore, 1⟩, ⟨.next?, 0⟩, ⟨.restore, 0⟩, ⟨.collect, 0⟩, ⟨.reset, 0⟩, ⟨.peek, 0⟩,
      ⟨.next, 0⟩]
    let e : LexError := .unterminatedString ⟨1, 4⟩
    src.length ≤ 2 ^ 32 - 2 ∧
      ((Shelf.ofList src).trace us).map (·.2) =
        [.token (some (.ident [0x61])), .token (some (.ident [0x61])), .done,
          .aborted (.lexError e), .done, .lexError e, .done, .aborted (.lexError e), .done,
          .aborted (.lexError e), .done, .token (some (.ident [0x61])),
          .token (some (.ident [0x61]))] ∧
      ((Shelf.ofList src).trace us).filter (!·.1.isPeek) =
        (Shelf.ofList src).trace (us.filter (!·.isPeek)) ∧
      Peeks ((Session.ofList src).after [.next, .peek]).tokenizer := by
  intro src us e
  obtain ⟨htrace, hpeeks⟩ := trace_filter_peek src (by decide)
  exact ⟨by decide, by decide +kernel, htrace us, hpeeks _ (reachable_after src _)⟩

end FrontEnd.Tokenizer
