import FrontEnd.Proofs.Position.Order
import FrontEnd.Proofs.Report.Ending

/-!
# A listing and the scans

What a listing shows is a part of what the scans of its source give: all tokens before the end or
the error, or the shortest start of them that ends in a byte that starts no token (`Report.Part`).
Which of the two it is depends on one option alone, and the part tells the whole listing whatever
the other options are (`Report.Agrees`, `Report.render_agrees`). So an error of the source that
stands behind the part is never met.
-/

namespace FrontEnd

/-- The last of the tokens is a byte that starts none. -/
def Lexed.EndsUnknown (ls : List Lexed) : Prop :=
  ∃ l, ls.getLast? = some l ∧ l.token.isUnknown = true

namespace Report

variable {options : Options} {stop : Bool} {src : List UInt8} {ls us : List Lexed} {e : Ending}

/-! ## The part that is shown -/

/-- A listing is to stop at a byte that starts no token, and there is one. -/
def Stops (stop : Bool) (ls : List Lexed) : Prop :=
  stop = true ∧ ∃ l ∈ ls, l.token.isUnknown = true

/-- The part of the tokens `ls` that a listing shows: where it stops, the shortest start of them
that ends in a byte that starts no token, and otherwise all. -/
structure Part (stop : Bool) (ls us : List Lexed) : Prop where
  eq_of_not_stops : ¬Stops stop ls → us = ls
  of_stops : Stops stop ls →
    us <+: ls ∧ Lexed.EndsUnknown us ∧
      ∀ vs, vs <+: ls → Lexed.EndsUnknown vs → us.length ≤ vs.length

theorem Part.isPrefix (h : Part stop ls us) : us <+: ls := by
  by_cases hstops : Stops stop ls
  · exact (h.of_stops hstops).1
  · exact h.eq_of_not_stops hstops ▸ List.prefix_rfl

theorem Part.unique {us' : List Lexed} (h : Part stop ls us) (h' : Part stop ls us') : us' = us := by
  by_cases hstops : Stops stop ls
  · obtain ⟨hpre, hends, hshortest⟩ := h.of_stops hstops
    obtain ⟨hpre', hends', hshortest'⟩ := h'.of_stops hstops
    have hlength := Nat.le_antisymm (hshortest' us hpre hends) (hshortest us' hpre' hends')
    exact (List.prefix_of_prefix_length_le hpre' hpre (Nat.le_of_eq hlength)).eq_of_length
      hlength
  · rw [h.eq_of_not_stops hstops, h'.eq_of_not_stops hstops]

theorem not_stops_iff : ¬Stops stop ls ↔ (stop = true → Lexed.AllKnown ls) := by
  simp only [Stops, Lexed.AllKnown, not_and, not_exists, Bool.not_eq_true]

/-- A listing stops where it ends so. -/
theorem Shows.stops_iff (h : Shows stop src ls e) :
    Stops stop (Tokenizer.ofList src).run.lexed ↔ e = .stopped := by
  cases h with
  | complete _ hknown | unterminated _ hknown =>
    exact iff_of_false (not_stops_iff.2 hknown) nofun
  | stopped hstop hlexed _ hl =>
    exact iff_of_true ⟨hstop, _, by rw [hlexed]; simp, hl⟩ rfl

/-- A start of the tokens that ends in a byte that starts none reaches at least the first of them. -/
theorem length_lt_of_endsUnknown {before after vs : List Lexed} (hbefore : Lexed.AllKnown before)
    (hpre : vs <+: before ++ after) (hends : Lexed.EndsUnknown vs) :
    before.length < vs.length := by
  by_contra hle
  obtain ⟨l, hlast, hl⟩ := hends
  have hinner : vs <+: before :=
    List.prefix_of_prefix_length_le hpre (List.prefix_append _ _) (Nat.le_of_not_lt hle)
  have hknown := hbefore l (hinner.subset (List.mem_of_getLast? hlast))
  rw [hl] at hknown
  cases hknown

/-- What is shown is the part. -/
theorem Shows.part (h : Shows stop src ls e) : Part stop (Tokenizer.ofList src).run.lexed ls := by
  refine ⟨fun hstops => ?_, fun hstops => ?_⟩
  · rw [h.stops_iff] at hstops
    cases h with
    | complete | unterminated => rfl
    | stopped => exact absurd rfl hstops
  · rw [h.stops_iff] at hstops
    cases h with
    | complete | unterminated => cases hstops
    | @stopped before after l _ hlexed hbefore hl =>
      rw [hlexed]
      refine ⟨⟨after, by simp⟩, ⟨l, by simp, hl⟩, fun vs hpre hends => ?_⟩
      rw [List.length_append, List.length_singleton]
      exact length_lt_of_endsUnknown hbefore hpre hends

/-! ## The report of a part -/

/-- The report lists the tokens `us`: their texts in order, each behind its position where the
options ask for it, and their numbers. -/
structure Lists (options : Options) (us : List Lexed) (r : Report) : Prop where
  lines_eq : r.lines = us.map fun l =>
    (if options.positions then l.position.text ++ "  " else "") ++ l.token.text
  length_lines : r.lines.length = r.tokens
  tokens_eq : r.tokens = us.length
  unknown_eq : r.unknown = us.countP (·.token.isUnknown)

theorem entry_eq (options : Options) (p : Position) (token : Token) :
    entry options p token =
      (if options.positions then p.text ++ "  " else "") ++ token.text := by
  rw [entry]
  split <;> simp

theorem lists_ofLexed (options : Options) (us : List Lexed) (stopped : Bool) :
    Lists options us (ofLexed options us stopped) :=
  ⟨List.map_congr_left fun _ _ => entry_eq options _ _, List.length_map .., rfl, rfl⟩

/-- Positions stand before the same lines. -/
theorem ofLexed_positions (options : Options) (us : List Lexed) (stopped : Bool) :
    ofLexed { options with positions := true } us stopped =
      let r := ofLexed { options with positions := false } us stopped
      { r with lines := List.zipWith (fun l line => l.position.text ++ "  " ++ line) us r.lines } := by
  simp only [ofLexed, List.zipWith_map_right, List.zipWith_self]
  rfl

/-! ## Agreement -/

/-- How the listing of `src` agrees with the scans that give the tokens `us`, for some options and
between options. -/
structure Agrees (options : Options) (src : List UInt8) (us : List Lexed) : Prop where
  /-- The tokens are given by the first scans, and their positions told after these. -/
  scanned : ∀ i l, us[i]? = some l →
    ((Tokenizer.ofList src).afterScans i).scan =
        .ok (.ok l.token) ((Tokenizer.ofList src).afterScans (i + 1)) ∧
      l.position = ((Tokenizer.ofList src).afterScans (i + 1)).position
  /-- There is no listing where the scans end in an error that is met. -/
  error_iff : ∀ a, render options src = .error a ↔
    (Tokenizer.ofList src).run.stop = some a ∧
      ¬Stops options.stopOnUnknown (Tokenizer.ofList src).run.lexed
  message_of_error : ∀ a, render options src = .error a →
    ∃ p, a = .lexError (.unterminatedString p) ∧
      a.message = p.text ++ ": unterminated string literal"
  lists : ∀ r, render options src = .ok r → Lists options us r
  stopped_iff : ∀ r, render options src = .ok r →
    (r.stoppedOnUnknown = true ↔
      Stops options.stopOnUnknown (Tokenizer.ofList src).run.lexed)
  last_of_stopped : ∀ r, render options src = .ok r → r.stoppedOnUnknown = true →
    r.unknown = 1 ∧ ∃ l, us.getLast? = some l ∧ l.token.isUnknown = true ∧
      r.lines.getLast? = some (entry options l.position l.token)
  /-- Positions are put before the same lines. -/
  positions_eq : render { options with positions := true } src =
    (render { options with positions := false } src).map fun r =>
      { r with lines := List.zipWith (fun l line => l.position.text ++ "  " ++ line) us r.lines }
  /-- The position of a byte that starts no token is the one that its text holds. -/
  text_unknown : ∀ l ∈ us, ∀ p b, l.token = .unknown p b →
    p = l.position ∧
      l.token.text = "(unknown:" ++ l.position.text ++ ": '" ++ Byte.escape b ++ "')"
  increasing : us.Pairwise fun l l' => compare l.position l'.position = .lt
  summary_eq : ∀ summary, render { options with summary } src = render options src

/-- What a listing shows ends in the only byte that starts no token, where it stops. -/
theorem Shows.countP_eq_one (h : Shows stop src us .stopped) :
    us.countP (·.token.isUnknown) = 1 ∧
      ∃ l, us.getLast? = some l ∧ l.token.isUnknown = true := by
  cases h with
  | @stopped before _ l _ _ hbefore hl =>
    have hnone : before.countP (·.token.isUnknown) = 0 :=
      List.countP_eq_zero.2 fun l' hl' => by rw [hbefore l' hl']; decide
    refine ⟨?_, l, List.getLast?_concat, hl⟩
    rw [List.countP_append, hnone, List.countP_singleton, hl]
    rfl

/-- There is no listing where the scans end in an error that is met. -/
theorem Shows.render_eq_error_iff (h : Shows options.stopOnUnknown src us e) {a : Abort} :
    render options src = .error a ↔
      (Tokenizer.ofList src).run.stop = some a ∧
        ¬Stops options.stopOnUnknown (Tokenizer.ofList src).run.lexed := by
  rw [render_of_shows h, h.stops_iff]
  cases h with
  | complete hstop =>
    rw [hstop]
    exact iff_of_false nofun fun h => nomatch h.1
  | unterminated hstop =>
    rw [hstop, Except.error.injEq, Option.some.injEq]
    exact ⟨fun ha => ⟨ha, nofun⟩, And.left⟩
  | stopped => exact iff_of_false nofun fun h => h.2 rfl

/-- Only a literal that never closes is such an error. -/
theorem Shows.exists_of_render_eq_error (h : Shows options.stopOnUnknown src us e) {a : Abort}
    (ha : render options src = .error a) : ∃ p, a = .lexError (.unterminatedString p) := by
  rw [render_of_shows h] at ha
  cases e with
  | unterminated p => exact ⟨p, (Except.error.inj ha).symm⟩
  | complete | stopped => cases ha

/-- The listing, where there is one. -/
theorem Shows.eq_ofLexed (h : Shows options.stopOnUnknown src us e) {r : Report}
    (hr : render options src = .ok r) : r = ofLexed options us (decide (e = .stopped)) := by
  rw [render_of_shows h] at hr
  cases e with
  | complete | stopped => exact (Except.ok.inj hr).symm
  | unterminated => cases hr

theorem Shows.render_positions (h : Shows options.stopOnUnknown src us e) :
    render { options with positions := true } src =
      (render { options with positions := false } src).map fun r =>
        { r with lines := List.zipWith (fun l line => l.position.text ++ "  " ++ line) us r.lines } := by
  have h' (positions : Bool) : Shows { options with positions }.stopOnUnknown src us e := h
  rw [render_of_shows (h' true), render_of_shows (h' false)]
  cases e with
  | complete | stopped => exact congrArg Except.ok (ofLexed_positions options us _)
  | unterminated => rfl

/-- The summary is not a part of the listing. -/
theorem Shows.render_summary (h : Shows options.stopOnUnknown src us e) (summary : Bool) :
    render { options with summary } src = render options src := by
  have h' : Shows { options with summary }.stopOnUnknown src us e := h
  rw [render_of_shows h, render_of_shows h']
  cases e <;> rfl

/-- What is shown agrees with the scans. -/
theorem Shows.agrees (hlen : src.length ≤ 2 ^ 32 - 2)
    (h : Shows options.stopOnUnknown src us e) : Agrees options src us where
  scanned i l hl := by
    obtain ⟨after, hlexed⟩ := h.part.isPrefix
    refine Tokenizer.scan_of_getElem?_lexed_run ?_
    rw [← hlexed, List.getElem?_append_left (List.getElem?_eq_some_iff.1 hl).1, hl]
  error_iff _ := h.render_eq_error_iff
  message_of_error _ ha := by
    obtain ⟨p, rfl⟩ := h.exists_of_render_eq_error ha
    exact ⟨p, rfl, rfl⟩
  lists r hr := h.eq_ofLexed hr ▸ lists_ofLexed ..
  stopped_iff r hr := by
    rw [h.stops_iff, h.eq_ofLexed hr]
    exact decide_eq_true_iff
  last_of_stopped r hr hstopped := by
    obtain rfl := h.eq_ofLexed hr
    obtain rfl := of_decide_eq_true hstopped
    obtain ⟨hcount, l, hlast, hl⟩ := h.countP_eq_one
    exact ⟨hcount, l, hlast, hl, by rw [ofLexed, List.getLast?_map, hlast]; rfl⟩
  positions_eq := h.render_positions
  text_unknown l hl p b htoken := by
    obtain ⟨htold, -⟩ := Tokenizer.Reachable.told hlen .fresh
    obtain ⟨rfl, -⟩ := (htold l (h.part.isPrefix.subset hl)).unknown p b htoken
    exact ⟨rfl, by rw [htoken]; rfl⟩
  increasing := (Tokenizer.Reachable.pairwise_position hlen .fresh).sublist h.part.isPrefix.sublist
  summary_eq := h.render_summary

/-- Over every source of at most `2 ^ 32 - 2` bytes and for all options one part of the tokens is
shown, and the listing agrees with the scans that give it. -/
theorem render_agrees (options : Options) (src : List UInt8) (hlen : src.length ≤ 2 ^ 32 - 2) :
    let ls := (Tokenizer.ofList src).run.lexed
    (∃! us, Part options.stopOnUnknown ls us) ∧
      ∀ us, Part options.stopOnUnknown ls us → Agrees options src us := by
  intro ls
  obtain ⟨us, e, hshows⟩ := exists_shows options.stopOnUnknown hlen
  refine ⟨⟨us, hshows.part, fun _ h => hshows.part.unique h⟩, fun us' h => ?_⟩
  rw [hshows.part.unique h]
  exact hshows.agrees hlen

/-- A byte that starts no token, a line further a literal that never closes, and behind its quote
such a byte again. Where the listing is to stop it never meets the literal. -/
theorem render_agrees_defects :
    let src : List UInt8 := [0x78, 0x40, 0x0a, 0x37, 0x22, 0x40]
    let ls := (Tokenizer.ofList src).run.lexed
    let stopping : Options := { stopOnUnknown := true, positions := true }
    src.length ≤ 2 ^ 32 - 2 ∧ ls.length = 3 ∧
      Part true ls (ls.take 2) ∧ Agrees stopping src (ls.take 2) ∧
      render stopping src = .ok ⟨["1:2  Ident(x)", "1:3  (unknown:1:3: '@')"], 2, 1, true⟩ ∧
      Part false ls ls ∧ Agrees {} src ls ∧
      render {} src = .error (.lexError (.unterminatedString ⟨2, 2⟩)) := by
  intro src ls stopping
  have hlen : src.length ≤ 2 ^ 32 - 2 := by decide
  have hrender :
      render stopping src = .ok ⟨["1:2  Ident(x)", "1:3  (unknown:1:3: '@')"], 2, 1, true⟩ := by
    decide +kernel
  have hrender' : render {} src = .error (.lexError (.unterminatedString ⟨2, 2⟩)) := by
    decide +kernel
  obtain ⟨⟨us, hpart, -⟩, hagrees⟩ := render_agrees stopping src hlen
  obtain ⟨-, hagrees'⟩ := render_agrees {} src hlen
  have hpart' : Part false ls ls := ⟨fun _ => rfl, fun h => nomatch h.1⟩
  have hus : us = ls.take 2 := by
    have hlength := ((hagrees us hpart).lists _ hrender).tokens_eq
    rw [List.prefix_iff_eq_take.1 hpart.isPrefix, ← hlength]
  rw [← hus]
  exact ⟨hlen, by decide +kernel, hpart, hagrees us hpart, hrender, hpart', hagrees' ls hpart',
    hrender'⟩

end Report

end FrontEnd
