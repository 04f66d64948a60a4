import FrontEnd.Cursor.Packed
import FrontEnd.Proofs.Byte.Blocks
import FrontEnd.Proofs.Cursor.Between

/-!
# Cursors over blocks answer as cursors over their bytes

A cursor over blocks stands for a cursor over the bytes (`Packed.Stands`). Each operation takes two
such cursors to the same answer or the same fault, and leaves two such cursors (`Packed.Agree`). So
a session over blocks answers as one over the bytes and comes as far, however many they are
(`Packed.Session.step_after`).
-/

namespace FrontEnd

/-- A stretch in blocks moves a position as its bytes do. -/
theorem Position.skipBlocks_eq (bs : Byte.Blocks) : skipBlocks bs = skip bs.toList := by
  funext p
  unfold skipBlocks skip
  rw [← Byte.Blocks.count_toList, ← Byte.Blocks.length_toList, ← Byte.Blocks.lastLineLength_toList]
  by_cases hmem : Byte.newline ∈ bs.toList
  · rewrite [if_neg (Nat.ne_of_gt (List.count_pos_iff.2 hmem)),
      if_pos (List.contains_iff_mem.2 hmem)]
    rfl
  · rewrite [if_pos (List.count_eq_zero_of_not_mem hmem), if_neg (by simpa using hmem)]
    rfl

namespace Cursor

theorem eatWhile_of_rest_nil (f : UInt8 → Bool) {c : Cursor} (h : c.rest = []) :
    c.eatWhile f = .ok () c := by
  rw [eatWhile]
  split
  · rfl
  · rename_i hrest
    cases h.symm.trans hrest

theorem eatWhile_of_rest_cons (f : UInt8 → Bool) {c : Cursor} {b : UInt8} {rest : List UInt8}
    (h : c.rest = b :: rest) :
    c.eatWhile f =
      if f b then
        match c.position.advance b with
        | .ok _ q => eatWhile f (c.past [b] rest q)
        | .error e q => .error e (c.past [b] rest q)
      else .ok () c := by
  rw [eatWhile]
  split
  · rename_i hrest
    cases h.symm.trans hrest
  · rename_i hrest
    cases h.symm.trans hrest
    rfl

namespace Packed

open Byte (Blocks)

/-- A cursor over blocks stands for the cursor that has come as far over their bytes. -/
structure Stands (p : Packed) (c : Cursor) : Prop where
  buffer_eq : p.buffer.toList = c.buffer
  rest_eq : p.rest.toList = c.rest
  pos_eq : p.pos = c.pos
  position_eq : p.position = c.position

/-- Two results are the same, and their cursors stand for one another. -/
inductive Agree {α : Type} :
    EStateM.Result Fault Packed α → EStateM.Result Fault Cursor α → Prop where
  | ok {a : α} {p : Packed} {c : Cursor} (h : p.Stands c) : Agree (.ok a p) (.ok a c)
  | error {f : Fault} {p : Packed} {c : Cursor} (h : p.Stands c) : Agree (.error f p) (.error f c)

theorem Agree.exists_ok {α : Type} {r : EStateM.Result Fault Packed α}
    {r' : EStateM.Result Fault Cursor α} (h : Agree r r') {a : α} {p : Packed} (hr : r = .ok a p) :
    ∃ c, r' = .ok a c ∧ p.Stands c := by
  cases h with
  | ok hc =>
    obtain ⟨rfl, rfl⟩ := EStateM.Result.ok.inj hr
    exact ⟨_, rfl, hc⟩
  | error => cases hr

theorem stands_ofBlocks (bs : Blocks) : (ofBlocks bs).Stands (ofList bs.toList) :=
  ⟨rfl, rfl, rfl, rfl⟩

namespace Stands

variable {p : Packed} {c : Cursor}

theorem past (h : p.Stands c) (bs : List UInt8) {rest : Blocks} (hrest : c.rest = bs ++ rest.toList)
    (q : Position) : (p.past bs.length rest q).Stands (c.past bs rest.toList q) where
  buffer_eq := h.buffer_eq.trans (reads_past q hrest).buffer_eq.symm
  rest_eq := rfl
  pos_eq := congrArg (· + bs.length) h.pos_eq
  position_eq := rfl

theorem rewound (h : p.Stands c) : p.rewound.Stands c.rewound := by
  rw [Cursor.rewound, ← h.buffer_eq]
  exact stands_ofBlocks _

/-- The next byte and those behind it, as the blocks tell them. -/
theorem rest_of_none (h : p.Stands c) (hnone : p.rest.uncons? = none) : c.rest = [] :=
  h.rest_eq.symm.trans (Blocks.toList_of_uncons?_none hnone)

theorem rest_of_some (h : p.Stands c) {b : UInt8} {rest : Blocks}
    (hsome : p.rest.uncons? = some (b, rest)) : c.rest = b :: rest.toList :=
  h.rest_eq.symm.trans (Blocks.toList_of_uncons?_some hsome)

theorem current_eq (h : p.Stands c) : p.current = c.current := by
  unfold Packed.current Cursor.current
  cases hnext : p.rest.uncons? with
  | none => rw [h.rest_of_none hnext]; rfl
  | some next => rw [h.rest_of_some hnext]; rfl

theorem atEnd_eq (h : p.Stands c) : p.atEnd = c.atEnd := by
  unfold Packed.atEnd Cursor.atEnd
  cases hnext : p.rest.uncons? with
  | none => rw [h.rest_of_none hnext]; rfl
  | some next => rw [h.rest_of_some hnext]; rfl

theorem bump (h : p.Stands c) : Agree p.bump c.bump := by
  unfold Packed.bump Cursor.bump
  cases hnext : p.rest.uncons? with
  | none =>
    rw [h.rest_of_none hnext]
    exact .ok h
  | some next =>
    obtain ⟨b, rest⟩ := next
    have hrest := h.rest_of_some hnext
    rw [hrest, h.position_eq]
    dsimp only
    cases c.position.advance b with
    | ok _ q => exact .ok (h.past [b] hrest q)
    | error f q => exact .error (h.past [b] hrest q)

theorem eatWhile (h : p.Stands c) (f : UInt8 → Bool) : Agree (p.eatWhile f) (c.eatWhile f) := by
  fun_induction Packed.eatWhile f p generalizing c with
  | case1 p hnext =>
    rw [eatWhile_of_rest_nil f (h.rest_of_none hnext)]
    exact .ok h
  | case2 p b rest hnext hb u q hadvance ih =>
    have hrest := h.rest_of_some hnext
    rw [eatWhile_of_rest_cons f hrest, if_pos hb, ← h.position_eq, hadvance]
    exact ih (h.past [b] hrest q)
  | case3 p b rest hnext hb e q hadvance =>
    have hrest := h.rest_of_some hnext
    rw [eatWhile_of_rest_cons f hrest, if_pos hb, ← h.position_eq, hadvance]
    exact .error (h.past [b] hrest q)
  | case4 p b rest hnext hb =>
    rw [eatWhile_of_rest_cons f (h.rest_of_some hnext), if_neg hb]
    exact .ok h

/-- The bytes left stop a search as the blocks do. -/
theorem stop_eq (rest : Blocks) : stop rest = .ofRest rest.toList := by
  unfold stop
  cases hnext : rest.uncons? with
  | none => rw [Blocks.toList_of_uncons?_none hnext]; rfl
  | some next => rw [Blocks.toList_of_uncons?_some hnext]; rfl

theorem skipToDelimiter (h : p.Stands c) : Agree p.skipToDelimiter c.skipToDelimiter := by
  obtain ⟨htake, hdrop⟩ := Blocks.toList_breakAt Byte.isDelimiter p.rest
  rw [h.rest_eq] at htake hdrop
  have hrest : c.rest = (p.rest.breakAt Byte.isDelimiter).1.toList ++
      (p.rest.breakAt Byte.isDelimiter).2.toList := by
    rw [htake, hdrop, List.takeWhile_append_dropWhile]
  unfold Packed.skipToDelimiter Cursor.skipToDelimiter
  dsimp only
  rw [Position.skipBlocks_eq, ← htake, ← hdrop, h.position_eq, stop_eq, ← Blocks.length_toList]
  cases c.position.skip (p.rest.breakAt Byte.isDelimiter).1.toList with
  | ok _ q => exact .ok (h.past _ hrest q)
  | error f q => exact .error ⟨h.buffer_eq, h.rest_eq, h.pos_eq, rfl⟩

theorem slice_eq (h : p.Stands c) (start stop : Nat) : p.slice start stop = c.slice start stop := by
  by_cases h₁ : start ≤ stop
  · by_cases h₂ : stop ≤ c.pos
    · rw [Cursor.slice_eq h₁ h₂, ← h.buffer_eq, Packed.slice, h.pos_eq, if_neg (Nat.not_lt.2 h₁),
        if_neg (Nat.not_lt.2 h₂), (Blocks.toList_splitAt _ _).2, (Blocks.toList_splitAt _ _).1]
    · rw [Packed.slice, Cursor.slice, h.pos_eq, if_neg (Nat.not_lt.2 h₁), if_neg (Nat.not_lt.2 h₁),
        if_pos (Nat.not_le.1 h₂), if_pos (Nat.not_le.1 h₂)]
  · rw [Packed.slice, Cursor.slice, if_pos (Nat.not_le.1 h₁), if_pos (Nat.not_le.1 h₁)]

end Stands

namespace Session

/-- A session over blocks stands for one over their bytes. -/
structure Stands (s : Session) (t : Cursor.Session) : Prop where
  cursor : s.cursor.Stands t.cursor
  saved : s.saved.Stands t.saved

theorem stands_ofBlocks (bs : Blocks) : (ofBlocks bs).Stands (Cursor.Session.ofList bs.toList) :=
  ⟨Packed.stands_ofBlocks bs, Packed.stands_ofBlocks bs⟩

namespace Stands

variable {s : Session} {t : Cursor.Session} {α : Type}

theorem run (h : s.Stands t) {r : EStateM.Result Fault Packed α}
    {r' : EStateM.Result Fault Cursor α} (hr : Agree r r') (answer : α → Answer) :
    (s.run r answer).1 = (t.run r' answer).1 ∧ (s.run r answer).2.Stands (t.run r' answer).2 := by
  cases hr with
  | ok hc => exact ⟨rfl, hc, h.saved⟩
  | error hc => exact ⟨rfl, hc, h.saved⟩

theorem ask (h : s.Stands t) (r : Except Fault α) (answer : α → Answer) :
    (s.ask r answer).1 = (t.ask r answer).1 ∧ (s.ask r answer).2.Stands (t.ask r answer).2 := by
  cases r with
  | ok a => exact ⟨rfl, h⟩
  | error f => exact ⟨rfl, h⟩

/-- An operation answers the same, and leaves sessions that stand for one another. -/
theorem step (h : s.Stands t) (op : Op) :
    (s.step op).1 = (t.step op).1 ∧ (s.step op).2.Stands (t.step op).2 := by
  cases op with
  | bump => exact h.run h.cursor.bump _
  | current => exact ⟨congrArg _ h.cursor.current_eq, h⟩
  | eatWhile f => exact h.run (h.cursor.eatWhile f) _
  | skipToDelimiter => exact h.run h.cursor.skipToDelimiter _
  | slice start stop =>
    simp only [Session.step, Cursor.Session.step, h.cursor.slice_eq]
    exact h.ask _ _
  | sliceFrom start =>
    simp only [Session.step, Cursor.Session.step, sliceFrom, h.cursor.slice_eq, h.cursor.pos_eq]
    exact h.ask _ _
  | reset => exact ⟨rfl, h.cursor.rewound, h.saved⟩
  | save => exact ⟨rfl, h.cursor, h.cursor⟩
  | restore => exact ⟨rfl, h.saved, h.saved⟩

theorem after (h : s.Stands t) (ops : List Op) : (s.after ops).Stands (t.after ops) := by
  induction ops generalizing s t with
  | nil => exact h
  | cons op ops ih => exact ih (h.step op).2

end Stands

/-- After any operations the next one answers as over the bytes, and comes as far. -/
theorem step_after (bs : Blocks) (ops : List Op) (op : Op) :
    let r := ((ofBlocks bs).after ops).step op
    let r' := ((Cursor.Session.ofList bs.toList).after ops).step op
    r.1 = r'.1 ∧ r.2.cursor.pos = r'.2.cursor.pos ∧ r.2.cursor.position = r'.2.cursor.position ∧
      r.2.cursor.atEnd = r'.2.cursor.atEnd := by
  intro r r'
  obtain ⟨hanswer, hs⟩ := ((stands_ofBlocks bs).after ops).step op
  exact ⟨hanswer, hs.cursor.pos_eq, hs.cursor.position_eq, hs.cursor.atEnd_eq⟩

end Session

end Packed

end Cursor

end FrontEnd
