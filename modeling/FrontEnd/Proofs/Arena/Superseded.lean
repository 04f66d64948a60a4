import FrontEnd.Proofs.Arena.Ledger

/-!
# Superseded handles

A client may keep every handle that a region gave it, and pass any of them again. An archive is a
ledger with these handles. A handle that is not the current one of a live block is superseded: the
block at its offset has another length now.

A region tells its tail by where a handle ends, and not by which block it is a handle of:

* `Packed.step_resize_eq_iff`: a block that does not end where the latest one does is refused, and a
  block that does is not refused for that reason;
* `superseded_refused_iff`: so the superseded handles of a run are all refused if and only if none
  of them ends there at the time. While that is so the live blocks stay tiled, and a superseded
  handle can end there only after its block has shrunk and another block has come after it;
* `superseded_accepted`: then it is accepted, and the other block is lost.
-/

namespace FrontEnd.Arena

namespace Ledger

/-- The operation asks for a new block or for another length. -/
def Op.IsRequest : Op → Prop
  | reset | write _ _ => False
  | allocate _ | copy _ | resize _ _ | alloc _ | resizeBlock _ _ | realloc _ _ => True

instance : DecidablePred Op.IsRequest
  | .reset | .write _ _ => isFalse id
  | .allocate _ | .copy _ | .resize _ _ | .alloc _ | .resizeBlock _ _ | .realloc _ _ => isTrue trivial

theorem Op.IsRequest.plain {op : Op} (h : op.IsRequest) : op.plain.IsRequest := by
  cases op with
  | realloc existing size => cases existing <;> trivial
  | allocate | copy | resize | alloc | resizeBlock => trivial
  | reset | write => exact h.elim

/-- The handle for which a length other than zero is asked. -/
def Op.resized? (op : Op) : Option Block :=
  match op.plain with
  | .resize b size => if size = 0 then none else some b
  | _ => none

theorem Op.resized?_eq_some_iff {op : Op} {b : Block} :
    op.resized? = some b ↔ ∃ size ≠ 0, op.plain = .resize b size := by
  rw [resized?]
  constructor
  · intro h
    split at h
    case h_1 b' size hplain =>
      obtain ⟨hsize, hb⟩ := Option.ite_none_left_eq_some.1 h
      obtain rfl := Option.some.inj hb
      exact ⟨size, hsize, hplain⟩
    case h_2 => cases h
  · rintro ⟨size, hsize, hplain⟩
    rw [hplain]
    exact if_neg hsize

theorem Op.exists_plain_eq_resize {op : Op} (hop : op.IsRequest) {b : Block}
    (hb : op.handle? = some b) : ∃ size, op.plain = .resize b size := by
  cases op with
  | resize b' size | resizeBlock b' size =>
    obtain rfl := Option.some.inj hb
    exact ⟨size, rfl⟩
  | realloc existing size =>
    cases existing with
    | none => cases hb
    | some b' =>
      obtain rfl := Option.some.inj hb
      exact ⟨size, rfl⟩
  | allocate | copy | alloc => cases hb
  | reset | write => exact hop.elim

theorem step_resize_zero (l : Ledger) (b : Block) :
    l.step (.resize b 0) = (.refused .zeroSize, l) := rfl

/-- Another length is refused for the place of the block where, and only where, the handle passed
does not end with the latest block. -/
theorem Packed.step_resize_eq_iff {l : Ledger} (h : l.Packed) {b : Block} (hpos : 0 < b.len.toNat)
    (hfinish : b.finish ≤ l.region.mem.length) {size : UInt64} (hsize : size ≠ 0) :
    l.step (.resize b size) = (.refused (.notTail b.offset), l) ↔ b.finish ≠ top l.live := by
  have hlt := h.valid.base_add_length_lt
  have hresized := Region.resized_eq h.valid (show b.finish < 2 ^ 64 by omega) size
  rw [if_neg hsize, h.cursor_eq] at hresized
  rw [Ledger.step]
  by_cases htop : b.finish = top l.live
  · rw [if_neg (not_not_intro ⟨hpos, htop⟩)] at hresized
    refine iff_of_false (fun hrefused => ?_) (not_not_intro htop)
    by_cases hroom : b.offset.toNat + size.toNat ≤ l.region.mem.length
    · have hgranted : (Block.mk b.offset size).finish < 2 ^ 64 :=
        show b.offset.toNat + size.toNat < 2 ^ 64 by omega
      rw [if_pos hroom] at hresized
      rw [Region.resize_eq_settle b size hresized, Region.settle_ok hgranted] at hrefused
      cases hrefused
    · rw [if_neg hroom] at hresized
      rw [Region.resize_eq_settle b size hresized] at hrefused
      cases hrefused
  · rw [if_pos (fun htail => htop htail.2)] at hresized
    rw [Region.resize_eq_settle b size hresized]
    exact iff_of_true rfl htop

end Ledger

/-- A ledger, and every handle that its region has given. -/
structure Archive where
  ledger : Ledger
  issued : List Block
  deriving DecidableEq, Repr

namespace Archive

/-- The archive before the first request. -/
def fresh (base : UInt64) (mem : List UInt8) : Archive := ⟨.fresh base mem, []⟩

/-- Enters an answer and the ledger that it leaves. -/
def enter (a : Archive) (done : Answer × Ledger) : Archive :=
  ⟨done.2, match done.1 with
    | .block b => b :: a.issued
    | _ => a.issued⟩

/-- One operation. -/
def step (a : Archive) (op : Ledger.Op) : Archive := a.enter (a.ledger.step op)

/-- The archive after a list of operations. -/
def after (a : Archive) (ops : List Ledger.Op) : Archive := ops.foldl step a

/-- The operation is a request that passes a handle given before, current or not. -/
structure Asks (a : Archive) (op : Ledger.Op) : Prop where
  isRequest : op.IsRequest
  fits : op.Fits
  issued : ∀ h ∈ op.handle?, h ∈ a.issued

instance (a : Archive) (op : Ledger.Op) : Decidable (a.Asks op) :=
  decidable_of_iff (op.IsRequest ∧ op.Fits ∧ ∀ h ∈ op.handle?, h ∈ a.issued)
    ⟨fun ⟨isRequest, fits, issued⟩ => ⟨isRequest, fits, issued⟩,
      fun h => ⟨h.isRequest, h.fits, h.issued⟩⟩

/-- A superseded handle is refused another length, and nothing changes. -/
def Refuses (a : Archive) (op : Ledger.Op) : Prop :=
  ∀ h ∈ op.resized?, h ∉ a.ledger.live →
    a.ledger.step op = (.refused (.notTail h.offset), a.ledger)

instance (a : Archive) (op : Ledger.Op) : Decidable (a.Refuses op) :=
  inferInstanceAs (Decidable (∀ h ∈ op.resized?, h ∉ a.ledger.live →
    a.ledger.step op = (.refused (.notTail h.offset), a.ledger)))

/-- A superseded handle does not end where the latest block does. -/
def Apart (a : Archive) (op : Ledger.Op) : Prop :=
  ∀ h ∈ op.resized?, h ∉ a.ledger.live → h.finish ≠ top a.ledger.live

instance (a : Archive) (op : Ledger.Op) : Decidable (a.Apart op) :=
  inferInstanceAs (Decidable (∀ h ∈ op.resized?, h ∉ a.ledger.live → h.finish ≠ top a.ledger.live))

/-! ## Steps -/

/-- The blocks are stacked, and each handle given starts where one of them does. -/
structure Sound (a : Archive) : Prop where
  packed : a.ledger.Packed
  len_pos : ∀ h ∈ a.issued, 0 < h.len.toNat
  finish_le : ∀ h ∈ a.issued, h.finish ≤ a.ledger.region.mem.length
  exists_block : ∀ h ∈ a.issued, ∃ b ∈ a.ledger.live, b.offset = h.offset

namespace Sound

variable {a : Archive}

theorem fresh {base : UInt64} {mem : List UInt8} (h : base.toNat + mem.length < 2 ^ 64) :
    (fresh base mem).Sound where
  packed := .fresh h
  len_pos _ hh := nomatch hh
  finish_le _ hh := nomatch hh
  exists_block _ hh := nomatch hh

/-- A handle is entered with the blocks of a step. -/
theorem enter_block (ha : a.Sound) {b : Block} {l : Ledger} (hl : l.Packed)
    (hmem : l.region.mem.length = a.ledger.region.mem.length) (hb : b ∈ l.live)
    (hlive : ∀ c ∈ a.ledger.live, ∃ c' ∈ l.live, c'.offset = c.offset) :
    (a.enter (.block b, l)).Sound where
  packed := hl
  len_pos := List.forall_mem_cons.2 ⟨(hl.stacked.aligned b hb).1, ha.len_pos⟩
  finish_le := by
    refine List.forall_mem_cons.2 ⟨?_, fun h hh => ?_⟩
    · exact Nat.le_trans (hl.finish_le_cursor hb) hl.valid.cursor_le
    · show h.finish ≤ l.region.mem.length
      rw [hmem]
      exact ha.finish_le h hh
  exists_block := by
    refine List.forall_mem_cons.2 ⟨⟨b, hb, rfl⟩, fun h hh => ?_⟩
    obtain ⟨c, hc, hoffset⟩ := ha.exists_block h hh
    obtain ⟨c', hc', hoffset'⟩ := hlive c hc
    exact ⟨c', hc', hoffset'.trans hoffset⟩

theorem enter_effect (ha : a.Sound) {op : Ledger.Op} (hop : op.IsRequest) {answer : Answer}
    {l : Ledger} (heffect : a.ledger.Effect op answer l) : (a.enter (answer, l)).Sound := by
  have hpacked := (ha.packed.keeps_of_effect heffect).packed
  have hkept (b : Block) : ∀ c ∈ a.ledger.live, ∃ c' ∈ b :: a.ledger.live, c'.offset = c.offset :=
    fun c hc => ⟨c, List.mem_cons_of_mem b hc, rfl⟩
  cases heffect with
  | refused => exact ha
  | @allocated size b hb => exact ha.enter_block hpacked rfl (List.mem_cons_self ..) (hkept b)
  | @copied bytes b hlen hb =>
    have hle := hb.finish_le
    rw [Block.finish, ← hlen] at hle
    exact ha.enter_block hpacked (Region.length_store hle) (List.mem_cons_self ..) (hkept b)
  | @resized b bs size hlive hsize hroom =>
    refine ha.enter_block hpacked rfl (List.mem_cons_self ..) fun c hc => ?_
    rw [hlive] at hc
    rcases List.mem_cons.1 hc with rfl | hmem
    · exact ⟨_, List.mem_cons_self .., rfl⟩
    · exact ⟨c, List.mem_cons_of_mem _ hmem, rfl⟩
  | reset | written => exact hop.elim

theorem refuses_iff_apart (ha : a.Sound) {op : Ledger.Op} (hop : a.Asks op) :
    a.Refuses op ↔ a.Apart op := by
  refine forall₃_congr fun h hh hlive => ?_
  obtain ⟨size, hsize, hplain⟩ := Ledger.Op.resized?_eq_some_iff.1 hh
  have hissued : h ∈ a.issued := by
    refine hop.issued h ?_
    rw [← Ledger.Op.handle?_plain, hplain]
    rfl
  rw [← Ledger.step_plain, hplain]
  exact ha.packed.step_resize_eq_iff (ha.len_pos h hissued) (ha.finish_le h hissued) hsize

theorem step (ha : a.Sound) {op : Ledger.Op} (hop : a.Asks op) (hapart : a.Apart op) :
    (a.step op).Sound := by
  by_cases hcurrent : ∀ b ∈ op.handle?, b ∈ a.ledger.live
  · exact ha.enter_effect hop.isRequest.plain (ha.packed.effect ⟨hcurrent, hop.fits⟩)
  -- A superseded handle leaves all as it was, also where the length asked for is zero.
  simp only [not_forall] at hcurrent
  obtain ⟨b, hb, hlive⟩ := hcurrent
  obtain ⟨size, hplain⟩ := Ledger.Op.exists_plain_eq_resize hop.isRequest hb
  have hstep : ∃ e, a.ledger.step op = (.refused e, a.ledger) := by
    by_cases hsize : size = 0
    · rw [← Ledger.step_plain, hplain, hsize]
      exact ⟨_, a.ledger.step_resize_zero b⟩
    · have hresized := Ledger.Op.resized?_eq_some_iff.2 ⟨size, hsize, hplain⟩
      exact ⟨_, (ha.refuses_iff_apart hop).2 hapart b hresized hlive⟩
  obtain ⟨e, he⟩ := hstep
  rw [Archive.step, he]
  exact ha

end Sound

/-! ## Runs -/

/-- The run goes wrong with the first superseded handle that ends where the latest block does. -/
theorem throughout_refuses_iff {a : Archive} (ha : a.Sound) {ops : List Ledger.Op}
    (hops : Throughout step Asks a ops) :
    Throughout step Refuses a ops ↔ Throughout step Apart a ops := by
  induction ops generalizing a with
  | nil => exact Iff.rfl
  | cons op ops ih =>
    obtain ⟨hop, hops⟩ := hops
    rw [Throughout, Throughout, ha.refuses_iff_apart hop]
    exact and_congr_right fun hapart => ih (ha.step hop hapart) hops

/-- The block where a superseded handle starts. It has another length, and the handle can end where
the latest block does only after the block has shrunk and another has come after it. -/
def Superseded (live : List Block) (h : Block) : Prop :=
  ∃ b ∈ live, b.offset = h.offset ∧ b.len ≠ h.len ∧
    (h.finish = top live → b.len < h.len ∧ live.head? ≠ some b)

theorem Sound.superseded {a : Archive} (ha : a.Sound) {h : Block} (hissued : h ∈ a.issued)
    (hlive : h ∉ a.ledger.live) : Superseded a.ledger.live h := by
  obtain ⟨b, hb, hoffset⟩ := ha.exists_block h hissued
  have hne : b.len ≠ h.len := fun hlen => by
    have heq : b = h := congrArg₂ Block.mk hoffset hlen
    exact hlive (heq ▸ hb)
  refine ⟨b, hb, hoffset, hne, fun htop => ?_⟩
  rw [Block.finish, ← hoffset] at htop
  rcases ha.packed.stacked.finish_eq_top_or_lt hb with hhead | hlt
  · -- The latest block would have the length of the handle.
    have hfinish := (ha.packed.stacked.head?_eq_some_iff_finish hb).1 hhead
    rw [Block.finish] at hfinish
    exact absurd (UInt64.toNat_inj.1 (by omega)) hne
  · rw [Block.finish] at hlt
    refine ⟨UInt64.lt_iff_toNat_lt.2 (by omega), fun hhead => ?_⟩
    have hfinish := (ha.packed.stacked.head?_eq_some_iff_finish hb).1 hhead
    rw [Block.finish] at hfinish
    omega

/-- In every run of requests that pass handles given before, over memory below the end of the
address space, the superseded handles are all refused for their place, and change nothing, if and
only if none ends where the latest block does when it is passed. While none does, the live blocks
stay tiled, and a superseded handle can end there only after its block has shrunk. -/
theorem superseded_refused_iff (base : UInt64) (mem : List UInt8) (ops : List Ledger.Op)
    (hmem : base.toNat + mem.length < 2 ^ 64) (hops : Throughout step Asks (fresh base mem) ops) :
    (Throughout step Refuses (fresh base mem) ops ↔ Throughout step Apart (fresh base mem) ops) ∧
      (Throughout step Apart (fresh base mem) ops →
        ((fresh base mem).after ops).ledger.Tiled ∧
          ∀ h ∈ ((fresh base mem).after ops).issued, h ∉ ((fresh base mem).after ops).ledger.live →
            Superseded ((fresh base mem).after ops).ledger.live h) := by
  have hfresh : (fresh base mem).Sound := .fresh hmem
  refine ⟨throughout_refuses_iff hfresh hops, fun hapart => ?_⟩
  have hafter : ((fresh base mem).after ops).Sound :=
    (hops.and hapart).foldl (fun _ _ ha hop => ha.step hop.1 hop.2) hfresh
  exact ⟨hafter.packed.tiled, fun h hissued hlive => hafter.superseded hissued hlive⟩

/-- Handles of a block that has grown since, and of one that has shrunk, are refused. -/
theorem superseded_refused_mixed :
    let mem : List UInt8 := .replicate 48 0
    let ops : List Ledger.Op := [.allocate 8, .resize ⟨0, 8⟩ 16, .resize ⟨0, 8⟩ 32,
      .copy [1, 2, 3], .resizeBlock ⟨16, 3⟩ 1, .realloc (some ⟨16, 3⟩) 2, .alloc 8,
      .realloc (some ⟨0, 8⟩) 4]
    let a := (fresh 0 mem).after ops
    Throughout step Asks (fresh 0 mem) ops ∧ Throughout step Refuses (fresh 0 mem) ops ∧
      a.ledger.Tiled ∧ a.ledger.live = [⟨24, 8⟩, ⟨16, 1⟩, ⟨0, 16⟩] ∧
      Superseded a.ledger.live ⟨16, 3⟩ := by
  intro mem ops a
  have hops : Throughout step Asks (fresh 0 mem) ops := by decide +kernel
  have hapart : Throughout step Apart (fresh 0 mem) ops := by decide +kernel
  obtain ⟨hiff, hsound⟩ := superseded_refused_iff 0 mem ops (by decide) hops
  obtain ⟨htiled, hsuperseded⟩ := hsound hapart
  exact ⟨hops, hiff.2 hapart, htiled, by decide +kernel,
    hsuperseded ⟨16, 3⟩ (by decide +kernel) (by decide +kernel)⟩

/-- A block shrinks, and another fills the rest of its place: the handle from before ends with the
other block, is accepted for it, and puts it beyond the bytes in use. -/
theorem superseded_accepted :
    let mem : List UInt8 := .replicate 16 0
    let ops : List Ledger.Op := [.allocate 16, .resize ⟨0, 16⟩ 8, .allocate 8]
    let a := (fresh 0 mem).after ops
    let done := a.ledger.step (.resize ⟨0, 16⟩ 4)
    Throughout step Asks (fresh 0 mem) (ops ++ [.resize ⟨0, 16⟩ 4]) ∧
      ¬ Throughout step Refuses (fresh 0 mem) (ops ++ [.resize ⟨0, 16⟩ 4]) ∧
      a.ledger.live = [⟨8, 8⟩, ⟨0, 8⟩] ∧ done.1 = .block ⟨0, 4⟩ ∧ done.2.region.used = 4 ∧
      done.2.region.get? ⟨8, 8⟩ = .ok none := by
  intro mem ops a done
  exact ⟨by decide +kernel, by decide +kernel, by decide +kernel, by decide +kernel,
    by decide +kernel, by decide +kernel⟩

end Archive

end FrontEnd.Arena
