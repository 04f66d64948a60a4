import Mathlib.Data.List.Chain
import FrontEnd.Arena.Workspace
import FrontEnd.Proofs.Arena.Request

/-!
# The live blocks of a region

A ledger is a region and the blocks it has issued since the last reset, latest first, each as the
handle that its client holds now. A client that passes current handles alone (`Ledger.Permits`) may
request, resize, store and reset in any order:

* `Packed.effect`: each step is refused, or does one of five things (`Effect`);
* `Packed.step`: no such step faults, and each keeps the blocks stacked one upon the other
  (`Stacked`) with the cursor at the end of the latest;
* `tiled_after`: so the live blocks of every run are disjoint, aligned, less than 8 bytes apart and
  readable, and the tail is the latest of them.
-/

namespace FrontEnd.Arena

/-- The end of the latest block. -/
def top : List Block → Nat
  | [] => 0
  | b :: _ => b.finish

/-- Blocks, latest first, of which each has some bytes and starts at the first aligned offset from
the end of the one before it. -/
def Stacked (base : Nat) : List Block → Prop
  | [] => True
  | b :: bs =>
    0 < b.len.toNat ∧ IsLeast {o | top bs ≤ o ∧ 8 ∣ base + o} b.offset.toNat ∧ Stacked base bs

/-- A region, and the blocks it has issued since the last reset, latest first. -/
structure Ledger where
  region : Region
  live : List Block
  deriving DecidableEq, Repr

namespace Ledger

/-- What a client asks of a region, with the handle that it passes. -/
inductive Op where
  | allocate (size : UInt64)
  | copy (bytes : List UInt8)
  | resize (b : Block) (size : UInt64)
  | alloc (size : UInt64)
  | resizeBlock (b : Block) (size : UInt64)
  | realloc (existing : Option Block) (size : UInt64)
  | reset
  | write (b : Block) (bytes : List UInt8)
  deriving DecidableEq, Repr

/-- The handle passed. -/
def Op.handle? : Op → Option Block
  | resize b _ | resizeBlock b _ | write b _ => some b
  | realloc existing _ => existing
  | allocate _ | copy _ | alloc _ | reset => none

/-- The bytes to copy fit the address space. -/
def Op.Fits : Op → Prop
  | copy bytes => bytes.length < 2 ^ 64
  | _ => True

instance : DecidablePred Op.Fits
  | .copy bytes => inferInstanceAs (Decidable (bytes.length < 2 ^ 64))
  | .allocate _ | .resize _ _ | .alloc _ | .resizeBlock _ _ | .realloc _ _ | .reset | .write _ _ =>
    isTrue trivial

/-- The region before its first request. -/
def fresh (base : UInt64) (mem : List UInt8) : Ledger := ⟨⟨base, mem, 0⟩, []⟩

/-- Enters the answer to a request: a new block, or the new handle of `existing`. -/
def grant (l : Ledger) (existing : Option Block)
    (result : EStateM.Result Fault Region (Except AllocError Block)) : Answer × Ledger :=
  match result with
  | .ok (.ok b) r =>
    (.block b, ⟨r, match existing with
      | none => b :: l.live
      | some old => l.live.replace old b⟩)
  | .ok (.error e) r => (.refused e, ⟨r, l.live⟩)
  | .error f r => (.fault f, ⟨r, l.live⟩)

/-- Enters a store. -/
def stored (l : Ledger) (result : EStateM.Result Fault Region (Option Nat)) : Answer × Ledger :=
  match result with
  | .ok count r => (.written count, ⟨r, l.live⟩)
  | .error f r => (.fault f, ⟨r, l.live⟩)

/-- One operation. -/
def step (l : Ledger) : Op → Answer × Ledger
  | .allocate size => l.grant none (Region.allocate size l.region)
  | .copy bytes => l.grant none (Region.allocateCopy bytes l.region)
  | .resize b size => l.grant (some b) (Region.resize b size l.region)
  | .alloc size => l.grant none (Allocator.alloc size l.region)
  | .resizeBlock b size => l.grant (some b) (Allocator.resizeBlock b size l.region)
  | .realloc existing size => l.grant existing (Allocator.realloc existing size l.region)
  | .reset => (.done, ⟨l.region.reset, []⟩)
  | .write b bytes => l.stored (Region.write b bytes l.region)

/-- The ledger after a list of operations. -/
def after (l : Ledger) (ops : List Op) : Ledger := ops.foldl (fun l op => (l.step op).2) l

/-- The handle passed is the current one of a live block. -/
structure Permits (l : Ledger) (op : Op) : Prop where
  current : ∀ b ∈ op.handle?, b ∈ l.live
  fits : op.Fits

instance (l : Ledger) (op : Op) : Decidable (l.Permits op) :=
  decidable_of_iff ((∀ b ∈ op.handle?, b ∈ l.live) ∧ op.Fits)
    ⟨fun ⟨current, fits⟩ => ⟨current, fits⟩, fun h => ⟨h.current, h.fits⟩⟩

/-- Every operation passes current handles, in the state in which it is run. -/
def Allowed : Ledger → List Op → Prop
  | _, [] => True
  | l, op :: ops => l.Permits op ∧ Allowed (l.step op).2 ops

instance decidableAllowed : ∀ l ops, Decidable (Allowed l ops)
  | _, [] => isTrue trivial
  | l, op :: ops =>
    have := decidableAllowed (l.step op).2 ops
    inferInstanceAs (Decidable (l.Permits op ∧ Allowed (l.step op).2 ops))

end Ledger

/-! ## Runs of operations -/

section Throughout

variable {σ ω : Type} {step : σ → ω → σ} {holds holds' : σ → ω → Prop}

/-- Something holds of each operation of a run, in the state in which it is run. -/
def Throughout (step : σ → ω → σ) (holds : σ → ω → Prop) : σ → List ω → Prop
  | _, [] => True
  | s, op :: ops => holds s op ∧ Throughout step holds (step s op) ops

instance decidableThroughout [∀ s op, Decidable (holds s op)] :
    ∀ s ops, Decidable (Throughout step holds s ops)
  | _, [] => isTrue trivial
  | s, op :: ops =>
    have := decidableThroughout (step s op) ops
    inferInstanceAs (Decidable (holds s op ∧ Throughout step holds (step s op) ops))

theorem Throughout.and {s : σ} {ops : List ω} (h : Throughout step holds s ops)
    (h' : Throughout step holds' s ops) :
    Throughout step (fun s op => holds s op ∧ holds' s op) s ops := by
  induction ops generalizing s with
  | nil => trivial
  | cons op ops ih => exact ⟨⟨h.1, h'.1⟩, ih h.2 h'.2⟩

/-- What each operation of a run keeps is kept by the run. -/
theorem Throughout.foldl {kept : σ → Prop}
    (hstep : ∀ s op, kept s → holds s op → kept (step s op)) {s : σ} {ops : List ω}
    (h : Throughout step holds s ops) (hs : kept s) : kept (ops.foldl step s) := by
  induction ops generalizing s with
  | nil => exact hs
  | cons op ops ih => exact ih h.2 (hstep s op hs h.1)

end Throughout

/-! ## Stacks of blocks -/

section Stacked

variable {base : Nat} {bs : List Block}

theorem Stacked.top_le_offset {b : Block} (h : Stacked base (b :: bs)) : top bs ≤ b.offset.toNat :=
  h.2.1.1.1

theorem offset_le_top (b : Block) (bs : List Block) : b.offset.toNat ≤ top (b :: bs) :=
  Nat.le_add_right _ _

theorem Stacked.finish_eq_top_or_lt (h : Stacked base bs) {b : Block} (hb : b ∈ bs) :
    bs.head? = some b ∨ b.finish < top bs := by
  induction bs with
  | nil => cases hb
  | cons a as ih =>
    rcases List.mem_cons.1 hb with rfl | hmem
    · exact .inl rfl
    right
    have hoffset := h.top_le_offset
    obtain ⟨hpos, -, has⟩ := h
    have hle : b.finish ≤ top as := by
      rcases ih has hmem with hhead | hlt
      · obtain ⟨as', rfl⟩ := List.head?_eq_some_iff.1 hhead
        exact Nat.le_refl _
      · exact Nat.le_of_lt hlt
    show b.finish < a.offset.toNat + a.len.toNat
    omega

/-- A block that ends where the stack does is the latest. -/
theorem Stacked.head?_eq_some_iff_finish (h : Stacked base bs) {b : Block} (hb : b ∈ bs) :
    bs.head? = some b ↔ b.finish = top bs := by
  constructor
  · intro hhead
    obtain ⟨as, rfl⟩ := List.head?_eq_some_iff.1 hhead
    rfl
  · intro hfinish
    rcases h.finish_eq_top_or_lt hb with hhead | hlt
    · exact hhead
    · omega

theorem Stacked.finish_le_top (h : Stacked base bs) {b : Block} (hb : b ∈ bs) : b.finish ≤ top bs := by
  rcases h.finish_eq_top_or_lt hb with hhead | hlt
  · exact Nat.le_of_eq ((h.head?_eq_some_iff_finish hb).1 hhead)
  · omega

theorem Stacked.aligned (h : Stacked base bs) :
    ∀ b ∈ bs, 0 < b.len.toNat ∧ 8 ∣ base + b.offset.toNat := by
  induction bs with
  | nil => simp
  | cons a as ih =>
    obtain ⟨hpos, hleast, has⟩ := h
    exact List.forall_mem_cons.2 ⟨⟨hpos, hleast.1.2⟩, ih has⟩

theorem Stacked.disjoint (h : Stacked base bs) :
    bs.Pairwise fun later earlier => earlier.finish ≤ later.offset.toNat := by
  induction bs with
  | nil => exact .nil
  | cons a as ih =>
    have has : Stacked base as := h.2.2
    refine .cons (fun b hb => ?_) (ih has)
    exact Nat.le_trans (has.finish_le_top hb) h.top_le_offset

/-- The gap below a block has less than 8 bytes. -/
theorem Stacked.gap_lt (h : Stacked base bs) :
    ∀ b below, b :: below <:+ bs → b.offset.toNat < top below + 8 := by
  induction bs with
  | nil => simp
  | cons a as ih =>
    obtain ⟨-, hleast, has⟩ := h
    intro b below hsuffix
    rcases List.suffix_cons_iff.1 hsuffix with heq | hsuffix
    · obtain ⟨rfl, rfl⟩ := List.cons.inj heq
      rw [hleast.unique (isLeast_firstAligned base (top below))]
      exact firstAligned_lt _ _
    · exact ih has b below hsuffix

end Stacked

namespace Ledger

/-! ## Steps -/

/-- The blocks are stacked in a valid region, up to its cursor. -/
structure Packed (l : Ledger) : Prop where
  valid : l.region.Valid
  stacked : Stacked l.region.base.toNat l.live
  cursor_eq : l.region.cursor.toNat = top l.live

namespace Packed

variable {l : Ledger}

theorem fresh {base : UInt64} {mem : List UInt8} (h : base.toNat + mem.length < 2 ^ 64) :
    (fresh base mem).Packed where
  valid := ⟨h, Nat.zero_le _⟩
  stacked := trivial
  cursor_eq := rfl

theorem finish_le_cursor (h : l.Packed) {b : Block} (hb : b ∈ l.live) :
    b.finish ≤ l.region.cursor.toNat := by
  rw [h.cursor_eq]
  exact h.stacked.finish_le_top hb

theorem finish_lt (h : l.Packed) {b : Block} (hb : b ∈ l.live) : b.finish < 2 ^ 64 := by
  have hle := h.finish_le_cursor hb
  have hcur := l.region.cursor.toNat_lt
  omega

/-- A new block goes on top. -/
theorem issue (h : l.Packed) {size : UInt64} {b : Block} (hb : l.region.Grants size b)
    {mem : List UInt8} (hmem : mem.length = l.region.mem.length) :
    Packed ⟨⟨l.region.base, mem, .ofNat b.finish⟩, b :: l.live⟩ := by
  have hlt := h.valid.base_add_length_lt
  have hle := hb.finish_le
  have hcur : (UInt64.ofNat b.finish).toNat = b.finish := Region.toNat_ofNat64 (by omega)
  refine ⟨⟨?_, ?_⟩, ⟨hb.len_pos, ?_, h.stacked⟩, hcur⟩
  · rw [hmem]
    exact hlt
  · rw [hcur, hmem]
    exact hle
  · rw [← h.cursor_eq]
    exact hb.isLeast

/-- The latest block keeps its offset and its place. -/
theorem relength (h : l.Packed) {b : Block} {bs : List Block} (hlive : l.live = b :: bs)
    {size : UInt64} (hsize : 0 < size.toNat)
    (hroom : b.offset.toNat + size.toNat ≤ l.region.mem.length) :
    Packed ⟨{ l.region with cursor := .ofNat (b.offset.toNat + size.toNat) },
      ⟨b.offset, size⟩ :: bs⟩ := by
  have hlt := h.valid.base_add_length_lt
  have hstacked := h.stacked
  rw [hlive] at hstacked
  obtain ⟨-, hleast, hbs⟩ := hstacked
  have hcur : (UInt64.ofNat (b.offset.toNat + size.toNat)).toNat = b.offset.toNat + size.toNat :=
    Region.toNat_ofNat64 (by omega)
  exact ⟨⟨hlt, by rw [hcur]; exact hroom⟩, ⟨hsize, hleast, hbs⟩, hcur⟩

/-- A store keeps the number of bytes. -/
theorem store_packed (h : l.Packed) {mem : List UInt8} (hmem : mem.length = l.region.mem.length) :
    Packed ⟨{ l.region with mem }, l.live⟩ := by
  refine ⟨⟨?_, ?_⟩, h.stacked, h.cursor_eq⟩
  · show l.region.base.toNat + mem.length < 2 ^ 64
    rw [hmem]
    exact h.valid.base_add_length_lt
  · show l.region.cursor.toNat ≤ mem.length
    rw [hmem]
    exact h.valid.cursor_le

end Packed

/-- The operation without the allocator's interface: a new block, or another length for one. -/
def Op.plain : Op → Op
  | .alloc size | .realloc none size => .allocate size
  | .resizeBlock b size | .realloc (some b) size => .resize b size
  | op => op

theorem step_plain (l : Ledger) (op : Op) : l.step op.plain = l.step op := by
  cases op with
  | realloc existing size => cases existing <;> rfl
  | allocate | copy | resize | alloc | resizeBlock | reset | write => rfl

theorem Op.handle?_plain (op : Op) : op.plain.handle? = op.handle? := by
  cases op with
  | realloc existing size => cases existing <;> rfl
  | allocate | copy | resize | alloc | resizeBlock | reset | write => rfl

/-- What a plain operation answers and leaves. -/
inductive Effect (l : Ledger) : Op → Answer → Ledger → Prop
  | refused (op : Op) (e : AllocError) : l.Effect op (.refused e) l
  | allocated {size : UInt64} {b : Block} (grants : l.region.Grants size b) :
    l.Effect (.allocate size) (.block b)
      ⟨{ l.region with cursor := .ofNat b.finish }, b :: l.live⟩
  | copied {bytes : List UInt8} {b : Block} (len_eq : bytes.length = b.len.toNat)
      (grants : l.region.Grants (.ofNat bytes.length) b) :
    l.Effect (.copy bytes) (.block b)
      ⟨⟨l.region.base, Region.store l.region.mem b.offset.toNat bytes, .ofNat b.finish⟩,
        b :: l.live⟩
  | resized {b : Block} {bs : List Block} {size : UInt64} (live_eq : l.live = b :: bs)
      (size_pos : 0 < size.toNat) (room : b.offset.toNat + size.toNat ≤ l.region.mem.length) :
    l.Effect (.resize b size) (.block ⟨b.offset, size⟩)
      ⟨{ l.region with cursor := .ofNat (b.offset.toNat + size.toNat) }, ⟨b.offset, size⟩ :: bs⟩
  | reset : l.Effect .reset .done ⟨l.region.reset, []⟩
  | written {b : Block} {bytes : List UInt8} (mem_live : b ∈ l.live) :
    l.Effect (.write b bytes) (.written (some (bytes.take b.len.toNat).length))
      ⟨{ l.region with
          mem := Region.store l.region.mem b.offset.toNat (bytes.take b.len.toNat) }, l.live⟩

namespace Packed

variable {l : Ledger}

theorem effect_allocate (h : l.Packed) (size : UInt64) :
    l.Effect (.allocate size) (l.step (.allocate size)).1 (l.step (.allocate size)).2 := by
  rw [Ledger.step]
  rcases Region.allocate_cases h.valid size with ⟨e, he⟩ | ⟨b, hb, ha⟩
  · rw [he]
    exact .refused _ e
  · rw [ha]
    exact .allocated hb

theorem effect_copy (h : l.Packed) {bytes : List UInt8} (hbytes : bytes.length < 2 ^ 64) :
    l.Effect (.copy bytes) (l.step (.copy bytes)).1 (l.step (.copy bytes)).2 := by
  rw [Ledger.step]
  rcases Region.allocateCopy_cases h.valid hbytes with ⟨e, he⟩ | ⟨b, hb, ha⟩
  · rw [he]
    exact .refused _ e
  · have hlen : bytes.length = b.len.toNat := by rw [hb.len_eq, Region.toNat_ofNat64 hbytes]
    rw [ha]
    exact .copied hlen hb

theorem effect_resize (h : l.Packed) {b : Block} (hb : b ∈ l.live) (size : UInt64) :
    l.Effect (.resize b size) (l.step (.resize b size)).1 (l.step (.resize b size)).2 := by
  rw [Ledger.step]
  rcases Region.resize_cases h.valid (h.finish_lt hb) size with
    ⟨e, he⟩ | ⟨-, htail, hsize, hroom, hr⟩
  · rw [he]
    exact .refused _ e
  · -- Only the latest block ends at the cursor, so what is stacked below it stays as it is.
    rw [h.cursor_eq] at htail
    obtain ⟨bs, hlive⟩ := List.head?_eq_some_iff.1 ((h.stacked.head?_eq_some_iff_finish hb).2 htail)
    have heffect := Effect.resized hlive hsize hroom
    rw [← List.replace_cons_self (a := b), ← hlive] at heffect
    rw [hr]
    exact heffect

theorem effect_write (h : l.Packed) {b : Block} (hb : b ∈ l.live) (bytes : List UInt8) :
    l.Effect (.write b bytes) (l.step (.write b bytes)).1 (l.step (.write b bytes)).2 := by
  rw [Ledger.step, Region.write_eq h.valid (h.finish_le_cursor hb)]
  exact .written hb

theorem effect (h : l.Packed) {op : Op} (hop : l.Permits op) :
    l.Effect op.plain (l.step op).1 (l.step op).2 := by
  cases op with
  | allocate size => exact h.effect_allocate size
  | copy bytes => exact h.effect_copy hop.fits
  | resize b size => exact h.effect_resize (hop.current b rfl) size
  | alloc size => exact h.effect_allocate size
  | resizeBlock b size => exact h.effect_resize (hop.current b rfl) size
  | realloc existing size =>
    cases existing with
    | none => exact h.effect_allocate size
    | some b => exact h.effect_resize (hop.current b rfl) size
  | reset => exact .reset
  | write b bytes => exact h.effect_write (hop.current b rfl) bytes

/-- The answer is not a fault, and the blocks left are stacked. -/
structure Keeps (entered : Answer × Ledger) : Prop where
  ne_fault : ∀ f, entered.1 ≠ .fault f
  packed : entered.2.Packed

theorem keeps_of_effect (h : l.Packed) {op : Op} {answer : Answer} {l' : Ledger}
    (heffect : l.Effect op answer l') : Keeps (answer, l') := by
  refine ⟨fun f hf => ?_, ?_⟩
  · cases hf
    cases heffect
  cases heffect with
  | refused => exact h
  | allocated hb => exact h.issue hb rfl
  | copied hlen hb =>
    have hle := hb.finish_le
    rw [Block.finish, ← hlen] at hle
    exact h.issue hb (Region.length_store hle)
  | resized hlive hsize hroom => exact h.relength hlive hsize hroom
  | reset => exact ⟨⟨h.valid.base_add_length_lt, Nat.zero_le _⟩, trivial, rfl⟩
  | @written b bytes hb =>
    have hcur := h.finish_le_cursor hb
    have hle := h.valid.cursor_le
    have hstored : (bytes.take b.len.toNat).length ≤ b.len.toNat := List.length_take_le _ _
    rw [Block.finish] at hcur
    exact h.store_packed (Region.length_store (by omega))

/-- No permitted operation faults, and each keeps the blocks stacked. -/
theorem step (h : l.Packed) {op : Op} (hop : l.Permits op) : Keeps (l.step op) :=
  h.keeps_of_effect (h.effect hop)

theorem after (h : l.Packed) {ops : List Op} (hops : Allowed l ops) : (l.after ops).Packed := by
  induction ops generalizing l with
  | nil => exact h
  | cons op ops ih =>
    obtain ⟨hop, hops⟩ := hops
    exact ih (h.step hop).packed hops

end Packed

/-! ## Runs -/

/-- The live blocks and the region agree. -/
structure Tiled (l : Ledger) : Prop where
  stacked : Stacked l.region.base.toNat l.live
  aligned : ∀ b ∈ l.live, 0 < b.len.toNat ∧ 8 ∣ l.region.base.toNat + b.offset.toNat
  disjoint : l.live.Pairwise fun later earlier => earlier.finish ≤ later.offset.toNat
  gap_lt : ∀ b below, b :: below <:+ l.live → b.offset.toNat < top below + 8
  used_eq : l.region.used.toNat = top l.live
  used_le : l.region.used.toNat ≤ l.region.mem.length
  get_eq : ∀ b ∈ l.live,
    ∃ bytes, l.region.get? b = .ok (some bytes) ∧ bytes.length = b.len.toNat
  isTail_eq : ∀ b ∈ l.live, l.region.isTail b = .ok (decide (l.live.head? = some b))

theorem Packed.tiled {l : Ledger} (h : l.Packed) : l.Tiled where
  stacked := h.stacked
  aligned := h.stacked.aligned
  disjoint := h.stacked.disjoint
  gap_lt := h.stacked.gap_lt
  used_eq := h.cursor_eq
  used_le := h.valid.cursor_le
  get_eq b hb := by
    have hcur := h.finish_le_cursor hb
    have hle := h.valid.cursor_le
    refine ⟨(l.region.mem.drop b.offset.toNat).take b.len.toNat, ?_, ?_⟩
    · rw [Region.get?_eq h.valid (h.finish_lt hb), if_pos hcur]
    · rw [Block.finish] at hcur
      rw [List.length_take, List.length_drop]
      omega
  isTail_eq b hb := by
    have hpos := (h.stacked.aligned b hb).1
    have htail : (0 < b.len.toNat ∧ b.finish = l.region.cursor.toNat) ↔ l.live.head? = some b := by
      rw [h.stacked.head?_eq_some_iff_finish hb, h.cursor_eq]
      exact ⟨And.right, fun hfinish => ⟨hpos, hfinish⟩⟩
    rw [Region.isTail_eq (h.finish_lt hb), decide_eq_decide.2 htail]

/-- After every run that passes current handles alone, over memory below the end of the address
space, the live blocks tile the bytes in use, and no further operation of the kind faults. -/
theorem tiled_after (base : UInt64) (mem : List UInt8) (ops : List Op)
    (hmem : base.toNat + mem.length < 2 ^ 64) (hops : Allowed (fresh base mem) ops) :
    ((fresh base mem).after ops).Tiled ∧
      ∀ op, ((fresh base mem).after ops).Permits op →
        ∀ f, (((fresh base mem).after ops).step op).1 ≠ .fault f := by
  have hpacked : ((Ledger.fresh base mem).after ops).Packed := (Packed.fresh hmem).after hops
  exact ⟨hpacked.tiled, fun op hop => (hpacked.step hop).ne_fault⟩

/-- Four blocks from an address that is not a multiple of 8, with a shrunk tail, a store and two
refusals between them. -/
theorem tiled_after_mixed :
    let ops : List Op := [.allocate 5, .copy [1, 2, 3], .resize ⟨5, 5⟩ 9, .resizeBlock ⟨13, 3⟩ 1,
      .write ⟨13, 1⟩ [9, 9], .alloc 4, .realloc (some ⟨21, 4⟩) 100, .realloc none 2]
    let l := (fresh 3 (.replicate 32 0)).after ops
    Allowed (fresh 3 (.replicate 32 0)) ops ∧ l.live = [⟨29, 2⟩, ⟨21, 4⟩, ⟨13, 1⟩, ⟨5, 5⟩] ∧
      l.Tiled ∧ l.Permits .reset ∧ ∀ f, (l.step .reset).1 ≠ .fault f := by
  intro ops l
  have hops : Allowed (Ledger.fresh 3 (.replicate 32 0)) ops := by decide +kernel
  have hreset : l.Permits .reset := ⟨nofun, trivial⟩
  obtain ⟨htiled, hsteps⟩ := tiled_after 3 (.replicate 32 0) ops (by decide) hops
  exact ⟨hops, by decide +kernel, htiled, hreset, hsteps .reset hreset⟩

end Ledger

end FrontEnd.Arena
