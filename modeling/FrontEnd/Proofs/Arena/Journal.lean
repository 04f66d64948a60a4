import Mathlib.Data.List.Forall2
import FrontEnd.Proofs.Arena.Ledger

/-!
# The bytes of the live blocks

A journal is a ledger with what its client has stored: into each live block since it was issued, by
the copy that issued it and by stores within it, and into the region since its beginning. For a
client that passes current handles alone:

* `Kept.step`: in the memory, the bytes from the start of each block up to the block above it stay as
  they were stored into the block last (`Held`). No other block is placed there, not even where the
  block was longer before, so a tail that shrinks and grows again shows its bytes again;
* `contents_after`: so `get?` gives the bytes stored into a block last, and what no store covers is
  as it was at the beginning.
-/

namespace FrontEnd.Arena

/-! ## Stores -/

/-- Bytes that were stored from an offset of a region on. -/
structure Store where
  start : Nat
  bytes : List UInt8
  deriving DecidableEq, Repr

/-- The byte that a store put at an offset. -/
def Store.at? (s : Store) (offset : Nat) : Option UInt8 :=
  if s.start ≤ offset then s.bytes[offset - s.start]? else none

/-- The byte that was put at an offset last, by stores of which the first is the latest. -/
def lastAt? (stores : List Store) (offset : Nat) : Option UInt8 :=
  stores.findSome? (·.at? offset)

theorem Store.at?_eq_none_of_lt {s : Store} {o : Nat} (h : o < s.start) : s.at? o = none :=
  if_neg (Nat.not_le.2 h)

theorem Store.at?_eq_none_of_le {s : Store} {o : Nat} (h : s.start + s.bytes.length ≤ o) :
    s.at? o = none := by
  rw [at?, if_pos (by omega)]
  exact List.getElem?_eq_none (by omega)

theorem lastAt?_cons (s : Store) (stores : List Store) (o : Nat) :
    lastAt? (s :: stores) o = (s.at? o).or (lastAt? stores o) := by
  rw [lastAt?, List.findSome?_cons]
  cases s.at? o <;> rfl

/-- A store changes the bytes that it puts, and no others. -/
theorem getElem?_store {mem : List UInt8} {s : Store} (h : s.start + s.bytes.length ≤ mem.length)
    (o : Nat) : (Region.store mem s.start s.bytes)[o]? = (s.at? o).or mem[o]? := by
  have htake : (mem.take s.start).length = s.start := List.length_take_of_le (by omega)
  rw [Region.store, List.append_assoc]
  rcases Nat.lt_or_ge o s.start with hlt | hge
  · rw [List.getElem?_append_left (by omega), List.getElem?_take_of_lt hlt,
      Store.at?_eq_none_of_lt hlt]
    rfl
  rw [List.getElem?_append_right (by omega), htake]
  rcases Nat.lt_or_ge o (s.start + s.bytes.length) with hin | hout
  · have hbyte : o - s.start < s.bytes.length := by omega
    rw [List.getElem?_append_left hbyte, Store.at?, if_pos hge, List.getElem?_eq_getElem hbyte]
    rfl
  · rw [List.getElem?_append_right (by omega), List.getElem?_drop, Store.at?_eq_none_of_le hout]
    exact congrArg (mem[·]?) (by omega)

theorem take_length_take (bytes : List UInt8) (n : Nat) :
    bytes.take (bytes.take n).length = bytes.take n := by
  rw [List.take_eq_take_iff, List.length_take]
  omega

/-! ## What the blocks hold -/

/-- From the start of each block up to the block above it, and up to `limit` for the latest, the
memory holds what was stored into the block last. -/
def Held (mem : List UInt8) : Nat → List Block → List (List Store) → Prop
  | _, [], [] => True
  | limit, b :: bs, stores :: rest =>
    (∀ o x, b.offset.toNat ≤ o → o < limit → lastAt? stores o = some x → mem[o]? = some x) ∧
      Held mem b.offset.toNat bs rest
  | _, _, _ => False

section Held

variable {base limit : Nat} {mem : List UInt8} {bs : List Block} {stores : List (List Store)}

theorem Held.mono {limit' : Nat} (h : Held mem limit bs stores) (hle : limit' ≤ limit) :
    Held mem limit' bs stores := by
  match bs, stores, h with
  | [], [], _ => trivial
  | _ :: _, _ :: _, ⟨hb, hbs⟩ => exact ⟨fun o x hge hlt => hb o x hge (by omega), hbs⟩

/-- A store above the blocks is in none of them. -/
theorem Held.store_above (h : Held mem limit bs stores) (hbs : Stacked base bs)
    (htop : top bs ≤ limit) {s : Store} (hstart : limit ≤ s.start)
    (hmem : s.start + s.bytes.length ≤ mem.length) :
    Held (Region.store mem s.start s.bytes) limit bs stores := by
  induction bs generalizing limit stores with
  | nil =>
    match stores, h with
    | [], _ => trivial
  | cons b bs ih =>
    match stores, h with
    | _ :: _, ⟨hb, hrest⟩ =>
      have hoffset := offset_le_top b bs
      refine ⟨fun o x hge hlt hlast => ?_, ih hrest hbs.2.2 hbs.top_le_offset (by omega)⟩
      rw [getElem?_store hmem, Store.at?_eq_none_of_lt (by omega)]
      exact hb o x hge hlt hlast

/-- A store within a block changes that block alone. -/
theorem Held.store_mem (h : Held mem limit bs stores) (hbs : Stacked base bs) {b : Block}
    (hb : b ∈ bs) {s : Store} (hstart : b.offset.toNat ≤ s.start)
    (hfinish : s.start + s.bytes.length ≤ b.finish)
    (hmem : s.start + s.bytes.length ≤ mem.length) :
    Held (Region.store mem s.start s.bytes) limit bs
      (stores.modify (bs.idxOf b) ([s] ++ ·)) := by
  induction bs generalizing limit stores with
  | nil => cases hb
  | cons a as ih =>
    match stores, h with
    | _ :: _, ⟨ha, has⟩ =>
      by_cases hab : a = b
      · subst hab
        rw [List.idxOf_cons_self, List.modify_zero_cons]
        refine ⟨fun o x hge hlt hlast => ?_, ?_⟩
        · rw [List.singleton_append, lastAt?_cons] at hlast
          rw [getElem?_store hmem]
          cases hat : s.at? o with
          | some y =>
            rw [hat] at hlast
            exact hlast
          | none =>
            rw [hat] at hlast
            exact ha o x hge hlt hlast
        · exact has.store_above hbs.2.2 hbs.top_le_offset hstart hmem
      · -- The block lies below this one, which starts where all below it have ended.
        have hbas : b ∈ as := (List.mem_cons.1 hb).resolve_left (Ne.symm hab)
        have hbelow : b.finish ≤ a.offset.toNat :=
          Nat.le_trans (hbs.2.2.finish_le_top hbas) hbs.top_le_offset
        rw [List.idxOf_cons_ne _ hab, List.modify_succ_cons]
        refine ⟨fun o x hge hlt hlast => ?_, ih has hbs.2.2 hbas⟩
        rw [getElem?_store hmem, Store.at?_eq_none_of_le (by omega)]
        exact ha o x hge hlt hlast

/-- So each block holds its own bytes. -/
theorem Held.forall₂ (h : Held mem limit bs stores) (hbs : Stacked base bs)
    (htop : top bs ≤ limit) :
    List.Forall₂ (fun b stores => ∀ o x, b.offset.toNat ≤ o → o < b.finish →
      lastAt? stores o = some x → mem[o]? = some x) bs stores := by
  induction bs generalizing limit stores with
  | nil =>
    match stores, h with
    | [], _ => exact .nil
  | cons b bs ih =>
    match stores, h with
    | _ :: _, ⟨hb, hrest⟩ =>
      have hfinish : b.finish ≤ limit := htop
      exact .cons (fun o x hge hlt => hb o x hge (by omega))
        (ih hrest hbs.2.2 hbs.top_le_offset)

end Held

/-! ## Journals -/

/-- A ledger and what was stored. -/
structure Journal where
  ledger : Ledger
  /-- For each live block, in their order, the stores into it since it was issued, latest first. -/
  stores : List (List Store)
  /-- The stores into the region since its beginning, latest first. -/
  log : List Store
  deriving DecidableEq, Repr

namespace Journal

/-- An operation on a ledger, or a store within a block from its byte `i` on. -/
inductive Op where
  | request (op : Ledger.Op)
  | writeAt (b : Block) (i : Nat) (bytes : List UInt8)
  deriving DecidableEq, Repr

/-- The handle passed. -/
def Op.handle? : Op → Option Block
  | request op => op.handle?
  | writeAt b _ _ => some b

/-- The bytes stored by an operation with the given answer. -/
def Op.store? : Op → Answer → Option Store
  | request (.copy bytes), .block b => some ⟨b.offset.toNat, bytes⟩
  | request (.write b bytes), .written (some count) => some ⟨b.offset.toNat, bytes.take count⟩
  | writeAt b i bytes, .written (some count) => some ⟨b.offset.toNat + i, bytes.take count⟩
  | _, _ => none

/-- The journal before the first request. -/
def fresh (base : UInt64) (mem : List UInt8) : Journal := ⟨.fresh base mem, [], []⟩

/-- Enters what an operation stored into the blocks: a new block has no other stores, and a reset
leaves no block. -/
def entered (j : Journal) (op : Op) (answer : Answer) : List (List Store) :=
  match answer, op.handle? with
  | .done, _ => []
  | .block _, none => (op.store? answer).toList :: j.stores
  | .written _, some b =>
    j.stores.modify (j.ledger.live.idxOf b) ((op.store? answer).toList ++ ·)
  | _, _ => j.stores

/-- Enters an operation with its answer and the ledger that it leaves. -/
def enter (j : Journal) (op : Op) (done : Answer × Ledger) : Journal :=
  ⟨done.2, j.entered op done.1, (op.store? done.1).toList ++ j.log⟩

/-- One operation. -/
def step (j : Journal) (op : Op) : Journal :=
  j.enter op <| match op with
    | .request op => j.ledger.step op
    | .writeAt b i bytes => j.ledger.stored (Region.writeAt b i bytes j.ledger.region)

/-- The journal after a list of operations. -/
def after (j : Journal) (ops : List Op) : Journal := ops.foldl step j

/-- The handle passed is the current one of a live block, and a store within it starts there. -/
def Permits (j : Journal) : Op → Prop
  | .request op => j.ledger.Permits op
  | .writeAt b i _ => b ∈ j.ledger.live ∧ i ≤ b.len.toNat

instance (j : Journal) : DecidablePred j.Permits
  | .request op => inferInstanceAs (Decidable (j.ledger.Permits op))
  | .writeAt b i _ => inferInstanceAs (Decidable (b ∈ j.ledger.live ∧ i ≤ b.len.toNat))

/-! ## Steps -/

theorem store?_plain (op : Ledger.Op) (answer : Answer) :
    (Op.request op.plain).store? answer = (Op.request op).store? answer := by
  cases op with
  | realloc existing size => cases existing <;> rfl
  | allocate | copy | resize | alloc | resizeBlock | reset | write => rfl

theorem store?_refused (op : Op) (e : AllocError) : op.store? (.refused e) = none := by
  cases op with
  | request op => cases op <;> rfl
  | writeAt => rfl

theorem enter_plain (j : Journal) (op : Ledger.Op) (done : Answer × Ledger) :
    j.enter (.request op.plain) done = j.enter (.request op) done := by
  simp only [enter, entered, Op.handle?, Ledger.Op.handle?_plain, store?_plain]

/-- The blocks are stacked, and the memory is as the stores left it: below each block as those into
the block did, anywhere as all of them did. -/
structure Kept (init : List UInt8) (j : Journal) : Prop where
  packed : j.ledger.Packed
  held : Held j.ledger.region.mem j.ledger.region.mem.length j.ledger.live j.stores
  getElem?_eq : ∀ o, j.ledger.region.mem[o]? = (lastAt? j.log o).or init[o]?

namespace Kept

variable {init : List UInt8} {j : Journal}

theorem fresh {base : UInt64} (h : base.toNat + init.length < 2 ^ 64) :
    Kept init (fresh base init) where
  packed := .fresh h
  held := trivial
  getElem?_eq _ := rfl

theorem getElem?_store (h : Kept init j) {s : Store}
    (hmem : s.start + s.bytes.length ≤ j.ledger.region.mem.length) (o : Nat) :
    (Region.store j.ledger.region.mem s.start s.bytes)[o]? =
      (lastAt? (s :: j.log) o).or init[o]? := by
  rw [Arena.getElem?_store hmem, h.getElem?_eq, lastAt?_cons, Option.or_assoc]

/-- A new block starts above the others, and nothing was stored into it. -/
theorem issue (h : Kept init j) {size : UInt64} {b : Block}
    (hb : j.ledger.region.Grants size b) :
    Kept init
      ⟨⟨{ j.ledger.region with cursor := .ofNat b.finish }, b :: j.ledger.live⟩,
        [] :: j.stores, j.log⟩ := by
  have hle : b.offset.toNat + b.len.toNat ≤ j.ledger.region.mem.length := hb.finish_le
  refine ⟨h.packed.issue hb rfl, ⟨fun _ _ _ _ hlast => ?_, h.held.mono (by omega)⟩, h.getElem?_eq⟩
  cases hlast

/-- A store within a live block. -/
theorem put (h : Kept init j) {b : Block} (hb : b ∈ j.ledger.live) {s : Store}
    (hstart : b.offset.toNat ≤ s.start) (hfinish : s.start + s.bytes.length ≤ b.finish) :
    Kept init
      ⟨⟨{ j.ledger.region with mem := Region.store j.ledger.region.mem s.start s.bytes },
          j.ledger.live⟩,
        j.stores.modify (j.ledger.live.idxOf b) ([s] ++ ·), s :: j.log⟩ := by
  have hcur := h.packed.finish_le_cursor hb
  have hle := h.packed.valid.cursor_le
  have hmem : s.start + s.bytes.length ≤ j.ledger.region.mem.length := by omega
  have hlen := Region.length_store hmem
  refine ⟨h.packed.store_packed hlen, ?_, h.getElem?_store hmem⟩
  show Held _ (Region.store j.ledger.region.mem s.start s.bytes).length _ _
  rw [hlen]
  exact h.held.store_mem h.packed.stacked hb hstart hfinish hmem

/-- As many bytes as fit are stored within a live block. -/
theorem write (h : Kept init j) {b : Block} (hb : b ∈ j.ledger.live) {i : Nat}
    (hi : i ≤ b.len.toNat) (bytes : List UInt8) :
    Kept init (j.enter (.writeAt b i bytes)
      (.written (some (bytes.take (b.len.toNat - i)).length),
        ⟨{ j.ledger.region with
            mem := Region.store j.ledger.region.mem (b.offset.toNat + i)
              (bytes.take (b.len.toNat - i)) }, j.ledger.live⟩)) := by
  have hcount : (bytes.take (b.len.toNat - i)).length ≤ b.len.toNat - i := List.length_take_le _ _
  have hput := h.put hb (s := ⟨b.offset.toNat + i, bytes.take (b.len.toNat - i)⟩)
    (Nat.le_add_right _ _) (by
      show b.offset.toNat + i + (bytes.take (b.len.toNat - i)).length ≤ b.offset.toNat + b.len.toNat
      omega)
  simp only [enter, entered, Op.store?, Op.handle?, take_length_take]
  exact hput

/-- The latest block keeps its start, and the memory from there on is its own. -/
theorem relength (h : Kept init j) {b : Block} {bs : List Block} (hlive : j.ledger.live = b :: bs)
    {size : UInt64} (hsize : 0 < size.toNat)
    (hroom : b.offset.toNat + size.toNat ≤ j.ledger.region.mem.length) :
    Kept init
      ⟨⟨{ j.ledger.region with cursor := .ofNat (b.offset.toNat + size.toNat) },
        ⟨b.offset, size⟩ :: bs⟩, j.stores, j.log⟩ := by
  have hheld := h.held
  rw [hlive] at hheld
  refine ⟨h.packed.relength hlive hsize hroom, ?_, h.getElem?_eq⟩
  match j.stores, hheld with
  | _ :: _, ⟨hb, hbs⟩ => exact ⟨hb, hbs⟩

theorem enter_effect (h : Kept init j) {op : Ledger.Op} {answer : Answer} {l : Ledger}
    (heffect : j.ledger.Effect op answer l) : Kept init (j.enter (.request op) (answer, l)) := by
  cases heffect with
  | refused _ e =>
    rw [enter, store?_refused]
    exact h
  | allocated hb => exact h.issue hb
  | @copied bytes b hlen hb =>
    -- A copy is a store into a block that was just issued.
    have hput := (h.issue hb).put (List.mem_cons_self ..) (s := ⟨b.offset.toNat, bytes⟩)
      (Nat.le_refl _) (Nat.le_of_eq (congrArg (b.offset.toNat + ·) hlen))
    rw [List.idxOf_cons_self] at hput
    exact hput
  | resized hlive hsize hroom => exact h.relength hlive hsize hroom
  | reset => exact ⟨(h.packed.keeps_of_effect .reset).packed, trivial, h.getElem?_eq⟩
  | @written b bytes hb => exact h.write hb (Nat.zero_le _) bytes

/-- Each step keeps the memory as the stores left it. -/
theorem step (h : Kept init j) {op : Op} (hop : j.Permits op) : Kept init (j.step op) := by
  cases op with
  | request op =>
    have heffect := h.enter_effect (h.packed.effect hop)
    rw [enter_plain] at heffect
    exact heffect
  | writeAt b i bytes =>
    obtain ⟨hb, hi⟩ := hop
    rw [Journal.step, Region.writeAt_eq h.packed.valid (h.packed.finish_le_cursor hb)]
    exact h.write hb hi bytes

end Kept

/-! ## Runs -/

/-- A block gives the bytes that were stored into it last. -/
def Shows (r : Region) (b : Block) (stores : List Store) : Prop :=
  ∃ bytes, r.get? b = .ok (some bytes) ∧ bytes.length = b.len.toNat ∧
    ∀ i < b.len.toNat, ∀ x, lastAt? stores (b.offset.toNat + i) = some x → bytes[i]? = some x

/-- What the memory that was `init` at the beginning shows. -/
structure Contents (init : List UInt8) (j : Journal) : Prop where
  shows : List.Forall₂ (Shows j.ledger.region) j.ledger.live j.stores
  untouched : ∀ o, lastAt? j.log o = none → j.ledger.region.mem[o]? = init[o]?

theorem Kept.contents {init : List UInt8} {j : Journal} (h : Kept init j) : Contents init j where
  shows := by
    have hle := h.packed.valid.cursor_le
    have htop := h.packed.cursor_eq
    have hheld := List.forall₂_iff_zip.1 (h.held.forall₂ h.packed.stacked (by omega))
    refine List.forall₂_iff_zip.2 ⟨hheld.1, fun {b stores} hzip => ?_⟩
    have hb := (List.of_mem_zip hzip).1
    obtain ⟨bytes, hget, hlen⟩ := h.packed.tiled.get_eq b hb
    refine ⟨bytes, hget, hlen, fun i hi x hlast => ?_⟩
    have hmem := hheld.2 hzip (b.offset.toNat + i) x (by omega) (by rw [Block.finish]; omega) hlast
    rw [Region.get?_eq h.packed.valid (h.packed.finish_lt hb),
      if_pos (h.packed.finish_le_cursor hb)] at hget
    obtain rfl := Option.some.inj (Except.ok.inj hget)
    rw [List.getElem?_take_of_lt hi, List.getElem?_drop]
    exact hmem
  untouched o ho := by
    rw [h.getElem?_eq, ho]
    rfl

/-- After every run that passes current handles alone, over memory below the end of the address
space, each live block gives the bytes that were stored into it last since it was issued, and what
no store of the run covers is as it was. -/
theorem contents_after (base : UInt64) (mem : List UInt8) (ops : List Op)
    (hmem : base.toNat + mem.length < 2 ^ 64) (hops : Throughout step Permits (fresh base mem) ops) :
    Contents mem ((fresh base mem).after ops) :=
  (hops.foldl (fun _ _ h => h.step) (Kept.fresh hmem)).contents

/-- A copy shrinks, is stored into, and grows again before another block follows it; in between, the
requests for 100 bytes are refused. -/
theorem contents_after_regrown :
    let mem : List UInt8 := .replicate 24 250
    let ops : List Op := [.request (.copy [1, 2, 3, 4, 5]), .request (.resize ⟨5, 5⟩ 2),
      .writeAt ⟨5, 2⟩ 1 [9, 9, 9], .request (.alloc 100), .request (.resizeBlock ⟨5, 2⟩ 4),
      .request (.realloc none 3), .request (.write ⟨13, 3⟩ [7]),
      .request (.realloc (some ⟨5, 4⟩) 100), .writeAt ⟨5, 4⟩ 3 [8]]
    let j := (fresh 3 mem).after ops
    Throughout step Permits (fresh 3 mem) ops ∧ Contents mem j ∧ j.ledger.live = [⟨13, 3⟩, ⟨5, 4⟩] ∧
      j.ledger.region.get? ⟨5, 4⟩ = .ok (some [1, 9, 3, 8]) ∧
      j.ledger.region.get? ⟨13, 3⟩ = .ok (some [7, 250, 250]) := by
  intro mem ops j
  have hops : Throughout step Permits (fresh 3 mem) ops := by decide +kernel
  exact ⟨hops, contents_after 3 mem ops (by decide) hops, by decide +kernel, by decide +kernel,
    by decide +kernel⟩

end Journal

end FrontEnd.Arena
