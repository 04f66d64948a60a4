import Mathlib.Algebra.Group.Nat.Defs
import Mathlib.Order.Bounds.Basic
import FrontEnd.Arena.Region

/-!
# Requests to a region

What each operation of a region answers and leaves, over unbounded numbers. A region is valid when
its memory lies below the end of the address space and its cursor within its memory
(`Region.Valid`); then no sum of a request leaves its word:

* `placed_eq`: a new block starts at the first aligned offset from the cursor on, and is granted
  where it ends within the memory;
* `resized_eq`: the block that ends at the cursor keeps its offset, and is granted where it ends
  within the memory;
* `allocate_cases`, `allocateCopy_cases`, `resize_cases`: the cursor moves to the end of a block that
  was granted, and a refusal leaves the region as it is;
* `get?_eq`, `writeAt_eq`: the bytes of a block that ends before the cursor.
-/

namespace FrontEnd.Arena

/-- The offset after the last byte of a block. -/
def Block.finish (b : Block) : Nat := b.offset.toNat + b.len.toNat

/-- The first offset from `n` on whose address is a multiple of 8. -/
def firstAligned (base n : Nat) : Nat := n + (8 - (base + n) % 8) % 8

theorem isLeast_firstAligned (base n : Nat) :
    IsLeast {o | n ≤ o ∧ 8 ∣ base + o} (firstAligned base n) := by
  unfold firstAligned
  refine ⟨⟨by omega, by omega⟩, fun o ⟨hn, ho⟩ => by omega⟩

theorem firstAligned_lt (base n : Nat) : firstAligned base n < n + 8 := by
  unfold firstAligned
  omega

namespace Region

/-- The memory lies below the end of the address space, and the cursor within the memory. -/
structure Valid (r : Region) : Prop where
  base_add_length_lt : r.base.toNat + r.mem.length < 2 ^ 64
  cursor_le : r.cursor.toNat ≤ r.mem.length

variable {r : Region}

theorem toNat_ofNat64 {n : Nat} (h : n < 2 ^ 64) : (UInt64.ofNat n).toNat = n :=
  UInt64.toNat_ofNat_of_lt' h

theorem Valid.toNat_capacity (h : r.Valid) : r.capacity.toNat = r.mem.length :=
  toNat_ofNat64 (by have := h.base_add_length_lt; omega)

theorem remaining_eq (h : r.Valid) :
    r.remaining = .ok (.ofNat (r.mem.length - r.cursor.toNat)) := by
  have hlt := h.base_add_length_lt
  have hle := h.cursor_le
  rw [remaining, Word.sub64_eq_ok, h.toNat_capacity, toNat_ofNat64 (by omega)]
  omega

theorem padding_eq (h : r.Valid) :
    r.padding = .ok (.ofNat (firstAligned r.base.toNat r.cursor.toNat - r.cursor.toNat)) := by
  have hlt := h.base_add_length_lt
  have hle := h.cursor_le
  have haddr : Word.add64 r.base r.cursor = .ok (.ofNat (r.base.toNat + r.cursor.toNat)) :=
    Word.add64_eq_ok.2 (toNat_ofNat64 (by omega)).symm
  have h8 : alignment.toNat = 8 := rfl
  rw [padding, haddr]
  refine congrArg Except.ok (UInt64.toNat_inj.1 ?_)
  rw [UInt64.toNat_mod, UInt64.toNat_sub, UInt64.toNat_mod, h8, toNat_ofNat64 (by omega),
    toNat_ofNat64 (by have := firstAligned_lt r.base.toNat r.cursor.toNat; omega), firstAligned]
  omega

/-- A new block starts at the first aligned offset, and is granted where it ends within the
memory. -/
theorem placed_eq (h : r.Valid) (size : UInt64) :
    r.placed size = .ok
      (if size = 0 then .error .zeroSize
      else if firstAligned r.base.toNat r.cursor.toNat + size.toNat ≤ r.mem.length then
        .ok ⟨.ofNat (firstAligned r.base.toNat r.cursor.toNat), size⟩
      else .error (.outOfMemory size (.ofNat (r.mem.length - r.cursor.toNat)))) := by
  have hlt := h.base_add_length_lt
  have hle := h.cursor_le
  have hsize := size.toNat_lt
  have hfirst := firstAligned_lt r.base.toNat r.cursor.toNat
  have hge : r.cursor.toNat ≤ firstAligned r.base.toNat r.cursor.toNat :=
    (isLeast_firstAligned _ _).1.1
  rw [placed]
  by_cases hs : size = 0
  · rw [if_pos hs, if_pos hs]
    rfl
  rw [if_neg hs, if_neg hs, padding_eq h, remaining_eq h, ok_bind, ok_bind]
  generalize firstAligned r.base.toNat r.cursor.toNat = first at hfirst hge ⊢
  have hpad : (UInt64.ofNat (first - r.cursor.toNat)).toNat = first - r.cursor.toNat :=
    toNat_ofNat64 (by omega)
  by_cases hfit : first - r.cursor.toNat + size.toNat < 2 ^ 64
  · have hneeded : Word.add64 (.ofNat (first - r.cursor.toNat)) size =
        .ok (.ofNat (first - r.cursor.toNat + size.toNat)) := by
      rw [Word.add64_eq_ok, hpad, toNat_ofNat64 hfit]
    have hle' : UInt64.ofNat (first - r.cursor.toNat + size.toNat) ≤
        .ofNat (r.mem.length - r.cursor.toNat) ↔ first + size.toNat ≤ r.mem.length := by
      rw [UInt64.le_iff_toNat_le, toNat_ofNat64 hfit, toNat_ofNat64 (by omega)]
      omega
    rw [hneeded]
    simp only [hle']
    by_cases hroom : first + size.toNat ≤ r.mem.length
    · have hoffset : Word.add64 r.cursor (.ofNat (first - r.cursor.toNat)) = .ok (.ofNat first) := by
        rw [Word.add64_eq_ok, hpad, toNat_ofNat64 (by omega)]
        omega
      rw [if_pos hroom, if_pos hroom, hoffset]
      rfl
    · rw [if_neg hroom, if_neg hroom]
      rfl
  · -- A sum that leaves its word is refused, as one beyond the memory is.
    have hneeded : Word.add64 (.ofNat (first - r.cursor.toNat)) size = .error .addOverflow := by
      rw [Word.add64, hpad]
      exact if_neg hfit
    rw [hneeded, if_neg (by omega)]
    rfl

/-! ## Blocks -/

theorem stop_eq {b : Block} (hb : b.finish < 2 ^ 64) : b.stop = .ok (.ofNat b.finish) := by
  rw [Block.stop, Word.add64_eq_ok, toNat_ofNat64 hb, Block.finish]

/-- The tail is the block of some bytes that ends at the cursor. -/
theorem isTail_eq {b : Block} (hb : b.finish < 2 ^ 64) :
    r.isTail b = .ok (decide (0 < b.len.toNat ∧ b.finish = r.cursor.toNat)) := by
  have hlen : b.len = 0 ↔ b.len.toNat = 0 := by rw [← UInt64.toNat_inj]; rfl
  rw [isTail, stop_eq hb, Block.isEmpty]
  by_cases h : b.len = 0
  · have h' := hlen.1 h
    simp [h, pure, Except.pure]
  · have h' : 0 < b.len.toNat := Nat.pos_of_ne_zero (mt hlen.2 h)
    have hcur : UInt64.ofNat b.finish = r.cursor ↔ b.finish = r.cursor.toNat := by
      rw [← UInt64.toNat_inj, toNat_ofNat64 hb]
    simp only [beq_iff_eq, h, if_false, h', true_and]
    show Except.ok (UInt64.ofNat b.finish == r.cursor) = _
    rw [beq_eq_decide, decide_eq_decide.2 hcur]

/-- The tail is granted another length where it then ends within the memory. -/
theorem resized_eq (h : r.Valid) {b : Block} (hb : b.finish < 2 ^ 64) (size : UInt64) :
    r.resized b size = .ok
      (if size = 0 then .error .zeroSize
      else if ¬ (0 < b.len.toNat ∧ b.finish = r.cursor.toNat) then .error (.notTail b.offset)
      else if b.offset.toNat + size.toNat ≤ r.mem.length then .ok ⟨b.offset, size⟩
      else .error (.outOfMemory size (.ofNat (r.mem.length - b.offset.toNat)))) := by
  have hlt := h.base_add_length_lt
  have hle := h.cursor_le
  rw [resized]
  by_cases hs : size = 0
  · rw [if_pos hs, if_pos hs]
    rfl
  rw [if_neg hs, if_neg hs, isTail_eq hb]
  by_cases ht : 0 < b.len.toNat ∧ b.finish = r.cursor.toNat
  · have hoff : b.offset.toNat ≤ r.mem.length := by
      have := ht.2
      rw [Block.finish] at this
      omega
    have havailable : Word.sub64 r.capacity b.offset =
        .ok (.ofNat (r.mem.length - b.offset.toNat)) := by
      rw [Word.sub64_eq_ok, h.toNat_capacity, toNat_ofNat64 (by omega)]
      omega
    have hle' : size ≤ .ofNat (r.mem.length - b.offset.toNat) ↔
        b.offset.toNat + size.toNat ≤ r.mem.length := by
      rw [UInt64.le_iff_toNat_le, toNat_ofNat64 (by omega)]
      omega
    rw [if_neg (not_not_intro ht), decide_eq_true ht]
    show (Word.sub64 r.capacity b.offset >>= fun available => _ :
      Except Fault (Except AllocError Block)) = _
    rw [havailable]
    show (if size ≤ .ofNat (r.mem.length - b.offset.toNat) then _ else _ :
      Except Fault (Except AllocError Block)) = _
    by_cases hroom : b.offset.toNat + size.toNat ≤ r.mem.length
    · rw [if_pos (hle'.2 hroom), if_pos hroom]
      rfl
    · rw [if_neg (mt hle'.1 hroom), if_neg hroom]
      rfl
  · rw [if_pos ht, decide_eq_false ht]
    rfl

/-! ## What a request leaves -/

theorem settle_ok {b : Block} (hb : b.finish < 2 ^ 64) :
    settle (.ok b) r = .ok (.ok b) { r with cursor := .ofNat b.finish } := by
  have hstop := stop_eq hb
  simp only [settle, hstop]
  rfl

theorem allocate_eq_settle (size : UInt64) {granted : Except AllocError Block}
    (h : r.placed size = .ok granted) : allocate size r = settle granted r := by
  rw [allocate, get_bind, liftM_bind_of_ok h]

theorem resize_eq_settle (b : Block) (size : UInt64) {granted : Except AllocError Block}
    (h : r.resized b size = .ok granted) : resize b size r = settle granted r := by
  rw [resize, get_bind, liftM_bind_of_ok h]

/-- The block that a request for `size` bytes is granted. -/
structure Grants (r : Region) (size : UInt64) (b : Block) : Prop where
  len_eq : b.len = size
  len_pos : 0 < b.len.toNat
  isLeast : IsLeast {o | r.cursor.toNat ≤ o ∧ 8 ∣ r.base.toNat + o} b.offset.toNat
  finish_le : b.finish ≤ r.mem.length

theorem toNat_pos_of_ne_zero {n : UInt64} (h : n ≠ 0) : 0 < n.toNat :=
  Nat.pos_of_ne_zero fun h0 => h (UInt64.toNat_inj.1 h0)

/-- A request for a new block is refused, or moves the cursor to the end of it. -/
theorem allocate_cases (h : r.Valid) (size : UInt64) :
    (∃ e, allocate size r = .ok (.error e) r) ∨
      ∃ b, r.Grants size b ∧
        allocate size r = .ok (.ok b) { r with cursor := .ofNat b.finish } := by
  have hlt := h.base_add_length_lt
  have hplaced := placed_eq h size
  by_cases hs : size = 0
  · rw [if_pos hs] at hplaced
    exact .inl ⟨_, allocate_eq_settle size hplaced⟩
  rw [if_neg hs] at hplaced
  by_cases hroom : firstAligned r.base.toNat r.cursor.toNat + size.toNat ≤ r.mem.length
  · rw [if_pos hroom] at hplaced
    have hoff : (UInt64.ofNat (firstAligned r.base.toNat r.cursor.toNat)).toNat =
        firstAligned r.base.toNat r.cursor.toNat := toNat_ofNat64 (by omega)
    have hgrants : r.Grants size ⟨.ofNat (firstAligned r.base.toNat r.cursor.toNat), size⟩ :=
      { len_eq := rfl
        len_pos := toNat_pos_of_ne_zero hs
        isLeast := by rw [hoff]; exact isLeast_firstAligned _ _
        finish_le := by rw [Block.finish, hoff]; exact hroom }
    refine .inr ⟨_, hgrants, ?_⟩
    have := hgrants.finish_le
    rw [allocate_eq_settle size hplaced, settle_ok (by omega)]
  · rw [if_neg hroom] at hplaced
    exact .inl ⟨_, allocate_eq_settle size hplaced⟩

/-- A request for another length is refused, or is about the tail and moves the cursor to its new
end. -/
theorem resize_cases (h : r.Valid) {b : Block} (hb : b.finish < 2 ^ 64) (size : UInt64) :
    (∃ e, resize b size r = .ok (.error e) r) ∨
      0 < b.len.toNat ∧ b.finish = r.cursor.toNat ∧ 0 < size.toNat ∧
        b.offset.toNat + size.toNat ≤ r.mem.length ∧
        resize b size r =
          .ok (.ok ⟨b.offset, size⟩) { r with cursor := .ofNat (b.offset.toNat + size.toNat) } := by
  have hlt := h.base_add_length_lt
  have hresized := resized_eq h hb size
  by_cases hs : size = 0
  · rw [if_pos hs] at hresized
    exact .inl ⟨_, resize_eq_settle b size hresized⟩
  rw [if_neg hs] at hresized
  by_cases ht : 0 < b.len.toNat ∧ b.finish = r.cursor.toNat
  · rw [if_neg (not_not_intro ht)] at hresized
    by_cases hroom : b.offset.toNat + size.toNat ≤ r.mem.length
    · rw [if_pos hroom] at hresized
      refine .inr ⟨ht.1, ht.2, toNat_pos_of_ne_zero hs, hroom, ?_⟩
      have hfinish : (Block.mk b.offset size).finish < 2 ^ 64 :=
        show b.offset.toNat + size.toNat < 2 ^ 64 by omega
      rw [resize_eq_settle b size hresized, settle_ok hfinish, Block.finish]
    · rw [if_neg hroom] at hresized
      exact .inl ⟨_, resize_eq_settle b size hresized⟩
  · rw [if_pos ht] at hresized
    exact .inl ⟨_, resize_eq_settle b size hresized⟩

/-! ## Bytes -/

theorem length_store {mem bytes : List UInt8} {offset : Nat}
    (h : offset + bytes.length ≤ mem.length) : (store mem offset bytes).length = mem.length := by
  simp only [store, List.length_append, List.length_take, List.length_drop]
  omega

theorem get?_eq {b : Block} (h : r.Valid) (hb : b.finish < 2 ^ 64) :
    r.get? b = .ok (if b.finish ≤ r.cursor.toNat then
      some ((r.mem.drop b.offset.toNat).take b.len.toNat) else none) := by
  have hle := h.cursor_le
  have hlt : r.cursor < UInt64.ofNat b.finish ↔ ¬ b.finish ≤ r.cursor.toNat := by
    rw [UInt64.lt_iff_toNat_lt, toNat_ofNat64 hb, Nat.not_le]
  rw [get?, stop_eq hb]
  by_cases hf : b.finish ≤ r.cursor.toNat
  · have hlt' : ¬ r.cursor < UInt64.ofNat b.finish := fun hc => hlt.1 hc hf
    have hmem : ¬ r.mem.length < (UInt64.ofNat b.finish).toNat := by
      rw [toNat_ofNat64 hb]
      omega
    simp only [hf, if_true]
    show (if r.cursor < UInt64.ofNat b.finish then _ else _ : Except Fault _) = _
    rw [if_neg hlt']
    show (if r.mem.length < (UInt64.ofNat b.finish).toNat then _ else _ : Except Fault _) = _
    rw [if_neg hmem]
    rfl
  · simp only [hf, if_false]
    show (if r.cursor < UInt64.ofNat b.finish then _ else _ : Except Fault _) = _
    rw [if_pos (hlt.2 hf)]
    rfl

/-- A block in use is filled with bytes of its length. -/
theorem fill_eq {b : Block} {bytes : List UInt8} (hb : b.finish < 2 ^ 64)
    (hmem : b.finish ≤ r.mem.length) (hlen : bytes.length = b.len.toNat) :
    fill b bytes r = .ok () { r with mem := store r.mem b.offset.toNat bytes } := by
  have horder : ¬ (UInt64.ofNat b.finish).toNat < b.offset.toNat := by
    rw [toNat_ofNat64 hb, Block.finish]
    omega
  have hroom : ¬ r.mem.length < (UInt64.ofNat b.finish).toNat := by
    rw [toNat_ofNat64 hb]
    omega
  have hsame : bytes.length = (UInt64.ofNat b.finish).toNat - b.offset.toNat := by
    rw [toNat_ofNat64 hb, Block.finish]
    omega
  rw [fill, get_bind]
  show (liftM b.stop >>= fun stop => _ : EStateM Fault Region Unit) r = _
  rw [liftM_bind_of_ok (stop_eq hb)]
  simp only [horder, hroom, ← hsame, ne_eq, not_true_eq_false, if_false]
  rfl

/-- A copy is refused, or is a new block that holds the bytes. -/
theorem allocateCopy_cases (h : r.Valid) {bytes : List UInt8} (hbytes : bytes.length < 2 ^ 64) :
    (∃ e, allocateCopy bytes r = .ok (.error e) r) ∨
      ∃ b, r.Grants (.ofNat bytes.length) b ∧ allocateCopy bytes r =
        .ok (.ok b) ⟨r.base, store r.mem b.offset.toNat bytes, .ofNat b.finish⟩ := by
  have hlt := h.base_add_length_lt
  rcases allocate_cases h (.ofNat bytes.length) with ⟨e, he⟩ | ⟨b, hb, ha⟩
  · refine .inl ⟨e, ?_⟩
    rw [allocateCopy, bind_of_ok he]
    rfl
  · refine .inr ⟨b, hb, ?_⟩
    have hle := hb.finish_le
    have hlen : bytes.length = b.len.toNat := by rw [hb.len_eq, toNat_ofNat64 hbytes]
    have hfill : fill b bytes { r with cursor := .ofNat b.finish } = .ok () _ :=
      fill_eq (by omega) hle hlen
    rw [allocateCopy, bind_of_ok ha]
    show (fill b bytes >>= fun _ => _ : EStateM Fault Region _) _ = _
    rw [bind_of_ok hfill]
    rfl

/-- A store into a block in use changes the bytes from the given one on. -/
theorem writeAt_eq (h : r.Valid) {b : Block} (hb : b.finish ≤ r.cursor.toNat) (i : Nat)
    (bytes : List UInt8) :
    writeAt b i bytes r = .ok (some (bytes.take (b.len.toNat - i)).length)
      { r with mem := store r.mem (b.offset.toNat + i) (bytes.take (b.len.toNat - i)) } := by
  have hle := h.cursor_le
  have hlt := h.base_add_length_lt
  have hlen : ((r.mem.drop b.offset.toNat).take b.len.toNat).length = b.len.toNat := by
    rw [Block.finish] at hb
    rw [List.length_take, List.length_drop]
    omega
  have hget := get?_eq h (show b.finish < 2 ^ 64 by omega)
  rw [if_pos hb] at hget
  rw [writeAt, get_bind, liftM_bind_of_ok hget]
  simp only [hlen]
  rfl

theorem writeAt_zero (b : Block) : writeAt b 0 = write b := rfl

/-- A store at the start of a block in use changes its first bytes. -/
theorem write_eq (h : r.Valid) {b : Block} (hb : b.finish ≤ r.cursor.toNat) (bytes : List UInt8) :
    write b bytes r = .ok (some (bytes.take b.len.toNat).length)
      { r with mem := store r.mem b.offset.toNat (bytes.take b.len.toNat) } := by
  rw [← writeAt_zero]
  exact writeAt_eq h hb 0 bytes

end Region

end FrontEnd.Arena
