import FrontEnd.Arena.Workspace
import FrontEnd.Proofs.Arena.Request

/-!
# Other lengths for the latest block

The block that a region granted last may be asked for other lengths, one after another, and some of
these requests are refused. A new block is measured by the gap before it and by the bytes behind the
cursor, and a block in place by the bytes behind its own start. Both measures grant the same lengths:

* `Region.accepts_iff`: a new block is granted where it ends within the memory;
* `Tail.step_grown_of_accepts`, `Tail.step_grown_of_refused`: and so is a length for the block that
  was placed there, with the same block and the same region as an answer (`Region.grown`);
* `resizes_eq_allocate`: so after any requests the handle and the region are those of one new block
  of the length granted last.
-/

namespace FrontEnd.Arena

/-- How a request reaches a region: as an operation of it, or through the allocator's interface. -/
inductive Entry where
  | region
  | interface
  deriving DecidableEq, Repr

namespace Entry

/-- A request for a new block. -/
def allocate : Entry → UInt64 → EStateM Fault Region (Except AllocError Block)
  | region, size => Region.allocate size
  | interface, size => Allocator.alloc size

/-- A request for another length of a block. -/
def resize : Entry → Block → UInt64 → EStateM Fault Region (Except AllocError Block)
  | region, b, size => Region.resize b size
  | interface, b, size => Allocator.resizeBlock b size

theorem allocate_eq (e : Entry) : e.allocate = Region.allocate := by
  cases e <;> rfl

theorem resize_eq (e : Entry) : e.resize = Region.resize := by
  cases e <;> rfl

end Entry

/-- A request for another length of the block in hand. -/
structure Ask where
  entry : Entry
  size : UInt64
  deriving DecidableEq, Repr

/-- A region, and the handle of the block that it granted last. -/
structure Tail where
  region : Region
  block : Block
  deriving DecidableEq, Repr

namespace Tail

/-- One request. The new handle replaces the one in hand where the length is granted. -/
def step (t : Tail) (a : Ask) : Answer × Tail :=
  match a.entry.resize t.block a.size t.region with
  | .ok (.ok b) r => (.block b, ⟨r, b⟩)
  | .ok (.error e) r => (.refused e, ⟨r, t.block⟩)
  | .error f r => (.fault f, ⟨r, t.block⟩)

/-- What is left after a list of requests. -/
def after (t : Tail) (asks : List Ask) : Tail := asks.foldl (fun t a => (t.step a).2) t

end Tail

namespace Region

/-- A request for a new block of `size` bytes is granted. -/
def accepts (r : Region) (size : UInt64) : Bool :=
  match allocate size r with
  | .ok (.ok _) _ => true
  | _ => false

/-- The last of the lengths asked for that a new block is granted, and `size` where none is. -/
def lastAccepted (r : Region) (size : UInt64) (asks : List Ask) : UInt64 :=
  ((asks.map (·.size)).filter r.accepts).getLast?.getD size

/-- The region with a new block of `size` bytes, and the handle of that block. -/
def grown (r : Region) (size : UInt64) : Tail where
  region := { r with
    cursor := .ofNat (firstAligned r.base.toNat r.cursor.toNat + size.toNat) }
  block := ⟨.ofNat (firstAligned r.base.toNat r.cursor.toNat), size⟩

variable {r : Region} {size : UInt64}

theorem accepts_eq_true_iff :
    r.accepts size = true ↔ ∃ b r', allocate size r = .ok (.ok b) r' := by
  rw [accepts]
  split
  case h_1 b r' heq => exact iff_of_true rfl ⟨b, r', heq⟩
  case h_2 hne => exact iff_of_false Bool.false_ne_true fun ⟨b, r', heq⟩ => hne b r' heq

/-- A granted request goes on with its own length, and a refused one with the length before it. -/
theorem lastAccepted_cons (r : Region) (size : UInt64) (a : Ask) (asks : List Ask) :
    r.lastAccepted size (a :: asks) =
      r.lastAccepted (if r.accepts a.size then a.size else size) asks := by
  simp only [lastAccepted, List.map_cons]
  cases h : r.accepts a.size with
  | true => rw [List.filter_cons_of_pos h, List.getLast?_cons, Option.getD_some, if_pos rfl]
  | false => rw [List.filter_cons_of_neg (by simp [h]), if_neg Bool.false_ne_true]

/-! ## A new block -/

theorem allocate_of_room (h : r.Valid) (hs : size ≠ 0)
    (hroom : firstAligned r.base.toNat r.cursor.toNat + size.toNat ≤ r.mem.length) :
    allocate size r = .ok (.ok (r.grown size).block) (r.grown size).region := by
  have hlt := h.base_add_length_lt
  have hplaced := placed_eq h size
  rw [if_neg hs, if_pos hroom] at hplaced
  have hfinish : (r.grown size).block.finish =
      firstAligned r.base.toNat r.cursor.toNat + size.toNat := by
    rw [grown, Block.finish, toNat_ofNat64 (by omega)]
  have hsettle := settle_ok (r := r) (show (r.grown size).block.finish < 2 ^ 64 by omega)
  rw [hfinish] at hsettle
  rw [allocate_eq_settle size hplaced]
  exact hsettle

theorem allocate_of_not_room (h : r.Valid) (hs : size ≠ 0)
    (hroom : ¬firstAligned r.base.toNat r.cursor.toNat + size.toNat ≤ r.mem.length) :
    allocate size r =
      .ok (.error (.outOfMemory size (.ofNat (r.mem.length - r.cursor.toNat)))) r := by
  have hplaced := placed_eq h size
  rw [if_neg hs, if_neg hroom] at hplaced
  exact allocate_eq_settle size hplaced

/-- A new block is granted where it has some bytes and ends within the memory. -/
theorem accepts_iff (h : r.Valid) :
    r.accepts size = true ↔
      size ≠ 0 ∧ firstAligned r.base.toNat r.cursor.toNat + size.toNat ≤ r.mem.length := by
  by_cases hs : size = 0
  · have hplaced := placed_eq h size
    rw [if_pos hs] at hplaced
    rw [accepts, allocate_eq_settle size hplaced]
    exact iff_of_false Bool.false_ne_true fun hroom => hroom.1 hs
  by_cases hroom : firstAligned r.base.toNat r.cursor.toNat + size.toNat ≤ r.mem.length
  · rw [accepts, allocate_of_room h hs hroom]
    exact iff_of_true rfl ⟨hs, hroom⟩
  · rw [accepts, allocate_of_not_room h hs hroom]
    exact iff_of_false Bool.false_ne_true fun hroom' => hroom hroom'.2

theorem allocate_of_accepts (h : r.Valid) (ha : r.accepts size = true) :
    allocate size r = .ok (.ok (r.grown size).block) (r.grown size).region := by
  obtain ⟨hs, hroom⟩ := (accepts_iff h).1 ha
  exact allocate_of_room h hs hroom

/-! ## The block in place -/

/-- Where a new block was placed, the region is valid and the block is its tail. -/
structure Placed (r : Region) (size : UInt64) : Prop where
  valid : (r.grown size).region.Valid
  toNat_offset : (r.grown size).block.offset.toNat = firstAligned r.base.toNat r.cursor.toNat
  finish_eq : (r.grown size).block.finish =
    firstAligned r.base.toNat r.cursor.toNat + size.toNat
  finish_lt : (r.grown size).block.finish < 2 ^ 64
  isTail : 0 < (r.grown size).block.len.toNat ∧
    (r.grown size).block.finish = (r.grown size).region.cursor.toNat

theorem placed_of_accepts (h : r.Valid) (ha : r.accepts size = true) : r.Placed size := by
  have hlt := h.base_add_length_lt
  obtain ⟨hs, hroom⟩ := (accepts_iff h).1 ha
  have hoffset : (r.grown size).block.offset.toNat =
      firstAligned r.base.toNat r.cursor.toNat := toNat_ofNat64 (by omega)
  have hcursor : (r.grown size).region.cursor.toNat =
      firstAligned r.base.toNat r.cursor.toNat + size.toNat := toNat_ofNat64 (by omega)
  have hfinish : (r.grown size).block.finish =
      firstAligned r.base.toNat r.cursor.toNat + size.toNat := by
    rw [Block.finish, hoffset]
    rfl
  refine ⟨⟨hlt, ?_⟩, hoffset, hfinish, by omega, toNat_pos_of_ne_zero hs, by rw [hfinish, hcursor]⟩
  rw [hcursor]
  exact hroom

/-- A length that a new block is granted is granted in place, with the block and the region of a new
block. -/
theorem resize_grown_of_accepts {n : UInt64} (h : r.Valid) (hn : r.accepts n = true)
    (ha : r.accepts size = true) :
    resize (r.grown n).block size (r.grown n).region =
      .ok (.ok (r.grown size).block) (r.grown size).region := by
  have hplaced := placed_of_accepts h hn
  have hgrown := placed_of_accepts h ha
  obtain ⟨hs, hroom⟩ := (accepts_iff h).1 ha
  have hresized := resized_eq hplaced.valid hplaced.finish_lt size
  rw [if_neg hs, if_neg (not_not_intro hplaced.isTail), hplaced.toNat_offset,
    if_pos (show _ ≤ (r.grown n).region.mem.length from hroom)] at hresized
  have hsettle := settle_ok (r := (r.grown n).region) hgrown.finish_lt
  rw [hgrown.finish_eq] at hsettle
  rw [resize_eq_settle _ size hresized]
  exact hsettle

/-- A length that no new block is granted is refused in place. -/
theorem exists_resize_grown_refused {n : UInt64} (h : r.Valid) (hn : r.accepts n = true)
    (ha : r.accepts size = false) :
    ∃ e, resize (r.grown n).block size (r.grown n).region = .ok (.error e) (r.grown n).region := by
  have hplaced := placed_of_accepts h hn
  have hresized := resized_eq hplaced.valid hplaced.finish_lt size
  by_cases hs : size = 0
  · rw [if_pos hs] at hresized
    exact ⟨_, resize_eq_settle _ size hresized⟩
  · have hroom : ¬ firstAligned r.base.toNat r.cursor.toNat + size.toNat ≤ r.mem.length :=
      fun hroom => Bool.false_ne_true (ha.symm.trans ((accepts_iff h).2 ⟨hs, hroom⟩))
    rw [if_neg hs, if_neg (not_not_intro hplaced.isTail), hplaced.toNat_offset,
      if_neg (show ¬ _ ≤ (r.grown n).region.mem.length from hroom)] at hresized
    exact ⟨_, resize_eq_settle _ size hresized⟩

end Region

/-! ## Runs -/

namespace Tail

variable {r : Region} {n : UInt64}

theorem step_grown_of_accepts (h : r.Valid) (hn : r.accepts n = true) {a : Ask}
    (ha : r.accepts a.size = true) :
    (r.grown n).step a = (.block (r.grown a.size).block, r.grown a.size) := by
  rw [step, Entry.resize_eq, Region.resize_grown_of_accepts h hn ha]

theorem step_grown_of_refused (h : r.Valid) (hn : r.accepts n = true) {a : Ask}
    (ha : r.accepts a.size = false) : ∃ e, (r.grown n).step a = (.refused e, r.grown n) := by
  obtain ⟨e, he⟩ := Region.exists_resize_grown_refused h hn ha
  exact ⟨e, by rw [step, Entry.resize_eq, he]⟩

/-- A length is granted in place where a new block of it is, and refused where none is. -/
theorem answer_step_grown (h : r.Valid) (hn : r.accepts n = true) (a : Ask) :
    ((∃ b, ((r.grown n).step a).1 = .block b) ↔ r.accepts a.size = true) ∧
      ((∃ e, ((r.grown n).step a).1 = .refused e) ↔ ¬ r.accepts a.size = true) := by
  cases ha : r.accepts a.size with
  | true =>
    rw [step_grown_of_accepts h hn ha]
    exact ⟨iff_of_true ⟨_, rfl⟩ rfl, iff_of_false (fun ⟨_, he⟩ => nomatch he) (not_not_intro rfl)⟩
  | false =>
    obtain ⟨e, he⟩ := step_grown_of_refused h hn ha
    rw [he]
    exact ⟨iff_of_false (fun ⟨_, hb⟩ => nomatch hb) Bool.false_ne_true,
      iff_of_true ⟨e, rfl⟩ Bool.false_ne_true⟩

/-- After any requests the block is as a new block of the length granted last. -/
theorem after_grown (h : r.Valid) (hn : r.accepts n = true) (asks : List Ask) :
    r.accepts (r.lastAccepted n asks) = true ∧
      (r.grown n).after asks = r.grown (r.lastAccepted n asks) := by
  induction asks generalizing n with
  | nil => exact ⟨hn, rfl⟩
  | cons a asks ih =>
    rw [Region.lastAccepted_cons, after, List.foldl_cons, ← after]
    cases ha : r.accepts a.size with
    | true =>
      rw [step_grown_of_accepts h hn ha, if_pos rfl]
      exact ih ha
    | false =>
      obtain ⟨e, he⟩ := step_grown_of_refused h hn ha
      rw [he, if_neg Bool.false_ne_true]
      exact ih hn

/-- Another length, granted or not, and then the one before it. -/
theorem after_grown_back (h : r.Valid) (hn : r.accepts n = true) (e e' : Entry) (m : UInt64) :
    (r.grown n).after [⟨e, m⟩, ⟨e', n⟩] = r.grown n := by
  rw [(after_grown h hn _).2, Region.lastAccepted_cons, Region.lastAccepted_cons]
  exact congrArg r.grown (if_pos hn)

end Tail

/-- A block that was just granted is asked for other lengths, by the region's operations or through
the allocator's interface. Each request is granted where, and only where, a new block of that length
was granted at the beginning, and is refused otherwise. The handle and the region are then those of
one new block of the length granted last, whichever lengths came before it; so to ask for a length
and then for the one before it changes nothing. -/
theorem resizes_eq_allocate {r r₁ : Region} (h : r.Valid) (first : Entry) {n : UInt64} {b : Block}
    (hfirst : first.allocate n r = .ok (.ok b) r₁) (asks : List Ask) :
    let t : Tail := (Tail.mk r₁ b).after asks
    (∀ a : Ask,
      ((∃ b', (t.step a).1 = .block b') ↔ ∃ b' r', a.entry.allocate a.size r = .ok (.ok b') r') ∧
      ((∃ e, (t.step a).1 = .refused e) ↔
        ¬ ∃ b' r', a.entry.allocate a.size r = .ok (.ok b') r')) ∧
    (∀ entry : Entry,
      entry.allocate (r.lastAccepted n asks) r = .ok (.ok t.block) t.region) ∧
    (∀ asks', r.lastAccepted n asks' = r.lastAccepted n asks →
      (Tail.mk r₁ b).after asks' = t) ∧
    ∀ e e' m, t.after [⟨e, m⟩, ⟨e', t.block.len⟩] = t := by
  intro t
  rw [Entry.allocate_eq] at hfirst
  have hn : r.accepts n = true := Region.accepts_eq_true_iff.2 ⟨b, r₁, hfirst⟩
  have hgrown : Tail.mk r₁ b = r.grown n := by
    rw [Region.allocate_of_accepts h hn] at hfirst
    obtain ⟨hb, hr⟩ := EStateM.Result.ok.inj hfirst
    rw [← hr, ← Except.ok.inj hb]
  obtain ⟨hlast, hafter⟩ := Tail.after_grown h hn asks
  have ht : t = r.grown (r.lastAccepted n asks) := by rw [← hafter, ← hgrown]
  rw [ht]
  refine ⟨fun a => ?_, fun entry => ?_, fun asks' hsame => ?_, Tail.after_grown_back h hlast⟩
  · rw [Entry.allocate_eq, ← Region.accepts_eq_true_iff]
    exact Tail.answer_step_grown h hlast a
  · rw [Entry.allocate_eq]
    exact Region.allocate_of_accepts h hlast
  · rw [hgrown, (Tail.after_grown h hn asks').2, hsame]

/-- From an address and a cursor that are no multiples of 8 a block grows up to the last byte, is
refused one byte more, and shrinks. -/
theorem resizes_eq_allocate_padded :
    let r : Region := ⟨3, .replicate 32 7, 2⟩
    let asks : List Ask := [⟨.region, 27⟩, ⟨.interface, 28⟩, ⟨.region, 1⟩, ⟨.interface, 0⟩,
      ⟨.region, 18446744073709551615⟩]
    let t : Tail := (Tail.mk ⟨3, .replicate 32 7, 9⟩ ⟨5, 4⟩).after asks
    r.Valid ∧ Entry.interface.allocate 4 r = .ok (.ok ⟨5, 4⟩) ⟨3, .replicate 32 7, 9⟩ ∧
      r.lastAccepted 4 asks = 1 ∧
      (Tail.mk ⟨3, .replicate 32 7, 9⟩ ⟨5, 4⟩).after [⟨.interface, 27⟩, ⟨.interface, 1⟩] = t ∧
      Entry.region.allocate 1 r = .ok (.ok t.block) t.region ∧
      t = ⟨⟨3, .replicate 32 7, 6⟩, ⟨5, 1⟩⟩ ∧
      ∃ e, (t.step ⟨.region, 28⟩).1 = .refused e := by
  intro r asks t
  have hvalid : r.Valid := ⟨by decide, by decide⟩
  have hfirst : Entry.interface.allocate 4 r = .ok (.ok ⟨5, 4⟩) ⟨3, .replicate 32 7, 9⟩ := by
    have hgrown : r.grown 4 = ⟨⟨3, .replicate 32 7, 9⟩, ⟨5, 4⟩⟩ := by decide +kernel
    have haccepted := Region.allocate_of_accepts hvalid (show r.accepts 4 = true by decide +kernel)
    rw [hgrown] at haccepted
    exact haccepted
  have hlast : r.lastAccepted 4 asks = 1 := by decide +kernel
  obtain ⟨hsteps, hafter, hpath, -⟩ := resizes_eq_allocate hvalid .interface hfirst asks
  have hone := hafter .region
  rw [hlast] at hone
  have hmore : ¬ ∃ b' r', Entry.region.allocate 28 r = .ok (.ok b') r' := by
    rw [Entry.allocate_eq, ← Region.accepts_eq_true_iff]
    decide +kernel
  exact ⟨hvalid, hfirst, hlast, hpath _ (by decide +kernel), hone, by decide +kernel,
    (hsteps ⟨.region, 28⟩).2.2 hmore⟩

end FrontEnd.Arena
