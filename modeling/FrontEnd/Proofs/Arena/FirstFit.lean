import FrontEnd.Proofs.Arena.Regrowth

/-!
# First fit

Where a new block goes, over unbounded numbers and apart from how it is computed. Some bytes fit at
an offset (`Region.Fits`) when it is one of the free offsets, its address is aligned, and the bytes
end within the memory. A region measures the gap before the block and the bytes behind its cursor, in
words; this refuses nothing that fits, and grants nothing that does not:

* `Region.exists_fits_iff`: bytes fit somewhere only if they fit at the first aligned offset;
* `Region.allocate_of_isLeast_fits`, `Region.allocate_of_not_fits`: what a request is answered;
* `Region.allocate_first_fit`: a request is granted the least offset at which it fits, and is refused
  for want of memory only where there is none.
-/

namespace FrontEnd.Arena.Region

/-- `size` bytes fit at offset `o`. -/
structure Fits (r : Region) (size : UInt64) (o : Nat) : Prop where
  cursor_le : r.cursor.toNat ≤ o
  aligned : alignment.toNat ∣ r.base.toNat + o
  finish_le : o + size.toNat ≤ r.mem.length

variable {r : Region} {size : UInt64}

/-- Bytes that fit at some offset fit at the first aligned one. -/
theorem exists_fits_iff :
    (∃ o, r.Fits size o) ↔
      firstAligned r.base.toNat r.cursor.toNat + size.toNat ≤ r.mem.length := by
  obtain ⟨⟨hcursor, haligned⟩, hleast⟩ := isLeast_firstAligned r.base.toNat r.cursor.toNat
  constructor
  · rintro ⟨o, ho⟩
    have hfirst := hleast ⟨ho.cursor_le, ho.aligned⟩
    have hfinish := ho.finish_le
    omega
  · exact fun hroom => ⟨_, hcursor, haligned, hroom⟩

/-- The least offset at which bytes fit is the first aligned one. -/
theorem isLeast_fits_iff {o : Nat} :
    IsLeast {o | r.Fits size o} o ↔
      o = firstAligned r.base.toNat r.cursor.toNat ∧ o + size.toNat ≤ r.mem.length := by
  obtain ⟨hfirst, hleast⟩ := isLeast_firstAligned r.base.toNat r.cursor.toNat
  constructor
  · intro ho
    have hroom := exists_fits_iff.1 ⟨o, ho.1⟩
    have hle := ho.2 ⟨hfirst.1, hfirst.2, hroom⟩
    exact ⟨Nat.le_antisymm hle (hleast ⟨ho.1.cursor_le, ho.1.aligned⟩), ho.1.finish_le⟩
  · rintro ⟨rfl, hroom⟩
    exact ⟨⟨hfirst.1, hfirst.2, hroom⟩, fun o ho => hleast ⟨ho.cursor_le, ho.aligned⟩⟩

/-- A request that fits is granted the least offset at which it does. -/
theorem allocate_of_isLeast_fits (h : r.Valid) (hs : size ≠ 0) {o : Nat}
    (ho : IsLeast {o | r.Fits size o} o) :
    ∃ b r', allocate size r = .ok (.ok b) r' ∧ b.offset.toNat = o ∧ b.len = size ∧
      r'.base = r.base ∧ r'.mem = r.mem ∧ r'.cursor.toNat = o + size.toNat := by
  have hlt := h.base_add_length_lt
  obtain ⟨rfl, hroom⟩ := isLeast_fits_iff.1 ho
  exact ⟨_, _, allocate_of_room h hs hroom, toNat_ofNat64 (by omega), rfl, rfl, rfl,
    toNat_ofNat64 (by omega)⟩

/-- A request that fits nowhere is refused, and told how many bytes are free. -/
theorem allocate_of_not_fits (h : r.Valid) (hs : size ≠ 0) (hfits : ¬∃ o, r.Fits size o) :
    ∃ free : UInt64, free.toNat = r.mem.length - r.cursor.toNat ∧
      allocate size r = .ok (.error (.outOfMemory size free)) r := by
  have hlt := h.base_add_length_lt
  exact ⟨_, toNat_ofNat64 (by omega), allocate_of_not_room h hs (mt exists_fits_iff.2 hfits)⟩

/-- A request for some bytes is granted where they fit at some offset, at the least such offset, and
is refused for want of memory otherwise. So the last bytes of the memory are granted, with or without
a gap before them, and never more bytes than are free. -/
theorem allocate_first_fit (h : r.Valid) (hs : size ≠ 0) :
    ((∃ b r', allocate size r = .ok (.ok b) r') ↔ ∃ o, r.Fits size o) ∧
    (∀ o, IsLeast {o | r.Fits size o} o →
      ∃ b r', allocate size r = .ok (.ok b) r' ∧ b.offset.toNat = o ∧ b.len = size ∧
        r'.base = r.base ∧ r'.mem = r.mem ∧ r'.cursor.toNat = o + size.toNat) ∧
    ((¬∃ b r', allocate size r = .ok (.ok b) r') →
      ∃ free : UInt64, free.toNat = r.mem.length - r.cursor.toNat ∧
        allocate size r = .ok (.error (.outOfMemory size free)) r) ∧
    (∀ o, IsLeast {o | r.Fits size o} o → o + size.toNat = r.mem.length →
      ∃ b r', allocate size r = .ok (.ok b) r' ∧ r'.cursor = r.capacity) ∧
    (r.mem.length - r.cursor.toNat < size.toNat →
      ∃ free : UInt64, free < size ∧ allocate size r = .ok (.error (.outOfMemory size free)) r) := by
  have hgranted : (∃ b r', allocate size r = .ok (.ok b) r') ↔ ∃ o, r.Fits size o := by
    rw [← accepts_eq_true_iff, accepts_iff h, exists_fits_iff]
    exact and_iff_right hs
  have hleast := fun o ho => allocate_of_isLeast_fits (o := o) h hs ho
  refine ⟨hgranted, hleast, fun hnot => ?_, fun o ho hexact => ?_, fun hmore => ?_⟩
  · exact allocate_of_not_fits h hs (mt hgranted.2 hnot)
  · obtain ⟨b, r', hallocate, -, -, -, -, hcursor⟩ := hleast o ho
    refine ⟨b, r', hallocate, UInt64.toNat_inj.1 ?_⟩
    rw [hcursor, hexact, h.toNat_capacity]
  · have hnot : ¬∃ o, r.Fits size o := fun ⟨o, ho⟩ => by
      have hcursor := ho.cursor_le
      have hfinish := ho.finish_le
      omega
    obtain ⟨free, hfree, hallocate⟩ := allocate_of_not_fits h hs hnot
    exact ⟨free, by rw [UInt64.lt_iff_toNat_lt, hfree]; exact hmore, hallocate⟩

/-- From an address and a cursor that are no multiples of 8, with 30 bytes free: behind a gap of 3
bytes the last 27 are granted, and 28 fit nowhere. The largest size would leave its word with the
gap. -/
theorem allocate_first_fit_last :
    let r : Region := ⟨3, .replicate 32 7, 2⟩
    r.Valid ∧ IsLeast {o | r.Fits 27 o} 5 ∧
      (∃ b r', allocate 27 r = .ok (.ok b) r' ∧ b.offset.toNat = 5 ∧ r'.cursor.toNat = 32) ∧
      (¬∃ b r', allocate 28 r = .ok (.ok b) r') ∧
      (∃ free : UInt64, free.toNat = 30 ∧
        allocate 28 r = .ok (.error (.outOfMemory 28 free)) r) ∧
      ∃ free : UInt64, allocate 18446744073709551615 r =
        .ok (.error (.outOfMemory 18446744073709551615 free)) r := by
  intro r
  have hvalid : r.Valid := ⟨by decide, by decide⟩
  have hleast : IsLeast {o | r.Fits 27 o} 5 := isLeast_fits_iff.2 ⟨by decide, by decide⟩
  obtain ⟨-, hgranted, -⟩ := allocate_first_fit hvalid (show (27 : UInt64) ≠ 0 by decide)
  obtain ⟨b, r', hallocate, hoffset, -, -, -, hcursor⟩ := hgranted 5 hleast
  obtain ⟨hiff, -, hrefused, -⟩ := allocate_first_fit hvalid (show (28 : UInt64) ≠ 0 by decide)
  have hnot : ¬∃ b r', allocate 28 r = .ok (.ok b) r' :=
    mt hiff.1 (mt exists_fits_iff.1 (by decide))
  obtain ⟨-, -, -, -, hmore⟩ :=
    allocate_first_fit hvalid (show (18446744073709551615 : UInt64) ≠ 0 by decide)
  obtain ⟨free, -, hlargest⟩ := hmore (by decide)
  exact ⟨hvalid, hleast, ⟨b, r', hallocate, hoffset, hcursor⟩, hnot, hrefused hnot, free, hlargest⟩

end FrontEnd.Arena.Region
