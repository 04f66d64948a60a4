import FrontEnd.Arena.Workspace
import FrontEnd.Proofs.Arena.Request

/-!
# Handles of any origin

The user of a workspace may pass any handle that one of its regions ever gave to any of them: a
handle from before a reset, one that was copied, one of a larger region. A handle need not lie within
the region that it is passed to, but it ends within the address space, and that is all that the
checks before each sum, difference and range ask for:

* `Region.answers_allocate`, `Region.answers_copy`, `Region.answers_resize`: a request for a block is
  refused, or is granted a block that ends at the cursor (`Region.Answers`);
* `Region.exists_write_eq`: a store is refused, or stays within the memory;
* `Workspace.Sound.safe`: so every operation answers and keeps the regions valid;
* `Workspace.faultless`: no run of a workspace faults.
-/

namespace FrontEnd.Arena

/-! ## Regions -/

namespace Region

/-- The block has some bytes and ends at the cursor, which lies within the memory. -/
structure Ends (r : Region) (b : Block) : Prop where
  len_pos : 0 < b.len.toNat
  stop_eq : b.stop = .ok r.cursor
  cursor_le : r.cursor.toNat ≤ r.mem.length

/-- What a request for a block answers: a refusal, or a block that ends at the cursor. -/
inductive Answers : EStateM.Result Fault Region (Except AllocError Block) → Prop where
  | refused (e : AllocError) {r : Region} (valid : r.Valid) : Answers (.ok (.error e) r)
  | granted {b : Block} {r : Region} (valid : r.Valid) (ends : r.Ends b) : Answers (.ok (.ok b) r)

variable {r : Region}

/-- A block that was placed within the memory. -/
theorem answers_granted (h : r.Valid) {b : Block} (hpos : 0 < b.len.toNat)
    (hfinish : b.finish ≤ r.mem.length) {mem : List UInt8} (hmem : mem.length = r.mem.length) :
    Answers (.ok (.ok b) ⟨r.base, mem, .ofNat b.finish⟩) := by
  have hlt := h.base_add_length_lt
  have hcur : (UInt64.ofNat b.finish).toNat = b.finish := toNat_ofNat64 (by omega)
  have hle : (UInt64.ofNat b.finish).toNat ≤ mem.length := by
    rw [hcur, hmem]
    exact hfinish
  refine .granted ⟨?_, hle⟩ ⟨hpos, stop_eq (by omega), hle⟩
  rw [hmem]
  exact hlt

theorem answers_allocate (h : r.Valid) (size : UInt64) : Answers (allocate size r) := by
  rcases allocate_cases h size with ⟨e, he⟩ | ⟨b, hb, ha⟩
  · rw [he]
    exact .refused e h
  · rw [ha]
    exact answers_granted h hb.len_pos hb.finish_le rfl

theorem answers_copy (h : r.Valid) {bytes : List UInt8} (hbytes : bytes.length < 2 ^ 64) :
    Answers (allocateCopy bytes r) := by
  rcases allocateCopy_cases h hbytes with ⟨e, he⟩ | ⟨b, hb, ha⟩
  · rw [he]
    exact .refused e h
  · have hle := hb.finish_le
    have hlen : bytes.length = b.len.toNat := by rw [hb.len_eq, toNat_ofNat64 hbytes]
    rw [ha]
    refine answers_granted h hb.len_pos hle (length_store ?_)
    rwa [hlen, ← Block.finish]

theorem answers_resize (h : r.Valid) {b : Block} (hb : b.finish < 2 ^ 64) (size : UInt64) :
    Answers (resize b size r) := by
  rcases resize_cases h hb size with ⟨e, he⟩ | ⟨-, -, hsize, hroom, hr⟩
  · rw [he]
    exact .refused e h
  · rw [hr]
    exact answers_granted h (b := ⟨b.offset, size⟩) hsize hroom rfl

/-- The allocator's interface asks for a new block, or for another length of one. -/
theorem answers_realloc (h : r.Valid) {existing : Option Block}
    (hb : ∀ b ∈ existing, b.finish < 2 ^ 64) (size : UInt64) :
    Answers (Allocator.realloc existing size r) := by
  cases existing with
  | none => exact answers_allocate h size
  | some b => exact answers_resize h (hb b rfl) size

/-- A store into a block that reaches past the cursor stores nothing, and another one stays within
the memory. -/
theorem exists_write_eq (h : r.Valid) {b : Block} (hb : b.finish < 2 ^ 64) (bytes : List UInt8) :
    ∃ count r', write b bytes r = .ok count r' ∧ r'.Valid := by
  by_cases hused : b.finish ≤ r.cursor.toNat
  · have hlt := h.base_add_length_lt
    have hle := h.cursor_le
    have hstored : (bytes.take b.len.toNat).length ≤ b.len.toNat := List.length_take_le _ _
    have hlength : (store r.mem b.offset.toNat (bytes.take b.len.toNat)).length = r.mem.length := by
      rw [Block.finish] at hused
      exact length_store (by omega)
    refine ⟨_, _, write_eq h hused bytes, ?_, ?_⟩
    · rw [hlength]
      exact hlt
    · rw [hlength]
      exact hle
  · have hget := get?_eq h hb
    rw [if_neg hused] at hget
    refine ⟨none, r, ?_, h⟩
    rw [write, get_bind, liftM_bind_of_ok hget]
    rfl

end Region

/-! ## Workspaces -/

/-- The bytes to copy fit the address space. -/
def Request.Fits : Request → Prop
  | .copy bytes => bytes.length < 2 ^ 64
  | _ => True

instance : DecidablePred Request.Fits
  | .copy bytes => inferInstanceAs (Decidable (bytes.length < 2 ^ 64))
  | .allocate _ | .resize _ | .alloc _ | .resizeBlock _ | .realloc _ | .reset | .duplicate _
  | .isTail | .get | .write _ => isTrue trivial

/-- The request asks a region for a block. -/
def Request.IsForBlock : Request → Prop
  | .allocate _ | .copy _ | .resize _ | .alloc _ | .resizeBlock _ | .realloc _ => True
  | .reset | .duplicate _ | .isTail | .get | .write _ => False

/-- The handle that an operation gives. -/
def Answer.block? : Answer → Option Block
  | .block b => some b
  | _ => none

namespace Workspace

/-- A workspace over `regions` that is reached, and the handles given on the way. Between two
operations its user may put any of these handles under any name, and so pass any of them to any
region. -/
inductive Reachable (regions : List Region) : Workspace → List Block → Prop where
  | start : Reachable regions (ofRegions regions) []
  | keep {w : Workspace} {given : List Block} (h : Reachable regions w given) (name : String)
      {b : Block} (hb : b ∈ given) : Reachable regions (w.keep name b) given
  | step {w : Workspace} {given : List Block} (h : Reachable regions w given) {op : Op}
      (hop : op.request.Fits) :
      Reachable regions (w.step op).workspace ((w.step op).answer.block?.toList ++ given)

/-- The regions are valid, and the handles given and kept end within the address space. -/
structure Sound (w : Workspace) (given : List Block) : Prop where
  valid : ∀ r ∈ w.regions, r.Valid
  given_bounds : ∀ b ∈ given, 0 < b.len.toNat ∧ b.finish < 2 ^ 64
  handles_mem : ∀ e ∈ w.handles, e.2 ∈ given

/-- An operation answers without a fault, with a block that ends at the cursor where it asks a
region for one, and leaves a sound workspace. -/
structure Safe (given : List Block) (op : Op) (s : Step) : Prop where
  ne_fault : ∀ f, s.answer ≠ .fault f
  ends : op.request.IsForBlock → ∀ b, s.answer = .block b →
    ∃ r, s.workspace.regions[op.region]? = some r ∧ r.Ends b
  sound : s.workspace.Sound (s.answer.block?.toList ++ given)

variable {w : Workspace} {given : List Block} {op : Op} {r : Region}

namespace Sound

theorem of_handle? (h : w.Sound given) {name : String} {b : Block} (hb : w.handle? name = some b) :
    b ∈ given := by
  obtain ⟨before, behind, heq, -⟩ := List.lookup_eq_some_iff.1 hb
  refine h.handles_mem (name, b) ?_
  rw [heq]
  exact List.mem_append_right _ List.mem_cons_self

theorem keep (h : w.Sound given) (name : String) {b : Block} (hb : b ∈ given) :
    (w.keep name b).Sound given where
  valid := h.valid
  given_bounds := h.given_bounds
  handles_mem := by
    refine List.forall_mem_cons.2 ⟨hb, fun e he => ?_⟩
    exact h.handles_mem e (List.mem_filter.1 he).1

theorem setRegion (h : w.Sound given) (i : Nat) (hr : r.Valid) : (w.setRegion i r).Sound given where
  valid r' hr' := by
    rcases List.mem_or_eq_of_mem_set hr' with hmem | rfl
    · exact h.valid r' hmem
    · exact hr
  given_bounds := h.given_bounds
  handles_mem := h.handles_mem

/-- A handle is given. -/
theorem give (h : w.Sound given) {b : Block} (hpos : 0 < b.len.toNat) (hb : b.finish < 2 ^ 64) :
    w.Sound (b :: given) where
  valid := h.valid
  given_bounds := List.forall_mem_cons.2 ⟨⟨hpos, hb⟩, h.given_bounds⟩
  handles_mem e he := List.mem_cons_of_mem b (h.handles_mem e he)

/-- An operation that gives no handle. -/
theorem safe_of_block?_eq_none (h : w.Sound given) {answer : Answer} (calls : List Call)
    (hfault : ∀ f, answer ≠ .fault f) (hblock : answer.block? = none) :
    Safe given op ⟨answer, calls, w⟩ where
  ne_fault := hfault
  ends _ b hb := by
    rw [show answer = .block b from hb] at hblock
    cases hblock
  sound := by
    rw [hblock]
    exact h

/-- A request for a block, by what the region answers. -/
theorem safe_grant (h : w.Sound given) (hlt : op.region < w.regions.length)
    {result : EStateM.Result Fault Region (Except AllocError Block)}
    (hresult : Region.Answers result) : Safe given op (w.grant op result) := by
  cases hresult with
  | refused e hvalid =>
    exact (h.setRegion op.region hvalid).safe_of_block?_eq_none [] (fun _ => nofun) rfl
  | @granted b r hvalid hends =>
    have hfinish : b.finish < 2 ^ 64 := by
      have hstop := Word.add64_eq_ok.1 hends.stop_eq
      have hcur := r.cursor.toNat_lt
      rw [Block.finish]
      omega
    refine ⟨fun _ hf => ?_, fun _ b' hb' => ?_, ?_⟩
    · cases hf
    · obtain rfl := Answer.block.inj hb'
      exact ⟨r, List.getElem?_set_self hlt, hends⟩
    · exact ((h.setRegion op.region hvalid).give hends.len_pos hfinish).keep op.handle
        List.mem_cons_self

theorem safe_grantRecorded (h : w.Sound given) (hlt : op.region < w.regions.length) (hr : r.Valid)
    {existing : Option Block} (hb : ∀ b ∈ existing, b ∈ given) (size : UInt64) :
    Safe given op
      (w.grantRecorded op (Allocator.realloc existing size (⟨r, []⟩ : Recorder Region))) := by
  have hanswers := Region.answers_realloc hr (fun b hmem => (h.given_bounds b (hb b hmem)).2) size
  have hsafe := h.safe_grant hlt hanswers
  rw [Recorder.realloc_eq]
  cases hresult : Allocator.realloc existing size r with
  | ok granted r' =>
    rw [hresult] at hsafe
    exact ⟨hsafe.ne_fault, hsafe.ends, hsafe.sound⟩
  | error f r' =>
    rw [hresult] at hsafe
    exact absurd rfl (hsafe.ne_fault f)

/-- A request about the block kept under a name, where there is one. -/
theorem safe_onHandle (h : w.Sound given) {step : Block → Step}
    (hstep : ∀ b ∈ given, Safe given op (step b)) : Safe given op (w.onHandle op step) := by
  rw [onHandle]
  cases hb : w.handle? op.handle with
  | none => exact h.safe_of_block?_eq_none [] (fun _ => nofun) rfl
  | some b => exact hstep b (h.of_handle? hb)

/-- Every operation on a region of a sound workspace is safe. -/
theorem safe_stepOn (h : w.Sound given) (hr : w.regions[op.region]? = some r)
    (hop : op.request.Fits) : Safe given op (w.stepOn op r) := by
  have hvalid : r.Valid := h.valid r (List.mem_of_getElem? hr)
  have hlt : op.region < w.regions.length := (List.getElem?_eq_some_iff.1 hr).1
  cases hrequest : op.request with
  | allocate size =>
    simp only [stepOn, hrequest]
    exact h.safe_grant hlt (Region.answers_allocate hvalid size)
  | copy bytes =>
    simp only [stepOn, hrequest]
    rw [hrequest] at hop
    exact h.safe_grant hlt (Region.answers_copy hvalid hop)
  | resize size =>
    simp only [stepOn, hrequest]
    exact h.safe_onHandle fun b hb =>
      h.safe_grant hlt (Region.answers_resize hvalid (h.given_bounds b hb).2 size)
  | alloc size =>
    simp only [stepOn, hrequest]
    exact h.safe_grantRecorded hlt hvalid (fun b hb => absurd hb (Option.not_mem_none b)) size
  | resizeBlock size =>
    simp only [stepOn, hrequest]
    exact h.safe_onHandle fun b hb =>
      h.safe_grantRecorded hlt hvalid (fun b' hb' => Option.some.inj hb' ▸ hb) size
  | realloc size =>
    simp only [stepOn, hrequest]
    exact h.safe_grantRecorded hlt hvalid (fun b hb => h.of_handle? hb) size
  | reset =>
    simp only [stepOn, hrequest]
    have hreset : r.reset.Valid := ⟨hvalid.base_add_length_lt, Nat.zero_le _⟩
    exact (h.setRegion op.region hreset).safe_of_block?_eq_none [] (fun _ => nofun) rfl
  | duplicate name =>
    simp only [stepOn, hrequest]
    refine h.safe_onHandle fun b hb => ⟨fun _ => nofun, ?_, ?_⟩
    · rw [hrequest]
      exact False.elim
    · obtain ⟨hpos, hfinish⟩ := h.given_bounds b hb
      exact (h.give hpos hfinish).keep name List.mem_cons_self
  | isTail =>
    simp only [stepOn, hrequest]
    refine h.safe_onHandle fun b hb => ?_
    rw [Region.isTail_eq (h.given_bounds b hb).2]
    exact h.safe_of_block?_eq_none [] (fun _ => nofun) rfl
  | get =>
    simp only [stepOn, hrequest]
    refine h.safe_onHandle fun b hb => ?_
    rw [Region.get?_eq hvalid (h.given_bounds b hb).2]
    exact h.safe_of_block?_eq_none [] (fun _ => nofun) rfl
  | write bytes =>
    simp only [stepOn, hrequest]
    refine h.safe_onHandle fun b hb => ?_
    obtain ⟨count, r', hwrite, hr'⟩ :=
      Region.exists_write_eq hvalid (h.given_bounds b hb).2 bytes
    rw [hwrite]
    exact (h.setRegion op.region hr').safe_of_block?_eq_none [] (fun _ => nofun) rfl

/-- Every operation of a sound workspace is safe. -/
theorem safe (h : w.Sound given) {op : Op} (hop : op.request.Fits) : Safe given op (w.step op) := by
  rw [step]
  cases hr : w.regions[op.region]? with
  | none => exact h.safe_of_block?_eq_none [] (fun _ => nofun) rfl
  | some r => exact h.safe_stepOn hr hop

end Sound

theorem Reachable.sound {regions : List Region} (hregions : ∀ r ∈ regions, r.Valid)
    (h : Reachable regions w given) : w.Sound given := by
  induction h with
  | start =>
    exact ⟨hregions, fun _ hb => absurd hb List.not_mem_nil,
      fun _ he => absurd he List.not_mem_nil⟩
  | keep _ name hb ih => exact ih.keep name hb
  | step _ hop ih => exact (ih.safe hop).sound

/-- The workspace after a list of operations is one that is reached. -/
theorem exists_reachable_after {regions : List Region} {ops : List Op}
    (hops : ∀ op ∈ ops, op.request.Fits) :
    ∃ given, Reachable regions ((ofRegions regions).after ops) given := by
  suffices h : ∀ w given, Reachable regions w given →
      ∃ given', Reachable regions (w.after ops) given' from h _ _ .start
  intro w given hw
  induction ops generalizing w given with
  | nil => exact ⟨given, hw⟩
  | cons op ops ih =>
    obtain ⟨hop, hops⟩ := List.forall_mem_cons.1 hops
    exact ih hops _ _ (hw.step hop)

/-- However the handles given by some regions are passed among them, no operation faults, every
cursor stays within its memory, and every block given has some bytes and ends at the cursor. -/
theorem faultless (regions : List Region) (hregions : ∀ r ∈ regions, r.Valid) :
    (∀ w given, Reachable regions w given →
      (∀ r ∈ w.regions, r.cursor.toNat ≤ r.mem.length ∧ ∃ n, r.remaining = .ok n) ∧
      (∀ b ∈ given, 0 < b.len.toNat ∧ ∃ n, b.stop = .ok n) ∧
      ∀ op : Op, op.request.Fits → (∀ f, (w.step op).answer ≠ .fault f) ∧
        (op.request.IsForBlock → ∀ b, (w.step op).answer = .block b →
          ∃ r, (w.step op).workspace.regions[op.region]? = some r ∧ r.Ends b)) ∧
    ∀ ops : List Op, (∀ op ∈ ops, op.request.Fits) →
      ∃ given, Reachable regions ((ofRegions regions).after ops) given := by
  refine ⟨fun w given hw => ?_, fun ops hops => exists_reachable_after hops⟩
  have hsound := hw.sound hregions
  refine ⟨fun r hr => ?_, fun b hb => ?_, fun op hop => ?_⟩
  · have hvalid := hsound.valid r hr
    exact ⟨hvalid.cursor_le, _, Region.remaining_eq hvalid⟩
  · obtain ⟨hpos, hfinish⟩ := hsound.given_bounds b hb
    exact ⟨hpos, _, Region.stop_eq hfinish⟩
  · have hsafe := hsound.safe hop
    exact ⟨hsafe.ne_fault, hsafe.ends⟩

/-- A block of the larger region is copied, resized, and kept past a reset, and both handles are
passed to the smaller region, in which they do not lie. -/
theorem faultless_foreign :
    let regions : List Region := [.zeros 3 48, .zeros 0 16]
    let ops : List Op := [⟨0, "a", .allocate 24⟩, ⟨0, "a", .duplicate "old"⟩,
      ⟨0, "a", .resizeBlock 40⟩, ⟨1, "b", .copy [1, 2, 3]⟩, ⟨1, "a", .write [9]⟩,
      ⟨1, "old", .get⟩, ⟨0, "a", .reset⟩, ⟨0, "b", .isTail⟩]
    let w := (ofRegions regions).after ops
    (∀ r ∈ regions, r.Valid) ∧ (∀ op ∈ ops, op.request.Fits) ∧
      (w.step ⟨1, "old", .resize 18446744073709551615⟩).answer = .refused (.notTail 5) ∧
      (∀ f, (w.step ⟨1, "old", .resize 18446744073709551615⟩).answer ≠ .fault f) ∧
      (w.step ⟨1, "a", .alloc 8⟩).answer = .block ⟨8, 8⟩ ∧
      ∃ r, (w.step ⟨1, "a", .alloc 8⟩).workspace.regions[1]? = some r ∧ r.Ends ⟨8, 8⟩ := by
  intro regions ops w
  have hregions : ∀ r ∈ regions, r.Valid :=
    List.forall_mem_cons.2 ⟨⟨by decide, by decide⟩,
      List.forall_mem_cons.2 ⟨⟨by decide, by decide⟩, fun _ hr => absurd hr List.not_mem_nil⟩⟩
  have hops : ∀ op ∈ ops, op.request.Fits := by decide
  obtain ⟨hreached, hafter⟩ := faultless regions hregions
  obtain ⟨given, hw⟩ := hafter ops hops
  obtain ⟨-, -, hsteps⟩ := hreached w given hw
  have hblock : (w.step ⟨1, "a", .alloc 8⟩).answer = .block ⟨8, 8⟩ := by decide +kernel
  exact ⟨hregions, hops, by decide +kernel,
    (hsteps ⟨1, "old", .resize 18446744073709551615⟩ trivial).1, hblock,
    (hsteps ⟨1, "a", .alloc 8⟩ trivial).2 trivial _ hblock⟩

end Workspace

end FrontEnd.Arena
