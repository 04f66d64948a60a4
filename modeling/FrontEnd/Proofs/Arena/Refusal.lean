import FrontEnd.Arena.Workspace

/-!
# Refused requests

A request that is refused has no effect, whatever the regions and the handles are: it need not pass
a handle that its region gave, nor one that lies within the memory. Every check of a request comes
before its first change:

* `Region.allocate_spares`, `Region.allocateCopy_spares`, `Region.resize_spares`: a region that
  refuses is as it was (`Region.Spares`);
* `Workspace.workspace_use_of_refused`: so are all regions and all handles of a workspace;
* `Workspace.trace_filter_refused`: so the refused requests of a run can be left out.
-/

namespace FrontEnd.Arena

/-! ## Regions -/

namespace Region

/-- Where the request is refused, it leaves the region `r`. -/
def Spares (r : Region) (result : EStateM.Result Fault Region (Except AllocError Block)) : Prop :=
  ∀ e r', result = .ok (.error e) r' → r' = r

variable {r : Region}

theorem settle_spares (granted : Except AllocError Block) : r.Spares (settle granted r) := by
  intro e r' h
  cases granted with
  | error e' => exact (EStateM.Result.ok.inj h).2.symm
  | ok b =>
    -- A block that was granted is the answer, or its end is a fault.
    obtain ⟨_, _, _, h⟩ := bind_eq_ok_iff.1 h
    cases (pure_eq_ok_iff.1 h).1

theorem allocate_spares (size : UInt64) : r.Spares (allocate size r) := by
  intro e r' h
  obtain ⟨_, _, hget, h⟩ := bind_eq_ok_iff.1 h
  obtain ⟨rfl, rfl⟩ := get_eq_ok_iff.1 hget
  obtain ⟨granted, _, hplaced, h⟩ := bind_eq_ok_iff.1 h
  obtain ⟨-, rfl⟩ := liftM_eq_ok_iff.1 hplaced
  exact settle_spares granted e r' h

theorem resize_spares (b : Block) (size : UInt64) : r.Spares (resize b size r) := by
  intro e r' h
  obtain ⟨_, _, hget, h⟩ := bind_eq_ok_iff.1 h
  obtain ⟨rfl, rfl⟩ := get_eq_ok_iff.1 hget
  obtain ⟨granted, _, hresized, h⟩ := bind_eq_ok_iff.1 h
  obtain ⟨-, rfl⟩ := liftM_eq_ok_iff.1 hresized
  exact settle_spares granted e r' h

/-- Nothing is copied for a refused block. -/
theorem allocateCopy_spares (bytes : List UInt8) : r.Spares (allocateCopy bytes r) := by
  intro e r' h
  obtain ⟨granted, r₁, hallocate, h⟩ := bind_eq_ok_iff.1 h
  cases granted with
  | error e' =>
    obtain ⟨-, rfl⟩ := pure_eq_ok_iff.1 h
    exact allocate_spares _ e' r₁ hallocate
  | ok b =>
    obtain ⟨_, _, _, h⟩ := bind_eq_ok_iff.1 h
    cases (pure_eq_ok_iff.1 h).1

/-- The allocator's interface asks for a new block, or for another length of one. -/
theorem realloc_spares (existing : Option Block) (size : UInt64) :
    r.Spares (Allocator.realloc existing size r) := by
  cases existing with
  | none => exact allocate_spares size
  | some b => exact resize_spares b size

end Region

/-! ## Workspaces -/

/-- The answer refuses a request. -/
def Answer.isRefused : Answer → Bool
  | .refused _ => true
  | _ => false

namespace Workspace

/-- What the user of a workspace does. -/
inductive Use where
  | op (op : Op)
  /-- Stores bytes in the block of a handle, from its byte `i` on. -/
  | writeAt (region : Nat) (handle : String) (i : Nat) (bytes : List UInt8)
  /-- Puts a handle, whatever its origin, under a name. -/
  | keep (name : String) (b : Block)
  deriving DecidableEq, Repr

/-- One use. -/
def use (w : Workspace) : Use → Step
  | .op op => w.step op
  | .writeAt region handle i bytes =>
    let op : Op := ⟨region, handle, .write bytes⟩
    match w.regions[region]? with
    | none => ⟨.noRegion, [], w⟩
    | some r => w.onHandle op fun b => w.stored op (Region.writeAt b i bytes r)
  | .keep name b => ⟨.done, [], w.keep name b⟩

/-- The uses of a run, each with its answer and the workspace that it leaves. -/
def trace (w : Workspace) : List Use → List (Use × Step)
  | [] => []
  | u :: us => (u, w.use u) :: trace (w.use u).workspace us

/-- The workspace after a list of uses. -/
def afterUses (w : Workspace) (us : List Use) : Workspace :=
  us.foldl (fun w u => (w.use u).workspace) w

/-- The uses of a run that are not refused. -/
def unrefused (w : Workspace) (us : List Use) : List Use :=
  ((w.trace us).filter (!·.2.answer.isRefused)).map (·.1)

variable {w : Workspace} {op : Op} {r : Region}

/-- Where the step is refused, it leaves the workspace `w`. -/
def Spares (w : Workspace) (s : Step) : Prop := s.answer.isRefused = true → s.workspace = w

theorem setRegion_self (hr : w.regions[op.region]? = some r) : w.setRegion op.region r = w := by
  obtain ⟨hlt, hget⟩ := List.getElem?_eq_some_iff.1 hr
  rw [setRegion, ← hget, List.set_getElem_self hlt]

theorem spares_of_not_refused {s : Step} (h : s.answer.isRefused = false) : w.Spares s := by
  intro hrefused
  rw [h] at hrefused
  cases hrefused

theorem grant_spares (hr : w.regions[op.region]? = some r)
    {result : EStateM.Result Fault Region (Except AllocError Block)} (h : r.Spares result) :
    w.Spares (w.grant op result) := by
  match result, h with
  | .ok (.ok b) r', _ => exact spares_of_not_refused rfl
  | .error f r', _ => exact spares_of_not_refused rfl
  | .ok (.error e) r', h =>
    intro _
    obtain rfl := h e r' rfl
    exact setRegion_self hr

/-- A recorder notes the request, and leaves the region as the request does. -/
theorem grantRecorded_spares (hr : w.regions[op.region]? = some r) (existing : Option Block)
    (size : UInt64) :
    w.Spares (w.grantRecorded op
      (Allocator.realloc existing size (⟨r, []⟩ : Recorder Region))) := by
  have hspares := grant_spares hr (r.realloc_spares existing size)
  rw [Recorder.realloc_eq]
  cases hresult : Allocator.realloc existing size r with
  | ok granted r' =>
    rw [hresult] at hspares
    exact hspares
  | error f r' => exact spares_of_not_refused rfl

theorem stored_spares (result : EStateM.Result Fault Region (Option Nat)) :
    w.Spares (w.stored op result) := by
  cases result <;> exact spares_of_not_refused rfl

theorem ask_spares {α : Type} (result : Except Fault α) {answer : α → Answer}
    (h : ∀ a, (answer a).isRefused = false) : w.Spares (w.ask result answer) := by
  cases result with
  | ok a => exact spares_of_not_refused (h a)
  | error f => exact spares_of_not_refused rfl

theorem onHandle_spares {step : Block → Step} (h : ∀ b, w.Spares (step b)) :
    w.Spares (w.onHandle op step) := by
  rw [onHandle]
  cases w.handle? op.handle with
  | none => exact spares_of_not_refused rfl
  | some b => exact h b

theorem stepOn_spares (hr : w.regions[op.region]? = some r) : w.Spares (w.stepOn op r) := by
  cases hrequest : op.request with
  | allocate size =>
    simp only [stepOn, hrequest]
    exact grant_spares hr (r.allocate_spares size)
  | copy bytes =>
    simp only [stepOn, hrequest]
    exact grant_spares hr (r.allocateCopy_spares bytes)
  | resize size =>
    simp only [stepOn, hrequest]
    exact onHandle_spares fun b => grant_spares hr (r.resize_spares b size)
  | alloc size =>
    simp only [stepOn, hrequest]
    exact grantRecorded_spares hr none size
  | resizeBlock size =>
    simp only [stepOn, hrequest]
    exact onHandle_spares fun b => grantRecorded_spares hr (some b) size
  | realloc size =>
    simp only [stepOn, hrequest]
    exact grantRecorded_spares hr (w.handle? op.handle) size
  | reset =>
    simp only [stepOn, hrequest]
    exact spares_of_not_refused rfl
  | duplicate name =>
    simp only [stepOn, hrequest]
    exact onHandle_spares fun b => spares_of_not_refused rfl
  | isTail =>
    simp only [stepOn, hrequest]
    exact onHandle_spares fun b => ask_spares _ fun _ => rfl
  | get =>
    simp only [stepOn, hrequest]
    exact onHandle_spares fun b => ask_spares _ fun _ => rfl
  | write bytes =>
    simp only [stepOn, hrequest]
    exact onHandle_spares fun b => stored_spares _

theorem step_spares (w : Workspace) (op : Op) : w.Spares (w.step op) := by
  rw [step]
  cases hr : w.regions[op.region]? with
  | none => exact spares_of_not_refused rfl
  | some r => exact stepOn_spares hr

/-- A refused use leaves every region and every handle as they were. -/
theorem workspace_use_of_refused (w : Workspace) (u : Use)
    (h : (w.use u).answer.isRefused = true) : (w.use u).workspace = w := by
  suffices hspares : w.Spares (w.use u) from hspares h
  cases u with
  | op op => exact w.step_spares op
  | writeAt region handle i bytes =>
    rw [use]
    cases w.regions[region]? with
    | none => exact spares_of_not_refused rfl
    | some r => exact onHandle_spares fun b => stored_spares _
  | keep name b => exact spares_of_not_refused rfl

/-! ## Runs -/

theorem unrefused_cons_of_refused {u : Use} (us : List Use)
    (h : (w.use u).answer.isRefused = true) : w.unrefused (u :: us) = w.unrefused us := by
  simp only [unrefused, trace, List.filter_cons, h, Bool.not_true, Bool.false_eq_true, if_false,
    workspace_use_of_refused w u h]

theorem unrefused_cons_of_not_refused {u : Use} (us : List Use)
    (h : (w.use u).answer.isRefused = false) :
    w.unrefused (u :: us) = u :: (w.use u).workspace.unrefused us := by
  simp only [unrefused, trace, List.filter_cons, h, Bool.not_false, if_true, List.map_cons]

theorem trace_unrefused (w : Workspace) (us : List Use) :
    w.trace (w.unrefused us) = (w.trace us).filter (!·.2.answer.isRefused) := by
  induction us generalizing w with
  | nil => rfl
  | cons u us ih =>
    cases h : (w.use u).answer.isRefused with
    | true =>
      rw [unrefused_cons_of_refused us h, ih, trace, workspace_use_of_refused w u h,
        List.filter_cons_of_neg (by simp [h])]
    | false =>
      rw [unrefused_cons_of_not_refused us h, trace, ih, trace,
        List.filter_cons_of_pos (by simp [h])]

theorem afterUses_unrefused (w : Workspace) (us : List Use) :
    w.afterUses (w.unrefused us) = w.afterUses us := by
  induction us generalizing w with
  | nil => rfl
  | cons u us ih =>
    cases h : (w.use u).answer.isRefused with
    | true =>
      rw [unrefused_cons_of_refused us h, ih, afterUses, afterUses, List.foldl_cons,
        workspace_use_of_refused w u h]
    | false =>
      rw [unrefused_cons_of_not_refused us h]
      exact ih (w.use u).workspace

/-- A request that is refused, by any regions and with any handles, leaves every cursor, every byte
and every handle as they were. So without the refused requests of a run the other uses answer and
leave the same, and the run ends in the same memory and handles. -/
theorem trace_filter_refused (w : Workspace) :
    (∀ u e, (w.use u).answer = .refused e → (w.use u).workspace = w) ∧
      ∀ us, w.trace (w.unrefused us) = (w.trace us).filter (!·.2.answer.isRefused) ∧
        w.afterUses (w.unrefused us) = w.afterUses us :=
  ⟨fun u e h => workspace_use_of_refused w u (by rw [h]; rfl),
    fun us => ⟨trace_unrefused w us, afterUses_unrefused w us⟩⟩

/-- A handle from before a resize, one of the other region, one from before a reset and one of no
region are refused, and so are a request for no bytes and one for too many. -/
theorem trace_filter_refused_foreign :
    let w := ofRegions [.zeros 3 24, .zeros 0 16]
    let us : List Use := [.op ⟨0, "a", .copy [1, 2, 3, 4]⟩, .op ⟨0, "a", .duplicate "old"⟩,
      .op ⟨0, "a", .resize 12⟩, .op ⟨0, "old", .resizeBlock 2⟩, .writeAt 0 "a" 3 [7, 8],
      .op ⟨1, "a", .realloc 1⟩, .op ⟨0, "b", .allocate 100⟩, .op ⟨0, "b", .alloc 0⟩,
      .op ⟨0, "b", .alloc 3⟩, .op ⟨0, "old", .get⟩, .keep "old" ⟨9, 9⟩, .op ⟨0, "old", .resize 1⟩,
      .op ⟨0, "a", .reset⟩, .op ⟨0, "b", .realloc 5⟩]
    ((w.trace us).map fun s => s.2.answer) =
        [.block ⟨5, 4⟩, .block ⟨5, 4⟩, .block ⟨5, 12⟩, .refused (.notTail 5), .written (some 2),
          .refused (.notTail 5), .refused (.outOfMemory 100 7), .refused .zeroSize, .block ⟨21, 3⟩,
          .bytes (some [1, 2, 3, 7]), .done, .refused (.notTail 9), .done, .refused (.notTail 21)] ∧
      (w.unrefused us).length = 8 ∧
      ((w.afterUses us).use (.op ⟨0, "b", .realloc 5⟩)).answer = .refused (.notTail 21) ∧
      ((w.afterUses us).use (.op ⟨0, "b", .realloc 5⟩)).workspace = w.afterUses us ∧
      w.trace (w.unrefused us) = (w.trace us).filter (!·.2.answer.isRefused) ∧
      w.afterUses (w.unrefused us) = w.afterUses us := by
  intro w us
  have hrefused : ((w.afterUses us).use (.op ⟨0, "b", .realloc 5⟩)).answer =
      .refused (.notTail 21) := by decide +kernel
  obtain ⟨htrace, hafter⟩ := (trace_filter_refused w).2 us
  exact ⟨by decide +kernel, by decide +kernel, hrefused,
    (trace_filter_refused (w.afterUses us)).1 _ _ hrefused, htrace, hafter⟩

end Workspace

end FrontEnd.Arena
