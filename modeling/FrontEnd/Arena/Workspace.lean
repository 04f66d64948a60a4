import FrontEnd.Arena.Region

/-!
# Workspaces

A workspace is a list of regions and a list of named block handles that its user holds. A handle may
be kept past a resize or a reset, copied under another name, and used with a region that did not
hand it out.

A request names a region and a handle. Where it is granted a block, the block is kept under that
name; a refusal leaves the name as it was. The requests `alloc`, `resizeBlock` and `realloc` go
through the allocator's interface, and the step lists the calls that reached it.
-/

namespace FrontEnd.Arena

/-- What is asked of a region. -/
inductive Request where
  | allocate (size : UInt64)
  | copy (bytes : List UInt8)
  | resize (size : UInt64)
  | alloc (size : UInt64)
  | resizeBlock (size : UInt64)
  | realloc (size : UInt64)
  | reset
  /-- Keeps the handle under another name as well. -/
  | duplicate (name : String)
  | isTail
  | get
  | write (bytes : List UInt8)
  deriving DecidableEq, Repr

/-- A request, the place of the region it goes to, and the name of the handle it is about. -/
structure Op where
  region : Nat
  handle : String
  request : Request
  deriving DecidableEq, Repr

/-- What a request answers. -/
inductive Answer where
  | done
  | block (b : Block)
  | refused (e : AllocError)
  | flag (holds : Bool)
  | bytes (bs : Option (List UInt8))
  | written (count : Option Nat)
  /-- No block is kept under the name. -/
  | noHandle
  /-- There is no such region. -/
  | noRegion
  | fault (f : Fault)
  deriving DecidableEq, Repr

/-- Regions, and the blocks kept under names. -/
structure Workspace where
  regions : List Region
  handles : List (String × Block)
  deriving DecidableEq, Repr

/-- An answer, the calls that reached the allocator's interface, and the workspace left. -/
structure Step where
  answer : Answer
  calls : List Call
  workspace : Workspace
  deriving DecidableEq, Repr

namespace Workspace

/-- Regions in which nothing is in use, and no handles. -/
def ofRegions (regions : List Region) : Workspace := ⟨regions, []⟩

/-- The block kept under a name. -/
def handle? (w : Workspace) (name : String) : Option Block := w.handles.lookup name

/-- Keeps a block under a name, instead of the one kept before. -/
def keep (w : Workspace) (name : String) (b : Block) : Workspace :=
  { w with handles := (name, b) :: w.handles.filter (·.1 != name) }

/-- Replaces a region. -/
def setRegion (w : Workspace) (i : Nat) (r : Region) : Workspace :=
  { w with regions := w.regions.set i r }

/-- The step of an operation on a region that may be granted a block. -/
def grant (w : Workspace) (op : Op)
    (result : EStateM.Result Fault Region (Except AllocError Block)) : Step :=
  match result with
  | .ok (.ok b) r => ⟨.block b, [], (w.setRegion op.region r).keep op.handle b⟩
  | .ok (.error e) r => ⟨.refused e, [], w.setRegion op.region r⟩
  | .error f r => ⟨.fault f, [], w.setRegion op.region r⟩

/-- The step of such an operation through the allocator's interface. -/
def grantRecorded (w : Workspace) (op : Op)
    (result : EStateM.Result Fault (Recorder Region) (Except AllocError Block)) : Step :=
  match result with
  | .ok granted r => { w.grant op (.ok granted r.inner) with calls := r.calls.reverse }
  | .error f r => { w.grant op (.error f r.inner) with calls := r.calls.reverse }

/-- The step of a question about a region. -/
def ask {α : Type} (w : Workspace) (result : Except Fault α) (answer : α → Answer) : Step :=
  match result with
  | .ok a => ⟨answer a, [], w⟩
  | .error f => ⟨.fault f, [], w⟩

/-- The step of a store into a region. -/
def stored (w : Workspace) (op : Op) (result : EStateM.Result Fault Region (Option Nat)) : Step :=
  match result with
  | .ok count r => ⟨.written count, [], w.setRegion op.region r⟩
  | .error f r => ⟨.fault f, [], w.setRegion op.region r⟩

/-- The step of a request about the block kept under the operation's name. -/
def onHandle (w : Workspace) (op : Op) (step : Block → Step) : Step :=
  match w.handle? op.handle with
  | none => ⟨.noHandle, [], w⟩
  | some b => step b

/-- The step of an operation on a region of the workspace. -/
def stepOn (w : Workspace) (op : Op) (r : Region) : Step :=
  let recorder : Recorder Region := ⟨r, []⟩
  match op.request with
  | .allocate size => w.grant op (Region.allocate size r)
  | .copy bytes => w.grant op (Region.allocateCopy bytes r)
  | .resize size => w.onHandle op fun b => w.grant op (Region.resize b size r)
  | .alloc size => w.grantRecorded op (Allocator.alloc size recorder)
  | .resizeBlock size =>
    w.onHandle op fun b => w.grantRecorded op (Allocator.resizeBlock b size recorder)
  | .realloc size =>
    w.grantRecorded op (Allocator.realloc (w.handle? op.handle) size recorder)
  | .reset => ⟨.done, [], w.setRegion op.region r.reset⟩
  | .duplicate name => w.onHandle op fun b => ⟨.block b, [], w.keep name b⟩
  | .isTail => w.onHandle op fun b => w.ask (r.isTail b) .flag
  | .get => w.onHandle op fun b => w.ask (r.get? b) .bytes
  | .write bytes => w.onHandle op fun b => w.stored op (Region.write b bytes r)

/-- One operation. -/
def step (w : Workspace) (op : Op) : Step :=
  match w.regions[op.region]? with
  | none => ⟨.noRegion, [], w⟩
  | some r => w.stepOn op r

/-- The workspace after a list of operations. -/
def after (w : Workspace) (ops : List Op) : Workspace :=
  ops.foldl (fun w op => (w.step op).workspace) w

end Workspace

end FrontEnd.Arena
