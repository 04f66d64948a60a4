import FrontEnd.Arena.Block

/-!
# Allocators

An allocator answers one kind of request, `realloc`: a new block, or another length for a block it
handed out. Asking for a block (`alloc`) and resizing one (`resizeBlock`) are each one such request.
A `Recorder` is an allocator that keeps a list of the requests it passed on.
-/

namespace FrontEnd.Arena

/-- A state that answers requests for blocks. -/
class Allocator (σ : Type) where
  /-- A new block of `len` bytes, or the block `existing` with `len` bytes. -/
  realloc (existing : Option Block) (len : UInt64) : EStateM Fault σ (Except AllocError Block)

namespace Allocator

variable {σ : Type} [Allocator σ]

/-- A new block. -/
def alloc (len : UInt64) : EStateM Fault σ (Except AllocError Block) := realloc none len

/-- The block with another length. -/
def resizeBlock (block : Block) (len : UInt64) : EStateM Fault σ (Except AllocError Block) :=
  realloc (some block) len

end Allocator

/-- A request to an allocator: the block to resize, if any, and the length. -/
structure Call where
  existing : Option Block
  len : UInt64
  deriving DecidableEq, Repr

/-- An allocator and the requests passed on to it, latest first. -/
structure Recorder (σ : Type) where
  inner : σ
  calls : List Call
  deriving DecidableEq, Repr

instance {σ : Type} [Allocator σ] : Allocator (Recorder σ) where
  realloc existing len := fun r =>
    match Allocator.realloc existing len r.inner with
    | .ok a inner => .ok a ⟨inner, ⟨existing, len⟩ :: r.calls⟩
    | .error f inner => .error f ⟨inner, ⟨existing, len⟩ :: r.calls⟩

/-- A recorder passes a request on and notes it. -/
theorem Recorder.realloc_eq {σ : Type} [Allocator σ] (existing : Option Block) (size : UInt64)
    (s : σ) (calls : List Call) :
    Allocator.realloc existing size (⟨s, calls⟩ : Recorder σ) =
      match Allocator.realloc existing size s with
      | .ok granted s' => .ok granted ⟨s', ⟨existing, size⟩ :: calls⟩
      | .error f s' => .error f ⟨s', ⟨existing, size⟩ :: calls⟩ := rfl

end FrontEnd.Arena
