import FrontEnd.Log.Event
import FrontEnd.Arena.Workspace

/-!
# Events of a workspace

Every block granted, every refusal and every reset of a region is an event. They follow from the
answer of a step and the state before it: the gap before a new block is what lies between the old
cursor and the block.
-/

namespace FrontEnd.Arena

namespace Region

/-- The events of a request for a new block. -/
def allocateEvents (before : Region) : Answer → List Event
  | .block b => [.allocated b (b.offset - before.cursor)]
  | .refused e => [.refused e]
  | _ => []

/-- The events of a request for another length. -/
def resizeEvents (old : Block) : Answer → List Event
  | .block b => [.resized b old.len]
  | .refused e => [.refused e]
  | _ => []

end Region

namespace Workspace

/-- The events of a request that may resize the block kept under a name. -/
def reallocEvents (w : Workspace) (op : Op) (r : Region) (answer : Answer) : List Event :=
  match w.handle? op.handle with
  | none => r.allocateEvents answer
  | some old => Region.resizeEvents old answer

/-- The events of an operation. -/
def events (w : Workspace) (op : Op) : List Event :=
  match w.regions[op.region]? with
  | none => []
  | some r =>
    let answer := (w.step op).answer
    match op.request with
    | .allocate _ | .copy _ | .alloc _ => r.allocateEvents answer
    | .resize _ | .resizeBlock _ | .realloc _ => w.reallocEvents op r answer
    | .reset => [.reset r.cursor]
    | .duplicate _ | .isTail | .get | .write _ => []

end Workspace

end FrontEnd.Arena
