import Interop.Native.Walk
import Interop.Overlay.Forest

namespace Interop.Overlay.Forest

variable {m : Type → Type} [Monad m]

/-- Walks the tree of a node as deep as the bound allows. `current` tells the forest as it is; a
node that is gone is not walked, and of a proxy only the children are. -/
def walkWithin (current : m Forest) (visit : WalkEvent → NodeId → Access → m Bool) :
    (bound : Nat) → NodeId → m Unit
  | 0, _ => pure ()
  | bound + 1, id => do
    match (← current).node? id with
    | none => pure ()
    | some n =>
      if n.isProxy then n.children.forM (walkWithin current visit bound)
      else if n.kind.isContainer then
        if ← visit .enter id n.access then
          ((← current).children id).forM (walkWithin current visit bound)
          discard <| visit .exit id n.access
      else discard <| visit .leaf id n.access

/-- A bound on the depth of walks whose visitor adds at most one level below each node it moves. -/
def depthBound (f : Forest) : Nat :=
  2 * f.size + 2

/-- A bound on the depth of walks during which the forest is changed at most so often. Between two
changes a walk goes down through different nodes. -/
def depthBoundUnder (f : Forest) (changes : Nat) : Nat :=
  (changes + 1) * (f.size + 1)

end Interop.Overlay.Forest
