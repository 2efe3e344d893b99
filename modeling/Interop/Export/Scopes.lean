import Interop.Overlay.Workspace
import Interop.Native.Walk

namespace Interop.Export

open Overlay

/-- The frames of the containers around the current declaration, the innermost first, and the header
that is walked. -/
structure Scopes where
  frames : List (Option NodeId) := []
  header? : Option Path := none

/-- What a raw pass works with: its scopes and the workspace. -/
abbrev Pass := StateT Scopes (StateM Workspace)

namespace Pass

/-- The node of the innermost container, if it is exported. -/
def top? : Pass (Option NodeId) :=
  return (← getThe Scopes).frames.head?.join

/-- Enters a container under the given frame, and tells whether its children are to be walked. -/
def enter (frame : Option NodeId) : Pass Bool := do
  modifyThe Scopes fun s => { s with frames := frame :: s.frames }
  return frame.isSome

/-- Leaves the innermost container. -/
def leave : Pass Unit :=
  modifyThe Scopes fun s => { s with frames := s.frames.tail }

/-- Begins a header, or a namespace, at its root. -/
def restart (root : NodeId) (header? : Option Path) : Pass Unit :=
  set ({ frames := [some root], header? } : Scopes)

/-- Whether the current header supplies the definition of a type. -/
def ownsDefinition (s : Surroundings) (symbol : String) : Pass Bool :=
  return (← getThe Scopes).header?.all (s.ownsDefinition symbol ·)

/-- The symbol of a name declared below a node. -/
def symbolBelow (parent : NodeId) (name : String) : Pass String :=
  return Symbol.qualify ((← getThe Workspace).node parent).symbol name

/-- Walks one header with a pass. -/
def header (visit : WalkEvent → Declaration → Pass Bool) (root : NodeId) (unit : HeaderUnit) :
    Pass Unit := do
  restart root (some unit.path)
  unit.root.walk visit
  modifyThe Scopes fun s => { s with header? := none }

end Pass

end Interop.Export
