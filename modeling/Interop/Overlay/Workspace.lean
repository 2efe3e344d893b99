import Interop.Header.Index
import Interop.Marshal.Mapper

namespace Interop.Overlay

/-- The overlay and its symbol table. -/
structure Workspace where
  forest : Forest := {}
  symbols : Symbols := {}

namespace Workspace

/-- Adds a new node below `parent` and registers it under the given names. -/
def grow (w : Workspace) (parent : NodeId) (n : Node) (names : List String) : Workspace :=
  let id := w.forest.nextId
  { forest := w.forest.pushBelow parent n
    symbols := names.foldl (·.insert · id) w.symbols }

/-- Changes a node. -/
def modify (w : Workspace) (id : NodeId) (change : Node → Node) : Workspace :=
  { w with forest := w.forest.modify id change }

/-- The node registered under a name. -/
def symbol? (w : Workspace) (name : String) : Option NodeId :=
  w.symbols.get? w.forest name

/-- The kind and everything else about a node; of a node that is gone, nothing in particular. -/
def node (w : Workspace) (id : NodeId) : Node :=
  (w.forest.node? id).getD default

/-- Lets go of all trees but those that hold one of the given nodes. -/
def release (w : Workspace) (held : List NodeId) : Workspace :=
  { w with forest := w.forest.release held }

end Workspace

/-- What passes over one export namespace read. -/
structure Surroundings where
  settings : Settings
  rules : ExportRules
  /-- The root of the namespace's tree. -/
  root : NodeId
  /-- The headers that were read for the namespace. -/
  headers : List Path := []
  /-- The owners of type definitions, if they are taken into account. -/
  index? : Option Header.Index := none
  /-- Nodes that stay when they are taken out of the tree, with everything below them. -/
  kept : List NodeId := []

namespace Surroundings

/-- Whether `path` supplies the definition of a type: it owns the type, or the owner was not read
here. -/
def ownsDefinition (s : Surroundings) (symbol : String) (path : Path) : Bool :=
  match s.index?.bind (·.owner? symbol) with
  | some owner => if s.headers.any (·.same owner) then owner.same path else true
  | none => true

/-- The types that can cross the bridge, as seen from a scope. -/
def mapper (s : Surroundings) (w : Workspace) (scope : String) : Mapper :=
  ⟨s.rules, w.symbols, w.forest, scope⟩

end Surroundings

end Interop.Overlay
