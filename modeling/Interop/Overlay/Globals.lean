import Interop.Overlay.Walk
import Interop.Overlay.Workspace

namespace Interop.Overlay.Globals

/-- The name of the class that receives the functions and variables of a namespace. -/
def className : String := "Globals"

/-- Whether a node is moved into the class for globals. -/
def isGlobal (n : Node) : Bool :=
  n.kind == .freeFunction || n.kind.isVariable

/-- Whether a node holds globals that have to be moved. -/
def isScope (n : Node) : Bool :=
  n.kind == .file || n.kind == .nameSpace

/-- The class for globals that a scope has already. -/
def existing? (w : Workspace) (scope : NodeId) : Option NodeId :=
  (w.forest.children scope).find? fun c =>
    let n := w.node c
    n.kind == .classType && n.name == className

/-- The class for the globals of a scope, and the workspace with it. -/
def ensure (w : Workspace) (scope : NodeId) : NodeId × Workspace :=
  match existing? w scope with
  | some id => (id, w)
  | none =>
    let symbol := Symbol.qualify (w.node scope).symbol className
    let n : Node := { kind := .classType, name := className, symbol, flags := { isStatic := true } }
    (w.forest.nextId, w.grow scope n [symbol])

/-- Moves the globals of a scope into its class for globals, in their order. -/
def gather (w : Workspace) (scope : NodeId) : Workspace :=
  match (w.forest.children scope).filter fun c => isGlobal (w.node c) with
  | [] => w
  | globals =>
    let (target, w) := ensure w scope
    { w with forest := globals.foldl (·.attach target ·) w.forest }

/-- Takes a namespace without children out of the tree. -/
def dropEmpty (w : Workspace) (id : NodeId) : Workspace :=
  let n := w.node id
  if n.kind == .nameSpace && n.children.isEmpty then { w with forest := w.forest.detach id } else w

/-- What the pass does at each step of a walk. It goes no deeper than namespaces. -/
def visit (event : WalkEvent) (id : NodeId) (_ : Access) : StateM Workspace Bool := do
  if isScope ((← get).node id) then
    match event with
    | .enter => modify (gather · id)
    | .exit => modify (dropEmpty · id)
    | .leaf => return true
    return true
  else return false

/-- Moves the globals of the tree of a node. -/
def move (w : Workspace) (root : NodeId) : Workspace :=
  ((Forest.walkWithin (return (← get).forest) visit w.forest.depthBound root).run w).2

end Interop.Overlay.Globals
