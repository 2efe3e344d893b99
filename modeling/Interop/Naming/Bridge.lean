import Interop.Naming.Default
import Interop.Overlay.Walk

namespace Interop.Naming

open Overlay

/-- How often each function name has been given out. -/
abbrev Used := Table Nat

/-- A name for a function of the given symbol, and the names used afterwards. -/
def uniqueName (used : Used) (symbol : String) : String × Used :=
  let name := Symbol.flat symbol
  let count := (used.get? name).getD 0
  (if count = 0 then name else name ++ "_" ++ toString count, used.insert name (count + 1))

/-- What the naming pass works with: the names it has given out and the workspace. -/
abbrev Pass := StateT Used (StateM Workspace)

/-- Names a function and gives its parameters their managed defaults; a parameter has one only if
all later ones have. -/
def nameFunction (settings : Settings) (id : NodeId) : Pass Unit := do
  let w ← getThe Workspace
  let n := w.node id
  let (bridgeName, used) := uniqueName (← getThe Used) n.symbol
  set used
  let defaults := trailing <| n.parameters.map fun p =>
    p.nativeDefault?.bind (managedDefault? settings w id)
  let parameters := n.parameters.zipWith (fun p d => { p with managedDefault? := d }) defaults
  set (w.modify id fun n => { n with bridgeName, parameters })

/-- The stem of the names of a variable's accessors. -/
def accessorStem (w : Workspace) (n : Node) : String :=
  let around := n.parent?.elim "" fun parent => Symbol.flat (w.node parent).symbol
  if around.isEmpty then n.name else around ++ "_" ++ n.name

/-- A variable with its managed value worked out. The value may make it constant, and a constant of
a simple type keeps the value. -/
def withValue (settings : Settings) (n : Node) (value : String) : Node :=
  let n := { n with isConstant := n.isConstant || settings.isForced value }
  if n.isConstant && n.type?.any isSimpleType then { n with managedValue? := some value } else n

/-- Names the accessors of a variable and works out its managed value. -/
def nameVariable (settings : Settings) (id : NodeId) : Pass Unit := do
  let w ← getThe Workspace
  let n := w.node id
  let bridgeName := accessorStem w n
  let value? := n.nativeValue?.bind (managedDefault? settings w id)
  set <| w.modify id fun n =>
    let n := { n with bridgeName }
    value?.elim n (withValue settings n)

/-- Works out the managed value of an enumerator. -/
def valueEnumerator (settings : Settings) (id : NodeId) : Pass Unit := do
  let w ← getThe Workspace
  let managedValue? := (w.node id).nativeValue?.bind (managedDefault? settings w id)
  set (w.modify id fun n => { n with managedValue? })

/-- What the pass does at each step of a walk. -/
def visit (settings : Settings) (event : WalkEvent) (id : NodeId) (_ : Access) : Pass Bool := do
  if event != .exit then
    let w ← getThe Workspace
    match (w.node id).kind with
    | .classType => set (w.modify id fun n => { n with bridgeName := Symbol.flat n.symbol })
    | .constructor | .memberFunction | .freeFunction => nameFunction settings id
    | .freeVariable | .memberVariable | .bitField => nameVariable settings id
    | .enumerator => valueEnumerator settings id
    | _ => pure ()
  return true

/-- Names the functions of the tree of a node. -/
def nameAll (settings : Settings) (w : Workspace) (root : NodeId) : Workspace :=
  let walk : Pass Unit :=
    Forest.walkWithin (return (← getThe Workspace).forest) (visit settings) w.forest.depthBound root
  ((walk.run {}).run w).2

end Interop.Naming
