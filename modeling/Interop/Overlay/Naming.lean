import Interop.Overlay.Forest

namespace Interop.Overlay.Forest

/-- The names of the nodes whose kind satisfies `p`. -/
def namesOf (f : Forest) (p : Kind → Bool) (ids : List NodeId) : List String :=
  (ids.filterMap f.node?).filterMap fun n => if p n.kind then some n.name else none

/-- The names of the classes around a node, from the outermost in, and its own if it is a class. -/
def classPath (f : Forest) (id : NodeId) : List String :=
  f.namesOf (· == .classType) (f.ancestors id ++ [id])

/-- Whether a node is a namespace of the given name. -/
def isNamespace (f : Forest) (id : NodeId) (name : String) : Bool :=
  (f.node? id).any fun n => n.kind == .nameSpace && n.name == name

/-- The namespaces around a node below the module's namespace, from the outermost in. An outermost
namespace with the module's name is the module's namespace itself. -/
def managedNamespace (f : Forest) (id : NodeId) (module : String) : List String :=
  let around := f.ancestors id
  match around with
  | [] => []
  | top :: inner =>
    f.namesOf (· == .nameSpace) (if f.isNamespace top module then inner else top :: inner)

/-- The path of a node below its namespace: the classes and enums around it, and its own name. -/
def managedPath (f : Forest) (id : NodeId) : String :=
  let around := f.namesOf (fun k => k == .classType || k == .enumeration) (f.ancestors id)
  ".".intercalate (around ++ [(f.node? id).elim "" Node.name])

end Interop.Overlay.Forest
