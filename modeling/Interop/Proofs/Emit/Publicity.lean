import Interop.Proofs.Emit.Agreement
import Interop.Proofs.Emit.Distinct
import Interop.Proofs.Export.Provenance

namespace Interop

open Overlay Export Emit

namespace Emit

variable {m : Mapper} {class_ n : Node} {f : BridgeFunction} {o : Origin}

/-- Whether a function does nothing but call, read or write what a native expression stands for. -/
inductive BridgeFunction.Uses (expression : String) (f : BridgeFunction) : Prop
  | runs (arguments : String) (h : f.body = expression ++ "(" ++ arguments ++ ")" ++ ";")
  | makes (arguments : String)
    (h : f.body = "return " ++ (expression ++ "(" ++ arguments ++ ")") ++ ";")
  | returns (template arguments : String)
      (h : f.body = "return " ++ Template.render template
        (expression ++ "(" ++ arguments ++ ")") ++ ";")
  | reads (template : String) (h : f.body = "return " ++ Template.render template expression ++ ";")
  | writes (value : String) (h : f.body = expression ++ " = " ++ value ++ ";")

/-- The native expression for a function or a variable of a class. -/
def designator (class_ n : Node) : String :=
  if n.kind.isVariable then (variableTarget class_ n).1 else callee class_ n

/-- Which expressions stand for a function or a variable of a class. Only its symbol does where the
symbol is not that of its name in the class. -/
inductive Designates (class_ n : Node) : String → Prop
  | constructed (hkind : n.kind = .constructor)
      (hplace : n.symbol = Symbol.qualify class_.symbol n.name) :
      Designates class_ n ("new " ++ class_.symbol)
  | ofObject (hplace : n.symbol = Symbol.qualify class_.symbol n.name) :
    Designates class_ n ("instance->" ++ n.name)
  | ofClass (hplace : n.symbol = Symbol.qualify class_.symbol n.name) :
      Designates class_ n (class_.symbol ++ "::" ++ n.name)
  | whole : Designates class_ n n.symbol

/-- Whether a variable has been moved into a class in which it is taken for one of the class's
own. -/
def Adrift (class_ n : Node) : Prop :=
  n.kind.isVariable = true ∧ class_.name = Globals.className ∧
    n.symbol ≠ Symbol.qualify class_.symbol n.name ∧
      (class_.isStatic = true → n.kind = .memberVariable)

end Emit

section Sources

variable {g : Generator} {others : List NodeId} {s : Surroundings} {w : Workspace}
    {units : List HeaderUnit} {id : NodeId}
  {f : BridgeFunction}

/-- What a function of a node is made for: to destroy the objects of a class, or to use what a
declaration has been exported as below a class. -/
inductive Emit.Source (s : Surroundings) (units : List HeaderUnit) (w : Workspace) (id : NodeId)
    (f : BridgeFunction) : Prop
  | object (hkind : (w.node id).kind = .classType) (hstatic : (w.node id).isStatic = false)
      (hfunction : f = destructor (w.node id))
  | member {class_ : NodeId} {o : Origin} (hclass : (w.node class_).kind = .classType)
      (hparent : (w.node id).parent? = some class_) (hdeclared : o ∈ originsIn units)
      (hpublished : o.Published (w.node class_) (w.node id))
      (hfunction : f ∈ memberFunctions (s.mapper w (w.node class_).symbol) (w.node class_)
        (w.node id))
      (huses : f.Uses (designator (w.node class_) (w.node id)))
      (hdesignates : Designates (w.node class_) (w.node id)
        (designator (w.node class_) (w.node id)) ∨ Adrift (w.node class_) (w.node id))

/-- The nodes of a tree that the walk for the bridge file meets. -/
def Emit.visited (s : Surroundings) (w : Workspace) : List NodeId :=
  w.forest.preorder isClosed w.forest.depthBound s.root

end Sources

end Interop
