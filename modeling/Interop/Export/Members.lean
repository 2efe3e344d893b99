import Interop.Export.Scopes

namespace Interop.Export.Members

open Overlay

/-- The spellings of a function's parameter types. -/
def signature (parameters : List NodeParameter) : List String :=
  parameters.map fun p => p.type?.elim "" NativeType.spelling

/-- The names an exported member is registered under. A function has its symbol, which the first of
several functions keeps, and its symbol with its parameter types; a base class has none. -/
def symbolKeys (n : Node) : List String :=
  if n.kind.isVariable then [n.symbol]
  else if n.kind.isFunction then
    [n.symbol, n.symbol ++ "(" ++ ", ".intercalate (signature n.parameters) ++ ")"]
  else []

/-- Enters a namespace or class under the node of its symbol. A class is entered in the header that
owns it only. -/
def enterContainer (s : Surroundings) (d : Declaration) : Pass Bool := do
  match ← Pass.top? with
  | none => Pass.enter none
  | some parent =>
    let symbol ← Pass.symbolBelow parent d.name
    let owned ← if d.kind == .classType then Pass.ownsDefinition s symbol else pure true
    let w ← getThe Workspace
    Pass.enter ((w.symbol? symbol).filter fun id => owned && (w.node id).kind == d.kind)

/-- The exported form of the parameters from the given position on, if all their types can cross. A
parameter without a name is named after its position. -/
def parametersFrom? (m : Mapper) : (position : Nat) → List Parameter → Option (List NodeParameter)
  | _, [] => some []
  | position, p :: rest =>
    if m.isExportable p.type then
      let name := if p.name.isEmpty then "param" ++ toString position else p.name
      (parametersFrom? m (position + 1) rest).map
        ({ name, type? := some p.type, nativeDefault? := p.default? } :: ·)
    else none

/-- The name an exported function has below its parent, if a function of its kind may stand there.
An abstract class has no constructors, and only classes have methods. -/
def functionName? (parent : Node) (d : Declaration) : Option String :=
  match d.kind with
  | .constructor =>
    if parent.kind == .classType && !parent.flags.isPure then some parent.name else none
  | .memberFunction => if parent.kind == .classType then some d.name else none
  | .freeFunction => some d.name
  | _ => none

/-- The result type of an exported function, if it can cross; a constructor has none. -/
def resultType? (m : Mapper) (d : Declaration) : Option (Option NativeType) :=
  if d.kind == .constructor then some none
  else
    let type := d.returnType?.getD (.builtin .void)
    if m.isExportable type then some (some type) else none

/-- The node of a function, if it is exported. Deleted functions and operators are not. -/
def functionNode? (m : Mapper) (parent : Node) (d : Declaration) (header? : Option Path) :
    Option Node := do
  if d.flags.isDeleted || d.name.startsWith "operator" then failure
  let name ← functionName? parent d
  let returnType? ← resultType? m d
  let parameters ← parametersFrom? m 0 d.parameters
  return { kind := d.kind, name, symbol := Symbol.qualify parent.symbol name, access := d.access
           flags := d.flags, returnType?, parameters, source? := header? }

/-- Whether a type is constant itself, and not only what it points to. -/
def isConstType : NativeType → Bool
  | .qualified _ isConst _ => isConst
  | _ => false

/-- The node of a variable, if its type can cross. -/
def variableNode? (m : Mapper) (parent : Node) (d : Declaration) (header? : Option Path) :
    Option Node := do
  let type ← d.type?
  if !m.isExportable type then failure
  return { kind := d.kind, name := d.name, symbol := Symbol.qualify parent.symbol d.name
           access := d.access, flags := d.flags, isConstant :=
             isConstType type || d.flags.isConstexpr
           type? := some type, nativeValue? := d.value?, source? := header? }

/-- The node of a base class, if the base is an exported class. It bears the base's symbol. -/
def baseNode? (m : Mapper) (parent : Node) (d : Declaration) : Option Node := do
  if parent.kind != .classType then failure
  let type ← d.type?
  let id ← m.typeNamed? type.typeName
  let base ← m.forest.node? id
  if base.kind != .classType then failure
  return { kind := .baseClass, name := base.name, symbol := base.symbol, access := d.access }

/-- Whether a node below `parent` is the same function: of one kind, symbol and signature. -/
def isSameFunction (n other : Node) : Bool :=
  other.kind == n.kind && other.symbol == n.symbol &&
    signature other.parameters == signature n.parameters

/-- The node that a declaration adds below `parent`, if it is exported and not there yet. -/
def memberNode? (s : Surroundings) (w : Workspace) (header? : Option Path) (parent : NodeId)
    (d : Declaration) : Option Node :=
  let around := w.node parent
  let m := s.mapper w around.symbol
  match d.kind with
  | .constructor | .memberFunction | .freeFunction =>
    (functionNode? m around d header?).filter fun n =>
      !(around.children.any fun c => isSameFunction n (w.node c))
  | .freeVariable | .memberVariable | .bitField =>
    (variableNode? m around d header?).filter fun n => !(w.symbol? n.symbol).isSome
  | .baseClass => baseNode? m around d
  | _ => none

/-- Adds what a declaration exports to the container around it. Only public declarations that the
rules select are exported, and a name that is registered already keeps its node. -/
def addMember (s : Surroundings) (d : Declaration) : Pass Unit := do
  match ← Pass.top? with
  | none => return ()
  | some parent =>
    let symbol ← Pass.symbolBelow parent d.name
    if d.access == .exposed && s.rules.symbols.selects symbol then
      let w ← getThe Workspace
      match memberNode? s w (← getThe Scopes).header? parent d with
      | none => return ()
      | some n =>
        let names := (symbolKeys n).filter fun name => !(w.symbol? name).isSome
        set (w.grow parent n names)

/-- What the pass does at each step of a walk. -/
def visit (s : Surroundings) (event : WalkEvent) (d : Declaration) : Pass Bool := do
  match event with
  | .exit =>
    Pass.leave
    return true
  | .enter =>
    match d.kind with
    | .linkage => Pass.enter (← Pass.top?)
    | .nameSpace | .classType => enterContainer s d
    | _ => Pass.enter none
  | .leaf =>
    addMember s d
    return true

end Interop.Export.Members
