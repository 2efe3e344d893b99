import Interop.Emit.Keyword
import Interop.Emit.ManagedFile
import Interop.Overlay.Walk
import Interop.Overlay.Workspace

namespace Interop.Emit

open Overlay

/-- A block of a managed file that is still open. -/
inductive OpenBlock where
  /-- A namespace, or without a name the module's own, which needs no block. -/
  | nameSpace (name? : Option String)
  /-- A class; whether managed classes may derive from it decides about virtual methods. -/
  | classType (c : ManagedClass) (isInheritable : Bool)
deriving DecidableEq, Repr

/-- An open block with what has been put into it. -/
structure BlockFrame where
  block : OpenBlock
  /-- The items, the last first. -/
  items : List ManagedItem := []
  /-- The bridge declarations, the last first. -/
  bridges : List BridgeDeclaration := []
  /-- The names and parameter types that are taken. -/
  signatures : List String := []
deriving Repr

namespace BlockFrame

/-- The items that a closed block becomes. -/
def close (frame : BlockFrame) : List ManagedItem :=
  match frame.block with
  | .nameSpace none => frame.items.reverse
  | .nameSpace (some name) => [.nameSpace name frame.items.reverse]
  | .classType c _ => [.classType c frame.items.reverse frame.bridges.reverse]

/-- The class of a block and whether it is inheritable. -/
def class? (frame : BlockFrame) : Option (ManagedClass × Bool) :=
  match frame.block with
  | .nameSpace _ => none
  | .classType c isInheritable => some (c, isInheritable)

end BlockFrame

/-- The state of the walk: the open blocks, the innermost first, and the items outside of them, the
last first. -/
structure ManagedState where
  frames : List BlockFrame := []
  items : List ManagedItem := []
deriving Repr

namespace ManagedState

/-- Opens a block. -/
def openBlock (s : ManagedState) (block : OpenBlock) : ManagedState :=
  { s with frames := { block } :: s.frames }

/-- Puts items into the innermost open block. -/
def put (s : ManagedState) (items : List ManagedItem) : ManagedState :=
  match s.frames with
  | [] => { s with items := items.reverse ++ s.items }
  | frame :: outer => { s with frames := { frame with items := items.reverse ++ frame.items } ::
    outer }

/-- Closes the innermost block. -/
def closeBlock (s : ManagedState) : ManagedState :=
  match s.frames with
  | [] => s
  | frame :: outer => put { s with frames := outer } frame.close

/-- The innermost class and whether it is inheritable. -/
def class? (s : ManagedState) : Option (ManagedClass × Bool) :=
  s.frames.findSome? BlockFrame.class?

/-- Changes the frame of the innermost class. -/
def changeClass (change : BlockFrame → BlockFrame) : List BlockFrame → List BlockFrame
  | [] => []
  | frame :: outer =>
    if frame.class?.isSome then change frame :: outer else frame :: changeClass change outer

/-- Whether the innermost class has a member of the signature. -/
def isTaken (s : ManagedState) (signature : String) : Bool :=
  ((s.frames.find? (·.class?.isSome)).map (·.signatures.contains signature)).getD true

/-- Adds a member with its bridge declarations, and takes its signature. -/
def addMember (s : ManagedState) (signature : String) (m : ManagedMember)
    (bridges : List BridgeDeclaration) : ManagedState :=
  let s := s.put [.member m]
  { s with
    frames := s.frames |> changeClass fun frame =>
      { frame with
        bridges := bridges.reverse ++ frame.bridges
        signatures := signature :: frame.signatures } }

end ManagedState

/-- The managed parameters of a function, if all their types can cross. -/
def managedParameters? (m : Mapper) (parameters : List NodeParameter) :
    Option (List ManagedParameter) :=
  parameters.mapM fun p => do
    let info ← m.resolve? (← p.type?)
    let name := managedName p.name
    return {
      managed := info.managed
      marshal := info.marshal
      name
      default? := p.managedDefault?
      attribute? := info.attribute?
      argument := Template.render info.managedToMarshal name }

/-- The first base of a class that managed classes may derive from. -/
def managedBase? (s : Surroundings) (w : Workspace) (n : Node) : Option String :=
  n.children.findSome? fun c =>
    let base := w.node c
    if base.kind = .baseClass then do
      let target := w.node (← w.symbol? base.symbol)
      if target.kind == .classType && s.rules.isInheritable target.symbol then some target.name
      else none
    else none

/-- The block of a class. -/
def classBlock (s : Surroundings) (w : Workspace) (n : Node) : OpenBlock :=
  if n.isStatic then .classType { name := n.name, isStatic := true } false
  else
    .classType
      { name := n.name, base? := managedBase? s w n, destructor := n.bridgeName ++ "_destructor" }
      (s.rules.isInheritable n.symbol)

/-- The block of a namespace; an outermost one with the module's name is the module itself. -/
def namespaceBlock (s : Surroundings) (w : Workspace) (id : NodeId) (n : Node) : OpenBlock :=
  let isModule := (w.forest.ancestors id).isEmpty && n.name == s.rules.name
  .nameSpace (if isModule then none else some n.name)

/-- The managed form of an enum. -/
def managedEnum (w : Workspace) (n : Node) : ManagedEnum where
  name := n.name
  underlying? :=
    match n.type?.map NativeType.unqualified with
    | some (.builtin kind) => some kind.managed
    | _ => none
  values := ((n.children.map w.node).filter (·.kind == .enumerator)).map fun v =>
    let value? := v.managedValue? <|> v.nativeValue?.map (Text.replaceString · "::" ".")
    (v.name, value?)

namespace ManagedState

/-- Adds a constructor to the innermost class. -/
def addConstructor (s : ManagedState) (m : Mapper) (n : Node) : ManagedState :=
  match managedParameters? m n.parameters, s.class? with
  | some parameters, some (c, _) =>
    let signature := ".ctor(" ++ ManagedParameter.types parameters ++ ")"
    if s.isTaken signature then s
    else
      s.addMember signature (.constructor c.name c.base?.isSome parameters n.bridgeName)
        [⟨none, "IntPtr", n.bridgeName, parameters.map (·.bridgeDeclaration)⟩]
  | _, _ => s

/-- How the result of a managed method crosses, if it can: nothing, or a value. -/
def result? (m : Mapper) (n : Node) : Option (Option Marshalling) :=
  match n.returnType? with
  | none => some none
  | some type => if type.isVoid then some none else (m.resolve? type).map some

/-- Adds a method to the innermost class. -/
def addMethod (s : ManagedState) (m : Mapper) (n : Node) : ManagedState :=
  match managedParameters? m n.parameters, result? m n, s.class? with
  | some parameters, some result?, some (c, isInheritable) =>
    let name := managedName n.name
    let signature := name ++ "(" ++ ManagedParameter.types parameters ++ ")"
    if s.isTaken signature then s
    else
      let isStatic := c.isStatic || n.isStatic
      let modifier :=
        if isStatic then "static " else if isInheritable && n.isVirtual then "virtual " else ""
      let handle := if isStatic then [] else ["instance_"]
      let this := if isStatic then [] else [BridgeDeclaration.instanceParameter]
      let call :=
        n.bridgeName ++ "(" ++ ", ".intercalate (handle ++ parameters.map (·.argument)) ++ ")"
      let (managed, statement) :=
        match result? with
        | none => ("void", call ++ ";")
        | some info => (info.managed,
          "return " ++ Template.render info.marshalToManaged call ++ ";")
      s.addMember signature (.method modifier managed name parameters statement)
        [⟨result?.bind (·.attribute?), result?.elim "void" (·.marshal), n.bridgeName,
          this ++ parameters.map (·.bridgeDeclaration)⟩]
  | _, _, _ => s

/-- Adds a variable to the innermost class: a constant if its value is known, and a property
otherwise. -/
def addVariable (s : ManagedState) (m : Mapper) (n : Node) : ManagedState :=
  match n.type?.bind m.resolve?, s.class? with
  | some info, some (c, _) =>
    let name := managedName n.name
    if s.isTaken name then s
    else
      match n.isConstant, n.managedValue? with
      | true, some value => s.addMember name (.constant info.managed name value) []
      | _, _ =>
        let isStatic := c.isStatic || n.isStatic
        let handle := if isStatic then [] else ["instance_"]
        let this := if isStatic then [] else [BridgeDeclaration.instanceParameter]
        let getter := "get_" ++ n.bridgeName
        let setter := "set_" ++ n.bridgeName
        let get := getter ++ "(" ++ ", ".intercalate handle ++ ")"
        let value := Template.render info.managedToMarshal "value"
        let set := setter ++ "(" ++ ", ".intercalate (handle ++ [value]) ++ ")"
        let valueParameter := ManagedParameter.attributed info.attribute? (info.marshal ++ " value")
        let getterBridge : BridgeDeclaration := ⟨info.attribute?, info.marshal, getter, this⟩
        let setterBridge : BridgeDeclaration := ⟨none, "void", setter, this ++ [valueParameter]⟩
        let read := Template.render info.marshalToManaged get
        if n.isConstant then
          s.addMember name (.property isStatic info.managed name read none) [getterBridge]
        else
          s.addMember name (.property isStatic info.managed name read (some set))
            [getterBridge, setterBridge]
  | _, _ => s

/-- Adds what a leaf of the overlay becomes, if it lies in a class. -/
def addLeaf (s : Surroundings) (w : Workspace) (n : Node) (state : ManagedState) : ManagedState :=
  match n.parent?.map w.node with
  | none => state
  | some around =>
    if around.kind == .classType then
      let m := s.mapper w around.symbol
      match n.kind with
      | .constructor => state.addConstructor m n
      | .memberFunction | .freeFunction => state.addMethod m n
      | .freeVariable | .memberVariable | .bitField => state.addVariable m n
      | _ => state
    else state

/-- What a step of the walk does, and whether to go deeper. -/
def step (s : Surroundings) (w : Workspace) (event : WalkEvent) (id : NodeId)
    (state : ManagedState) :
    Bool × ManagedState :=
  let n := w.node id
  match n.kind, event with
  | .classType, .enter => (true, state.openBlock (classBlock s w n))
  | .nameSpace, .enter => (true, state.openBlock (namespaceBlock s w id n))
  | .classType, .exit | .nameSpace, .exit => (true, state.closeBlock)
  | .enumeration, .enter => (false, state.put [.enumeration (managedEnum w n)])
  | _, .leaf => (true, addLeaf s w n state)
  | _, _ => (true, state)

end ManagedState

namespace ManagedFile

/-- The managed file of the tree of a node. -/
def ofTree (s : Surroundings) (w : Workspace) (root : NodeId) : ManagedFile :=
  let walk : StateM ManagedState Unit :=
    Forest.walkWithin (pure w.forest) (fun event id _ state => ManagedState.step s w event id state)
      w.forest.depthBound root
  ⟨s.rules.name, (walk.run {}).2.items.reverse⟩

/-- The name of the file. -/
def fileName (rules : ExportRules) : String :=
  rules.name ++ ".cs"

end ManagedFile

end Interop.Emit
