import Interop.Emit.Printer
import Interop.Overlay.Walk
import Interop.Overlay.Workspace

namespace Interop.Emit

open Overlay

/-- A parameter of a bridge function. -/
structure BridgeParameter where
  type : String
  name : String
deriving DecidableEq, Repr

namespace BridgeParameter

/-- The declaration of a parameter. -/
def text (p : BridgeParameter) : String :=
  p.type ++ " " ++ p.name

/-- The parameter for the object a method is called on. -/
def ofInstance (symbol : String) : BridgeParameter :=
  ⟨symbol ++ "*", "instance"⟩

end BridgeParameter

/-- A bridge function. -/
structure BridgeFunction where
  result : String
  name : String
  parameters : List BridgeParameter
  body : String
deriving DecidableEq, Repr

namespace BridgeFunction

/-- The rows of a function. -/
def print (f : BridgeFunction) (p : Printer) : Printer :=
  let parameters := ", ".intercalate (f.parameters.map BridgeParameter.text)
  (p.block ("EXPORT_API " ++ f.result ++ " " ++ f.name ++ "(" ++ parameters ++ ")")
    (·.line f.body)).blank

end BridgeFunction

/-- The binding of a bridge function to its managed declaration. -/
structure Registration where
  /-- The managed path of the declaration. -/
  path : String
  function : String
deriving DecidableEq, Repr

/-- The content of a bridge file. -/
structure BridgeFile where
  functions : List BridgeFunction := []
  registrations : List Registration := []
  /-- The headers that are included, in the order of their paths. -/
  headers : List Path := []
deriving Repr

namespace BridgeFile

/-- Adds a header in its place, unless it is there. -/
def insertHeader (path : Path) : List Path → List Path
  | [] => [path]
  | p :: rest =>
    if path.same p then p :: rest
    else if path.before p then path :: p :: rest
    else p :: insertHeader path rest

/-- Adds the headers that the file includes. -/
def including (b : BridgeFile) (source? : Option Path) : BridgeFile :=
  source?.elim b fun path => { b with headers := insertHeader path b.headers }

/-- The managed path under which a function of a class is registered. -/
def registrationPath (s : Surroundings) (f : Forest) (class_ : NodeId) (function : String) :
    String :=
  let space := ".".intercalate (s.rules.name :: f.managedNamespace class_ s.rules.name)
  let path := Text.replaceString (f.managedPath class_) "." "/"
  space ++ "." ++ path ++ "::" ++ function

/-- Adds a function of a class together with its registration. -/
def adding (b : BridgeFile) (s : Surroundings) (f : Forest) (class_ : NodeId)
    (function : BridgeFunction) : BridgeFile :=
  { b with
    functions := b.functions ++ [function]
    registrations := b.registrations ++
      [⟨registrationPath s f class_ function.name, function.name⟩] }

end BridgeFile

/-- An argument on its way through a bridge function. -/
structure BridgeArgument where
  parameter : BridgeParameter
  /-- The expression that hands the argument to native code. -/
  native : String

namespace BridgeArgument

/-- The arguments of a function, if all their types can cross. -/
def ofParameters? (m : Mapper) (parameters : List NodeParameter) : Option (List BridgeArgument) :=
  parameters.mapM fun p => do
    let info ← m.resolve? (← p.type?)
    return ⟨⟨info.bridge, p.name⟩, Template.render info.bridgeToNative p.name⟩

end BridgeArgument

/-- How a function's result crosses: nothing, or a value. -/
def resultMarshalling? (m : Mapper) (type? : Option NativeType) : Option (Option Marshalling) :=
  match type? with
  | none => some none
  | some type => if type.isVoid then some none else (m.resolve? type).map some

/-- Whether a method is called on an object. -/
def takesInstance (class_ n : Node) : Bool :=
  n.kind == .memberFunction && !n.isStatic && !class_.isStatic

/-- The native expression that is called for a function of a class. -/
def callee (class_ n : Node) : String :=
  match n.kind with
  | .constructor => "new " ++ class_.symbol
  | .memberFunction =>
    if takesInstance class_ n then "instance->" ++ n.name else class_.symbol ++ "::" ++ n.name
  | _ => n.symbol

/-- The bridge function of a constructor, method or function, if all its types can cross. -/
def callable? (m : Mapper) (class_ n : Node) : Option BridgeFunction := do
  let arguments ← BridgeArgument.ofParameters? m n.parameters
  let result? ← resultMarshalling? m n.returnType?
  let this := if takesInstance class_ n then [BridgeParameter.ofInstance class_.symbol] else []
  let call := callee class_ n ++ "(" ++ ", ".intercalate (arguments.map (·.native)) ++ ")"
  let (result, body) :=
    if n.kind = .constructor then (class_.symbol ++ "*", "return " ++ call ++ ";")
    else
      match result? with
      | none => ("void", call ++ ";")
      | some info => (info.bridge, "return " ++ Template.render info.nativeToBridge call ++ ";")
  return ⟨result, n.bridgeName, this ++ arguments.map (·.parameter), body⟩

/-- The native expression for a variable, and whether it belongs to an object. -/
def variableTarget (class_ n : Node) : String × Bool :=
  if class_.isStatic && n.kind != .memberVariable then (n.symbol, false)
  else if n.isStatic || class_.isStatic then (class_.symbol ++ "::" ++ n.name, false)
  else ("instance->" ++ n.name, true)

/-- The accessors of a variable: one that reads it and, unless it is constant, one that writes it. A
variable with a managed value has none. -/
def accessors (m : Mapper) (class_ n : Node) : List BridgeFunction :=
  if n.managedValue?.isSome then []
  else
    match n.type?.bind m.resolve? with
    | none => []
    | some info =>
      let (target, ofObject) := variableTarget class_ n
      let this := if ofObject then [BridgeParameter.ofInstance class_.symbol] else []
      let getter : BridgeFunction :=
        ⟨info.bridge, "get_" ++ n.bridgeName, this,
          "return " ++ Template.render info.nativeToBridge target ++ ";"⟩
      let setter : BridgeFunction :=
        ⟨"void", "set_" ++ n.bridgeName, this ++ [⟨info.bridge, "value"⟩],
          target ++ " = " ++ Template.render info.bridgeToNative "value" ++ ";"⟩
      if n.isConstant then [getter] else [getter, setter]

/-- The bridge function that destroys an object of a class. -/
def destructor (class_ : Node) : BridgeFunction :=
  ⟨"void", class_.bridgeName ++ "_destructor", [.ofInstance class_.symbol], "delete instance;"⟩

/-- The bridge functions of a node that lies in a class. -/
def memberFunctions (m : Mapper) (class_ n : Node) : List BridgeFunction :=
  match n.kind with
  | .constructor | .memberFunction | .freeFunction => (callable? m class_ n).toList
  | .freeVariable | .memberVariable | .bitField => accessors m class_ n
  | _ => []

namespace BridgeFile

/-- What a leaf of the overlay adds to the file. -/
def addLeaf (s : Surroundings) (w : Workspace) (n : Node) (b : BridgeFile) : BridgeFile :=
  match n.parent? with
  | none => b
  | some parent =>
    let class_ := w.node parent
    if class_.kind == .classType then
      (memberFunctions (s.mapper w class_.symbol) class_ n).foldl (·.adding s w.forest parent ·) b
    else b

/-- What a step of the walk adds to the file, and whether to go deeper. -/
def step (s : Surroundings) (w : Workspace) (event : WalkEvent) (id : NodeId) (b : BridgeFile) :
    Bool × BridgeFile :=
  if event = .exit then (true, b)
  else
    let n := w.node id
    let b := b.including n.source?
    if n.kind = .classType then
      (true, if n.isStatic then b else b.adding s w.forest id (destructor n))
    else if n.kind = .enumeration then (false, b)
    else if n.kind.isContainer then (true, b)
    else (true, addLeaf s w n b)

/-- The bridge file of the tree of a node. -/
def ofTree (s : Surroundings) (w : Workspace) (root : NodeId) : BridgeFile :=
  let walk : StateM BridgeFile Unit :=
    Forest.walkWithin (pure w.forest) (fun event id _ => fun b => step s w event id b)
      w.forest.depthBound root
  (walk.run {}).2

/-- The path by which a header is included: relative to the source directory if it lies there. -/
def includePath (settings : Settings) (path : Path) : String :=
  path.relativeTo settings.sourceDirectory

/-- The text of the file. -/
def text (s : Surroundings) (b : BridgeFile) : String :=
  let functions := b.functions.foldl (fun p f => f.print p) Printer.empty
  let p := Printer.empty
    |>.line "// Generated by bridgegen. Do not edit."
    |>.line "#include \"CSharp.h\""
    |>.lines (b.headers.map fun path => "#include \"" ++ includePath s.settings path ++ "\"")
    |>.blank
    |>.block "extern \"C\"" (fun p => p.blank.lines (textLines functions.text))
    |>.blank
    |>.block ("void Register" ++ Symbol.flat s.rules.name ++ "InternalCalls()") fun p =>
        (p.lines (b.registrations.map fun r =>
          "mono_add_internal_call(\"" ++ r.path ++ "\", (void*)&" ++ r.function ++ ");")).lines
          (s.settings.initializers.map (· ++ "();"))
  p.text

/-- The name of the file. -/
def fileName (rules : ExportRules) : String :=
  rules.name ++ "Bridge.cpp"

end BridgeFile

end Interop.Emit
