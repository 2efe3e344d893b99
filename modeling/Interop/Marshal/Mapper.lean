import Interop.Overlay.Naming
import Interop.Overlay.Symbols
import Interop.Rules.Document

namespace Interop

open Overlay

/-- How a value crosses the bridge. -/
structure Marshalling where
  /-- The type of the managed interface. -/
  managed : String
  /-- The type in managed declarations of bridge functions. -/
  marshal : String
  /-- The type in the signatures of bridge functions. -/
  bridge : String
  managedToMarshal : String := Template.hole
  marshalToManaged : String := Template.hole
  bridgeToNative : String := Template.hole
  nativeToBridge : String := Template.hole
  attribute? : Option String := none
  isValue : Bool
deriving DecidableEq, Repr

namespace Marshalling

/-- A value that crosses as it is, under a managed and a native spelling. -/
def direct (managed native : String) : Marshalling :=
  { managed, marshal := managed, bridge := native, isValue := true }

/-- A value that crosses as a type map says. -/
def ofTypeMap (m : TypeMap) : Marshalling where
  managed := m.managed
  marshal := m.marshal
  bridge := m.bridge
  managedToMarshal := m.managedToMarshal?.getD Template.hole
  marshalToManaged := m.marshalToManaged?.getD Template.hole
  bridgeToNative := m.bridgeToNative?.getD Template.hole
  nativeToBridge := m.nativeToBridge?.getD Template.hole
  attribute? := m.attribute?
  isValue := m.isValue

end Marshalling

/-- How a value of an exported type is reached. -/
inductive Indirection where
  | value
  | pointer
  | reference
deriving DecidableEq, Repr

/-- The types that can cross the bridge of one export namespace, as seen from a scope. -/
structure Mapper where
  rules : ExportRules
  symbols : Symbols
  forest : Forest
  scope : String := ""

namespace Mapper

/-- The same types as seen from another scope. -/
def inScope (m : Mapper) (scope : String) : Mapper :=
  { m with scope }

/-- The type map for a native spelling. -/
def mapFor? (m : Mapper) (spelling : String) : Option TypeMap :=
  m.rules.typeMaps.get? spelling

/-- The type map for a type: the one for its spelling, or else for the spelling of its base. -/
def typeMap? (m : Mapper) (type : NativeType) : Option TypeMap :=
  (m.mapFor? type.spelling).or (m.mapFor? type.base.spelling)

/-- The exported class or enum that a name refers to. -/
def typeNamed? (m : Mapper) (name : String) : Option NodeId :=
  m.symbols.typeNamed? m.forest m.scope name

/-- Whether a name refers to an exported class or enum. -/
def knows (m : Mapper) (name : String) : Bool :=
  (m.typeNamed? name).isSome

/-- Whether declarations that use the type may be exported. -/
def accepts (m : Mapper) (type : NativeType) : Bool :=
  type.isBuiltin || (m.typeMap? type).isSome ||
    match type with
    | .applied _ _ => type.argumentName?.any m.knows
    | _ => type.crossesDirectly || m.knows type.typeName

/-- How a class crosses. Managed code holds it by a pointer to the native instance. -/
def ofClass (managed symbol : String) (indirection : Indirection) : Marshalling :=
  let hole := Template.hole
  let (bridgeToNative, nativeToBridge) :=
    match indirection with
    | .pointer => (hole, hole)
    | .reference => ("*" ++ hole, "&" ++ hole)
    | .value => ("*" ++ hole, "new " ++ symbol ++ "(" ++ hole ++ ")")
  { managed
    marshal := "IntPtr"
    bridge := symbol ++ "*"
    managedToMarshal := "(" ++ hole ++ " == null ? IntPtr.Zero : " ++ hole ++ ".instance_)"
    marshalToManaged := managed ++ ".GetManagedInstance(" ++ hole ++ ")"
    bridgeToNative
    nativeToBridge
    isValue := false }

/-- How an exported class or enum crosses. Its managed name is relative to the module's
namespace. -/
def ofNode? (m : Mapper) (id : NodeId) (indirection : Indirection) : Option Marshalling :=
  (m.forest.node? id).bind fun n =>
    let path := m.forest.managedNamespace id m.rules.name ++ [n.name]
    let managed := ".".intercalate path
    match n.kind with
    | .classType => some (ofClass managed n.symbol indirection)
    | .enumeration =>
      match indirection with
      | .pointer => some (.direct "IntPtr" (n.symbol ++ "*"))
      | _ => some (.direct managed n.symbol)
    | _ => none

/-- How a type crosses that is known by its name. -/
def ofName? (m : Mapper) (name : String) (indirection : Indirection) : Option Marshalling :=
  (m.typeNamed? name).bind (m.ofNode? · indirection)

/-- How a builtin type crosses. -/
def ofBuiltin (m : Mapper) (kind : Builtin) : Marshalling :=
  match m.typeMap? (.builtin kind) with
  | some map => .ofTypeMap map
  | none => .direct kind.managed kind.spelling

/-- How a smart pointer crosses: as a pointer to its argument, wrapped on the native side. -/
def ofApplied? (m : Mapper) (template : String) (arguments : List NativeType) :
    Option Marshalling :=
  match m.typeMap? (.applied template arguments) with
  | some map => some (.ofTypeMap map)
  | none => do
    let id ← (arguments.head?.map NativeType.typeName).bind m.typeNamed?
    let info ← m.ofNode? id .pointer
    let symbol := (m.forest.node? id).elim "" Node.symbol
    return { info with
      bridgeToNative := template ++ "<" ++ symbol ++ ">(" ++ Template.hole ++ ")"
      nativeToBridge := Template.hole ++ ".Get()" }

/-- How a reference crosses that no type map covers. References to builtin types cross by value. -/
def ofReference? (m : Mapper) (referee : NativeType) (kind : RefKind) : Option Marshalling :=
  match referee.unqualified with
  | .builtin kind => some (m.ofBuiltin kind)
  | inner =>
    match m.typeMap? referee, inner with
    | some map, _ => some (.ofTypeMap map)
    | none, .applied template arguments => m.ofApplied? template arguments
    | none, _ =>
      m.ofName? referee.typeName
        (match kind with
          | .lvalue => .reference
          | .rvalue => .value)

/-- How a type crosses the bridge, if it can. A type map wins over everything else. -/
def resolve? (m : Mapper) : NativeType → Option Marshalling
  | .builtin kind => some (m.ofBuiltin kind)
  | .applied template arguments => m.ofApplied? template arguments
  | .qualified inner isConst isVolatile =>
    match m.typeMap? (.qualified inner isConst isVolatile) with
    | some map => some (.ofTypeMap map)
    | none => m.resolve? inner
  | .synonym name target =>
    match m.typeMap? (.synonym name target), m.typeNamed? name with
    | some map, _ => some (.ofTypeMap map)
    | none, some id => m.ofNode? id .value
    | none, none => m.resolve? target
  | type =>
    match m.typeMap? type with
    | some map => some (.ofTypeMap map)
    | none =>
      match type with
      | .named name => m.ofName? name .value
      | .pointer pointee =>
        if type.crossesDirectly then some (.direct "IntPtr" type.spelling)
        else m.ofName? pointee.typeName .pointer
      | .reference referee kind => m.ofReference? referee kind
      | _ => none

/-- Whether a type passes the gate and can be described. -/
def isExportable (m : Mapper) (type : NativeType) : Bool :=
  m.accepts type && (m.resolve? type).isSome

end Mapper

end Interop
