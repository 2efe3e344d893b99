import Interop.Json.Record
import Interop.Rules.Template

namespace Interop

/-- How a native type crosses the native, bridge and managed layers. A missing template leaves
values as they are. -/
structure TypeMap where
  /-- The native spelling the map is for. -/
  native : String
  /-- The type in the signatures of bridge functions. -/
  bridge : String
  /-- The type of the managed interface. -/
  managed : String
  /-- The type in managed declarations of bridge functions. -/
  marshal : String
  isValue : Bool
  nativeToBridge? : Option String := none
  bridgeToNative? : Option String := none
  marshalToManaged? : Option String := none
  managedToMarshal? : Option String := none
  attribute? : Option String := none
deriving DecidableEq, Repr

namespace TypeMap

/-- The native spelling of the string type that every namespace maps. -/
def stringType : String := "char const*"

/-- The native type that holds a converted string while a call lasts. -/
def stringHolder (native : String) : String :=
  if native = stringType then "MonoStringHolder" else native

/-- The conversion of a managed string to the given native type. -/
def fromManagedString (native : String) : String :=
  "CSharpConverter<MonoString>::FromCSharp<" ++ stringHolder native ++ ">(" ++ Template.hole ++ ")"

/-- The conversion of a native value to a managed string. -/
def toManagedString (expression : String) : String :=
  "CSharpConverter<MonoString>::ToCSharp(" ++ expression ++ ")"

/-- Routes a map to managed strings through the string converter, around the templates it
declares. -/
def throughStrings (m : TypeMap) : TypeMap :=
  { m with
    bridge := "MonoString*"
    nativeToBridge? := some (toManagedString (m.nativeToBridge?.getD Template.hole))
    bridgeToNative? :=
      some (match m.bridgeToNative? with
        | some template => Template.render template (fromManagedString m.native)
        | none => fromManagedString m.native) }

/-- A type map as a rules document declares it. -/
structure Declared where
  native : String
  bridge? : Option String := none
  managed? : Option String := none
  marshal : String
  nativeToBridge? : Option String := none
  bridgeToNative? : Option String := none
  marshalToManaged? : Option String := none
  managedToMarshal? : Option String := none
  attribute? : Option String := none
  isValue : Bool := false
deriving DecidableEq, Repr

/-- What an optional text holds, unless it is empty. -/
private def filled (text? : Option String) (default : String) : String :=
  (text?.filter (!·.isEmpty)).getD default

/-- The map that a declaration makes. The bridge type is the native one and the managed type the one
of managed declarations, unless they are given. -/
def ofDeclared (d : Declared) : TypeMap :=
  let m : TypeMap :=
    { native := d.native
      bridge := filled d.bridge? d.native
      managed := filled d.managed? d.marshal
      marshal := d.marshal
      isValue := d.isValue
      nativeToBridge? := d.nativeToBridge?
      bridgeToNative? := d.bridgeToNative?
      marshalToManaged? := d.marshalToManaged?
      managedToMarshal? := d.managedToMarshal?
      attribute? := d.attribute? }
  if m.managed = "string" then m.throughStrings else m

/-- The map of the native string type. -/
def ofStrings : TypeMap :=
  ofDeclared
    { native := stringType, managed? := some "string", marshal := "string"
      nativeToBridge? := some Template.hole, isValue := true }

/-- Reads a declared map. -/
def Declared.ofJson? (value : Json) : Option Declared := do
  let record ← value.record?
  let text := Json.Fields.optional (α := Option String)
  let fields : Json.Fields Declared := do
    let native ← Json.Fields.required "type" Json.string?
    let bridge? ← text "ctype" none (Json.nullable? Json.string?)
    let managed? ← text "cstype" none (Json.nullable? Json.string?)
    let marshal ← Json.Fields.required "ptype" Json.string?
    let nativeToBridge? ← text "cpp_to_c" none (Json.nullable? Json.string?)
    let bridgeToNative? ← text "c_to_cpp" none (Json.nullable? Json.string?)
    let marshalToManaged? ← text "pinvoke_to_cs" none (Json.nullable? Json.string?)
    let managedToMarshal? ← text "cs_to_pinvoke" none (Json.nullable? Json.string?)
    let attribute? ← text "marshal_attribute" none (Json.nullable? Json.string?)
    let isValue ← Json.Fields.optional "is_value_type" false Json.bool?
    return { native, bridge?, managed?, marshal, nativeToBridge?, bridgeToNative?,
             marshalToManaged?, managedToMarshal?, attribute?, isValue }
  fields.run record

end TypeMap

end Interop
