import Interop.Json.Record
import Interop.Native.Declaration

namespace Interop

mutual

/-- How deep a JSON value nests. -/
def Json.depth : Json → Nat
  | .array items => Json.itemsDepth items + 1
  | .object members => Json.membersDepth members + 1
  | _ => 0

/-- How deep the items of an array nest. -/
def Json.itemsDepth : List Json → Nat
  | [] => 0
  | item :: rest => max item.depth (Json.itemsDepth rest)

/-- How deep the members of an object nest. -/
def Json.membersDepth : List (String × Json) → Nat
  | [] => 0
  | (_, value) :: rest => max value.depth (Json.membersDepth rest)

end

namespace Builtin

/-- Reads the name of a builtin type. -/
def ofJson? (value : Json) : Option Builtin :=
  value.alternative? >>= ofTag?

end Builtin

namespace RefKind

/-- The word for a kind of reference. -/
def word : RefKind → String
  | lvalue => "lvalue"
  | rvalue => "rvalue"

/-- The kind of reference a word stands for. -/
def ofWord? : String → Option RefKind
  | "lvalue" => some lvalue
  | "rvalue" => some rvalue
  | _ => none

end RefKind

namespace Kind

/-- Reads the name of a kind. -/
def ofJson? (value : Json) : Option Kind :=
  value.alternative? >>= ofTag?

end Kind

namespace Access

/-- Reads the word for an access. -/
def ofJson? (value : Json) : Option Access :=
  value.alternative? >>= ofWord?

end Access

namespace NativeType

/-- The names of the forms of types, in the order in which documents number them. -/
def formNames : List String :=
  ["builtin", "user_defined", "cv_qualified", "pointer", "reference", "array",
    "template_instantiation", "unexposed"]

/-- The name of the form that a document gives. A type inside another may give the number of its
form instead. -/
def formName? (isInner : Bool) : Json → Option String
  | .string name => some name
  | .number (.integer (.ofNat n)) => if isInner then formNames[n]? else none
  | _ => none

/-- The name of an alternative inside a type: an object may map the name to an empty object as well
as to null. -/
def alternative? : Json → Option String
  | .object [(name, .object [])] => some name
  | value => value.alternative?

open Json.Fields in
/-- Reads the fields of a type whose form is named; `read` reads the types inside it. -/
def fieldsOfForm (read : Json → Option NativeType) : String → Json.Fields NativeType
  | "builtin" => return builtin (← required "builtin" fun value => alternative? value >>=
    Builtin.ofTag?)
  | "user_defined" => do
    let name ← required "name" Json.string?
    match ← optional "canonical" none (Json.nullable? read) with
    | some target => return synonym name target
    | none => return named name
  | "cv_qualified" => do
    let inner ← required "inner" read
    let isConst ← required "is_const" Json.bool?
    let isVolatile ← required "is_volatile" Json.bool?
    return qualified inner isConst isVolatile
  | "pointer" => return pointer (← required "pointee" read)
  | "reference" => do
    let referee ← required "referee" read
    let kind ← required "ref_kind" fun value => alternative? value >>= RefKind.ofWord?
    return reference referee kind
  | "array" => do
    let element ← required "element" read
    return array element (← nullableNamed "size" Json.string?)
  | "template_instantiation" => do
    let template ← required "template" Json.string?
    let arguments ← required "arguments" fun value => value.items? >>= (·.mapM read)
    return applied template arguments
  | "unexposed" => return unexposed (← required "spelling" Json.string?)
  | _ => failure

/-- Reads a type that nests less than the bound and may lie inside another. -/
private def ofJsonWithin? (isInner : Bool) : Nat → Json → Option NativeType
  | 0, _ => none
  | bound + 1, value => do
    let record ← value.record?
    let fields : Json.Fields NativeType := do
      let form ← Json.Fields.required "kind" (formName? isInner)
      fieldsOfForm (ofJsonWithin? true bound) form
    fields.run record

/-- Reads a type. -/
def ofJson? (value : Json) : Option NativeType :=
  ofJsonWithin? false (value.depth + 1) value

mutual

/-- The document of a type, with all its fields. -/
def toJson : NativeType → Json
  | builtin kind => .ofMembers [("kind", .string "builtin"), ("builtin", .string kind.tag)]
  | named name =>
    .ofMembers [("kind", .string "user_defined"), ("name", .string name), ("canonical", .null)]
  | synonym name target =>
    .ofMembers
      [("kind", .string "user_defined"), ("name", .string name), ("canonical", target.toJson)]
  | qualified inner isConst isVolatile =>
    .ofMembers [("kind", .string "cv_qualified"), ("inner", inner.toJson),
      ("is_const", .bool isConst), ("is_volatile", .bool isVolatile)]
  | pointer pointee => .ofMembers [("kind", .string "pointer"), ("pointee", pointee.toJson)]
  | reference referee kind =>
    .ofMembers [("kind", .string "reference"), ("referee", referee.toJson),
      ("ref_kind", .string kind.word)]
  | array element size =>
    .ofMembers [("kind", .string "array"), ("element", element.toJson), ("size", .ofOption size)]
  | applied template arguments =>
    .ofMembers [("kind", .string "template_instantiation"), ("template", .string template),
      ("arguments", .array (toJsons arguments))]
  | unexposed spelling =>
    .ofMembers [("kind", .string "unexposed"), ("spelling", .string spelling)]

/-- The documents of a list of types. -/
def toJsons : List NativeType → List Json
  | [] => []
  | type :: rest => type.toJson :: toJsons rest

end

end NativeType

namespace Parameter

/-- Reads a parameter. -/
def ofJson? (value : Json) : Option Parameter := do
  let record ← value.record?
  let fields : Json.Fields Parameter := do
    let name ← Json.Fields.required "name" Json.string?
    let type ← Json.Fields.required "ty" NativeType.ofJson?
    let default? ← Json.Fields.optional "defaultValue" none (Json.nullable? Json.string?)
    return { name, type, default? }
  fields.run record

/-- The document of a parameter. -/
def toJson (p : Parameter) : Json :=
  .ofMembers [("name", .string p.name), ("ty", p.type.toJson),
    ("defaultValue", .ofOption p.default?)]

end Parameter

namespace Declaration

/-- The specifiers a declaration's document lists beside its fields. -/
private def listedFlags (value : Json) : Flags :=
  match value.member? "flags" with
  | some (.array items) => .ofNames (items.filterMap Json.string?)
  | _ => {}

open Json.Fields in
/-- Reads the fields of a declaration; `read` reads the declarations inside it. -/
private def fields (read : Json → Option Declaration) (flags : Flags) :
    Json.Fields Declaration := do
  let kind ← required "kind" Kind.ofJson?
  let name ← required "name" Json.string?
  let access ← optional "access" .exposed Access.ofJson?
  let isTemplated ← optional "templated" false Json.bool?
  let isFriended ← optional "friended" false Json.bool?
  let type? ← optional "ty" none (Json.nullable? NativeType.ofJson?)
  let returnType? ← optional "returnType" none (Json.nullable? NativeType.ofJson?)
  let parameters ← optional "parameters" [] fun value => value.items? >>= (·.mapM Parameter.ofJson?)
  let value? ← optional "value" none (Json.nullable? Json.string?)
  let line ← optional "line" 0 Json.count?
  let children ← optional "children" [] fun value => value.items? >>= (·.mapM read)
  return { kind, name, access, isTemplated, isFriended, flags, type?, returnType?, parameters,
           value?, line, children }

/-- Reads a declaration that nests less than the bound. -/
private def ofJsonWithin? (flagged : Bool) : Nat → Json → Option Declaration
  | 0, _ => none
  | bound + 1, value => do
    let record ← value.record?
    let flags := if flagged then listedFlags value else {}
    (fields (ofJsonWithin? flagged bound) flags).run record

/-- Reads a declaration. Its specifiers are read only when `flagged` asks for them. -/
def ofJson? (flagged : Bool) (value : Json) : Option Declaration :=
  ofJsonWithin? flagged (value.depth + 1) value

mutual

/-- The document of a declaration, with all its fields except the specifiers. -/
def toJson : Declaration → Json
  | { kind, name, access, isTemplated, isFriended, flags := _, type?, returnType?, parameters,
      value?, line, children } =>
    .ofMembers
      [("kind", .string kind.tag), ("name", .string name), ("access", .string access.word),
        ("templated", .bool isTemplated), ("friended", .bool isFriended),
        ("ty", (type?.map NativeType.toJson).getD .null),
        ("returnType", (returnType?.map NativeType.toJson).getD .null),
        ("parameters", .array (parameters.map Parameter.toJson)), ("value", .ofOption value?),
        ("line", .ofNat line), ("children", .array (toJsons children))]

/-- The documents of a list of declarations. -/
def toJsons : List Declaration → List Json
  | [] => []
  | d :: rest => d.toJson :: toJsons rest

end

end Declaration

namespace HeaderUnit

/-- Reads a header's path and its root declaration. -/
def ofJson? (value : Json) : Option HeaderUnit := do
  let record ← value.record?
  let fields : Json.Fields HeaderUnit := do
    let path ← Json.Fields.required "path" Json.string?
    let root ← Json.Fields.required "root" (Declaration.ofJson? false)
    return ⟨⟨path⟩, root⟩
  fields.run record

end HeaderUnit

end Interop
