import Interop.Header.Parser

namespace Interop.Header.Parser

/-- The words that builtin types are made of. -/
def builtinWords : List String :=
  ["void", "bool", "char", "signed", "unsigned", "short", "int", "long", "float", "double",
    "wchar_t", "char16_t", "char32_t"]

/-- The builtin type that a row of such words writes, in any order. -/
def builtinOfWords (words : List String) : Builtin :=
  let has := words.contains
  let unsigned := has "unsigned"
  let longs := words.count "long"
  if has "void" then .void
  else if has "bool" then .bool
  else if has "wchar_t" then .wideChar
  else if has "char16_t" then .char16
  else if has "char32_t" then .char32
  else if has "float" then .float
  else if has "double" then if longs > 0 then .longDouble else .double
  else if has "char" then
    if unsigned then .unsignedChar else if has "signed" then .signedChar else .char
  else if has "short" then if unsigned then .unsignedShort else .short
  else if longs ≥ 2 then if unsigned then .unsignedLongLong else .longLong
  else if longs = 1 then if unsigned then .unsignedLong else .long
  else if unsigned then .unsignedInt
  else .int

/-- Takes the longest row of identifiers that satisfy `p` and returns their texts. -/
def words (p : String → Bool) : Parser (List String) := do
  let (row, rest) := (← get).span fun t => t.kind == .identifier && p t.text
  set rest
  return row.map Token.text

/-- Takes qualifiers and tells whether `const` and whether `volatile` is among them. -/
def qualifiers : Parser (Bool × Bool) := do
  let (row, rest) := (← get).span fun t => t.text == "const" || t.text == "volatile"
  set rest
  return (row.any (·.text == "const"), row.any (·.text == "volatile"))

/-- Takes what may stand in front of a base type: qualifiers, and words that only say what sort of
type follows. -/
def leadingQualifiers : Parser (Bool × Bool) := do
  let (row, rest) := (← get).span fun t =>
    ["const", "volatile", "typename", "struct", "class", "enum"].contains t.text
  set rest
  return (row.any (·.text == "const"), row.any (·.text == "volatile"))

/-- Takes the indirections behind a type, each with the qualifiers of a pointer. -/
def indirections (type : NativeType) : Parser NativeType :=
  loop type fun type => do
    match ← text with
    | "*" =>
      advance 1
      let (isConst, isVolatile) ← qualifiers
      again ((NativeType.pointer type).qualify isConst isVolatile)
    | "&" =>
      advance 1
      again (.reference type .lvalue)
    | "&&" =>
      advance 1
      again (.reference type .rvalue)
    | _ => done type

/-- Takes the arguments of a template, given the parser of types. What is not a type up to the next
comma or closing bracket is kept as it is spelled. -/
def templateArguments (type : Parser NativeType) : Parser (List NativeType) := do
  expect "<"
  if ← eat ">" then return []
  loop [] fun found => do
    let start ← get
    let startsType := start.head?.any fun t => t.kind == .identifier || t.text == "::"
    let parsed ← if startsType then attempt type else pure none
    let ended := (← isNext ",") || (← isNext ">")
    let argument ← match parsed, ended with
      | some type, true => pure type
      | _, _ => do
        set start
        let run ← upTo [",", ">"]
        pure (.unexposed (Token.spell run))
    if ← eat "," then again (argument :: found)
    else
      expect ">"
      done (argument :: found).reverse

/-- The type that an alias visible in the current scope gives a name, if there is one. A name is
looked up as it is written, and then with the current scopes in front. -/
def aliasTarget? (name : String) : Parser (Option NativeType) := do
  let full ← qualified name
  let aliases := (← getThe Memory).aliases
  return (aliases.lookup name).orElse fun _ => aliases.lookup full

/-- Takes a type's name with its scopes, or an instance of a template. A member of an instance is
kept as it is spelled. -/
def namedType (type : Parser NativeType) : Parser NativeType := do
  let lead := if ← eat "::" then "::" else ""
  loop lead fun lead => do
    let name := lead ++ (← identifier)
    if ← isNext "<" then
      let arguments ← templateArguments type
      if ← eat "::" then
        let member ← identifier
        done (.unexposed ((NativeType.applied name arguments).spelling ++ "::" ++ member))
      else done (.applied name arguments)
    else if (← isNext "::") && (← get)[1]?.any (·.kind == .identifier) then
      advance 1
      again (name ++ "::")
    else if name = "std::nullptr_t" ∨ name = "nullptr_t" then done (.builtin .nullptr)
    else
      match ← aliasTarget? name with
      | some target => done (.synonym name target)
      | none => done (.named name)

/-- Takes a type without qualifiers and indirections. -/
def baseType (type : Parser NativeType) : Parser NativeType := do
  match ← words builtinWords.contains with
  | w :: ws => return .builtin (builtinOfWords (w :: ws))
  | [] =>
    match ← identifier? with
    | some "auto" =>
      advance 1
      return .unexposed "auto"
    | some "decltype" =>
      advance 1
      let run ← balanced "(" ")"
      return .unexposed ("decltype(" ++ Token.spell run ++ ")")
    | _ => namedType type

/-- Takes a type, given the parser of the types in template arguments. Qualifiers before and behind
the base are put together. -/
def typeWith (type : Parser NativeType) : Parser NativeType := do
  let (const₁, volatile₁) ← leadingQualifiers
  let base ← baseType type
  let (const₂, volatile₂) ← qualifiers
  indirections (base.qualify (const₁ || const₂) (volatile₁ || volatile₂))

/-- Takes a type whose template arguments nest less than the bound. -/
def typeWithin : Nat → Parser NativeType
  | 0 => fail .nestedTooDeep
  | bound + 1 => typeWith (typeWithin bound)

/-- Takes a type. Template arguments begin with a token of their own, so they nest no deeper than
there are tokens. -/
def type : Parser NativeType := do
  typeWithin ((← get).length + 1)

end Interop.Header.Parser
