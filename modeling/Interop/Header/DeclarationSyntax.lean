import Interop.Header.MemberSyntax

namespace Interop.Header.Parser

/-- A parser of the declaration that is next, inside the named class or outside of classes. -/
abbrev DeclarationParser := Option String → Parser (List Declaration)

/-- The access that a label sets, if one is next. -/
def accessLabel? : Parser (Option Access) := do
  if ← isAt 1 ":" then return Access.ofWord? (← text) else return none

/-- Takes one declaration. If it cannot be read, passes over it and leaves an unexposed declaration
in its place; if its end cannot be found either, its error stands. -/
def recovering (declaration : DeclarationParser) (inClass : Option String) :
    Parser (List Declaration) := do
  let line ← line
  tryCatch (declaration inClass) fun e => do
    match Token.pastDeclaration 0 0 (← get) with
    | some rest =>
      set rest
      return [{ kind := .unexposed, name := "", line }]
    | none => throw e

/-- Takes declarations up to a closing brace or the end. In a class, every declaration has the
access of the last label before it. -/
def declarations (declaration : DeclarationParser) (inClass : Option String) (access : Access) :
    Parser (List Declaration) :=
  loop (access, []) fun (access, found) => do
    match ← peek? with
    | none => done found.reverse
    | some t =>
      if t.text = "\x7d" then done found.reverse
      else if t.text = ";" then
        advance 1
        again (access, found)
      else
        match ← (if inClass.isSome then accessLabel? else pure none) with
        | some label =>
          advance 2
          let mark : Declaration :=
            { kind := .accessLabel, name := label.word, access := label, line := t.line }
          again (label, mark :: found)
        | none =>
          let ds ← recovering declaration inClass
          let ds := if inClass.isSome then ds.map ({ · with access := access }) else ds
          again (access, ds.reverse ++ found)

/-- The namespaces of the given names, the outermost first, each but the last holding the next. -/
def nestedNamespaces (children : List Declaration) : List String → List Declaration
  | [] => children
  | name :: rest => [{ kind := .nameSpace, name, children := nestedNamespaces children rest }]

/-- Takes the names of a namespace, with double colons between them. -/
def namespaceNames : Parser (List String) :=
  loop [] fun found => do
    match ← identifier? with
    | none => done found.reverse
    | some name =>
      advance 1
      if ← eat "::" then again (name :: found) else done (name :: found).reverse

/-- Takes a namespace, or an alias of one. The scopes are entered before the opening brace is looked
for, and stay entered if it is missing. -/
def nameSpace (declaration : DeclarationParser) : Parser (List Declaration) := do
  advance 1
  let names ← namespaceNames
  if ← eat "=" then
    let target ← upTo [";"]
    discard <| eat ";"
    return [{ kind := .namespaceAlias, name := names.headD "",
              value? := some (Token.spell target) }]
  else
    let names := if names.isEmpty then [""] else names
    enterScopes names
    expect "\x7b"
    let children ← thenLeaving names.length (declarations declaration none .exposed)
    expect "\x7d"
    return nestedNamespaces children names

/-- The language that a linkage block's string names. -/
def linkageName (text : String) : String :=
  String.ofList ((text.toList.dropWhile (· == '"')).reverse.dropWhile (· == '"')).reverse

/-- Takes a linkage block, or one declaration with a linkage. -/
def linkage (declaration : DeclarationParser) (inClass : Option String) :
    Parser (List Declaration) := do
  advance 1
  let name := linkageName (← next).text
  if ← eat "\x7b" then
    let children ← declarations declaration inClass .exposed
    expect "\x7d"
    return [{ kind := .linkage, name, children }]
  else
    let children ← declaration inClass
    return [{ kind := .linkage, name, children }]

/-- The template parameter that a group of tokens declares: its name is the last identifier before
the default. -/
def templateParameter? (group : List Token) : Option Declaration :=
  match group with
  | [] => none
  | first :: _ =>
    let kind : Kind :=
      match first.text with
      | "typename" | "class" => .templateTypeParameter
      | "template" => .templateTemplateParameter
      | _ => .templateValueParameter
    let declared := group.takeWhile (·.text != "=")
    let name := (declared.reverse.find? (·.kind == .identifier)).elim "" Token.text
    some { kind, name, line := first.line }

/-- Takes a list of template parameters with its brackets. -/
def templateParameters : Parser (List Declaration) := do
  expect "<"
  let groups ← takeRun (Token.angleGroups 0 []) .unexpectedEnd
  return groups.filterMap templateParameter?

/-- The kind of the template or specialization that wraps a declaration of the given kind, if one
does. -/
def templateKind? (isSpecialization : Bool) (kind : Kind) : Option Kind :=
  match kind with
  | .classType => some (if isSpecialization then .classSpecialization else .classTemplate)
  | .classSpecialization => some .classSpecialization
  | .typeAlias => some .aliasTemplate
  | _ =>
    if kind.isFunction then
      some (if isSpecialization then .functionSpecialization else .functionTemplate)
    else if kind.isVariable then some .variableTemplate
    else none

/-- The template around a declaration. Only class and function templates hold what they wrap. -/
def templated (parameters : List Declaration) (d : Declaration) : Declaration :=
  match templateKind? parameters.isEmpty d.kind with
  | none => d
  | some kind =>
    let children := if kind.isContainer then parameters ++ [{ d with isTemplated := true }] else []
    { kind, name := d.name, access := d.access, line := d.line, children }

/-- Takes a template. -/
def template (declaration : DeclarationParser) (inClass : Option String) :
    Parser (List Declaration) := do
  advance 1
  let parameters ← templateParameters
  let inner ← declaration inClass
  return inner.map (templated parameters)

/-- Takes a friend, which is named after what it declares. -/
def friend (declaration : DeclarationParser) (inClass : Option String) :
    Parser (List Declaration) := do
  advance 1
  if ["class", "struct"].contains (← text) && (← isAt 2 ";") then
    advance 1
    let name ← identifier
    discard <| eat ";"
    return [{ kind := .friend, name }]
  else
    let inner ← declaration inClass
    let name := ((inner.map (·.name)).find? (· != "")).getD ""
    return [{ kind := .friend, name, children := inner.map ({ · with isFriended := true }) }]

/-- Takes the names between a class's keyword and its bases, attributes and macros with arguments
left out. -/
def classNames : Parser (List String) :=
  loop [] fun found => do
    if ← isNext "[[" then
      skipAttribute
      again found
    else
      match ← identifier? with
      | none => done found.reverse
      | some name =>
        advance 1
        if ← isNext "(" then
          discard <| balanced "(" ")"
          again found
        else
          let name ← loop name fun name => do
            if ← eat "::" then
              let part ← identifier
              again (name ++ "::" ++ part)
            else done name
          again (name :: found)

/-- The name of a class among the names in front of its body, and the names before it. A closing
`final` is not the name unless it stands alone. -/
def className (names : List String) : String × List String :=
  match names.reverse with
  | [] => ("", [])
  | [name] => (name, [])
  | "final" :: name :: before => (name, before.reverse)
  | name :: before => (name, before.reverse)

/-- Takes a base class. -/
def baseClass (defaultAccess : Access) : Parser Declaration := do
  let row ← words ["public", "protected", "private", "virtual"].contains
  let access := (row.filterMap Access.ofWord?).getLast?.getD defaultAccess
  let line ← line
  let base ← type
  return {
    kind := .baseClass, name := base.spelling, access, type? := some base, line
    flags := { isVirtual := row.contains "virtual" } }

/-- Takes the base classes behind a colon, if there are any. -/
def baseClasses (defaultAccess : Access) : Parser (List Declaration) := do
  if ← eat ":" then
    loop [] fun found => do
      let base ← baseClass defaultAccess
      if ← eat "," then again (base :: found) else done (base :: found).reverse
  else return []

/-- Takes the bases and the body of a class. -/
def classBody (declaration : DeclarationParser) (kind : Kind) (name : String) (access : Access)
    (line : Nat) : Parser Declaration := do
  let bases ← baseClasses access
  expect "\x7b"
  enterScopes [name]
  let members ← thenLeaving 1 (declarations declaration (some name) access)
  expect "\x7d"
  if kind = .classType ∧ name ≠ "" then recordDefinition name
  endDeclaration
  return { kind, name, line, flags := { isDefinition := true }, children := bases ++ members }

/-- Takes a class, whose announcement alone declares nothing, or a declaration whose type is written
with a class keyword. -/
def classOrElaborated (declaration : DeclarationParser) (inClass : Option String) :
    Parser (List Declaration) := do
  let keyword ← next
  let start ← get
  let line ← line
  let (name, before) := className (← classNames)
  let isSpecialization ← isNext "<"
  if isSpecialization then
    discard templateParameters
    discard <| eat "final"
  let behind ← text
  if behind = "\x7b" ∨ behind = ":" then
    let kind : Kind := if isSpecialization then .classSpecialization else .classType
    let access : Access := if keyword.text = "class" then .hidden else .exposed
    return [← classBody declaration kind name access line]
  else if behind = ";" ∧ before.all isExportMacro then
    advance 1
    return []
  else
    set start
    member inClass

/-- Takes the enumerators of an enum, up to its closing brace. -/
def enumerators : Parser (List Declaration) :=
  loop [] fun found => do
    if ← isNext "\x7d" then done found.reverse
    else
      let line ← line
      let name ← identifier
      let value? ←
        if ← eat "=" then
          let run ← upTo [",", "\x7d"]
          pure (some (Token.spell run))
        else pure none
      let found := { kind := .enumerator, name, value?, line } :: found
      if ← eat "," then again found else done found.reverse

/-- Takes an enum. One without a body declares nothing. -/
def enumeration : Parser (List Declaration) := do
  advance 1
  let line ← line
  let isScoped ← if ← eat "class" then pure true else eat "struct"
  let name ← match ← identifier? with
    | some name =>
      advance 1
      pure name
    | none => pure ""
  let type? ← if ← eat ":" then some <$> type else pure none
  if ← eat ";" then return []
  else if ← isNext "\x7b" then
    advance 1
    let children ← enumerators
    expect "\x7d"
    endDeclaration
    if name ≠ "" then recordDefinition name
    let flags : Flags := { isScoped, isDefinition := true }
    return [{ kind := .enumeration, name, type?, line, flags, children }]
  else
    skipDeclaration
    return []

/-- Takes a using declaration, a using directive or an alias. -/
def usingDeclaration : Parser (List Declaration) := do
  advance 1
  if ← eat "namespace" then
    let target ← upTo [";"]
    discard <| eat ";"
    return [{ kind := .usingDirective, name := Token.spell target }]
  else if (← identifier?).isSome && (← isAt 1 "=") then
    let name ← identifier
    advance 1
    let target ← type
    endDeclaration
    recordAlias name target
    return [{ kind := .typeAlias, name, type? := some target }]
  else
    let target ← upTo [";"]
    discard <| eat ";"
    return [{ kind := .usingDeclaration, name := Token.spell target }]

/-- The declaration that stands for a type definition whose form is not modelled. -/
def unmodelledTypedef : Parser (List Declaration) := do
  skipDeclaration
  return [{ kind := .unexposed, name := "typedef" }]

/-- Takes a type definition: an alias of a type or of a pointer to a function. -/
def typedef : Parser (List Declaration) := do
  advance 1
  match ← attempt type with
  | none => unmodelledTypedef
  | some target =>
    match ← functionPointer? target with
    | some (name, pointer) =>
      endDeclaration
      recordAlias name pointer
      return [{ kind := .typeAlias, name, type? := some pointer }]
    | none =>
      match ← identifier?, ← isAt 1 ";" with
      | some name, true =>
        advance 2
        recordAlias name target
        return [{ kind := .typeAlias, name, type? := some target }]
      | _, _ => unmodelledTypedef

/-- Takes a static assertion, whose condition is kept as it is spelled. -/
def staticAssertion : Parser (List Declaration) := do
  advance 1
  let condition ← balanced "(" ")"
  discard <| eat ";"
  return [{ kind := .staticAssert, name := "", value? := some (Token.spell condition) }]

/-- Takes the declaration that the next token begins, given the parser of the declarations in it. -/
def declarationForm (declaration : DeclarationParser) (inClass : Option String) :
    Parser (List Declaration) := do
  match ← text with
  | "namespace" => nameSpace declaration
  | "template" => template declaration inClass
  | "class" | "struct" | "union" => classOrElaborated declaration inClass
  | "enum" => enumeration
  | "using" => usingDeclaration
  | "typedef" => typedef
  | "static_assert" => staticAssertion
  | "friend" => friend declaration inClass
  | "extern" =>
    if (← get)[1]?.any (·.kind == .string) then linkage declaration inClass else member inClass
  | _ => member inClass

/-- Takes a declaration, given the parser of the declarations in it. A declaration that knows no
line of its own begins in the line of its first token. -/
def declarationWith (declaration : DeclarationParser) (inClass : Option String) :
    Parser (List Declaration) := do
  let line ← line
  let ds ← declarationForm declaration inClass
  return ds.map fun d => if d.line = 0 then { d with line } else d

/-- Takes a declaration whose parts nest less than the bound. -/
def declarationWithin : Nat → DeclarationParser
  | 0, _ => fail .nestedTooDeep
  | bound + 1, inClass => declarationWith (declarationWithin bound) inClass

/-- Takes all declarations of a header. A declaration inside another begins behind a token of the
outer one, so they nest no deeper than there are tokens. -/
def header : Parser (List Declaration) := do
  let ds ← declarations (declarationWithin ((← get).length + 1)) none .exposed
  match ← peek? with
  | some t => throw ⟨t.line, .unexpectedToken t.text⟩
  | none => return ds

end Interop.Header.Parser
