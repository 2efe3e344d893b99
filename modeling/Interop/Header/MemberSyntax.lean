import Interop.Header.FunctionSyntax

namespace Interop.Header.Parser

/-- Whether a word looks like an export macro: capitals, digits and underscores, a capital first,
and `_API` or `_EXPORT` at the end. -/
def isExportMacro (word : String) : Bool :=
  let cs := word.toList
  cs.head?.any (fun c => c.isUpper) && cs.all (fun c => c.isUpper || c.isDigit || c == '_') &&
    ("_API".toList.isSuffixOf cs || "_EXPORT".toList.isSuffixOf cs)

/-- The specifier that a word in front of a declaration sets, if the word may stand there at all. -/
def specifier? (word : String) : Option Flags :=
  match word with
  | "static" => some { isStatic := true }
  | "virtual" => some { isVirtual := true }
  | "inline" | "__forceinline" => some { isInline := true }
  | "explicit" => some { isExplicit := true }
  | "constexpr" => some { isConstexpr := true }
  | "extern" | "mutable" | "thread_local" => some {}
  | _ => if isExportMacro word then some {} else none

/-- Takes the specifiers and attributes in front of a declaration. -/
def specifiers : Parser Flags :=
  loop {} fun flags => do
    if ← isNext "[[" then
      skipAttribute
      again flags
    else
      match (← identifier?).bind specifier? with
      | some flag =>
        advance 1
        again (flags.union flag)
      | none => done flags

/-- The part of a declarator's type that the declarators of one statement share. -/
def sharedType : NativeType → NativeType
  | .pointer pointee => sharedType pointee
  | .reference referee _ => sharedType referee
  | .array element _ => sharedType element
  | .qualified (.pointer pointee) _ _ => sharedType pointee
  | .qualified (.reference referee _) _ _ => sharedType referee
  | type => type

/-- Adds the specifiers in front of a declaration to those found inside it. -/
def withFlags (flags : Flags) (d : Declaration) : Declaration :=
  { d with flags := d.flags.union flags }

/-- The kind of a function, given the class around it. -/
def functionKind (inClass : Option String) : Kind :=
  if inClass.isSome then .memberFunction else .freeFunction

/-- The kind of a variable, given the class around it. -/
def variableKind (inClass : Option String) : Kind :=
  if inClass.isSome then .memberVariable else .freeVariable

/-- Takes the parameters of a function and what follows them. -/
def functionRest (d : Declaration) (flags : Flags) : Parser Declaration := do
  let parameters ← parameters
  let d ← functionTail { d with parameters }
  return withFlags flags d

/-- Takes a destructor behind its specifiers. -/
def destructor (flags : Flags) : Parser Declaration := do
  advance 1
  let name ← identifier
  discard <| balanced "(" ")"
  let d ← functionTail { kind := .destructor, name := "~" ++ name }
  return withFlags flags d

/-- Takes a constructor of the named class behind its specifiers. -/
def constructor (inClass : String) (flags : Flags) : Parser Declaration := do
  advance 1
  functionRest { kind := .constructor, name := inClass } flags

/-- Takes a conversion operator behind its specifiers. -/
def conversion (flags : Flags) : Parser Declaration := do
  advance 1
  let target ← type
  functionRest
    { kind := .conversion, name := "operator " ++ target.spelling,
      returnType? := some target } flags

/-- Takes the marks of an operator's name, up to its parameters. -/
def operatorName : Parser String := do
  advance 1
  loop "operator" fun name => do
    if (← isNext "(") && name != "operator" then done name
    else
      let t ← next
      if t.text = "(" then
        expect ")"
        again (name ++ "()")
      else again (name ++ t.text)

/-- Takes the array bounds of a variable. -/
def arrayBounds (type : NativeType) : Parser NativeType :=
  loop type fun type => do
    if ← isNext "[" then
      let size ← balanced "[" "]"
      again (.array type (if size.isEmpty then none else some (Token.spell size)))
    else done type

/-- Takes the initializer of a variable, if there is one. -/
def initializer? : Parser (Option String) := do
  if ← eat "=" then
    let run ← upTo [",", ";"]
    return some (Token.spell run)
  else if ← isNext "\x7b" then
    let run ← balanced "\x7b" "\x7d"
    return some (Token.spell run)
  else return none

/-- Takes a variable behind its name: array bounds, a bit width and an initializer. -/
def variableRest (inClass : Option String) (name : String) (type : NativeType) (flags : Flags) :
    Parser Declaration := do
  let type ← arrayBounds type
  let kind ←
    if ← eat ":" then
      discard <| upTo [",", ";", "=", "\x7b"]
      pure .bitField
    else pure (variableKind inClass)
  let value? ← initializer?
  return { kind, name, flags, type? := some type, value? }

/-- Takes the declarators behind a type. `start` is where the statement began: a declarator that is
not understood makes the whole statement one unexposed declaration. -/
def declarators (inClass : Option String) (flags : Flags) (shared : NativeType)
    (start : List Token) : Parser (List Declaration) :=
  loop (shared, []) fun (type, found) => do
    if ← isNext "operator" then
      let name ← operatorName
      let d ← functionRest { kind := functionKind inClass, name, returnType? := some type } flags
      done (d :: found).reverse
    else
      match ← functionPointer? type with
      | some (name, pointer) =>
        endDeclaration
        done ({ kind := variableKind inClass, name, flags, type? := some pointer } :: found).reverse
      | none =>
        match ← identifier? with
        | none =>
          set start
          skipDeclaration
          done [{ kind := .unexposed, name := "" }]
        | some name =>
          advance 1
          if ← isNext "::" then
            skipDeclaration
            done found.reverse
          else if ← isNext "(" then
            let d ←
              functionRest { kind := functionKind inClass, name, returnType? := some type } flags
            done (d :: found).reverse
          else
            let d ← variableRest inClass name type flags
            if ← eat "," then
              let type ← indirections (sharedType shared)
              again (type, d :: found)
            else
              endDeclaration
              done (d :: found).reverse

/-- Takes a function or a statement that declares variables. -/
def member (inClass : Option String) : Parser (List Declaration) := do
  let start ← get
  let flags ← specifiers
  let isConstructor := inClass.isSome && (← identifier?) == inClass && (← isAt 1 "(")
  if ← isNext "~" then return [← destructor flags]
  else if isConstructor then return [← constructor (inClass.getD "") flags]
  else if ← isNext "operator" then return [← conversion flags]
  else
    match ← attempt type with
    | some shared => declarators inClass flags shared start
    | none =>
      set start
      skipDeclaration
      return [{ kind := .unexposed, name := "" }]

end Interop.Header.Parser
