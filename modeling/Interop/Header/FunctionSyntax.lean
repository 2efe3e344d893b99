import Interop.Header.TypeSyntax

namespace Interop.Header.Parser

/-- Takes a pointer to a function behind its result type, if one is next: the name, which may be
missing, and the type, which is kept as it is spelled. -/
def functionPointer? (result : NativeType) : Parser (Option (String × NativeType)) := do
  if (← isNext "(") && (← isAt 1 "*") then
    advance 2
    discard <| eat "const"
    let name ← match ← identifier? with
      | some name =>
        advance 1
        pure name
      | none => pure ""
    expect ")"
    let arguments ← balanced "(" ")"
    if ← eat "noexcept" then
      if ← isNext "(" then discard <| balanced "(" ")"
    return some (name, .unexposed (result.spelling ++ " (*)(" ++ Token.spell arguments ++ ")"))
  else return none

/-- Passes over the attributes that are next. -/
def skipAttributes : Parser Unit :=
  loop () fun _ => do
    if ← isNext "[[" then
      skipAttribute
      again ()
    else done ()

/-- Takes the array bounds of a parameter; each makes the parameter a pointer. -/
def decayedArrays (type : NativeType) : Parser NativeType :=
  loop type fun type => do
    if ← isNext "[" then
      discard <| balanced "[" "]"
      again (.pointer type)
    else done type

/-- Takes one parameter. -/
def parameter : Parser Parameter := do
  if ← eat "..." then return { name := "", type := .unexposed "..." }
  skipAttributes
  let written ← type
  let (name, type) ← match ← functionPointer? written with
    | some pointer => pure pointer
    | none =>
      match ← identifier? with
      | some name =>
        advance 1
        pure (name, written)
      | none => pure ("", written)
  let type ← decayedArrays type
  let default? ←
    if ← eat "=" then
      let run ← upTo [",", ")"]
      pure (some (Token.spell run))
    else pure none
  return { name, type, default? }

/-- Takes a parameter list with its parentheses; a lone `void` means that there are no
parameters. -/
def parameters : Parser (List Parameter) := do
  expect "("
  if ← eat ")" then return []
  if (← isNext "void") && (← isAt 1 ")") then
    advance 2
    return []
  loop [] fun found => do
    let p ← parameter
    if ← eat "," then again (p :: found)
    else
      expect ")"
      done (p :: found).reverse

/-- Passes over a constructor's initializers, up to its body. -/
def skipInitializers : Parser Unit :=
  loop () fun _ => do
    if ← isNext "\x7b" then done ()
    else
      let t ← next
      if ← isNext "(" then discard <| balanced "(" ")"
      else if t.kind == .identifier && (← isNext "\x7b") then discard <| balanced "\x7b" "\x7d"
      again ()

/-- Takes what follows a function's parameters: qualifiers, a trailing result type, marks such as `=
0`, initializers and a body, up to the end of the declaration. -/
def functionTail (d : Declaration) : Parser Declaration :=
  loop d fun d => do
    match ← text with
    | "const" =>
      advance 1
      again { d with flags := { d.flags with isConst := true } }
    | "noexcept" | "throw" =>
      advance 1
      if ← isNext "(" then discard <| balanced "(" ")"
      again d
    | "override" =>
      advance 1
      again { d with flags := { d.flags with isVirtual := true } }
    | "final" | "volatile" | "&" | "&&" =>
      advance 1
      again d
    | "->" =>
      advance 1
      let result ← type
      again { d with returnType? := some result }
    | "=" =>
      advance 1
      match (← next).text with
      | "0" => again { d with flags := { d.flags with isPure := true, isVirtual := true } }
      | "default" => again { d with flags := { d.flags with isDefaulted := true } }
      | "delete" => again { d with flags := { d.flags with isDeleted := true } }
      | _ => again d
    | ":" =>
      advance 1
      skipInitializers
      again d
    | "\x7b" =>
      discard <| balanced "\x7b" "\x7d"
      discard <| eat ";"
      done { d with flags := { d.flags with isDefinition := true } }
    | ";" =>
      advance 1
      done d
    | _ => failFound .malformedFunction

end Interop.Header.Parser
