import Interop.Header.Bracket
import Interop.Native.Declaration

namespace Interop.Header

/-- What parsing has recorded. -/
structure Memory where
  /-- The types that names stand for, the last first. -/
  aliases : List (String × NativeType) := []
  /-- The names of the enclosing namespaces and classes, the innermost first. -/
  scope : List String := []
  /-- The names of the defined types with their scopes, the last first. -/
  defined : List String := []

/-- A parser. It is told the line of the last token, or zero if there are none. -/
abbrev Parser := ReaderT Nat (StateT (List Token) (ExceptT SyntaxError (StateM Memory)))

namespace Parser

variable {α β : Type}

/-- The next token. -/
def peek? : Parser (Option Token) :=
  return (← get).head?

/-- The text of the token `n` places ahead, or the empty text, which is no token's. -/
def textAt (n : Nat) : Parser String :=
  return ((← get)[n]?).elim "" Token.text

/-- The text of the next token, or the empty text at the end. -/
def text : Parser String :=
  textAt 0

/-- Whether the next token has the given text. -/
def isNext (expected : String) : Parser Bool :=
  return (← get).head?.any (·.text == expected)

/-- Whether the token `n` places ahead has the given text. -/
def isAt (n : Nat) (expected : String) : Parser Bool :=
  return ((← get)[n]?).any (·.text == expected)

/-- The next token's text, if it is an identifier. -/
def identifier? : Parser (Option String) :=
  return ((← get).head?.filter (·.kind == .identifier)).map Token.text

/-- The line of the next token, or of the last one at the end. -/
def line : Parser Nat := do
  return (← get).head?.elim (← read) Token.line

/-- Fails at the current line. -/
def fail (cause : SyntaxCause) : Parser α := do
  throw ⟨← line, cause⟩

/-- Fails with a cause that tells what was found. -/
def failFound (cause : Option String → SyntaxCause) : Parser α := do
  fail (cause ((← peek?).map Token.text))

/-- Passes over `n` tokens. -/
def advance (n : Nat) : Parser Unit :=
  modify (·.drop n)

/-- Takes the next token. -/
def next : Parser Token := do
  match ← get with
  | [] => fail .unexpectedEnd
  | t :: rest =>
    set rest
    return t

/-- Takes the next token if it has the given text, and tells whether it did. -/
def eat (expected : String) : Parser Bool := do
  if ← isNext expected then
    advance 1
    return true
  else return false

/-- Takes a token that has to have the given text. -/
def expect (expected : String) : Parser Unit := do
  if ← eat expected then return () else failFound (.expectedToken expected)

/-- Takes an identifier. -/
def identifier : Parser String := do
  match ← identifier? with
  | some name =>
    advance 1
    return name
  | none => failFound .expectedIdentifier

/-- Takes a run of tokens found by `run?`, or fails at the end of the tokens. -/
def takeRun (run? : List Token → Option (α × List Token)) (cause : SyntaxCause) : Parser α := do
  match run? (← get) with
  | some (run, rest) =>
    set rest
    return run
  | none => throw ⟨(← read), cause⟩

/-- Takes a bracket, what it encloses and the bracket that closes it, and returns what is
enclosed. -/
def balanced (opening closing : String) : Parser (List Token) := do
  expect opening
  takeRun (Token.balancedRun opening closing 0) .unexpectedEnd

/-- Takes the tokens before the first of the stops outside all brackets. -/
def upTo (stops : List String) : Parser (List Token) :=
  takeRun (Token.runUntil stops 0) .unterminatedExpression

/-- Passes over the rest of a declaration. -/
def skipDeclaration : Parser Unit :=
  takeRun (fun tokens => (Token.pastDeclaration 0 0 tokens).map ((), ·)) .unexpectedEnd

/-- Takes the semicolon that ends a declaration, or passes over what stands before it. -/
def endDeclaration : Parser Unit := do
  if ← eat ";" then return () else skipDeclaration

/-- Passes over an attribute, whose opening brackets are next. -/
def skipAttribute : Parser Unit := do
  advance 1
  discard <| upTo ["]"]
  expect "]"
  expect "]"

/-- Runs a parser and returns nothing, with all tokens given back, if it fails. -/
def attempt (p : Parser α) : Parser (Option α) :=
  tryCatch (some <$> p) fun _ => return none

/-- Repeats a step at most as often as the bound says. -/
def loopWithin (step : α → Parser (α ⊕ β)) : (bound : Nat) → α → Parser β
  | 0, _ => fail .nestedTooDeep
  | bound + 1, a => do
    match ← step a with
    | .inl a => loopWithin step bound a
    | .inr b => return b

/-- Repeats a step until it finishes. A step that does not finish has taken a token, so there is
always a repetition left for it. -/
def loop (start : α) (step : α → Parser (α ⊕ β)) : Parser β := do
  loopWithin step ((← get).length + 1) start

/-- Goes on with a loop. -/
def again (a : α) : Parser (α ⊕ β) :=
  return .inl a

/-- Finishes a loop. -/
def done (b : β) : Parser (α ⊕ β) :=
  return .inr b

/-- The name of something declared in the current scope, with its scopes in front. -/
def qualified (name : String) : Parser String := do
  let scope := (← getThe Memory).scope
  return "::".intercalate (scope.reverse ++ [name])

/-- Records that a name stands for a type, both alone and with its scopes. -/
def recordAlias (name : String) (type : NativeType) : Parser Unit := do
  let full ← qualified name
  modifyThe Memory fun m => { m with aliases := (full, type) :: (name, type) :: m.aliases }

/-- Records the definition of a type of the current scope. -/
def recordDefinition (name : String) : Parser Unit := do
  let full ← qualified name
  modifyThe Memory fun m => { m with defined := full :: m.defined }

/-- Enters the scopes of the given names, the outermost first. -/
def enterScopes (names : List String) : Parser Unit :=
  modifyThe Memory fun m => { m with scope := names.reverse ++ m.scope }

/-- Leaves the `n` innermost scopes. -/
def leaveScopes (n : Nat) : Parser Unit :=
  modifyThe Memory fun m => { m with scope := m.scope.drop n }

/-- Runs a parser and leaves the `n` innermost scopes whether it succeeds or fails. -/
def thenLeaving (n : Nat) (p : Parser α) : Parser α := do
  let result ← tryCatch (Except.ok <$> p) fun e => return .error e
  leaveScopes n
  match result with
  | .ok a => return a
  | .error e => throw e

end Parser

end Interop.Header
