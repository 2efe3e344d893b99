import Interop.Header.Token

namespace Interop.Header

namespace Token

/-- The tokens up to the closing mark that ends `depth` further levels and this one, and the tokens
behind it. -/
def balancedRun (opening closing : String) :
    (depth : Nat) → List Token → Option (List Token × List Token)
  | _, [] => none
  | depth, t :: rest =>
    if t.text = opening then
      (balancedRun opening closing (depth + 1) rest).map fun (run, rest) => (t :: run, rest)
    else if t.text = closing then
      match depth with
      | 0 => some ([], rest)
      | depth + 1 =>
        (balancedRun opening closing depth rest).map fun (run, rest) => (t :: run, rest)
    else (balancedRun opening closing depth rest).map fun (run, rest) => (t :: run, rest)

/-- Whether a mark opens a bracket of any kind. -/
def isOpening (text : String) : Bool :=
  text == "(" || text == "[" || text == "\x7b"

/-- Whether a mark closes a bracket of any kind. -/
def isClosing (text : String) : Bool :=
  text == ")" || text == "]" || text == "\x7d"

/-- The tokens before the first of the given stops that stands outside all brackets, or before a
bracket that closes what was open before; and the tokens from there on. -/
def runUntil (stops : List String) : (depth : Nat) → List Token → Option (List Token × List Token)
  | _, [] => none
  | depth, t :: rest =>
    if depth = 0 ∧ t.text ∈ stops then some ([], t :: rest)
    else if isOpening t.text then
      (runUntil stops (depth + 1) rest).map fun (run, rest) => (t :: run, rest)
    else if isClosing t.text then
      match depth with
      | 0 => some ([], t :: rest)
      | depth + 1 => (runUntil stops depth rest).map fun (run, rest) => (t :: run, rest)
    else (runUntil stops depth rest).map fun (run, rest) => (t :: run, rest)

/-- The tokens without the given mark at their front, if it is there. -/
def pastOptional (text : String) : List Token → List Token
  | [] => []
  | t :: rest => if t.text = text then rest else t :: rest

/-- The tokens behind the declaration they begin with: behind its semicolon, or behind its body and
the semicolon that may follow the body. A closing brace outside all brackets belongs to the scope
around the declaration and is not passed. The counters hold how many round or square brackets and
how many braces are open; while a brace is open only braces count. -/
def pastDeclaration : (brackets braces : Nat) → List Token → Option (List Token)
  | _, 0, [] => some []
  | _, _ + 1, [] => none
  | brackets, 0, t :: rest =>
    if t.text = "(" ∨ t.text = "[" then pastDeclaration (brackets + 1) 0 rest
    else if t.text = ")" ∨ t.text = "]" then pastDeclaration (brackets - 1) 0 rest
    else if t.text = "\x7b" then pastDeclaration brackets 1 rest
    else if t.text = "\x7d" ∧ brackets = 0 then some (t :: rest)
    else if t.text = ";" ∧ brackets = 0 then some rest
    else pastDeclaration brackets 0 rest
  | brackets, braces + 1, t :: rest =>
    if t.text = "\x7b" then pastDeclaration brackets (braces + 2) rest
    else if t.text = "\x7d" then
      if braces = 0 ∧ brackets = 0 then some (pastOptional ";" rest)
      else pastDeclaration brackets braces rest
    else pastDeclaration brackets (braces + 1) rest

/-- The groups between the commas of a list in angle brackets, and the tokens behind the closing
one. The counter holds how many angle brackets are open inside the list, and `group` the tokens of
the current group, the last first. -/
def angleGroups : (depth : Nat) → (group : List Token) → List Token →
    Option (List (List Token) × List Token)
  | _, _, [] => none
  | depth, group, t :: rest =>
    if t.text = "<" then angleGroups (depth + 1) (t :: group) rest
    else if t.text = ">" then
      match depth with
      | 0 => some ([group.reverse], rest)
      | depth + 1 => angleGroups depth (t :: group) rest
    else if t.text = "," ∧ depth = 0 then
      (angleGroups depth [] rest).map fun (groups, rest) => (group.reverse :: groups, rest)
    else angleGroups depth (t :: group) rest

end Token

end Interop.Header
