import Interop.Text.Blank
import Interop.Text.Split
import Interop.Native.Declaration

namespace Interop.Header

/-- A directive's word and its body. -/
structure Directive where
  word : String
  body : List Char
deriving DecidableEq, Repr

namespace Directive

/-- The characters of a directive's word. -/
def isWordChar (c : Char) : Bool :=
  c.isLower || c == '_'

/-- The word of a directive and what its first line holds behind it, if the line is a directive. -/
def head? (line : List Char) : Option (List Char × List Char) :=
  match Text.trimStart line with
  | '#' :: rest =>
    match (Text.trimStart rest).span isWordChar with
    | ([], _) => none
    | (word, rest) => some (word, Text.trimStart rest)
  | _ => none

/-- The body that begins with `start`, and how many of the following lines belong to it. A backslash
at the end of a line is replaced by a space and continues the body with the next line. -/
def continued (start : List Char) : List (List Char) → List Char × Nat
  | [] => (start, 0)
  | next :: more =>
    match start.reverse with
    | '\\' :: front =>
      let (body, count) := continued (front.reverse ++ ' ' :: Text.trim next) more
      (body, count + 1)
    | _ => (start, 0)

/-- A body without the line comment that ends it. -/
def withoutComment (body : List Char) : List Char :=
  match Text.cutAt? ['/', '/'] body with
  | some (before, _) => Text.trim before
  | none => Text.trim body

/-- The directive that a line begins, and the number of further lines it takes. -/
def ofLines? (line : List Char) (following : List (List Char)) : Option (Directive × Nat) :=
  (head? line).map fun (word, start) =>
    let (body, count) := continued start following
    (⟨String.ofList word, withoutComment body⟩, count)

/-- The characters an identifier begins with. -/
def isNameStart (c : Char) : Bool :=
  c.isAlpha || c == '_'

/-- The characters an identifier goes on with. -/
def isNameChar (c : Char) : Bool :=
  c.isAlphanum || c == '_'

/-- The rest of a text behind one optional character. -/
def pastOptional (c : Char) : List Char → List Char
  | d :: rest => if d = c then rest else d :: rest
  | [] => []

/-- The name a `defined` test asks about, and whether the test is negated. The parentheses around
the name may be missing, also one of them alone. -/
def definedTest? (condition : List Char) : Option (Bool × String) := do
  let (negated, rest) :=
    match condition with
    | '!' :: rest => (true, Text.trimStart rest)
    | _ => (false, condition)
  let rest ← Text.after? ['d', 'e', 'f', 'i', 'n', 'e', 'd'] rest
  let rest := Text.trimStart (pastOptional '(' (Text.trimStart rest))
  match rest with
  | [] => none
  | c :: _ =>
    if isNameStart c then
      let (name, rest) := rest.span isNameChar
      if (pastOptional ')' (Text.trimStart rest)).isEmpty then some (negated, String.ofList name)
      else none
    else none

/-- Whether a condition holds. A plain zero does not, a `defined` test asks `isDefined`, and
everything richer is taken to hold. -/
def holds (isDefined : String → Bool) (condition : List Char) : Bool :=
  if condition = ['0'] then false
  else
    match definedTest? condition with
    | some (negated, name) => isDefined name != negated
    | none => true

/-- The macro that a definition's body defines, with its replacement if the body gives one. -/
def definition? (body : List Char) : Option (String × Option String) :=
  let (head, rest) := body.span fun c => !Text.isBlank c
  match head.takeWhile (· != '(') with
  | [] => none
  | name =>
    let value :=
      match rest with
      | [] => none
      | _ :: rest => some (String.ofList (Text.trim rest))
    some (String.ofList name, value)

/-- The quotes and angle brackets around an included file's name. -/
private def isIncludeMark (c : Char) : Bool :=
  c == '"' || c == '<' || c == '>'

/-- The file that an include directive's body names. -/
def includeTarget (body : List Char) : String :=
  String.ofList ((body.dropWhile isIncludeMark).reverse.dropWhile isIncludeMark).reverse

end Directive

end Interop.Header
