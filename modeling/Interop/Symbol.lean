import Interop.Text.Split

namespace Interop.Symbol

/-- The symbol of a name declared in a scope. -/
def qualify (scope name : String) : String :=
  if scope.isEmpty then name else scope ++ "::" ++ name

/-- A text without the double colons it begins with. -/
def dropColons : List Char → List Char
  | ':' :: ':' :: rest => dropColons rest
  | cs => cs

/-- A symbol without the double colons that mark it as global. -/
def unrooted (symbol : String) : String :=
  String.ofList (dropColons symbol.toList)

/-- The texts that are left when a reversed text is cut behind each of its double colons, the
longest first. -/
def cutsBehindColons : List Char → List (List Char)
  | ':' :: ':' :: rest => rest :: cutsBehindColons rest
  | _ :: rest => cutsBehindColons rest
  | [] => []

/-- The scopes around a scope, from the innermost out; the global scope is not listed. -/
def outerScopes (scope : String) : List String :=
  ((cutsBehindColons scope.toList.reverse).filter (!·.isEmpty)).map fun cs =>
    String.ofList cs.reverse

/-- The symbols a name may refer to inside a scope: in the scope itself, in the scopes around it
from the innermost out, and globally. -/
def candidates (scope name : String) : List String :=
  let scopes := if scope.isEmpty then [] else scope :: outerScopes scope
  scopes.map (fun s => s ++ "::" ++ name) ++ [name]

/-- The letters and digits a flat name keeps. -/
private def flatChar (c : Char) : Char :=
  if c.isAlphanum then c else '_'

/-- A symbol as a single identifier: double colons become one underscore, and so does every other
character that an identifier cannot hold. -/
def flat (symbol : String) : String :=
  String.ofList ((Text.replaceAll [':', ':'] ['_'] (dropColons symbol.toList)).map flatChar)

end Interop.Symbol
