import Interop.Header.DeclarationSyntax
import Interop.Header.Region

namespace Interop.Header

/-- What reading a header gives: its content or why it cannot be read, and the names of the types it
defines, each with its scopes. A header that cannot be read still defines the types before the
error. -/
structure Reading (ε α : Type) where
  result : Except ε α
  defined : List String := []

/-- Reads the declarations that tokens write. -/
def readTokens (tokens : List Token) : Reading SyntaxError (List Declaration) :=
  let lastLine := tokens.getLast?.elim 0 Token.line
  let (result, memory) := (Parser.header.run lastLine).run tokens |>.run |>.run {}
  ⟨result.map (·.1), memory.defined.reverse⟩

/-- The declarations and the directives of a header, by line. -/
def inLineOrder (declarations directives : List Declaration) : List Declaration :=
  (declarations ++ directives).mergeSort fun a b => a.line ≤ b.line

/-- Reads a header's source. -/
def readUnit (config : Configuration) (path : Path) (source : String) :
    Reading SyntaxError HeaderUnit :=
  let (text, directives) := preprocess config source
  match Token.ofConfigured config text with
  | .error e => ⟨.error e, []⟩
  | .ok tokens =>
    let read := readTokens tokens
    ⟨read.result.map fun ds => .ofDeclarations path (inLineOrder ds directives), read.defined⟩

end Interop.Header
