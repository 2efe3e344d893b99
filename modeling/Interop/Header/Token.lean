import Interop.Header.Configuration
import Interop.Header.Lexeme
import Interop.Header.SyntaxError

namespace Interop.Header

/-- A token. -/
structure Token where
  kind : TokenKind
  text : String
  line : Nat
deriving DecidableEq, Repr

namespace Token

/-- Whether the token has to be kept apart from a neighbour of this sort. -/
def isWord (t : Token) : Bool :=
  t.kind != .mark

/-- The tokens that a token is replaced by, if `expand` replaces it, and else the token itself. The
replacement's tokens take the line of what they replace. -/
def expanded (expand : String → Option (Except SyntaxError (List Token))) (t : Token) :
    Except SyntaxError (List Token) :=
  match t.kind with
  | .identifier =>
    match expand t.text with
    | some tokens => tokens.map (·.map ({ · with line := t.line }))
    | none => .ok [t]
  | _ => .ok [t]

/-- The tokens of a text from the given line on. The counter holds how many characters of the last
lexeme are still to be passed over. Where no lexeme begins, the text is refused if one begins
further on, and otherwise the rest of it is passed over. -/
def scan (expand : String → Option (Except SyntaxError (List Token))) :
    (pending line : Nat) → List Char → Except SyntaxError (List Token)
  | _, _, [] => .ok []
  | pending + 1, line, c :: cs => scan expand pending (if c = '\n' then line + 1 else line) cs
  | 0, line, c :: cs =>
    match Lexeme.first? (c :: cs) with
    | none =>
      if Lexeme.occursIn cs then .error ⟨line, .unexpectedCharacter c⟩ else .ok []
    | some (.gap, n) => scan expand (n - 1) (if c = '\n' then line + 1 else line) cs
    | some (.token kind, n) => do
      let tokens ← expanded expand ⟨kind, String.ofList ((c :: cs).take n), line⟩
      let rest ← scan expand (n - 1) line cs
      return tokens ++ rest

/-- The tokens of a text in which no name is replaced. -/
def ofText (text : List Char) : Except SyntaxError (List Token) :=
  scan (fun _ => none) 0 1 text

/-- The tokens of a text under a compile configuration. Replacements are not replaced again. -/
def ofConfigured (config : Configuration) (text : List Char) : Except SyntaxError (List Token) :=
  scan (fun name => (config.replacement? name).map fun r => ofText r.toList) 0 1 text

/-- The separator between two neighbouring tokens of a spelled run: words are kept apart, and a
comma is followed by a space. -/
def gap (left right : Token) : String :=
  if left.isWord && right.isWord || left.text == "," then " " else ""

/-- A run of tokens spelled as source text. -/
def spell : List Token → String
  | [] => ""
  | [t] => t.text
  | t :: u :: rest => t.text ++ gap t u ++ spell (u :: rest)

end Token

end Interop.Header
