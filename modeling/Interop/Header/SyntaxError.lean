namespace Interop.Header

/-- The causes of a syntax error. Where a cause tells what was found, no text stands for the end of
the file. -/
inductive SyntaxCause where
  /-- A character begins no token. -/
  | unexpectedCharacter (c : Char)
  /-- A token is left over behind the declarations. -/
  | unexpectedToken (text : String)
  | unexpectedEnd
  | expectedToken (text : String) (found : Option String)
  | expectedIdentifier (found : Option String)
  /-- The tokens end before an expression does. -/
  | unterminatedExpression
  | malformedFunction (found : Option String)
  /-- The nesting bound is used up; no header reaches the bound it is given. -/
  | nestedTooDeep
deriving DecidableEq, Repr

/-- A syntax error and the line it was noticed in. -/
structure SyntaxError where
  line : Nat
  cause : SyntaxCause
deriving DecidableEq, Repr

namespace SyntaxCause

/-- What was found, as the end of a message. -/
private def foundText : Option String → String
  | some text => ", found '" ++ text ++ "'"
  | none => ", found end of file"

/-- The cause in words. -/
def text : SyntaxCause → String
  | unexpectedCharacter c => "unexpected character '" ++ c.toString ++ "'"
  | unexpectedToken text => "unexpected '" ++ text ++ "'"
  | unexpectedEnd => "unexpected end of file"
  | expectedToken text found => "expected '" ++ text ++ "'" ++ foundText found
  | expectedIdentifier found => "expected identifier" ++ foundText found
  | unterminatedExpression => "unterminated expression" ++ foundText none
  | malformedFunction found => "malformed function declaration" ++ foundText found
  | nestedTooDeep => "declarations nest too deep"

end SyntaxCause

namespace SyntaxError

/-- The message of a syntax error. -/
def message (e : SyntaxError) : String :=
  "line " ++ toString e.line ++ ": " ++ e.cause.text

end SyntaxError

end Interop.Header
