import Interop.Text.Blank
import Interop.Header.Directive

namespace Interop.Header

/-- The classes of tokens. -/
inductive TokenKind where
  | identifier
  | number
  | string
  | character
  | mark
deriving DecidableEq, Repr

/-- The classes of lexemes. -/
inductive LexemeKind where
  /-- Blanks or a comment. -/
  | gap
  | token (kind : TokenKind)
deriving DecidableEq, Repr

namespace Lexeme

/-- The number of characters at the front that satisfy `p`. -/
def runLength (p : Char → Bool) (cs : List Char) : Nat :=
  (cs.takeWhile p).length

/-- A length that has to be at least one. -/
def positive? : Nat → Option Nat
  | 0 => none
  | n + 1 => some (n + 1)

/-- A run of blanks. -/
def blanks? (cs : List Char) : Option Nat :=
  positive? (runLength Text.isBlank cs)

/-- The length up to and including the first end of a block comment. -/
def blockEnd? : List Char → Option Nat
  | '*' :: '/' :: _ => some 2
  | _ :: cs => (blockEnd? cs).map (· + 1)
  | [] => none

/-- A line comment up to the line's end, or a closed block comment. -/
def comment? : List Char → Option Nat
  | '/' :: '/' :: cs => some (2 + runLength (· != '\n') cs)
  | '/' :: '*' :: cs => (blockEnd? cs).map (· + 2)
  | _ => none

/-- The length of the rest of a quoted text, its closing quote included. A backslash takes the next
character with it, and the text may not run over the end of a line. -/
def quoteEnd? (quote : Char) : List Char → Option Nat
  | [] => none
  | '\\' :: c :: cs => if c = '\n' then none else (quoteEnd? quote cs).map (· + 2)
  | c :: cs =>
    if c = quote then some 1
    else if c = '\\' ∨ c = '\n' then none
    else (quoteEnd? quote cs).map (· + 1)

/-- A string, which may have an encoding mark in front. -/
def string? : List Char → Option Nat
  | 'u' :: '8' :: '"' :: cs => (quoteEnd? '"' cs).map (· + 3)
  | 'u' :: '"' :: cs => (quoteEnd? '"' cs).map (· + 2)
  | 'U' :: '"' :: cs => (quoteEnd? '"' cs).map (· + 2)
  | 'L' :: '"' :: cs => (quoteEnd? '"' cs).map (· + 2)
  | '"' :: cs => (quoteEnd? '"' cs).map (· + 1)
  | _ => none

/-- A character between single quotes; several characters are allowed. -/
def character? : List Char → Option Nat
  | '\'' :: cs => (quoteEnd? '\'' cs).map (· + 1)
  | _ => none

/-- The hexadecimal digits. -/
def isHexDigit (c : Char) : Bool :=
  c.isDigit || ('a' ≤ c && c ≤ 'f') || ('A' ≤ c && c ≤ 'F')

/-- The letters a number may end with. -/
def isSuffix (c : Char) : Bool :=
  c == 'u' || c == 'U' || c == 'l' || c == 'L' || c == 'f' || c == 'F'

/-- The length of the exponent at the front, or zero. -/
def exponentLength : List Char → Nat
  | e :: cs =>
    if e = 'e' ∨ e = 'E' then
      match cs with
      | [] => 0
      | s :: ds =>
        if s = '+' ∨ s = '-' then
          match runLength Char.isDigit ds with
          | 0 => 0
          | n => n + 2
        else
          match runLength Char.isDigit cs with
          | 0 => 0
          | n => n + 1
    else 0
  | [] => 0

/-- The length of a point and the digits behind it, or zero. -/
def fractionLength : List Char → Nat
  | '.' :: cs => 1 + runLength Char.isDigit cs
  | _ => 0

/-- The length of a hexadecimal number without its suffix. -/
def hexLength? : List Char → Option Nat
  | '0' :: x :: cs =>
    if x = 'x' ∨ x = 'X' then
      (positive? (runLength (fun c => isHexDigit c || c == '\'') cs)).map (· + 2)
    else none
  | _ => none

/-- The length of a decimal number without its suffix: digits, then a point with or without digits
behind it, then an exponent; or a point with digits behind it, then an exponent. -/
def decimalLength? : List Char → Option Nat
  | [] => none
  | c :: cs =>
    if c.isDigit then
      let whole := 1 + runLength (fun c => c.isDigit || c == '\'') cs
      let point := whole + fractionLength ((c :: cs).drop whole)
      some (point + exponentLength ((c :: cs).drop point))
    else if c = '.' then
      match runLength Char.isDigit cs with
      | 0 => none
      | n => some (n + 1 + exponentLength (cs.drop n))
    else none

/-- A number with its suffix. -/
def number? (cs : List Char) : Option Nat :=
  match hexLength? cs with
  | some n => some (n + runLength isSuffix (cs.drop n))
  | none => (decimalLength? cs).map fun n => n + runLength isSuffix (cs.drop n)

/-- An identifier. -/
def identifier? : List Char → Option Nat
  | [] => none
  | c :: cs => if Directive.isNameStart c then some (1 + runLength Directive.isNameChar cs)
    else none

/-- The marks of several characters. -/
def longMarks : List (List Char) :=
  ["::", "->", "&&", "||", "<<=", "<=", ">=", "==", "!=", "++", "--", "+=", "-=", "*=", "/=", "...",
    "[["].map String.toList

/-- The characters that are marks on their own. -/
def singleMarks : List Char :=
  ['\x7b', '\x7d', '(', ')', '[', ']', ';', ':', ',', '<', '>', '=', '*', '&', '~', '!', '+',
    '-', '/', '%', '^', '|', '?', '.', '#', '@', '$']

/-- A mark, a long one before a single one. -/
def mark? (cs : List Char) : Option Nat :=
  match longMarks.find? (·.isPrefixOf cs) with
  | some m => some m.length
  | none =>
    match cs with
    | [] => none
    | c :: _ => if singleMarks.contains c then some 1 else none

/-- The class and the length of the lexeme at the front of a text. Strings come before identifiers,
so that an encoding mark belongs to its string, and comments before marks. -/
def first? (cs : List Char) : Option (LexemeKind × Nat) :=
  (blanks? cs).map (LexemeKind.gap, ·) <|>
  (comment? cs).map (LexemeKind.gap, ·) <|>
  (string? cs).map (LexemeKind.token .string, ·) <|>
  (character? cs).map (LexemeKind.token .character, ·) <|>
  (number? cs).map (LexemeKind.token .number, ·) <|>
  (identifier? cs).map (LexemeKind.token .identifier, ·) <|>
  (mark? cs).map (LexemeKind.token .mark, ·)

/-- Whether some end of the text begins with a lexeme. -/
def occursIn : List Char → Bool
  | [] => false
  | c :: cs => (first? (c :: cs)).isSome || occursIn cs

end Lexeme

end Interop.Header
