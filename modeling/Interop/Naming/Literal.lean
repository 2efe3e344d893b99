import Interop.Text.Split

namespace Interop.Naming

/-- The number of characters at the front that satisfy `p`, and what follows them. -/
def passOver (p : Char → Bool) (cs : List Char) : Nat × List Char :=
  ((cs.takeWhile p).length, cs.dropWhile p)

/-- The hexadecimal digits. -/
def isHex (c : Char) : Bool :=
  c.isDigit || ('a' ≤ c && c ≤ 'f') || ('A' ≤ c && c ≤ 'F')

/-- The letters a number's suffix is made of. -/
def isSuffixLetter (c : Char) : Bool :=
  c == 'f' || c == 'F' || c == 'u' || c == 'U' || c == 'l' || c == 'L'

/-- What follows an exponent, if there is one at the front, and the text itself otherwise. -/
def pastExponent (cs : List Char) : List Char :=
  match cs with
  | e :: rest =>
    if e = 'e' ∨ e = 'E' then
      let digits :=
        match rest with
        | s :: ds => if s = '+' ∨ s = '-' then ds else rest
        | [] => []
      match passOver Char.isDigit digits with
      | (0, _) => cs
      | (_, behind) => behind
    else cs
  | [] => []

/-- What follows a point at the front, if there is one. -/
def pastPoint : List Char → List Char
  | '.' :: rest => rest
  | cs => cs

/-- What follows the digits, point and exponent of a decimal number. -/
def pastDecimal? (cs : List Char) : Option (List Char) :=
  match passOver Char.isDigit cs with
  | (0, _) => none
  | (_, rest) => some (pastExponent ((pastPoint rest).dropWhile Char.isDigit))

/-- What follows a sign at the front, if there is one. -/
def pastSign : List Char → List Char
  | c :: rest => if c = '+' ∨ c = '-' then rest else c :: rest
  | [] => []

/-- The suffix of a text that is a number and nothing else. -/
def suffix? (cs : List Char) : Option (List Char) :=
  let digits := pastSign cs
  let isHexadecimal : Option (List Char) :=
    match digits with
    | '0' :: x :: rest =>
      if x = 'x' ∨ x = 'X' then
        match passOver isHex rest with
        | (0, _) => none
        | (_, behind) => if behind.all isSuffixLetter then some behind else none
      else none
    | _ => none
  isHexadecimal.or ((pastDecimal? digits).filter (·.all isSuffixLetter))

/-- The managed suffix for a native one. A floating suffix wins; of the integral ones the order does
not matter. -/
def managedSuffix (suffix : List Char) : String :=
  let letters := suffix.map Char.toLower
  if letters.contains 'f' then "f"
  else
    match letters.contains 'u', letters.contains 'l' with
    | true, true => "UL"
    | true, false => "U"
    | false, true => "L"
    | false, false => ""

/-- The managed spelling of a native number. -/
def managedNumber? (text : String) : Option String :=
  let cs := text.toList
  (suffix? cs).map fun suffix =>
    let number := cs.take (cs.length - suffix.length)
    let number := if number.getLast? = some '.' then number ++ ['0'] else number
    String.ofList number ++ managedSuffix suffix

/-- Whether a text is enclosed in the given quotes, with at least `least` characters in all. -/
def isQuoted (quote : Char) (least : Nat) (text : String) : Bool :=
  let cs := text.toList
  least ≤ cs.length && cs.head? == some quote && cs.getLast? == some quote

/-- The managed spelling of a native literal. -/
def managedLiteral? (text : String) : Option String :=
  if text = "true" ∨ text = "false" then some text
  else if text = "nullptr" ∨ text = "NULL" then some "null"
  else if isQuoted '"' 2 text || isQuoted '\'' 3 text then some text
  else managedNumber? text

/-- Whether a text is an identifier. -/
private def isIdentifier : List Char → Bool
  | [] => false
  | c :: cs => (c.isAlpha || c == '_') && cs.all fun c => c.isAlphanum || c == '_'

/-- The parts of a text between double colons. -/
def colonParts : List Char → List (List Char)
  | [] => [[]]
  | ':' :: ':' :: rest => [] :: colonParts rest
  | c :: rest =>
    match colonParts rest with
    | [] => [[c]]
    | part :: more => (c :: part) :: more

/-- Whether a text is an identifier, or several joined by double colons, possibly with double colons
in front. -/
def isQualifiedName (text : String) : Bool :=
  match colonParts text.toList with
  | [] :: first :: more => (first :: more).all isIdentifier
  | parts => parts.all isIdentifier

end Interop.Naming
