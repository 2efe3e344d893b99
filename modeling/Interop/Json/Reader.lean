import Interop.Json.Value

namespace Interop.Json

/-- The text after the blanks JSON allows between tokens. -/
def skipBlanks (cs : List Char) : List Char :=
  cs.dropWhile fun c => c == ' ' || c == '\n' || c == '\t' || c == '\r'

/-- The value of a hexadecimal digit. -/
def hexValue? (c : Char) : Option Nat :=
  if '0' ≤ c ∧ c ≤ '9' then some (c.toNat - '0'.toNat)
  else if 'a' ≤ c ∧ c ≤ 'f' then some (c.toNat - 'a'.toNat + 10)
  else if 'A' ≤ c ∧ c ≤ 'F' then some (c.toNat - 'A'.toNat + 10)
  else none

/-- The number that four hexadecimal digits write. -/
def hexUnit? (a b c d : Char) : Option Nat := do
  let a ← hexValue? a
  let b ← hexValue? b
  let c ← hexValue? c
  let d ← hexValue? d
  return ((a * 16 + b) * 16 + c) * 16 + d

/-- The character a single letter stands for behind a backslash. -/
def simpleEscape? (c : Char) : Option Char :=
  match c with
  | '"' => some '"'
  | '\\' => some '\\'
  | '/' => some '/'
  | 'b' => some '\x08'
  | 'f' => some '\x0c'
  | 'n' => some '\n'
  | 'r' => some '\r'
  | 't' => some '\t'
  | _ => none

/-- Whether a code unit is the first half of a surrogate pair. -/
def isHighSurrogate (n : Nat) : Bool :=
  0xD800 ≤ n && n ≤ 0xDBFF

/-- Whether a code unit is the second half of a surrogate pair. -/
def isLowSurrogate (n : Nat) : Bool :=
  0xDC00 ≤ n && n ≤ 0xDFFF

/-- The inside of a string and the text after its closing quote. A surrogate has to be part of a
pair, and control characters have to be escaped. -/
def readString : List Char → Option (List Char × List Char)
  | '"' :: rest => some ([], rest)
  | '\\' :: 'u' :: a :: b :: c :: d :: rest => do
    let unit ← hexUnit? a b c d
    if isHighSurrogate unit then
      match rest with
      | '\\' :: 'u' :: e :: f :: g :: h :: rest => do
        let low ← hexUnit? e f g h
        if isLowSurrogate low then
          let (inside, rest) ← readString rest
          some (Char.ofNat (0x10000 + (unit - 0xD800) * 0x400 + (low - 0xDC00)) :: inside, rest)
        else none
      | _ => none
    else if isLowSurrogate unit then none
    else
      let (inside, rest) ← readString rest
      some (Char.ofNat unit :: inside, rest)
  | '\\' :: e :: rest => do
    let c ← simpleEscape? e
    let (inside, rest) ← readString rest
    some (c :: inside, rest)
  | c :: rest =>
    if c.toNat < 0x20 || c == '\\' then none
    else do
      let (inside, rest) ← readString rest
      some (c :: inside, rest)
  | [] => none

/-- The digits at the front of a text. -/
def takeDigits (cs : List Char) : List Char × List Char :=
  cs.span Char.isDigit

/-- The number a row of decimal digits writes. -/
def digitsValue (ds : List Char) : Nat :=
  ds.foldl (fun n d => n * 10 + (d.toNat - '0'.toNat)) 0

/-- Appends digits to a number as long as it fits 64 bits, and returns the digits that are left. -/
def appendFitting (n : Nat) : List Char → Nat × List Char
  | [] => (n, [])
  | d :: ds =>
    let next := n * 10 + (d.toNat - '0'.toNat)
    if next < 1 <<< 64 then appendFitting next ds else (n, d :: ds)

/-- The digits before the point: a lone zero, or a row that does not begin with one. -/
private def readWhole : List Char → Option (List Char × List Char)
  | '0' :: d :: rest => if d.isDigit then none else some (['0'], d :: rest)
  | cs =>
    match takeDigits cs with
    | ([], _) => none
    | whole => some whole

/-- The digits behind a point, if there is a point; at least one has to follow it. -/
private def readFraction : List Char → Option (Option (List Char) × List Char)
  | '.' :: rest =>
    match takeDigits rest with
    | ([], _) => none
    | (ds, rest) => some (some ds, rest)
  | cs => some (none, cs)

/-- The exponent, if there is one; it needs a digit. -/
private def readExponent : List Char → Option (Option Int × List Char)
  | c :: rest =>
    if c == 'e' || c == 'E' then
      let (negative, rest) :=
        match rest with
        | '-' :: rest => (true, rest)
        | '+' :: rest => (false, rest)
        | _ => (false, rest)
      match takeDigits rest with
      | ([], _) => none
      | (ds, rest) =>
        let n : Int := digitsValue ds
        some (some (if negative then -n else n), rest)
    else some (none, c :: rest)
  | [] => some (none, [])

/-- The integers that keep their exact value; a negative zero is not one of them. -/
def isExact (negative : Bool) (n : Nat) : Bool :=
  if negative then 0 < n && n ≤ 1 <<< 63 else n < 1 <<< 64

/-- Reads a number without its sign. One written with a point or an exponent is a binary64 number,
and so is an integer that does not fit 64 bits. Digits beyond 64 bits do not count. -/
def readNumber (negative : Bool) (cs : List Char) : Option (Number × List Char) := do
  let (whole, rest) ← readWhole cs
  let (fraction, rest) ← readFraction rest
  let (exponent, rest) ← readExponent rest
  if fraction.isNone && exponent.isNone && isExact negative (digitsValue whole) then
    let n : Int := digitsValue whole
    return (.integer (if negative then -n else n), rest)
  else
    let (n, dropped) := appendFitting 0 whole
    let ds := fraction.getD []
    let (n, droppedBehind) := appendFitting n ds
    let places : Int := ds.length - droppedBehind.length
    let x ← Real.ofDecimal? negative n (exponent.getD 0 + dropped.length - places)
    return (.real x, rest)

/-- The rest of a text that begins with the given word. -/
private def afterWord? : (word cs : List Char) → Option (List Char)
  | [], cs => some cs
  | w :: word, c :: cs => if w = c then afterWord? word cs else none
  | _ :: _, [] => none

mutual

/-- Reads a value whose containers nest less than `depth` deep. -/
def readValue : (fuel depth : Nat) → List Char → Option (Json × List Char)
  | 0, _, _ => none
  | fuel + 1, depth, cs =>
    match skipBlanks cs with
    | 'n' :: rest => (afterWord? ['u', 'l', 'l'] rest).map (null, ·)
    | 't' :: rest => (afterWord? ['r', 'u', 'e'] rest).map (bool true, ·)
    | 'f' :: rest => (afterWord? ['a', 'l', 's', 'e'] rest).map (bool false, ·)
    | '"' :: rest => (readString rest).map fun (s, rest) => (string (String.ofList s), rest)
    | '[' :: rest =>
      if depth ≤ 1 then none
      else
        match skipBlanks rest with
        | ']' :: rest => some (array [], rest)
        | rest => (readItems fuel (depth - 1) rest).map fun (items, rest) => (array items, rest)
    | '\x7b' :: rest =>
      if depth ≤ 1 then none
      else
        match skipBlanks rest with
        | '\x7d' :: rest => some (object [], rest)
        | rest =>
          (readMembers fuel (depth - 1) rest).map fun (members, rest) => (ofMembers members, rest)
    | '-' :: rest => (readNumber true rest).map fun (n, rest) => (number n, rest)
    | rest => (readNumber false rest).map fun (n, rest) => (number n, rest)

/-- Reads the items of an array up to its closing bracket. -/
def readItems : (fuel depth : Nat) → List Char → Option (List Json × List Char)
  | 0, _, _ => none
  | fuel + 1, depth, cs => do
    let (item, rest) ← readValue fuel depth cs
    match skipBlanks rest with
    | ']' :: rest => some ([item], rest)
    | ',' :: rest => do
      let (items, rest) ← readItems fuel depth rest
      some (item :: items, rest)
    | _ => none

/-- Reads the members of an object up to its closing brace. -/
def readMembers : (fuel depth : Nat) → List Char → Option (List (String × Json) × List Char)
  | 0, _, _ => none
  | fuel + 1, depth, cs =>
    match skipBlanks cs with
    | '"' :: rest => do
      let (name, rest) ← readString rest
      match skipBlanks rest with
      | ':' :: rest => do
        let (value, rest) ← readValue fuel depth rest
        match skipBlanks rest with
        | '\x7d' :: rest => some ([(String.ofList name, value)], rest)
        | ',' :: rest => do
          let (members, rest) ← readMembers fuel depth rest
          some ((String.ofList name, value) :: members, rest)
        | _ => none
      | _ => none
    | _ => none

end

/-- How deep containers nest at most, plus one. -/
def depthLimit : Nat := 128

/-- The value of a document. Every call of a reader takes at least one character or ends, so the
bound on their number is never the reason for a failure. -/
def ofText? (text : String) : Option Json :=
  let cs := text.toList
  match readValue (2 * cs.length + 2) depthLimit cs with
  | some (value, rest) => if (skipBlanks rest).isEmpty then some value else none
  | none => none

end Interop.Json
