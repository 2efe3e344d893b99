namespace Interop.Json

/-- The number `mantissa * 2 ^ exponent`, or its negative; the mantissa is below `2 ^ 53`. -/
structure Real where
  negative : Bool
  mantissa : Nat
  exponent : Int
deriving DecidableEq, Repr

namespace Real

/-- `base ^ e` for a negative or positive `e`, as a fraction. -/
private def power (base : Nat) (e : Int) : Nat × Nat :=
  if 0 ≤ e then (base.pow e.toNat, 1) else (1, base.pow (-e).toNat)

/-- The quotient rounded to the nearest natural number, a half going to the even neighbour. -/
def roundDiv (num den : Nat) : Nat :=
  let q := num / den
  let r := num % den
  if 2 * r < den then q
  else if den < 2 * r then q + 1
  else q + q % 2

/-- The least exponent of a binary64 number. -/
def leastExponent : Int := -1074

/-- The greatest exponent of a binary64 number whose mantissa has 53 bits. -/
def greatestExponent : Int := 971

/-- The binary64 number nearest to a positive fraction, or none if it is too large. -/
private def ofFraction? (negative : Bool) (num den : Nat) : Option Real :=
  let log : Int := (num.log2 : Int) - den.log2
  let (up, down) := power 2 log
  let log := if num * down < den * up then log - 1 else log
  let exponent := max (log - 52) leastExponent
  let (up, down) := power 2 exponent
  let mantissa := roundDiv (num * down) (den * up)
  let (mantissa, exponent) :=
    if mantissa = Nat.pow 2 53 then (Nat.pow 2 52, exponent + 1) else (mantissa, exponent)
  if greatestExponent < exponent then none
  else if mantissa = 0 then some ⟨negative, 0, 0⟩
  else some ⟨negative, mantissa, exponent⟩

/-- Zero. -/
def zero : Real := ⟨false, 0, 0⟩

/-- The number as a fraction, without its sign. -/
private def fraction (x : Real) : Nat × Nat :=
  let (up, down) := power 2 x.exponent
  (x.mantissa * up, down)

/-- The binary64 number nearest to a natural number, or none if it is too large. -/
def ofNat? (n : Nat) : Option Real :=
  if n = 0 then some zero else ofFraction? false n 1

/-- A number other than zero times the binary64 number nearest to a power of ten, rounded once
more. -/
private def timesPower? (x : Real) (places : Int) : Option Real := do
  let (num, den) := x.fraction
  let (up, down) := (← ofNat? (Nat.pow 10 places.natAbs)).fraction
  if 0 ≤ places then ofFraction? x.negative (num * up) (den * down)
  else ofFraction? x.negative (num * down) (den * up)

/-- The greatest power of ten that is a binary64 number. -/
def greatestPower : Int := 308

/-- Multiplies by a power of ten, in several divisions if it is small. After three of them nothing
is left of any number that digits of 64 bits write. -/
private def scaledWithin : (steps : Nat) → Real → Int → Option Real
  | 0, x, _ => some x
  | steps + 1, x, scale =>
    if x.mantissa = 0 then some x
    else if greatestPower < scale then none
    else if scale < -greatestPower then do
      scaledWithin steps (← timesPower? x (-greatestPower)) (scale + greatestPower)
    else timesPower? x scale

/-- The number that `digits * 10 ^ scale` is read as, or none if it is too large. It is found in
steps that are rounded on their own, so that decimals of more than fifteen digits can miss the
nearest number. -/
def ofDecimal? (negative : Bool) (digits : Nat) (scale : Int) : Option Real := do
  let x ← scaledWithin 4 (← ofNat? digits) scale
  return { x with negative }

/-- The decimal exponent of the first digit of a positive fraction. -/
private def leadingExponent (num den : Nat) : Int :=
  if den ≤ num then ((Nat.toDigits 10 (num / den)).length : Int) - 1
  else -((Nat.toDigits 10 ((den - 1) / num)).length : Int)

/-- Whether `n * 10 ^ scale` lies between two fractions with the denominator `den`; the ends count
when `closed` holds. -/
private def isBetween (n : Nat) (scale : Int) (low high den : Nat) (closed : Bool) : Bool :=
  let (up, down) := power 10 scale
  let v := n * up * den
  if closed then low * down ≤ v && v ≤ high * down else low * down < v && v < high * down

/-- Searches the decimals with `count`, `count + 1`, … digits for one within the given bounds. -/
private def searchDigits (value low high den : Nat) (closed : Bool) (lead : Int) :
    (tries count : Nat) → Nat × Int
  | 0, _ => (value / den, 0)
  | tries + 1, count =>
    let scale := lead - count + 1
    let (up, down) := power 10 scale
    let below := value * down / (den * up)
    let above := below + 1
    let takesBelow := isBetween below scale low high den closed
    let takesAbove := isBetween above scale low high den closed
    let twice := 2 * value * down
    let middle := (below + above) * den * up
    if takesBelow && takesAbove then
      if twice < middle then (below, scale)
      else if middle < twice then (above, scale)
      else if below % 2 = 0 then (below, scale)
      else (above, scale)
    else if takesBelow then (below, scale)
    else if takesAbove then (above, scale)
    else searchDigits value low high den closed lead tries (count + 1)

/-- Drops the zeros a decimal ends with. -/
private def withoutZeros : (steps digits : Nat) → Int → Nat × Int
  | 0, digits, scale => (digits, scale)
  | steps + 1, digits, scale =>
    if digits % 10 = 0 ∧ digits ≠ 0 then withoutZeros steps (digits / 10) (scale + 1)
    else (digits, scale)

/-- The shortest decimal `digits * 10 ^ scale` that rounds to the number, the nearest of those with
as few digits. -/
def shortest (x : Real) : Nat × Int :=
  if x.mantissa = 0 then (0, 0)
  else
    let (up, down) := power 2 x.exponent
    let den := 4 * down
    let value := 4 * x.mantissa * up
    let lowStep := if x.mantissa = Nat.pow 2 52 && leastExponent < x.exponent then up else 2 * up
    let closed := x.mantissa % 2 = 0
    let (digits, scale) := searchDigits value (value - lowStep) (value + 2 * up) den closed
      (leadingExponent value den) 17 1
    withoutZeros 20 digits scale

/-- The number's text: positional from `1e-5` up to sixteen digits before the point, and otherwise a
mantissa with one digit before the point and an exponent with its sign. A positional text always has
a point. -/
def text (x : Real) : String :=
  let (digits, scale) := x.shortest
  let sign := if x.negative then "-" else ""
  let ds := Nat.toDigits 10 digits
  let point : Int := ds.length + scale
  let zeros (n : Int) : List Char := List.replicate n.toNat '0'
  let body : List Char :=
    if digits = 0 then ['0', '.', '0']
    else if 0 ≤ scale && point ≤ 16 then ds ++ zeros scale ++ ['.', '0']
    else if 0 < point && point ≤ 16 then ds.take point.toNat ++ '.' :: ds.drop point.toNat
    else if -5 < point && point ≤ 0 then '0' :: '.' :: zeros (-point) ++ ds
    else
      let exponent := (if 0 < point then "+" else "").toList ++ (toString (point - 1)).toList
      match ds with
      | [d] => d :: 'e' :: exponent
      | d :: rest => d :: '.' :: rest ++ 'e' :: exponent
      | [] => exponent
  sign ++ String.ofList body

end Real

end Interop.Json
