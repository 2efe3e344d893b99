import Interop.Naming.Literal
import Mathlib.Data.List.Induction
import Mathlib.Data.List.TakeWhile
import Mathlib.Tactic.Common

namespace Interop.Naming

/-- The sign in front of a number. -/
inductive Sign where
  | absent
  | plus
  | minus
deriving DecidableEq

namespace Sign

def text : Sign → List Char
  | absent => []
  | plus => ['+']
  | minus => ['-']

/-- The number with a sign in front of it. -/
def apply : Sign → Nat → Int
  | minus, n => -n
  | _, n => n

/-- Under one sign, different numbers have different values. -/
theorem apply_injective (sign : Sign) {m n : Nat} (h : sign.apply m = sign.apply n) : m = n := by
  cases sign <;> simp only [apply] at h <;> omega

/-- The sign that a text begins with, and what stands behind it. -/
def read : List Char → Sign × List Char
  | '+' :: rest => (plus, rest)
  | '-' :: rest => (minus, rest)
  | cs => (absent, cs)

end Sign

/-- The value of a digit. -/
def digitValue (c : Char) : Nat :=
  if c.isDigit then c.toNat - '0'.toNat
  else if 'a' ≤ c then c.toNat - 'a'.toNat + 10
  else c.toNat - 'A'.toNat + 10

/-- The value of a row of digits. -/
def valueIn (radix : Nat) (digits : List Char) : Nat :=
  digits.foldl (fun value c => radix * value + digitValue c) 0

/-- An exponent of a number. -/
structure Exponent where
  mark : Char
  sign : Sign
  digits : List Char
deriving DecidableEq

def Exponent.text (e : Exponent) : List Char :=
  e.mark :: (e.sign.text ++ e.digits)

/-- The parts of a decimal number. -/
structure Decimal where
  whole : List Char
  /-- The digits behind the point, if there is one. -/
  fraction? : Option (List Char)
  exponent? : Option Exponent
deriving DecidableEq

namespace Decimal

def fractionText (d : Decimal) : List Char :=
  match d.fraction? with
  | some digits => '.' :: digits
  | none => []

def exponentText (d : Decimal) : List Char :=
  match d.exponent? with
  | some e => e.text
  | none => []

def text (d : Decimal) : List Char :=
  d.whole ++ d.fractionText ++ d.exponentText

/-- Whether the parts are made of what they should be. -/
structure WellFormed (d : Decimal) : Prop where
  whole : ∀ c ∈ d.whole, c.isDigit = true
  fraction : ∀ digits ∈ d.fraction?, ∀ c ∈ digits, c.isDigit = true
  exponent : ∀ e ∈ d.exponent?, e.mark ∈ ['e', 'E'] ∧ e.digits ≠ [] ∧
    ∀ c ∈ e.digits, c.isDigit = true

end Decimal

/-- The radix a whole number is written in. -/
inductive Radix where
  | decimal
  | octal
  | hexadecimal
deriving DecidableEq

namespace Radix

def base : Radix → Nat
  | decimal => 10
  | octal => 8
  | hexadecimal => 16

/-- Whether a row of digits is one of a radix. It is a zero in front that makes a number octal. -/
def Accepts : Radix → List Char → Prop
  | decimal, digits => digits.head? ≠ some '0' ∧ ∀ c ∈ digits, c.isDigit = true
  | octal, digits => digits.head? = some '0' ∧ ∀ c ∈ digits, c.isDigit = true ∧ digitValue c < 8
  | hexadecimal, digits => ∀ c ∈ digits, isHex c = true

end Radix

/-- A whole number of native code. -/
structure NativeWhole where
  sign : Sign
  radix : Radix
  /-- The letter in front of hexadecimal digits. -/
  letter : Char
  digits : List Char
  suffix : List Char
  letter_mem : letter ∈ ['x', 'X']
  digits_ne : digits ≠ []
  accepts : radix.Accepts digits
  suffix_mem : ∀ c ∈ suffix, c ∈ ['u', 'U', 'l', 'L']
  bounded : valueIn radix.base digits < UInt64.size

namespace NativeWhole

/-- The digits with what tells their radix. -/
def marked (n : NativeWhole) : List Char :=
  if n.radix = .hexadecimal then '0' :: n.letter :: n.digits else n.digits

def text (n : NativeWhole) : List Char :=
  n.sign.text ++ n.marked ++ n.suffix

def magnitude (n : NativeWhole) : Nat :=
  valueIn n.radix.base n.digits

def value (n : NativeWhole) : Int :=
  n.sign.apply n.magnitude

end NativeWhole

/-- A real number of native code. -/
structure NativeReal where
  sign : Sign
  decimal : Decimal
  suffix : List Char
  wellFormed : decimal.WellFormed
  digits_ne : decimal.whole ≠ [] ∨ ∃ digits ∈ decimal.fraction?, digits ≠ []
  isReal : decimal.fraction?.isSome = true ∨ decimal.exponent?.isSome = true
  suffix_mem : suffix ∈ [[], ['f'], ['F'], ['l'], ['L']]

def NativeReal.text (r : NativeReal) : List Char :=
  r.sign.text ++ r.decimal.text ++ r.suffix

/-- The suffixes of whole numbers in managed code. -/
def managedWholeSuffixes : List (List Char) :=
  ["", "u", "U", "l", "L", "ul", "uL", "Ul", "UL", "lu", "lU", "Lu", "LU"].map String.toList

/-- The suffixes of real numbers in managed code. -/
def managedRealSuffixes : List (List Char) :=
  ["", "f", "F", "d", "D", "m", "M"].map String.toList

/-- The number that digits with a suffix are in managed code. -/
def managedDigits? (radix : Nat) (isDigit : Char → Bool) (cs : List Char) : Option Nat :=
  let digits := cs.takeWhile isDigit
  if digits ≠ [] ∧ cs.dropWhile isDigit ∈ managedWholeSuffixes ∧
    valueIn radix digits < UInt64.size then some (valueIn radix digits)
  else none

/-- The whole number that a text is in managed code, with a sign in front of it or not. There are no
octal numbers. -/
def managedWhole? (cs : List Char) : Option Int :=
  let (sign, cs) := Sign.read cs
  let magnitude? :=
    match cs with
    | '0' :: letter :: rest =>
      if letter = 'x' ∨ letter = 'X' then managedDigits? 16 isHex rest
        else managedDigits? 10 Char.isDigit cs
    | _ => managedDigits? 10 Char.isDigit cs
  magnitude?.map sign.apply

/-- The exponent that a text begins with, and what stands behind it. -/
def readExponent (cs : List Char) : Option Exponent × List Char :=
  match cs with
  | mark :: rest =>
    let (sign, behind) := Sign.read rest
    let digits := behind.takeWhile Char.isDigit
    if mark ∈ ['e', 'E'] ∧
      digits ≠ [] then (some ⟨mark, sign, digits⟩, behind.dropWhile Char.isDigit) else (none, cs)
  | [] => (none, [])

/-- The digits behind the point that a text begins with, and what stands behind them. -/
def readFraction : List Char → Option (List Char) × List Char
  | '.' :: rest => (some (rest.takeWhile Char.isDigit), rest.dropWhile Char.isDigit)
  | cs => (none, cs)

/-- The real number that a text is in managed code, with a sign in front of it or not. There are
digits behind a point. -/
def managedReal? (cs : List Char) : Option (Sign × Decimal) :=
  let (sign, cs) := Sign.read cs
  let whole := cs.takeWhile Char.isDigit
  let (fraction?, rest) := readFraction (cs.dropWhile Char.isDigit)
  let (exponent?, suffix) := readExponent rest
  if fraction? ≠ some [] ∧ (whole ≠ [] ∨ fraction?.isSome) ∧
      (fraction?.isSome ∨ exponent?.isSome ∨ suffix ≠ []) ∧
      suffix ∈ managedRealSuffixes then
    some (sign, ⟨whole, fraction?, exponent?⟩)
  else none

/-- The parts of a number with a digit behind a bare point. -/
def Decimal.filled (d : Decimal) : Decimal :=
  { d with fraction? := d.fraction?.map fun digits => if digits = [] then ['0'] else digits }

/-- A number that does not end in its point need not be filled. -/
theorem Decimal.filled_of_ne {d : Decimal} (h : d.fraction? ≠ some []) : d.filled = d := by
  obtain ⟨whole, fraction?, exponent?⟩ := d
  cases fraction? with
  | none => rfl
  | some digits =>
    have hne : digits ≠ [] := fun hnil => h (congrArg some hnil)
    simp [filled, hne]

variable {p : Char → Bool} {digits rest suffix cs : List Char} {c : Char}

/-- A row of digits ends where something else begins. -/
theorem scan_append (hdigits : ∀ c ∈ digits, p c = true) (hrest : ∀ c ∈ rest.head?, p c = false) :
    (digits ++ rest).takeWhile p = digits ∧ (digits ++ rest).dropWhile p = rest := by
  rw [List.takeWhile_append_of_pos hdigits, List.dropWhile_append_of_pos hdigits]
  cases rest with
  | nil => simp
  | cons c rest => simp [hrest c rfl]

/-- The sign is read back, if the digits behind it do not start with one. -/
theorem read_text (sign : Sign) (hdigits : ∀ c ∈ cs.head?, c ≠ '+' ∧ c ≠ '-') :
    Sign.read (sign.text ++ cs) = (sign, cs) := by
  cases sign with
  | plus | minus => rfl
  | absent =>
    cases cs with
    | nil => rfl
    | cons c cs =>
      obtain ⟨hplus, hminus⟩ := hdigits c rfl
      rw [Sign.text, List.nil_append, Sign.read]
      · rintro rest heq
        exact hplus (List.cons.inj heq).1
      · rintro rest heq
        exact hminus (List.cons.inj heq).1

/-- What stands behind a sign is what is left when the sign is passed over. -/
theorem pastSign_text (sign : Sign) (hdigits : ∀ c ∈ cs.head?, c ≠ '+' ∧ c ≠ '-') :
    pastSign (sign.text ++ cs) = cs := by
  cases sign with
  | plus | minus => simp [Sign.text, pastSign]
  | absent =>
    cases cs with
    | nil => rfl
    | cons c cs =>
      obtain ⟨hplus, hminus⟩ := hdigits c rfl
      simp [Sign.text, pastSign, hplus, hminus]

/-- The values of a row of octal digits are the same in both radices just if it is that of one
digit. -/
theorem valueIn_octal (h : ∀ c ∈ digits, digitValue c < 8) :
    valueIn 8 digits ≤ valueIn 10 digits ∧
      (valueIn 10 digits = valueIn 8 digits ↔ valueIn 8 digits < 8) := by
  induction digits using List.reverseRecOn with
  | nil => exact ⟨Nat.le_refl _, by simp [valueIn]⟩
  | append_singleton front c ih =>
    obtain ⟨hle, hiff⟩ := ih fun d hd => h d (List.mem_append_left _ hd)
    have hdigit := h c (by simp)
    have hvalue : ∀ radix, valueIn radix (front ++ [c]) = radix * valueIn radix front +
        digitValue c :=
      fun radix => by rw [valueIn, List.foldl_append]; rfl
    rw [hvalue, hvalue]
    omega

/-- No digit is a mark that decides how a number goes on. -/
theorem digit_apart (h : c.isDigit = true) :
    c ∉ ['+', '-', '.', 'x', 'X', 'e', 'E', '"', '\''] := by
  intro hmem
  simp only [List.mem_cons, List.not_mem_nil, or_false] at hmem
  rcases hmem with rfl | rfl | rfl | rfl | rfl | rfl | rfl | rfl | rfl <;> exact absurd h
    (by decide)

/-- A text that starts with a digit does not start with a sign. -/
theorem head_digits (hne : digits ≠ []) (hdigits : ∀ c ∈ digits, c.isDigit = true)
    (rest : List Char) :
    ∀ c ∈ (digits ++ rest).head?, c ≠ '+' ∧ c ≠ '-' := by
  cases digits with
  | nil => exact absurd rfl hne
  | cons d digits =>
    intro c hc
    obtain rfl := Option.some.inj hc
    have hd := digit_apart (hdigits d List.mem_cons_self)
    exact ⟨fun heq => hd (by simp [heq]), fun heq => hd (by simp [heq])⟩

/-- An exponent is passed over if it has at least one digit. -/
theorem pastExponent_cons {e : Char} {n : Nat} (he : e = 'e' ∨ e = 'E')
    (hrow : passOver Char.isDigit (pastSign cs) = (n + 1, rest)) :
    pastExponent (e :: cs) = rest := by
  cases cs with
  | nil => simp [pastSign, passOver] at hrow
  | cons s behind =>
    rw [pastSign] at hrow
    simp only [pastExponent, he, if_true, hrow]

/-- Either nothing is passed over, or a mark, a sign and digits are. -/
theorem pastExponent_cases (e : Char) (cs : List Char) :
    pastExponent (e :: cs) = e :: cs ∨
      (e = 'e' ∨ e = 'E') ∧ pastExponent (e :: cs) = (pastSign cs).dropWhile Char.isDigit := by
  by_cases he : e = 'e' ∨ e = 'E'
  · rcases hrow : passOver Char.isDigit (pastSign cs) with ⟨_ | n, behind⟩
    · refine .inl ?_
      cases cs with
      | nil => simp [pastExponent, passOver]
      | cons s behind' =>
        rw [pastSign] at hrow
        simp only [pastExponent, he, if_true, hrow]
    · exact .inr ⟨he, (pastExponent_cons he hrow).trans (congrArg Prod.snd hrow).symm⟩
  · exact .inl (by simp only [pastExponent, he, if_false])

/-- The letters that suffixes are made of. -/
def suffixLetters : List Char :=
  ['f', 'F', 'u', 'U', 'l', 'L']

theorem isSuffixLetter_of_mem (h : c ∈ suffixLetters) : isSuffixLetter c = true := by
  simp only [suffixLetters, List.mem_cons, List.not_mem_nil, or_false] at h
  rcases h with rfl | rfl | rfl | rfl | rfl | rfl <;> rfl

theorem all_isSuffixLetter (h : ∀ c ∈ suffix, c ∈ suffixLetters) :
    suffix.all isSuffixLetter = true :=
  List.all_eq_true.mpr fun c hc => isSuffixLetter_of_mem (h c hc)

namespace Decimal

variable {d : Decimal} (hd : d.WellFormed) (hsuffix : ∀ c ∈ suffix, c ∈ suffixLetters)

include hd hsuffix

/-- Behind the digits an exponent or a suffix starts with its own letters. -/
theorem head_exponentText :
    ∀ c ∈ (d.exponentText ++ suffix).head?, c ∈ 'e' :: 'E' :: suffixLetters := by
  intro c hc
  cases hexponent : d.exponent? with
  | none =>
    rw [exponentText, hexponent] at hc
    exact List.mem_cons_of_mem _ (List.mem_cons_of_mem _ (hsuffix c (List.mem_of_mem_head? hc)))
  | some e =>
    rw [exponentText, hexponent] at hc
    obtain rfl := Option.some.inj hc
    have hmark := (hd.exponent e hexponent).1
    simp only [List.mem_cons, List.not_mem_nil, or_false] at hmark
    rcases hmark with hmark | hmark <;> simp [hmark]

/-- Behind the whole part there is a point, or what starts an exponent or a suffix. -/
theorem head_fractionText :
    ∀ c ∈ (d.fractionText ++ (d.exponentText ++ suffix)).head?,
      c ∈ '.' :: 'e' :: 'E' :: suffixLetters := by
  intro c hc
  cases hfraction : d.fraction? with
  | none =>
    rw [fractionText, hfraction] at hc
    exact List.mem_cons_of_mem _ (head_exponentText hd hsuffix c hc)
  | some digits =>
    rw [fractionText, hfraction] at hc
    obtain rfl := Option.some.inj hc
    exact List.mem_cons_self

omit hd hsuffix in
/-- What may stand behind digits is no digit and decides about nothing else. -/
theorem apart_of_mem (h : c ∈ '.' :: 'e' :: 'E' :: suffixLetters) :
    c.isDigit = false ∧ c ∉ ['+', '-', 'x', 'X', '"', '\''] := by
  simp only [suffixLetters, List.mem_cons, List.not_mem_nil, or_false] at h
  rcases h with rfl | rfl | rfl | rfl | rfl | rfl | rfl | rfl | rfl <;> decide

/-- A row of digits ends where the exponent starts, since its mark is no digit. -/
theorem scan_exponent {digits : List Char} (hdigits : ∀ c ∈ digits, c.isDigit = true) :
    (digits ++ (d.exponentText ++ suffix)).takeWhile Char.isDigit = digits ∧
      (digits ++ (d.exponentText ++ suffix)).dropWhile Char.isDigit = d.exponentText ++ suffix :=
  scan_append hdigits fun c hc =>
    (apart_of_mem (List.mem_cons_of_mem _ (head_exponentText hd hsuffix c hc))).1

/-- The whole part ends where the fraction starts. -/
theorem scan_whole :
    (d.whole ++ (d.fractionText ++ (d.exponentText ++ suffix))).takeWhile Char.isDigit = d.whole ∧
    (d.whole ++ (d.fractionText ++ (d.exponentText ++ suffix))).dropWhile Char.isDigit =
      d.fractionText ++ (d.exponentText ++ suffix) :=
  scan_append hd.whole fun c hc => (apart_of_mem (head_fractionText hd hsuffix c hc)).1

omit hd in
/-- A row of digits ends where the suffix starts. -/
theorem scan_suffix {digits : List Char} (hdigits : ∀ c ∈ digits, c.isDigit = true) :
    (digits ++ suffix).takeWhile Char.isDigit = digits ∧
      (digits ++ suffix).dropWhile Char.isDigit = suffix :=
  scan_append hdigits fun c hc =>
    (apart_of_mem (List.mem_cons_of_mem
      _ (List.mem_cons_of_mem _ (List.mem_cons_of_mem _ (hsuffix c (List.mem_of_mem_head? hc)))))).1

omit hd hsuffix in
theorem exponentText_some {e : Exponent} (h : d.exponent? = some e) :
    d.exponentText = e.mark :: (e.sign.text ++ e.digits) := by
  rw [exponentText, h]
  rfl

omit hd hsuffix in
theorem text_of_exponent_none (h : d.exponent? = none) : d.text = d.whole ++ d.fractionText := by
  rw [text, exponentText, h, List.append_nil]

/-- The text of an exponent is passed over as a whole, and nothing else is. -/
theorem pastExponent_text : pastExponent (d.exponentText ++ suffix) = suffix := by
  cases hexponent : d.exponent? with
  | none =>
    rw [exponentText, hexponent, List.nil_append]
    cases suffix with
    | nil => rfl
    | cons c suffix =>
      have hc : ¬(c = 'e' ∨ c = 'E') := by
        rintro (rfl | rfl) <;> exact absurd (hsuffix _ List.mem_cons_self) (by decide)
      simp only [pastExponent, hc, if_false]
  | some e =>
    obtain ⟨hmark, hne, hdigits⟩ := hd.exponent e hexponent
    have hscan := scan_suffix hsuffix hdigits
    obtain ⟨n, hlength⟩ :=
      Nat.exists_eq_succ_of_ne_zero (show e.digits.length ≠ 0 by simpa using hne)
    rw [exponentText_some hexponent, List.cons_append, List.append_assoc]
    apply pastExponent_cons (by simpa using hmark)
    rw [pastSign_text _ (head_digits hne hdigits _), passOver, hscan.1, hscan.2, hlength]

/-- The exponent is read back from its text. -/
theorem readExponent_text : readExponent (d.exponentText ++ suffix) = (d.exponent?, suffix) := by
  cases hexponent : d.exponent? with
  | none =>
    rw [exponentText, hexponent, List.nil_append]
    cases suffix with
    | nil => rfl
    | cons c suffix =>
      have hc : c ∉ ['e', 'E'] := by
        intro hmem
        simp only [List.mem_cons, List.not_mem_nil, or_false] at hmem
        rcases hmem with rfl | rfl <;> exact absurd (hsuffix _ List.mem_cons_self) (by decide)
      simp only [readExponent, hc, false_and, if_false]
  | some e =>
    obtain ⟨hmark, hne, hdigits⟩ := hd.exponent e hexponent
    have hscan := scan_suffix hsuffix hdigits
    rw [exponentText_some hexponent, List.cons_append, List.append_assoc, readExponent,
      read_text _ (head_digits hne hdigits _)]
    simp only [hscan.1, hscan.2, hmark, hne, ne_eq, not_false_eq_true, and_self, if_true]

/-- Behind a fraction the exponent starts. -/
theorem pastPoint_text :
    (pastPoint (d.fractionText ++ (d.exponentText ++ suffix))).dropWhile Char.isDigit =
      d.exponentText ++ suffix := by
  cases hfraction : d.fraction? with
  | some digits =>
    rw [fractionText, hfraction]
    exact (scan_exponent hd hsuffix (hd.fraction digits hfraction)).2
  | none =>
    have hpoint : pastPoint (d.exponentText ++ suffix) = d.exponentText ++ suffix := by
      have hhead := head_exponentText hd hsuffix
      generalize d.exponentText ++ suffix = behind at hhead
      unfold pastPoint
      split
      · exact absurd (hhead '.' rfl) (by decide)
      · rfl
    rw [fractionText, hfraction, List.nil_append, hpoint]
    exact (scan_exponent hd hsuffix (fun c hc => absurd hc List.not_mem_nil)).2

/-- A decimal number is passed over up to its suffix, if it starts with a digit. -/
theorem pastDecimal?_text (hne : d.whole ≠ []) :
    pastDecimal? (d.whole ++ (d.fractionText ++ (d.exponentText ++ suffix))) = some suffix := by
  obtain ⟨n, hlength⟩ := Nat.exists_eq_succ_of_ne_zero (show d.whole.length ≠ 0 by simpa using hne)
  have hrow : passOver Char.isDigit (d.whole ++ (d.fractionText ++ (d.exponentText ++ suffix))) =
      (n + 1, d.fractionText ++ (d.exponentText ++ suffix)) := by
    rw [passOver, (scan_whole hd hsuffix).1, (scan_whole hd hsuffix).2, hlength]
  simp only [pastDecimal?, hrow]
  rw [pastPoint_text hd hsuffix, pastExponent_text hd hsuffix]

/-- No letter for hexadecimal digits stands in a decimal number. -/
theorem not_letter {x : Char}
    (h : d.whole ++ (d.fractionText ++ (d.exponentText ++ suffix)) = '0' :: x :: rest) :
    ¬(x = 'x' ∨ x = 'X') := by
  have hx : x.isDigit = true ∨ x ∈ '.' :: 'e' :: 'E' :: suffixLetters := by
    have hhead := head_fractionText hd hsuffix
    have hwhole := hd.whole
    generalize d.fractionText ++ (d.exponentText ++ suffix) = behind at h hhead
    generalize d.whole = whole at h hwhole
    rcases whole with _ | ⟨c, _ | ⟨c', whole⟩⟩
    · rw [List.nil_append] at h
      exact absurd (hhead '0' (by rw [h]; rfl)) (by decide)
    · obtain rfl : behind = x :: rest := (List.cons.inj h).2
      exact .inr (hhead x rfl)
    · obtain rfl := (List.cons.inj (List.cons.inj h).2).1
      exact .inl (hwhole _ (by simp))
  rcases hx with hx | hx
  · rintro (rfl | rfl) <;> exact absurd hx (by decide)
  · rintro (rfl | rfl) <;> exact absurd hx (by decide)

/-- The suffix of a decimal number. -/
theorem suffix?_text (hne : d.whole ≠ []) (sign : Sign) :
    suffix? (sign.text ++ d.text ++ suffix) = some suffix := by
  have hsign : pastSign (sign.text ++ d.text ++ suffix) = d.whole ++ (d.fractionText ++
      (d.exponentText ++ suffix)) := by
    rw [text, List.append_assoc, List.append_assoc, List.append_assoc,
      pastSign_text _ (head_digits hne hd.whole _)]
  have hfilter : (pastDecimal? (d.whole ++ (d.fractionText ++ (d.exponentText ++ suffix)))).filter
      (·.all isSuffixLetter) = some suffix := by
    rw [pastDecimal?_text hd hsuffix hne, Option.filter_some, if_pos (all_isSuffixLetter hsuffix)]
  unfold suffix?
  simp only [hsign, hfilter]
  split
  · rename_i x behind heq
    rw [if_neg (not_letter hd hsuffix heq)]
    rfl
  · rfl

/-- The fraction is read back from its text. -/
theorem readFraction_text :
    readFraction (d.fractionText ++ (d.exponentText ++ suffix)) = (d.fraction?,
      d.exponentText ++ suffix) := by
  cases hfraction : d.fraction? with
  | some digits =>
    have hscan := scan_exponent hd hsuffix (hd.fraction digits hfraction)
    rw [fractionText, hfraction]
    exact Prod.ext (congrArg some hscan.1) hscan.2
  | none =>
    have hhead := head_exponentText hd hsuffix
    rw [fractionText, hfraction, List.nil_append]
    generalize d.exponentText ++ suffix = behind at hhead
    unfold readFraction
    split
    · exact absurd (hhead '.' rfl) (by decide)
    · rfl

omit hd hsuffix in
/-- A number with no digit in front of its point is none. -/
theorem suffix?_of_whole_nil (hne : d.whole = []) (hfraction : d.fraction?.isSome = true)
    (sign : Sign) :
    suffix? (sign.text ++ d.text ++ suffix) = none := by
  obtain ⟨digits, hdigits⟩ := Option.isSome_iff_exists.mp hfraction
  have htext : sign.text ++ d.text ++ suffix = sign.text ++ '.' :: (digits ++
      (d.exponentText ++ suffix)) := by
    rw [text, hne, fractionText, hdigits]
    simp
  have hsign : pastSign (sign.text ++ d.text ++ suffix) = '.' :: (digits ++
      (d.exponentText ++ suffix)) := by
    rw [htext, pastSign_text]
    intro c hc
    obtain rfl := Option.some.inj hc
    decide
  unfold suffix?
  simp only [hsign]
  rfl

/-- What managed code reads. -/
theorem managedReal?_text (hne : d.whole ≠ []) (sign : Sign) :
    managedReal? (sign.text ++ d.text ++ suffix) =
      if d.fraction? ≠ some [] ∧ (d.fraction?.isSome ∨ d.exponent?.isSome ∨ suffix ≠ []) ∧
          suffix ∈ managedRealSuffixes then
        some (sign, d)
      else none := by
  have hread : Sign.read (sign.text ++ d.text ++ suffix) =
      (sign, d.whole ++ (d.fractionText ++ (d.exponentText ++ suffix))) := by
    rw [text, List.append_assoc, List.append_assoc, List.append_assoc,
      read_text _ (head_digits hne hd.whole _)]
  have hscan := scan_whole hd hsuffix
  simp only [managedReal?, hread, hscan.1, hscan.2, readFraction_text hd hsuffix,
    readExponent_text hd hsuffix, ne_eq, hne, not_false_eq_true, true_or, true_and]

end Decimal

end Interop.Naming
