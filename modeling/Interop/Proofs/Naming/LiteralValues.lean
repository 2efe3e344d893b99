import Interop.Proofs.Naming.NumberTexts
import Mathlib.Data.List.Basic

namespace Interop.Naming

variable {p : Char → Bool} {digits rest suffix cs : List Char} {c : Char}

/-- A number gets a digit behind a point that it ends with, and a managed suffix. -/
theorem managedNumber?_of_suffix? {number : List Char}
    (h : suffix? (number ++ suffix) = some suffix) :
    managedNumber? (String.ofList (number ++ suffix)) =
      some (String.ofList (if number.getLast? = some '.' then number ++ ['0'] else number) ++
          managedSuffix suffix) := by
  simp only [managedNumber?, String.toList_ofList, h, Option.map_some, List.length_append,
    Nat.add_sub_cancel, List.take_left]

/-- Whether a text begins with a digit, a sign or a point. -/
def BeginsNumber (cs : List Char) : Prop :=
  ∃ c rest, cs = c :: rest ∧ (c.isDigit = true ∨ c ∈ ['+', '-', '.'])

/-- A sign in front of a number leaves it one. -/
theorem BeginsNumber.behindSign (h : BeginsNumber cs) (sign : Sign) :
    BeginsNumber (sign.text ++ cs) := by
  cases sign with
  | absent => exact h
  | plus | minus => exact ⟨_, _, rfl, .inr (by simp)⟩

/-- A text that begins like a number is no literal but a number. -/
theorem managedLiteral?_of_number (h : BeginsNumber cs) :
    managedLiteral? (String.ofList cs) = managedNumber? (String.ofList cs) := by
  obtain ⟨c, cs, rfl, hc⟩ := h
  have hword : ∀ (word : String) (first : Char) (tail : List Char), word.toList = first :: tail →
      (first.isDigit = false ∧ first ∉ ['+', '-', '.']) → String.ofList (c :: cs) ≠ word := by
    rintro word first tail hfirst ⟨hdigit, hsign⟩ rfl
    rw [String.toList_ofList] at hfirst
    obtain rfl := (List.cons.inj hfirst).1
    rw [hdigit] at hc
    exact hc.elim Bool.false_ne_true hsign
  have hquote : ∀ quote least, (quote.isDigit = false ∧ quote ∉ ['+', '-', '.']) →
      isQuoted quote least (String.ofList (c :: cs)) = false := by
    rintro quote least ⟨hdigit, hsign⟩
    have hne : c ≠ quote := by
      rintro rfl
      rw [hdigit] at hc
      exact hc.elim Bool.false_ne_true hsign
    simp [isQuoted, hne]
  rw [managedLiteral?, if_neg, if_neg, if_neg]
  · rw [hquote '"' 2 (by decide), hquote '\'' 3 (by decide)]
    simp
  · rintro (heq | heq)
    · exact hword "nullptr" 'n' _ rfl (by decide) heq
    · exact hword "NULL" 'N' _ rfl (by decide) heq
  · rintro (heq | heq)
    · exact hword "true" 't' _ rfl (by decide) heq
    · exact hword "false" 'f' _ rfl (by decide) heq

/-- The suffixes of whole numbers become one of four in managed code. -/
theorem managedSuffix_of_whole (h : ∀ c ∈ suffix, c ∈ ['u', 'U', 'l', 'L']) :
    managedSuffix suffix ∈ ["", "U", "L", "UL"] := by
  have hfloat : (suffix.map Char.toLower).contains 'f' = false := by
    rw [← Bool.not_eq_true, List.contains_iff_mem, List.mem_map]
    rintro ⟨c, hc, hlower⟩
    have hmem := h c hc
    simp only [List.mem_cons, List.not_mem_nil, or_false] at hmem
    rcases hmem with rfl | rfl | rfl | rfl <;> exact absurd hlower (by decide)
  simp only [managedSuffix, hfloat]
  cases (suffix.map Char.toLower).contains 'u' <;> cases (suffix.map Char.toLower).contains
    'l' <;> simp

/-- Digits in front of a managed suffix have their value if it fits into 64 bits, and there is none
otherwise. -/
theorem managedDigits?_text (radix : Nat) (hne : digits ≠ []) (hdigits : ∀ c ∈ digits, p c = true)
    (hsuffix : ∀ c ∈ suffix.head?, p c = false) (hmem : suffix ∈ managedWholeSuffixes) :
    managedDigits? radix p (digits ++ suffix) = if valueIn radix digits <
      UInt64.size then some (valueIn radix digits) else none := by
  obtain ⟨htake, hdrop⟩ := scan_append hdigits hsuffix
  simp only [managedDigits?, htake, hdrop, ne_eq, hne, not_false_eq_true, hmem, true_and]

/-- A text that ends with digits does not end with a point. -/
theorem getLast?_digits (hne : digits ≠ []) (hdot : '.' ∉ digits) (front : List Char) :
    (front ++ digits).getLast? ≠ some '.' := by
  rw [List.getLast?_append_of_ne_nil _ hne]
  exact fun hlast => hdot (List.mem_of_mem_getLast? hlast)

namespace NativeWhole

variable (n : NativeWhole)

/-- The suffix has only letters that may stand in one. -/
theorem suffix_letters : ∀ c ∈ n.suffix, c ∈ suffixLetters := by
  intro c hc
  have hmem := n.suffix_mem c hc
  simp only [List.mem_cons, List.not_mem_nil, or_false] at hmem
  rcases hmem with rfl | rfl | rfl | rfl <;> decide

/-- The digits of a decimal or octal number are those of a decimal number without point and
exponent. -/
theorem wellFormed (h : n.radix ≠ .hexadecimal) :
    (⟨n.digits, none, none⟩ : Decimal).WellFormed where
  whole := by
    have haccepts := n.accepts
    cases hradix : n.radix with
    | hexadecimal => exact absurd hradix h
    | decimal =>
      rw [hradix] at haccepts
      exact haccepts.2
    | octal =>
      rw [hradix] at haccepts
      exact fun c hc => (haccepts.2 c hc).1
  fraction := by simp
  exponent := by simp

/-- The suffix of a whole number has no hexadecimal digit, so the digits end in front of it in each
radix. -/
theorem isHex_suffix : ∀ c ∈ n.suffix, isHex c = false := by
  intro c hc
  have hmem := n.suffix_mem c hc
  simp only [List.mem_cons, List.not_mem_nil, or_false] at hmem
  rcases hmem with rfl | rfl | rfl | rfl <;> decide

/-- The suffix of a whole number is found. -/
theorem suffix?_text : suffix? n.text = some n.suffix := by
  by_cases hradix : n.radix = .hexadecimal
  · have hsign : pastSign n.text = '0' :: n.letter :: (n.digits ++ n.suffix) := by
      rw [text, marked, if_pos hradix, List.append_assoc, pastSign_text]
      · rfl
      · intro c hc
        obtain rfl := Option.some.inj hc
        decide
    have hletter : n.letter = 'x' ∨ n.letter = 'X' := by simpa using n.letter_mem
    have haccepts := n.accepts
    rw [hradix] at haccepts
    have hscan := scan_append haccepts fun c hc => n.isHex_suffix c (List.mem_of_mem_head? hc)
    obtain ⟨k, hlength⟩ :=
      Nat.exists_eq_succ_of_ne_zero (show n.digits.length ≠ 0 by simpa using n.digits_ne)
    have hrow : passOver isHex (n.digits ++ n.suffix) = (k + 1, n.suffix) := by
      rw [passOver, hscan.1, hscan.2, hlength]
    unfold suffix?
    simp only [hsign, hletter, if_true, hrow, all_isSuffixLetter n.suffix_letters, Option.some_or]
  · have htext := Decimal.suffix?_text (n.wellFormed hradix) n.suffix_letters n.digits_ne n.sign
    rw [text, marked, if_neg hradix]
    simpa [Decimal.text, Decimal.fractionText, Decimal.exponentText] using htext

/-- In each radix the digits are hexadecimal ones. -/
theorem isHex_digits : ∀ c ∈ n.digits, isHex c = true := by
  by_cases hradix : n.radix = .hexadecimal
  · have haccepts := n.accepts
    rw [hradix] at haccepts
    exact haccepts
  · intro c hc
    simp [isHex, (n.wellFormed hradix).whole c hc]

/-- A whole number begins with a digit behind its sign. -/
theorem exists_marked : ∃ c rest, n.marked = c :: rest ∧ c.isDigit = true := by
  by_cases hradix : n.radix = .hexadecimal
  · exact ⟨'0', _, if_pos hradix, rfl⟩
  · obtain ⟨c, rest, hdigits⟩ := List.exists_cons_of_ne_nil n.digits_ne
    exact ⟨c, rest, (if_neg hradix).trans hdigits,
      (n.wellFormed hradix).whole c (by simp [hdigits])⟩

/-- A whole number does not end with a point. -/
theorem getLast?_marked : (n.sign.text ++ n.marked).getLast? ≠ some '.' := by
  have hdot : '.' ∉ n.digits := fun hmem => absurd (n.isHex_digits '.' hmem) (by decide)
  obtain ⟨front, hfront⟩ : ∃ front, n.marked = front ++ n.digits := by
    by_cases hradix : n.radix = .hexadecimal
    · exact ⟨['0', n.letter], if_pos hradix⟩
    · exact ⟨[], if_neg hradix⟩
  rw [hfront, ← List.append_assoc]
  exact getLast?_digits n.digits_ne hdot _

/-- What managed code reads. -/
theorem managedWhole?_text (hmem : suffix ∈ ["", "U", "L", "UL"].map String.toList) :
    managedWhole? (n.sign.text ++ n.marked ++ suffix) =
      if valueIn (if n.radix = .hexadecimal then 16 else 10) n.digits < UInt64.size then
        some (n.sign.apply (valueIn (if n.radix = .hexadecimal then 16 else 10) n.digits))
      else none := by
  have hletters : (∀ c ∈ suffix, c ∈ suffixLetters) ∧ (∀ c ∈ suffix.head?, isHex c = false) ∧
      suffix ∈ managedWholeSuffixes := by
    simp only [List.map_cons, List.map_nil, List.mem_cons, List.not_mem_nil, or_false] at hmem
    rcases hmem with rfl | rfl | rfl | rfl <;>
      exact ⟨by simp [suffixLetters], by simp [isHex], by decide⟩
  obtain ⟨hletters, hstop, hmanaged⟩ := hletters
  obtain ⟨c, rest, hmarked, hc⟩ := n.exists_marked
  have hread : Sign.read (n.sign.text ++ n.marked ++ suffix) = (n.sign, n.marked ++ suffix) := by
    rw [List.append_assoc, read_text]
    intro d hd
    rw [hmarked] at hd
    obtain rfl := Option.some.inj hd
    have hapart := digit_apart hc
    exact ⟨fun heq => hapart (by simp [heq]), fun heq => hapart (by simp [heq])⟩
  by_cases hradix : n.radix = .hexadecimal
  · have hletter : n.letter = 'x' ∨ n.letter = 'X' := by simpa using n.letter_mem
    have hdigits := managedDigits?_text 16 n.digits_ne n.isHex_digits hstop hmanaged
    rw [marked, if_pos hradix] at hread ⊢
    rw [List.cons_append, List.cons_append] at hread
    simp only [managedWhole?, hread, hletter, if_true, hdigits, hradix]
    split <;> rfl
  · have hdigit : ∀ c ∈ suffix.head?, c.isDigit = false := by
      intro c hc
      have := hstop c hc
      rw [isHex, Bool.or_eq_false_iff, Bool.or_eq_false_iff] at this
      exact this.1.1
    have hdigits := managedDigits?_text 10 n.digits_ne (n.wellFormed hradix).whole hdigit hmanaged
    rw [marked, if_neg hradix] at hread ⊢
    have hmatch : managedWhole? (n.sign.text ++ n.digits ++ suffix) =
        (managedDigits? 10 Char.isDigit (n.digits ++ suffix)).map n.sign.apply := by
      simp only [managedWhole?, hread]
      split
      · rename_i letter behind heq
        rw [if_neg (Decimal.not_letter (n.wellFormed hradix) hletters heq)]
      · rfl
    rw [hmatch, hdigits, if_neg hradix]
    split <;> rfl

/-- A whole number keeps its value, unless it is octal with a value beyond one digit. -/
theorem managedLiteral?_text : ∃ out, managedLiteral? (String.ofList n.text) = some out ∧
    (managedWhole? out.toList = some n.value ↔ n.radix ≠ .octal ∨ n.magnitude < 8) := by
  have hsuffix : (managedSuffix n.suffix).toList ∈ ["", "U", "L", "UL"].map String.toList :=
    List.mem_map_of_mem (managedSuffix_of_whole n.suffix_mem)
  refine ⟨String.ofList (n.sign.text ++ n.marked) ++ managedSuffix n.suffix, ?_, ?_⟩
  · have hnumber := managedNumber?_of_suffix? n.suffix?_text
    rw [if_neg n.getLast?_marked] at hnumber
    rw [← hnumber, text]
    obtain ⟨c, rest, hmarked, hc⟩ := n.exists_marked
    rw [List.append_assoc]
    exact managedLiteral?_of_number (.behindSign ⟨c, rest ++ n.suffix, by rw [hmarked]; rfl,
      .inl hc⟩ _)
  · rw [String.toList_append, String.toList_ofList, n.managedWhole?_text hsuffix, value, magnitude]
    have hbounded := n.bounded
    cases hradix : n.radix with
    | decimal | hexadecimal =>
      rw [hradix] at hbounded
      simp only [Radix.base, reduceCtorEq, if_true, if_false, ne_eq, not_false_eq_true, true_or,
        iff_true] at hbounded ⊢
      rw [if_pos hbounded]
    | octal =>
      have haccepts := n.accepts
      rw [hradix] at hbounded haccepts
      obtain ⟨hle, hsame⟩ := valueIn_octal fun c hc => (haccepts.2 c hc).2
      simp only [Radix.base, reduceCtorEq, if_false, ne_eq, not_true_eq_false,
        false_or] at hbounded ⊢
      rw [← hsame]
      constructor
      · intro h
        split at h
        · exact Sign.apply_injective n.sign (Option.some.inj h)
        · cases h
      · intro h
        rw [h, if_pos hbounded]

end NativeWhole

namespace NativeReal

variable (r : NativeReal)

/-- The suffix of a real number has only letters that may stand in one, though some of them are
hexadecimal digits. -/
theorem suffix_letters : ∀ c ∈ r.suffix, c ∈ suffixLetters := by
  have hmem := r.suffix_mem
  simp only [List.mem_cons, List.not_mem_nil, or_false] at hmem
  rcases hmem with hsuffix | hsuffix | hsuffix | hsuffix | hsuffix <;> simp [hsuffix, suffixLetters]

/-- The parts that the managed spelling has: a bare point gets a digit if the number ends with
it. -/
def spelled : Decimal :=
  if r.decimal.exponent? = none then r.decimal.filled else r.decimal

/-- A number that is filled up behind its point is well-formed. -/
theorem wellFormed_filled : r.decimal.filled.WellFormed where
  whole := r.wellFormed.whole
  fraction := by
    intro digits hdigits
    obtain ⟨row, hrow, rfl⟩ := Option.map_eq_some_iff.mp hdigits
    split
    · simp
    · exact r.wellFormed.fraction row hrow
  exponent := r.wellFormed.exponent

/-- What is written in managed code is the number filled up behind its point. -/
theorem spelled_text (hne : r.decimal.whole ≠ []) :
    (if (r.sign.text ++ r.decimal.text).getLast? = some '.' then r.sign.text ++
      r.decimal.text ++ ['0']
      else r.sign.text ++ r.decimal.text) = r.sign.text ++ r.spelled.text := by
  have hdot : ∀ digits : List Char, (∀ c ∈ digits, c.isDigit = true) → '.' ∉ digits :=
    fun digits hdigits hmem => absurd (hdigits '.' hmem) (by decide)
  cases hexponent : r.decimal.exponent? with
  | some e =>
    have hspelled : r.spelled = r.decimal := if_neg (by rw [hexponent]; simp)
    obtain ⟨-, hdigits, hall⟩ := r.wellFormed.exponent e hexponent
    rw [hspelled, if_neg]
    rw [Decimal.text, Decimal.exponentText_some hexponent]
    have hlast := getLast?_digits hdigits (hdot _ hall)
      (r.sign.text ++ (r.decimal.whole ++ r.decimal.fractionText ++ e.mark :: e.sign.text))
    simpa using hlast
  | none =>
    have hspelled : r.spelled = r.decimal.filled := if_pos hexponent
    have hfilled : r.decimal.filled.exponent? = none := hexponent
    rw [hspelled, Decimal.text_of_exponent_none hexponent, Decimal.text_of_exponent_none hfilled]
    cases hfraction : r.decimal.fraction? with
    | none =>
      have hnone : r.decimal.filled.fraction? = none := by rw [Decimal.filled, hfraction]; rfl
      rw [Decimal.fractionText, hfraction, Decimal.fractionText, hnone, List.append_nil,
        if_neg (getLast?_digits hne (hdot _ r.wellFormed.whole) _)]
      simp [Decimal.filled]
    | some digits =>
      have hsome : r.decimal.filled.fraction? = some (if digits = [] then ['0'] else digits) := by
        rw [Decimal.filled, hfraction]
        rfl
      rw [Decimal.fractionText, hfraction, Decimal.fractionText, hsome]
      by_cases hdigits : digits = []
      · rw [if_pos hdigits, hdigits, if_pos (by simp)]
        simp [Decimal.filled]
      · have hlast := getLast?_digits hdigits (hdot _ (r.wellFormed.fraction digits hfraction))
          (r.sign.text ++ (r.decimal.whole ++ ['.']))
        rw [if_neg hdigits, if_neg (by simpa using hlast)]
        rfl

/-- A suffix becomes one of three, and managed code takes it unless it is that of a long double. -/
theorem managedSuffix_eq : (managedSuffix r.suffix).toList ∈ [[], ['f'], ['L']] ∧
    ((managedSuffix r.suffix).toList ∈ managedRealSuffixes ↔ r.suffix ∉ [['l'], ['L']]) := by
  have hmem := r.suffix_mem
  simp only [List.mem_cons, List.not_mem_nil, or_false] at hmem
  rcases hmem with hsuffix | hsuffix | hsuffix | hsuffix | hsuffix <;> rw [hsuffix] <;> decide

/-- A real number is recognized by how it begins. -/
theorem beginsNumber : BeginsNumber r.text := by
  rw [text, List.append_assoc]
  refine .behindSign ?_ _
  cases hwhole : r.decimal.whole with
  | cons c whole =>
    exact ⟨c, _, by rw [Decimal.text, hwhole]; rfl, .inl (r.wellFormed.whole c (by simp [hwhole]))⟩
  | nil =>
    rcases r.digits_ne with hne | ⟨digits, hdigits, -⟩
    · exact absurd hwhole hne
    · refine ⟨'.', digits ++ (r.decimal.exponentText ++ r.suffix), ?_, .inr (by simp)⟩
      rw [Decimal.text, hwhole, Decimal.fractionText, Option.mem_def.mp hdigits]
      simp

/-- A real number keeps its parts, up to a digit behind a bare point, unless its suffix makes it
long or an exponent stands behind a bare point. Without a digit in front of the point there is no
managed spelling. -/
theorem managedLiteral?_text :
    (r.decimal.whole = [] → managedLiteral? (String.ofList r.text) = none) ∧
    (r.decimal.whole ≠ [] → ∃ out, managedLiteral? (String.ofList r.text) = some out ∧
      (managedReal? out.toList = some (r.sign, r.decimal.filled) ↔
        r.suffix ∉ [['l'], ['L']] ∧
            ¬(r.decimal.fraction? = some [] ∧ r.decimal.exponent?.isSome = true))) := by
  have hliteral := managedLiteral?_of_number r.beginsNumber
  refine ⟨fun hwhole => ?_, fun hwhole => ?_⟩
  · have hfraction : r.decimal.fraction?.isSome = true := by
      rcases r.digits_ne with hne | ⟨digits, hdigits, -⟩
      · exact absurd hwhole hne
      · rw [Option.mem_def.mp hdigits]
        rfl
    have hnone : suffix? r.text = none := Decimal.suffix?_of_whole_nil hwhole hfraction r.sign
    rw [hliteral, managedNumber?, String.toList_ofList, hnone]
    rfl
  · have hnumber := managedNumber?_of_suffix?
      (Decimal.suffix?_text r.wellFormed r.suffix_letters hwhole r.sign)
    rw [r.spelled_text hwhole] at hnumber
    refine ⟨String.ofList (r.sign.text ++ r.spelled.text) ++ managedSuffix r.suffix,
      hliteral.trans hnumber, ?_⟩
    obtain ⟨hsuffix, hmanaged⟩ := r.managedSuffix_eq
    have hletters : ∀ c ∈ (managedSuffix r.suffix).toList, c ∈ suffixLetters := by
      simp only [List.mem_cons, List.not_mem_nil, or_false] at hsuffix
      rcases hsuffix with hsuffix | hsuffix | hsuffix <;> simp [hsuffix, suffixLetters]
    rw [String.toList_append, String.toList_ofList, ← hmanaged]
    cases hexponent : r.decimal.exponent? with
    | none =>
      have hspelled : r.spelled = r.decimal.filled := if_pos hexponent
      have hfraction : r.decimal.fraction?.isSome = true := by
        have hreal := r.isReal
        rw [hexponent] at hreal
        simpa using hreal
      obtain ⟨digits, hdigits⟩ := Option.isSome_iff_exists.mp hfraction
      have hfilled : r.decimal.filled.fraction? = some (if digits = [] then ['0'] else digits) := by
        rw [Decimal.filled, hdigits]
        rfl
      have hne : (if digits = [] then ['0'] else digits) ≠ [] := by
        split
        · simp
        · assumption
      rw [hspelled, Decimal.managedReal?_text r.wellFormed_filled hletters hwhole, hfilled]
      simp [hne]
    | some e =>
      have hspelled : r.spelled = r.decimal := if_neg (by rw [hexponent]; simp)
      rw [hspelled, Decimal.managedReal?_text r.wellFormed hletters hwhole]
      by_cases hbare : r.decimal.fraction? = some []
      · simp [hbare]
      · simp [hbare, hexponent, Decimal.filled_of_ne hbare]

end NativeReal

/-- What numbers with a managed spelling are made of. -/
def isNumberCharacter (c : Char) : Bool :=
  isHex c || isSuffixLetter c || ['x', 'X', '.', '+', '-'].contains c

/-- Hexadecimal digits may stand in numbers. -/
theorem isNumberCharacter_of_isHex (h : isHex c = true) : isNumberCharacter c = true := by
  simp [isNumberCharacter, h]

/-- Decimal digits may stand in numbers. -/
theorem isNumberCharacter_of_isDigit (h : c.isDigit = true) : isNumberCharacter c = true :=
  isNumberCharacter_of_isHex (by simp [isHex, h])

/-- What is dropped from a number may stand in one. -/
theorem mem_dropWhile_or (hp : ∀ c, p c = true → isNumberCharacter c = true) (hc : c ∈ cs) :
    isNumberCharacter c = true ∨ c ∈ cs.dropWhile p := by
  rw [← List.takeWhile_append_dropWhile (p := p) (l := cs)] at hc
  exact (List.mem_append.mp hc).imp_left fun htaken => hp c (List.mem_takeWhile_imp htaken)

/-- A sign that is passed over may stand in a number. -/
theorem mem_pastSign_or (hc : c ∈ cs) : isNumberCharacter c = true ∨ c ∈ pastSign cs := by
  cases cs with
  | nil => cases hc
  | cons first rest =>
    rw [pastSign]
    split
    · rename_i hsign
      refine (List.mem_cons.mp hc).imp_left ?_
      rintro rfl
      rcases hsign with rfl | rfl <;> decide
    · exact .inr hc

/-- All of an exponent that is passed over may stand in a number. -/
theorem mem_pastExponent_or (hc : c ∈ cs) : isNumberCharacter c = true ∨ c ∈ pastExponent cs := by
  cases cs with
  | nil => cases hc
  | cons mark rest =>
    rcases pastExponent_cases mark rest with heq | ⟨hmark, heq⟩
    · rw [heq]
      exact .inr hc
    · rw [heq]
      rcases List.mem_cons.mp hc with rfl | hc
      · rcases hmark with rfl | rfl <;> exact .inl (by decide)
      · rcases mem_pastSign_or hc with hc | hc
        · exact .inl hc
        · exact mem_dropWhile_or (fun c => isNumberCharacter_of_isDigit) hc

/-- A point that is passed over may stand in a number. -/
theorem mem_pastPoint_or (hc : c ∈ cs) : isNumberCharacter c = true ∨ c ∈ pastPoint cs := by
  unfold pastPoint
  split
  · refine (List.mem_cons.mp hc).imp_left ?_
    rintro rfl
    decide
  · exact .inr hc

/-- All of a decimal number that is passed over may stand in one. -/
theorem mem_pastDecimal?_or (h : pastDecimal? cs = some rest) (hc : c ∈ cs) :
    isNumberCharacter c = true ∨ c ∈ rest := by
  unfold pastDecimal? at h
  split at h
  · cases h
  · rename_i behind _ hrow
    obtain rfl := Option.some.inj h
    obtain rfl : cs.dropWhile Char.isDigit = behind := congrArg Prod.snd hrow
    have hdigit : ∀ c : Char, c.isDigit = true → isNumberCharacter c = true :=
      fun c => isNumberCharacter_of_isDigit
    rcases mem_dropWhile_or hdigit hc with hc | hc
    · exact .inl hc
    · rcases mem_pastPoint_or hc with hc | hc
      · exact .inl hc
      · rcases mem_dropWhile_or hdigit hc with hc | hc
        · exact .inl hc
        · exact mem_pastExponent_or hc

/-- A number with a managed spelling has no other characters. -/
theorem isNumberCharacter_of_suffix? (h : suffix? cs = some suffix) (hc : c ∈ cs) :
    isNumberCharacter c = true := by
  have hsuffix : ∀ {row : List Char}, row.all isSuffixLetter = true → c ∈ row →
      isNumberCharacter c = true := by
    intro row hall hc
    simp [isNumberCharacter, List.all_eq_true.mp hall c hc]
  unfold suffix? at h
  simp only [Option.or_eq_some_iff] at h
  rcases mem_pastSign_or hc with hc | hc
  · exact hc
  rcases h with h | ⟨-, h⟩
  · split at h
    · rename_i letter rest hsign
      split at h
      · rename_i hletter
        split at h
        · cases h
        · rename_i behind _ hrow
          obtain rfl : rest.dropWhile isHex = behind := congrArg Prod.snd hrow
          split at h
          · rename_i hall
            rw [hsign] at hc
            rcases List.mem_cons.mp hc with rfl | hc
            · decide
            · rcases List.mem_cons.mp hc with rfl | hc
              · rcases hletter with rfl | rfl <;> decide
              · exact (mem_dropWhile_or (fun c => isNumberCharacter_of_isHex) hc).elim id
                  (hsuffix hall)
          · cases h
      · cases h
    · cases h
  · obtain ⟨hdecimal, hall⟩ := Option.filter_eq_some_iff.mp h
    exact (mem_pastDecimal?_or hdecimal hc).elim id (hsuffix hall)

/-- Whole numbers keep their values in managed code but for octal ones, of which only those of one
digit's value do. Real numbers with a digit in front of the point keep their digits and their
exponent, but for long ones and ones with an exponent behind a bare point, whose managed spelling is
no number; the others have none. Neither have numbers with separators between their digits or binary
exponents. -/
theorem managedLiteral?_number (n : NativeWhole) (r : NativeReal) (cs : List Char) :
    (∃ out, managedLiteral? (String.ofList n.text) = some out ∧
      (managedWhole? out.toList = some n.value ↔ n.radix ≠ .octal ∨ n.magnitude < 8)) ∧
    ((r.decimal.whole = [] → managedLiteral? (String.ofList r.text) = none) ∧
      (r.decimal.whole ≠ [] → ∃ out, managedLiteral? (String.ofList r.text) = some out ∧
        (managedReal? out.toList = some (r.sign, r.decimal.filled) ↔
          r.suffix ∉ [['l'], ['L']] ∧
            ¬(r.decimal.fraction? = some [] ∧ r.decimal.exponent?.isSome = true)))) ∧
    (BeginsNumber cs → (∃ c ∈ cs, c ∈ ['\'', 'p', 'P']) →
      managedLiteral? (String.ofList cs) = none) := by
  refine ⟨n.managedLiteral?_text, r.managedLiteral?_text, ?_⟩
  rintro hcs ⟨c, hc, hother⟩
  rw [managedLiteral?_of_number hcs, managedNumber?, String.toList_ofList]
  cases hsuffix : suffix? cs with
  | none => rfl
  | some suffix =>
    have hmem := isNumberCharacter_of_suffix? hsuffix hc
    simp only [List.mem_cons, List.not_mem_nil, or_false] at hother
    rcases hother with rfl | rfl | rfl <;> exact absurd hmem (by decide)

theorem managedLiteral?_number_written :
    ∃ (n : NativeWhole) (r : NativeReal), n.text = "-0x1Ful".toList ∧ n.value = -31 ∧
      r.text = "2.5e-3f".toList ∧
        (∃ out, managedLiteral? "-0x1Ful" = some out ∧ managedWhole? out.toList = some (-31)) ∧
      (∃ out, managedLiteral? "2.5e-3f" = some out ∧
        managedReal? out.toList = some (r.sign, r.decimal.filled)) ∧
      managedLiteral? "0x1p3" = none := by
  let n : NativeWhole :=
    { sign := .minus, radix := .hexadecimal, letter := 'x', digits := ['1', 'F'],
      suffix := ['u', 'l']
      letter_mem := by decide, digits_ne := by decide, suffix_mem := by simp
      accepts := by simp [Radix.Accepts, isHex], bounded := by decide }
  let r : NativeReal :=
    { sign := .absent, decimal := ⟨['2'], some ['5'], some ⟨'e', .minus, ['3']⟩⟩, suffix := ['f']
      wellFormed := ⟨by simp, by simp, by simp⟩, digits_ne := .inl (by decide)
      isReal := .inl rfl, suffix_mem := by decide }
  obtain ⟨⟨out, hout, hwhole⟩, ⟨-, hreal⟩, hother⟩ := managedLiteral?_number n r "0x1p3".toList
  obtain ⟨out', hout', hreal⟩ := hreal (by decide)
  refine ⟨n, r, by decide, by decide, by decide, ⟨out, hout, hwhole.mpr (.inl (by decide))⟩,
    ⟨out', hout', hreal.mpr ?_⟩, ?_⟩
  · exact ⟨by decide, by decide⟩
  · exact hother ⟨'0', ['x', '1', 'p', '3'], by decide, .inl rfl⟩ ⟨'p', by decide, by decide⟩

/-- The octal 8 becomes the decimal 10, and neither an exponent behind a bare point nor a long real
has a reading. -/
theorem managedLiteral?_octal :
    managedLiteral? "010" = some "010" ∧ valueIn 8 "010".toList = 8 ∧
      managedWhole? "010".toList = some 10 ∧ managedLiteral? "1.e5" = some "1.e5" ∧
        managedReal? "1.e5".toList = none ∧
      managedLiteral? "1.5L" = some "1.5L" ∧ managedReal? "1.5L".toList = none := by
  decide +kernel

end Interop.Naming
