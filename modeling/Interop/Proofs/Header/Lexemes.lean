import Interop.Header.Token
import Mathlib.Data.List.TakeWhile
import Mathlib.Data.String.Basic

namespace Interop.Header

namespace Lexeme

variable {p : Char → Bool} {c d quote : Char} {cs rest : List Char} {n : Nat}

/-- Names start with a letter or an underscore. -/
theorem toNat_of_isNameStart (h : Directive.isNameStart c = true) :
    65 ≤ c.toNat ∧ c.toNat ≤ 90 ∨ 97 ≤ c.toNat ∧ c.toNat ≤ 122 ∨ c.toNat = 95 := by
  delta Directive.isNameStart Char.isAlpha Char.isUpper Char.isLower at h
  simp only [Bool.or_eq_true, decide_eq_true_eq, beq_iff_eq, Bool.and_eq_true,
    UInt32.le_iff_toNat_le, ge_iff_le] at h
  rcases h with (h | h) | rfl
  · exact .inl h
  · exact .inr (.inl h)
  · exact .inr (.inr rfl)

theorem toNat_of_isDigit (h : c.isDigit = true) : 48 ≤ c.toNat ∧ c.toNat ≤ 57 := by
  simp only [Char.isDigit, Bool.and_eq_true, decide_eq_true_eq, UInt32.le_iff_toNat_le,
    ge_iff_le] at h
  exact h

/-- An identifier's first character begins no lexeme but identifiers and, with quotes behind it,
strings. -/
theorem isNameStart_apart (h : Directive.isNameStart c = true) :
    Text.isBlank c = false ∧ c.isDigit = false ∧ c ∉ ['\n', '/', '\'', '"', '.'] := by
  have hc := toNat_of_isNameStart h
  refine ⟨?_, ?_, fun hmem => ?_⟩
  · simp only [Text.isBlank, Bool.or_eq_false_iff, Bool.and_eq_false_iff, decide_eq_false_iff_not,
      beq_eq_false_iff_ne]
    omega
  · by_contra hdigit
    have := toNat_of_isDigit (Bool.not_eq_false _ ▸ hdigit)
    omega
  · simp only [List.mem_cons, List.not_mem_nil, or_false] at hmem
    rcases hmem with rfl | rfl | rfl | rfl | rfl <;> simp at hc

theorem isNameChar_of_isNameStart (h : Directive.isNameStart c = true) :
    Directive.isNameChar c = true := by
  simp only [Directive.isNameStart, Directive.isNameChar, Char.isAlphanum, Bool.or_eq_true] at h ⊢
  exact h.imp_left .inl

/-- Whether a text is an identifier. -/
def isName : List Char → Bool
  | [] => false
  | c :: cs => Directive.isNameStart c && cs.all Directive.isNameChar

/-- A name has a first character, which is no digit. -/
theorem exists_of_isName (h : isName cs = true) :
    ∃ c tail, cs = c :: tail ∧ Directive.isNameStart c = true ∧
      ∀ d ∈ tail, Directive.isNameChar d = true := by
  cases cs with
  | nil => cases h
  | cons c tail =>
    obtain ⟨hstart, htail⟩ := Bool.and_eq_true_iff.mp h
    exact ⟨c, tail, rfl, hstart, List.all_eq_true.mp htail⟩

theorem isNameChar_of_isName (h : isName cs = true) (hc : c ∈ cs) :
    Directive.isNameChar c = true := by
  obtain ⟨first, tail, rfl, hstart, htail⟩ := exists_of_isName h
  rcases List.mem_cons.mp hc with rfl | hc
  · exact isNameChar_of_isNameStart hstart
  · exact htail c hc

/-- Nothing is taken where the first character is none of those to take. -/
theorem takeWhile_of_head (h : ∀ c ∈ rest.head?, p c = false) : rest.takeWhile p = [] := by
  cases rest with
  | nil => rfl
  | cons c rest => rw [List.takeWhile_cons, h c rfl]; rfl

/-- A run ends where it ended before other characters came behind it. -/
theorem runLength_append (h : ∀ c ∈ rest.head?, p c = false) :
    runLength p (cs ++ rest) = runLength p cs := by
  unfold runLength
  rw [List.takeWhile_append]
  split
  · rename_i hall
    rw [takeWhile_of_head h, List.append_nil, hall]
  · rfl

/-- A text of fitting characters is one run. -/
theorem runLength_of_all (h : ∀ c ∈ cs, p c = true) : runLength p cs = cs.length := by
  rw [runLength, List.takeWhile_eq_self_iff.mpr h]

/-- A run as long as the text is the whole text. -/
theorem all_of_runLength (h : runLength p cs = cs.length) : cs.all p = true := by
  rw [List.all_eq_true, ← List.takeWhile_eq_self_iff]
  exact (List.takeWhile_prefix p).eq_of_length h

theorem runLength_le (p : Char → Bool) (cs : List Char) : runLength p cs ≤ cs.length :=
  (List.takeWhile_prefix p).length_le

/-- Only blanks begin a run of them. -/
theorem blanks?_cons (h : Text.isBlank c = false) (cs : List Char) : blanks? (c :: cs) = none := by
  rw [blanks?, runLength, List.takeWhile_cons, h]
  rfl

/-- Only a slash begins a comment. -/
theorem comment?_cons (h : c ≠ '/') (cs : List Char) : comment? (c :: cs) = none := by
  unfold comment?
  split <;> simp_all

theorem character?_cons (h : c ≠ '\'') (cs : List Char) : character? (c :: cs) = none := by
  unfold character?
  split <;> simp_all

/-- A number begins with a digit or a point. -/
theorem number?_cons (h : c.isDigit = false) (h' : c ≠ '.') (cs : List Char) :
    number? (c :: cs) = none := by
  have hzero : c ≠ '0' := by
    rintro rfl
    cases h
  have hhex : hexLength? (c :: cs) = none := by
    unfold hexLength?
    split <;> simp_all
  simp [number?, hhex, decimalLength?, h, h']

/-- Names are no strings, if no quotes follow. -/
theorem string?_of_isName (h : isName cs = true)
    (hrest : ∀ c ∈ rest.head?, Directive.isNameChar c = false ∧ c ≠ '"') :
    string? (cs ++ rest) = none := by
  have hdrop : (cs ++ rest).dropWhile Directive.isNameChar = rest := by
    rw [List.dropWhile_append_of_pos fun c hc => isNameChar_of_isName h hc]
    cases rest with
    | nil => rfl
    | cons d rest => rw [List.dropWhile_cons, (hrest d rfl).1]; rfl
  have hquote : ∀ tail, rest ≠ '"' :: tail := fun tail heq => (hrest '"' (by rw [heq]; rfl)).2 rfl
  generalize hall : cs ++ rest = all at hdrop
  unfold string?
  split
  · exact absurd hdrop.symm (hquote _)
  · exact absurd hdrop.symm (hquote _)
  · exact absurd hdrop.symm (hquote _)
  · exact absurd hdrop.symm (hquote _)
  · exact absurd hdrop.symm (hquote _)
  · rfl

/-- A name that is followed by no further name character is read as an identifier. -/
theorem first?_of_isName (h : isName cs = true)
    (hrest : ∀ c ∈ rest.head?, Directive.isNameChar c = false ∧ c ≠ '"') :
    first? (cs ++ rest) = some (.token .identifier, cs.length) := by
  have hstring := string?_of_isName h hrest
  obtain ⟨c, tail, rfl, hstart, htail⟩ := exists_of_isName h
  obtain ⟨hblank, hdigit, hmarks⟩ := isNameStart_apart hstart
  simp only [List.mem_cons, List.not_mem_nil, or_false, not_or] at hmarks
  have hlength : runLength Directive.isNameChar (tail ++ rest) = tail.length := by
    rw [runLength_append fun c hc => (hrest c hc).1, runLength_of_all htail]
  have hname : identifier? (c :: tail ++ rest) = some (c :: tail).length := by
    rw [List.cons_append, identifier?, if_pos hstart, hlength, List.length_cons, Nat.add_comm]
  rw [List.cons_append] at hstring hname ⊢
  rw [first?, blanks?_cons hblank, comment?_cons hmarks.2.1, hstring, character?_cons hmarks.2.2.1,
    number?_cons hdigit hmarks.2.2.2.2, hname]
  rfl

/-- Whether two characters begin a mark of several characters. -/
def joins (c d : Char) : Bool :=
  longMarks.any fun m => m.take 2 == [c, d]

/-- A mark does not go on with a letter. -/
theorem joins_of_isNameStart (h : Directive.isNameStart d = true) (c : Char) :
    joins c d = false := by
  have hseconds : ∀ m ∈ longMarks, m[1]?.any Directive.isNameStart = false := by decide
  by_contra hjoins
  obtain ⟨m, hm, htake⟩ := List.any_eq_true.mp (Bool.not_eq_false _ ▸ hjoins)
  have hsecond : m[1]? = some d := by
    rw [← List.getElem?_take_of_lt (by decide : 1 < 2), beq_iff_eq.mp htake]
    rfl
  have hletter := hseconds m hm
  rw [hsecond, Option.any_some, h] at hletter
  cases hletter

/-- A character that begins no longer mark joins with none. -/
theorem joins_of_lone (h : ∀ m ∈ longMarks, m.head? ≠ some c) (d : Char) : joins c d = false := by
  refine List.any_eq_false.mpr fun m hm htake => h m hm ?_
  cases m with
  | nil => cases beq_iff_eq.mp htake
  | cons a rest => exact congrArg List.head? (beq_iff_eq.mp htake)

/-- The marks of one character that begin neither comments nor numbers. -/
def plainMarks : List Char :=
  singleMarks.filter fun c => c != '/' && c != '.'

/-- A character is a mark of its own if it does not join with the next one. -/
theorem mark?_cons (hc : singleMarks.contains c = true)
    (hrest : ∀ d ∈ rest.head?, joins c d = false) :
    mark? (c :: rest) = some 1 := by
  have hlengths : ∀ m ∈ longMarks, 2 ≤ m.length := by decide
  have hlong : longMarks.find? (·.isPrefixOf (c :: rest)) = none := by
    refine List.find?_eq_none.mpr fun m hm hprefix => ?_
    have hlength := hlengths m hm
    obtain ⟨tail, hm'⟩ := List.isPrefixOf_iff_prefix.mp hprefix
    match m, hlength with
    | a :: b :: more, _ =>
      obtain ⟨rfl, hrest'⟩ := List.cons.inj hm'
      have hjoins : joins a b = true := List.any_eq_true.mpr ⟨_, hm, beq_self_eq_true [a, b]⟩
      rw [hrest b (by rw [← hrest']; rfl)] at hjoins
      cases hjoins
  simp only [mark?, hlong, hc, if_true]

/-- A mark is read on its own, unless it makes a longer one with the character behind it. -/
theorem first?_of_mark (hc : c ∈ plainMarks) (hrest : ∀ d ∈ rest.head?, joins c d = false) :
    first? (c :: rest) = some (.token .mark, 1) := by
  have hall : (plainMarks.all fun c => singleMarks.contains c && !Text.isBlank c && !c.isDigit &&
      !Directive.isNameStart c && decide (c ∉ ['/', '\'', '"', '.', 'u', 'U', 'L'])) = true := by
    decide
  have hthis := List.all_eq_true.mp hall c hc
  simp only [Bool.and_eq_true, Bool.not_eq_true', decide_eq_true_eq] at hthis
  obtain ⟨⟨⟨⟨hsingle, hblank⟩, hdigit⟩, hname⟩, happart⟩ := hthis
  simp only [List.mem_cons, List.not_mem_nil, or_false, not_or] at happart
  have hstring : string? (c :: rest) = none := by
    unfold string?
    split <;> simp_all
  rw [first?, blanks?_cons hblank, comment?_cons happart.1, hstring, character?_cons happart.2.1,
    number?_cons hdigit happart.2.2.2.1, identifier?, hname, mark?_cons hsingle hrest]
  rfl

/-- A double colon is one mark, whatever follows it. -/
theorem first?_colons (rest : List Char) :
    first? (':' :: ':' :: rest) = some (.token .mark, 2) := rfl

/-- A double ampersand is one mark, whatever follows it. -/
theorem first?_ampersands (rest : List Char) :
    first? ('&' :: '&' :: rest) = some (.token .mark, 2) := rfl

/-- A quoted text ends where it ends, whatever stands behind it, and in the line in which it
begins. -/
theorem quoteEnd?_append (hquote : quote ≠ '\n' ∧ quote ≠ '\\') (h : quoteEnd? quote cs = some n)
    (rest : List Char) :
    n ≤ cs.length ∧ quoteEnd? quote (cs ++ rest) = some n ∧ '\n' ∉ cs.take n := by
  induction cs using quoteEnd?.induct quote generalizing n with
  | case1 => cases h
  | case2 cs => simp [quoteEnd?] at h
  | case3 c cs hc ih =>
    simp only [quoteEnd?, hc, if_false] at h
    obtain ⟨k, hk, rfl⟩ := Option.map_eq_some_iff.mp h
    obtain ⟨hle, hend, hline⟩ := ih hk
    exact ⟨by simpa using hle, by simp [quoteEnd?, hc, hend], by simp [hline, Ne.symm hc]⟩
  | case4 cs hslash =>
    rw [quoteEnd?.eq_3 quote quote cs hslash, if_pos rfl] at h
    obtain rfl := Option.some.inj h
    refine ⟨by simp, ?_, by simpa using hquote.1.symm⟩
    rw [List.cons_append, quoteEnd?.eq_3 quote quote _ fun _ _ hfalse => absurd hfalse hquote.2,
      if_pos rfl]
  | case5 c cs hslash hc hend =>
    rw [quoteEnd?.eq_3 quote c cs hslash, if_neg hc, if_pos hend] at h
    cases h
  | case6 c cs hslash hc hend ih =>
    rw [quoteEnd?.eq_3 quote c cs hslash, if_neg hc, if_neg hend] at h
    obtain ⟨k, hk, rfl⟩ := Option.map_eq_some_iff.mp h
    obtain ⟨hle, hrest, hline⟩ := ih hk
    rw [not_or] at hend
    refine ⟨by simpa using hle, ?_, by simp [hline, Ne.symm hend.2]⟩
    rw [List.cons_append, quoteEnd?.eq_3 quote c _ fun _ _ hfalse => absurd hfalse hend.1,
      if_neg hc, if_neg (not_or.mpr hend), hrest]
    rfl

/-- A string ends at its quotes, whatever follows it, and has no line breaks. -/
theorem string?_append (h : string? cs = some n) (rest : List Char) :
    string? (cs ++ rest) = some n ∧ '\n' ∉ cs.take n := by
  have hquote : '"' ≠ '\n' ∧ '"' ≠ '\\' := by decide
  unfold string? at h
  split at h
  all_goals
    first
      | cases h
      | obtain ⟨k, hk, rfl⟩ := Option.map_eq_some_iff.mp h
        obtain ⟨-, hrest, hline⟩ := quoteEnd?_append hquote hk rest
        simp [string?, hrest, hline]

/-- A character literal ends at its quotes, whatever follows it, and has no line breaks. -/
theorem character?_append (h : character? cs = some n) (rest : List Char) :
    character? (cs ++ rest) = some n ∧ '\n' ∉ cs.take n := by
  have hquote : '\'' ≠ '\n' ∧ '\'' ≠ '\\' := by decide
  unfold character? at h
  split at h
  · obtain ⟨k, hk, rfl⟩ := Option.map_eq_some_iff.mp h
    obtain ⟨-, hrest, hline⟩ := quoteEnd?_append hquote hk rest
    simp [character?, hrest, hline]
  · cases h

/-- Whether a character may go on with a run of digits, hexadecimal digits or letters in a
number. -/
def isNumberWord (c : Char) : Bool :=
  c.isAlphanum || c == '\''

/-- Whether a character may go on with a number. -/
def isNumberPart (c : Char) : Bool :=
  c.isAlphanum || c == '\'' || c == '.' || c == '+' || c == '-'

theorem isNumberWord_of_isDigit (h : c.isDigit = true) : isNumberWord c = true := by
  simp [isNumberWord, Char.isAlphanum, h]

theorem isNumberWord_of_isSeparated (h : (c.isDigit || c == '\'') = true) :
    isNumberWord c = true := by
  rcases Bool.or_eq_true_iff.mp h with h | h
  · exact isNumberWord_of_isDigit h
  · rw [beq_iff_eq.mp h]
    rfl

theorem isNumberWord_of_isHexDigit (h : (isHexDigit c || c == '\'') = true) :
    isNumberWord c = true := by
  rcases Bool.or_eq_true_iff.mp h with h | h
  · have hword : c.isAlphanum = true := by
      delta Char.isAlphanum Char.isAlpha Char.isUpper Char.isLower
      simp only [isHexDigit, Bool.or_eq_true, Bool.and_eq_true, decide_eq_true_eq, Char.le_def,
        UInt32.le_iff_toNat_le, ge_iff_le] at h ⊢
      rcases h with (h | ⟨h, h'⟩) | ⟨h, h'⟩
      · exact .inr h
      · exact .inl (.inr ⟨h, h'.trans (by decide)⟩)
      · exact .inl (.inl ⟨h, h'.trans (by decide)⟩)
    simp [isNumberWord, hword]
  · rw [beq_iff_eq.mp h]
    rfl

theorem isNumberWord_of_isSuffix (h : isSuffix c = true) : isNumberWord c = true := by
  simp only [isSuffix, Bool.or_eq_true, beq_iff_eq] at h
  rcases h with ((((rfl | rfl) | rfl) | rfl) | rfl) | rfl <;> rfl

/-- What is no part of a number does not go on with one. -/
theorem isNumberWord_of_isNumberPart (h : isNumberPart c = false) :
    isNumberWord c = false ∧ c ≠ '.' ∧ c ≠ '+' ∧ c ≠ '-' := by
  simpa [isNumberPart, isNumberWord, and_assoc] using h

/-- The length of a decimal number without its exponent and its suffix. -/
def mantissa? : List Char → Option Nat
  | [] => none
  | c :: cs =>
    if c.isDigit then
      let whole := 1 + runLength (fun c => c.isDigit || c == '\'') cs
      some (whole + fractionLength ((c :: cs).drop whole))
    else if c = '.' then (positive? (runLength Char.isDigit cs)).map (· + 1)
    else none

/-- The length of an exponent and a suffix. -/
def tailLength (cs : List Char) : Nat :=
  exponentLength cs + runLength isSuffix (cs.drop (exponentLength cs))

/-- A number is a hexadecimal one or has a mantissa, an exponent and a suffix. -/
theorem number?_eq (cs : List Char) :
    number? cs = match hexLength? cs with
      | some n => some (n + runLength isSuffix (cs.drop n))
      | none => (mantissa? cs).map fun n => n + tailLength (cs.drop n) := by
  have hdecimal : decimalLength? cs = (mantissa? cs).map fun n =>
      n + exponentLength (cs.drop n) := by
    cases cs with
    | nil => rfl
    | cons c tail =>
      rw [decimalLength?, mantissa?]
      split
      · rfl
      · split
        · cases runLength Char.isDigit tail <;> rfl
        · rfl
  rw [number?, hdecimal]
  cases hexLength? cs with
  | some n => rfl
  | none =>
    cases mantissa? cs with
    | none => rfl
    | some n => simp [tailLength, Nat.add_assoc]

theorem positive?_eq_some {k : Nat} : positive? n = some k ↔ n = k ∧ 0 < k := by
  cases n with
  | zero => simp [positive?, eq_comm]
  | succ n =>
    simp only [positive?, Option.some.injEq]
    omega

theorem fractionLength_le (cs : List Char) : fractionLength cs ≤ cs.length := by
  unfold fractionLength
  split
  · rw [List.length_cons, Nat.add_comm]
    exact Nat.succ_le_succ (runLength_le _ _)
  · exact Nat.zero_le _

theorem fractionLength_of_ne (h : c ≠ '.') (cs : List Char) : fractionLength (c :: cs) = 0 := by
  unfold fractionLength
  split <;> simp_all

theorem exponentLength_le (cs : List Char) : exponentLength cs ≤ cs.length := by
  unfold exponentLength
  split
  · split
    · split
      · simp
      · rename_i s ds
        have hds := runLength_le Char.isDigit ds
        have hall := runLength_le Char.isDigit (s :: ds)
        rw [List.length_cons] at hall
        simp only [List.length_cons]
        split
        · split <;> omega
        · split <;> omega
    · exact Nat.zero_le _
  · exact Nat.zero_le _

theorem tailLength_le (cs : List Char) : tailLength cs ≤ cs.length := by
  have hexponent := exponentLength_le cs
  have hrun := runLength_le isSuffix (cs.drop (exponentLength cs))
  rw [List.length_drop] at hrun
  rw [tailLength]
  omega

/-- The digits of a decimal number before its point, and all before its exponent. -/
theorem fractionLength_drop_le (p : Char → Bool) (c : Char) (cs : List Char) :
    1 + runLength p cs ≤ (c :: cs).length ∧
      1 + runLength p cs + fractionLength ((c :: cs).drop (1 + runLength p cs)) ≤
          (c :: cs).length := by
  have hrun := runLength_le p cs
  have hfraction := fractionLength_le ((c :: cs).drop (1 + runLength p cs))
  rw [List.length_drop] at hfraction
  rw [List.length_cons] at hfraction ⊢
  omega

theorem mantissa?_le (h : mantissa? cs = some n) : n ≤ cs.length := by
  cases cs with
  | nil => cases h
  | cons c tail =>
    rw [mantissa?] at h
    split at h
    · exact Option.some.inj h ▸ (fractionLength_drop_le _ c tail).2
    · split at h
      · obtain ⟨k, hk, rfl⟩ := Option.map_eq_some_iff.mp h
        exact Nat.succ_le_succ ((positive?_eq_some.mp hk).1 ▸ runLength_le Char.isDigit tail)
      · cases h

/-- A hexadecimal number is a prefix with at least one digit behind it. -/
theorem hexLength?_eq_some :
    hexLength? cs = some n ↔ ∃ x tail, cs = '0' :: x :: tail ∧ (x = 'x' ∨ x = 'X') ∧
      n = runLength (fun c => isHexDigit c || c == '\'') tail + 2 ∧ 2 < n := by
  unfold hexLength?
  split
  · rename_i x tail
    split
    · rename_i hx
      simp only [Option.map_eq_some_iff, positive?_eq_some]
      constructor
      · rintro ⟨k, ⟨rfl, hk⟩, rfl⟩
        exact ⟨x, tail, rfl, hx, rfl, by omega⟩
      · rintro ⟨_, _, ⟨⟩, -, rfl, hn⟩
        exact ⟨_, ⟨rfl, by omega⟩, rfl⟩
    · rename_i hx
      refine ⟨nofun, ?_⟩
      rintro ⟨_, _, ⟨⟩, hx', -⟩
      exact absurd hx' hx
  · rename_i hnot
    refine ⟨nofun, ?_⟩
    rintro ⟨x, tail, rfl, -⟩
    exact absurd rfl (hnot x tail)

theorem hexLength?_le (h : hexLength? cs = some n) : n ≤ cs.length := by
  obtain ⟨x, tail, rfl, -, rfl, -⟩ := hexLength?_eq_some.mp h
  exact Nat.add_le_add_right (runLength_le _ tail) 2

theorem number?_le (h : number? cs = some n) : n ≤ cs.length := by
  rw [number?_eq] at h
  split at h
  · rename_i k hhex
    have hk := hexLength?_le hhex
    have hrun := runLength_le isSuffix (cs.drop k)
    rw [List.length_drop] at hrun
    cases h
    omega
  · obtain ⟨k, hk, rfl⟩ := Option.map_eq_some_iff.mp h
    have hle := mantissa?_le hk
    have htail := tailLength_le (cs.drop k)
    rw [List.length_drop] at htail
    omega

section Number

variable (hrest : ∀ c ∈ rest.head?, isNumberWord c = false)
include hrest

/-- Runs of characters that numbers have end before all others. -/
theorem runLength_append_number (hp : ∀ c, p c = true → isNumberWord c = true) (cs : List Char) :
    runLength p (cs ++ rest) = runLength p cs := by
  refine runLength_append fun c hc => ?_
  by_contra hpart
  have := hp c (Bool.not_eq_false _ ▸ hpart)
  rw [hrest c hc] at this
  cases this

theorem runLength_digits_append (cs : List Char) :
    runLength Char.isDigit (cs ++ rest) = runLength Char.isDigit cs :=
  runLength_append_number hrest (fun _ => isNumberWord_of_isDigit) cs

theorem runLength_suffix_append (hn : n ≤ cs.length) :
    runLength isSuffix ((cs ++ rest).drop n) = runLength isSuffix (cs.drop n) := by
  rw [List.drop_append_of_le_length hn, runLength_append_number hrest fun _ =>
    isNumberWord_of_isSuffix]

/-- A hexadecimal number ends where it did, if what follows has no digit in front. The text may not
be empty, since the prefix could then come from what follows. -/
theorem hexLength?_append (hne : cs ≠ []) : hexLength? (cs ++ rest) = hexLength? cs := by
  refine Option.ext fun n => ?_
  rw [hexLength?_eq_some, hexLength?_eq_some]
  match cs with
  | [c] =>
    refine ⟨?_, ?_⟩
    · rintro ⟨x, tail, heq, hx, -⟩
      obtain ⟨-, rfl⟩ := List.cons.inj heq
      have hword := hrest x rfl
      rcases hx with rfl | rfl <;> cases hword
    · rintro ⟨_, _, ⟨⟩, -⟩
  | c :: x :: tail =>
    have hrun := runLength_append_number hrest (fun _ => isNumberWord_of_isHexDigit) tail
    constructor
    · rintro ⟨_, _, heq, hx, rfl, hn⟩
      simp only [List.cons_append, List.cons.injEq] at heq
      obtain ⟨rfl, rfl, rfl⟩ := heq
      exact ⟨x, tail, rfl, hx, by rw [hrun], hn⟩
    · rintro ⟨_, _, ⟨⟩, hx, rfl, hn⟩
      exact ⟨x, tail ++ rest, rfl, hx, by rw [hrun], hn⟩

/-- A fraction ends where it did, if nothing that follows goes on with it. -/
theorem fractionLength_append (h : cs = [] → rest.head? ≠ some '.') :
    fractionLength (cs ++ rest) = fractionLength cs := by
  match cs with
  | [] =>
    unfold fractionLength
    split
    · rename_i hpoint
      exact absurd (congrArg List.head? hpoint) (h rfl)
    · rfl
  | c :: tail =>
    by_cases hpoint : c = '.'
    · subst hpoint
      simp only [List.cons_append, fractionLength, runLength_digits_append hrest]
    · rw [List.cons_append, fractionLength_of_ne hpoint, fractionLength_of_ne hpoint]

/-- What is in front of a number's exponent ends where it ends, unless a point follows digits
alone. -/
theorem mantissa?_append (hne : cs ≠ [])
    (h : rest.head? = some '.' → (cs.all fun c => c.isDigit || c == '\'') = false) :
    mantissa? (cs ++ rest) = mantissa? cs := by
  match cs with
  | c :: tail =>
    have hwhole := runLength_append_number hrest (fun _ => isNumberWord_of_isSeparated) tail
    have hle := (fractionLength_drop_le (fun c => c.isDigit || c == '\'') c tail).1
    rw [List.cons_append, mantissa?, mantissa?, hwhole, runLength_digits_append hrest]
    split
    · rename_i hdigit
      dsimp only
      rw [← List.cons_append, List.drop_append_of_le_length hle,
        fractionLength_append hrest fun hnil hpoint => ?_]
      have hall : runLength (fun c => c.isDigit || c == '\'') tail = tail.length := by
        have := List.length_eq_zero_iff.mpr hnil
        rw [List.length_drop, List.length_cons] at this
        have := runLength_le (fun c => c.isDigit || c == '\'') tail
        omega
      have hnone := h hpoint
      rw [List.all_cons, hdigit, all_of_runLength hall] at hnone
      cases hnone
    · rfl

/-- An exponent and a suffix end where they end, unless a sign follows a letter that begins an
exponent. -/
theorem tailLength_append
    (h : rest.head? = some '+' ∨ rest.head? = some '-' → tailLength cs = cs.length) :
    tailLength (cs ++ rest) = tailLength cs := by
  have hexponent : exponentLength (cs ++ rest) = exponentLength cs := by
    match cs with
    | [] =>
      cases hcases : rest with
      | nil => rfl
      | cons e tail =>
        have he : ¬(e = 'e' ∨ e = 'E') := by
          have hword := hrest e (by rw [hcases]; rfl)
          rintro (rfl | rfl) <;> cases hword
        simp [exponentLength, he]
    | [e] =>
      by_cases he : e = 'e' ∨ e = 'E'
      · have hshort : tailLength [e] = 0 := by rcases he with rfl | rfl <;> rfl
        rw [hshort] at h
        cases hcases : rest with
        | nil => rfl
        | cons s tail =>
          have hs : ¬(s = '+' ∨ s = '-') := by
            rintro hs
            have := h (by rw [hcases]; exact hs.imp (congrArg some) (congrArg some))
            cases this
          have hdigits : runLength Char.isDigit (s :: tail) = 0 :=
            hcases ▸ runLength_digits_append hrest []
          simp [exponentLength, hs, hdigits]
      · simp [exponentLength, he]
    | e :: s :: tail =>
      have hall := runLength_digits_append hrest (s :: tail)
      rw [List.cons_append] at hall
      simp only [List.cons_append, exponentLength, runLength_digits_append hrest tail, hall]
  rw [tailLength, tailLength, hexponent, runLength_suffix_append hrest (exponentLength_le cs)]

/-- A number ends where it ends, if neither a point follows digits alone nor a sign follows a letter
that begins an exponent. -/
theorem number?_append_of (hne : cs ≠ [])
    (hpoint : rest.head? = some '.' → (cs.all fun c => c.isDigit || c == '\'') = false)
    (hsign : rest.head? = some '+' ∨ rest.head? = some '-' →
      ∀ n, mantissa? cs = some n → hexLength? cs = none →
        tailLength (cs.drop n) = (cs.drop n).length) :
    number? (cs ++ rest) = number? cs := by
  rw [number?_eq, number?_eq, hexLength?_append hrest hne, mantissa?_append hrest hne hpoint]
  cases hhex : hexLength? cs with
  | some k => exact congrArg some (congrArg (k + ·)
    (runLength_suffix_append hrest (hexLength?_le hhex)))
  | none =>
    cases hmantissa : mantissa? cs with
    | none => rfl
    | some k =>
      have htail := tailLength_append hrest fun hs => hsign hs k hmantissa hhex
      simp only [Option.map_some, List.drop_append_of_le_length (mantissa?_le hmantissa), htail]

end Number

/-- A number ends where it ends, whatever stands behind it that cannot go on with it. -/
theorem number?_append (hrest : ∀ c ∈ rest.head?, isNumberPart c = false) (hne : cs ≠ []) :
    number? (cs ++ rest) = number? cs := by
  have hnone : ∀ c, isNumberPart c = true → rest.head? ≠ some c := by
    intro c hc hhead
    rw [hrest c hhead] at hc
    cases hc
  refine number?_append_of (fun c hc => (isNumberWord_of_isNumberPart (hrest c hc)).1) hne
    (fun h => ?_) fun h => ?_
  · exact absurd h (hnone '.' rfl)
  · rcases h with h | h
    · exact absurd h (hnone '+' rfl)
    · exact absurd h (hnone '-' rfl)

/-- A number stands in one line. -/
theorem newline_notMem_number (h : number? cs = some cs.length) : '\n' ∉ cs := by
  intro hmem
  obtain ⟨before, after, rfl⟩ := List.append_of_mem hmem
  have hbreak : ∀ c ∈ ('\n' :: after).head?, isNumberPart c = false := by
    intro c hc
    obtain rfl := Option.some.inj hc
    rfl
  by_cases hne : before = []
  · subst hne
    rw [List.nil_append, number?_cons (by decide) (by decide)] at h
    cases h
  · rw [number?_append hbreak hne] at h
    have hle := number?_le h
    rw [List.length_append, List.length_cons] at hle
    omega

/-- The length of the literal of a kind that a text begins with. -/
def literal? : TokenKind → List Char → Option Nat
  | .number => number?
  | .string => string?
  | .character => character?
  | _ => fun _ => none

/-- A literal stands in one line. -/
theorem newline_notMem_literal {kind : TokenKind} (h : literal? kind cs = some cs.length) :
    '\n' ∉ cs := by
  cases kind with
  | number => exact newline_notMem_number h
  | string =>
    have hline := (string?_append h []).2
    rwa [List.take_length] at hline
  | character =>
    have hline := (character?_append h []).2
    rwa [List.take_length] at hline
  | identifier => cases h
  | mark => cases h

/-- Where a number stands nothing else is read first. -/
theorem first?_of_number (h : number? cs = some n) (rest : List Char)
    (hrest : number? (cs ++ rest) = some n) :
    first? (cs ++ rest) = some (.token .number, n) := by
  match cs with
  | c :: tail =>
    have hc : c.isDigit = true ∨ c = '.' := by
      by_contra hnone
      rw [not_or, Bool.not_eq_true] at hnone
      rw [number?_cons hnone.1 hnone.2] at h
      cases h
    have hblank : Text.isBlank c = false ∧ c ∉ ['/', '\'', '"', 'u', 'U', 'L'] := by
      rcases hc with hdigit | rfl
      · have hrange := toNat_of_isDigit hdigit
        refine ⟨?_, fun hmem => ?_⟩
        · simp only [Text.isBlank, Bool.or_eq_false_iff, Bool.and_eq_false_iff,
            decide_eq_false_iff_not, beq_eq_false_iff_ne]
          omega
        · simp only [List.mem_cons, List.not_mem_nil, or_false] at hmem
          rcases hmem with rfl | rfl | rfl | rfl | rfl | rfl <;> simp at hrange
      · decide
    obtain ⟨hblank, happart⟩ := hblank
    simp only [List.mem_cons, List.not_mem_nil, or_false, not_or] at happart
    have hstring : string? (c :: (tail ++ rest)) = none := by
      unfold string?
      split <;> simp_all
    rw [List.cons_append] at hrest ⊢
    rw [first?, blanks?_cons hblank, comment?_cons happart.1, hstring, character?_cons happart.2.1,
      hrest]
    rfl

/-- Where a string stands nothing else is read first. -/
theorem first?_of_string (h : string? cs = some n) : first? cs = some (.token .string, n) := by
  have hfirst : ∃ c tail, cs = c :: tail ∧ c ∈ ['"', 'u', 'U', 'L'] := by
    unfold string? at h
    split at h <;> first | cases h | exact ⟨_, _, rfl, by simp⟩
  obtain ⟨c, tail, rfl, hc⟩ := hfirst
  have hall : ∀ c ∈ ['"', 'u', 'U', 'L'], Text.isBlank c = false ∧ c ≠ '/' := by simp [Text.isBlank]
  rw [first?, blanks?_cons (hall c hc).1, comment?_cons (hall c hc).2, h]
  rfl

/-- Where a character literal stands nothing else is read first. -/
theorem first?_of_character (h : character? cs = some n) :
    first? cs = some (.token .character, n) := by
  have hfirst : ∃ tail, cs = '\'' :: tail := by
    unfold character? at h
    split at h <;> first | cases h | exact ⟨_, rfl⟩
  obtain ⟨tail, rfl⟩ := hfirst
  have hstring : string? ('\'' :: tail) = none := by
    unfold string?
    split <;> simp_all
  rw [first?, blanks?_cons (by decide), comment?_cons (by decide), hstring, h]
  rfl

/-- A literal that no part of a number follows is read on its own. -/
theorem first?_of_literal {kind : TokenKind} (h : literal? kind cs = some cs.length)
    (hrest : ∀ c ∈ rest.head?, isNumberPart c = false) :
    first? (cs ++ rest) = some (.token kind, cs.length) := by
  cases kind with
  | number =>
    have hne : cs ≠ [] := by
      rintro rfl
      cases h
    exact first?_of_number h rest ((number?_append hrest hne).trans h)
  | string => exact first?_of_string (string?_append h rest).1
  | character => exact first?_of_character (character?_append h rest).1
  | identifier => cases h
  | mark => cases h

/-- The length of the lexeme of a kind that a text begins with. -/
def ofKind? : TokenKind → List Char → Option Nat
  | .identifier => identifier?
  | .number => number?
  | .string => string?
  | .character => character?
  | .mark => mark?

/-- Of two lexemes the first one is taken if it is there. -/
theorem or_map_eq_some {kind kind' : LexemeKind} {length? : Option Nat}
    {next : Option (LexemeKind × Nat)} (h : (length?.map (kind', ·) <|> next) = some (kind, n)) :
    kind' = kind ∧ length? = some n ∨ length? = none ∧ next = some (kind, n) := by
  cases length? with
  | none => exact .inr ⟨rfl, h⟩
  | some length =>
    cases h
    exact .inl ⟨rfl, rfl⟩

/-- What is read first has the form of its kind. -/
theorem ofKind?_of_first? {kind : TokenKind} (h : first? cs = some (.token kind, n)) :
    ofKind? kind cs = some n := by
  unfold first? at h
  obtain ⟨hkind, -⟩ | ⟨-, h⟩ := or_map_eq_some h
  · cases hkind
  obtain ⟨hkind, -⟩ | ⟨-, h⟩ := or_map_eq_some h
  · cases hkind
  obtain ⟨⟨⟩, hstring⟩ | ⟨-, h⟩ := or_map_eq_some h
  · exact hstring
  obtain ⟨⟨⟩, hcharacter⟩ | ⟨-, h⟩ := or_map_eq_some h
  · exact hcharacter
  obtain ⟨⟨⟩, hnumber⟩ | ⟨-, h⟩ := or_map_eq_some h
  · exact hnumber
  obtain ⟨⟨⟩, hidentifier⟩ | ⟨-, h⟩ := or_map_eq_some h
  · exact hidentifier
  obtain ⟨length, hmark, ⟨⟩⟩ := Option.map_eq_some_iff.mp h
  exact hmark

/-- An identifier holds characters of names only. -/
theorem isNameChar_of_identifier? {n : Nat} (h : identifier? cs = some n) {c : Char}
    (hc : c ∈ cs.take n) :
    Directive.isNameChar c = true := by
  cases cs with
  | nil => cases h
  | cons first tail =>
    rw [identifier?] at h
    split at h
    · rename_i hstart
      cases h
      have htake : (first :: tail).take (1 + runLength Directive.isNameChar tail) =
          first :: tail.takeWhile Directive.isNameChar := by
        rw [Nat.add_comm, List.take_succ_cons,
          runLength, ← List.prefix_iff_eq_take.mp (List.takeWhile_prefix _)]
      rw [htake, List.mem_cons] at hc
      rcases hc with rfl | hc
      · unfold Directive.isNameStart at hstart
        unfold Directive.isNameChar Char.isAlphanum
        grind
      · exact List.mem_takeWhile_imp hc
    · cases h

end Lexeme

end Interop.Header
