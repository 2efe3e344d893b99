import Interop.Pattern

namespace Interop

/-- Whether the characters of a pattern cover a text: a star any run of characters other than line
feeds, a question mark one such character, and any other character itself. -/
inductive Glob : List Char → List Char → Prop
  | nil : Glob [] []
  | star {pattern run cs : List Char} (hrun : '\n' ∉ run) (h : Glob pattern cs) :
    Glob ('*' :: pattern) (run ++ cs)
  | question {pattern cs : List Char} {c : Char} (hc : c ≠ '\n') (h : Glob pattern cs) :
    Glob ('?' :: pattern) (c :: cs)
  | literal {pattern cs : List Char} {c : Char} (hstar : c ≠ '*') (hquestion : c ≠ '?')
      (h : Glob pattern cs) :
      Glob (c :: pattern) (c :: cs)

section Cover

variable {pattern cs : List Char} {p c : Char}

/-- The empty pattern matches the empty text only. -/
theorem glob_nil_iff : Glob [] cs ↔ cs = [] := by
  constructor
  · rintro ⟨⟩
    rfl
  · rintro rfl
    exact .nil

/-- A star matches any run without a line break. -/
theorem glob_star_iff :
    Glob ('*' :: pattern) cs ↔ ∃ run rest, cs = run ++ rest ∧ '\n' ∉ run ∧ Glob pattern rest := by
  constructor
  · intro h
    cases h with
    | star hrun h => exact ⟨_, _, rfl, hrun, h⟩
    | literal hstar => exact absurd rfl hstar
  · rintro ⟨run, rest, rfl, hrun, h⟩
    exact .star hrun h

/-- A question mark matches any one character but a line break. -/
theorem glob_question_iff :
    Glob ('?' :: pattern) cs ↔ ∃ c rest, cs = c :: rest ∧ c ≠ '\n' ∧ Glob pattern rest := by
  constructor
  · intro h
    cases h with
    | question hc h => exact ⟨_, _, rfl, hc, h⟩
    | literal _ hquestion => exact absurd rfl hquestion
  · rintro ⟨c, rest, rfl, hc, h⟩
    exact .question hc h

/-- Any other character matches itself. -/
theorem glob_literal_iff (hstar : p ≠ '*') (hquestion : p ≠ '?') :
    Glob (p :: pattern) cs ↔ ∃ rest, cs = p :: rest ∧ Glob pattern rest := by
  constructor
  · intro h
    cases h with
    | star => exact absurd rfl hstar
    | question => exact absurd rfl hquestion
    | literal _ _ h => exact ⟨_, rfl, h⟩
  · rintro ⟨rest, rfl, h⟩
    exact .literal hstar hquestion h

/-- At the end of a text a star matches nothing. -/
theorem glob_star_empty_iff : Glob ('*' :: pattern) [] ↔ Glob pattern [] := by
  rw [glob_star_iff]
  constructor
  · rintro ⟨run, rest, hempty, -, h⟩
    rwa [(List.nil_eq_append_iff.mp hempty).2] at h
  · exact fun h => ⟨[], [], rfl, List.not_mem_nil, h⟩

/-- A star covers nothing, or the first character and perhaps more. -/
theorem glob_star_cons_iff :
    Glob ('*' :: pattern) (c :: cs) ↔ Glob pattern (c :: cs) ∨ c ≠ '\n' ∧
      Glob ('*' :: pattern) cs := by
  rw [glob_star_iff, glob_star_iff]
  constructor
  · rintro ⟨run, rest, htext, hrun, h⟩
    cases run with
    | nil => exact .inl (htext ▸ h)
    | cons first run =>
      obtain ⟨rfl, rfl⟩ := List.cons.inj htext
      rw [List.mem_cons, not_or] at hrun
      exact .inr ⟨Ne.symm hrun.1, run, rest, rfl, hrun.2, h⟩
  · rintro (h | ⟨hc, run, rest, rfl, hrun, h⟩)
    · exact ⟨[], c :: cs, rfl, List.not_mem_nil, h⟩
    · exact ⟨c :: run, rest, rfl, by simp [Ne.symm hc, hrun], h⟩

end Cover

namespace Wildcard

variable {step : Wildcard} {steps : List Wildcard} {c : Char} {cs : List Char}

/-- Whether steps match the whole of a text. -/
def matchesAll (steps : List Wildcard) (cs : List Char) : Bool :=
  (matchedEnds steps cs).headD false

theorem matchedEnds_cons (step : Wildcard) (steps : List Wildcard) (cs : List Char) :
    matchedEnds (step :: steps) cs = inFront step cs (matchedEnds steps cs) :=
  rfl

/-- Which ends of a text's rest are matched does not depend on what stands in front of the rest. -/
theorem tail_matchedEnds (steps : List Wildcard) (c : Char) (cs : List Char) :
    (matchedEnds steps (c :: cs)).tail = matchedEnds steps cs := by
  induction steps with
  | nil => rfl
  | cons step steps ih =>
    have htail : (matchedEnds (step :: steps) (c :: cs)).tail = inFront step cs (matchedEnds steps
      (c :: cs)).tail := rfl
    rw [htail, ih, matchedEnds_cons]

theorem matchesAll_nil (cs : List Char) : matchesAll [] cs = cs.isEmpty := by
  cases cs <;> rfl

theorem matchesAll_empty (step : Wildcard) (steps : List Wildcard) :
    matchesAll (step :: steps) [] = (step == run && matchesAll steps []) :=
  rfl

/-- A star ends in front of a character or covers it. -/
theorem matchesAll_run (steps : List Wildcard) (c : Char) (cs : List Char) :
    matchesAll (run :: steps) (c :: cs) = (matchesAll steps (c :: cs) || covers c && matchesAll
      (run :: steps) cs) := by
  rw [matchesAll, matchesAll, matchesAll,
    matchedEnds_cons run steps cs, ← tail_matchedEnds steps c cs]
  rfl

theorem matchesAll_single (steps : List Wildcard) (c : Char) (cs : List Char) :
    matchesAll (single :: steps) (c :: cs) = (covers c && matchesAll steps cs) := by
  rw [matchesAll, matchesAll, ← tail_matchedEnds steps c cs]
  rfl

theorem matchesAll_exactly (a : Char) (steps : List Wildcard) (c : Char) (cs : List Char) :
    matchesAll (exactly a :: steps) (c :: cs) = (a == c && matchesAll steps cs) := by
  rw [matchesAll, matchesAll, ← tail_matchedEnds steps c cs]
  rfl

/-- Wildcards cover all characters but line breaks. -/
theorem covers_iff : covers c = true ↔ c ≠ '\n' :=
  bne_iff_ne

theorem ofChar_of_ne {c : Char} (hstar : c ≠ '*') (hquestion : c ≠ '?') : ofChar c = exactly c := by
  unfold ofChar
  split
  · exact absurd rfl hstar
  · exact absurd rfl hquestion
  · rfl

/-- Steps match what the characters that they stand for cover. -/
theorem matchesAll_iff (pattern cs : List Char) :
    matchesAll (pattern.map ofChar) cs = true ↔ Glob pattern cs := by
  induction pattern generalizing cs with
  | nil => rw [List.map_nil, matchesAll_nil, List.isEmpty_iff, glob_nil_iff]
  | cons p pattern ih =>
    by_cases hstar : p = '*'
    · subst hstar
      -- A star may end at any place of the text, so its case goes through the text once more.
      change matchesAll (run :: pattern.map ofChar) cs = true ↔ _
      induction cs with
      | nil => rw [matchesAll_empty, glob_star_empty_iff, ← ih, Bool.and_eq_true, beq_iff_eq,
        eq_self, true_and]
      | cons c cs ihText =>
        rw [matchesAll_run, Bool.or_eq_true, Bool.and_eq_true, ih, ihText, covers_iff,
          glob_star_cons_iff]
    · by_cases hquestion : p = '?'
      · subst hquestion
        change matchesAll (single :: pattern.map ofChar) cs = true ↔ _
        rw [glob_question_iff]
        cases cs with
        | nil => exact iff_of_false (by simp [matchesAll_empty]) (by simp)
        | cons c cs =>
          rw [matchesAll_single, Bool.and_eq_true, covers_iff, ih]
          exact ⟨fun h => ⟨c, cs, rfl, h⟩, by rintro ⟨_, _, ⟨⟩, h⟩; exact h⟩
      · rw [List.map_cons, ofChar_of_ne hstar hquestion, glob_literal_iff hstar hquestion]
        cases cs with
        | nil => exact iff_of_false (by simp [matchesAll_empty]) (by simp)
        | cons c cs =>
          rw [matchesAll_exactly, Bool.and_eq_true, beq_iff_eq, ih]
          exact ⟨by rintro ⟨rfl, h⟩; exact ⟨cs, rfl, h⟩, by rintro ⟨_, ⟨⟩, h⟩; exact ⟨rfl, h⟩⟩

end Wildcard

/-- A pattern matches a text exactly if its characters cover it. -/
theorem Pattern.isMatch_iff (p : Pattern) (value : String) :
    p.isMatch value = true ↔ Glob p.text.toList value.toList :=
  Wildcard.matchesAll_iff p.text.toList value.toList

/-- A pattern that is not refused is the one that was written. -/
theorem Pattern.eq_of_ofText? {text : String} {p : Pattern} (h : Pattern.ofText? text = some p) :
    p = ⟨text⟩ := by
  rw [Pattern.ofText?] at h
  split at h
  · exact (Option.some.inj h).symm
  · cases h

end Interop
