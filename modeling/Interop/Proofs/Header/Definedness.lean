import Interop.Proofs.Header.Conditionals
import Interop.Proofs.Header.TrailingComments

namespace Interop.Header

open Header.Selection

namespace Directive

/-- Whether a directive tests if a macro is defined or, negated, if it is not. -/
inductive Tests (name : List Char) : Directive → (negated : Bool) → Prop
  | ifdef : Tests name ⟨"ifdef", name⟩ false
  | ifndef : Tests name ⟨"ifndef", name⟩ true
  | condition {word : String} {mark before within behind : List Char} {negated : Bool}
      (hword : word = "if" ∨ word = "elif")
      (hmark : mark = [] ∧ negated = false ∨
        (∃ blanks, (∀ c ∈ blanks, Text.isBlank c = true) ∧ mark = '!' :: blanks) ∧ negated = true)
      (hbefore : ∀ c ∈ before, Text.isBlank c = true) (hwithin : ∀ c ∈ within,
        Text.isBlank c = true)
      (hbehind : ∀ c ∈ behind, Text.isBlank c = true) :
      Tests name ⟨word, mark ++ "defined".toList ++ before ++ '(' ::
        (within ++ name ++ behind ++ [')'])⟩ negated

/-- Whether a directive changes if a macro is defined. -/
inductive Changes (name : List Char) : Directive → (isDefined : Bool) → Prop
  | define {rest : List Char} (hrest : ∀ c ∈ rest.head?, Text.isBlank c = true ∨ c = '(') :
      Changes name ⟨"define", name ++ rest⟩ true
  | undef : Changes name ⟨"undef", name⟩ false

variable {name body : List Char} {d : Directive} {negated isDefined : Bool} {c : Char}

/-- Characters of names are no blanks, brackets or slashes. -/
theorem isNameChar_apart (h : isNameChar c = true) :
    Text.isBlank c = false ∧ c ∉ ['(', ')', '/'] := by
  rw [isNameChar, Char.isAlphanum, Bool.or_eq_true, Bool.or_eq_true] at h
  by_cases hdigit : c.isDigit = true
  · have hrange := Lexeme.toNat_of_isDigit hdigit
    refine ⟨?_, fun hmem => ?_⟩
    · simp only [Text.isBlank, Bool.or_eq_false_iff, Bool.and_eq_false_iff,
        decide_eq_false_iff_not, beq_eq_false_iff_ne]
      omega
    · simp only [List.mem_cons, List.not_mem_nil, or_false] at hmem
      rcases hmem with rfl | rfl | rfl <;> simp at hrange
  · have hstart : isNameStart c = true := by
      rw [isNameStart, Bool.or_eq_true]
      exact h.imp_left fun h => h.resolve_right hdigit
    refine ⟨(Lexeme.isNameStart_apart hstart).1, fun hmem => ?_⟩
    have hrange := Lexeme.toNat_of_isNameStart hstart
    simp only [List.mem_cons, List.not_mem_nil, or_false] at hmem
    rcases hmem with rfl | rfl | rfl <;> simp at hrange

/-- What is taken from a body ends at the first character that does not fit. -/
theorem takeWhile_eq {p : Char → Bool} {name : List Char} : body.takeWhile p = name ↔
    ∃ rest, body = name ++ rest ∧ (∀ c ∈ name, p c = true) ∧ ∀ c ∈ rest.head?, p c = false := by
  simp only [← Text.span_eq_iff, List.span_eq_takeWhile_dropWhile, Prod.mk.injEq, exists_and_left,
    exists_eq', and_true]

/-- A definition is one of a name if its body begins with it. -/
theorem definition?_eq (body : List Char) (hname : name ≠ []) :
    (∃ value?, definition? body = some (String.ofList name, value?)) ↔
      body.takeWhile (fun c => c != '(' && !Text.isBlank c) = name := by
  have hjoin : body.takeWhile (fun c => c != '(' && !Text.isBlank c) =
      (body.takeWhile fun c => !Text.isBlank c).takeWhile (· != '(') := by
    rw [List.takeWhile_takeWhile]
    congr 1
    funext c
    by_cases hc : c = '(' <;> simp [hc]
  rw [definition?, List.span_eq_takeWhile_dropWhile, hjoin]
  simp only
  cases (body.takeWhile fun c => !Text.isBlank c).takeWhile (· != '(') with
  | nil => simp [hname.symm]
  | cons c found =>
    constructor
    · rintro ⟨value?, hsome⟩
      exact String.ofList_injective (Prod.mk.inj (Option.some.inj hsome)).1
    · rintro rfl
      exact ⟨_, rfl⟩

theorem apart_of_isName (hname : Lexeme.isName name = true) (hc : c ∈ name) :
    (c != '(' && !Text.isBlank c) = true := by
  obtain ⟨hblank, hmarks⟩ := isNameChar_apart (Lexeme.isNameChar_of_isName hname hc)
  simp_all

/-- A name becomes defined by a definition of it. -/
theorem changes_true (hname : Lexeme.isName name = true) : d.Changes name true ↔
    d.word = "define" ∧ ∃ value?, definition? d.body = some (String.ofList name, value?) := by
  have hne : name ≠ [] := by
    rintro rfl
    cases hname
  have hall : ∀ c ∈ name, (c != '(' && !Text.isBlank c) = true := fun c => apart_of_isName hname
  rw [definition?_eq d.body hne, takeWhile_eq]
  constructor
  · rintro ⟨hrest⟩
    refine ⟨rfl, _, rfl, hall, fun c hc => ?_⟩
    rcases hrest c hc with hblank | rfl
    · simp [hblank]
    · rfl
  · obtain ⟨word, body⟩ := d
    rintro ⟨hword, rest, hbody, -, hrest⟩
    obtain rfl : word = "define" := hword
    obtain rfl : body = name ++ rest := hbody
    refine .define fun c hc => ?_
    have hstop := hrest c hc
    simp only [Bool.and_eq_false_iff, bne_eq_false_iff_eq, Bool.not_eq_false'] at hstop
    exact hstop.symm

/-- A name becomes undefined by a directive with nothing but the name. -/
theorem changes_false : d.Changes name false ↔ d.word = "undef" ∧ d.body = name := by
  constructor
  · rintro ⟨⟩
    exact ⟨rfl, rfl⟩
  · rintro ⟨hword, rfl⟩
    obtain ⟨word, body⟩ := d
    obtain rfl : word = "undef" := hword
    exact .undef

theorem Changes.word_eq (h : d.Changes name isDefined) :
    d.word = if isDefined then "define" else "undef" := by
  cases h <;> rfl

/-- A name ends where the bracket behind it closes. -/
theorem not_isNameChar_closing {behind : List Char}
    (hbehind : ∀ c ∈ behind, Text.isBlank c = true) :
    ∀ c ∈ (behind ++ [')']).head?, isNameChar c = false := by
  intro c hc
  rw [← Bool.not_eq_true]
  intro hchar
  obtain ⟨hblank, hmarks⟩ := isNameChar_apart hchar
  cases behind with
  | nil =>
    obtain rfl := Option.some.inj hc
    exact hmarks (by simp)
  | cons blank behind =>
    obtain rfl := Option.some.inj hc
    rw [hbehind blank List.mem_cons_self] at hblank
    cases hblank

/-- A test of a name is recognized with blanks anywhere, with and without brackets. -/
theorem definedTest?_of_tests {mark before within behind : List Char}
    (hname : Lexeme.isName name = true) (hmark : mark = [] ∧ negated = false ∨
      (∃ blanks, (∀ c ∈ blanks, Text.isBlank c = true) ∧ mark = '!' :: blanks) ∧ negated = true)
    (hbefore : ∀ c ∈ before, Text.isBlank c = true) (hwithin : ∀ c ∈ within, Text.isBlank c = true)
    (hbehind : ∀ c ∈ behind, Text.isBlank c = true) :
    definedTest? (mark ++ "defined".toList ++ before ++ '(' ::
      (within ++ name ++ behind ++ [')'])) = some (negated, String.ofList name) := by
  obtain ⟨first, tail, rfl, hfirst, -⟩ := Lexeme.exists_of_isName hname
  have hall : ∀ c ∈ first :: tail, isNameChar c = true :=
    fun c hc => Lexeme.isNameChar_of_isName hname hc
  have hspan : (first :: tail ++ (behind ++ [')'])).span isNameChar =
      (first :: tail, behind ++ [')']) :=
    Text.span_eq_iff.mpr ⟨rfl, hall, not_isNameChar_closing hbehind⟩
  have hname : Text.trimStart (within ++ (first :: tail) ++ behind ++ [')']) =
      first :: tail ++ (behind ++ [')']) := by
    rw [List.append_assoc, List.append_assoc]
    exact Text.trimStart_blanks_append hwithin
      (isNameChar_apart (hall first List.mem_cons_self)).1 _
  have hbracket : Text.trimStart (before ++ '(' :: (within ++ (first :: tail) ++ behind ++ [')'])) =
      '(' :: (within ++ (first :: tail) ++ behind ++ [')']) :=
    Text.trimStart_blanks_append hbefore (by decide) _
  have hclose : Text.trimStart (behind ++ [')']) = [')'] :=
    Text.trimStart_blanks_append hbehind (by decide) []
  obtain ⟨test, htest, hafter⟩ : ∃ test,
      "defined".toList ++ before ++ '(' :: (within ++ (first :: tail) ++ behind ++ [')']) =
        'd' :: test ∧
      Text.after? ['d', 'e', 'f', 'i', 'n', 'e', 'd'] ('d' :: test) =
        some (before ++ '(' :: (within ++ (first :: tail) ++ behind ++ [')'])) :=
    ⟨_, rfl, Text.after?_eq_some.mpr (by rw [← List.append_assoc]; rfl)⟩
  rw [List.append_assoc, List.append_assoc, ← List.append_assoc "defined".toList, htest]
  -- The texts are named, so that they are not searched for the word once more.
  clear htest hbefore hwithin hbehind
  rw [List.cons_append] at hname hspan
  generalize within ++ (first :: tail) ++ behind ++ [')'] = inner at *
  generalize before ++ '(' :: inner = outer at *
  generalize behind ++ [')'] = ending at *
  rcases hmark with ⟨rfl, rfl⟩ | ⟨⟨blanks, hblanks, rfl⟩, rfl⟩
  · rw [List.nil_append, definedTest?]
    simp only [hafter, Option.bind_eq_bind, Option.bind_some, hbracket, pastOptional, if_true,
      hname, hfirst, hspan, hclose, List.isEmpty_nil]
    exact fun rest heq => absurd (List.cons.inj heq).1 (by decide)
  · have hmarked : Text.trimStart (blanks ++ 'd' :: test) = 'd' :: test :=
      Text.trimStart_blanks_append hblanks (by decide) test
    rw [List.cons_append, definedTest?]
    simp only [hmarked, hafter, Option.bind_eq_bind, Option.bind_some, hbracket, pastOptional,
      if_true, hname, hfirst, hspan, hclose, List.isEmpty_nil]

/-- What a test asks. -/
theorem Tests.condition_eq (h : d.Tests name negated) (hname : Lexeme.isName name = true)
    (known : String → Bool) :
    d.condition known = (known (String.ofList name) != negated) := by
  cases h with
  | ifdef => simp [Directive.condition]
  | ifndef => simp [Directive.condition]
  | @condition word mark before within behind negated hword hmark hbefore hwithin hbehind =>
    have htest := definedTest?_of_tests hname hmark hbefore hwithin hbehind
    have hcondition : ∀ body, Directive.condition known ⟨word, body⟩ = holds known body := by
      rintro body
      rcases hword with rfl | rfl <;> rfl
    rw [hcondition, holds, if_neg, htest]
    rcases hmark with ⟨rfl, -⟩ | ⟨⟨blanks, -, rfl⟩, -⟩ <;> simp

end Directive

namespace Selection

variable (config : Configuration) (parts : List LinePart)

/-- Whether a selected line changes if a macro is defined. -/
def ChangesAt (i : Nat) (name : List Char) (isDefined : Bool) : Prop :=
  active config parts i ∧ ∃ d, parts[i]? = some (.directive d) ∧ d.Changes name isDefined

/-- Whether the last selected line before line `i` that changes if a macro is defined leaves it as
told. -/
def LastChange (i : Nat) (name : List Char) (isDefined : Bool) : Prop :=
  ∃ j < i, ChangesAt config parts j name isDefined ∧
    ∀ k, j < k → k < i → ¬∃ isDefined, ChangesAt config parts k name isDefined

/-- Whether a line begins a branch that is selected if its condition holds. -/
def Reached (i : Nat) : Prop :=
  ∃ o, active config parts o ∧ Branch parts o i ∧ ∀ b < i, Branch parts o b →
    ¬Holds config parts (active config parts) b

variable {config parts} {i : Nat} {name : List Char} {isDefined : Bool} {d : Directive}

/-- The last change is that of the line before, or an earlier one behind which there is none. -/
theorem lastChange_succ : LastChange config parts (i + 1) name isDefined ↔
    ChangesAt config parts i name isDefined ∨
      LastChange config parts i name isDefined ∧
          ¬∃ isDefined, ChangesAt config parts i name isDefined :=
  exists_last_succ (p := fun j => ChangesAt config parts j name isDefined)
    (q := fun k => ∃ isDefined, ChangesAt config parts k name isDefined)

/-- The macros that a state knows are those that were last defined. -/
theorem mem_defined_iff (hname : Lexeme.isName name = true) (i : Nat) :
    String.ofList name ∈ (RegionState.before config parts i).defined ↔
      LastChange config parts i name true := by
  induction i with
  | zero => simp [RegionState.before, RegionState.through, LastChange]
  | succ i ih =>
    rw [lastChange_succ, ← ih]
    cases hpart : parts[i]? with
    | none => simp [RegionState.before_succ_of_none hpart, ChangesAt, hpart]
    | some part =>
      rw [RegionState.before_succ hpart]
      cases part with
      | text | continuation => simp [RegionState.pass, ChangesAt, hpart]
      | directive d =>
        rw [RegionState.pass, RegionState.mem_defined_apply]
        simp only [ChangesAt, hpart, Option.some.injEq, LinePart.directive.injEq, exists_eq_left',
          Bool.exists_bool, Directive.changes_true hname, Directive.changes_false, active, ne_eq,
            String.ofList_inj]
        tauto

/-- A line changes a name in one way. -/
theorem ChangesAt.eq {isDefined' : Bool} (h : ChangesAt config parts i name isDefined)
    (h' : ChangesAt config parts i name isDefined') : isDefined = isDefined' := by
  obtain ⟨-, d, hd, hchanges⟩ := h
  obtain ⟨-, d', hd', hchanges'⟩ := h'
  obtain rfl : d = d' := by simpa [hd] using hd'
  have hword := hchanges.word_eq.symm.trans hchanges'.word_eq
  cases isDefined <;> cases isDefined' <;> simp_all

/-- A macro is last defined, last undefined, or left as the configuration has it. -/
theorem lastChange_cases (config : Configuration) (parts : List LinePart) (i : Nat)
    (name : List Char) :
    LastChange config parts i name true ∧ ¬LastChange config parts i name false ∨
    LastChange config parts i name false ∧ ¬LastChange config parts i name true ∨
    ∀ isDefined, ¬LastChange config parts i name isDefined := by
  induction i with
  | zero => simp [LastChange]
  | succ i ih =>
    by_cases hchange : ∃ isDefined, ChangesAt config parts i name isDefined
    · obtain ⟨isDefined, h⟩ := hchange
      have hlast : ∀ isDefined', LastChange config parts (i + 1) name isDefined' ↔
          isDefined' = isDefined := by
        intro isDefined'
        rw [lastChange_succ]
        constructor
        · rintro (h' | ⟨-, hnone⟩)
          · exact h'.eq h
          · exact absurd ⟨isDefined, h⟩ hnone
        · rintro rfl
          exact .inl h
      cases isDefined <;> simp [hlast]
    · have hlast : ∀ isDefined, LastChange config parts (i + 1) name isDefined ↔
          LastChange config parts i name isDefined := by
        intro isDefined
        rw [lastChange_succ, or_iff_right (fun h => hchange ⟨isDefined, h⟩), and_iff_left hchange]
      simpa only [hlast] using ih

/-- A macro that counts as defined wherever the configuration defines it, is misjudged just where it
is last undefined. -/
theorem lastChange_or_iff (config : Configuration) (parts : List LinePart) (i : Nat)
    (name : List Char) (isConfigured plain : Prop) :
    (((LastChange config parts i name true ∨ isConfigured) ↔ plain) ↔
      ((LastChange config parts i name true ∨
        (∀ isDefined, ¬LastChange config parts i name isDefined) ∧ isConfigured) ↔ plain)) ↔
    ¬(isConfigured ∧ LastChange config parts i name false) := by
  have hcases := lastChange_cases config parts i name
  simp only [Bool.forall_bool] at hcases ⊢
  by_cases htrue : LastChange config parts i name true
  · have hfalse : ¬LastChange config parts i name false := by tauto
    simp [htrue, hfalse]
  · by_cases hfalse : LastChange config parts i name false
    · by_cases hconfigured : isConfigured <;> simp [htrue, hfalse, hconfigured]
    · simp [htrue, hfalse]

/-- Where a branch is reached, its condition tells if it is selected. -/
theorem isActive_apply_of_reached (h : Reached config parts i)
    (hd : parts[i]? = some (.directive d)) {d' : Directive} (hrole : d'.role = d.role) :
    ((RegionState.before config parts i).apply config (i + 1) d').isActive =
      d'.condition ((RegionState.before config parts i).isDefined config) := by
  obtain ⟨o, ho, hbranch, hnone⟩ := h
  have hat : roleAt parts i = d.role := by rw [roleAt, hd]
  rcases hbranch with ⟨rfl, hopens⟩ | ⟨hdepth, hbranches⟩
  · rw [RegionState.apply_of_opens (by rw [hrole, ← hat, hopens]), RegionState.enter,
      RegionState.isActive]
    simp only
    rw [show RegionState.isActive _ = true from ho, Bool.true_and]
  · obtain ⟨opened, htracked⟩ := tracked_before config parts i
    have hopened := (htracked.openers o 0).mp hdepth
    cases hconditionals : (RegionState.before config parts i).conditionals with
    | nil =>
      rw [hconditionals] at htracked
      rw [List.length_eq_zero_iff.mp htracked.length] at hopened
      cases hopened
    | cons c outer =>
      rw [hconditionals] at htracked
      have htracks := htracked.tracks 0 o c hopened rfl
      obtain ⟨c', happly, -, hcurrent, -⟩ :=
        @RegionState.apply_of_branches config (i + 1) _ d'
          (by rw [hrole, ← hat, hbranches]) _ outer hconditionals
      have htaken : c.isTaken = false := by
        rw [← Bool.not_eq_true, htracks.taken ho]
        rintro ⟨b, hb, hbranch, hholds⟩
        exact hnone b hb hbranch hholds
      rw [RegionState.isActive, happly]
      simp only
      rw [hcurrent, htracks.reached.mpr ho, htaken]
      rfl

end Selection

namespace Directive

variable {name gap comment condition : List Char} {d : Directive} {isDefined : Bool}

/-- A directive with a block comment behind its body. -/
def withBlock (d : Directive) (gap comment : List Char) : Directive :=
  ⟨d.word, d.body ++ gap ++ '/' :: '*' :: comment⟩

theorem mem_dropWhile {p : Char → Bool} {c : Char} {text : List Char} (hc : p c = false)
    (h : c ∈ text) :
    c ∈ text.dropWhile p := by
  rw [← List.takeWhile_append_dropWhile (p := p) (l := text)] at h
  refine (List.mem_append.mp h).resolve_left fun htaken => ?_
  rw [List.mem_takeWhile_imp htaken] at hc
  cases hc

theorem mem_pastOptional {c mark : Char} {text : List Char} (hc : c ≠ mark) (h : c ∈ text) :
    c ∈ pastOptional mark text := by
  cases text with
  | nil => exact h
  | cons d text =>
    rw [pastOptional]
    split
    · rename_i hd
      exact (List.mem_cons.mp h).resolve_left (hd ▸ hc)
    · exact h

/-- A condition with a slash is no test whether a macro is defined. -/
theorem definedTest?_of_slash (h : '/' ∈ condition) : definedTest? condition = none := by
  have hblank : Text.isBlank '/' = false := by decide
  unfold definedTest?
  split
  rename_i negated text hpair
  have hmem : '/' ∈ text := by
    split at hpair
    · obtain ⟨-, rfl⟩ := Prod.mk.inj hpair
      exact mem_dropWhile hblank ((List.mem_cons.mp h).resolve_left (by decide))
    · obtain ⟨-, rfl⟩ := Prod.mk.inj hpair
      exact h
  rw [Option.bind_eq_bind, Option.bind_eq_none_iff]
  intro rest hrest
  rw [Text.after?_eq_some.mp hrest] at hmem
  have hslash : '/' ∈ rest := (List.mem_append.mp hmem).resolve_left (by decide)
  have hname : '/' ∈ Text.trimStart (pastOptional '(' (Text.trimStart rest)) :=
    mem_dropWhile hblank (mem_pastOptional (by decide) (mem_dropWhile hblank hslash))
  generalize Text.trimStart (pastOptional '(' (Text.trimStart rest)) = named at hname ⊢
  cases named with
  | nil => rfl
  | cons c named =>
    have hbehind : '/' ∈ pastOptional ')' (Text.trimStart ((c :: named).dropWhile isNameChar)) :=
      mem_pastOptional (by decide) (mem_dropWhile hblank (mem_dropWhile (by decide) hname))
    have hrest : (pastOptional ')' (Text.trimStart ((c :: named).dropWhile isNameChar))).isEmpty =
        false := by
      rw [← Bool.not_eq_true, List.isEmpty_iff]
      exact List.ne_nil_of_mem hbehind
    simp only [List.span_eq_takeWhile_dropWhile, hrest, Bool.false_eq_true, if_false, ite_self]

/-- With a block comment behind it a condition is not understood, and holds. -/
theorem condition_withBlock (hword : d.word = "if" ∨ d.word = "elif") (gap comment : List Char)
    (known : String → Bool) :
    (d.withBlock gap comment).condition known = true := by
  have hslash : '/' ∈ (d.withBlock gap comment).body := by simp [withBlock]
  have hcondition : (d.withBlock gap comment).condition known =
      holds known (d.withBlock gap comment).body := by
    rcases hword with hword | hword <;> simp [Directive.condition, withBlock, hword]
  rw [hcondition, holds, definedTest?_of_slash hslash, if_neg]
  intro hzero
  rw [hzero] at hslash
  exact absurd hslash (by decide)

/-- With a comment behind it, the withdrawal of a definition withdraws none. -/
theorem not_changes_withBlock (hword : d.word = "undef") (hname : Lexeme.isName name = true)
    (gap comment : List Char) :
    ¬(d.withBlock gap comment).Changes name isDefined := by
  intro h
  have hundef := h.word_eq.symm.trans hword
  cases isDefined with
  | true => simp at hundef
  | false =>
    have hslash : '/' ∈ name := by
      rw [← (changes_false.mp h).2]
      simp [withBlock]
    exact (isNameChar_apart (Lexeme.isNameChar_of_isName hname hslash)).2 (by simp)

/-- A definition with a comment right behind the name defines no macro with an identifier for its
name. -/
theorem not_changes_withBlock_define {other : List Char} (hname : Lexeme.isName name = true)
    (hother : Lexeme.isName other = true) (comment : List Char) :
    ¬(withBlock ⟨"define", name⟩ [] comment).Changes other isDefined := by
  intro h
  have hdefine : "define" = if isDefined then "define" else "undef" := h.word_eq
  cases isDefined with
  | false => simp at hdefine
  | true =>
    have hne : other ≠ [] := by
      rintro rfl
      cases hother
    have htaken := (definition?_eq _ hne).mp ((changes_true hother).mp h).2
    have hslash : '/' ∈ other := by
      rw [← htaken, withBlock, List.append_nil,
        List.takeWhile_append_of_pos (fun c hc => apart_of_isName hname hc),
        List.takeWhile_cons_of_pos (by decide)]
      simp
    exact (isNameChar_apart (Lexeme.isNameChar_of_isName hother hslash)).2 (by simp)

/-- A definition defines the same macro with a comment behind it, if that is apart from the name. -/
theorem changes_withBlock (h : d.Changes name true) (hgap : ∀ c ∈ gap, Text.isBlank c = true)
    (hapart : gap ≠ [] ∨ d.body ≠ name) (comment : List Char) :
    (d.withBlock gap comment).Changes name true := by
  rcases h with @⟨rest, hrest⟩
  have hbody : withBlock ⟨"define", name ++ rest⟩ gap comment = ⟨"define",
      name ++ (rest ++ gap ++ '/' :: '*' :: comment)⟩ := by
    simp [withBlock]
  rw [hbody]
  refine .define fun c hc => ?_
  cases rest with
  | cons first rest => exact hrest c hc
  | nil =>
    cases gap with
    | nil => simp at hapart
    | cons first gap =>
      obtain rfl := Option.some.inj hc
      exact .inl (hgap first List.mem_cons_self)

end Directive

namespace RegionState

variable {config : Configuration} {line i : Nat} {s : RegionState} {d d' : Directive}
    {parts : List LinePart}
  {texts : List (List Char)}

/-- What has been found so far has no effect on what a directive does. -/
theorem apply_found (found : List Declaration) :
    ∃ found', RegionState.apply config line d { s with found } =
      { s.apply config line d with found := found' } := by
  have hactive : RegionState.isActive { s with found } = s.isActive := rfl
  unfold apply
  split
  case h_4 | h_5 =>
    obtain ⟨conditionals, defined, found₀⟩ := s
    cases conditionals <;> exact ⟨found, rfl⟩
  case h_7 =>
    rw [hactive]
    cases s.isActive with
    | false => exact ⟨found, rfl⟩
    | true =>
      simp only [if_true, define]
      cases Directive.definition? d.body <;> exact ⟨_, rfl⟩
  case h_8 | h_9 =>
    rw [hactive]
    cases s.isActive <;> exact ⟨_, rfl⟩
  all_goals exact ⟨found, rfl⟩

/-- Which lines are kept does not depend on what has been found. -/
theorem keep_found (found : List Declaration) :
    keep config line { s with found } texts parts = keep config line s texts parts := by
  induction parts generalizing line s texts found with
  | nil => cases texts <;> rfl
  | cons part parts ih =>
    cases texts with
    | nil => rfl
    | cons text texts =>
      obtain ⟨found', hfound⟩ : ∃ found', RegionState.pass config line { s with found } part =
          { s.pass config line part with found := found' } := by
        cases part with
        | text | continuation => exact ⟨found, rfl⟩
        | directive d => exact apply_found found
      rw [keep, hfound, ih, keep]
      rfl

/-- The text of a line that is none of text does not matter. -/
theorem keep_set_text (hlength : texts.length = parts.length) (h : parts[i]? ≠ some .text)
    (text : List Char) :
    keep config line s (texts.set i text) parts = keep config line s texts parts := by
  apply List.ext_getElem?
  intro k
  rw [getElem?_keep (by rw [List.length_set, hlength]), getElem?_keep hlength]
  by_cases hk : i = k
  · subst hk
    simp only [h, false_and, if_false, List.getElem?_set_self']
    cases texts[i]? <;> rfl
  · rw [List.getElem?_set_ne hk]

/-- A directive may be replaced by one that leaves the same conditionals and macros behind. -/
theorem keep_set_directive (hd : parts[i]? = some (.directive d))
    (hsame : ∀ line s, ∃ found, RegionState.apply config line d' s =
      { s.apply config line d with found }) :
    keep config line s texts (parts.set i (.directive d')) = keep config line s texts parts := by
  induction parts generalizing line s texts i with
  | nil => rfl
  | cons part parts ih =>
    cases texts with
    | nil => cases i <;> rfl
    | cons text texts =>
      cases i with
      | zero =>
        obtain rfl : part = .directive d := Option.some.inj hd
        obtain ⟨found, hfound⟩ := hsame line s
        rw [List.set_cons_zero, keep, keep, pass, hfound, keep_found]
        simp [pass]
      | succ i => rw [List.set_cons_succ, keep, keep, ih hd]

/-- A comment in a directive that is none of the conditions, definitions and withdrawals is passed
over. -/
theorem apply_withBlock (hword : d.word ∉ ["if", "ifdef", "ifndef", "elif", "define", "undef"])
    (gap comment : List Char) :
    ∃ found, RegionState.apply config line (d.withBlock gap comment) s =
      { s.apply config line d with found } := by
  by_cases hknown : d.word ∈ ["else", "endif", "include"]
  · simp only [List.mem_cons, List.not_mem_nil, or_false] at hknown
    rcases hknown with hword | hword | hword
    · simp only [apply, Directive.withBlock, hword]
      exact ⟨_, rfl⟩
    · simp only [apply, Directive.withBlock, hword]
      exact ⟨_, rfl⟩
    · simp only [apply, Directive.withBlock, hword]
      cases s.isActive <;> exact ⟨_, rfl⟩
  · have hunknown : ∀ d' : Directive, d'.word = d.word → s.apply config line d' = s := by
      intro d' hword'
      rw [← hword'] at hword hknown
      unfold apply
      split <;> simp_all
    rw [hunknown d rfl, hunknown (d.withBlock gap comment) rfl]
    exact ⟨_, rfl⟩

/-- Definitions of one name have the same effect, whatever value they give. -/
theorem apply_define {name : List Char} (hname : Lexeme.isName name = true)
    (hd : d.Changes name true) (hd' : d'.Changes name true) :
    ∃ found, RegionState.apply config line d' s = { s.apply config line d with found } := by
  obtain ⟨hword, value?, hdefinition⟩ := (Directive.changes_true hname).mp hd
  obtain ⟨hword', value?', hdefinition'⟩ := (Directive.changes_true hname).mp hd'
  have happly : ∀ {d : Directive} {value?}, d.word = "define" →
      Directive.definition? d.body = some (String.ofList name, value?) →
      ∃ found, s.apply config line d =
        { s with
          defined := if s.isActive then String.ofList name :: s.defined else s.defined
          found } := by
    intro d value? hword hdefinition
    rw [apply]
    simp only [hword, define, hdefinition]
    cases s.isActive <;> exact ⟨_, rfl⟩
  obtain ⟨found, hfound⟩ := happly hword hdefinition
  obtain ⟨found', hfound'⟩ := happly hword' hdefinition'
  exact ⟨found', by rw [hfound, hfound']⟩

end RegionState

namespace LinePart

/-- Whether `lines'` are `lines` with a comment behind the directive that begins in line `i`. The
comment stands at the end of the directive's last line, where no slash stands in front of it, and
goes on in no further line. -/
structure Commented (lines lines' : List (List Char)) (i : Nat) (d : Directive)
    (blanks comment : List Char) : Prop where
  directive : (ofLines false lines)[i]? = some (.directive d)
  blank : ∀ c ∈ blanks, Text.isBlank c = true
  ends : runsOn (Text.trimEnd comment) = false
  placed : ∃ line, lines[i + extent (ofLines false lines) i]? = some line ∧
    (line ++ blanks).getLast? ≠ some '/' ∧
      lines' = lines.set (i + extent (ofLines false lines) i) (line ++ (blanks ++ comment))

variable {lines lines' : List (List Char)} {i : Nat} {d : Directive} {blanks comment : List Char}
    {parts : List LinePart}

/-- Behind a directive and its further lines there is never one more of these. -/
theorem ne_text_of_extent (h : parts[i]? = some (.directive d)) :
    parts[i + extent parts i]? ≠ some .text := by
  cases hcount : extent parts i with
  | zero => rw [Nat.add_zero, h]; simp
  | succ n =>
    have hlt : n < ((parts.drop (i + 1)).takeWhile (· == LinePart.continuation)).length := by
      rw [extent] at hcount
      omega
    have hpart : parts[i + (n + 1)]? =
        some (((parts.drop (i + 1)).takeWhile (· == LinePart.continuation))[n]) := by
      rw [← List.getElem?_eq_getElem hlt,
        show i + (n + 1) = i + 1 + n by omega, ← List.getElem?_drop]
      conv => lhs; rw [← List.takeWhile_append_dropWhile (p := (· == LinePart.continuation))
        (l := parts.drop (i + 1))]
      exact List.getElem?_append_left hlt
    have hcontinuation := List.mem_takeWhile_imp (List.getElem_mem hlt)
    rw [beq_iff_eq] at hcontinuation
    rw [hpart, hcontinuation]
    simp

/-- A line comment leaves the directive as it is. -/
theorem Commented.ofLines_line (h : Commented lines lines' i d blanks ('/' :: '/' :: comment)) :
    ofLines false lines' = ofLines false lines := by
  obtain ⟨line, hline, hslash, rfl⟩ := h.placed
  obtain ⟨text, gap, hupto, hbody, hparts⟩ := ofLines_commented h.blank h.ends h.directive hline
  have hgap : ∀ c ∈ gap, Text.isBlank c = true := by
    rcases hupto.gap_eq with rfl | ⟨rfl, -⟩
    · exact h.blank
    · simp
  have hsame : Directive.withoutComment (text ++ gap ++ '/' :: '/' :: comment) = d.body := by
    rw [Directive.withoutComment_append_comment (fun hlast => hslash (hupto.joined hlast)),
      Directive.withoutComment_append_blanks hgap, hbody]
  obtain ⟨hlt, heq⟩ := List.getElem?_eq_some_iff.mp h.directive
  rw [hparts, hsame]
  exact (congrArg _ heq.symm).trans (List.set_getElem_self hlt)

/-- A block comment becomes part of the directive's body. -/
theorem Commented.ofLines_block (h : Commented lines lines' i d blanks ('/' :: '*' :: comment))
    (hplain : ∀ text ∈ (lines.drop i).take (extent (ofLines false lines) i + 1),
      ¬['/', '/'] <:+: text) :
    ∃ gap comment', (∀ c ∈ gap, Text.isBlank c = true) ∧ (gap = [] → d.body ≠ [] → blanks = []) ∧
      ofLines false lines' = (ofLines false lines).set i (.directive
          (d.withBlock gap comment')) := by
  obtain ⟨line, hline, hslash, rfl⟩ := h.placed
  obtain ⟨text, gap, hupto, hbody, hparts⟩ := ofLines_commented h.blank h.ends h.directive hline
  have hgap : ∀ c ∈ gap, Text.isBlank c = true := by
    rcases hupto.gap_eq with rfl | ⟨rfl, -⟩
    · exact h.blank
    · simp
  have htext : ¬['/', '/'] <:+: text := by
    intro hin
    obtain ⟨other, hother, hin⟩ := hupto.comment hin
    exact hplain other hother hin
  obtain ⟨gap', comment', hgap', hapart, hsame⟩ :=
    Directive.withoutComment_append_block htext hgap (fun hlast => hslash (hupto.joined hlast))
      comment
  refine ⟨gap', comment', hgap', fun hnil hne => ?_, by rw [hparts, hsame, ← hbody]; rfl⟩
  obtain ⟨hgapnil, hlast⟩ := hapart hnil (hbody ▸ hne)
  rcases hupto.gap_eq with heq | ⟨-, rfl | hblank⟩
  · rw [← heq, hgapnil]
  · exact absurd (hbody.trans (by rfl)) hne
  · exact absurd (hlast ' ' hblank) (by decide)

/-- The lines of a directive are kept of neither text, whatever stands in them. -/
theorem Commented.keep_eq (h : Commented lines lines' i d blanks comment) (config : Configuration)
    (parts : List LinePart) (hlength : lines.length = parts.length)
    (htext : parts[i + extent (ofLines false lines) i]? ≠ some .text) :
    RegionState.keep config 1 {} lines' parts = RegionState.keep config 1 {} lines parts := by
  obtain ⟨line, -, -, rfl⟩ := h.placed
  exact RegionState.keep_set_text hlength htext _

end LinePart

/-- What becomes of a source and its parts when the block comment behind a directive is taken for a
part of the directive's body. -/
structure TakesBlock (config : Configuration) (source source' : String)
    (parts parts' : List LinePart) (i : Nat) (d : Directive) (gap comment : List Char) : Prop where
  parts_eq : parts' = parts.set i (.directive (d.withBlock gap comment))
  /-- Conditions and macros do not depend on the bodies of other directives. -/
  kept_other : d.word ∉ ["if", "ifdef", "ifndef", "elif", "define", "undef"] →
    (preprocess config source').1 = (preprocess config source).1
  /-- A definition still defines its macro if the comment is apart from the name. -/
  kept_define : ∀ name, Lexeme.isName name = true → d.Changes name true → gap ≠ [] ∨ d.body ≠ name →
    (preprocess config source').1 = (preprocess config source).1
  /-- Right behind the name, the comment belongs to it. -/
  lost_define : ∀ name, Lexeme.isName name = true → d = ⟨"define", name⟩ → gap = [] →
    ∀ other isDefined, Lexeme.isName other = true →
      ¬(d.withBlock gap comment).Changes other isDefined
  /-- No definition is withdrawn. -/
  lost_undef : d.word = "undef" →
    ∀ name isDefined, Lexeme.isName name = true → ¬(d.withBlock gap comment).Changes name isDefined
  /-- Every condition holds. -/
  selected_condition : Reached config parts i → d.word = "if" ∨ d.word = "elif" →
    active config parts' (i + 1)
  /-- The comment belongs to the name that is asked for. -/
  selected_name : Reached config parts i → d.word = "ifdef" ∨ d.word = "ifndef" →
    (active config parts' (i + 1) ↔
      (IsDefined config parts (active config parts) i (String.ofList
        (d.withBlock gap comment).body) ↔ d.word = "ifdef"))

variable {config : Configuration} {source source' : String} {i : Nat} {d : Directive}
    {name blanks comment : List Char}
  {negated : Bool} {parts : List LinePart}

/-- A reached test selects the region behind it by the last change of the macro, and by the
configuration if that defines the macro, though the last change is its withdrawal. -/
theorem active_of_tests (hd : parts[i]? = some (.directive d)) (htests : d.Tests name negated)
    (hname : Lexeme.isName name = true) (hreached : Reached config parts i) :
    active config parts (i + 1) ↔
      ((LastChange config parts i name true ∨ (config.replacement? (String.ofList name)).isSome =
          true) ↔ negated = false) := by
  have hknown : (RegionState.before config parts i).isDefined config (String.ofList name) = true ↔
      LastChange config parts i name true ∨
          (config.replacement? (String.ofList name)).isSome = true := by
    rw [RegionState.isDefined, Bool.or_eq_true, List.contains_iff_mem, mem_defined_iff hname]
  rw [active, RegionState.before_succ hd, RegionState.pass,
    isActive_apply_of_reached hreached hd rfl, htests.condition_eq hname,
    ← hknown]
  cases negated <;> simp

/-- Where a directive with a block comment begins a branch, its condition is the one with the
comment. -/
theorem active_withBlock (hd : parts[i]? = some (.directive d)) (hreached : Reached config parts i)
    (gap comment : List Char) :
    active config (parts.set i (.directive (d.withBlock gap comment))) (i + 1) ↔
      (d.withBlock gap comment).condition ((RegionState.before config parts i).isDefined config) =
          true := by
  have hlt := (List.getElem?_eq_some_iff.mp hd).1
  have hrole : (d.withBlock gap comment).role = d.role := rfl
  have hbefore : RegionState.before config (parts.set i (.directive (d.withBlock gap comment))) i =
      RegionState.before config parts i := by
    rw [RegionState.before, RegionState.before, List.take_set_of_le (Nat.le_refl i)]
  rw [active, RegionState.before_succ (List.getElem?_set_self hlt), RegionState.pass, hbefore,
    isActive_apply_of_reached hreached hd hrole]

/-- A comment behind a directive changes no line that is kept if the directive with it does the
same. -/
theorem LinePart.Commented.preprocess_eq {d' : Directive}
    (h : LinePart.Commented (Text.lines source.toList) (Text.lines source'.toList) i d blanks
      comment)
    (hparts : LinePart.ofLines false (Text.lines source'.toList) =
      (LinePart.ofLines false (Text.lines source.toList)).set i (.directive d'))
    (hsame : ∀ line s, ∃ found, RegionState.apply config line d' s =
      { s.apply config line d with found }) :
    (preprocess config source').1 = (preprocess config source).1 := by
  have htext : ((LinePart.ofLines false (Text.lines source.toList)).set i (.directive d'))[i +
      LinePart.extent (LinePart.ofLines false (Text.lines source.toList)) i]? ≠ some .text := by
    rw [List.getElem?_set]
    split
    · split <;> simp
    · exact LinePart.ne_text_of_extent h.directive
  rw [Header.preprocess_eq, Header.preprocess_eq, hparts,
    h.keep_eq config _ (by rw [List.length_set, LinePart.length_ofLines]) htext,
      RegionState.keep_set_directive h.directive hsame]

/-- If the parts of a commented source have the comment in the body of its directive, all that
follows from this holds. -/
theorem takesBlock {gap comment' : List Char}
    (h : LinePart.Commented (Text.lines source.toList) (Text.lines source'.toList) i d blanks
      ('/' :: '*' :: comment))
    (hgap : ∀ c ∈ gap, Text.isBlank c = true)
    (hparts : LinePart.ofLines false (Text.lines source'.toList) =
      (LinePart.ofLines false (Text.lines source.toList)).set i
        (.directive (d.withBlock gap comment'))) :
    TakesBlock config source source' (LinePart.ofLines false (Text.lines source.toList))
      (LinePart.ofLines false (Text.lines source'.toList)) i d gap comment' where
  parts_eq := hparts
  kept_other hword := h.preprocess_eq hparts fun line s =>
    RegionState.apply_withBlock hword gap comment'
  kept_define name hname hd hapart :=
    h.preprocess_eq hparts fun line s =>
      RegionState.apply_define hname hd (Directive.changes_withBlock hd hgap hapart comment')
  lost_define := by
    rintro name hname rfl rfl other isDefined hother
    exact Directive.not_changes_withBlock_define hname hother comment'
  lost_undef hword name isDefined hname := Directive.not_changes_withBlock hword hname gap comment'
  selected_condition hreached hword := by
    rw [hparts, active_withBlock h.directive hreached]
    exact Directive.condition_withBlock hword gap comment' _
  selected_name hreached hword := by
    rw [hparts, active_withBlock h.directive hreached, ← isDefined_before]
    rcases hword with hword | hword <;> simp [Directive.condition, Directive.withBlock, hword]

theorem lineFeed_notMem_keep (config : Configuration) (lines : List (List Char))
    (hlines : ∀ line ∈ lines, '\n' ∉ line) :
    ∀ row ∈ RegionState.keep config 1 {} lines (LinePart.ofLines false lines), '\n' ∉ row := by
  intro row hrow
  classical
  rw [keep_eq] at hrow
  obtain ⟨i, hi, rfl⟩ := List.mem_mapIdx.mp hrow
  split
  · exact hlines _ (List.getElem_mem hi)
  · exact List.not_mem_nil

open Classical in
/-- The lines that are kept are the selected lines of text. A test whether a macro is defined tells
the truth, just as the directives before it and the configuration have it, unless the configuration
defines the macro and the last directive withdraws the definition. A line comment behind a directive
changes nothing; a block comment is taken for a part of the directive's body. -/
theorem preprocess_definedness (config : Configuration) (source : String) :
    let lines := Text.lines source.toList
    let parts := LinePart.ofLines false lines
    Text.pieces '\n' (preprocess config source).1 =
        (lines.mapIdx fun i line => if parts[i]? = some .text ∧
          active config parts i then line else []) ++ [[]] ∧
      (∀ i d name negated, parts[i]? = some (.directive d) → d.Tests name negated →
        Lexeme.isName name = true → Reached config parts i →
        let isConfigured := (config.replacement? (String.ofList name)).isSome = true
        (active config parts (i + 1) ↔ ((LastChange config parts i name true ∨ isConfigured) ↔
          negated = false)) ∧ ((active config parts (i + 1) ↔
            ((LastChange config parts i name true ∨
              (∀ isDefined, ¬LastChange config parts i name isDefined) ∧ isConfigured) ↔
              negated = false)) ↔
            ¬(isConfigured ∧ LastChange config parts i name false))) ∧
      (∀ i d blanks comment source',
        LinePart.Commented lines (Text.lines source'.toList) i d blanks ('/' :: '/' :: comment) →
        preprocess config source' = preprocess config source) ∧
      ∀ i d blanks comment source',
        LinePart.Commented lines (Text.lines source'.toList) i d blanks ('/' :: '*' :: comment) →
        (∀ text ∈ (lines.drop i).take (LinePart.extent parts i + 1), ¬['/', '/'] <:+: text) →
        ∃ gap comment', (gap = [] → d.body ≠ [] → blanks = []) ∧
          TakesBlock config source source' parts (LinePart.ofLines false
              (Text.lines source'.toList)) i d gap comment' := by
  intro lines parts
  refine ⟨?_, fun i d name negated hd htests hname hreached => ?_,
    fun i d blanks comment source' h => ?_, fun i d blanks comment source' h hplain => ?_⟩
  · rw [preprocess_eq, Text.pieces_flatMap (lineFeed_notMem_keep config lines fun line =>
      Text.lineFeed_notMem_of_mem_lines), keep_eq]
  · have hactive := active_of_tests hd htests hname hreached
    refine ⟨hactive, ?_⟩
    rw [hactive]
    exact lastChange_or_iff config parts i name _ _
  · rw [preprocess_eq, preprocess_eq, h.ofLines_line]
    rw [h.keep_eq config _ (LinePart.length_ofLines false lines).symm
      (LinePart.ne_text_of_extent h.directive)]
  · obtain ⟨gap, comment', hgap, hnil, hparts⟩ := h.ofLines_block hplain
    exact ⟨gap, comment', hnil, takesBlock h hgap hparts⟩

/-- A withdrawal does not count against the configuration, and a block comment behind a test hides
what it asks for. -/
theorem preprocess_undef_configured :
    (preprocess { defines := [("X", "")] } "#undef X\n#ifdef X\nint a;\n#endif").1 =
      "\n\nint a;\n\n".toList ∧
        LastChange { defines := [("X", "")] }
        (LinePart.ofLines false (Text.lines "#undef X\n#ifdef X\nint a;\n#endif".toList)) 1
        ['X'] false ∧
      (preprocess {} "#define X\n#ifdef X\nint a;\n#endif").1 = "\n\nint a;\n\n".toList ∧
      (preprocess {} "#define X\n#ifdef X /* c */\nint a;\n#endif").1 = "\n\n\n\n".toList := by
  have hundef : (LinePart.ofLines false
      (Text.lines "#undef X\n#ifdef X\nint a;\n#endif".toList))[0]? =
      some (.directive ⟨"undef", ['X']⟩) := by decide +kernel
  refine ⟨by decide +kernel, ⟨0, Nat.zero_lt_one, ⟨rfl, _, hundef, .undef⟩, fun k hk hk' => ?_⟩,
    by decide +kernel, by decide +kernel⟩
  omega

end Interop.Header
