import Interop.Header.MemberSyntax
import Interop.Proofs.Header.Bracketed
import Interop.Proofs.Header.Steady
import Interop.Proofs.Header.Success
import Interop.Proofs.Header.TypeReading

namespace Interop.Header.Parser

open Token

variable {line : Nat} {memory : Memory} {t next : Token} {tokens rest : List Token}
    {type : NativeType}
  {parser : Parser NativeType}

/-- A simple identifier is no mark. -/
theorem ne_of_simple {mark : String} (hsimple : t.Simple) (ht : t.kind = .identifier)
    (hmark : mark.toList.all Directive.isNameChar = false) : t.text ≠ mark := by
  rintro rfl
  have hall := List.all_eq_true.mpr (hsimple ht)
  rw [hmark] at hall
  cases hall

/-- An identifier is no bracket. -/
theorem plain_of_identifier (hsimple : t.Simple) (ht : t.kind = .identifier) : t.Plain := by
  have hne : ∀ mark : String, (mark.toList.all Directive.isNameChar) = false → t.text ≠ mark :=
    fun mark => ne_of_simple hsimple ht
  constructor
  · simp [isOpening, hne "(" (by decide), hne "[" (by decide), hne "\x7b" (by decide)]
  · simp [isClosing, hne ")" (by decide), hne "]" (by decide), hne "\x7d" (by decide)]

theorem outcome_identifier_of_kind (h : t.kind = .identifier) :
    identifier.outcome line (t :: tokens) memory = (.ok (t.text, tokens), memory) :=
  outcome_identifier_eq_ok.mpr ⟨⟨t, h, rfl, rfl⟩, rfl⟩

/-- What is done behind an argument of a template. -/
def behindArgument (found : List NativeType) (argument : NativeType) :
    Parser (List NativeType ⊕ List NativeType) := do
  if ← eat "," then again (argument :: found)
  else
    expect ">"
    done (argument :: found).reverse

/-- A comma asks for a further argument. -/
theorem behindArgument_of_comma (found : List NativeType) (h : t.text = ",") :
    (behindArgument found type).outcome line
    (t :: rest) memory = (.ok (.inl (type :: found), rest), memory) := by
  simp [behindArgument, h, again]

/-- A closing bracket ends the arguments. -/
theorem behindArgument_of_bracket (found : List NativeType) (h : t.text = ">") :
    (behindArgument found type).outcome line
    (t :: rest) memory = (.ok (.inr (type :: found).reverse, rest), memory) := by
  simp [behindArgument, h, outcome_expect_of_next h, done]

/-- Whether an argument of a template may be a type. -/
def startsType (tokens : List Token) : Bool :=
  tokens.head?.any fun t => t.kind == .identifier || t.text == "::"

/-- Whether the arguments of a template are parted or ended by the next token. -/
def EndsArgument (tokens : List Token) : Prop :=
  ∃ t ∈ tokens.head?, t.text = "," ∨ t.text = ">"

section Arguments

variable {found : List NativeType}

/-- A type up to the end of the argument is the argument. -/
theorem argumentStep_of_type (hstart : startsType tokens = true)
    (htype : parser.outcome line tokens memory = (.ok (type, rest), memory))
    (hends : EndsArgument rest) :
    (argumentStep parser found).outcome line tokens memory =
      (behindArgument found type).outcome line rest memory := by
  obtain ⟨t, ht, htext⟩ := hends
  obtain ⟨tail, rfl⟩ : ∃ tail, rest = t :: tail := List.head?_eq_some_iff.mp ht
  have hattempt := outcome_attempt htype
  rw [startsType] at hstart
  rcases htext with htext | htext <;> simp [argumentStep, behindArgument, hstart, hattempt, htext]

/-- Without a type up to the end of the argument, the tokens up to there are the argument. -/
theorem argumentStep_of_run
    (htype : startsType tokens = true → ∀ result memory', parser.outcome line tokens memory =
      (result, memory') → memory' = memory ∧ ∀ type behind, result = .ok (type, behind) →
        ¬EndsArgument behind) :
    (argumentStep parser found).outcome line tokens memory =
      (upTo [",", ">"] >>= fun run =>
          behindArgument found (.unexposed (Token.spell run))).outcome line tokens memory := by
  rw [startsType] at htype
  cases hstart : tokens.head?.any fun t => t.kind == .identifier || t.text == "::" with
  | false => simp [argumentStep, behindArgument, hstart]
  | true =>
    cases hparser : parser.outcome line tokens memory with
    | mk result memory' =>
      obtain ⟨rfl, hnot⟩ := htype hstart result memory' hparser
      cases result with
      | error e =>
        have hattempt : (attempt parser).outcome line tokens memory' = (.ok (none, tokens),
            memory') := by
          simp [attempt, outcome_tryCatch, hparser]
        simp [argumentStep, behindArgument, hstart, hattempt]
      | ok taken =>
        obtain ⟨type, behind⟩ := taken
        have hends := hnot type behind rfl
        have hcomma : behind.head?.any (·.text == ",") = false := by
          rw [Option.any_eq_false]
          exact fun t ht => by simpa using fun htext => hends ⟨t, ht, .inl htext⟩
        have hbracket : behind.head?.any (·.text == ">") = false := by
          rw [Option.any_eq_false]
          exact fun t ht => by simpa using fun htext => hends ⟨t, ht, .inr htext⟩
        simp [argumentStep, behindArgument, hstart, outcome_attempt hparser, hcomma, hbracket]

end Arguments

section Names

variable {lead : String}

/-- What is done behind the arguments of an instance. -/
def behindInstance (name : String) (arguments : List NativeType) :
    Parser (String ⊕ NativeType) := do
  if ← eat "::" then
    let member ← identifier
    done (.unexposed ((NativeType.applied name arguments).spelling ++ "::" ++ member))
  else done (.applied name arguments)

/-- The type that a name without arguments stands for. -/
def plainName (name : String) : Parser (String ⊕ NativeType) := do
  if name = "std::nullptr_t" ∨ name = "nullptr_t" then done (.builtin .nullptr)
  else
    match ← aliasTarget? name with
    | some target => done (.synonym name target)
    | none => done (.named name)

/-- Whether a type is a base type: none that qualifiers or a declarator give. -/
inductive Unlayered : NativeType → Prop
  | builtin (kind : Builtin) : Unlayered (.builtin kind)
  | named (name : String) : Unlayered (.named name)
  | synonym (name : String) (target : NativeType) : Unlayered (.synonym name target)
  | applied (template : String) (arguments : List NativeType) :
    Unlayered (.applied template arguments)
  | unexposed (spelling : String) : Unlayered (.unexposed spelling)

/-- Declarators share a base type with its qualifiers. -/
theorem Unlayered.sharedType_qualify (h : Unlayered type) (isConst isVolatile : Bool) :
    sharedType (type.qualify isConst isVolatile) = type.qualify isConst isVolatile := by
  cases h <;> cases isConst <;> cases isVolatile <;> rfl

/-- A plain name is read as a type without layers, whatever the tokens are. -/
theorem outcome_plainName (memory : Memory) (name : String) :
    ∃ type, Unlayered type ∧
      ∀ line tokens, (plainName name).outcome line tokens memory = (.ok (.inr type, tokens),
          memory) := by
  by_cases hnull : name = "std::nullptr_t" ∨ name = "nullptr_t"
  · exact ⟨.builtin .nullptr, .builtin _, fun line tokens => by simp [plainName, hnull, done]⟩
  · have halias : ∃ target?, ∀ line tokens, (aliasTarget? name).outcome line tokens memory =
        (.ok (target?, tokens), memory) :=
      ⟨_, fun line tokens => rfl⟩
    obtain ⟨target?, htarget⟩ := halias
    cases target? with
    | some target => exact ⟨.synonym name target, .synonym _ _,
      fun line tokens => by simp [plainName, hnull, htarget, done]⟩
    | none => exact ⟨.named name, .named _, fun line tokens => by simp [plainName, hnull, htarget,
      done]⟩

/-- A name with an angle bracket behind it is that of a template. -/
theorem nameStep_instance (ht : t.kind = .identifier) (hnext : next.text = "<") :
    (nameStep parser lead).outcome line (t :: next :: tokens) memory =
      (templateArguments parser >>= behindInstance (lead ++ t.text)).outcome line (next ::
          tokens) memory := by
  simp [nameStep, outcome_identifier_of_kind ht, hnext, behindInstance]

/-- A name with a further name behind it is that of a scope. -/
theorem nameStep_again {colons : Token} (ht : t.kind = .identifier) (hcolons : colons.text = "::")
    (hnext : next.kind = .identifier) :
    (nameStep parser lead).outcome line (t :: colons :: next :: tokens) memory =
      (.ok (.inl (lead ++ t.text ++ "::"), next :: tokens), memory) := by
  simp [nameStep, outcome_identifier_of_kind ht, hcolons, hnext, again]

/-- Whether neither arguments nor a further name follow a name. -/
def EndsScopes (tokens : List Token) : Prop :=
  ∀ t ∈ tokens.head?, t.text ≠ "<" ∧
    (t.text = "::" → tokens[1]?.any (·.kind == .identifier) = false)

/-- A word behind which no scopes or arguments follow is a plain name. -/
theorem nameStep_plain (ht : t.kind = .identifier) (hends : EndsScopes tokens) :
    (nameStep parser lead).outcome line
    (t :: tokens) memory = (plainName (lead ++ t.text)).outcome line tokens memory := by
  cases tokens with
  | nil =>
    simp only [nameStep, outcome_bind, outcome_identifier_of_kind ht]
    rfl
  | cons next tokens =>
    obtain ⟨hbracket, hcolons⟩ := hends next rfl
    have hopening := @outcome_isNext_of_not_next line (next :: tokens) memory "<" fun u hu =>
      Option.some.inj hu ▸ hbracket
    rw [nameStep, outcome_bind_ok (outcome_identifier_of_kind ht), outcome_bind_ok hopening,
      if_neg (by decide)]
    by_cases h : next.text = "::"
    · have hnone := hcolons h
      rw [outcome_bind_ok (outcome_isNext_of_next h), outcome_bind_ok outcome_get, hnone]
      rfl
    · have hnext := @outcome_isNext_of_not_next line (next :: tokens) memory "::" fun u hu =>
        Option.some.inj hu ▸ h
      rw [outcome_bind_ok hnext]
      rfl

/-- A template ends a type if no scope follows it. -/
theorem behindInstance_applied (name : String) (arguments : List NativeType)
    (h : ∀ t ∈ tokens.head?, t.text ≠ "::") :
    (behindInstance name arguments).outcome line tokens memory =
      (.ok (.inr (.applied name arguments), tokens), memory) := by
  rw [behindInstance, outcome_bind_ok (outcome_eat_of_not_next h)]
  rfl

theorem behindInstance_member (name : String) (arguments : List NativeType) {colons : Token}
    (hcolons : colons.text = "::") (ht : t.kind = .identifier) :
    (behindInstance name arguments).outcome line (colons :: t :: tokens) memory =
      (.ok (.inr (.unexposed ((NativeType.applied name arguments).spelling ++ "::" ++ t.text)),
          tokens), memory) := by
  simp [behindInstance, hcolons, outcome_identifier_of_kind ht, done]

/-- What is left behind an instance if double colons follow it: what stands behind the member that
they name. -/
theorem behindInstance_colons {name : String} {arguments : List NativeType}
    {next : String ⊕ NativeType} {colons : Token} {memory' : Memory} (hcolons : colons.text = "::")
    (h : (behindInstance name arguments).outcome line (colons :: tokens) memory =
      (.ok (next, rest), memory')) :
    ∃ t, t.kind = .identifier ∧ tokens = t :: rest := by
  rw [behindInstance, outcome_bind_ok (outcome_eat_of_next hcolons)] at h
  obtain ⟨member, behind, between, hidentifier, hdone⟩ := outcome_bind_eq_ok.mp h
  cases hdone
  obtain ⟨⟨t, ht, -, rfl⟩, -⟩ := outcome_identifier_eq_ok.mp hidentifier
  exact ⟨t, ht, rfl⟩

end Names

section Base

variable {row : List Token}

/-- Whether a token is a word of builtin types. -/
def isBuiltinWord (t : Token) : Bool :=
  t.kind == .identifier && builtinWords.contains t.text

/-- A row of words is a builtin type. -/
theorem baseType_of_words (hspan : tokens.span isBuiltinWord = (row, rest)) (hrow : row ≠ []) :
    (baseType parser).outcome line tokens memory =
      (.ok (.builtin (builtinOfWords (row.map Token.text)), rest), memory) := by
  have hwords : (words builtinWords.contains).outcome line tokens memory =
      (.ok (row.map Token.text, rest), memory) := by
    rw [words, outcome_bind, outcome_get]
    exact congrArg (fun taken : List Token × List Token =>
      (Except.ok (taken.1.map Token.text, taken.2), memory)) hspan
  obtain ⟨first, row, rfl⟩ := List.exists_cons_of_ne_nil hrow
  rw [baseType, outcome_bind_ok hwords]
  rfl

theorem outcome_words_of_none (h : ∀ t ∈ tokens.head?, isBuiltinWord t = false) :
    (words builtinWords.contains).outcome line tokens memory = (.ok ([], tokens), memory) := by
  have hspan : ([] ++ tokens).span isBuiltinWord = ([], tokens) := span_append nofun h
  rw [words, outcome_bind, outcome_get]
  exact congrArg (fun taken : List Token × List Token =>
    (Except.ok (taken.1.map Token.text, taken.2), memory)) hspan

/-- The type of a deduced variable is not exposed. -/
theorem baseType_of_auto (ht : t.kind = .identifier) (htext : t.text = "auto") :
    (baseType parser).outcome line
    (t :: rest) memory = (.ok (.unexposed "auto", rest), memory) := by
  have hnone : ∀ u ∈ (t :: rest).head?, isBuiltinWord u = false := by
    intro u hu
    obtain rfl := Option.some.inj hu
    rw [isBuiltinWord, htext, show builtinWords.contains "auto" = false by decide, Bool.and_false]
  simp [baseType, outcome_words_of_none hnone, ht, htext, Option.filter_some]

theorem baseType_of_decltype (ht : t.kind = .identifier) (htext : t.text = "decltype") :
    (baseType parser).outcome line (t :: tokens) memory =
      (do
        let run ← balanced "(" ")"
        return NativeType.unexposed ("decltype(" ++ Token.spell run ++ ")") :
            Parser NativeType).outcome line tokens memory := by
  have hnone : ∀ u ∈ (t :: tokens).head?, isBuiltinWord u = false := by
    intro u hu
    obtain rfl := Option.some.inj hu
    rw [isBuiltinWord, htext, show builtinWords.contains "decltype" = false by decide,
      Bool.and_false]
  simp [baseType, outcome_words_of_none hnone, ht, htext, Option.filter_some]

/-- What begins with no word that has a meaning of its own is read as a name. -/
theorem baseType_of_name (hnone : ∀ t ∈ tokens.head?, isBuiltinWord t = false)
    (hown : ∀ t ∈ tokens.head?, t.kind = .identifier → t.text ≠ "auto" ∧ t.text ≠ "decltype") :
    (baseType parser).outcome line tokens memory =
      (namedType parser).outcome line tokens memory := by
  rw [baseType, outcome_bind_ok (outcome_words_of_none hnone)]
  by_cases hname : ∀ t ∈ tokens.head?, t.kind ≠ .identifier
  · rw [outcome_bind_ok (outcome_identifier?_of_ne hname)]
  · obtain ⟨t, tail, rfl, ht⟩ : ∃ t tail, tokens = t :: tail ∧ t.kind = .identifier := by
      cases tokens with
      | nil => exact absurd nofun hname
      | cons t tail => exact ⟨t, tail, rfl, by simpa using hname⟩
    obtain ⟨hauto, hdecltype⟩ := hown t rfl ht
    rw [outcome_bind_ok (outcome_identifier?_of_eq ht)]
    split
    · exact absurd (by simp_all) hauto
    · exact absurd (by simp_all) hdecltype
    · rfl

end Base

end Interop.Header.Parser
