import Interop.Proofs.Header.BaseReading
import Interop.Proofs.Header.MemberReading
import Mathlib.Data.List.Forall2

namespace Interop.Header.Parser

open Token

variable {line : Nat} {memory : Memory} {inClass : Option String} {flags : Flags}
    {base : NativeType} {t : Token}
  {tokens operators rest : List Token}

/-- Whether tokens are the bounds of arrays. -/
inductive Bounds : List Token → Prop
  | nil : Bounds []
  | cons {opening closing : Token} {size rest : List Token} (hopening : opening.text = "[")
      (hclosing : closing.text = "]")
      (hsize : Bracketed (fun _ => True) size) (h : Bounds rest) :
        Bounds (opening :: (size ++ closing :: rest))

/-- Whether tokens are a bit width, or none. -/
inductive Width : List Token → Prop
  | none : Width []
  | some {colon : Token} {width : List Token} (hcolon : colon.text = ":")
      (hwidth : Bracketed (fun t => t.text ∉ [",", ";", "=", "\x7b"]) width) :
        Width (colon :: width)

/-- Whether tokens are an initializer, or none. -/
inductive Initializer : List Token → Prop
  | none : Initializer []
  | value {equals : Token} {value : List Token} (hequals : equals.text = "=")
      (hvalue : Bracketed (fun t => t.text ∉ [",", ";"]) value) : Initializer (equals :: value)
  | braces {opening closing : Token} {value : List Token} (hopening : opening.text = "\x7b")
      (hclosing : closing.text = "\x7d")
      (hvalue : Bracketed (fun _ => True) value) : Initializer (opening :: (value ++ [closing]))

/-- Whether a token ends a declarator. -/
def EndsDeclarator (t : Token) : Prop :=
  t.text = "," ∨ t.text = ";"

theorem EndsDeclarator.mem (h : EndsDeclarator t) : t.text ∈ [",", ";"] := by
  simpa [EndsDeclarator] using h

/-- A run up to a stop is taken as a whole if its brackets match, whatever stops are within them. -/
theorem outcome_upTo_bracketed {stops : List String} {run : List Token}
    (h : Bracketed (fun t => t.text ∉ stops) run) (ht : t.text ∈ stops) :
    (upTo stops).outcome line (run ++ t :: rest) memory = (.ok (run, t :: rest), memory) := by
  refine outcome_takeRun ?_
  rw [runUntil_bracketed h fun _ _ => id, runUntil_stop ht]
  simp [prepend]

/-- What stands in brackets is taken as a whole if its own brackets match. -/
theorem outcome_balanced_bracketed {opening closing : Token} {run : List Token}
    (h : Bracketed (fun _ => True) run) (henclose : Encloses opening.text closing.text) :
    (balanced opening.text closing.text).outcome line
    (opening :: (run ++ closing :: rest)) memory = (.ok (run, rest), memory) :=
  outcome_balanced_eq_ok.mpr ⟨⟨opening, _, rfl, rfl, balancedRun_closed h henclose rfl⟩, rfl⟩

/-- One repetition of `arrayBounds`. -/
def boundStep (type : NativeType) : Parser (NativeType ⊕ NativeType) := do
  if ← isNext "[" then
    let size ← balanced "[" "]"
    again (.array type (if size.isEmpty then none else some (Token.spell size)))
  else done type

theorem arrayBounds_eq (type : NativeType) : arrayBounds type = loop type boundStep :=
  rfl

/-- Bounds give a type that does not depend on what stands behind them. -/
theorem exists_arrayBounds {bounds : List Token} (h : Bounds bounds) (type : NativeType) :
    ∃ result, ∀ line memory rest, (∀ t ∈ rest.head?, t.text ≠ "[") →
      (arrayBounds type).outcome line (bounds ++ rest) memory = (.ok (result, rest), memory) := by
  suffices hloops : ∃ result, ∀ line memory rest, (∀ t ∈ rest.head?, t.text ≠ "[") →
      Loops boundStep line result rest memory type (bounds ++ rest) memory by
    obtain ⟨result, hloops⟩ := hloops
    refine ⟨result, fun line memory rest hrest => ?_⟩
    rw [arrayBounds_eq]
    exact (hloops line memory rest hrest).outcome_loop
  induction h generalizing type with
  | nil =>
    refine ⟨type, fun line memory rest hrest => .done ?_⟩
    rw [boundStep, List.nil_append, outcome_bind_ok (outcome_isNext_of_not_next hrest)]
    rfl
  | @cons opening closing size bounds hopening hclosing hsize _ ih =>
    obtain ⟨result, hloops⟩ :=
      ih (.array type (if size.isEmpty then none else some (Token.spell size)))
    refine ⟨result, fun line memory rest hrest => .again ?_ ?_ (hloops line memory rest hrest)⟩
    · have hbalanced := @outcome_balanced_bracketed line memory
        (bounds ++ rest) opening closing size hsize
        (by rw [hopening, hclosing]; decide)
      rw [hopening, hclosing] at hbalanced
      rw [boundStep, List.cons_append, List.append_assoc, List.cons_append,
        outcome_bind_ok (outcome_isNext_of_next hopening),
        if_pos rfl, outcome_bind_ok hbalanced]
      rfl
    · simp
      omega

/-- Every initializer can be read, and ends at the mark behind the declarator. -/
theorem exists_initializer {initializer : List Token} (h : Initializer initializer) :
    ∃ value?, ∀ line memory t rest, EndsDeclarator t →
      initializer?.outcome line (initializer ++ t :: rest) memory = (.ok (value?, t :: rest),
          memory) := by
  cases h with
  | none =>
    refine ⟨none, fun line memory t rest ht => ?_⟩
    rcases ht with ht | ht <;> simp [initializer?, ht]
  | @value equals value hequals hvalue =>
    refine ⟨some (Token.spell value), fun line memory t rest ht => ?_⟩
    simp [initializer?, hequals, outcome_upTo_bracketed hvalue ht.mem]
  | @braces opening closing value hopening hclosing hvalue =>
    refine ⟨some (Token.spell value), fun line memory t rest ht => ?_⟩
    have hbalanced := @outcome_balanced_bracketed line memory
      (t :: rest) opening closing value hvalue
      (by rw [hopening, hclosing]; decide)
    rw [hopening, hclosing] at hbalanced
    simp [initializer?, hopening, hbalanced]

/-- What is taken behind the array bounds of a variable. -/
def behindBounds (inClass : Option String) (name : String) (flags : Flags) (type : NativeType) :
    Parser Declaration := do
  let kind ←
    if ← eat ":" then
      discard <| upTo [",", ";", "=", "\x7b"]
      pure .bitField
    else pure (variableKind inClass)
  let value? ← initializer?
  return { kind, name, flags, type? := some type, value? }

theorem variableRest_eq (inClass : Option String) (name : String) (type : NativeType)
    (flags : Flags) :
    variableRest inClass name type flags = arrayBounds type >>= behindBounds inClass name flags :=
  rfl

/-- What begins with an initializer, or with the end of a declarator if there is none, goes on with
neither bounds nor a width. -/
theorem head_initializer {initializer : List Token} (h : Initializer initializer)
    (ht : EndsDeclarator t) :
    ∃ first tail, initializer ++ t :: rest = first :: tail ∧
      first.text ∈ [",", ";", "=", "\x7b"] := by
  cases h with
  | none => exact ⟨t, rest, rfl, by rcases ht with ht | ht <;> simp [ht]⟩
  | value hequals => exact ⟨_, _, rfl, by simp [hequals]⟩
  | braces hopening => exact ⟨_, _, rfl, by simp [hopening]⟩

/-- Bounds, a width and an initializer behind a name give a variable, which does not depend on what
ends the declarator. -/
theorem exists_variableRest {bounds width initializer : List Token} (hbounds : Bounds bounds)
    (hwidth : Width width) (hinitializer : Initializer initializer) (inClass : Option String)
    (name : String) (type : NativeType) (flags : Flags) :
    ∃ d, ∀ line memory t rest, EndsDeclarator t →
      (variableRest inClass name type flags).outcome line
        (bounds ++ (width ++ (initializer ++ t :: rest))) memory =
        (.ok (d, t :: rest), memory) := by
  obtain ⟨result, harrays⟩ := exists_arrayBounds hbounds type
  obtain ⟨value?, hvalue⟩ := exists_initializer hinitializer
  cases hwidth with
  | none =>
    refine ⟨{ kind := variableKind inClass, name, flags, type? := some result, value? },
      fun line memory t rest ht => ?_⟩
    obtain ⟨first, tail, hbehind, hfirst⟩ := @head_initializer t rest initializer hinitializer ht
    have hapart : first.text ≠ "[" ∧ first.text ≠ ":" := by
      constructor <;> intro heq <;> rw [heq] at hfirst <;> revert hfirst <;> decide
    have hvalue := hvalue line memory t rest ht
    rw [hbehind] at hvalue
    have hbounds := harrays line memory (first :: tail) fun u hu => Option.some.inj hu ▸ hapart.1
    rw [variableRest_eq, List.nil_append, hbehind, outcome_bind_ok hbounds]
    simp [behindBounds, hapart.2, hvalue]
  | @some colon width hcolon hwidth =>
    refine ⟨{ kind := .bitField, name, flags, type? := some result, value? },
      fun line memory t rest ht => ?_⟩
    obtain ⟨first, tail, hbehind, hfirst⟩ := @head_initializer t rest initializer hinitializer ht
    have hvalue := hvalue line memory t rest ht
    rw [hbehind] at hvalue
    have hbounds := harrays line memory (colon :: (width ++ first :: tail)) fun u hu => by
      rw [← Option.some.inj hu, hcolon]
      decide
    rw [variableRest_eq, List.cons_append, hbehind, outcome_bind_ok hbounds]
    simp [behindBounds, hcolon, outcome_upTo_bracketed hwidth hfirst, hvalue]

/-- Whether a token is the name of a variable: an identifier that neither is a word of types nor
begins an operator's name. -/
structure IsVariableName (t : Token) : Prop where
  kind : t.kind = .identifier
  simple : t.Simple
  notOperator : t.text ≠ "operator"
  notType : t.text ∉ builtinWords ∧ ¬IsQualifier t

/-- Whether tokens declare a variable: operators, a name, and what may stand behind the name of a
variable. -/
inductive IsDeclarator : List Token → Prop
  | mk {operators bounds width initializer : List Token}
      {name : Token} (hoperators : Operators operators)
      (hname : IsVariableName name) (hbounds : Bounds bounds) (hwidth : Width width)
        (hinitializer : Initializer initializer) :
      IsDeclarator (operators ++ name :: (bounds ++ (width ++ initializer)))

theorem IsVariableName.ne {mark : String} (h : IsVariableName t)
    (hmark : mark.toList.all Directive.isNameChar = false) :
    t.text ≠ mark :=
  ne_of_simple h.simple h.kind hmark

theorem IsVariableName.endsOperators (h : IsVariableName t) (tokens : List Token) :
    EndsOperators (t :: tokens) := by
  intro u hu
  obtain rfl := Option.some.inj hu
  obtain ⟨hwords, hqualifier⟩ := h.notType
  rw [IsQualifier, not_or] at hqualifier
  have hmarks : ∀ mark ∈ ["*", "&", "&&", "::", "<", ">", ","],
      mark.toList.all Directive.isNameChar = false := by
    decide
  simp only [operatorTexts, List.mem_append, not_or]
  refine ⟨hwords, fun hmem => ?_⟩
  rcases List.mem_cons.mp hmem with htext | hmem
  · exact hqualifier.1 htext
  rcases List.mem_cons.mp hmem with htext | hmem
  · exact hqualifier.2 htext
  · exact h.ne (hmarks _ hmem) rfl

/-- How a declarator is read behind a base type, whatever ends it: the operators give the variable's
type together with the bounds, and what stands behind the name gives the rest. -/
structure Declares (inClass : Option String) (flags : Flags) (base : NativeType)
    (declarator : List Token) (d : Declaration) (operators : List Token) (name : Token)
    (behind : List Token) (type : NativeType) : Prop where
  tokens_eq : declarator = operators ++ name :: behind
  isName : IsVariableName name
  isOperators : Operators operators
  shared : sharedType type = sharedType base
  reads_operators : ∀ line memory rest, EndsOperators rest →
    Loops indirection line type rest memory base (operators ++ rest) memory
  reads_behind : ∀ line memory t rest, EndsDeclarator t →
    (variableRest inClass name.text type flags).outcome line (behind ++ t :: rest) memory =
      (.ok (d, t :: rest), memory)
  head : ∀ t rest, EndsDeclarator t → ∀ u ∈ (behind ++ t :: rest).head?, u.text ≠ "::" ∧
    u.text ≠ "("

/-- Every declarator declares a variable of the base type with its operators. -/
theorem IsDeclarator.exists_declares {declarator : List Token} (h : IsDeclarator declarator)
    (inClass : Option String) (flags : Flags) (base : NativeType) :
    ∃ d operators name behind type,
      Declares inClass flags base declarator d operators name behind type := by
  obtain ⟨hoperators, hname, hbounds, hwidth, hinitializer⟩ := h
  rename_i operators bounds width initializer name
  obtain ⟨type, hshared, hloops⟩ := loops_operators hoperators base
  obtain ⟨d, hbehind⟩ :=
    exists_variableRest hbounds hwidth hinitializer inClass name.text type flags
  refine ⟨d, operators, name, _, type, rfl, hname, hoperators, hshared, hloops,
    fun line memory t rest ht => ?_, fun t rest ht u hu => ?_⟩
  · simpa using hbehind line memory t rest ht
  · have hfirst : u.text ∈ ["[", ":", ",", ";", "=", "\x7b"] := by
      cases hbounds with
      | cons hopening =>
        obtain rfl := Option.some.inj hu
        simp [hopening]
      | nil =>
        cases hwidth with
        | some hcolon =>
          obtain rfl := Option.some.inj hu
          simp [hcolon]
        | none =>
          obtain ⟨first, tail, heq, hfirst⟩ := @head_initializer t rest initializer hinitializer ht
          rw [List.nil_append, List.nil_append, heq] at hu
          obtain rfl := Option.some.inj hu
          exact List.mem_cons_of_mem _ (List.mem_cons_of_mem _ hfirst)
    constructor <;> intro heq <;> rw [heq] at hfirst <;> revert hfirst <;> decide

/-- One repetition of `declarators`. -/
def declaratorStep (inClass : Option String) (flags : Flags) (shared : NativeType)
    (start : List Token) :
    NativeType × List Declaration → Parser (NativeType × List Declaration ⊕ List Declaration) :=
  fun (type, found) => do
    if ← isNext "operator" then
      let name ← operatorName
      let d ← functionRest { kind := functionKind inClass, name, returnType? := some type } flags
      done (d :: found).reverse
    else
      match ← functionPointer? type with
      | some (name, pointer) =>
        endDeclaration
        done ({ kind := variableKind inClass, name, flags, type? := some pointer } :: found).reverse
      | none =>
        match ← identifier? with
        | none =>
          set start
          skipDeclaration
          done [{ kind := .unexposed, name := "" }]
        | some name =>
          advance 1
          if ← isNext "::" then
            skipDeclaration
            done found.reverse
          else if ← isNext "(" then
            let d ← functionRest
              { kind := functionKind inClass, name, returnType? := some type } flags
            done (d :: found).reverse
          else
            let d ← variableRest inClass name type flags
            if ← eat "," then
              let type ← indirections (sharedType shared)
              again (type, d :: found)
            else
              endDeclaration
              done (d :: found).reverse

theorem declarators_eq (inClass : Option String) (flags : Flags) (shared : NativeType)
    (start : List Token) :
    declarators inClass flags shared start =
      loop (shared, []) (declaratorStep inClass flags shared start) :=
  rfl

/-- What is done behind a variable. -/
def behindVariable (shared : NativeType) (found : List Declaration) (d : Declaration) :
    Parser (NativeType × List Declaration ⊕ List Declaration) := do
  if ← eat "," then
    let type ← indirections (sharedType shared)
    again (type, d :: found)
  else
    endDeclaration
    done (d :: found).reverse

section Step

variable {shared type : NativeType} {start declarator behind : List Token}
    {found : List Declaration} {d : Declaration}
  {name : Token}

/-- A declarator is read as its variable. -/
theorem declaratorStep_variable
    (h : Declares inClass flags base declarator d operators name behind type)
    (ht : EndsDeclarator t) :
    (declaratorStep inClass flags shared start (type, found)).outcome line
    (name :: (behind ++ t :: rest)) memory =
      (behindVariable shared found d).outcome line (t :: rest) memory := by
  have hpointer := @outcome_functionPointer? line (name :: (behind ++ t :: rest)) memory type
      fun u hu =>
    Option.some.inj hu ▸ h.isName.ne (by decide)
  have hidentifier := @outcome_identifier?_of_eq line
    (behind ++ t :: rest) memory name h.isName.kind
  have hcolons := @outcome_isNext_of_not_next line (behind ++ t :: rest) memory "::" fun u hu =>
    (h.head t rest ht u hu).1
  have hcall := @outcome_isNext_of_not_next line (behind ++ t :: rest) memory "(" fun u hu =>
    (h.head t rest ht u hu).2
  have hoperator := @outcome_isNext_of_not_next line (name :: (behind ++ t :: rest)) memory
      "operator" fun u hu =>
    Option.some.inj hu ▸ h.isName.notOperator
  have hadvance : (advance 1).outcome line (name :: (behind ++ t :: rest)) memory =
      (.ok ((), behind ++ t :: rest), memory) :=
    rfl
  rw [declaratorStep, outcome_bind_ok hoperator, if_neg (by decide), outcome_bind_ok hpointer]
  refine (outcome_bind_ok hidentifier).trans ((outcome_bind_ok hadvance).trans ?_)
  rw [outcome_bind_ok hcolons, if_neg (by decide), outcome_bind_ok hcall, if_neg (by decide)]
  exact outcome_bind_ok (h.reads_behind line memory t rest ht)

/-- Behind a comma the operators of the next declarator are read, applied to what the declarators
share. -/
theorem behindVariable_comma (ht : t.text = ",") (hshared : sharedType shared = base)
    (h : Declares inClass flags base declarator d operators name behind type)
    (previous : Declaration) :
    (behindVariable shared found previous).outcome line (t :: (declarator ++ rest)) memory =
      (.ok (.inl (type, previous :: found), name :: (behind ++ rest)), memory) := by
  have hoperators := (h.reads_operators line memory (name :: (behind ++ rest))
    (h.isName.endsOperators _)).outcome_loop
  rw [behindVariable, outcome_bind_ok (outcome_eat_of_next ht), if_pos rfl, hshared, h.tokens_eq,
    List.append_assoc, List.cons_append]
  exact outcome_bind_ok hoperators

/-- A semicolon ends the declarators. -/
theorem behindVariable_semicolon (ht : t.text = ";") :
    (behindVariable shared found d).outcome line
    (t :: rest) memory = (.ok (.inr (d :: found).reverse, rest), memory) := by
  simp [behindVariable, endDeclaration, ht, done]

end Step

/-- Whether a declarator behind a base type declares a variable. -/
def DeclaresVariable (inClass : Option String) (flags : Flags) (base : NativeType)
    (declarator : List Token) (d : Declaration) : Prop :=
  ∃ operators name behind type, Declares inClass flags base declarator d operators name behind type

/-- All further declarators declare their variables, each with the base type. -/
theorem exists_declaresVariable {others : List (Token × List Token)}
    (h : ∀ other ∈ others, IsDeclarator other.2) (inClass : Option String) (flags : Flags)
    (base : NativeType) :
    ∃ ds, List.Forall₂ (fun other d =>
      DeclaresVariable inClass flags base other.2 d) others ds := by
  induction others with
  | nil => exact ⟨[], .nil⟩
  | cons other others ih =>
    obtain ⟨ds, hds⟩ := ih fun other hmem => h other (List.mem_cons_of_mem _ hmem)
    obtain ⟨d, hd⟩ := (h other List.mem_cons_self).exists_declares inClass flags base
    exact ⟨d :: ds, .cons hd hds⟩

/-- Declarators, each behind its comma. -/
def furtherTokens (others : List (Token × List Token)) : List Token :=
  others.flatMap fun other => other.1 :: other.2

section Loop

variable {shared type : NativeType} {start first behind : List Token}
    {others : List (Token × List Token)}
  {found ds : List Declaration} {d : Declaration} {name semicolon : Token}

/-- The declarators of a statement are read in their order, those behind the first one from what all
of them share. -/
theorem loops_declarators (hshared : sharedType shared = base) (hsemicolon : semicolon.text = ";")
    (hcommas : ∀ other ∈ others, other.1.text = ",")
    (hothers : List.Forall₂ (fun other d => DeclaresVariable inClass flags base other.2 d)
      others ds)
    (hfirst : Declares inClass flags base first d operators name behind type) :
    Loops (declaratorStep inClass flags shared start) line (found.reverse ++ d :: ds) rest memory
      (type, found)
      (name :: (behind ++ (furtherTokens others ++ semicolon :: rest))) memory := by
  -- The induction is on the declarators behind the one whose operators have been read, with what
  -- has been found in front of it.
  induction hothers generalizing first operators name behind type d found with
  | nil =>
    refine .done ?_
    rw [furtherTokens, List.flatMap_nil, List.nil_append,
      declaratorStep_variable hfirst (.inr hsemicolon), behindVariable_semicolon hsemicolon,
        List.reverse_cons]
  | @cons other next others ds hother _ ih =>
    obtain ⟨operators', name', behind', type', hnext⟩ := hother
    have hcomma := hcommas other List.mem_cons_self
    have hcommas := fun other hmem => hcommas other (List.mem_cons_of_mem _ hmem)
    have hloops := @ih operators' type' other.2 behind' (d :: found) next name' hcommas hnext
    rw [List.reverse_cons, List.append_assoc] at hloops
    refine .again ?_ ?_ hloops
    · have htokens : furtherTokens (other :: others) ++ semicolon :: rest =
          other.1 :: (other.2 ++ (furtherTokens others ++ semicolon :: rest)) := by
        simp [furtherTokens]
      rw [htokens, declaratorStep_variable hfirst (.inl hcomma),
        behindVariable_comma hcomma hshared hnext]
    · simp [furtherTokens, hnext.tokens_eq]
      omega

end Loop

/-- The flags that the specifiers in front of a declaration set. -/
def flagsOf (words : List Token) (flags : Flags) : Flags :=
  words.foldl (fun flags t => flags.union ((specifier? t.text).getD {})) flags

/-- Words in front of a declaration are taken as its specifiers. -/
theorem outcome_specifiers_words {words : List Token}
    (hwords : ∀ t ∈ words, t.kind = .identifier ∧ (specifier? t.text).isSome = true)
    (hrest : NoSpecifier rest) :
    specifiers.outcome line (words ++ rest) memory = (.ok (flagsOf words {}, rest), memory) := by
  have hloops : ∀ flags, Loops specifierStep line (flagsOf words flags) rest memory flags (words ++
      rest) memory := by
    induction words with
    | nil => exact fun flags => .done (specifierStep_of_noSpecifier hrest flags)
    | cons t words ih =>
      intro flags
      obtain ⟨hkind, hsome⟩ := hwords t List.mem_cons_self
      obtain ⟨flag, hflag⟩ := Option.isSome_iff_exists.mp hsome
      have hattribute : t.text ≠ "[[" := by
        rintro htext
        rw [htext] at hsome
        exact absurd hsome (by decide)
      refine .again ?_ ?_ (ih (fun t ht => hwords t (List.mem_cons_of_mem _ ht)) _)
      · simp [specifierStep, again, hattribute, hkind, hflag, Option.filter_some]
      · simp
  exact (hloops {}).outcome_loop

/-- Whether tokens are the specifiers of a declaration: words that set specifiers, what may stand in
front of a base type, a base type that is read to its end, and its qualifiers. -/
inductive IsSpecifiers (memory : Memory) : List Token → Prop
  | mk {words leading run trailing : List Token} {base : NativeType}
      (hwords : ∀ t ∈ words, t.kind = .identifier ∧ (specifier? t.text).isSome = true)
      (hleading : ∀ t ∈ leading, t.text ∈ leadingWords) (hbase : IsBase memory run base)
      (hhead : ∀ t ∈ run.head?, specifier? t.text = none ∧ t.text ≠ "operator" ∧
        t.text ∉ leadingWords)
      (htrailing : ∀ t ∈ trailing, IsQualifier t) :
        IsSpecifiers memory (words ++ (leading ++ (run ++ trailing)))

section Specifiers

variable {leading run trailing behind : List Token} {name : Token} {type : NativeType}

/-- A type is read up to a declared name: the qualifiers around its base are put together, and the
operators apply to the result. -/
theorem outcome_type_front (hleading : ∀ t ∈ leading, t.text ∈ leadingWords)
    (hbase : IsBase memory run base) (hhead : ∀ t ∈ run.head?, t.text ∉ leadingWords)
    (htrailing : ∀ t ∈ trailing, IsQualifier t) (hoperators : Operators operators)
    (hrest : EndsOperators rest) (hloops : Loops indirection line type rest memory
      (base.qualify (leading.any (·.text == "const") || trailing.any (·.text == "const"))
        (leading.any (·.text == "volatile") || trailing.any (·.text == "volatile"))) (operators ++
          rest) memory) :
    Parser.type.outcome line (leading ++ (run ++ (trailing ++ (operators ++ rest)))) memory =
      (.ok (type, rest), memory) := by
  obtain ⟨head, tail, rfl, -⟩ := hbase.begins
  have hspan : (leading ++ (head :: tail ++ (trailing ++ (operators ++ rest)))).span
      (fun t => leadingWords.contains t.text) = (leading,
          head :: tail ++ (trailing ++ (operators ++ rest))) := by
    refine span_append (fun t ht => List.contains_iff_mem.mpr (hleading t ht)) fun t ht => ?_
    obtain rfl := Option.some.inj ht
    exact Bool.eq_false_iff.mpr fun hmem => hhead _ rfl (List.contains_iff_mem.mp hmem)
  have hqualifiers := @outcome_qualifiers_row line memory (operators ++ rest) trailing htrailing
    (not_qualifier_operators hoperators hrest)
  rw [Parser.type, outcome_bind, outcome_get]
  refine (typeWith_of_leading hspan).trans ?_
  rw [outcome_bind_ok (hbase.outcome_front (by simp; omega) (.mk htrailing hoperators hrest)),
    behindBase, outcome_bind_ok hqualifiers]
  exact hloops.outcome_loop

/-- No round bracket stands where the qualifiers and the operators behind a base type begin. -/
theorem head_trailing (htrailing : ∀ t ∈ trailing, IsQualifier t) (hoperators : Operators operators)
    (hname : IsVariableName name) :
    ∀ t ∈ (trailing ++ (operators ++ name :: rest)).head?, t.text ≠ "(" := by
  intro t ht
  cases trailing with
  | cons qualifier trailing =>
    obtain rfl := Option.some.inj ht
    rcases htrailing qualifier List.mem_cons_self with h | h <;> rw [h] <;> decide
  | nil =>
    cases hoperators with
    | nil =>
      obtain rfl := Option.some.inj ht
      exact hname.ne (by decide)
    | pointer hstar =>
      obtain rfl := Option.some.inj ht
      rw [hstar]
      decide
    | reference hmark =>
      obtain rfl := Option.some.inj ht
      rcases hmark with h | h <;> rw [h] <;> decide

/-- What a type in front of a declared name begins with: neither a specifier nor what another form
of member begins with. -/
theorem head_type (hleading : ∀ t ∈ leading, t.text ∈ leadingWords) (hbase : IsBase memory run base)
    (hhead : ∀ t ∈ run.head?, specifier? t.text = none ∧ t.text ≠ "operator")
    (htokens : ∀ t ∈ tokens.head?, t.text ≠ "(") :
    ∃ head tail, leading ++ (run ++ tokens) = head :: tail ∧
      (specifier? head.text = none ∧ head.text ≠ "operator") ∧
      (head.text ≠ "[[" ∧ head.text ≠ "~") ∧
          ((∀ t ∈ tail.head?, t.text ≠ "(") ∨ head.text = "decltype") := by
  obtain ⟨head, tail, rfl, hbegin, hcall⟩ := hbase.begins
  have hmark : ∀ mark : String, mark.toList.all Directive.isNameChar = false → mark ≠ "::" →
      head.text ≠ mark := by
    intro mark hmark hcolons
    rcases hbegin with hkind | htext
    · exact ne_of_simple (hbase.simple head List.mem_cons_self) hkind hmark
    · rw [htext]
      exact hcolons.symm
  have hwords : ∀ word ∈ leadingWords,
      (specifier? word = none ∧ word ≠ "operator") ∧ (word ≠ "[[" ∧ word ≠ "~") ∧ word ≠ "(" := by
    decide
  cases leading with
  | nil =>
    refine ⟨head, tail ++ tokens, rfl, hhead head rfl,
      ⟨hmark _ (by decide) (by decide), hmark _ (by decide) (by decide)⟩, ?_⟩
    refine hcall.imp_left fun htail t ht => ?_
    cases tail with
    | nil => exact htokens t ht
    | cons second tail => exact htail t ht
  | cons first leading =>
    obtain ⟨hspecifier, hmarks, -⟩ := hwords _ (hleading first List.mem_cons_self)
    refine ⟨first, _, rfl, hspecifier, hmarks, .inl fun t ht => ?_⟩
    cases leading with
    | nil =>
      obtain rfl := Option.some.inj ht
      exact hmark _ (by decide) (by decide)
    | cons second leading =>
      obtain rfl := Option.some.inj ht
      exact (hwords _ (hleading second (by simp))).2.2

/-- Whether a statement that begins with the given tokens is read up to the first declared name,
with the flags and the base type that its declarators share, and then its declarators. -/
structure Introduces (memory : Memory) (inClass : Option String) (specified : List Token)
    (flags : Flags) (base : NativeType) :
    Prop where
  shared : sharedType base = base
  reads : ∀ {line declarator d operators name behind type rest},
    Declares inClass flags base declarator d operators name behind type →
      (member inClass).outcome line (specified ++ (declarator ++ rest)) memory =
        (declarators inClass flags type (specified ++ (declarator ++ rest))).outcome line
          (name :: (behind ++ rest)) memory

/-- All specifiers introduce flags and a base type. The class may not be called like the keyword
that is read as a type. -/
theorem IsSpecifiers.exists_introduces {specified : List Token} (h : IsSpecifiers memory specified)
    (hclass : inClass ≠ some "decltype") :
    ∃ flags base, Introduces memory inClass specified flags base := by
  obtain ⟨hwords, hleading, hbase, hhead, htrailing⟩ := h
  rename_i words leading run trailing base
  refine ⟨flagsOf words {},
    base.qualify (leading.any (·.text == "const") || trailing.any (·.text == "const"))
    (leading.any (·.text == "volatile") || trailing.any (·.text == "volatile")),
      hbase.unlayered.sharedType_qualify _ _, ?_⟩
  intro line declarator d operators name behind type rest h
  have htype := outcome_attempt
    (outcome_type_front hleading hbase (fun t ht => (hhead t ht).2.2) htrailing h.isOperators
    (h.isName.endsOperators _) (h.reads_operators line memory (name :: (behind ++ rest))
      (h.isName.endsOperators _)))
  obtain ⟨head, tail, htokens, ⟨hspecifier, hoperator⟩, ⟨hattribute, htilde⟩, hcall⟩ :=
    head_type hleading hbase (fun t ht => ⟨(hhead t ht).1, (hhead t ht).2.1⟩)
      (@head_trailing operators (behind ++ rest) trailing name htrailing h.isOperators h.isName)
  have hspecifiers := @outcome_specifiers_words line memory (head :: tail) words hwords fun t ht =>
    Option.some.inj ht ▸ ⟨hattribute, fun _ => hspecifier⟩
  have hconstructor : (inClass.isSome && ((head :: tail).head?.filter (·.kind == .identifier)).map
      Token.text == inClass &&
      (head :: tail)[1]?.any (·.text == "(")) = false := by
    rw [Bool.and_eq_false_iff]
    rcases hcall with hcall | hdecltype
    · right
      cases tail with
      | nil => rfl
      | cons second tail => simpa using hcall second rfl
    · left
      rw [Bool.and_eq_false_iff]
      cases inClass with
      | none => exact .inl rfl
      | some inClass =>
        right
        have hne : "decltype" ≠ inClass := fun h => hclass (congrArg some h.symm)
        cases hkind : head.kind == .identifier <;> simp [Option.filter_some, hkind, hdecltype, hne]
  have hstatement : words ++ (leading ++ (run ++ trailing)) ++ (declarator ++ rest) =
      words ++ head :: tail := by
    rw [← htokens, h.tokens_eq]
    simp
  have htaken : leading ++ (run ++ (trailing ++ (operators ++ name :: (behind ++ rest)))) =
    head :: tail := htokens
  rw [htaken] at htype
  rw [hstatement, member]
  simp only [outcome_bind, outcome_get, hspecifiers, outcome_identifier?, outcome_isAt,
    hconstructor]
  simp [htilde, hoperator, htype]

end Specifiers

section Statements

variable {specified first : List Token} {others : List (Token × List Token)}

/-- A statement is read as the variables that its declarators declare. -/
theorem outcome_member_declarators {d : Declaration} {ds : List Declaration} {semicolon : Token}
    (hspecified : Introduces memory inClass specified flags base)
    (hfirst : DeclaresVariable inClass flags base first d)
    (hcommas : ∀ other ∈ others, other.1.text = ",")
    (hothers : List.Forall₂ (fun other d => DeclaresVariable inClass flags base other.2 d)
      others ds)
    (hsemicolon : semicolon.text = ";") :
    (member inClass).outcome line
    (specified ++ (first ++ (furtherTokens others ++ semicolon :: rest))) memory =
      (.ok (d :: ds, rest), memory) := by
  obtain ⟨operators, name, behind, type, h⟩ := hfirst
  rw [hspecified.reads h, declarators_eq]
  exact (loops_declarators (h.shared.trans hspecified.shared) hsemicolon hcommas hothers
    h).outcome_loop

/-- A statement with several declarators declares what statements with one of them each declare, in
their order. -/
theorem member_declarators (hspecified : IsSpecifiers memory specified)
    (hclass : inClass ≠ some "decltype") (hfirst : IsDeclarator first)
    (hothers : ∀ other ∈ others, other.1.text = "," ∧ IsDeclarator other.2) :
    ∃ ds,
      List.Forall₂ (fun declarator d => ∀ line semicolon rest, semicolon.text = ";" →
          (member inClass).outcome line (specified ++ (declarator ++ semicolon :: rest)) memory =
            (.ok ([d], rest), memory))
        (first :: others.map Prod.snd) ds ∧
      ∀ line semicolon rest, semicolon.text = ";" →
        (member inClass).outcome line
          (specified ++ (first ++ (furtherTokens others ++ semicolon :: rest))) memory =
          (.ok (ds, rest), memory) := by
  obtain ⟨flags, base, hintroduces⟩ := hspecified.exists_introduces hclass
  obtain ⟨ds, hds⟩ := exists_declaresVariable (fun other hmem => (hothers other hmem).2) inClass
    flags base
  obtain ⟨d, hd⟩ := hfirst.exists_declares inClass flags base
  have halone : ∀ {declarator d}, DeclaresVariable inClass flags base declarator d →
      ∀ line semicolon rest, semicolon.text = ";" →
          (member inClass).outcome line (specified ++ (declarator ++ semicolon :: rest)) memory =
          (.ok ([d], rest), memory) := by
    intro declarator d hdeclared line semicolon rest hsemicolon
    have hone := @outcome_member_declarators line memory inClass flags base rest specified
      declarator [] d [] semicolon
      hintroduces hdeclared nofun .nil hsemicolon
    simpa [furtherTokens] using hone
  refine ⟨d :: ds, .cons (halone hd) ?_, fun line semicolon rest hsemicolon => ?_⟩
  · rw [List.forall₂_map_left_iff]
    exact hds.imp fun _ _ hother => halone hother
  · exact outcome_member_declarators hintroduces hd (fun other hmem => (hothers other hmem).1) hds
      hsemicolon

/-- A declaration of two variables of a constant type, of which one is a pointer and one has
bounds. -/
theorem member_declarators_mixed :
    ∃ specified first others,
      specified = [Token.word "static", .word "const", .word "A", .mark "::", .word "B", .mark "<",
        .word "int", .mark ",", ⟨.number, "3", 1⟩, .mark ">"] ∧
      first = [Token.mark "*", .word "const", .word "p", .mark "[", ⟨.number, "2", 1⟩, .mark "]"] ∧
      others = [(Token.mark ",", [Token.mark "&", .word "q", .mark "=", .word "f", .mark "(",
          .word "a", .mark ",", .word "b", .mark ")"]),
        (.mark ",", [.word "r", .mark ":", ⟨.number, "3", 1⟩])] ∧
      ∃ ds,
        List.Forall₂ (fun declarator d => ∀ line semicolon rest, semicolon.text = ";" →
            (member none).outcome line (specified ++ (declarator ++ semicolon :: rest)) {} =
              (.ok ([d], rest), {}))
          (first :: others.map Prod.snd) ds ∧
        ∀ line semicolon rest, semicolon.text = ";" →
          (member none).outcome line
            (specified ++ (first ++ (furtherTokens others ++ semicolon :: rest))) {} =
            (.ok (ds, rest), {}) := by
  have hbase : IsBase {} [.word "A", .mark "::", .word "B", .mark "<", .word "int", .mark ",",
      ⟨.number, "3", 1⟩, .mark ">"]
      (.applied "A::B" [.builtin .int, .unexposed "3"]) :=
        ⟨.of_plain (by decide), by decide, fun _ => rfl⟩
  have hspecified := @IsSpecifiers.mk {} [.word "static"] [.word "const"] _ [] _ (by decide)
    (by decide) hbase (by decide) nofun
  have hname : ∀ name ∈ ["p", "q", "r"], IsVariableName (.word name) := by
    have hall : ∀ name ∈ ["p", "q", "r"], (Token.word name).Simple ∧ name ≠ "operator" ∧
        name ∉ builtinWords ∧ ¬IsQualifier (.word name) := by decide
    exact fun name hmem => ⟨rfl, (hall name hmem).1, (hall name hmem).2.1, (hall name hmem).2.2⟩
  have hfirst := IsDeclarator.mk (@Operators.pointer (.mark "*") [.word "const"] [] rfl
    (by decide) .nil) (hname "p" (by decide))
    (@Bounds.cons (.mark "[") (.mark "]") [⟨.number, "2", 1⟩] [] rfl rfl
      (.of_plain (by decide)) .nil) .none .none
  have hcall : Bracketed (fun t => t.text ∉ [",", ";"]) [.word "f", .mark "(", .word "a",
      .mark ",", .word "b", .mark ")"] :=
    .plain (by decide) (by decide) (@Bracketed.group _ (.mark "(") (.mark ")") [.word "a",
      .mark ",", .word "b"] [] (by decide)
      (by decide) (.of_plain (by decide)) .nil)
  have hsecond := IsDeclarator.mk (@Operators.reference (.mark "&") [] (.inl rfl) .nil)
    (hname "q" (by decide)) .nil .none
    (@Initializer.value (.mark "=") _ rfl hcall)
  have hthird := IsDeclarator.mk .nil (hname "r" (by decide)) .nil
    (@Width.some (.mark ":") [⟨.number, "3", 1⟩] rfl (.of_plain (by decide))) .none
  refine ⟨_, _, _, rfl, rfl, rfl,
    member_declarators hspecified (by decide) hfirst fun other hother => ?_⟩
  rw [List.mem_cons, List.mem_singleton] at hother
  rcases hother with rfl | rfl
  · exact ⟨rfl, hsecond⟩
  · exact ⟨rfl, hthird⟩

/-- Whether a statement with two declarators declares what two statements with one of them each
declare. -/
def Splits (inClass : Option String) (specified first second : List Token) : Prop :=
  ∃ ds ds',
    (member inClass).outcome 0 (specified ++ (first ++ [.mark ";"])) {} = (.ok (ds, []), {}) ∧
    (member inClass).outcome 0 (specified ++ (second ++ [.mark ";"])) {} = (.ok (ds', []), {}) ∧
    (member inClass).outcome 0 (specified ++ (first ++ .mark "," :: (second ++ [.mark ";"]))) {} =
      (.ok (ds ++ ds', []), {})

/-- A list of declarators is not the sum of its parts where what is read at once differs from what
was meant: a base type that the reader does not take to its end, a specifier behind a qualifier,
words of types or qualifiers where a name stands, and a type that looks like a constructor. -/
theorem not_splits :
    ¬Splits none [.word "A", .mark "<", .word "int", .mark ">", .mark "::", .word "B", .mark "::",
      .word "C"] [.word "x"]
        [.word "y"] ∧
      ¬Splits none [.word "const", .word "static", .word "int"] [.word "x"] [.word "y"] ∧
      ¬Splits none [.word "int"] [.word "x"] [.word "long"] ∧
      ¬Splits none [.word "int"] [.word "x"] [.word "const"] ∧
      ¬Splits none [.word "int"] [.mark "&", .word "const", .word "x"] [.word "y"] ∧
      ¬Splits (some "decltype") [.word "decltype", .mark "(", .word "a",
          .mark ")"] [.word "x"] [.word "y"] := by
  refine ⟨?_, ?_, ?_, ?_, ?_, fun ⟨_, _, h, _⟩ => nomatch h⟩
  all_goals
    rintro ⟨ds, ds', h, h', hboth⟩
    cases h
    cases h'
    cases hboth

end Statements

end Interop.Header.Parser
