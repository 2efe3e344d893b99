import Interop.Proofs.Header.Grammar
import Interop.Proofs.Header.TypeReading

namespace Interop.Header

open Token

variable {free : String → Bool} {line : Nat} {rest tokens : List Token} {memory : Memory}
    {t : Token}

/-- The marks that end values, and those that open and close brackets. -/
def valueEnds : List String :=
  [",", ";", ")", "\x7d", "(", "[", "\x7b", "]"]

/-- The tokens before a stop are a run, unless one of them ends values. -/
theorem Token.runUntil_append {stops : List String} {run : List Token}
    (hrun : ∀ t ∈ run, t.text ∉ valueEnds) (hstops : ∀ stop ∈ stops, stop ∈ valueEnds)
    (ht : t.text ∈ stops) :
    runUntil stops 0 (run ++ t :: rest) = some (run, t :: rest) := by
  induction run with
  | nil => simp [runUntil, ht]
  | cons first run ih =>
    have hfirst := hrun first List.mem_cons_self
    have hstop : first.text ∉ stops := fun hmem => hfirst (hstops _ hmem)
    have hopening : isOpening first.text = false := by
      simp only [valueEnds, List.mem_cons, not_or] at hfirst
      simp [isOpening, hfirst]
    have hclosing : isClosing first.text = false := by
      simp only [valueEnds, List.mem_cons, not_or] at hfirst
      simp [isClosing, hfirst]
    simp [runUntil, hstop, hopening, hclosing, ih fun t ht => hrun t (List.mem_cons_of_mem _ ht)]

/-- No mark that ends values is a literal. -/
theorem Literal.text_notMem (l : Literal) : l.text ∉ valueEnds := by
  intro hmem
  have hnone : ∀ mark ∈ valueEnds, ∀ kind, Lexeme.literal? kind mark.toList = none := by
    intro mark hmark kind
    revert mark
    cases kind <;> decide
  have h := l.isLiteral
  rw [hnone _ hmem] at h
  cases h

/-- No name is a mark. -/
theorem Name.text_notMem (n : Name free) {marks : List String}
    (h : ∀ mark ∈ marks, Lexeme.isName mark.toList = false) :
    n.text ∉ marks := by
  intro hmem
  have := h _ hmem
  rw [n.isName] at this
  cases this

/-- A name is spelled as it is written. -/
theorem ScopedName.spell_tokens (n : ScopedName free) : Token.spell n.tokens = n.text := by
  obtain ⟨first, parts⟩ := n
  induction parts generalizing first with
  | nil => rfl
  | cons part parts ih =>
    have htail := ih part
    have hgap : first.text ≠ "," := by
      have := first.text_notMem (show ∀ mark ∈ [","], Lexeme.isName mark.toList = false by decide)
      simpa using this
    simp only [tokens, text, List.map_cons, List.flatMap_cons, String.intercalate_cons_cons,
      List.cons_append, List.nil_append] at htail ⊢
    rw [spell, spell, htail]
    simp [gap, isWord, hgap, String.append_assoc]

namespace Value

/-- A value is spelled as it is written. -/
theorem spell_tokens (v : Value) : Token.spell v.tokens = v.text := by
  match v with
  | .literal l => rfl
  | .name false n => simpa [tokens, text] using n.spell_tokens
  | .name true n =>
    have hname := n.spell_tokens
    simp only [ScopedName.tokens] at hname
    simp [tokens, text, ScopedName.tokens, spell, hname, gap, isWord]

/-- No token of a value ends one. -/
theorem tokens_apart (v : Value) : ∀ t ∈ v.tokens, t.text ∉ valueEnds := by
  have hname : ∀ n : Name fun _ => true, n.text ∉ valueEnds := fun n => n.text_notMem (by decide)
  have hcolons : "::" ∉ valueEnds := by decide
  match v with
  | .literal l => simpa [tokens] using l.text_notMem
  | .name isRooted n =>
    have hall : ∀ t ∈ n.tokens, t.text ∉ valueEnds := by
      intro t ht
      rcases List.mem_cons.mp ht with rfl | ht
      · exact hname n.first
      · obtain ⟨part, -, ht⟩ := List.mem_flatMap.mp ht
        rw [List.mem_cons, List.mem_singleton] at ht
        rcases ht with rfl | rfl
        · exact hcolons
        · exact hname part
    cases isRooted with
    | false => simpa [tokens] using hall
    | true => simpa [tokens, hcolons] using hall

end Value

theorem Flags.union_empty (f : Flags) : f.union {} = f := by
  simp [Flags.union]

namespace FunctionMarks

/-- What is said behind the parameters of a function. -/
def flagsBehind (m : FunctionMarks) : Flags where
  isConst := m.isConst
  isPure := m.isPure
  isVirtual := m.isPure

/-- What is said in front of a function. -/
def flagsBefore (m : FunctionMarks) : Flags where
  isStatic := m.isStatic
  isVirtual := m.isVirtual

theorem union_flagsBefore (m : FunctionMarks) : m.flagsBehind.union m.flagsBefore = m.flags := by
  simp [flagsBehind, flagsBefore, flags, Flags.union, Bool.or_comm]

end FunctionMarks

namespace Parser

/-- A value is taken up to the mark that ends it. -/
theorem outcome_upTo (v : Value) {stops : List String} (hstops : ∀ stop ∈ stops, stop ∈ valueEnds)
    (ht : t.text ∈ stops) :
    (upTo stops).outcome line
    (v.tokens ++ t :: rest) memory = (.ok (v.tokens, t :: rest), memory) :=
  outcome_takeRun (Token.runUntil_append v.tokens_apart hstops ht)

/-- The attributes in front of what is none are none. -/
theorem outcome_skipAttributes (h : ∀ t ∈ tokens.head?, t.text ≠ "[[") :
    skipAttributes.outcome line tokens memory = (.ok ((), tokens), memory) := by
  have hnext : tokens.head?.any (·.text == "[[") = false := by
    cases tokens <;> simp_all
  exact Loops.outcome_loop (.done (by simp [hnext, done]))

theorem outcome_decayedArrays (type : NativeType) (h : ∀ t ∈ tokens.head?, t.text ≠ "[") :
    (decayedArrays type).outcome line tokens memory = (.ok (type, tokens), memory) := by
  have hnext : tokens.head?.any (·.text == "[") = false := by
    cases tokens <;> simp_all
  exact Loops.outcome_loop (.done (by simp [hnext, done]))

theorem outcome_arrayBounds (type : NativeType) (h : ∀ t ∈ tokens.head?, t.text ≠ "[") :
    (arrayBounds type).outcome line tokens memory = (.ok (type, tokens), memory) := by
  have hnext : tokens.head?.any (·.text == "[") = false := by
    cases tokens <;> simp_all
  exact Loops.outcome_loop (.done (by simp [hnext, done]))

/-- A type that is not followed by a bracket is no function pointer. -/
theorem outcome_functionPointer? (result : NativeType) (h : ∀ t ∈ tokens.head?, t.text ≠ "(") :
    (functionPointer? result).outcome line tokens memory = (.ok (none, tokens), memory) := by
  have hnext : tokens.head?.any (·.text == "(") = false := by
    cases tokens <;> simp_all
  simp [functionPointer?, hnext]

theorem typeWords_of_isUnreserved {name : String} (h : isUnreserved name = true) :
    name ∉ typeWords := by
  intro hmem
  have hreserved : reservedWords.contains name = true := by
    exact List.contains_iff_mem.mpr (List.mem_append_left _ hmem)
  rw [isUnreserved, hreserved] at h
  cases h

theorem ne_of_isName {name mark : String} (hname : Lexeme.isName name.toList = true)
    (hmark : Lexeme.isName mark.toList = false) : name ≠ mark := by
  rintro rfl
  rw [hname] at hmark
  cases hmark

/-- A type of the grammar is taken. -/
theorem outcome_coreType (type : CoreType) (hrest : EndsType rest)
    (haliases : memory.aliases = []) :
    Parser.type.outcome line (type.tokens ++ rest) memory = (.ok (type.native, rest), memory) :=
  outcome_type (fun _ => typeWords_of_isUnreserved) type rest hrest line memory haliases

/-- A word ends a type. -/
theorem endsType_word (name : Identifier) (tokens : List Token) :
    EndsType (.word name.text :: tokens) := by
  intro t ht
  obtain rfl := Option.some.inj ht
  exact ⟨typeWords_of_isUnreserved name.isFree, name.text_notMem (by decide)⟩

/-- What stands behind a name is an equals sign or what follows the initializer. -/
theorem exists_behind (value? : Option Value) (t : Token) (rest : List Token) :
    ∃ first tail, Value.initializerTokens value? ++ t :: rest = first :: tail ∧
      (first = .mark "=" ∨ first = t) := by
  cases value? with
  | none => exact ⟨t, rest, rfl, .inr rfl⟩
  | some v => exact ⟨_, _, rfl, .inl rfl⟩

/-- What is taken behind the declarator of a parameter. -/
def parameterDefault (name : String) (type : NativeType) : Parser Parameter := do
  let default? ←
    if ← eat "=" then
      let run ← upTo [",", ")"]
      pure (some (Token.spell run))
    else pure none
  return { name, type, default? }

/-- What is taken behind the type of a parameter. -/
def parameterBehind (written : NativeType) : Parser Parameter := do
  let (name, type) ← match ← functionPointer? written with
    | some pointer => pure pointer
    | none =>
      match ← identifier? with
      | some name =>
        advance 1
        pure (name, written)
      | none => pure ("", written)
  parameterDefault name (← decayedArrays type)

theorem parameter_eq :
    parameter = (do
      if ← eat "..." then return { name := "", type := .unexposed "..." }
      skipAttributes
      parameterBehind (← type)) :=
  rfl

/-- The default of a parameter is read back. -/
theorem outcome_parameterDefault (name : String) (type : NativeType) (default? : Option Value)
    (ht : t.text ∈ [",", ")"]) :
    (parameterDefault name type).outcome line
    (Value.initializerTokens default? ++ t :: rest) memory =
      (.ok ({ name, type, default? := default?.map Value.text }, t :: rest), memory) := by
  cases default? with
  | none =>
    have hequals : t.text ≠ "=" := by
      rintro heq
      rw [heq] at ht
      revert ht
      decide
    simp [parameterDefault, Value.initializerTokens, hequals]
  | some v =>
    simp [parameterDefault, Value.initializerTokens, outcome_upTo v (by decide) ht, v.spell_tokens]

theorem outcome_parameterBehind (p : CoreParameter) (ht : t = .mark "," ∨ t = .mark ")") :
    (parameterBehind p.type.native).outcome line
    (p.name?.elim [] (fun name => [Token.word name.text]) ++
      (Value.initializerTokens p.default? ++ t :: rest)) memory = (.ok (p.parameter, t :: rest),
          memory) := by
  obtain ⟨first, tail, hbehind, hfirst⟩ := exists_behind p.default? t rest
  have hmark : first.kind = .mark ∧ first.text ≠ "[" ∧ first.text ≠ "(" := by
    rcases hfirst with rfl | rfl
    · decide
    · rcases ht with rfl | rfl <;> decide
  have htext : t.text ∈ [",", ")"] := by
    rcases ht with rfl | rfl <;> decide
  have harrays := @outcome_decayedArrays line (first :: tail) memory p.type.native (by simp [hmark])
  have hdefault := fun name =>
    @outcome_parameterDefault line rest memory t name p.type.native p.default? htext
  rw [hbehind] at hdefault ⊢
  cases hname : p.name? with
  | none =>
    have hpointer := @outcome_functionPointer? line (first :: tail) memory p.type.native
      (by simp [hmark])
    simp [parameterBehind, hpointer, Option.filter_some, hmark, harrays, hdefault,
      CoreParameter.parameter, hname]
  | some name =>
    have hparenthesis : name.text ≠ "(" := by
      simpa using name.text_notMem (show ∀ mark ∈ ["("],
        Lexeme.isName mark.toList = false by decide)
    have hpointer := @outcome_functionPointer? line (.word name.text :: first :: tail) memory
      p.type.native
      (by simp [hparenthesis])
    simp [parameterBehind, hpointer, Option.filter_some, harrays, hdefault,
      CoreParameter.parameter, hname]

/-- A parameter is taken up to the mark behind it. -/
theorem outcome_parameter (p : CoreParameter) (ht : t = .mark "," ∨ t = .mark ")")
    (haliases : memory.aliases = []) :
    parameter.outcome line (p.tokens ++ t :: rest) memory = (.ok (p.parameter, t :: rest),
      memory) := by
  obtain ⟨head, tail, htokens, hname, -⟩ := PlainType.exists_tokens p.type
  have hapart : ∀ mark, Lexeme.isName mark.toList = false → head ≠ mark := by
    rintro mark hmark rfl
    rw [hname] at hmark
    cases hmark
  have hends : EndsType (p.name?.elim [] (fun name => [Token.word name.text]) ++
      (Value.initializerTokens p.default? ++ t :: rest)) := by
    cases p.name? with
    | some name => exact endsType_word name _
    | none => 
      obtain ⟨first, tail, hbehind, hfirst⟩ := exists_behind p.default? t rest
      rw [hbehind]
      rcases hfirst with rfl | rfl
      · exact endsType_mark (by decide) tail
      · rcases ht with rfl | rfl <;> exact endsType_mark (by decide) tail
  have htype := @outcome_coreType line _ memory p.type hends haliases
  rw [CoreParameter.tokens, List.append_assoc, List.append_assoc, parameter_eq]
  have hbehind := @outcome_parameterBehind line rest memory t p ht
  have hattributes := @outcome_skipAttributes line
      (.word head :: (tail ++ (p.name?.elim [] (fun name => [Token.word name.text]) ++
      (Value.initializerTokens p.default? ++ t :: rest)))) memory
        (by simpa using hapart _ (by decide))
  rw [htokens] at htype ⊢
  rw [List.cons_append] at htype ⊢
  have hdots : head ≠ "..." := hapart _ (by decide)
  simp only [outcome_bind, outcome_eat, List.head?_cons, Option.any_some, beq_iff_eq, word_text,
    hdots, if_false]
  simp only [Bool.false_eq_true, if_false, outcome_bind, hattributes, htype, hbehind]

/-- A type whose only token is `void` is plain `void`. -/
theorem isVoid_of_tokens {type : CoreType} (h : type.tokens = [.word "void"]) :
    type.native.isVoid = true := by
  obtain ⟨base, outer, stars⟩ := type
  obtain ⟨name, tail, htokens, -⟩ := BaseType.exists_tokens base
  rw [PlainType.tokens, htokens, List.append_assoc] at h
  obtain ⟨hhead, htail⟩ := List.cons.inj h
  obtain ⟨rfl, hlayers⟩ := List.append_eq_nil_iff.mp htail
  obtain ⟨houter, hstars⟩ := List.append_eq_nil_iff.mp hlayers
  have hnone : stars = [] := by
    cases stars with
    | nil => rfl
    | cons l stars => cases hstars
  have hplain : outer = {} := by
    obtain ⟨isConst, isVolatile, reference?⟩ := outer
    cases isConst <;> cases isVolatile <;> rcases reference? with - | (- | -) <;>
      first | rfl | cases houter
  have hbase : base = .builtin .void := by
    rw [hhead] at htokens
    have hkind : ∀ kind, builtinTokens kind = [.word "void"] → kind = .void := by
      intro kind
      cases kind <;> decide
    cases base with
    | builtin kind =>
      rw [BaseType.tokens] at htokens
      rw [hkind kind htokens]
    | named n =>
      rw [BaseType.tokens, ScopedName.tokens] at htokens
      have hfirst : n.first.text = "void" := congrArg Token.text (List.cons.inj htokens).1
      exact absurd (typeWords_of_isUnreserved n.first.isFree) (by rw [hfirst]; decide)
    | applied template arguments =>
      rw [BaseType.tokens, ScopedName.tokens] at htokens
      simp at htokens
  rw [hnone, hplain, hbase]
  rfl

/-- A parameter begins with a word and is not the word `void` alone. -/
theorem exists_parameterTokens (p : CoreParameter) : ∃ head tail, p.tokens = .word head :: tail ∧
    Lexeme.isName head.toList = true ∧ (head = "void" → tail ≠ []) ∧
      ∀ t ∈ tail.head?, t.text ≠ ")" := by
  obtain ⟨head, tail, htokens, hname, -, hsecond⟩ := PlainType.exists_tokens p.type
  refine ⟨head, _, by rw [CoreParameter.tokens, htokens, List.append_assoc]; rfl, hname, ?_, ?_⟩
  · rintro rfl hnil
    have hvoid := isVoid_of_tokens (htokens.trans (congrArg _ (List.append_eq_nil_iff.mp hnil).1))
    rw [p.isProper] at hvoid
    cases hvoid
  · intro t ht
    cases tail with
    | cons second tail =>
      obtain rfl := Option.some.inj ht
      simpa using fun h => hsecond _ rfl (by simp [h])
    | nil =>
      cases hname : p.name? with
      | some name =>
        rw [hname] at ht
        obtain rfl := Option.some.inj ht
        simpa using name.text_notMem (show ∀ mark ∈ [")"],
          Lexeme.isName mark.toList = false by decide)
      | none =>
        rw [hname] at ht
        cases hdefault : p.default? with
        | none =>
          rw [hdefault] at ht
          cases ht
        | some v =>
          rw [hdefault] at ht
          obtain rfl := Option.some.inj ht
          decide

theorem exists_intercalate (separator list : List Token) (lists : List (List Token)) :
    ∃ behind, separator.intercalate (list :: lists) = list ++ behind := by
  cases lists with
  | nil => exact ⟨[], by simp⟩
  | cons next lists => exact ⟨_, by rw [List.intercalate_cons_cons, List.append_assoc]⟩

/-- One repetition of `parameters`. -/
def parameterStep (found : List Parameter) : Parser (List Parameter ⊕ List Parameter) := do
  let p ← parameter
  if ← eat "," then again (p :: found)
  else
    expect ")"
    done (p :: found).reverse

theorem parameters_eq :
    parameters = (do
      expect "("
      if ← eat ")" then return []
      if (← isNext "void") && (← isAt 1 ")") then
        advance 2
        return []
      loop [] parameterStep) :=
  rfl

theorem loops_parameters (first : CoreParameter) (more : List CoreParameter)
    (haliases : memory.aliases = []) (found : List Parameter) :
    Loops parameterStep line (found.reverse ++ (first :: more).map (·.parameter)) rest memory found
      ([Token.mark ","].intercalate ((first :: more).map (·.tokens)) ++ .mark ")" ::
          rest) memory := by
  induction more generalizing first found with
  | nil =>
    have hfirst := @outcome_parameter line rest memory _ first (.inr rfl) haliases
    refine .done ?_
    simp [parameterStep, hfirst, done]
  | cons next more ih =>
    have hnext := ih next (first.parameter :: found)
    have hfirst := @outcome_parameter line
      ([Token.mark ","].intercalate ((next :: more).map (·.tokens)) ++
      .mark ")" :: rest) memory _ first (.inl rfl) haliases
    rw [List.reverse_cons, List.append_assoc] at hnext
    simp only [List.map_cons, List.intercalate_cons_cons, List.append_assoc,
      List.singleton_append] at hnext hfirst ⊢
    refine .again ?_ ?_ hnext
    · simp [parameterStep, hfirst, again]
    · simp
      omega

/-- A parameter list is taken with its parentheses. -/
theorem outcome_parameters (ps : List CoreParameter) (haliases : memory.aliases = []) :
    parameters.outcome line (CoreParameter.tokenList ps ++ rest) memory =
      (.ok (ps.map (·.parameter), rest), memory) := by
  rw [parameters_eq, CoreParameter.tokenList]
  cases ps with
  | nil => simp
  | cons first more =>
    obtain ⟨behind, hbehind⟩ := exists_intercalate [.mark ","] first.tokens (more.map (·.tokens))
    obtain ⟨head, tail, htokens, hname, hvoid, hsecond⟩ := exists_parameterTokens first
    have hloops := @loops_parameters line rest memory first more haliases []
    have hclosing : head ≠ ")" := by
      rintro rfl
      cases hname
    have hlist : [Token.mark ","].intercalate ((first :: more).map (·.tokens)) =
        .word head :: (tail ++ behind) := by
      rw [List.map_cons, hbehind, htokens]
      rfl
    rw [hlist, List.reverse_nil, List.nil_append] at hloops
    have htaken := hloops.outcome_loop
    rw [hlist]
    simp only [List.cons_append, List.append_assoc, List.nil_append] at htaken ⊢
    by_cases hhead : head = "void"
    · obtain ⟨second, more, rfl⟩ := List.exists_cons_of_ne_nil (hvoid hhead)
      have hnext : second.text ≠ ")" := hsecond second rfl
      simp only [List.cons_append] at htaken ⊢
      simp [hclosing, htaken, hnext]
    · simp [hclosing, htaken, hhead]

/-- One repetition of `functionTail`. -/
def tailStep (d : Declaration) : Parser (Declaration ⊕ Declaration) := do
  match ← text with
  | "const" =>
    advance 1
    again { d with flags := { d.flags with isConst := true } }
  | "noexcept" | "throw" =>
    advance 1
    if ← isNext "(" then discard <| balanced "(" ")"
    again d
  | "override" =>
    advance 1
    again { d with flags := { d.flags with isVirtual := true } }
  | "final" | "volatile" | "&" | "&&" =>
    advance 1
    again d
  | "->" =>
    advance 1
    let result ← type
    again { d with returnType? := some result }
  | "=" =>
    advance 1
    match (← next).text with
    | "0" => again { d with flags := { d.flags with isPure := true, isVirtual := true } }
    | "default" => again { d with flags := { d.flags with isDefaulted := true } }
    | "delete" => again { d with flags := { d.flags with isDeleted := true } }
    | _ => again d
  | ":" =>
    advance 1
    skipInitializers
    again d
  | "\x7b" =>
    discard <| balanced "\x7b" "\x7d"
    discard <| eat ";"
    done { d with flags := { d.flags with isDefinition := true } }
  | ";" =>
    advance 1
    done d
  | _ => failFound .malformedFunction

/-- What stands behind the parameters of a function is taken up to its semicolon. -/
theorem outcome_functionTail (m : FunctionMarks) {d : Declaration} (hflags : d.flags = {}) :
    (functionTail d).outcome line
    (m.tokensBehind ++ rest) memory = (.ok ({ d with flags := m.flagsBehind }, rest), memory) := by
  have hend : ∀ d : Declaration, Loops tailStep line d rest memory d (.mark ";" :: rest) memory :=
    fun d => .done (by simp [tailStep, done])
  have hpure : ∀ d : Declaration, Loops tailStep line
      { d with flags := d.flags.union { isPure := m.isPure, isVirtual := m.isPure } } rest memory d
      ((if m.isPure then [Token.mark "=", ⟨.number, "0", 1⟩] else []) ++ Token.mark ";" ::
          rest) memory := by
    intro d
    cases m.isPure with
    | false =>
      rw [Flags.union_empty]
      cases d
      exact hend _
    | true =>
      refine .again ?_ ?_ (hend _)
      · simp [tailStep, again, Flags.union]
      · simp
  have hconst : Loops tailStep line
      { d with
        flags := (d.flags.union { isConst := m.isConst }).union
          { isPure := m.isPure, isVirtual := m.isPure } }
      rest memory d (m.tokensBehind ++ rest) memory := by
    rw [FunctionMarks.tokensBehind, List.append_assoc, List.append_assoc]
    cases m.isConst with
    | false =>
      rw [Flags.union_empty]
      cases d
      exact hpure _
    | true =>
      refine .again ?_ ?_ (hpure { d with flags := d.flags.union { isConst := true } })
      · simp [tailStep, again, Flags.union]
      · simp
  have hall : (d.flags.union { isConst := m.isConst }).union
      { isPure := m.isPure, isVirtual := m.isPure } = m.flagsBehind := by
    simp [hflags, Flags.union, FunctionMarks.flagsBehind]
  rw [← hall]
  exact hconst.outcome_loop

/-- The parameters and the marks of a function are read back. -/
theorem outcome_functionRest (m : FunctionMarks) (ps : List CoreParameter) {d : Declaration}
    (hflags : d.flags = {}) (haliases : memory.aliases = []) :
    (functionRest d m.flagsBefore).outcome line
    (CoreParameter.tokenList ps ++ (m.tokensBehind ++ rest)) memory =
      (.ok ({ d with parameters := ps.map (·.parameter), flags := m.flags }, rest), memory) := by
  simp [functionRest, outcome_parameters ps haliases, outcome_functionTail, hflags, withFlags,
    m.union_flagsBefore]

/-- Whether no specifier and no attribute is next. -/
def NoSpecifier (tokens : List Token) : Prop :=
  ∀ t ∈ tokens.head?, t.text ≠ "[[" ∧ (t.kind = .identifier → specifier? t.text = none)

/-- One repetition of `specifiers`. -/
def specifierStep (flags : Flags) : Parser (Flags ⊕ Flags) := do
  if ← isNext "[[" then
    skipAttribute
    again flags
  else
    match (← identifier?).bind specifier? with
    | some flag =>
      advance 1
      again (flags.union flag)
    | none => done flags

/-- Where no specifier is next, the specifiers end. -/
theorem specifierStep_of_noSpecifier (hrest : NoSpecifier rest) (flags : Flags) :
    (specifierStep flags).outcome line rest memory = (.ok (.inr flags, rest), memory) := by
  cases rest with
  | nil => simp [specifierStep, done]
  | cons t rest =>
    obtain ⟨hattribute, hnone⟩ := hrest t rfl
    by_cases hkind : t.kind = .identifier
    · simp [specifierStep, done, hattribute, hkind, hnone, Option.filter_some]
    · simp [specifierStep, done, hattribute, hkind, Option.filter_some]

/-- The specifiers in front of a function are taken. -/
theorem outcome_specifiers (m : FunctionMarks) (hrest : NoSpecifier rest) :
    specifiers.outcome line (m.tokensBefore ++ rest) memory = (.ok (m.flagsBefore, rest),
      memory) := by
  have hend : ∀ flags, Loops specifierStep line flags rest memory flags rest memory :=
    fun flags => .done (specifierStep_of_noSpecifier hrest flags)
  have hvirtual : ∀ flags :
      Flags, Loops specifierStep line (flags.union { isVirtual := m.isVirtual }) rest memory flags
      ((if m.isVirtual then [Token.word "virtual"] else []) ++ rest) memory := by
    intro flags
    cases m.isVirtual with
    | false => simpa [Flags.union] using hend flags
    | true =>
      refine .again ?_ ?_ (hend _)
      · simp [specifierStep, again, Option.filter_some, specifier?]
      · simp
  have hstatic : Loops specifierStep line (({} : Flags).union { isStatic := m.isStatic } |>.union
      { isVirtual := m.isVirtual })
      rest memory {} (m.tokensBefore ++ rest) memory := by
    rw [FunctionMarks.tokensBefore, List.append_assoc]
    cases m.isStatic with
    | false => exact hvirtual {}
    | true =>
      refine .again ?_ ?_ (hvirtual _)
      · simp [specifierStep, again, Option.filter_some, specifier?]
      · simp
  have hall : (({} : Flags).union { isStatic := m.isStatic }).union { isVirtual := m.isVirtual } =
      m.flagsBefore := by
    simp [Flags.union, FunctionMarks.flagsBefore]
  rw [← hall]
  exact hstatic.outcome_loop

/-- The words that begin declarations of other forms, and the access words. -/
def formWords : List String :=
  ["namespace", "template", "class", "struct", "union", "enum", "using", "typedef",
    "static_assert", "friend", "extern", "operator", "public", "protected", "private"]

/-- What a type or a declared name begins with is neither a specifier nor the beginning of another
form. -/
theorem word_apart {name : String} (h : name ∈ "std" :: builtinWords ∨ isUnreserved name = true) :
    specifier? name = none ∧ name ∉ formWords := by
  rcases h with h | h
  · revert h name
    decide
  · rw [isUnreserved, Bool.and_eq_true, Bool.not_eq_true', Bool.not_eq_true'] at h
    have hreserved : name ∉ reservedWords := by simpa using h.1
    constructor
    · unfold specifier?
      split
      all_goals first | exact absurd (by decide) hreserved | simp [h.2]
    · have hsub : ∀ word ∈ formWords, word ∈ reservedWords := by decide
      exact fun hmem => hreserved (hsub name hmem)

/-- A type behind the specifiers of a member is taken, and then the declarators. -/
theorem outcome_member (inClass : Option String) (m : FunctionMarks) (type : CoreType)
    (name : Identifier) (haliases : memory.aliases = []) :
    (member inClass).outcome line
    (m.tokensBefore ++ (type.tokens ++ .word name.text :: rest)) memory =
      (declarators inClass m.flagsBefore type.native
        (m.tokensBefore ++ (type.tokens ++ .word name.text :: rest))).outcome
        line (.word name.text :: rest) memory := by
  obtain ⟨head, tail, htokens, hname, hfree, hsecond⟩ := PlainType.exists_tokens type
  obtain ⟨hspecifier, hform⟩ := word_apart hfree
  have htype := outcome_attempt
    (@outcome_coreType line _ memory type (endsType_word name rest) haliases)
  have hspecifiers := @outcome_specifiers line (type.tokens ++ .word name.text :: rest) memory
      m <| by
    rw [htokens]
    intro t ht
    obtain rfl := Option.some.inj ht
    exact ⟨ne_of_isName hname (by decide), fun _ => hspecifier⟩
  have hoperator : head ≠ "operator" := by
    rintro rfl
    exact hform (by decide)
  obtain ⟨second, more, hmore, hcall⟩ : ∃ second more, tail ++ .word name.text :: rest =
      second :: more ∧ second.text ≠ "(" := by
    cases tail with
    | nil => exact ⟨_, _, rfl, ne_of_isName name.isName (by decide)⟩
    | cons second tail => exact ⟨second, _, rfl, fun h => hsecond second rfl (by simp [h])⟩
  rw [htokens, List.cons_append, hmore] at htype hspecifiers ⊢
  rw [member]
  simp only [outcome_bind, outcome_get, hspecifiers, outcome_identifier?, outcome_isAt]
  simp [ne_of_isName hname (show Lexeme.isName "~".toList = false by decide), hoperator, htype,
    hcall]

theorem outcome_initializer? (value? : Option Value) :
    initializer?.outcome line (Value.initializerTokens value? ++ .mark ";" :: rest) memory =
      (.ok (value?.map Value.text, .mark ";" :: rest), memory) := by
  cases value? with
  | none => simp [initializer?, Value.initializerTokens]
  | some v =>
    have hvalue := @outcome_upTo line rest memory (.mark ";") v [",", ";"] (by decide) (by decide)
    simp [initializer?, Value.initializerTokens, hvalue, v.spell_tokens]

/-- The value of a variable is read back. -/
theorem outcome_variableRest (inClass : Option String) (name : String) (type : NativeType)
    (flags : Flags) (value? : Option Value) :
    (variableRest inClass name type flags).outcome line
    (Value.initializerTokens value? ++ .mark ";" :: rest) memory =
      (.ok ({ kind := variableKind inClass, name, flags, type? := some type,
              value? := value?.map Value.text },
        .mark ";" :: rest), memory) := by
  obtain ⟨first, tail, hbehind, hfirst⟩ := exists_behind value? (.mark ";") rest
  have hmark : first.text ≠ "[" ∧ first.text ≠ ":" := by
    rcases hfirst with rfl | rfl <;> decide
  have hinitializer := @outcome_initializer? line rest memory value?
  have harrays := @outcome_arrayBounds line (first :: tail) memory type (by simp [hmark])
  rw [hbehind] at hinitializer ⊢
  simp [variableRest, harrays, hmark, hinitializer]

/-- A variable behind its type is taken. -/
theorem outcome_declarators_variable (inClass : Option String) (flags : Flags) (type : NativeType)
    (start : List Token) (name : Identifier) (value? : Option Value) :
    (declarators inClass flags type start).outcome line
        (.word name.text :: (Value.initializerTokens value? ++ .mark ";" :: rest)) memory =
      (.ok ([{
          kind := variableKind inClass, name := name.text, flags, type? := some type
          value? := value?.map Value.text }], rest), memory) := by
  have hvariable := @outcome_variableRest line rest memory inClass name.text type flags value?
  obtain ⟨first, tail, hbehind, hfirst⟩ := exists_behind value? (.mark ";") rest
  have hmark : first.text ≠ "::" ∧ first.text ≠ "(" := by
    rcases hfirst with rfl | rfl <;> decide
  have hpointer := @outcome_functionPointer? line (.word name.text :: first :: tail) memory
      type <| by
    simp [ne_of_isName name.isName (show Lexeme.isName "(".toList = false by decide)]
  have hoperator : name.text ≠ "operator" := fun h =>
    (word_apart (.inr name.isFree)).2 (by rw [h]; decide)
  rw [hbehind] at hvariable ⊢
  refine Loops.outcome_loop (.done ?_)
  simp [hoperator, hpointer, Option.filter_some, hmark, hvariable, endDeclaration, done]

/-- A function behind its type is taken. -/
theorem outcome_declarators_function (inClass : Option String) (m : FunctionMarks)
    (type : NativeType) (start : List Token) (name : Identifier) (ps : List CoreParameter)
    (haliases : memory.aliases = []) :
    (declarators inClass m.flagsBefore type start).outcome line
        (.word name.text :: (CoreParameter.tokenList ps ++ (m.tokensBehind ++ rest))) memory =
      (.ok ([{
          kind := functionKind inClass, name := name.text, flags := m.flags, returnType? :=
            some type
          parameters := ps.map (·.parameter) }], rest), memory) := by
  have hpointer := @outcome_functionPointer? line
    (.word name.text :: (CoreParameter.tokenList ps ++ (m.tokensBehind ++ rest))) memory type <| by
    simp [ne_of_isName name.isName (show Lexeme.isName "(".toList = false by decide)]
  have hoperator : name.text ≠ "operator" := fun h =>
    (word_apart (.inr name.isFree)).2 (by rw [h]; decide)
  have hrest := @outcome_functionRest line rest memory m ps
    { kind := functionKind inClass, name := name.text, returnType? := some type } rfl haliases
  obtain ⟨inside, hinside⟩ : ∃ inside, CoreParameter.tokenList ps ++ (m.tokensBehind ++ rest) =
      .mark "(" :: inside :=
    ⟨_, rfl⟩
  rw [hinside] at hpointer hrest ⊢
  refine Loops.outcome_loop (.done ?_)
  simp [hoperator, hpointer, Option.filter_some, hrest, done]

/-- A constructor is taken: the name of the class with parameters behind it. -/
theorem outcome_constructor (inClass : Identifier) (m : FunctionMarks) (ps : List CoreParameter)
    (haliases : memory.aliases = []) :
    (member (some inClass.text)).outcome line
        (m.tokensBefore ++ .word inClass.text ::
          (CoreParameter.tokenList ps ++ (m.tokensBehind ++ rest))) memory =
      (.ok ([{
          kind := .constructor, name := inClass.text, flags := m.flags
          parameters := ps.map (·.parameter) }], rest), memory) := by
  have hspecifiers := @outcome_specifiers line (.word inClass.text :: (CoreParameter.tokenList ps ++
      (m.tokensBehind ++ rest))) memory m <| by
    intro t ht
    obtain rfl := Option.some.inj ht
    exact ⟨ne_of_isName inClass.isName (by decide), fun _ => (word_apart (.inr inClass.isFree)).1⟩
  have hrest := @outcome_functionRest line rest memory m ps
    { kind := .constructor, name := inClass.text } rfl haliases
  obtain ⟨inside, hinside⟩ : ∃ inside, CoreParameter.tokenList ps ++ (m.tokensBehind ++ rest) =
      .mark "(" :: inside :=
    ⟨_, rfl⟩
  rw [hinside] at hspecifiers hrest ⊢
  rw [member]
  simp only [outcome_bind, outcome_get, hspecifiers, outcome_identifier?, outcome_isAt]
  simp [ne_of_isName inClass.isName (show Lexeme.isName "~".toList = false by decide), constructor,
    hrest, Option.filter_some]

/-- A destructor is taken. -/
theorem outcome_destructor (inClass : Option String) (m : FunctionMarks) (name : Identifier) :
    (member inClass).outcome line
        (m.tokensBefore ++ .mark "~" :: .word name.text :: .mark "(" :: .mark ")" ::
          (m.tokensBehind ++ rest)) memory =
      (.ok ([{ kind := .destructor, name := "~" ++ name.text, flags := m.flags }], rest),
          memory) := by
  have hspecifiers := @outcome_specifiers line (.mark "~" :: .word name.text :: .mark "(" ::
      .mark ")" ::
      (m.tokensBehind ++ rest)) memory m <| by
    intro t ht
    obtain rfl := Option.some.inj ht
    exact ⟨by decide, nofun⟩
  have htail := @outcome_functionTail line rest memory m
    { kind := .destructor, name := "~" ++ name.text } rfl
  have hparameters : (balanced "(" ")").outcome line
      (.mark "(" :: .mark ")" :: (m.tokensBehind ++ rest)) memory =
      (.ok ([], m.tokensBehind ++ rest), memory) := by
    have hrun : Token.balancedRun "(" ")" 0 (.mark ")" :: (m.tokensBehind ++ rest)) =
        some ([], m.tokensBehind ++ rest) := by
      simp [Token.balancedRun]
    simp [balanced, outcome_takeRun hrun]
  rw [member]
  simp only [outcome_bind, outcome_get, hspecifiers, outcome_identifier?, outcome_isAt]
  simp [destructor, hparameters, htail, withFlags, m.union_flagsBefore]

end Parser

end Interop.Header
