import Interop.Header.DeclarationSyntax
import Interop.Proofs.Header.MemberReading

namespace Interop.Header.Parser

open Token

variable {α : Type} {line : Nat} {rest tokens : List Token} {memory memory' : Memory} {t : Token}
    {inClass : Option String}
  {declaration : DeclarationParser}

/-- Whether a parser takes tokens up to the given rest. It may record definitions, but no
aliases. -/
def Gives (p : Parser α) (tokens : List Token) (a : α) (rest : List Token) : Prop :=
  ∀ line memory, memory.aliases = [] →
    ∃ memory', memory'.aliases = [] ∧ p.outcome line tokens memory = (.ok (a, rest), memory')

/-- Whether tokens begin like a member, and not like a declaration of another form. -/
def BeginsMember (tokens : List Token) : Prop :=
  ∃ first behind, tokens = first :: behind ∧ first.line = 1 ∧
    first.text ∉ "\x7d" :: ";" :: formWords

namespace BeginsMember

/-- A name that begins no form of its own begins a member. -/
theorem word {name : String} (hname : Lexeme.isName name.toList = true) (hform : name ∉ formWords)
    (tokens : List Token) :
    BeginsMember (.word name :: tokens) := by
  refine ⟨_, _, rfl, rfl, ?_⟩
  rw [List.mem_cons, List.mem_cons, not_or, not_or]
  exact ⟨ne_of_isName hname (by decide), ne_of_isName hname (by decide), hform⟩

/-- A type begins a member. -/
theorem type (type : CoreType) (tokens : List Token) : BeginsMember (type.tokens ++ tokens) := by
  obtain ⟨head, tail, htokens, hname, hfree, -⟩ := PlainType.exists_tokens type
  rw [htokens]
  exact word hname (word_apart hfree).2 (tail ++ tokens)

/-- Specifiers in front of a member still begin one. -/
theorem behindSpecifiers (h : BeginsMember tokens) (m : FunctionMarks) :
    BeginsMember (m.tokensBefore ++ tokens) := by
  rw [FunctionMarks.tokensBefore]
  cases m.isStatic
  · cases m.isVirtual
    · exact h
    · exact word (by decide) (by decide) tokens
  · exact word (by decide) (by decide) _

end BeginsMember

/-- What begins with no word of another form is read as a member. -/
theorem outcome_declarationForm_of_notMem {first : Token} (h : first.text ∉ formWords) :
    (declarationForm declaration inClass).outcome line (first :: tokens) memory =
      (member inClass).outcome line (first :: tokens) memory := by
  simp only [formWords, List.mem_cons, not_or] at h
  simp only [declarationForm, outcome_bind, outcome_text, List.head?_cons, Option.elim_some]
  split <;> simp_all

/-- What begins a member is read as one. -/
theorem outcome_declarationForm (h : BeginsMember tokens) :
    (declarationForm declaration inClass).outcome line tokens memory =
      (member inClass).outcome line tokens memory := by
  obtain ⟨first, behind, rfl, -, hform⟩ := h
  exact outcome_declarationForm_of_notMem fun hmem =>
    hform (List.mem_cons_of_mem _ (List.mem_cons_of_mem _ hmem))

/-- A member begins in the line of its first token. -/
theorem gives_member {d : Declaration} (h : BeginsMember tokens)
    (hmember : ∀ line memory, memory.aliases = [] →
      (member inClass).outcome line tokens memory = (.ok ([{ d with line := 0 }], rest),
        memory)) (hline : d.line = 1) :
    Gives (declarationWith declaration inClass) tokens [d] rest := by
  intro line memory haliases
  have hform := @outcome_declarationForm line tokens memory inClass declaration h
  rw [hmember line memory haliases] at hform
  obtain ⟨first, behind, rfl, hfirst, -⟩ := h
  refine ⟨memory, haliases, ?_⟩
  cases d
  simp_all [declarationWith]

/-- A builtin type without qualifiers. -/
theorem outcome_builtinType (kind : Builtin) (hrest : EndsType rest)
    (haliases : memory.aliases = []) :
    Parser.type.outcome line (builtinTokens kind ++ rest) memory = (.ok (.builtin kind, rest),
      memory) := by
  have htype := @outcome_coreType line rest memory (.layered (.builtin kind) {} []) hrest haliases
  simpa [PlainType.tokens, BaseType.tokens, PlainType.native, BaseType.native, Layer.tokens,
    Layer.wrap, NativeType.qualify] using htype

/-- One repetition of `enumerators`. -/
def enumeratorStep (found : List Declaration) : Parser (List Declaration ⊕ List Declaration) := do
  if ← isNext "\x7d" then done found.reverse
  else
    let line ← Parser.line
    let name ← identifier
    let value? ←
      if ← eat "=" then
        let run ← upTo [",", "\x7d"]
        pure (some (Token.spell run))
      else pure none
    let found := { kind := .enumerator, name, value?, line } :: found
    if ← eat "," then again found else done found.reverse

theorem enumerators_eq : enumerators = loop [] enumeratorStep :=
  rfl

/-- An enumerator is taken, and the comma behind it if there is one. -/
theorem outcome_enumeratorStep (e : CoreEnumerator) (found : List Declaration) :
    (enumeratorStep found).outcome line (e.tokens ++ .mark "," :: rest) memory =
        (.ok (.inl (e.declaration :: found), rest), memory) ∧
      (enumeratorStep found).outcome line (e.tokens ++ .mark "\x7d" :: rest) memory =
        (.ok (.inr (e.declaration :: found).reverse, .mark "\x7d" :: rest), memory) := by
  have hbrace : e.name.text ≠ "\x7d" := ne_of_isName e.name.isName (by decide)
  cases hvalue : e.value? with
  | none =>
    constructor <;>
      simp [enumeratorStep, CoreEnumerator.tokens, CoreEnumerator.declaration, hvalue,
        Value.initializerTokens, hbrace, again, done]
  | some v =>
    have hcomma := @outcome_upTo line rest memory (.mark ",") v [",", "\x7d"] (by decide)
      (by decide)
    have hclosing := @outcome_upTo line rest memory (.mark "\x7d") v [",", "\x7d"] (by decide)
      (by decide)
    constructor
    · simp [enumeratorStep, CoreEnumerator.tokens, CoreEnumerator.declaration, hvalue,
        Value.initializerTokens, hbrace, again, hcomma, v.spell_tokens]
    · simp [enumeratorStep, CoreEnumerator.tokens, CoreEnumerator.declaration, hvalue,
        Value.initializerTokens, hbrace, done, hclosing, v.spell_tokens]

/-- Reading enumerators comes to its end. -/
theorem loops_enumerators (first : CoreEnumerator) (more : List CoreEnumerator)
    (found : List Declaration) :
    Loops enumeratorStep line (found.reverse ++ (first :: more).map (·.declaration))
      (.mark "\x7d" :: rest) memory found
      ([Token.mark ","].intercalate ((first :: more).map (·.tokens)) ++ .mark "\x7d" ::
          rest) memory := by
  induction more generalizing first found with
  | nil =>
    refine .done ?_
    simp [(outcome_enumeratorStep first found).2]
  | cons next more ih =>
    have hnext := ih next (first.declaration :: found)
    rw [List.reverse_cons, List.append_assoc] at hnext
    simp only [List.map_cons, List.intercalate_cons_cons, List.append_assoc,
      List.singleton_append] at hnext ⊢
    refine .again (outcome_enumeratorStep first found).1 ?_ hnext
    simp
    omega

/-- Enumerators are read up to the closing brace. -/
theorem outcome_enumerators (es : List CoreEnumerator) :
    enumerators.outcome line ([Token.mark ","].intercalate (es.map (·.tokens)) ++ .mark "\x7d" ::
      rest) memory = (.ok (es.map (·.declaration), .mark "\x7d" :: rest), memory) := by
  rw [enumerators_eq]
  cases es with
  | nil => exact Loops.outcome_loop (.done (by simp [enumeratorStep, done]))
  | cons first more => exact (loops_enumerators first more []).outcome_loop

/-- An enum is taken. -/
theorem gives_enumeration (inClass : Option String) (isScoped : Bool) (name : Identifier)
    (underlying? : Option Builtin) (es : List CoreEnumerator) :
    Gives (declarationWith declaration inClass)
      ((SimpleDeclaration.enumeration isScoped name underlying? es).tokens ++ rest)
      [(SimpleDeclaration.enumeration isScoped name underlying? es).declaration inClass .exposed]
          rest := by
  intro line memory haliases
  have hbody := @outcome_enumerators line (.mark ";" :: rest) memory es
  have hname : name.text ≠ "class" ∧ name.text ≠ "struct" := by
    have hform := (word_apart (.inr name.isFree)).2
    exact ⟨fun h => hform (by rw [h]; decide), fun h => hform (by rw [h]; decide)⟩
  have htype : ∀ kind,
      Parser.type.outcome line (builtinTokens kind ++ Token.mark "\x7b" :: _) memory =
      _ := fun kind =>
    outcome_builtinType kind
      (endsType_mark (by decide) ([Token.mark ","].intercalate (es.map (·.tokens)) ++
      .mark "\x7d" :: .mark ";" :: rest)) haliases
  have htext : name.text ≠ "" := ne_of_isName name.isName (by decide)
  refine ⟨{ memory with defined := "::".intercalate (memory.scope.reverse ++ [name.text]) ::
    memory.defined }, haliases, ?_⟩
  cases isScoped <;> cases underlying? <;>
    simp [SimpleDeclaration.tokens, SimpleDeclaration.declaration, declarationWith,
      declarationForm, enumeration, hname, htype, hbody, htext, Option.filter_some, endDeclaration]

/-- A declaration that holds no further declarations is taken. -/
theorem gives_simple (inClass : Option String) (d : SimpleDeclaration) :
    Gives (declarationWith declaration inClass) (d.tokens ++
      rest) [d.declaration inClass .exposed] rest := by
  match d with
  | .enumeration isScoped name underlying? es =>
    exact gives_enumeration inClass isScoped name underlying? es
  | .variable isStatic type name value? =>
    let m : FunctionMarks := { isStatic }
    have hsource : (SimpleDeclaration.variable isStatic type name value?).tokens ++ rest =
        m.tokensBefore ++ (type.tokens ++ .word name.text ::
            (Value.initializerTokens value? ++ .mark ";" :: rest)) := by
      simp [SimpleDeclaration.tokens, FunctionMarks.tokensBefore, m]
    rw [hsource]
    refine gives_member ((BeginsMember.type type _).behindSpecifiers m)
      (fun line memory haliases => ?_) rfl
    rw [outcome_member inClass m type name haliases, outcome_declarators_variable]
    rfl
  | .function marks result name parameters =>
    have hsource : (SimpleDeclaration.function marks result name parameters).tokens ++ rest =
        marks.tokensBefore ++ (result.tokens ++ .word name.text ::
          (CoreParameter.tokenList parameters ++ (marks.tokensBehind ++ rest))) := by
      simp [SimpleDeclaration.tokens]
    rw [hsource]
    refine gives_member ((BeginsMember.type result _).behindSpecifiers marks)
      (fun line memory haliases => ?_) rfl
    rw [outcome_member inClass marks result name haliases,
      outcome_declarators_function _ _ _ _ _ _ haliases]
    rfl

/-- A constructor or a destructor is taken. -/
theorem gives_constructor (inClass : Identifier) (m : FunctionMarks) (ps : List CoreParameter) :
    Gives (declarationWith declaration (some inClass.text))
      ((CoreMember.constructor m ps).tokens inClass.text ++ rest)
      [(CoreMember.constructor m ps).declaration inClass.text .exposed] rest := by
  have hsource : (CoreMember.constructor m ps).tokens inClass.text ++ rest =
      m.tokensBefore ++ .word inClass.text :: (CoreParameter.tokenList ps ++
          (m.tokensBehind ++ rest)) := by
    simp [CoreMember.tokens]
  rw [hsource, CoreMember.declaration]
  refine gives_member ((BeginsMember.word inClass.isName
    (word_apart (.inr inClass.isFree)).2 _).behindSpecifiers m)
    (fun line memory haliases => ?_) rfl
  exact outcome_constructor inClass m ps haliases

theorem gives_destructor (inClass : Identifier) (m : FunctionMarks) (name : Identifier) :
    Gives (declarationWith declaration (some inClass.text))
      ((CoreMember.destructor m name).tokens inClass.text ++ rest)
      [(CoreMember.destructor m name).declaration inClass.text .exposed] rest := by
  have hsource : (CoreMember.destructor m name).tokens inClass.text ++ rest =
      m.tokensBefore ++ .mark "~" :: .word name.text :: .mark "(" :: .mark ")" ::
          (m.tokensBehind ++ rest) := by
    simp [CoreMember.tokens]
  have hbegins : BeginsMember (.mark "~" :: .word name.text :: .mark "(" :: .mark ")" ::
      (m.tokensBehind ++ rest)) :=
    ⟨_, _, rfl, rfl, by decide⟩
  rw [hsource, CoreMember.declaration]
  exact gives_member (hbegins.behindSpecifiers m)
    (fun line memory _ => outcome_destructor (some inClass.text) m name) rfl

/-- A base class is taken up to the mark behind it. -/
theorem outcome_baseClass (b : CoreBase) (access : Access) (ht : t = .mark "," ∨ t = .mark "\x7b")
    (haliases : memory.aliases = []) :
    (baseClass access).outcome line
    (b.tokens ++ t :: rest) memory = (.ok (b.declaration access, t :: rest), memory) := by
  have hends : EndsType (t :: rest) := by
    rcases ht with rfl | rfl <;> exact endsType_mark (by decide) rest
  have htype : Parser.type.outcome line (b.type.tokens ++ t :: rest) memory =
      (.ok (b.type.native, t :: rest), memory) := by
    have h := @outcome_coreType line (t :: rest) memory (.layered b.type {} []) hends haliases
    simpa [PlainType.tokens, PlainType.native, Layer.tokens, Layer.wrap, NativeType.qualify] using h
  obtain ⟨head, tail, htokens, hname, hfree, -⟩ := BaseType.exists_tokens b.type
  have hline : Parser.line.outcome line (b.type.tokens ++ t :: rest) memory =
      (.ok (1, b.type.tokens ++ t :: rest), memory) := by
    rw [htokens]
    rfl
  have haccess : ∀ word ∈ b.access?.toList.map Access.word,
      ["public", "protected", "private", "virtual"].contains word = true := by
    cases b.access? with
    | none => simp
    | some access => cases access <;> decide
  have hwords := @outcome_words ["public", "protected", "private", "virtual"].contains line
    (b.type.tokens ++ t :: rest) memory _ haccess <| by
      intro t ht
      rw [htokens] at ht
      obtain rfl := Option.some.inj ht
      obtain ⟨hspecifier, hform⟩ := word_apart hfree
      have happart : ∀ word ∈ ["public", "protected", "private", "virtual"],
          word ∈ formWords ∨ specifier? word ≠ none := by
        decide
      refine Bool.eq_false_iff.mpr fun hmem => ?_
      exact (happart head (List.contains_iff_mem.mp hmem)).elim hform fun h => h hspecifier
  have hrow : b.tokens = (b.access?.toList.map Access.word).map .word ++ b.type.tokens := by
    cases haccess : b.access? <;> simp [CoreBase.tokens, haccess]
  rw [hrow, List.append_assoc, baseClass, CoreBase.declaration]
  simp only [outcome_bind, hwords, hline, htype, outcome_pure]
  cases b.access? with
  | none => rfl
  | some access => cases access <;> rfl

/-- One repetition of `baseClasses`. -/
def baseStep (access : Access) (found : List Declaration) :
    Parser (List Declaration ⊕ List Declaration) := do
  let base ← baseClass access
  if ← eat "," then again (base :: found) else done (base :: found).reverse

theorem baseClasses_eq (access : Access) :
    baseClasses access = (do if ← eat ":" then loop [] (baseStep access) else return []) :=
  rfl

/-- Reading bases comes to its end at the body. There may be no aliases, as they would change the
types. -/
theorem loops_bases (access : Access) (haliases : memory.aliases = []) (first : CoreBase)
    (more : List CoreBase) (found : List Declaration) :
    Loops (baseStep access) line (found.reverse ++ (first :: more).map (·.declaration access))
      (.mark "\x7b" :: rest)
      memory found ([Token.mark ","].intercalate ((first :: more).map (·.tokens)) ++
          .mark "\x7b" :: rest) memory := by
  induction more generalizing first found with
  | nil =>
    have hfirst := @outcome_baseClass line rest memory _ first access (.inr rfl) haliases
    refine .done ?_
    simp [baseStep, hfirst, done]
  | cons next more ih =>
    have hnext := ih next (first.declaration access :: found)
    have hfirst := @outcome_baseClass line
      ([Token.mark ","].intercalate ((next :: more).map (·.tokens)) ++
      .mark "\x7b" :: rest) memory _ first access (.inl rfl) haliases
    rw [List.reverse_cons, List.append_assoc] at hnext
    simp only [List.map_cons, List.intercalate_cons_cons, List.append_assoc,
      List.singleton_append] at hnext hfirst ⊢
    refine .again ?_ ?_ hnext
    · simp [baseStep, hfirst, again]
    · simp
      omega

/-- The bases of a class are taken up to its body. -/
theorem outcome_baseClasses (access : Access) (bases : List CoreBase)
    (haliases : memory.aliases = []) :
    (baseClasses access).outcome line ((if bases.isEmpty then [] else
        .mark ":" :: [Token.mark ","].intercalate (bases.map (·.tokens))) ++ .mark "\x7b" ::
          rest) memory =
      (.ok (bases.map (·.declaration access), .mark "\x7b" :: rest), memory) := by
  rw [baseClasses_eq]
  cases bases with
  | nil => simp
  | cons first more =>
    have hloops := @loops_bases line rest memory access haliases first more []
    simpa using hloops.outcome_loop

/-- One repetition of the loop that takes the parts of a class's name. -/
def namePartStep (name : String) : Parser (String ⊕ String) := do
  if ← eat "::" then
    let part ← identifier
    again (name ++ "::" ++ part)
  else done name

/-- One repetition of `classNames`. -/
def classNameStep (found : List String) : Parser (List String ⊕ List String) := do
  if ← isNext "[[" then
    skipAttribute
    again found
  else
    match ← identifier? with
    | none => done found.reverse
    | some name =>
      advance 1
      if ← isNext "(" then
        discard <| balanced "(" ")"
        again found
      else
        let name ← loop name namePartStep
        again (name :: found)

theorem classNames_eq : classNames = loop [] classNameStep :=
  rfl

/-- The name of a class is taken up to its bases or its body. -/
theorem outcome_classNames (name : Identifier) (ht : t = .mark ":" ∨ t = .mark "\x7b") :
    classNames.outcome line (.word name.text :: t :: rest) memory = (.ok ([name.text], t :: rest),
      memory) := by
  have hmark : t.kind = .mark ∧ t.text ≠ "::" ∧ t.text ≠ "[[" ∧ t.text ≠ "(" := by
    rcases ht with rfl | rfl <;> decide
  have hpart : (loop name.text namePartStep).outcome line (t :: rest) memory =
      (.ok (name.text, t :: rest), memory) :=
    Loops.outcome_loop (.done (by simp [namePartStep, hmark, done]))
  have hattribute : name.text ≠ "[[" := ne_of_isName name.isName (by decide)
  have hlast : Loops classNameStep line [name.text] (t :: rest) memory [name.text]
      (t :: rest) memory :=
    .done (by simp [classNameStep, hmark, Option.filter_some, done])
  rw [classNames_eq]
  refine Loops.outcome_loop (.again ?_ ?_ hlast)
  · simp [classNameStep, hattribute, hmark, Option.filter_some, hpart, again]
  · simp

/-- One repetition of `declarations`. -/
def declarationStep (declaration : DeclarationParser) (inClass : Option String) :
    Access × List Declaration →
      Parser ((Access × List Declaration) ⊕ List Declaration) := fun (access, found) => do
  match ← peek? with
  | none => done found.reverse
  | some t =>
    if t.text = "\x7d" then done found.reverse
    else if t.text = ";" then
      advance 1
      again (access, found)
    else
      match ← (if inClass.isSome then accessLabel? else pure none) with
      | some label =>
        advance 2
        let mark : Declaration :=
          { kind := .accessLabel, name := label.word, access := label, line := t.line }
        again (label, mark :: found)
      | none =>
        let ds ← recovering declaration inClass
        let ds := if inClass.isSome then ds.map ({ · with access := access }) else ds
        again (access, ds.reverse ++ found)

theorem declarations_eq (declaration : DeclarationParser) (inClass : Option String)
    (access : Access) :
    declarations declaration inClass access =
      loop (access, []) (declarationStep declaration inClass) :=
  rfl

/-- Whether tokens begin like a declaration, and not like an access label. -/
def BeginsDeclaration (tokens : List Token) : Prop :=
  ∃ first behind, tokens = first :: behind ∧ first.line = 1 ∧
    first.text ∉ ["\x7d", ";", "public", "protected", "private"]

/-- A repetition that takes a declaration. -/
theorem outcome_declarationStep {access : Access} {found : List Declaration} {d : Declaration} 
    (hbegins : BeginsDeclaration tokens) (hgiven : Gives (declaration inClass) tokens [d] rest) 
    (haliases : memory.aliases = []) :
    ∃ memory', memory'.aliases = [] ∧
      (declarationStep declaration inClass (access, found)).outcome line tokens memory =
      (.ok (.inl (access, (if inClass.isSome then { d with access } else d) :: found), rest),
          memory') := by
  obtain ⟨memory', haliases', hgiven⟩ := hgiven line memory haliases
  refine ⟨memory', haliases', ?_⟩
  obtain ⟨first, behind, rfl, hline, htext⟩ := hbegins
  simp only [List.mem_cons, List.not_mem_nil, or_false, not_or] at htext
  have hrecovering : (recovering declaration inClass).outcome line (first :: behind) memory =
      (.ok ([d], rest), memory') := by
    simp [recovering, outcome_tryCatch, hgiven]
  have hlabel : accessLabel?.outcome line (first :: behind) memory = (.ok (none, first :: behind),
      memory) := by
    have hnone : Access.ofWord? first.text = none := by
      unfold Access.ofWord?
      split <;> simp_all
    simp [accessLabel?, hnone]
  cases inClass with
  | none => simp [declarationStep, htext, hrecovering, again]
  | some name => simp [declarationStep, htext, hrecovering, hlabel, again]

/-- The bases of a class with the colon in front of them. -/
def baseTokens (bases : List CoreBase) : List Token :=
  if bases.isEmpty then [] else .mark ":" :: [Token.mark ","].intercalate (bases.map (·.tokens))

/-- The bases and the body of a class are taken if its members are. -/
theorem gives_classBody (h : ClassHead) {members : List Token} {ds : List Declaration}
    (hmembers : Gives (declarations declaration (some h.name.text) h.defaultAccess)
      (members ++ .mark "\x7d" :: .mark ";" :: rest) ds (.mark "\x7d" :: .mark ";" :: rest)) :
    Gives (classBody declaration .classType h.name.text h.defaultAccess 1)
      (baseTokens h.bases ++ .mark "\x7b" :: (members ++ .mark "\x7d" :: .mark ";" :: rest))
      (h.declaration .exposed ds) rest := by
  intro line memory haliases
  obtain ⟨memory₁, haliases₁, hmembers⟩ :=
    hmembers line { memory with scope := h.name.text :: memory.scope } haliases
  have hleaving := outcome_thenLeaving 1 hmembers
  have hbases := @outcome_baseClasses line (members ++ .mark "\x7d" :: .mark ";" :: rest) memory
    h.defaultAccess h.bases
    haliases
  have htext : h.name.text ≠ "" := ne_of_isName h.name.isName (by decide)
  refine ⟨{ memory₁ with
    scope := memory₁.scope.drop 1
    defined := "::".intercalate ((memory₁.scope.drop 1).reverse ++ [h.name.text]) ::
      memory₁.defined }, haliases₁, ?_⟩
  rw [classBody, outcome_bind, baseTokens, hbases]
  simp [hleaving, htext, endDeclaration, ClassHead.declaration]

/-- A class is taken if its members are. -/
theorem gives_class (h : ClassHead) {members : List Token} {ds : List Declaration}
    (hmembers : Gives (declarations declaration (some h.name.text) h.defaultAccess)
      (members ++ .mark "\x7d" :: .mark ";" :: rest) ds (.mark "\x7d" :: .mark ";" :: rest)) :
    Gives (declarationWith declaration inClass)
      (h.tokens ++ (members ++ .mark "\x7d" :: .mark ";" :: rest))
      [h.declaration .exposed ds] rest := by
  intro line memory haliases
  obtain ⟨memory', haliases', hbody⟩ := gives_classBody h hmembers line memory haliases
  obtain ⟨t, behind, hbehind, ht⟩ : ∃ t behind, baseTokens h.bases ++
      .mark "\x7b" :: (members ++ .mark "\x7d" :: .mark ";" :: rest) = t :: behind ∧
        (t = .mark ":" ∨ t = .mark "\x7b") := by
    cases h.bases with
    | nil => exact ⟨_, _, rfl, .inr rfl⟩
    | cons first more => exact ⟨_, _, rfl, .inl rfl⟩
  have hsource : h.tokens ++ (members ++ .mark "\x7d" :: .mark ";" :: rest) =
      .word h.keyword :: .word h.name.text :: t :: behind := by
    rw [← hbehind, ClassHead.tokens, baseTokens]
    simp
  have hnames := @outcome_classNames line behind memory t h.name ht
  have hmark : t.text ≠ "<" ∧ (t.text = "\x7b" ∨ t.text = ":") := by
    rcases ht with rfl | rfl <;> decide
  have hline : (h.declaration .exposed ds).line = 1 := rfl
  rw [hbehind] at hbody
  rw [hsource]
  refine ⟨memory', haliases', ?_⟩
  unfold ClassHead.keyword
  rw [ClassHead.defaultAccess] at hbody
  cases hstruct : h.isStruct
  · simp [hstruct] at hbody
    simp [declarationWith, declarationForm, classOrElaborated, hnames, className, hmark, hbody,
      hline]
  · simp [hstruct] at hbody
    simp [declarationWith, declarationForm, classOrElaborated, hnames, className, hmark, hbody,
      hline]

/-- One repetition of `namespaceNames`. -/
def namespaceNameStep (found : List String) : Parser (List String ⊕ List String) := do
  match ← identifier? with
  | none => done found.reverse
  | some name =>
    advance 1
    if ← eat "::" then again (name :: found) else done (name :: found).reverse

theorem namespaceNames_eq : namespaceNames = loop [] namespaceNameStep :=
  rfl

/-- A namespace is taken if the declarations in it are. -/
theorem gives_nameSpace (name : Identifier) {inside : List Token} {ds : List Declaration}
    (hinside : Gives (declarations declaration none .exposed)
      (inside ++ Token.mark "\x7d" :: rest) ds (.mark "\x7d" :: rest)) :
    Gives (declarationWith declaration none)
      ([Token.word "namespace", .word name.text, .mark "\x7b"] ++
        (inside ++ Token.mark "\x7d" :: rest))
      [{ kind := .nameSpace, name := name.text, line := 1, children := ds }] rest := by
  intro line memory haliases
  obtain ⟨memory₁, haliases₁, hinside⟩ :=
    hinside line { memory with scope := name.text :: memory.scope } haliases
  have hleaving := outcome_thenLeaving 1 hinside
  have hnames : namespaceNames.outcome line
      (.word name.text :: .mark "\x7b" :: (inside ++ Token.mark "\x7d" :: rest)) memory =
      (.ok ([name.text], .mark "\x7b" :: (inside ++ Token.mark "\x7d" :: rest)), memory) := by
    rw [namespaceNames_eq]
    exact Loops.outcome_loop (.done (by simp [namespaceNameStep, Option.filter_some, done]))
  refine ⟨{ memory₁ with scope := memory₁.scope.drop 1 }, haliases₁, ?_⟩
  simp [declarationWith, declarationForm, nameSpace, hnames, hleaving, nestedNamespaces]

/-- What may begin a declaration may be passed to the repetition that takes it. -/
theorem BeginsMember.beginsDeclaration (h : BeginsMember tokens) : BeginsDeclaration tokens := by
  obtain ⟨first, behind, htokens, hline, hform⟩ := h
  have hsub : ∀ text ∈ ["\x7d", ";", "public", "protected", "private"],
    text ∈ "\x7d" :: ";" :: formWords := by decide
  exact ⟨first, behind, htokens, hline, fun hmem => hform (hsub _ hmem)⟩

theorem beginsDeclaration_simple (d : SimpleDeclaration) (rest : List Token) :
    BeginsDeclaration (d.tokens ++ rest) := by
  match d with
  | .enumeration isScoped name underlying? es => exact ⟨.word "enum", _, rfl, rfl, by decide⟩
  | .variable isStatic type name value? => 
    have h := ((BeginsMember.type type
      ([Token.word name.text] ++ (Value.initializerTokens value? ++ [Token.mark ";"]) ++
      rest)).behindSpecifiers
      { isStatic }).beginsDeclaration
    simpa [SimpleDeclaration.tokens, FunctionMarks.tokensBefore] using h
  | .function marks result name parameters => 
    have h := ((BeginsMember.type result
      ([Token.word name.text] ++ CoreParameter.tokenList parameters ++
      marks.tokensBehind ++ rest)).behindSpecifiers marks).beginsDeclaration
    simpa [SimpleDeclaration.tokens] using h

end Interop.Header.Parser
