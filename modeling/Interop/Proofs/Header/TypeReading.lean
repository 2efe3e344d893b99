import Interop.Proofs.Header.PlainType
import Mathlib.Data.List.TakeDrop

namespace Interop.Header.Parser

variable {α β : Type} {p : String → Bool} {line : Nat} {tokens rest : List Token} {memory : Memory}
    {t : Token}
  {free : String → Bool}

/-- Whether a type ends before the given tokens. -/
def EndsType (tokens : List Token) : Prop :=
  ∀ t ∈ tokens.head?, t.text ∉ typeWords ∧ t.text ∉ ["*", "&", "&&", "::", "<"]

theorem span_append {f : Token → Bool} {row : List Token} (hrow : ∀ t ∈ row, f t = true)
    (hrest : ∀ t ∈ rest.head?, f t = false) : (row ++ rest).span f = (row, rest) := by
  have hnone : rest.takeWhile f = [] ∧ rest.dropWhile f = rest := by
    cases rest with
    | nil => exact ⟨rfl, rfl⟩
    | cons t rest =>
      have ht := hrest t rfl
      simp [ht]
  rw [List.span_eq_takeWhile_dropWhile, List.takeWhile_append_of_pos hrow,
    List.dropWhile_append_of_pos hrow, hnone.1, hnone.2, List.append_nil]

/-- Words are taken up to the first one that does not fit. -/
theorem outcome_words {row : List String} (hrow : ∀ name ∈ row, p name = true)
    (hrest : ∀ t ∈ rest.head?, p t.text = false) :
    (words p).outcome line (row.map .word ++ rest) memory = (.ok (row, rest), memory) := by
  have hspan : (row.map Token.word ++ rest).span (fun t => t.kind == .identifier && p t.text) =
      (row.map .word, rest) := by
    refine span_append (fun t ht => ?_) fun t ht => by simp [hrest t ht]
    obtain ⟨name, hname, rfl⟩ := List.mem_map.mp ht
    simp [Token.word, hrow name hname]
  have htexts : (row.map Token.word).map Token.text = row := by
    rw [List.map_map]
    exact List.map_id row
  simp only [words, outcome_bind, outcome_get, hspan, outcome_set, outcome_pure, htexts]

/-- Qualifiers are read back, if none follow. -/
theorem outcome_qualifiers {isConst isVolatile : Bool}
    (hrest : ∀ t ∈ rest.head?, t.text ≠ "const" ∧ t.text ≠ "volatile") :
    qualifiers.outcome line ((if isConst then [Token.word "const"] else []) ++
      ((if isVolatile then [Token.word "volatile"] else []) ++ rest)) memory = (.ok
          ((isConst, isVolatile), rest), memory) := by
  have hrow : ∀ t ∈ (if isConst then [Token.word "const"] else []) ++
      (if isVolatile then [Token.word "volatile"] else []),
      (t.text == "const" || t.text == "volatile") = true := by
    cases isConst <;> cases isVolatile <;> simp [Token.word]
  have hspan : List.span _ (_ ++ rest) = _ := span_append hrow fun t ht => by simp [hrest t ht]
  rw [List.append_assoc] at hspan
  simp only [qualifiers, outcome_bind, outcome_get, hspan]
  cases isConst <;> cases isVolatile <;> simp [Token.word]

/-- Nothing is taken where no qualifier is in front. -/
theorem outcome_leadingQualifiers (h : ∀ t ∈ tokens.head?,
      t.text ∉ ["const", "volatile", "typename", "struct", "class", "enum"]) :
    leadingQualifiers.outcome line tokens memory = (.ok ((false, false), tokens), memory) := by
  have hspan : ([] ++ tokens).span (fun t => ["const", "volatile", "typename", "struct", "class",
      "enum"].contains t.text) = ([], tokens) := span_append nofun fun t ht => by simpa using h t ht
  rw [List.nil_append] at hspan
  simp only [leadingQualifiers, outcome_bind, outcome_get, hspan]
  rfl

/-- One repetition of `indirections`. -/
def indirection (type : NativeType) : Parser (NativeType ⊕ NativeType) := do
  match ← text with
  | "*" =>
    advance 1
    let (isConst, isVolatile) ← qualifiers
    again ((NativeType.pointer type).qualify isConst isVolatile)
  | "&" =>
    advance 1
    again (.reference type .lvalue)
  | "&&" =>
    advance 1
    again (.reference type .rvalue)
  | _ => done type

/-- What ends a type is taken for no layer. -/
theorem indirection_of_endsType (hrest : EndsType rest) (type : NativeType) :
    (indirection type).outcome line rest memory = (.ok (.inr type, rest), memory) := by
  have hends : rest.head?.elim "" Token.text ∉ ["*", "&", "&&"] := by
    cases rest with
    | nil => decide
    | cons t rest =>
      have := (hrest t rfl).2
      simp_all
  simp only [indirection, outcome_bind, outcome_text]
  split
  all_goals simp_all [done]

/-- The mark of a reference, if there is one. -/
def referenceTokens (l : Layer) : List Token :=
  l.reference?.elim [] fun | .lvalue => [.mark "&"] | .rvalue => [.mark "&&"]

theorem Layer.tokens_append (l : Layer) (tokens : List Token) :
    l.tokens ++ tokens = (if l.isConst then [Token.word "const"] else []) ++
      ((if l.isVolatile then [Token.word "volatile"] else []) ++
          (referenceTokens l ++ tokens)) := by
  rw [Layer.tokens, List.append_assoc, List.append_assoc]
  rfl

/-- What stands behind the qualifiers of a layer is no qualifier. -/
theorem not_qualifier (hrest : EndsType rest) (l : Layer) (stars : List Layer) :
    ∀ t ∈ (referenceTokens l ++ ((stars.flatMap fun l => Token.mark "*" :: l.tokens) ++
      rest)).head?, t.text ≠ "const" ∧ t.text ≠ "volatile" := by
  intro t ht
  cases hreference : l.reference? with
  | some kind => cases kind <;> simp_all [referenceTokens, Token.mark] <;> simp [← ht]
  | none =>
    cases stars with
    | cons l stars =>
      simp_all [referenceTokens, Token.mark]
      simp [← ht]
    | nil =>
      have hends := (hrest t (by simpa [referenceTokens, hreference] using ht)).1
      exact ⟨fun h => hends (by rw [h]; decide), fun h => hends (by rw [h]; decide)⟩

/-- A reference behind a type belongs to it. -/
theorem loops_reference (l : Layer) {type result : NativeType}
    (h : Loops indirection line result rest memory (l.reference?.elim type (.reference type))
      tokens memory) :
    Loops indirection line result rest memory type (referenceTokens l ++ tokens) memory := by
  cases hreference : l.reference? with
  | none => simpa [referenceTokens, hreference] using h
  | some kind =>
    rw [hreference] at h
    cases kind with
    | lvalue =>
      refine .again ?_ ?_ h
      · simp [referenceTokens, hreference, indirection, again]
      · simp [referenceTokens, hreference]
    | rvalue =>
      refine .again ?_ ?_ h
      · simp [referenceTokens, hreference, indirection, again]
      · simp [referenceTokens, hreference]

/-- The repetitions of `indirections` that take stars and what follows them. -/
theorem loops_stars (hrest : EndsType rest) (stars : List Layer) (type : NativeType) :
    Loops indirection line (stars.foldl (fun type l => l.wrap (.pointer type)) type) rest
      memory type
      ((stars.flatMap fun l => .mark "*" :: l.tokens) ++ rest) memory := by
  induction stars generalizing type with
  | nil => exact .done (indirection_of_endsType hrest type)
  | cons l stars ih =>
    have hnext := loops_reference l (ih (l.wrap (.pointer type)))
    rw [List.flatMap_cons, List.cons_append, List.cons_append, List.append_assoc,
      Layer.tokens_append]
    refine .again ?_ ?_ hnext
    · simp [indirection, again, outcome_qualifiers (not_qualifier hrest l stars)]
    · simp
      omega

/-- Whether a type without qualifiers and indirections ends before the given tokens. -/
def EndsBase (tokens : List Token) : Prop :=
  ∀ t ∈ tokens.head?, t.text ∉ builtinWords ∧ t.text ∉ ["::", "<"]

theorem EndsBase.any (h : EndsBase tokens) :
    tokens.head?.any (·.text == "<") = false ∧ tokens.head?.any (·.text == "::") = false := by
  cases tokens with
  | nil => exact ⟨rfl, rfl⟩
  | cons t rest =>
    have := (h t rfl).2
    simp_all

/-- One repetition of `namedType`. -/
def nameStep (type : Parser NativeType) (lead : String) : Parser (String ⊕ NativeType) := do
  let name := lead ++ (← identifier)
  if ← isNext "<" then
    let arguments ← templateArguments type
    if ← eat "::" then
      let member ← identifier
      done (.unexposed ((NativeType.applied name arguments).spelling ++ "::" ++ member))
    else done (.applied name arguments)
  else if (← isNext "::") && (← get)[1]?.any (·.kind == .identifier) then
    advance 1
    again (name ++ "::")
  else if name = "std::nullptr_t" ∨ name = "nullptr_t" then done (.builtin .nullptr)
  else
    match ← aliasTarget? name with
    | some target => done (.synonym name target)
    | none => done (.named name)

theorem namedType_eq (type : Parser NativeType) :
    namedType type = (do
      let lead := if ← eat "::" then "::" else ""
      loop lead (nameStep type)) :=
  rfl

/-- A name is taken part by part; the last part tells what the name is. -/
theorem loops_name {type : Parser NativeType} {memory' : Memory} {result : NativeType}
    {lead : String} {tail : List Token} (n : ScopedName free)
    (hlast : ∀ (lead' : String) (part : Name free), lead' ++ part.text = lead ++ n.text →
      (nameStep type lead').outcome line (.word part.text :: tail) memory =
        (.ok (.inr result, rest), memory')) :
    Loops (nameStep type) line result rest memory' lead (n.tokens ++ tail) memory := by
  obtain ⟨first, parts⟩ := n
  induction parts generalizing first lead with
  | nil => exact .done (hlast lead first (by simp [ScopedName.text]))
  | cons part parts ih =>
    have hnext := @ih (lead ++ first.text ++ "::") part fun lead' last hname =>
        hlast lead' last <| by
      rw [hname]
      simp [ScopedName.text, String.intercalate_cons_cons, String.append_assoc]
    refine .again ?_ ?_ hnext
    · simp [ScopedName.tokens, nameStep, again]
    · simp [ScopedName.tokens]

/-- Without aliases no name has a target. -/
theorem outcome_aliasTarget? (haliases : memory.aliases = []) (name : String) :
    (aliasTarget? name).outcome line tokens memory = (.ok (none, tokens), memory) := by
  obtain ⟨aliases, scope, defined⟩ := memory
  subst haliases
  rfl

/-- Without aliases a name is read as a named type, unless it is that of the null pointer's type. -/
theorem outcome_namedType (type : Parser NativeType) (haliases : memory.aliases = [])
    (hrest : EndsBase rest) (n : ScopedName free)
    (hown : n.text ∉ ["nullptr_t", "std::nullptr_t"]) :
    (namedType type).outcome line
    (n.tokens ++ rest) memory = (.ok (.named n.text, rest), memory) := by
  have hends := hrest.any
  have hloops : Loops (nameStep type) line (.named n.text) rest memory "" (n.tokens ++
      rest) memory := by
    refine loops_name n fun lead part hname => ?_
    rw [String.empty_append] at hname
    rw [List.mem_cons, List.mem_singleton, not_or] at hown
    simp [nameStep, hname, hends, outcome_aliasTarget? haliases, hown, done]
  rw [namedType_eq]
  simp (disch := decide) [ScopedName.tokens, Name.text_eq] at hloops ⊢
  exact hloops.outcome_loop

/-- The name of the null pointer's type is read as a builtin. -/
theorem outcome_nullptr (type : Parser NativeType) (hrest : EndsBase rest) :
    (namedType type).outcome line
    (builtinTokens .nullptr ++ rest) memory = (.ok (.builtin .nullptr, rest), memory) := by
  have hends := hrest.any
  let n : ScopedName fun _ => true := ⟨⟨"std", by decide, rfl⟩, [⟨"nullptr_t", by decide, rfl⟩]⟩
  have hloops : Loops (nameStep type) line (.builtin .nullptr) rest memory "" (n.tokens ++
      rest) memory := by
    refine loops_name n fun lead part hname => ?_
    have htext : lead ++ part.text = "std::nullptr_t" := hname
    simp [nameStep, htext, hends, done]
  rw [namedType_eq]
  have htokens : builtinTokens .nullptr = n.tokens := rfl
  rw [htokens]
  simp (disch := decide) [ScopedName.tokens, Name.text_eq] at hloops ⊢
  exact hloops.outcome_loop

/-- One repetition of `templateArguments`. -/
def argumentStep (type : Parser NativeType) (found : List NativeType) :
    Parser (List NativeType ⊕ List NativeType) := do
  let start ← get
  let startsType := start.head?.any fun t => t.kind == .identifier || t.text == "::"
  let parsed ← if startsType then attempt type else pure none
  let ended := (← isNext ",") || (← isNext ">")
  let argument ← match parsed, ended with
    | some type, true => pure type
    | _, _ => do
      set start
      let run ← upTo [",", ">"]
      pure (.unexposed (Token.spell run))
  if ← eat "," then again (argument :: found)
  else
    expect ">"
    done (argument :: found).reverse

theorem templateArguments_eq (type : Parser NativeType) :
    templateArguments type = (do
      expect "<"
      if ← eat ">" then return []
      loop [] (argumentStep type)) :=
  rfl

/-- Whether a parser of types takes the given type. -/
def Takes (parser : Parser NativeType) (type : PlainType free) : Prop :=
  ∀ rest, EndsType rest → ∀ line memory, memory.aliases = [] →
    parser.outcome line (type.tokens ++ rest) memory = (.ok (type.native, rest), memory)

/-- What layers may begin with. -/
def layerStarts : List String :=
  ["const", "volatile", "&", "&&", "*"]

theorem head_layers (outer : Layer) (stars : List Layer) :
    ∀ t ∈ (outer.tokens ++ stars.flatMap fun l => Token.mark "*" :: l.tokens).head?,
      t.text ∈ layerStarts := by
  have houter : ∀ t ∈ outer.tokens.head?, t.text ∈ layerStarts := by
    obtain ⟨isConst, isVolatile, reference?⟩ := outer
    intro t ht
    cases isConst <;> cases isVolatile <;> rcases reference? with - | (- | -) <;> cases ht <;>
      decide
  intro t ht
  rw [List.head?_append] at ht
  rcases Option.or_eq_some_iff.mp ht with ht | ⟨-, ht⟩
  · exact houter t ht
  · cases stars with
    | nil => cases ht
    | cons l stars =>
      obtain rfl := Option.some.inj ht
      decide

/-- The first token of a type is a word, and the second one no bracket. -/
theorem BaseType.exists_tokens (type : BaseType free) :
    ∃ name tail, type.tokens = .word name :: tail ∧ Lexeme.isName name.toList = true ∧
      (name ∈ "std" :: builtinWords ∨ free name = true) ∧
    ∀ t ∈ tail.head?, t.text ∉ ["(", ")"] := by
  have hname : ∀ (n : ScopedName free) (behind : List Token), (∀ t ∈ behind.head?,
      t.text ∉ ["(", ")"]) →
          ∀ t ∈ ((n.rest.flatMap fun part => [Token.mark "::", .word part.text]) ++ behind).head?,
          t.text ∉ ["(", ")"] := by
    intro n behind hbehind t ht
    cases hrest : n.rest with
    | nil =>
      rw [hrest] at ht
      exact hbehind t ht
    | cons part rest =>
      rw [hrest] at ht
      obtain rfl := Option.some.inj ht
      decide
  cases type with
  | builtin kind =>
    cases kind <;> exact ⟨_, _, rfl, by decide, .inl (by decide), by decide⟩
  | named n =>
    refine ⟨_, _, by rw [BaseType.tokens]; rfl, n.first.isName, .inr n.first.isFree, ?_⟩
    simpa using hname n [] nofun
  | applied template arguments =>
    have htokens : (BaseType.applied template arguments).tokens = template.tokens ++
        (Token.mark "<" :: ([Token.mark ","].intercalate (PlainType.tokenLists arguments) ++
            [Token.mark ">"])) := by
      rw [BaseType.tokens, List.append_assoc]
      rfl
    exact ⟨_, _, htokens, template.first.isName, .inr template.first.isFree,
        hname template _ fun t ht => by
      obtain rfl := Option.some.inj ht
      decide⟩

theorem PlainType.exists_tokens (type : PlainType free) :
    ∃ name tail, type.tokens = .word name :: tail ∧ Lexeme.isName name.toList = true ∧
      (name ∈ "std" :: builtinWords ∨ free name = true) ∧
    ∀ t ∈ tail.head?, t.text ∉ ["(", ")"] := by
  obtain ⟨base, outer, stars⟩ := type
  obtain ⟨name, tail, htokens, hname, hfree, htail⟩ := BaseType.exists_tokens base
  refine ⟨name, tail ++ (outer.tokens ++ stars.flatMap fun l => .mark "*" :: l.tokens), ?_, hname,
    hfree, ?_⟩
  · rw [PlainType.tokens, htokens]
    simp
  · intro t ht
    rw [List.head?_append] at ht
    rcases Option.or_eq_some_iff.mp ht with ht | ⟨-, ht⟩
    · exact htail t ht
    · have hmarks : ∀ text ∈ layerStarts, text ∉ ["(", ")"] := by decide
      exact hmarks _ (head_layers outer stars t ht)

theorem endsType_mark {mark : String} (h : mark ∉ typeWords ∧ mark ∉ ["*", "&", "&&", "::", "<"])
    (tokens : List Token) :
    EndsType (.mark mark :: tokens) := by
  intro t ht
  obtain rfl := Option.some.inj ht
  exact h

/-- Reading template arguments comes to its end if each argument can be read. -/
theorem loops_arguments {type : Parser NativeType} (haliases : memory.aliases = [])
    (first : PlainType free) (more : List (PlainType free))
    (htype : ∀ argument ∈ first :: more, Takes type argument) (found : List NativeType) :
    Loops (argumentStep type) line (found.reverse ++ PlainType.natives (first :: more)) rest
      memory found
      ([Token.mark ","].intercalate (PlainType.tokenLists (first :: more)) ++ .mark ">" ::
          rest) memory := by
  induction more generalizing first found with
  | nil =>
    obtain ⟨name, tail, htokens, -⟩ := PlainType.exists_tokens first
    have hhead : first.tokens.head? = some (.word name) := by rw [htokens]; rfl
    have hfirst := outcome_attempt <|
      htype first (by simp) (.mark ">" :: rest) (endsType_mark (by decide) rest) line memory
        haliases
    refine .done ?_
    simp [PlainType.tokenLists, PlainType.natives, argumentStep, hfirst, hhead, done]
  | cons next more ih =>
    obtain ⟨name, tail, htokens, -⟩ := PlainType.exists_tokens first
    have hhead : first.tokens.head? = some (.word name) := by rw [htokens]; rfl
    have hnext := ih next (fun argument hmem => htype argument (List.mem_cons_of_mem first hmem))
      (first.native :: found)
    have hfirst := outcome_attempt <|
      htype first (by simp) (.mark "," :: ([Token.mark ","].intercalate
      (PlainType.tokenLists (next :: more)) ++ .mark ">" :: rest)) (endsType_mark
        (by decide) _) line memory haliases
    rw [List.reverse_cons, List.append_assoc] at hnext
    simp only [PlainType.tokenLists, List.intercalate_cons_cons, List.append_assoc,
      List.singleton_append] at hnext hfirst ⊢
    refine .again ?_ ?_ hnext
    · simp [argumentStep, hfirst, hhead, again]
    · simp
      omega

/-- Template arguments are read back if each argument can be read. -/
theorem outcome_templateArguments {type : Parser NativeType} (haliases : memory.aliases = [])
    (arguments : List (PlainType free)) (htype : ∀ argument ∈ arguments, Takes type argument) :
    (templateArguments type).outcome line
    (.mark "<" :: ([Token.mark ","].intercalate (PlainType.tokenLists arguments) ++
      .mark ">" :: rest)) memory = (.ok (PlainType.natives arguments, rest), memory) := by
  rw [templateArguments_eq]
  cases arguments with
  | nil => simp [PlainType.tokenLists, PlainType.natives]
  | cons first more =>
    obtain ⟨name, tail, htokens, hname, -⟩ := PlainType.exists_tokens first
    have hmark : name ≠ ">" := by
      rintro rfl
      revert hname
      decide
    have hloops := @loops_arguments line rest memory _ type haliases first more htype []
    have hhead : ([Token.mark ","].intercalate (PlainType.tokenLists (first :: more))).head? =
        some (.word name) := by
      rw [PlainType.tokenLists]
      cases PlainType.tokenLists more with
      | nil => rw [List.intercalate_singleton, htokens]; rfl
      | cons next lists => rw [List.intercalate_cons_cons, htokens]; rfl
    simp [hhead, hmark, hloops.outcome_loop]

/-- An instance of a template is taken with its arguments. -/
theorem outcome_applied {type : Parser NativeType} (haliases : memory.aliases = [])
    (hrest : EndsBase rest) (template : ScopedName free) (arguments : List (PlainType free))
    (htype : ∀ argument ∈ arguments, Takes type argument) :
    (namedType type).outcome line ((BaseType.applied template arguments).tokens ++ rest) memory =
      (.ok ((BaseType.applied template arguments).native, rest), memory) := by
  have hends := hrest.any
  have hloops : Loops (nameStep type) line (.applied template.text (PlainType.natives arguments))
      rest memory ""
      (template.tokens ++ (.mark "<" ::
        ([Token.mark ","].intercalate (PlainType.tokenLists arguments) ++ .mark ">" :: rest)))
      memory := by
    refine loops_name template fun lead part hname => ?_
    have htemplate : lead ++ part.text = template.text := hname
    simp [nameStep, outcome_templateArguments haliases arguments htype, hends, htemplate, done]
  rw [namedType_eq, BaseType.tokens, BaseType.native]
  simp (disch := decide) [ScopedName.tokens, Name.text_eq] at hloops ⊢
  exact hloops.outcome_loop

/-- Each builtin but the null pointer's type is read back from its words. -/
theorem builtinOfWords_wordsOf {kind : Builtin} (h : kind ≠ .nullptr) :
    (∃ first row, wordsOf kind = first :: row) ∧
      (∀ name ∈ wordsOf kind, builtinWords.contains name = true) ∧
      builtinOfWords (wordsOf kind) = kind := by
  cases kind <;> first | exact absurd rfl h | exact ⟨⟨_, _, rfl⟩, by decide, by decide⟩

/-- What no row of builtin words begins is taken as a name. -/
theorem outcome_baseType_of_name (type : Parser NativeType) {name : String}
    (hname : name ∉ builtinWords ∧ name ≠ "auto" ∧ name ≠ "decltype") :
    (baseType type).outcome line (.word name :: tokens) memory =
      (namedType type).outcome line (.word name :: tokens) memory := by
  have hwords : (words builtinWords.contains).outcome line ([].map .word ++ (.word name :: tokens))
      memory = (.ok ([], .word name :: tokens), memory) :=
    outcome_words nofun fun t ht => by
      obtain rfl := Option.some.inj ht
      simpa using hname.1
  rw [List.map_nil, List.nil_append] at hwords
  simp only [baseType, outcome_bind, hwords, outcome_identifier?]
  simp [Option.filter_some]
  split
  · simp_all
  · simp_all
  · rfl

/-- Layers end the base type in front of them. -/
theorem endsBase_layers (hrest : EndsType rest) (outer : Layer) (stars : List Layer) :
    EndsBase (outer.tokens ++ ((stars.flatMap fun l => Token.mark "*" :: l.tokens) ++ rest)) := by
  intro t ht
  have hmarks : ∀ text ∈ layerStarts, text ∉ builtinWords ∧ text ∉ ["::", "<"] := by decide
  rw [← List.append_assoc, List.head?_append] at ht
  rcases Option.or_eq_some_iff.mp ht with ht | ⟨-, ht⟩
  · exact hmarks t.text (head_layers outer stars t ht)
  · obtain ⟨hwords, hends⟩ := hrest t ht
    refine ⟨fun hword => hwords (List.mem_append_left _ hword), fun hmark => hends ?_⟩
    simp only [List.mem_cons, List.not_mem_nil, or_false] at hmark ⊢
    rcases hmark with h | h <;> simp [h]

theorem length_le_intercalate {first : List Token} {lists : List (List Token)} (h : first ∈ lists)
    (separator : List Token) :
    first.length ≤ (separator.intercalate lists).length := by
  induction lists with
  | nil => cases h
  | cons list lists ih =>
    cases lists with
    | nil =>
      rw [List.mem_singleton.mp h, List.intercalate_singleton]
    | cons next lists =>
      rw [List.intercalate_cons_cons, List.length_append, List.length_append]
      rcases List.mem_cons.mp h with rfl | h
      · omega
      · have := ih h
        omega

theorem outcome_named (hfree : ∀ name, free name = true → name ∉ typeWords)
    (type : Parser NativeType) (name : ScopedName free) (tail : List Token) :
    (baseType type).outcome line (name.tokens ++ tail) memory = (namedType type).outcome line
    (name.tokens ++ tail) memory := by
  have hwords := hfree name.first.text name.first.isFree
  refine outcome_baseType_of_name type ⟨fun h => hwords (List.mem_append_left _ h),
    fun h => hwords ?_, fun h => hwords ?_⟩ <;>
    rw [h] <;> decide

mutual

/-- A base type is taken from its tokens, if the bound for nested types is large enough. -/
theorem BaseType.takes (hfree : ∀ name, free name = true → name ∉ typeWords) :
    (base : BaseType free) → ∀ bound, base.tokens.length ≤ bound → ∀ rest, EndsBase rest →
      ∀ line memory, memory.aliases = [] →
        (baseType (typeWithin bound)).outcome line (base.tokens ++ rest) memory =
        (.ok (base.native, rest), memory)
  | .builtin kind, bound, _, rest, hrest, line, memory, _ => by
    by_cases hnull : kind = .nullptr
    · subst hnull
      have htaken := @outcome_nullptr line rest memory (typeWithin bound) hrest
      rw [BaseType.tokens, BaseType.native, ← htaken]
      exact outcome_baseType_of_name _ (by decide)
    · obtain ⟨⟨first, row, hrow⟩, hwords, hkind⟩ := builtinOfWords_wordsOf hnull
      have htaken : (words builtinWords.contains).outcome line (builtinTokens kind ++ rest) memory =
          (.ok (wordsOf kind, rest), memory) := by
        rw [builtinTokens, if_neg hnull]
        exact outcome_words hwords fun t ht => by simpa using (hrest t ht).1
      rw [BaseType.tokens, BaseType.native, baseType, outcome_bind, htaken]
      rw [hrow] at hkind ⊢
      simp [hkind]
  | .named name hown, bound, _, rest, hrest, line, memory, haliases => by
    rw [BaseType.tokens, BaseType.native, outcome_named hfree,
      outcome_namedType _ haliases hrest name hown]
  | .applied template arguments, bound, hbound, rest, hrest, line, memory, haliases => by
    have htype := PlainType.takesAll hfree arguments bound <| by
      intro argument hmem
      have hle := length_le_intercalate
        (PlainType.tokenLists_eq arguments ▸ List.mem_map_of_mem hmem) [Token.mark ","]
      rw [BaseType.tokens] at hbound
      simp only [List.length_append, List.length_cons, List.length_nil] at hbound
      omega
    have htaken := @outcome_applied line rest memory free _ haliases hrest template arguments htype
    rw [← htaken, BaseType.tokens, List.append_assoc, List.append_assoc, outcome_named hfree]

/-- A type is taken from its tokens, if the bound for nested types is large enough. -/
theorem PlainType.takes (hfree : ∀ name, free name = true → name ∉ typeWords) :
    (type : PlainType free) → ∀ bound, type.tokens.length < bound → Takes (typeWithin bound) type
  | .layered base outer stars, bound, hbound, rest, hrest, line, memory, haliases => by
    obtain ⟨name, tail, htokens, -, hname, -⟩ := BaseType.exists_tokens base
    cases bound with
    | zero => cases hbound
    | succ bound =>
      have hlength : base.tokens.length ≤ bound := by
        rw [PlainType.tokens] at hbound
        simp only [List.length_append] at hbound
        omega
      have hbase := BaseType.takes hfree base bound hlength _ (endsBase_layers hrest outer stars)
        line memory haliases
      have hleading := @outcome_leadingQualifiers line (base.tokens ++ (outer.tokens ++
          ((stars.flatMap fun l => Token.mark "*" :: l.tokens) ++ rest))) memory fun t ht => by
        rw [htokens] at ht
        obtain rfl := Option.some.inj ht
        have hwords : ∀ name ∈ "std" :: builtinWords,
            name ∉ ["const", "volatile", "typename", "struct", "class", "enum"] := by
          decide
        have hleads : ∀ name ∈ ["const", "volatile", "typename", "struct", "class", "enum"],
            name ∈ typeWords := by
          decide
        exact hname.elim (hwords name) fun hname hmem => hfree name hname (hleads name hmem)
      have hstars := loops_reference outer
        (@loops_stars line rest memory hrest stars (outer.wrap base.native))
      rw [PlainType.tokens, PlainType.native, List.append_assoc, List.append_assoc, typeWithin,
        typeWith]
      rw [outcome_bind, hleading]
      simp only [outcome_bind, hbase]
      rw [Layer.tokens_append] 
      simp only [outcome_qualifiers (not_qualifier hrest outer stars)]
      exact hstars.outcome_loop

/-- All types of a list are taken from their tokens. -/
theorem PlainType.takesAll (hfree : ∀ name, free name = true → name ∉ typeWords) :
    (types : List (PlainType free)) → ∀ bound, (∀ type ∈ types, type.tokens.length < bound) →
      ∀ type ∈ types, Takes (typeWithin bound) type
  | [], _, _, _, hmem => by cases hmem
  | first :: rest, bound, hbound, type, hmem => by
    rcases List.mem_cons.mp hmem with heq | hmem
    · rw [heq]
      exact PlainType.takes hfree first bound (hbound first List.mem_cons_self)
    · exact PlainType.takesAll hfree rest bound
        (fun type hmem => hbound type (List.mem_cons_of_mem first hmem)) type hmem

end

/-- A plain type is taken from its tokens. -/
theorem outcome_type (hfree : ∀ name, free name = true → name ∉ typeWords) (type : PlainType free) :
    Takes Parser.type type := by
  intro rest hrest line memory haliases
  rw [Parser.type, outcome_bind, outcome_get]
  refine PlainType.takes hfree type _ ?_ rest hrest line memory haliases
  rw [List.length_append]
  omega

end Interop.Header.Parser
