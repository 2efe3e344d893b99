import Interop.Header.TypeSyntax
import Interop.Proofs.Header.Lexing
import Interop.Proofs.Header.Outcome

namespace Interop

namespace Header

/-- The words that mean something to the reader of a type. -/
def typeWords : List String :=
  Parser.builtinWords ++ ["const", "volatile", "typename", "struct", "class", "enum", "auto",
    "decltype"]

/-- An identifier that is free to be used as a name. -/
structure Name (free : String → Bool) where
  text : String
  isName : Lexeme.isName text.toList = true
  isFree : free text = true

/-- Names with double colons between them. -/
structure ScopedName (free : String → Bool) where
  first : Name free
  rest : List (Name free) := []

/-- What stands behind a base type or a star: qualifiers, and then perhaps a reference. -/
structure Layer where
  isConst : Bool := false
  isVolatile : Bool := false
  reference? : Option RefKind := none

namespace ScopedName

variable {free : String → Bool}

def text (n : ScopedName free) : String :=
  "::".intercalate (n.first.text :: n.rest.map Name.text)

/-- The tokens of a name. -/
def tokens (n : ScopedName free) : List Token :=
  .word n.first.text :: n.rest.flatMap fun part => [.mark "::", .word part.text]

end ScopedName

namespace Layer

/-- A type inside a layer. -/
def wrap (l : Layer) (type : NativeType) : NativeType :=
  let qualified := type.qualify l.isConst l.isVolatile
  l.reference?.elim qualified (.reference qualified)

def text (l : Layer) : String :=
  (if l.isConst then " const" else "") ++ (if l.isVolatile then " volatile" else "") ++
    l.reference?.elim "" fun | .lvalue => "&" | .rvalue => "&&"

def tokens (l : Layer) : List Token :=
  (if l.isConst then [.word "const"] else []) ++ (if l.isVolatile then [.word "volatile"]
    else []) ++ l.reference?.elim [] fun | .lvalue => [.mark "&"] | .rvalue => [.mark "&&"]

/-- A layer is written behind the type it wraps. -/
theorem spelling_wrap (l : Layer) (type : NativeType) :
    (l.wrap type).spelling = type.spelling ++ l.text := by
  obtain ⟨isConst, isVolatile, reference?⟩ := l
  have hqualified : (type.qualify isConst isVolatile).spelling =
      type.spelling ++ ((if isConst then " const" else "") ++ (if isVolatile then " volatile"
          else "")) := by
    cases isConst <;> cases isVolatile <;> simp [NativeType.qualify, NativeType.spelling,
      String.append_assoc]
  cases reference? with
  | none => simp [wrap, text, hqualified]
  | some kind =>
    cases kind <;> simp [wrap, text, NativeType.spelling, hqualified, String.append_assoc]

end Layer

mutual

/-- A type without qualifiers and indirections. -/
inductive BaseType (free : String → Bool) where
  | builtin (kind : Builtin)
  | named (name : ScopedName free) (isOwn : name.text ∉ ["nullptr_t", "std::nullptr_t"])
  | applied (template : ScopedName free) (arguments : List (PlainType free))

/-- A type made of a base type and the layers around it: that of the base, and one for each star. -/
inductive PlainType (free : String → Bool) where
  | layered (base : BaseType free) (outer : Layer) (stars : List Layer)

end

variable {free : String → Bool}

mutual

def BaseType.native : BaseType free → NativeType
  | .builtin kind => .builtin kind
  | .named name _ => .named name.text
  | .applied template arguments => .applied template.text (PlainType.natives arguments)

/-- The type that is meant. -/
def PlainType.native : PlainType free → NativeType
  | .layered base outer stars => stars.foldl (fun type l => l.wrap (.pointer type))
    (outer.wrap base.native)

def PlainType.natives : List (PlainType free) → List NativeType
  | [] => []
  | type :: rest => type.native :: PlainType.natives rest

end

/-- The words that a builtin type is made of; the type of null pointers has a name instead. -/
def wordsOf : Builtin → List String
  | .signedChar => ["signed", "char"]
  | .unsignedChar => ["unsigned", "char"]
  | .unsignedShort => ["unsigned", "short"]
  | .unsignedInt => ["unsigned", "int"]
  | .unsignedLong => ["unsigned", "long"]
  | .longLong => ["long", "long"]
  | .unsignedLongLong => ["unsigned", "long", "long"]
  | .longDouble => ["long", "double"]
  | .nullptr => []
  | kind => [kind.spelling]

def builtinTokens (kind : Builtin) : List Token :=
  if kind = .nullptr then [.word "std", .mark "::", .word "nullptr_t"] else (wordsOf kind).map .word

mutual

/-- The tokens of a base type. -/
def BaseType.tokens : BaseType free → List Token
  | .builtin kind => builtinTokens kind
  | .named name _ => name.tokens
  | .applied template arguments =>
    template.tokens ++ .mark "<" :: [Token.mark ","].intercalate
      (PlainType.tokenLists arguments) ++ [.mark ">"]

/-- The tokens of a type. -/
def PlainType.tokens : PlainType free → List Token
  | .layered base outer stars => base.tokens ++ outer.tokens ++ stars.flatMap fun l =>
    .mark "*" :: l.tokens

/-- The tokens of several types, one after the other. -/
def PlainType.tokenLists : List (PlainType free) → List (List Token)
  | [] => []
  | type :: rest => type.tokens :: PlainType.tokenLists rest

end

theorem PlainType.natives_eq (types : List (PlainType free)) :
    PlainType.natives types = types.map PlainType.native := by
  induction types with
  | nil => rfl
  | cons type rest ih => rw [PlainType.natives, ih, List.map_cons]

theorem PlainType.tokenLists_eq (types : List (PlainType free)) :
    PlainType.tokenLists types = types.map PlainType.tokens := by
  induction types with
  | nil => rfl
  | cons type rest ih => rw [PlainType.tokenLists, ih, List.map_cons]

theorem NativeType.spellings_eq (types : List NativeType) :
    NativeType.spellings types = types.map NativeType.spelling := by
  induction types with
  | nil => rfl
  | cons type rest ih => rw [NativeType.spellings, ih, List.map_cons]

open Token

/-- Whether a character may stand behind a name. -/
abbrev EndsName (c : Char) : Prop :=
  Directive.isNameChar c = false ∧ c ≠ '"'

/-- Whether a character may stand behind a type without a reference. -/
def EndsQualified (c : Char) : Prop :=
  c ∈ breaks ∨ c = '&'

/-- A name ends at each break. -/
theorem EndsName.of_break {c : Char} (h : c ∈ breaks) : EndsName c :=
  (breaks_apart h).1

theorem EndsQualified.endsName {c : Char} (h : EndsQualified c) : EndsName c := by
  rcases h with h | rfl
  · exact .of_break h
  · decide

namespace Name

/-- A name is no mark. -/
theorem text_eq (n : Name free) {mark : String} (h : Lexeme.isName mark.toList = false) :
    (n.text = mark) = False :=
  eq_false fun heq => by
    rw [← heq, n.isName] at h
    cases h

/-- A name is read back. -/
theorem reads (n : Name free) :
    Reads n.text [.word n.text] (Directive.isNameStart · = true) EndsName :=
  .word n.isName

end Name

/-- A name is read as its parts. -/
theorem ScopedName.reads (n : ScopedName free) :
    Reads n.text n.tokens (Directive.isNameStart · = true) EndsName := by
  have htokens : n.tokens = [.mark "::"].intercalate ((n.first :: n.rest).map fun part =>
      [.word part.text]) := by
    obtain ⟨first, rest⟩ := n
    induction rest generalizing first with
    | nil => rfl
    | cons part rest ih =>
      have hpart := ih part
      simp only [tokens, List.map_cons, List.intercalate_cons_cons] at hpart ⊢
      rw [← hpart]
      rfl
  have hcolons : Reads "::" [.mark "::"] (· = ':') (Directive.isNameStart · = true) :=
    Reads.colons.mono (fun _ hc => hc) fun _ _ => trivial
  rw [htokens, text, ← List.map_cons]
  exact hcolons.intercalated (fun c hc => by rw [hc]; decide) fun part _ => part.reads

/-- A word behind a piece, if it is set. -/
theorem Token.Reads.qualified {text name : String} {tokens : List Token} {first : Char → Prop}
    (h : Reads text tokens first EndsQualified) (isSet : Bool)
    (hname : Lexeme.isName name.toList = true) :
    Reads (text ++ if isSet then " " ++ name else "") (tokens ++ if isSet then [Token.word name]
      else []) first
      EndsQualified := by
  cases isSet with
  | false => simpa using h
  | true =>
    have hword : Reads name [.word name] (Directive.isNameStart · = true) EndsQualified :=
      (Reads.word hname).mono (fun _ hc => hc) fun _ => EndsQualified.endsName
    exact h.append (hword.behindBlank fun c hc => (Lexeme.isNameStart_apart hc).1) fun c hc =>
      .inl (by rw [hc]; decide)

/-- What a layer adds to a text is read as what it adds to the tokens. -/
theorem Layer.reads {text : String} {tokens : List Token} {first : Char → Prop}
    (h : Reads text tokens first EndsQualified) (l : Layer) :
    Reads (text ++ l.text) (tokens ++ l.tokens) first (· ∈ breaks) := by
  have hconst := h.qualified l.isConst (show Lexeme.isName "const".toList = true by decide)
  have hqualified := hconst.qualified l.isVolatile (show Lexeme.isName "volatile".toList =
    true by decide)
  rw [Layer.text, Layer.tokens, ← String.append_assoc, ← String.append_assoc,
    ← List.append_assoc, ← List.append_assoc]
  cases l.reference? with
  | none => simpa using hqualified.mono (fun _ hc => hc) fun _ => .inl
  | some kind =>
    cases kind with
    | lvalue =>
      have hmark : Reads "&" [.mark "&"] (· = '&') (· ∈ breaks) :=
        (Reads.mark (by decide) rfl).mono (fun _ hc => hc) fun d hd =>
          (breaks_apart hd).2.2 _ (by decide)
      exact hqualified.append hmark fun _ => .inr
    | rvalue =>
      exact hqualified.append (Reads.ampersands.mono (fun _ hc => hc) fun _ _ =>
        trivial) fun _ => .inr

theorem intercalate_words (names : List String) :
    ([] : List Token).intercalate (names.map fun name => [.word name]) = names.map .word := by
  induction names with
  | nil => rfl
  | cons name rest ih =>
    cases rest with
    | nil => rfl
    | cons next rest =>
      rw [List.map_cons] at ih
      rw [List.map_cons, List.map_cons, List.intercalate_cons_cons, ih]
      rfl

/-- The words of a builtin are read back. -/
theorem reads_builtin (kind : Builtin) :
    Reads kind.spelling (builtinTokens kind) (Directive.isNameStart · = true) EndsQualified := by
  by_cases hnull : kind = .nullptr
  · subst hnull
    let name : ScopedName fun _ => true :=
      ⟨⟨"std", by decide, rfl⟩, [⟨"nullptr_t", by decide, rfl⟩]⟩
    exact name.reads.mono (fun _ hc => hc) fun _ => EndsQualified.endsName
  · have hwords : ∃ first rest, wordsOf kind = first :: rest ∧
        kind.spelling = " ".intercalate (first :: rest) ∧
            ∀ name ∈ first :: rest, Lexeme.isName name.toList = true := by
      cases kind <;> first | exact absurd rfl hnull | exact ⟨_, _, rfl, by decide, by decide⟩
    obtain ⟨first, rest, hwords, hspelling, hnames⟩ := hwords
    have hblank : Reads " " [] (· = ' ') (Directive.isNameStart · = true) :=
      Reads.blank.mono (fun _ hc => hc) fun c hc => (Lexeme.isNameStart_apart hc).1
    have hall : Reads (" ".intercalate ((first :: rest).map id)) _ _ _ :=
      hblank.intercalated (fun c hc => .inl (by rw [hc]; decide)) fun name hname =>
        (Reads.word (hnames name hname)).mono (fun _ hc => hc) fun _ => EndsQualified.endsName
    rw [builtinTokens, if_neg hnull, hwords, hspelling, ← intercalate_words]
    rwa [List.map_id] at hall

/-- Stars with what follows each of them are read as such. -/
theorem reads_stars (stars : List Layer) {type : NativeType} {tokens : List Token}
    {first : Char → Prop} (h : Reads type.spelling tokens first (· ∈ breaks)) :
    Reads (stars.foldl (fun type l => l.wrap (.pointer type)) type).spelling
      (tokens ++ stars.flatMap fun l => .mark "*" :: l.tokens) first (· ∈ breaks) := by
  induction stars generalizing type tokens with
  | nil =>
    rw [List.flatMap_nil, List.append_nil]
    exact h
  | cons l stars ih =>
    have hmark : Reads "*" [.mark "*"] (· = '*') EndsQualified :=
      (Reads.mark (by decide) rfl).mono (fun _ hc => hc) fun d hd => by
        rcases hd with hd | rfl
        · exact (breaks_apart hd).2.2 _ (by decide)
        · decide
    have hstar : Reads (NativeType.pointer type).spelling (tokens ++
        [Token.mark "*"]) first EndsQualified := by
      rw [NativeType.spelling]
      exact h.append hmark fun c hc => by rw [hc]; decide
    have hlayer := l.reads hstar
    rw [← Layer.spelling_wrap] at hlayer
    have htokens : tokens ++ (l :: stars).flatMap (fun l => Token.mark "*" :: l.tokens) =
        tokens ++ [Token.mark "*"] ++ l.tokens ++ stars.flatMap fun l => .mark "*" :: l.tokens :=
          by simp
    rw [htokens]
    exact ih hlayer

mutual

/-- The spelling of a base type is read as its tokens. -/
theorem BaseType.reads : (type : BaseType free) →
    Reads type.native.spelling type.tokens (Directive.isNameStart · = true) EndsQualified
  | .builtin kind => by
    rw [BaseType.native, BaseType.tokens, NativeType.spelling]
    exact reads_builtin kind
  | .named name _ => by
    rw [BaseType.native, BaseType.tokens, NativeType.spelling]
    exact name.reads.mono (fun _ hc => hc) fun _ => EndsQualified.endsName
  | .applied template arguments => by
    have hopening : Reads "<" [.mark "<"] (· = '<') (Lexeme.joins '<' · = false) :=
      .mark (by decide) rfl
    have hclosing : Reads ">" [.mark ">"] (· = '>') EndsQualified :=
      (Reads.mark (by decide) rfl).mono (fun _ hc => hc) fun d hd => by
        rcases hd with hd | rfl
        · exact (breaks_apart hd).2.2 _ (by decide)
        · decide
    have hlist := Reads.list hclosing (by decide) (PlainType.reads_all arguments)
    have hinside := hopening.append hlist fun c hc => by
      rcases hc with hc | rfl
      · exact Lexeme.joins_of_isNameStart hc _
      · decide
    have hall := template.reads.append hinside fun c hc => by rw [hc]; decide
    rw [BaseType.native, BaseType.tokens, NativeType.spelling, NativeType.spellings_eq,
      PlainType.natives_eq, PlainType.tokenLists_eq, List.map_map]
    simpa [String.append_assoc, Function.comp_def] using hall

/-- The spelling of a type is read as its tokens. -/
theorem PlainType.reads : (type : PlainType free) →
    Reads type.native.spelling type.tokens (Directive.isNameStart · = true) (· ∈ breaks)
  | .layered base outer stars => by
    have hlayer := outer.reads (BaseType.reads base)
    rw [← Layer.spelling_wrap] at hlayer
    exact reads_stars stars hlayer

/-- The types of a list are read back, each by its own structure. -/
theorem PlainType.reads_all : (types : List (PlainType free)) → ∀ type ∈ types,
    Reads type.native.spelling type.tokens (Directive.isNameStart · = true) (· ∈ breaks)
  | [] => nofun
  | type :: rest => List.forall_mem_cons.mpr ⟨PlainType.reads type, PlainType.reads_all rest⟩

end

end Header

end Interop
