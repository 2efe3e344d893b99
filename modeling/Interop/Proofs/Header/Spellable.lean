import Interop.Proofs.Header.TypeReading

namespace Interop

open Header

/-- Whether a name is made of identifiers with double colons between them, none of which means
something to the reader of a type. -/
def IsUserName (name : String) : Prop :=
  ∃ parts : List String, parts ≠ [] ∧ name = "::".intercalate parts ∧
    ∀ part ∈ parts, Lexeme.isName part.toList = true ∧ part ∉ typeWords

namespace NativeType

/-- Whether a type is a reference. -/
def isReference : NativeType → Bool
  | reference _ _ => true
  | _ => false

/-- Whether a type has qualifiers. -/
def isQualified : NativeType → Bool
  | qualified _ _ _ => true
  | _ => false

mutual

/-- Whether a type is made of builtin types, names without aliases and instances of templates over
such types, in stars, references that do not refer to references, and qualifiers of what is neither
qualified nor a reference. -/
def Spellable : NativeType → Prop
  | builtin _ => True
  | named name => IsUserName name ∧ name ∉ ["nullptr_t", "std::nullptr_t"]
  | qualified inner isConst isVolatile =>
    (isConst || isVolatile) = true ∧ inner.isQualified = false ∧ inner.isReference = false ∧
      inner.Spellable
  | pointer pointee => pointee.Spellable
  | reference referee _ => referee.isReference = false ∧ referee.Spellable
  | applied template arguments => IsUserName template ∧ AllSpellable arguments
  | synonym _ _ => False
  | array _ _ => False
  | unexposed _ => False

/-- Whether all types of a list are such. -/
def AllSpellable : List NativeType → Prop
  | [] => True
  | type :: rest => type.Spellable ∧ AllSpellable rest

end

end NativeType

namespace Header

/-- Whether a word is free to be used as a part of a name. -/
def isFreeWord (name : String) : Bool :=
  !typeWords.contains name

/-- Every name that a user may give is one with scopes. -/
theorem exists_scopedName {name : String} (h : IsUserName name) :
    ∃ n : ScopedName isFreeWord, n.text = name := by
  obtain ⟨parts, hne, rfl, hparts⟩ := h
  obtain ⟨names, rfl⟩ : ∃ names : List (Name isFreeWord), names.map Name.text = parts := by
    refine ⟨parts.pmap (fun part h => ⟨part, h.1, by simpa [isFreeWord] using h.2⟩) hparts, ?_⟩
    rw [List.map_pmap, List.pmap_eq_map, List.map_id']
  cases names with
  | nil => exact absurd rfl hne
  | cons first rest => exact ⟨⟨first, rest⟩, rfl⟩

/-- The outermost layer of a type is around its base or a star, and may be changed. -/
theorem PlainType.exists_layer {free : String → Bool} (type : PlainType free) :
    ∃ (inner : NativeType) (l : Layer) (withLayer : Layer → PlainType free),
      inner.isReference = false ∧ inner.isQualified = false ∧ type.native = l.wrap inner ∧
        ∀ l', (withLayer l').native = l'.wrap inner := by
  obtain ⟨base, outer, stars⟩ := type
  rcases List.eq_nil_or_concat stars with rfl | ⟨init, last, rfl⟩
  · refine ⟨base.native, outer, fun l => .layered base l [], ?_, ?_, rfl, fun _ => rfl⟩
    · cases base <;> rfl
    · cases base <;> rfl
  · refine ⟨.pointer (PlainType.layered base outer init).native, last,
      fun l => .layered base outer (init ++ [l]), rfl, rfl,
      ?_, fun l' => ?_⟩
    · simp [PlainType.native]
    · simp [PlainType.native]

/-- A layer that is around something with nothing of it to be seen is empty. -/
theorem Layer.eq_of_wrap {l : Layer} {inner : NativeType}
    (hreference : (l.wrap inner).isReference = false) :
    l.reference? = none ∧ ((l.wrap inner).isQualified = false → l.isConst = false ∧
      l.isVolatile = false) := by
  obtain ⟨isConst, isVolatile, reference?⟩ := l
  cases reference? with
  | some kind => cases hreference
  | none =>
    refine ⟨rfl, fun hqualified => ?_⟩
    cases isConst <;> cases isVolatile <;> first | exact ⟨rfl, rfl⟩ | cases hqualified

mutual

/-- What may be spelled and read back is a type in layers. -/
theorem exists_plainType :
    (type : NativeType) → type.Spellable → ∃ p : PlainType isFreeWord, p.native = type
  | .builtin kind, _ => ⟨.layered (.builtin kind) {} [], rfl⟩
  | .named name, h => by
    unfold NativeType.Spellable at h
    obtain ⟨n, rfl⟩ := exists_scopedName h.1
    exact ⟨.layered (.named n h.2) {} [], rfl⟩
  | .qualified inner isConst isVolatile, h => by
    unfold NativeType.Spellable at h
    obtain ⟨hset, hqualified, hreference, hinner⟩ := h
    obtain ⟨p, rfl⟩ := exists_plainType inner hinner
    obtain ⟨core, l, withLayer, hcore, -, hnative, hwith⟩ := p.exists_layer
    rw [hnative] at hqualified hreference
    obtain ⟨hnone, hbare⟩ := Layer.eq_of_wrap hreference
    obtain ⟨hconst, hvolatile⟩ := hbare hqualified
    have hsame : l.wrap core = core :=
      by simp [Layer.wrap, hnone, hconst, hvolatile, NativeType.qualify]
    refine ⟨withLayer { isConst, isVolatile }, ?_⟩
    rw [hwith, hnative, hsame]
    simp [Layer.wrap, NativeType.qualify, hset]
  | .pointer pointee, h => by
    unfold NativeType.Spellable at h
    obtain ⟨⟨base, outer, stars⟩, rfl⟩ := exists_plainType pointee h
    refine ⟨.layered base outer (stars ++ [({} : Layer)]), ?_⟩
    simp [PlainType.native, Layer.wrap, NativeType.qualify]
  | .reference referee kind, h => by
    unfold NativeType.Spellable at h
    obtain ⟨hreference, hreferee⟩ := h
    obtain ⟨p, rfl⟩ := exists_plainType referee hreferee
    obtain ⟨core, l, withLayer, -, -, hnative, hwith⟩ := p.exists_layer
    rw [hnative] at hreference
    obtain ⟨hnone, -⟩ := Layer.eq_of_wrap hreference
    refine ⟨withLayer { l with reference? := some kind }, ?_⟩
    rw [hwith, hnative]
    simp [Layer.wrap, hnone]
  | .applied template arguments, h => by
    unfold NativeType.Spellable at h
    obtain ⟨n, rfl⟩ := exists_scopedName h.1
    obtain ⟨ps, rfl⟩ := exists_plainTypes arguments h.2
    exact ⟨.layered (.applied n ps) {} [], rfl⟩
  | .synonym _ _, h => h.elim
  | .array _ _, h => h.elim
  | .unexposed _, h => h.elim

theorem exists_plainTypes : (types : List NativeType) → NativeType.AllSpellable types →
    ∃ ps : List (PlainType isFreeWord), PlainType.natives ps = types
  | [], _ => ⟨[], rfl⟩
  | type :: rest, h => by
    unfold NativeType.AllSpellable at h
    obtain ⟨p, rfl⟩ := exists_plainType type h.1
    obtain ⟨ps, rfl⟩ := exists_plainTypes rest h.2
    exact ⟨p :: ps, rfl⟩

end

end Header

/-- A type is read back from its spelling: the spelling is read as tokens, and where no aliases are
in scope all of them are taken as exactly that type. -/
theorem NativeType.Spellable.read_back {type : NativeType} (h : type.Spellable) :
    ∃ tokens, Token.ofText type.spelling.toList = .ok tokens ∧ ∀ line memory, memory.aliases = [] →
      Parser.type.outcome line tokens memory = (.ok (type, []), memory) := by
  obtain ⟨p, rfl⟩ := exists_plainType type h
  refine ⟨p.tokens, ?_, fun line memory haliases => ?_⟩
  · have hlexes := p.reads.lexes [] nofun
    rw [List.append_nil] at hlexes
    rw [hlexes]
    exact congrArg Except.ok (List.append_nil p.tokens)
  · have hfree : ∀ name, isFreeWord name = true → name ∉ typeWords := fun name hname => by
      simpa [isFreeWord] using hname
    have htaken := Parser.outcome_type hfree p [] nofun line memory haliases
    rwa [List.append_nil] at htaken

/-- A reference to pointers to an instance of a template, with such an instance among its arguments,
is read back. -/
theorem NativeType.Spellable.read_back_nested :
    let name := NativeType.named "geo::Point"
    let first := NativeType.pointer (.qualified (.builtin .unsignedLongLong) true false)
    let second := NativeType.reference
      (.applied "std::vector" [.reference (.qualified name true true) .lvalue, .builtin .nullptr])
      .rvalue
    let type := NativeType.reference
      (.qualified (.pointer (.pointer (.reference (.applied "Map" [first, second]) .rvalue)))
      false true) .lvalue
    type.spelling = "Map<unsigned long long const*, " ++
        "std::vector<geo::Point const volatile&, std::nullptr_t>&&>&&** volatile&" ∧
      type.Spellable ∧
      ∃ tokens, Token.ofText type.spelling.toList = .ok tokens ∧
        ∀ line memory, memory.aliases = [] →
            Parser.type.outcome line tokens memory = (.ok (type, []), memory) := by
  intro name first second type
  have hname : ∀ parts : List String, parts ≠ [] →
      (∀ part ∈ parts, Lexeme.isName part.toList = true ∧ part ∉ typeWords) →
      IsUserName ("::".intercalate parts) := fun parts hne hparts => ⟨parts, hne, rfl, hparts⟩
  have hpoint : IsUserName "geo::Point" := hname ["geo", "Point"] (by decide) (by decide)
  have hvector : IsUserName "std::vector" := hname ["std", "vector"] (by decide) (by decide)
  have hmap : IsUserName "Map" := hname ["Map"] (by decide) (by decide)
  have htype : type.Spellable := by
    simp [type, first, second, name, NativeType.Spellable, NativeType.AllSpellable, hpoint,
      hvector, hmap, NativeType.isReference, NativeType.isQualified]
  exact ⟨by decide, htype, htype.read_back⟩

end Interop
