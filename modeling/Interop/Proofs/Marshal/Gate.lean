import Interop.Proofs.Marshal.Resolution

namespace Interop

open Overlay

namespace NativeType

@[simp]
theorem base_unqualified : (type : NativeType) → type.unqualified.base = type.base
  | .qualified inner _ _ => inner.base_unqualified
  | .builtin _ | .named _ | .synonym _ _ | .pointer _ | .reference _ _ | .array _ _ | .applied _ _
  | .unexposed _ => rfl

@[simp]
theorem crossesDirectly_unqualified :
    (type : NativeType) → type.unqualified.crossesDirectly = type.crossesDirectly
  | .qualified inner _ _ => inner.crossesDirectly_unqualified
  | .builtin _ | .named _ | .synonym _ _ | .pointer _ | .reference _ _ | .array _ _ | .applied _ _
  | .unexposed _ => rfl

/-- Whether the type is a template with arguments, without qualifiers. -/
def isApplied : NativeType → Bool
  | .applied _ _ => true
  | _ => false

/-- What crosses directly is no template. -/
theorem isApplied_of_crossesDirectly {type : NativeType} (h : type.crossesDirectly = true) :
    type.unqualified.isApplied = false := by
  rw [← crossesDirectly_unqualified] at h
  cases hinner : type.unqualified with
  | applied template arguments => rw [hinner] at h; cases h
  | _ => rfl

end NativeType

namespace Mapper

variable {m : Mapper} {type : NativeType}

/-- Whether the gate lets a type through by what it wraps or by its name. -/
def admits (m : Mapper) (type : NativeType) : Bool :=
  type.crossesDirectly || m.knows type.typeName

/-- Whether the first argument of a template is the name of an exported class or enum. -/
def knowsArgument (m : Mapper) (arguments : List NativeType) : Bool :=
  arguments.head?.any fun type => m.knows type.typeName

/-- The gate lets through builtins and mapped types, templates by their argument, and all else by
name or directly. -/
theorem accepts_eq (m : Mapper) (type : NativeType) :
    m.accepts type = (type.isBuiltin || (m.typeMap? type).isSome ||
      match type with
      | .applied _ _ => type.argumentName?.any m.knows
      | _ => type.crossesDirectly || m.knows type.typeName) :=
  rfl

/-- A reference is described by its referee without qualifiers. -/
theorem ofReference?_eq (m : Mapper) (referee : NativeType) (kind : RefKind) :
    m.ofReference? referee kind =
      match referee.unqualified with
      | .builtin kind => some (m.ofBuiltin kind)
      | inner =>
        match m.typeMap? referee, inner with
        | some map, _ => some (.ofTypeMap map)
        | none, .applied template arguments => m.ofApplied? template arguments
        | none, _ => m.ofName? referee.typeName
            (match kind with | .lvalue => .reference | .rvalue => .value) :=
  rfl

/-- The gate lets mapped types through. -/
theorem accepts_of_typeMap? (h : (m.typeMap? type).isSome = true) : m.accepts type = true := by
  rw [accepts_eq, h, Bool.or_true, Bool.true_or]

/-- A mapped type is described by its map. -/
theorem resolve?_mapped {map : TypeMap} (h : m.typeMap? type = some map) :
    m.resolve? type = some (.ofTypeMap map) := by
  cases type <;> simp only [resolve?, ofBuiltin, ofApplied?, h]

theorem resolve?_of_typeMap? (h : (m.typeMap? type).isSome = true) :
    (m.resolve? type).isSome = true := by
  obtain ⟨map, hmap⟩ := Option.isSome_iff_exists.mp h
  rw [resolve?_mapped hmap, Option.isSome_some]

/-- Behind the type maps the gate asks for the name only, except for builtins and templates. -/
theorem accepts_eq_admits (hmap : m.typeMap? type = none) (hbuiltin : type.isBuiltin = false)
    (happlied : type.isApplied = false) : m.accepts type = m.admits type := by
  rw [accepts_eq, hmap, hbuiltin]
  cases type with
  | applied template arguments => cases happlied
  | _ => rfl

/-- The gate lets through what crosses directly. -/
theorem accepts_of_crossesDirectly (h : type.crossesDirectly = true) : m.accepts type = true := by
  cases type with
  | builtin kind => rfl
  | applied template arguments => cases h
  | _ =>
    rw [accepts_eq]
    simp only [h, Bool.true_or, Bool.or_true]

/-- The gate lets a template through if it knows its first argument. -/
theorem accepts_applied {template : String} {arguments : List NativeType}
    (hmap : m.typeMap? (.applied template arguments) = none) :
    m.accepts (.applied template arguments) = m.knowsArgument arguments := by
  rw [accepts_eq, hmap]
  cases arguments with
  | nil => rfl
  | cons first rest => rfl

/-- A type that has no type map is described by its form. -/
theorem resolve?_unmapped (h : m.typeMap? type = none) :
    m.resolve? type =
      match type with
      | .builtin kind => some (m.ofBuiltin kind)
      | .applied template arguments => m.ofApplied? template arguments
      | .qualified inner _ _ => m.resolve? inner
      | .synonym name target =>
        match m.typeNamed? name with
        | some id => m.ofNode? id .value
        | none => m.resolve? target
      | .named name => m.ofName? name .value
      | .pointer pointee =>
        if type.crossesDirectly then some (.direct "IntPtr" type.spelling)
          else m.ofName? pointee.typeName .pointer
      | .reference referee kind => m.ofReference? referee kind
      | _ => none := by
  cases type with
  | synonym name target =>
    simp only [resolve?, h]
    cases m.typeNamed? name <;> rfl
  | _ => simp only [resolve?, h]

/-- A template is described if its first argument is known, as the gate has it. -/
theorem resolve?_applied {template : String} {arguments : List NativeType}
    (hmap : m.typeMap? (.applied template arguments) = none) :
    (m.resolve? (.applied template arguments)).isSome = m.knowsArgument arguments := by
  rw [resolve?_unmapped hmap]
  exact (ofApplied?_isSome ..).trans (by rw [hmap]; rfl)

/-- A template has no type map where something that wraps it has none. -/
theorem typeMap?_applied {template : String} {arguments : List NativeType}
    (hmap : m.typeMap? type = none) (hbase : type.base = .applied template arguments) :
    m.typeMap? (.applied template arguments) = none := by
  have hself : (NativeType.applied template arguments).base = .applied template arguments := rfl
  have hspelling : m.mapFor? type.base.spelling = none := (Option.or_eq_none_iff.mp hmap).2
  rw [hbase] at hspelling
  rw [typeMap?, hself, hspelling]
  rfl

/-- Qualifiers do not change how a type is described, unless the whole has a map. -/
theorem resolve?_qualified {inner : NativeType} {isConst isVolatile : Bool}
    (hmap : m.typeMap? (.qualified inner isConst isVolatile) = none) :
    m.resolve? (.qualified inner isConst isVolatile) = m.resolve? inner :=
  resolve?_unmapped hmap

/-- An alias is described by its name or by its target. -/
theorem resolve?_synonym {name : String} {target : NativeType}
    (hmap : m.typeMap? (.synonym name target) = none) :
    (m.resolve? (.synonym name target)).isSome = (m.knows name || (m.resolve? target).isSome) := by
  rw [resolve?_unmapped hmap, knows]
  simp only
  cases hname : m.typeNamed? name with
  | none => rfl
  | some id => exact ofNode?_isSome hname .value

/-- A named type is described exactly if the gate lets it through. -/
theorem resolve?_named {name : String} (hmap : m.typeMap? (.named name) = none) :
    (m.resolve? (.named name)).isSome = m.admits (.named name) := by
  rw [resolve?_unmapped hmap]
  exact ofName?_isSome m name .value

/-- A pointer is described exactly if the gate lets it through. -/
theorem resolve?_pointer {pointee : NativeType} (hmap : m.typeMap? (.pointer pointee) = none) :
    (m.resolve? (.pointer pointee)).isSome = m.admits (.pointer pointee) := by
  rw [resolve?_unmapped hmap, admits]
  simp only
  cases NativeType.crossesDirectly (.pointer pointee) with
  | true => rfl
  | false => exact ofName?_isSome m _ .pointer

theorem resolve?_reference {referee : NativeType} {kind : RefKind}
    (hmap : m.typeMap? (.reference referee kind) = none) :
    m.resolve? (.reference referee kind) = m.ofReference? referee kind :=
  resolve?_unmapped hmap

section Referee

variable {referee : NativeType} {kind : RefKind}

/-- References to builtins are described. -/
theorem ofReference?_builtin (h : referee.unqualified.isBuiltin = true) :
    (m.ofReference? referee kind).isSome = true := by
  rw [ofReference?_eq]
  cases hinner : referee.unqualified with
  | builtin kind => rfl
  | _ => rw [hinner] at h; cases h

/-- References to mapped types are described. -/
theorem ofReference?_mapped (h : (m.typeMap? referee).isSome = true) :
    (m.ofReference? referee kind).isSome = true := by
  obtain ⟨map, hmap⟩ := Option.isSome_iff_exists.mp h
  rw [ofReference?_eq]
  cases referee.unqualified <;> simp only [hmap, Option.isSome_some]

/-- A reference to a template is described if the first argument is known. -/
theorem ofReference?_applied {template : String} {arguments : List NativeType}
    (hmap : m.typeMap? referee = none) (h : referee.unqualified = .applied template arguments) :
    (m.ofReference? referee kind).isSome = m.knowsArgument arguments := by
  have hinner : m.typeMap? (.applied template arguments) = none :=
    typeMap?_applied hmap (by rw [← NativeType.base_unqualified, h]; rfl)
  rw [ofReference?_eq]
  simp only [h, hmap]
  rw [ofApplied?_isSome, hinner]
  rfl

/-- A reference to anything else is described if its name is known. The gate lets also pointers to
builtins through there. -/
theorem ofReference?_name (hmap : m.typeMap? referee = none)
    (hbuiltin : referee.unqualified.isBuiltin = false)
    (happlied : referee.unqualified.isApplied = false) :
    (m.ofReference? referee kind).isSome = m.knows referee.typeName := by
  rw [ofReference?_eq]
  cases hinner : referee.unqualified with
  | builtin kind => rw [hinner] at hbuiltin; cases hbuiltin
  | applied template arguments => rw [hinner] at happlied; cases happlied
  | _ =>
    simp only [hmap]
    exact ofName?_isSome m _ _

end Referee

/-- The types that pass the gate and do not resolve. -/
inductive Undescribed (m : Mapper) : NativeType → Prop where
  /-- The gate looks through arrays for a name. -/
  | array {element : NativeType} {size : Option String}
      (hmap : m.typeMap? (.array element size) = none)
      (hknows : m.knows element.typeName = true) : Undescribed m (.array element size)
  | unexposed {spelling : String} (hmap : m.typeMap? (.unexposed spelling) = none)
      (hknows : m.knows spelling = true) : Undescribed m (.unexposed spelling)
  /-- A pointer to a builtin or an alias of one, by reference. -/
  | reference {referee : NativeType} {kind : RefKind}
      (hmap : m.typeMap? (.reference referee kind) = none)
      (hreferee : m.typeMap? referee = none) (hbuiltin : referee.unqualified.isBuiltin = false)
      (hdirect : referee.crossesDirectly = true) (hknows : m.knows referee.typeName = false) :
      Undescribed m (.reference referee kind)
  /-- A template that is itself known by its spelling, although its argument is not. -/
  | referenceApplied {referee : NativeType} {kind : RefKind} {template : String}
      {arguments : List NativeType}
      (hmap : m.typeMap? (.reference referee kind) = none) (hreferee : m.typeMap? referee = none)
      (happlied : referee.unqualified = .applied template arguments)
      (hknows : m.knows referee.typeName = true) (hargument : m.knowsArgument arguments = false) :
      Undescribed m (.reference referee kind)
  | qualifiedApplied {template : String} {arguments : List NativeType} {isConst isVolatile : Bool}
      (hmap : m.typeMap? (.qualified (.applied template arguments) isConst isVolatile) = none)
      (hknows : m.knows (NativeType.applied template arguments).typeName = true)
      (hargument : m.knowsArgument arguments = false) :
      Undescribed m (.qualified (.applied template arguments) isConst isVolatile)
  | qualified {inner : NativeType} {isConst isVolatile : Bool}
      (hmap : m.typeMap? (.qualified inner isConst isVolatile) = none) (h : Undescribed m inner) :
      Undescribed m (.qualified inner isConst isVolatile)
  | synonym {name : String} {target : NativeType} (hmap : m.typeMap? (.synonym name target) = none)
      (hknows : m.knows name = false) (hdirect : target.crossesDirectly = true)
        (h : Undescribed m target) :
      Undescribed m (.synonym name target)

/-- The types that resolve and do not pass the gate. -/
inductive Refused (m : Mapper) : NativeType → Prop where
  /-- The gate looks for a type map of the whole only, and of what is left when all wrappers are
  taken off. -/
  | qualifiedMapped {inner : NativeType} {isConst isVolatile : Bool}
      (hmap : m.typeMap? (.qualified inner isConst isVolatile) = none)
      (hinner : (m.typeMap? inner).isSome = true) (hadmits : m.admits inner = false) :
      Refused m (.qualified inner isConst isVolatile)
  | referenceMapped {referee : NativeType} {kind : RefKind}
      (hmap : m.typeMap? (.reference referee kind) = none)
      (hreferee : (m.typeMap? referee).isSome = true) (hadmits : m.admits referee = false) :
      Refused m (.reference referee kind)
  /-- Wide characters pass as they are, and not behind wrappers. -/
  | qualifiedBuiltin {kind : Builtin} {isConst isVolatile : Bool}
      (hmap : m.typeMap? (.qualified (.builtin kind) isConst isVolatile) = none)
      (hadmits : m.admits (.builtin kind) = false) :
        Refused m (.qualified (.builtin kind) isConst isVolatile)
  | referenceBuiltin {referee : NativeType} {kind : RefKind}
      (hmap : m.typeMap? (.reference referee kind) = none)
      (hbuiltin : referee.unqualified.isBuiltin = true) (hadmits : m.admits referee = false) :
      Refused m (.reference referee kind)
  /-- The gate looks for the argument of a template only where nothing is wrapped around it. -/
  | qualifiedApplied {template : String} {arguments : List NativeType} {isConst isVolatile : Bool}
      (hmap : m.typeMap? (.qualified (.applied template arguments) isConst isVolatile) = none)
      (hargument : m.knowsArgument arguments = true)
        (hadmits : m.admits (.applied template arguments) = false) :
      Refused m (.qualified (.applied template arguments) isConst isVolatile)
  | referenceApplied {referee : NativeType} {kind : RefKind} {template : String}
      {arguments : List NativeType}
      (hmap : m.typeMap? (.reference referee kind) = none)
      (happlied : referee.unqualified = .applied template arguments)
      (hargument : m.knowsArgument arguments = true) (hadmits : m.admits referee = false) :
      Refused m (.reference referee kind)
  | qualified {inner : NativeType} {isConst isVolatile : Bool}
      (hmap : m.typeMap? (.qualified inner isConst isVolatile) = none) (h : Refused m inner) :
      Refused m (.qualified inner isConst isVolatile)
  /-- The marshaller looks through an alias, the gate only for a builtin. -/
  | synonym {name : String} {target : NativeType} (hmap : m.typeMap? (.synonym name target) = none)
      (hknows : m.knows name = false) (hdirect : target.crossesDirectly = false)
      (htarget : (m.resolve? target).isSome = true) : Refused m (.synonym name target)

/-- Where gate and marshaller part, the gate goes by what the type wraps or by its name. -/
theorem accepts_eq_admits_of_ne (h : m.accepts type ≠ (m.resolve? type).isSome) :
    m.accepts type = m.admits type := by
  have hmap : m.typeMap? type = none := by
    rw [← Option.not_isSome_iff_eq_none]
    exact fun hsome => h ((accepts_of_typeMap? hsome).trans (resolve?_of_typeMap? hsome).symm)
  cases type with
  | builtin kind => exact absurd rfl h
  | applied template arguments =>
    exact absurd ((accepts_applied hmap).trans (resolve?_applied hmap).symm) h
  | _ => exact accepts_eq_admits hmap rfl rfl

/-- An undescribed type passes the gate and is not described. -/
theorem Undescribed.parts (h : m.Undescribed type) :
    m.accepts type = true ∧ (m.resolve? type).isSome = false := by
  induction h with
  | array hmap hknows =>
    refine ⟨?_, ?_⟩
    · rw [accepts_eq_admits hmap rfl rfl, admits, NativeType.typeName, hknows, Bool.or_true]
    · rw [resolve?_unmapped hmap, Option.isSome_none]
  | unexposed hmap hknows =>
    refine ⟨?_, ?_⟩
    · rw [accepts_eq_admits hmap rfl rfl]
      exact hknows
    · rw [resolve?_unmapped hmap, Option.isSome_none]
  | reference hmap hreferee hbuiltin hdirect hknows =>
    refine ⟨accepts_of_crossesDirectly hdirect, ?_⟩
    rw [resolve?_reference hmap,
      ofReference?_name hreferee hbuiltin (NativeType.isApplied_of_crossesDirectly hdirect), hknows]
  | referenceApplied hmap hreferee happlied hknows hargument =>
    refine ⟨?_, ?_⟩
    · rw [accepts_eq_admits hmap rfl rfl, admits, NativeType.typeName, hknows, Bool.or_true]
    · rw [resolve?_reference hmap, ofReference?_applied hreferee happlied, hargument]
  | qualifiedApplied hmap hknows hargument =>
    refine ⟨?_, ?_⟩
    · rw [accepts_eq_admits hmap rfl rfl, admits, NativeType.typeName, hknows, Bool.or_true]
    · rw [resolve?_qualified hmap, resolve?_applied (typeMap?_applied hmap rfl), hargument]
  | qualified hmap _ ih =>
    obtain ⟨haccepts, hresolve⟩ := ih
    refine ⟨?_, ?_⟩
    · rw [accepts_eq_admits hmap rfl rfl, ← haccepts,
        accepts_eq_admits_of_ne (by rw [haccepts, hresolve]; exact Bool.false_ne_true.symm)]
      rfl
    · rw [resolve?_qualified hmap, hresolve]
  | synonym hmap hknows hdirect _ ih =>
    refine ⟨accepts_of_crossesDirectly hdirect, ?_⟩
    rw [resolve?_synonym hmap, hknows, ih.2]
    rfl

/-- A refused type is described and does not pass the gate. -/
theorem Refused.parts (h : m.Refused type) :
    m.accepts type = false ∧ (m.resolve? type).isSome = true := by
  induction h with
  | qualifiedMapped hmap hinner hadmits =>
    rw [accepts_eq_admits hmap rfl rfl, resolve?_qualified hmap]
    exact ⟨hadmits, resolve?_of_typeMap? hinner⟩
  | referenceMapped hmap hreferee hadmits =>
    rw [accepts_eq_admits hmap rfl rfl, resolve?_reference hmap]
    exact ⟨hadmits, ofReference?_mapped hreferee⟩
  | qualifiedBuiltin hmap hadmits =>
    rw [accepts_eq_admits hmap rfl rfl, resolve?_qualified hmap]
    exact ⟨hadmits, rfl⟩
  | referenceBuiltin hmap hbuiltin hadmits =>
    rw [accepts_eq_admits hmap rfl rfl, resolve?_reference hmap]
    exact ⟨hadmits, ofReference?_builtin hbuiltin⟩
  | qualifiedApplied hmap hargument hadmits =>
    rw [accepts_eq_admits hmap rfl rfl, resolve?_qualified hmap,
      resolve?_applied (typeMap?_applied hmap rfl)]
    exact ⟨hadmits, hargument⟩
  | @referenceApplied referee kind template arguments hmap happlied hargument hadmits =>
    rw [accepts_eq_admits hmap rfl rfl, resolve?_reference hmap]
    refine ⟨hadmits, ?_⟩
    cases hreferee : m.typeMap? referee with
    | some map => exact ofReference?_mapped (by rw [hreferee]; rfl)
    | none => rw [ofReference?_applied hreferee happlied, hargument]
  | qualified hmap _ ih =>
    obtain ⟨haccepts, hresolve⟩ := ih
    rw [accepts_eq_admits hmap rfl rfl, resolve?_qualified hmap]
    refine ⟨?_, hresolve⟩
    rw [← haccepts, accepts_eq_admits_of_ne (by rw [haccepts, hresolve]; nofun)]
    rfl
  | synonym hmap hknows hdirect htarget =>
    rw [accepts_eq_admits hmap rfl rfl, resolve?_synonym hmap, htarget, Bool.or_true]
    refine ⟨?_, rfl⟩
    rw [admits, NativeType.crossesDirectly, hdirect, NativeType.typeName, hknows]
    rfl

/-- Under qualifiers, the two part as they do without them, or over something that the gate takes
only bare. -/
theorem parts_qualified {inner : NativeType} {isConst isVolatile : Bool}
    (hmap : m.typeMap? (.qualified inner isConst isVolatile) = none)
    (ih : m.accepts inner ≠ (m.resolve? inner).isSome → m.Undescribed inner ∨ m.Refused inner)
    (h : m.admits inner ≠ (m.resolve? inner).isSome) :
    m.Undescribed (.qualified inner isConst isVolatile) ∨
      m.Refused (.qualified inner isConst isVolatile) := by
  cases hinner : m.typeMap? inner with
  | some map =>
    have hsome : (m.typeMap? inner).isSome = true := by rw [hinner]; rfl
    rw [resolve?_of_typeMap? hsome, ne_eq, Bool.not_eq_true] at h
    exact .inr (.qualifiedMapped hmap hsome h)
  | none =>
    have hplain : inner.isBuiltin = false → inner.isApplied = false →
        m.Undescribed (.qualified inner isConst isVolatile) ∨
            m.Refused (.qualified inner isConst isVolatile) := by
      intro hbuiltin happlied
      rw [← accepts_eq_admits hinner hbuiltin happlied] at h
      exact (ih h).imp (.qualified hmap) (.qualified hmap)
    cases inner with
    | builtin kind =>
      have hadmits : m.admits (.builtin kind) = false := by
        rw [ne_eq, Bool.eq_iff_iff] at h
        rw [← Bool.not_eq_true]
        exact fun htrue => h ⟨fun _ => rfl, fun _ => htrue⟩
      exact .inr (.qualifiedBuiltin hmap hadmits)
    | applied template arguments =>
      rw [resolve?_applied hinner] at h
      cases hargument : m.knowsArgument arguments with
      | true =>
        rw [hargument, ne_eq, Bool.not_eq_true] at h
        exact .inr (.qualifiedApplied hmap hargument h)
      | false =>
        rw [hargument, ne_eq, Bool.not_eq_false, admits] at h
        exact .inl (.qualifiedApplied hmap h hargument)
    | _ => exact hplain rfl rfl

/-- Where the gate and the description of a reference differ, it is one of the two kinds. -/
theorem parts_reference {referee : NativeType} {kind : RefKind}
    (hmap : m.typeMap? (.reference referee kind) = none)
    (h : m.admits referee ≠ (m.ofReference? referee kind).isSome) :
    m.Undescribed (.reference referee kind) ∨ m.Refused (.reference referee kind) := by
  cases hreferee : m.typeMap? referee with
  | some map =>
    have hsome : (m.typeMap? referee).isSome = true := by rw [hreferee]; rfl
    rw [ofReference?_mapped hsome, ne_eq, Bool.not_eq_true] at h
    exact .inr (.referenceMapped hmap hsome h)
  | none =>
    have hplain : referee.unqualified.isBuiltin = false → referee.unqualified.isApplied = false →
        m.Undescribed (.reference referee kind) ∨ m.Refused (.reference referee kind) := by
      intro hbuiltin happlied
      rw [ofReference?_name hreferee hbuiltin happlied, admits] at h
      cases hknows : m.knows referee.typeName with
      | true => rw [hknows, Bool.or_true] at h; exact absurd rfl h
      | false =>
        rw [hknows, Bool.or_false, ne_eq, Bool.not_eq_false] at h
        exact .inl (.reference hmap hreferee hbuiltin h hknows)
    cases hinner : referee.unqualified with
    | builtin builtin =>
      have hbuiltin : referee.unqualified.isBuiltin = true := by rw [hinner]; rfl
      rw [ofReference?_builtin hbuiltin, ne_eq, Bool.not_eq_true] at h
      exact .inr (.referenceBuiltin hmap hbuiltin h)
    | applied template arguments =>
      rw [ofReference?_applied hreferee hinner] at h
      cases hargument : m.knowsArgument arguments with
      | true =>
        rw [hargument, ne_eq, Bool.not_eq_true] at h
        exact .inr (.referenceApplied hmap hinner hargument h)
      | false =>
        have hdirect : referee.crossesDirectly = false := by
          rw [← NativeType.crossesDirectly_unqualified, hinner]
          rfl
        rw [hargument, ne_eq, Bool.not_eq_false, admits, hdirect, Bool.false_or] at h
        exact .inl (.referenceApplied hmap hreferee hinner h hargument)
    | _ => exact hplain (by rw [hinner]; rfl) (by rw [hinner]; rfl)

/-- Where the gate and the description of an alias differ, it is one of the two kinds, given the
same for its target. -/
theorem parts_synonym {name : String} {target : NativeType}
    (hmap : m.typeMap? (.synonym name target) = none)
    (ih : m.accepts target ≠ (m.resolve? target).isSome → m.Undescribed target ∨ m.Refused target)
    (h : m.admits (.synonym name target) ≠ (m.knows name || (m.resolve? target).isSome)) :
    m.Undescribed (.synonym name target) ∨ m.Refused (.synonym name target) := by
  have hadmits : m.admits (.synonym name target) = (target.crossesDirectly || m.knows name) := rfl
  rw [hadmits] at h
  have hknows : m.knows name = false := by
    rw [← Bool.not_eq_true]
    intro htrue
    rw [htrue, Bool.or_true, Bool.true_or] at h
    exact h rfl
  rw [hknows, Bool.or_false, Bool.false_or] at h
  cases hdirect : target.crossesDirectly with
  | false =>
    rw [hdirect, ne_comm, ne_eq, Bool.not_eq_false] at h
    exact .inr (.synonym hmap hknows hdirect h)
  | true =>
    have haccepts : m.accepts target = true := accepts_of_crossesDirectly hdirect
    rw [hdirect, ← haccepts] at h
    refine .inl (.synonym hmap hknows hdirect ?_)
    -- The gate lets the target through, so that it cannot be one that is refused.
    exact (ih h).resolve_right fun hrefused => by
      rw [hrefused.parts.1] at haccepts
      cases haccepts

/-- Gate and marshaller part in no other way. -/
theorem parts_of_ne (m : Mapper) : (type : NativeType) → m.accepts type ≠ (m.resolve? type).isSome →
    m.Undescribed type ∨ m.Refused type := by
  intro type h
  have hmap : m.typeMap? type = none := by
    rw [← Option.not_isSome_iff_eq_none]
    exact fun hsome => h ((accepts_of_typeMap? hsome).trans (resolve?_of_typeMap? hsome).symm)
  have hadmits := h
  rw [accepts_eq_admits_of_ne h] at hadmits
  match type with
  | .builtin kind => exact absurd rfl h
  | .named name => exact absurd (resolve?_named hmap).symm hadmits
  | .pointer pointee => exact absurd (resolve?_pointer hmap).symm hadmits
  | .applied template arguments =>
    exact absurd ((accepts_applied hmap).trans (resolve?_applied hmap).symm) h
  | .array element size =>
    rw [resolve?_unmapped hmap, Option.isSome_none, ne_eq, Bool.not_eq_false] at hadmits
    exact .inl (.array hmap hadmits)
  | .unexposed spelling =>
    rw [resolve?_unmapped hmap, Option.isSome_none, ne_eq, Bool.not_eq_false] at hadmits
    exact .inl (.unexposed hmap hadmits)
  | .qualified inner isConst isVolatile =>
    rw [resolve?_qualified hmap] at hadmits
    exact parts_qualified hmap (parts_of_ne m inner) hadmits
  | .reference referee kind =>
    rw [resolve?_reference hmap] at hadmits
    exact parts_reference hmap hadmits
  | .synonym name target =>
    rw [resolve?_synonym hmap] at hadmits
    exact parts_synonym hmap (parts_of_ne m target) hadmits

/-- Gate and marshaller say the same of a type if it is neither of those that pass without a
description nor of those that are refused although there is one. -/
theorem accepts_eq_isSome_resolve?_iff (m : Mapper) (type : NativeType) :
    m.accepts type = (m.resolve? type).isSome ↔ ¬(m.Undescribed type ∨ m.Refused type) := by
  constructor
  · rintro heq (hundescribed | hrefused)
    · obtain ⟨haccepts, hresolve⟩ := hundescribed.parts
      rw [haccepts, hresolve] at heq
      cases heq
    · obtain ⟨haccepts, hresolve⟩ := hrefused.parts
      rw [haccepts, hresolve] at heq
      cases heq
  · intro hneither
    exact Decidable.byContradiction fun hne => hneither (parts_of_ne m type hne)

/-- A smart pointer to an exported class is refused as soon as it is handed over by constant
reference, and a reference to a pointer to a number passes without a description. -/
theorem exists_accepts_ne_isSome_resolve? : ∃ (m : Mapper) (pointer number : NativeType),
    (m.accepts pointer = true ∧
      m.accepts (.reference (.qualified pointer true false) .lvalue) = false ∧
      (m.resolve? (.reference (.qualified pointer true false) .lvalue)).isSome = true) ∧
    (m.accepts number = true ∧
      m.accepts (.reference (.pointer number) .lvalue) = true ∧
      (m.resolve? (.reference (.pointer number) .lvalue)).isSome = false) := by
  let m : Mapper := {
    rules := .ofName "M"
    symbols := ({} : Symbols).insert "Node" ⟨0⟩
    forest := Forest.empty.push { kind := .classType, name := "Node", symbol := "Node" } }
  let pointer : NativeType := .applied "SharedPtr" [.named "Node"]
  have hrefused : m.Refused (.reference (.qualified pointer true false) .lvalue) :=
    .referenceApplied (by decide +kernel) rfl (by decide +kernel) (by decide +kernel)
  have hundescribed : m.Undescribed (.reference (.pointer (.builtin .int)) .lvalue) :=
    .reference (by decide +kernel) (by decide +kernel) rfl rfl (by decide +kernel)
  exact ⟨m, pointer, .builtin .int, ⟨by decide +kernel, hrefused.parts⟩, rfl, hundescribed.parts⟩

end Mapper
end Interop
