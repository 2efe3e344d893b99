import Interop.Overlay.Workspace

namespace Interop

open Overlay

namespace Symbol

theorem cutsBehindColons_append {front rest : List Char} (h : ':' ∉ front) :
    cutsBehindColons (front ++ rest) = cutsBehindColons rest := by
  induction front with
  | nil => rfl
  | cons c front ih =>
    rw [List.mem_cons, not_or] at h
    rw [List.cons_append, cutsBehindColons]
    · exact ih h.2
    · intro rest' hc
      exact absurd hc.symm h.1

/-- The scopes around a name without colons in a scope are that scope and those around it. -/
theorem outerScopes_qualify {scope name : String} (h : ':' ∉ name.toList)
    (hscope : scope.isEmpty = false) :
    outerScopes (scope ++ "::" ++ name) = scope :: outerScopes scope := by
  have hreverse : (scope ++ "::" ++ name).toList.reverse =
      name.toList.reverse ++ ':' :: ':' :: scope.toList.reverse := by
    simp
  have hne : scope.toList.reverse.isEmpty = false := by
    simpa using hscope
  rw [outerScopes, hreverse, cutsBehindColons_append (by simpa using h), cutsBehindColons,
    List.filter_cons_of_pos (by rw [hne]; rfl), List.map_cons, List.reverse_reverse,
      String.ofList_toList,
    outerScopes]

/-- Inside of a further scope, a name may refer to all it may refer to outside. -/
theorem mem_candidates_qualify {scope inner name symbol : String} (h : ':' ∉ inner.toList)
    (hinner : inner.isEmpty = false) (hmem : symbol ∈ candidates scope name) :
    symbol ∈ candidates (qualify scope inner) name := by
  have hqualified : (scope ++ "::" ++ inner).isEmpty = false := by
    rw [← Bool.not_eq_true, String.isEmpty_iff]
    intro hempty
    have hlist := congrArg String.toList hempty
    simp at hlist
  rw [qualify]
  cases hscope : scope.isEmpty with
  | true =>
    simp only [candidates, hscope, hinner, if_true, Bool.false_eq_true, if_false] at hmem ⊢
    exact List.mem_append_right _ hmem
  | false =>
    simp only [candidates, hscope, hqualified, Bool.false_eq_true, if_false,
      outerScopes_qualify h hscope, List.map_cons, List.cons_append] at hmem ⊢
    exact List.mem_cons_of_mem _ hmem

end Symbol

namespace Mapper

variable {m m' : Mapper}

/-- Whether a type map or a known name of one mapper is one of the other as well. -/
structure Below (m m' : Mapper) : Prop where
  rules : m.rules = m'.rules
  knows : ∀ name, m.knows name = true → m'.knows name = true

/-- A name refers to a class or an enum that is there. -/
theorem exists_type_of_typeNamed? {name : String} {id : NodeId} (h : m.typeNamed? name = some id) :
    ∃ n, m.forest.node? id = some n ∧ (n.kind = .classType ∨ n.kind = .enumeration) := by
  obtain ⟨symbol, _, hfilter⟩ := List.exists_of_findSome?_eq_some h
  obtain ⟨_, hany⟩ := Option.filter_eq_some_iff.mp hfilter
  obtain ⟨n, hn, hkind⟩ := (Option.any_eq_true _ _).mp hany
  exact ⟨n, hn, by simpa using hkind⟩

/-- Whatever a name refers to crosses the bridge. -/
theorem ofNode?_isSome {name : String} {id : NodeId} (h : m.typeNamed? name = some id)
    (indirection : Indirection) : (m.ofNode? id indirection).isSome = true := by
  obtain ⟨n, hn, hkind⟩ := exists_type_of_typeNamed? h
  rw [ofNode?, hn, Option.bind_some]
  rcases hkind with hkind | hkind
  · simp only [hkind, Option.isSome_some]
  · simp only [hkind]
    cases indirection <;> rfl

/-- A name is described exactly if it is known, behind whatever indirection. -/
theorem ofName?_isSome (m : Mapper) (name : String) (indirection : Indirection) :
    (m.ofName? name indirection).isSome = m.knows name := by
  rw [ofName?, knows]
  cases h : m.typeNamed? name with
  | none => rfl
  | some id => exact ofNode?_isSome h indirection

theorem Below.typeMap? (h : m.Below m') (type : NativeType) :
    m'.typeMap? type = m.typeMap? type := by
  rw [Mapper.typeMap?, Mapper.typeMap?, mapFor?, mapFor?, mapFor?, mapFor?, h.rules]

/-- A name that is described in one mapper is described in each that knows more. -/
theorem Below.ofName? (h : m.Below m') {name : String} {indirection indirection' : Indirection}
    (hsome : (m.ofName? name indirection).isSome = true) :
    (m'.ofName? name indirection').isSome = true := by
  rw [ofName?_isSome] at hsome ⊢
  exact h.knows name hsome

/-- A template is described if it has a map, or if its first argument is known. -/
theorem ofApplied?_isSome (m : Mapper) (template : String) (arguments : List NativeType) :
    (m.ofApplied? template arguments).isSome =
      ((m.typeMap? (.applied template arguments)).isSome ||
        arguments.head?.any fun type => m.knows type.typeName) := by
  rw [ofApplied?]
  cases m.typeMap? (.applied template arguments) with
  | some map => rfl
  | none =>
    cases arguments.head? with
    | none => rfl
    | some type =>
      simp only [Option.map_some, Option.bind_eq_bind, Option.bind_some, Option.isSome_none,
        Bool.false_or, Option.any_some, knows]
      cases h : m.typeNamed? type.typeName with
      | none => rfl
      | some id =>
        obtain ⟨info, hinfo⟩ := Option.isSome_iff_exists.mp (ofNode?_isSome h .pointer)
        simp only [Option.bind_some, hinfo]
        rfl

/-- A template that is described in one mapper is described in each that knows more. -/
theorem Below.ofApplied? (h : m.Below m') {template : String} {arguments : List NativeType}
    (hsome : (m.ofApplied? template arguments).isSome = true) :
    (m'.ofApplied? template arguments).isSome = true := by
  rw [ofApplied?_isSome] at hsome ⊢
  rw [h.typeMap?]
  rw [Bool.or_eq_true] at hsome ⊢
  refine hsome.imp_right fun hany => ?_
  obtain ⟨type, htype, hknows⟩ := (Option.any_eq_true _ _).mp hany
  exact (Option.any_eq_true _ _).mpr ⟨type, htype, h.knows _ hknows⟩

/-- A reference that is described in one mapper is described in each that knows more. -/
theorem Below.ofReference? (h : m.Below m') {referee : NativeType} {kind : RefKind}
    (hsome : (m.ofReference? referee kind).isSome = true) :
    (m'.ofReference? referee kind).isSome = true := by
  simp only [Mapper.ofReference?, h.typeMap?] at hsome ⊢
  split at hsome
  · rfl
  · cases hmap : m.typeMap? referee with
    | some map => rfl
    | none =>
      rw [hmap] at hsome
      split at hsome
      · rename_i hsome'
        cases hsome'
      · exact h.ofApplied? hsome
      · exact h.ofName? hsome

/-- A type that the gate lets through under some names is let through under more. -/
theorem Below.accepts (h : m.Below m') {type : NativeType} (haccepts : m.accepts type = true) :
    m'.accepts type = true := by
  simp only [Mapper.accepts, Bool.or_eq_true, h.typeMap?] at haccepts ⊢
  refine haccepts.imp_right fun hshape => ?_
  cases type
  case applied template arguments =>
    obtain ⟨name, hname, hknows⟩ := (Option.any_eq_true _ _).mp hshape
    exact (Option.any_eq_true _ _).mpr ⟨name, hname, h.knows name hknows⟩
  all_goals
    rw [Bool.or_eq_true] at hshape ⊢
    exact hshape.imp_right (h.knows _)

/-- A type with a type map crosses. -/
theorem resolve?_isSome_of_typeMap? {type : NativeType} {map : TypeMap}
    (hmap : m.typeMap? type = some map) :
    (m.resolve? type).isSome = true := by
  cases type
  case builtin => rfl
  case applied => rw [Mapper.resolve?, ofApplied?_isSome, hmap, Option.isSome_some, Bool.true_or]
  all_goals simp only [Mapper.resolve?, hmap, Option.isSome_some]

/-- What remains to be shown of a type is that it crosses where it has no type map. -/
theorem Below.resolve?_of_unmapped (h : m.Below m') {type : NativeType}
    (hshape : m.typeMap? type = none → m'.typeMap? type = none → (m'.resolve? type).isSome = true) :
    (m'.resolve? type).isSome = true := by
  cases hmap : m'.typeMap? type with
  | some map => exact resolve?_isSome_of_typeMap? hmap
  | none => exact hshape ((h.typeMap? type).symm.trans hmap) hmap

/-- A type that crosses under some names crosses under more. -/
theorem Below.resolve? (h : m.Below m') :
    (type : NativeType) → (m.resolve? type).isSome = true → (m'.resolve? type).isSome = true
  | .builtin kind, _ => rfl
  | .applied template arguments, hsome => h.ofApplied? hsome
  | .qualified inner isConst isVolatile, hsome => by
    refine h.resolve?_of_unmapped fun hmap hmap' => ?_
    simp only [Mapper.resolve?, hmap] at hsome
    simp only [Mapper.resolve?, hmap']
    exact h.resolve? inner hsome
  | .synonym name target, hsome => by
    refine h.resolve?_of_unmapped fun hmap hmap' => ?_
    simp only [Mapper.resolve?, hmap] at hsome
    simp only [Mapper.resolve?, hmap']
    cases hnamed' : m'.typeNamed? name with
    | some id => exact ofNode?_isSome hnamed' .value
    | none =>
      -- A name that is not known here was not known before, so the alias was looked through.
      cases hnamed : m.typeNamed? name with
      | some id =>
        have hknows := h.knows name (by rw [Mapper.knows, hnamed]; rfl)
        rw [Mapper.knows, hnamed'] at hknows
        cases hknows
      | none =>
        rw [hnamed] at hsome
        exact h.resolve? target hsome
  | .named name, hsome => by
    refine h.resolve?_of_unmapped fun hmap hmap' => ?_
    simp only [Mapper.resolve?, hmap] at hsome
    simp only [Mapper.resolve?, hmap']
    exact h.ofName? hsome
  | .pointer pointee, hsome => by
    refine h.resolve?_of_unmapped fun hmap hmap' => ?_
    simp only [Mapper.resolve?, hmap] at hsome
    simp only [Mapper.resolve?, hmap']
    split
    · rfl
    · rename_i hdirect
      rw [if_neg hdirect] at hsome
      exact h.ofName? hsome
  | .reference referee kind, hsome => by
    refine h.resolve?_of_unmapped fun hmap hmap' => ?_
    simp only [Mapper.resolve?, hmap] at hsome
    simp only [Mapper.resolve?, hmap']
    exact h.ofReference? hsome
  | .array element size, hsome => by
    refine h.resolve?_of_unmapped fun hmap _ => ?_
    simp only [Mapper.resolve?, hmap] at hsome
    cases hsome
  | .unexposed spelling, hsome => by
    refine h.resolve?_of_unmapped fun hmap _ => ?_
    simp only [Mapper.resolve?, hmap] at hsome
    cases hsome

end Mapper

end Interop
