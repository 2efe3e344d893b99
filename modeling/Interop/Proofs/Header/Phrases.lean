import Interop.Proofs.Header.Consuming
import Interop.Proofs.Header.Uses

namespace Interop.Header

namespace Parser

open Declaration

variable {M : Memory} {inClass : Option String} {d : Declaration} {ds : List Declaration}

theorem balanced_steady (opening closing : String) : (balanced opening closing).Steady M :=
  .of_consumes (balanced_consumes opening closing)

theorem upTo_steady (stops : List String) : (upTo stops).Steady M :=
  .of_consumes (upTo_consumes stops)

theorem skipDeclaration_steady : skipDeclaration.Steady M :=
  .of_consumes skipDeclaration_consumes

theorem endDeclaration_steady : endDeclaration.Steady M :=
  .of_consumes endDeclaration_consumes

theorem skipAttribute_steady : skipAttribute.Steady M :=
  .of_consumes skipAttribute_consumes

/-- A name that is recorded is the full one in the scope. -/
theorem qualified_steady (name : String) : (qualified name).Steady M (· = M.full name) :=
  Steady.memory.bind fun _ hmemory => .pure (hmemory ▸ rfl)

theorem words_steady (p : String → Bool) : (words p).Steady M :=
  .of_consumes (words_consumes p)

theorem qualifiers_steady : qualifiers.Steady M :=
  .of_consumes qualifiers_consumes

theorem leadingQualifiers_steady : leadingQualifiers.Steady M :=
  .of_consumes leadingQualifiers_consumes

/-- Pointers and references keep the uses of a type. -/
theorem indirections_steady {type : NativeType} (h : type.ResolvedIn M) :
    (indirections type).Steady M (NativeType.ResolvedIn M) := by
  refine .loop (P := NativeType.ResolvedIn M) h fun type htype => Steady.text.seq fun word => ?_
  split
  case h_1 =>
    refine (Steady.advance 1).seq fun _ => qualifiers_steady.seq fun _ => .again (htype.of_uses ?_)
    rw [NativeType.uses_qualify, NativeType.uses]
  case h_2 | h_3 =>
    exact (Steady.advance 1).seq fun _ => .again (htype.of_uses (by rw [NativeType.uses]))
  case h_4 => exact .done htype

/-- The target of a name is the one the memory has for it. -/
theorem aliasTarget?_steady (name : String) :
    (aliasTarget? name).Steady M (· = M.target? name) := by
  refine (qualified_steady name).bind fun full hfull => Steady.memory.bind fun memory hmemory =>
    .pure ?_
  rw [hfull, hmemory]
  rfl

section Types

variable {type : Parser NativeType} (h : type.Steady M (NativeType.ResolvedIn M))
include h

theorem templateArguments_steady :
    (templateArguments type).Steady M fun arguments => ∀ argument ∈ arguments,
      argument.ResolvedIn M := by
  refine (Steady.expect "<").seq fun _ => (Steady.eat ">").seq fun isEmpty => ?_
  split
  · exact .pure nofun
  · refine .loop (P := fun found => ∀ argument ∈ found,
      argument.ResolvedIn M) nofun fun found hfound => ?_
    refine Steady.get.bind fun start hstart => ?_
    have hrest : ∀ argument : NativeType, argument.ResolvedIn M → Parser.Steady (do
        if ← eat "," then again (argument :: found)
        else
          expect ">"
          done (argument :: found).reverse : Parser (List NativeType ⊕ List NativeType)) M
        (Sum.elim (fun found => ∀ argument ∈ found, argument.ResolvedIn M) fun found =>
          ∀ argument ∈ found, argument.ResolvedIn M) := by
      intro argument hargument
      have hall : ∀ a ∈ argument :: found, a.ResolvedIn M :=
        List.forall_mem_cons.mpr ⟨hargument, hfound⟩
      refine (Steady.eat ",").seq fun isFollowed => ?_
      split
      · exact .again hall
      · exact (Steady.expect ">").seq fun _ => .done fun a ha => hall a (List.mem_reverse.mp ha)
    have hnone : ∀ parsed ∈ (none : Option NativeType), parsed.ResolvedIn M := nofun
    refine .joined h.attempt (.pure hnone) fun parsed hparsed => ?_
    refine (Steady.isNext ",").seq fun _ => (Steady.isNext ">").seq fun _ => ?_
    dsimp only
    split
    · exact (Steady.pure (hparsed _ rfl)).bind hrest
    · refine (Steady.set hstart).seq fun _ => (upTo_steady _).seq fun run => ?_
      exact (Steady.pure (.of_nil (by rw [NativeType.uses]))).bind hrest

theorem namedType_steady : (namedType type).Steady M (NativeType.ResolvedIn M) := by
  refine (Steady.eat "::").seq fun _ => ?_
  refine .loop (P := fun _ => True) trivial fun lead _ => Steady.identifier.seq fun name => ?_
  refine (Steady.isNext "<").seq fun isApplied => ?_
  split
  · refine (templateArguments_steady h).bind fun arguments harguments =>
      (Steady.eat "::").seq fun isMember => ?_
    split
    · exact Steady.identifier.seq fun _ => .done (.of_nil (by rw [NativeType.uses]))
    · refine .done fun use huse => ?_
      rw [NativeType.uses] at huse
      obtain ⟨argument, hargument, huse⟩ := NativeType.mem_usesAll.mp huse
      exact harguments argument hargument use huse
  · refine (Steady.isNext "::").seq fun isQualified => Steady.get.seq fun tokens => ?_
    split
    · exact (Steady.advance 1).seq fun _ => .again trivial
    · split
      · exact .done (.of_nil (by rw [NativeType.uses]))
      · refine (aliasTarget?_steady _).bind fun target? htarget => ?_
        cases target? with
        | some target =>
          exact .done fun use huse => List.mem_singleton.mp (NativeType.uses.eq_3 .. ▸ huse) ▸
            htarget
        | none =>
          exact .done fun use huse => List.mem_singleton.mp (NativeType.uses.eq_2 .. ▸ huse) ▸
            htarget

theorem baseType_steady : (baseType type).Steady M (NativeType.ResolvedIn M) := by
  refine (words_steady _).seq fun row => ?_
  split
  · exact .pure (.of_nil (by rw [NativeType.uses]))
  · refine Steady.identifier?.seq fun name? => ?_
    split
    · exact (Steady.advance 1).seq fun _ => .pure (.of_nil (by rw [NativeType.uses]))
    · exact (Steady.advance 1).seq fun _ => (balanced_steady _ _).seq fun _ =>
        .pure (.of_nil (by rw [NativeType.uses]))
    · exact namedType_steady h

theorem typeWith_steady : (typeWith type).Steady M (NativeType.ResolvedIn M) := by
  refine leadingQualifiers_steady.seq fun leading => (baseType_steady h).bind fun base hbase => ?_
  exact qualifiers_steady.seq fun behind =>
    indirections_steady (hbase.of_uses (NativeType.uses_qualify _ _ base))

end Types

/-- Types are read with their aliases resolved, whatever the bound of their nesting is. -/
theorem typeWithin_steady (bound : Nat) :
    (typeWithin bound).Steady M (NativeType.ResolvedIn M) := by
  induction bound with
  | zero => exact .fail _
  | succ bound ih => exact typeWith_steady ih

/-- Types are read with their aliases resolved. -/
theorem type_steady : type.Steady M (NativeType.ResolvedIn M) :=
  Steady.get.seq fun _ => typeWithin_steady _

/-- A pointer to a function is kept as it is spelled, so no name in it is looked up. -/
theorem functionPointer?_steady (result : NativeType) :
    (functionPointer? result).Steady M fun pointer? =>
      ∀ pointer ∈ pointer?, Simple pointer.1 ∧ pointer.2.ResolvedIn M := by
  refine (Steady.isNext "(").seq fun _ => (Steady.isAt 1 "*").seq fun _ => ?_
  split
  · refine (Steady.advance 2).seq fun _ => (Steady.eat "const").discard.seq fun _ => ?_
    refine Steady.identifier?.bind fun name? hname => ?_
    have hrest : ∀ name : String, Simple name → Parser.Steady (do
        expect ")"
        let arguments ← balanced "(" ")"
        if ← eat "noexcept" then
          if ← isNext "(" then discard <| balanced "(" ")"
        return some (name, .unexposed (result.spelling ++ " (*)(" ++ Token.spell arguments ++
          ")")) :
          Parser (Option (String × NativeType))) M
        fun pointer? => ∀ pointer ∈ pointer?, Simple pointer.1 ∧ pointer.2.ResolvedIn M := by
      intro name hname
      have hpointer : ∀ spelling, ∀ pointer ∈ some (name, NativeType.unexposed spelling),
          Simple pointer.1 ∧ pointer.2.ResolvedIn M := by
        rintro spelling _ ⟨⟩
        exact ⟨hname, .of_nil (by rw [NativeType.uses])⟩
      refine (Steady.expect ")").seq fun _ => (balanced_steady _ _).seq fun arguments => ?_
      refine (Steady.eat "noexcept").seq fun _ => ?_
      split
      · refine (Steady.isNext "(").seq fun _ => ?_
        split
        · exact (balanced_steady _ _).discard.seq fun _ => .pure (hpointer _)
        · exact .pure (hpointer _)
      · exact .pure (hpointer _)
    cases name? with
    | none => exact (Steady.pure Simple.empty).bind hrest
    | some name => exact (Steady.advance 1).seq fun _ => (Steady.pure (hname name rfl)).bind hrest
  · exact .pure fun pointer hpointer => by cases hpointer

theorem skipAttributes_steady : skipAttributes.Steady M :=
  .of_consumes skipAttributes_consumes

theorem decayedArrays_steady {type : NativeType} (h : type.ResolvedIn M) :
    (decayedArrays type).Steady M (NativeType.ResolvedIn M) := by
  refine .loop (P := NativeType.ResolvedIn M) h fun type htype =>
    (Steady.isNext "[").seq fun _ => ?_
  split
  · exact (balanced_steady _ _).discard.seq fun _ =>
      .again (htype.of_uses (by rw [NativeType.uses]))
  · exact .done htype

/-- A parameter's arrays and its default, behind its name. -/
theorem parameterRest_steady (named : String × NativeType) (h : named.2.ResolvedIn M) :
    Parser.Steady (do
    let (name, type) := named
    let type ← decayedArrays type
    let default? ←
      if ← eat "=" then
        let run ← upTo [",", ")"]
        pure (some (Token.spell run))
      else pure none
    return { name, type, default? } : Parser Parameter) M fun p => p.type.ResolvedIn M := by
  obtain ⟨name, type⟩ := named
  refine (decayedArrays_steady h).bind fun type htype => (Steady.eat "=").seq fun _ => ?_
  split
  · exact (upTo_steady _).seq fun run => (Steady.just _).seq fun _ => .pure htype
  · exact (Steady.just _).seq fun _ => .pure htype

/-- A parameter has a resolved type. -/
theorem parameter_steady : parameter.Steady M fun p => p.type.ResolvedIn M := by
  refine (Steady.eat "...").seq fun _ => ?_
  split
  · exact .pure (.of_nil (by rw [NativeType.uses]))
  · refine skipAttributes_steady.seq fun _ => type_steady.bind fun written hwritten => ?_
    refine (functionPointer?_steady written).bind fun pointer? hpointer => ?_
    cases pointer? with
    | some pointer =>
      have hnamed : Steady (Pure.pure pointer) M fun named => named.2.ResolvedIn M :=
        .pure (hpointer pointer rfl).2
      exact hnamed.bind parameterRest_steady
    | none =>
      have hnamed : ∀ name : String, Steady (Pure.pure (name, written)) M fun named =>
          named.2.ResolvedIn M :=
        fun name => .pure hwritten
      refine Steady.identifier?.seq fun name? => ?_
      cases name? with
      | some name => exact (Steady.advance 1).seq fun _ => (hnamed name).bind parameterRest_steady
      | none => exact (hnamed "").bind parameterRest_steady

theorem parameters_steady : parameters.Steady M fun found => ∀ p ∈ found, p.type.ResolvedIn M := by
  refine (Steady.expect "(").seq fun _ => (Steady.eat ")").seq fun isEmpty => ?_
  split
  · exact .pure nofun
  · refine (Steady.isNext "void").seq fun _ => (Steady.isAt 1 ")").seq fun _ => ?_
    split
    · exact (Steady.advance 2).seq fun _ => .pure nofun
    · refine .loop (P := fun found => ∀ p ∈ found, p.type.ResolvedIn M) nofun fun found hfound => ?_
      refine parameter_steady.bind fun p hp => (Steady.eat ",").seq fun _ => ?_
      have hall : ∀ q ∈ p :: found, q.type.ResolvedIn M := List.forall_mem_cons.mpr ⟨hp, hfound⟩
      split
      · exact .again hall
      · exact (Steady.expect ")").seq fun _ => .done fun q hq => hall q (List.mem_reverse.mp hq)

theorem skipInitializers_steady : skipInitializers.Steady M :=
  .of_consumes skipInitializers_consumes

/-- What stands behind parameters leaves the declaration a leaf. -/
theorem functionTail_steady (hd : d.Leaf M inClass) :
    (functionTail d).Steady M (Leaf M inClass) := by
  refine .loop hd fun d hd => Steady.text.seq fun word => ?_
  have hflags : ∀ {flags : Flags},
      Parser.Steady (again { d with flags } : Parser (Declaration ⊕ Declaration)) M
      (Sum.elim (Leaf M inClass) (Leaf M inClass)) :=
    .again (hd.flagged _)
  have hbrackets : ∀ isOpen : Bool, Parser.Steady
      (if isOpen = true then do
        discard <| balanced "(" ")"
        again d
      else again d : Parser (Declaration ⊕ Declaration)) M (Sum.elim (Leaf M inClass)
          (Leaf M inClass)) := by
    intro isOpen
    split
    · exact (balanced_steady _ _).discard.seq fun _ => .again hd
    · exact .again hd
  split
  case h_1 | h_4 => exact (Steady.advance 1).seq fun _ => hflags
  case h_2 | h_3 => exact (Steady.advance 1).seq fun _ => (Steady.isNext "(").seq hbrackets
  case h_5 | h_6 | h_7 | h_8 => exact (Steady.advance 1).seq fun _ => .again hd
  case h_9 =>
    exact (Steady.advance 1).seq fun _ => type_steady.bind fun _ hresult =>
      .again (hd.returning hresult)
  case h_10 =>
    refine (Steady.advance 1).seq fun _ => Steady.next.seq fun mark => ?_
    split
    case h_4 => exact .again hd
    all_goals exact hflags
  case h_11 => exact (Steady.advance 1).seq fun _ => skipInitializers_steady.seq fun _ => .again hd
  case h_12 =>
    refine (balanced_steady _ _).discard.seq fun _ => (Steady.eat ";").discard.seq fun _ => ?_
    exact .done (hd.flagged _)
  case h_13 => exact (Steady.advance 1).seq fun _ => .done hd
  case h_14 => exact .failFound _

theorem specifiers_steady : specifiers.Steady M :=
  .of_consumes specifiers_consumes

theorem functionRest_steady (flags : Flags) (hd : d.Leaf M inClass) :
    (functionRest d flags).Steady M (Leaf M inClass) := by
  refine parameters_steady.bind fun parameters hparameters => ?_
  exact (functionTail_steady (hd.taking hparameters)).bind fun d hd => .pure (hd.flagged _)

theorem destructor_steady (flags : Flags) : (destructor flags).Steady M (Leaf M inClass) := by
  refine (Steady.advance 1).seq fun _ => Steady.identifier.seq fun name =>
    (balanced_steady _ _).discard.seq fun _ => ?_
  exact (functionTail_steady (Blank.leaf ⟨⟨rfl, rfl, rfl⟩, rfl, rfl⟩)).bind fun d hd =>
    .pure (hd.flagged _)

/-- A constructor is a leaf. There have to be classes around it. -/
theorem constructor_steady (name : String) (flags : Flags) (hclass : inClass.isSome = true) :
    (constructor name flags).Steady M (Leaf M inClass) :=
  (Steady.advance 1).seq fun _ =>
    functionRest_steady flags (Blank.leaf ⟨⟨hclass, rfl, rfl⟩, rfl, rfl⟩)

/-- A conversion is a leaf, as its target is a resolved type. -/
theorem conversion_steady (flags : Flags) : (conversion flags).Steady M (Leaf M inClass) := by
  refine (Steady.advance 1).seq fun _ => type_steady.bind fun target htarget =>
    functionRest_steady flags ?_
  exact (Blank.leaf ⟨⟨rfl, rfl, rfl⟩, rfl, rfl⟩ : Leaf M inClass
    { kind := .conversion, name := "operator " ++ target.spelling }).returning htarget

theorem operatorName_steady : operatorName.Steady M :=
  .of_consumes operatorName_consumes

theorem arrayBounds_steady {type : NativeType} (h : type.ResolvedIn M) :
    (arrayBounds type).Steady M (NativeType.ResolvedIn M) := by
  refine .loop (P := NativeType.ResolvedIn M) h fun type htype =>
    (Steady.isNext "[").seq fun _ => ?_
  split
  · exact (balanced_steady _ _).seq fun _ => .again (htype.of_uses (by rw [NativeType.uses]))
  · exact .done htype

theorem initializer?_steady : initializer?.Steady M :=
  .of_consumes initializer?_consumes

/-- A function has the kind that its place gives it. -/
theorem functionKind_bare (inClass : Option String) :
    (functionKind inClass).isBareIn inClass = true := by
  cases inClass <;> rfl

theorem functionKind_plain (inClass : Option String) : (functionKind inClass).isAlias = false := by
  cases inClass <;> rfl

/-- A variable has the kind that its place gives it. -/
theorem variableKind_bare (inClass : Option String) :
    (variableKind inClass).isBareIn inClass = true := by
  cases inClass <;> rfl

theorem variableKind_plain (inClass : Option String) : (variableKind inClass).isAlias = false := by
  cases inClass <;> rfl

/-- What has a type and nothing else. -/
theorem leaf_of_type {kind : Kind} (hkind : kind.isBareIn inClass = true)
    (hplain : kind.isAlias = false) (name : String) (flags : Flags) (value? : Option String)
    {type : NativeType} (htype : type.ResolvedIn M) :
    Leaf M inClass { kind, name, flags, type? := some type, value? } :=
  ⟨⟨hkind, rfl, rfl⟩, hplain, fun _ hmem => List.mem_singleton.mp hmem ▸ htype⟩

theorem variableRest_steady (name : String) {type : NativeType} (h : type.ResolvedIn M)
    (flags : Flags) :
    (variableRest inClass name type flags).Steady M (Leaf M inClass) := by
  refine (arrayBounds_steady h).bind fun type htype => (Steady.eat ":").seq fun _ => ?_
  have hrest : ∀ kind : Kind, kind.isBareIn inClass = true ∧ kind.isAlias = false →
      Parser.Steady (do
      let value? ← initializer?
      return { kind, name, flags, type? := some type, value? } :
          Parser Declaration) M (Leaf M inClass) :=
    fun kind hkind => initializer?_steady.seq fun _ =>
      .pure (leaf_of_type hkind.1 hkind.2 _ _ _ htype)
  split
  · exact (upTo_steady _).discard.seq fun _ => (Steady.pure ⟨rfl, rfl⟩).bind hrest
  · exact (Steady.pure ⟨variableKind_bare inClass, variableKind_plain inClass⟩).bind hrest

/-- What declarators share of a type has its uses. -/
theorem uses_sharedType (type : NativeType) : (sharedType type).uses = type.uses := by
  fun_induction sharedType type with
  | case6 => rfl
  | _ => simp_all only [NativeType.uses]

/-- All declarators of one declaration are leaves. -/
theorem declarators_steady (flags : Flags) {shared : NativeType} (hshared : shared.ResolvedIn M)
    {start : List Token} (hstart : AllSimple start) :
    (declarators inClass flags shared start).Steady M (AllLeaves M inClass) := by
  refine .loop (P := fun state => state.1.ResolvedIn M ∧ AllLeaves M inClass state.2) ⟨hshared,
    .nil⟩ ?_
  rintro ⟨type, found⟩ ⟨htype, hfound⟩
  have hdone : ∀ {d : Declaration}, d.Leaf M inClass → AllLeaves M inClass (d :: found).reverse :=
    fun hd => (hfound.cons hd).reverse
  have hfunction : ∀ name : String,
      Leaf M inClass { kind := functionKind inClass, name, returnType? := some type } := by
    intro name
    have hnamed : Leaf M inClass { kind := functionKind inClass, name } :=
      Blank.leaf ⟨⟨functionKind_bare inClass, rfl, rfl⟩, (functionKind_plain inClass), rfl⟩
    exact hnamed.returning htype
  refine (Steady.isNext "operator").seq fun _ => ?_
  split
  · refine operatorName_steady.seq fun name => ?_
    exact (functionRest_steady flags (hfunction name)).bind fun d hd => .done (hdone hd)
  · refine (functionPointer?_steady type).bind fun pointer? hpointer => ?_
    split
    · rename_i name pointer
      refine endDeclaration_steady.seq fun _ => .done (hdone ?_)
      exact leaf_of_type (variableKind_bare inClass)
        (variableKind_plain inClass) _ _ _ (hpointer _ rfl).2
    · refine Steady.identifier?.seq fun name? => ?_
      split
      · refine (Steady.set hstart).seq fun _ => skipDeclaration_steady.seq fun _ => ?_
        exact .done (Blank.leaf ⟨⟨rfl, rfl, rfl⟩, rfl, rfl⟩).one
      · refine (Steady.advance 1).seq fun _ => (Steady.isNext "::").seq fun _ => ?_
        split
        · exact skipDeclaration_steady.seq fun _ => .done hfound.reverse
        · refine (Steady.isNext "(").seq fun _ => ?_
          split
          · exact (functionRest_steady flags (hfunction _)).bind fun d hd => .done (hdone hd)
          · refine (variableRest_steady _ htype flags).bind fun d hd =>
              (Steady.eat ",").seq fun _ => ?_
            split
            · refine (indirections_steady (hshared.of_uses (uses_sharedType shared))).bind
                fun type htype => ?_
              exact .again ⟨htype, hfound.cons hd⟩
            · exact endDeclaration_steady.seq fun _ => .done (hdone hd)

/-- What is neither a scope nor a type is read as leaves. -/
theorem member_steady (inClass : Option String) :
    (member inClass).Steady M (AllLeaves M inClass) := by
  have hone : ∀ {p : Parser Declaration}, p.Steady M (Leaf M inClass) →
      Parser.Steady (return [← p] : Parser (List Declaration)) M (AllLeaves M inClass) :=
    fun hp => hp.bind fun d hd => .pure hd.one
  refine Steady.get.bind fun start hstart => specifiers_steady.seq fun flags =>
    Steady.identifier?.seq fun name? => ?_
  refine (Steady.isAt 1 "(").seq fun isCalled => (Steady.isNext "~").seq fun isDestructor => ?_
  split
  · exact hone (destructor_steady flags)
  · split
    · rename_i hconstructor
      rw [Bool.and_eq_true, Bool.and_eq_true] at hconstructor
      exact hone (constructor_steady _ flags hconstructor.1.1)
    · refine (Steady.isNext "operator").seq fun _ => ?_
      split
      · exact hone (conversion_steady flags)
      · refine type_steady.attempt.bind fun shared? hshared => ?_
        split
        · exact declarators_steady flags (hshared _ rfl) hstart
        · refine (Steady.set hstart).seq fun _ => skipDeclaration_steady.seq fun _ => ?_
          exact .pure (Blank.leaf ⟨⟨rfl, rfl, rfl⟩, rfl, rfl⟩).one

theorem accessLabel?_steady : accessLabel?.Steady M :=
  .of_consumes accessLabel?_consumes

theorem namespaceNames_steady :
    namespaceNames.Steady M fun names => ∀ name ∈ names, Simple name := by
  refine .loop (P := fun names => ∀ name ∈ names, Simple name) nofun fun found hfound => ?_
  refine Steady.identifier?.bind fun name? hname => ?_
  split
  · exact .done fun name hmem => hfound name (List.mem_reverse.mp hmem)
  · rename_i name
    have hall := List.forall_mem_cons.mpr ⟨hname name rfl, hfound⟩
    refine (Steady.advance 1).seq fun _ => (Steady.eat "::").seq fun _ => ?_
    split
    · exact .again hall
    · exact .done fun name hmem => hall name (List.mem_reverse.mp hmem)

/-- Template parameters have no types to resolve. -/
theorem templateParameters_steady :
    templateParameters.Steady M fun ds => ∀ d ∈ ds, d.Blank inClass := by
  refine (Steady.expect "<").seq fun _ => ?_
  refine (Steady.takeRun fun tokens _ _ => Token.angleGroups_suffix tokens).seq fun groups =>
    .pure ?_
  intro d hd
  obtain ⟨group, -, hgroup⟩ := List.mem_filterMap.mp hd
  unfold templateParameter? at hgroup
  split at hgroup
  · cases hgroup
  · cases hgroup
    refine ⟨⟨?_, rfl, rfl⟩, ?_, rfl⟩ <;> simp only <;> split <;> rfl

/-- Names that are put together of undotted ones have no dot in them. -/
theorem undotted_scoped {name part : String} (hname : Undotted name) (hpart : Undotted part) :
    Undotted (name ++ "::" ++ part) := by
  unfold Undotted at *
  simp [hname, hpart]

theorem classNames_steady : classNames.Steady M fun names => ∀ name ∈ names, Undotted name := by
  refine .loop (P := fun names => ∀ name ∈ names, Undotted name) nofun fun found hfound => ?_
  refine (Steady.isNext "[[").seq fun _ => ?_
  split
  · exact skipAttribute_steady.seq fun _ => .again hfound
  · refine Steady.identifier?.bind fun name? hname => ?_
    split
    · exact .done fun name hmem => hfound name (List.mem_reverse.mp hmem)
    · rename_i name
      refine (Steady.advance 1).seq fun _ => (Steady.isNext "(").seq fun _ => ?_
      split
      · exact (balanced_steady _ _).discard.seq fun _ => .again hfound
      · refine Steady.bind (P := Undotted) ?_ fun name hname =>
          .again (List.forall_mem_cons.mpr ⟨hname, hfound⟩)
        refine .loop (hname name rfl).undotted fun name hname => (Steady.eat "::").seq fun _ => ?_
        split
        · exact Steady.identifier.bind fun part hpart =>
            .again (undotted_scoped hname hpart.undotted)
        · exact .done hname

theorem className_undotted {names : List String} (h : ∀ name ∈ names, Undotted name) :
    Undotted (className names).1 := by
  have hreverse : ∀ name ∈ names.reverse, Undotted name :=
    fun name hmem => h name (List.mem_reverse.mp hmem)
  unfold className
  split
  · exact nofun
  · rename_i heq
    exact hreverse _ (heq ▸ List.mem_cons_self)
  · rename_i heq
    exact hreverse _ (heq ▸ List.mem_cons_of_mem _ List.mem_cons_self)
  · rename_i heq
    exact hreverse _ (heq ▸ List.mem_cons_self)

/-- Base classes are leaves with resolved types. -/
theorem baseClasses_steady (access : Access) (hclass : inClass.isSome = true) :
    (baseClasses access).Steady M (AllLeaves M inClass) := by
  refine (Steady.eat ":").seq fun _ => ?_
  split
  · refine .loop (P := AllLeaves M inClass) .nil fun found hfound => ?_
    have hbase : (baseClass access).Steady M (Leaf M inClass) := by
      refine (words_steady _).seq fun _ => Steady.line.seq fun _ => type_steady.bind fun _ hbase =>
        .pure ?_
      exact ⟨⟨hclass, rfl, rfl⟩, rfl, fun _ hmem => List.mem_singleton.mp hmem ▸ hbase⟩
    refine hbase.bind fun base hbase => (Steady.eat ",").seq fun _ => ?_
    split
    · exact .again (hfound.cons hbase)
    · exact .done (hfound.cons hbase).reverse
  · exact .pure .nil

/-- Whether a declaration is an enumerator that holds nothing. -/
structure Listed (d : Declaration) : Prop where
  kind : d.kind = .enumerator
  children : d.children = []
  proxy : d.isProxy = false
  types : d.types = []

/-- Whether several declarations are such. -/
def AllListed (ds : List Declaration) : Prop :=
  ∀ d ∈ ds, Listed d

theorem AllListed.reverse (h : AllListed ds) : AllListed ds.reverse :=
  fun d hd => h d (List.mem_reverse.mp hd)

theorem enumerators_steady : enumerators.Steady M AllListed := by
  refine .loop (P := AllListed) nofun fun found hfound => (Steady.isNext "\x7d").seq fun _ => ?_
  split
  · exact .done hfound.reverse
  · refine Steady.line.seq fun line => Steady.identifier.seq fun name =>
      (Steady.eat "=").seq fun _ => ?_
    have hrest : ∀ value? : Option String, Parser.Steady (do
        let found := { kind := .enumerator, name, value?, line } :: found
        if ← eat "," then again found
            else done found.reverse) M (Sum.elim AllListed AllListed) := by
      intro value?
      have hall : AllListed ({ kind := .enumerator, name, value?, line } :: found) :=
        List.forall_mem_cons.mpr ⟨⟨rfl, rfl, rfl, rfl⟩, hfound⟩
      refine (Steady.eat ",").seq fun _ => ?_
      split
      · exact .again hall
      · exact .done hall.reverse
    split
    · exact (upTo_steady _).seq fun _ => (Steady.just _).seq hrest
    · exact (Steady.just _).seq hrest

theorem staticAssertion_steady : staticAssertion.Steady M (AllLeaves M inClass) :=
  (Steady.advance 1).seq fun _ => (balanced_steady _ _).seq fun _ =>
      (Steady.eat ";").discard.seq fun _ =>
    .pure (Blank.leaf ⟨⟨rfl, rfl, rfl⟩, rfl, rfl⟩).one

end Parser

end Interop.Header
