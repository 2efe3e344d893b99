import Mathlib.Data.List.TakeDrop
import Interop.Header.DeclarationSyntax
import Interop.Proofs.Header.Steady

namespace Interop.Header

namespace Token

variable {tokens run rest : List Token}

/-- What is left behind a run that one token more stands in front of. -/
theorem suffix_of_map {t : Token} {tail : List Token} {read : Option (List Token × List Token)}
    (hread : ∀ run rest, read = some (run, rest) → rest <:+ tail)
    (h : read.map (fun (run, rest) => (t :: run, rest)) = some (run, rest)) :
    rest <:+ t :: tail := by
  obtain ⟨⟨run', rest'⟩, hrun, heq⟩ := Option.map_eq_some_iff.mp h
  cases heq
  exact (hread _ _ hrun).trans (List.suffix_cons t tail)

/-- Behind a balanced run there are some of the tokens. -/
theorem balancedRun_suffix {opening closing : String} :
    ∀ (tokens : List Token) {depth : Nat} {run rest : List Token},
      balancedRun opening closing depth tokens = some (run, rest) → rest <:+ tokens := by
  intro tokens
  induction tokens with
  | nil => exact nofun
  | cons t tail ih =>
    intro depth run rest h
    unfold balancedRun at h
    split at h
    · exact suffix_of_map (fun _ _ => ih) h
    · split at h
      · cases depth with
        | zero =>
          cases h
          exact List.suffix_cons t tail
        | succ depth => exact suffix_of_map (fun _ _ => ih) h
      · exact suffix_of_map (fun _ _ => ih) h

/-- Behind a run up to a stop there are some of the tokens. -/
theorem runUntil_suffix {stops : List String} :
    ∀ (tokens : List Token) {depth : Nat} {run rest : List Token},
      runUntil stops depth tokens = some (run, rest) → rest <:+ tokens := by
  intro tokens
  induction tokens with
  | nil => exact nofun
  | cons t tail ih =>
    intro depth run rest h
    unfold runUntil at h
    split at h
    · cases h
      exact List.suffix_rfl
    · split at h
      · exact suffix_of_map (fun _ _ => ih) h
      · split at h
        · cases depth with
          | zero =>
            cases h
            exact List.suffix_rfl
          | succ depth => exact suffix_of_map (fun _ _ => ih) h
        · exact suffix_of_map (fun _ _ => ih) h

theorem pastOptional_suffix (text : String) (tokens : List Token) :
    pastOptional text tokens <:+ tokens := by
  unfold pastOptional
  split
  · exact List.suffix_rfl
  · split
    · exact List.suffix_cons _ _
    · exact List.suffix_rfl

/-- Behind a declaration there are some of the tokens, whatever brackets are open. -/
theorem pastDeclaration_suffix :
    ∀ (tokens : List Token) {brackets braces : Nat} {rest : List Token},
      pastDeclaration brackets braces tokens = some rest → rest <:+ tokens := by
  intro tokens
  induction tokens with
  | nil =>
    intro brackets braces rest h
    cases braces with
    | zero =>
      cases h
      exact List.suffix_rfl
    | succ braces => cases h
  | cons t tail ih =>
    intro brackets braces rest h
    have hlater : ∀ {brackets braces : Nat}, pastDeclaration brackets braces tail = some rest →
        rest <:+ t :: tail :=
      fun h => (ih h).trans (List.suffix_cons t tail)
    cases braces with
    | zero =>
      unfold pastDeclaration at h
      split at h
      · exact hlater h
      · split at h
        · exact hlater h
        · split at h
          · exact hlater h
          · split at h
            · cases h
              exact List.suffix_rfl
            · split at h
              · cases h
                exact List.suffix_cons t tail
              · exact hlater h
    | succ braces =>
      unfold pastDeclaration at h
      split at h
      · exact hlater h
      · split at h
        · split at h
          · cases h
            exact (pastOptional_suffix ";" tail).trans (List.suffix_cons t tail)
          · exact hlater h
        · exact hlater h

/-- Behind groups in angle brackets there are some of the tokens. -/
theorem angleGroups_suffix :
    ∀ (tokens : List Token) {depth : Nat} {group : List Token} {groups : List (List Token)}
      {rest : List Token}, angleGroups depth group tokens = some (groups, rest) →
          rest <:+ tokens := by
  intro tokens
  induction tokens with
  | nil => exact nofun
  | cons t tail ih =>
    intro depth group groups rest h
    have hlater : ∀ {depth : Nat} {group : List Token} {groups : List (List Token)},
        angleGroups depth group tail = some (groups, rest) → rest <:+ t :: tail :=
      fun h => (ih h).trans (List.suffix_cons t tail)
    unfold angleGroups at h
    split at h
    · exact hlater h
    · split at h
      · cases depth with
        | zero =>
          cases h
          exact List.suffix_cons t tail
        | succ depth => exact hlater h
      · split at h
        · obtain ⟨⟨groups', rest'⟩, hgroups, heq⟩ := Option.map_eq_some_iff.mp h
          cases heq
          exact hlater hgroups
        · exact hlater h

end Token

namespace Parser

variable {α : Type} {T : List Token} {M : Memory}

theorem balanced_consumes (opening closing : String) : (balanced opening closing).Consumes T M :=
  (Consumes.expect opening).bind fun _ => .takeRun fun tokens _ _ => Token.balancedRun_suffix tokens

theorem upTo_consumes (stops : List String) : (upTo stops).Consumes T M :=
  .takeRun fun tokens _ _ => Token.runUntil_suffix tokens

theorem skipDeclaration_consumes : skipDeclaration.Consumes T M := by
  refine .takeRun fun tokens _ rest h => ?_
  obtain ⟨rest', hrest, heq⟩ := Option.map_eq_some_iff.mp h
  cases heq
  exact Token.pastDeclaration_suffix tokens hrest

theorem endDeclaration_consumes : endDeclaration.Consumes T M :=
  (Consumes.eat ";").bind fun _ => .ite (.pure ()) skipDeclaration_consumes

theorem skipAttribute_consumes : skipAttribute.Consumes T M :=
  (Consumes.advance 1).bind fun _ => (upTo_consumes _).discard.bind fun _ =>
    (Consumes.expect "]").bind fun _ => .expect "]"

/-- An optional bracket with what it encloses, which is passed over. -/
theorem enclosed_consumes {opening closing : String} {p : Parser α} (h : p.Consumes T M) :
    Consumes (do
    if ← isNext opening then discard <| balanced opening closing
    p) T M :=
  (Consumes.isNext opening).bind fun _ => .ite ((balanced_consumes _ _).discard.bind fun _ => h) h

/-- The longest row of tokens of some sort. -/
theorem span_consumes (p : Token → Bool) (f : List Token → α) : Consumes (do
    let (row, rest) := (← get).span p
    set rest
    return f row) T M := by
  refine .get_bind fun tokens htokens => ?_
  rw [List.span_eq_takeWhile_dropWhile]
  exact (Consumes.set ((List.dropWhile_suffix p).trans htokens)).bind fun _ => .pure _

theorem words_consumes (p : String → Bool) : (words p).Consumes T M :=
  span_consumes _ _

theorem qualifiers_consumes : qualifiers.Consumes T M :=
  span_consumes _ fun row => (row.any (·.text == "const"), row.any (·.text == "volatile"))

theorem leadingQualifiers_consumes : leadingQualifiers.Consumes T M :=
  span_consumes _ fun row => (row.any (·.text == "const"), row.any (·.text == "volatile"))

theorem indirections_consumes (type : NativeType) : (indirections type).Consumes T M := by
  refine .loop fun type => Consumes.text.bind fun word => ?_
  split
  case h_1 => exact (Consumes.advance 1).bind fun _ => qualifiers_consumes.bind fun _ => .pure _
  case h_2 | h_3 => exact (Consumes.advance 1).bind fun _ => .pure _
  case h_4 => exact .pure _

theorem aliasTarget?_consumes (name : String) : (aliasTarget? name).Consumes T M :=
  (Consumes.memory.bind fun _ => .pure _).bind fun _ => Consumes.memory.bind fun _ => .pure _

section Types

variable {type : Parser NativeType} (h : type.Consumes T M)
include h

theorem templateArguments_consumes : (templateArguments type).Consumes T M := by
  refine (Consumes.expect "<").bind fun _ => (Consumes.eat ">").bind fun _ => .ite (.pure []) ?_
  refine .loop fun found => .get_bind fun start hstart => ?_
  have hrest : ∀ argument : NativeType, Consumes (do
      if ← eat "," then again (argument :: found)
      else
        expect ">"
        done (argument :: found).reverse : Parser (List NativeType ⊕ List NativeType)) T M :=
    fun argument => (Consumes.eat ",").bind fun _ =>
      .ite (.pure _) ((Consumes.expect ">").bind fun _ => .pure _)
  refine .joined h.attempt (.pure none) fun parsed => (Consumes.isNext ",").bind fun _ =>
    (Consumes.isNext ">").bind fun _ => ?_
  dsimp only
  split
  · exact (Consumes.pure _).bind hrest
  · exact (Consumes.set hstart).bind fun _ => (upTo_consumes _).bind fun _ =>
      (Consumes.pure _).bind hrest

theorem namedType_consumes : (namedType type).Consumes T M := by
  refine (Consumes.eat "::").bind fun _ => .loop fun lead => Consumes.identifier.bind fun name => ?_
  refine (Consumes.isNext "<").bind fun _ => .ite ?_ ?_
  · refine (templateArguments_consumes h).bind fun arguments => (Consumes.eat "::").bind fun _ => ?_
    exact .ite (Consumes.identifier.bind fun _ => .pure _) (.pure _)
  · refine (Consumes.isNext "::").bind fun _ => .get_bind fun _ _ =>
      .ite ((Consumes.advance 1).bind fun _ => .pure _) ?_
    refine .ite (.pure _) ((aliasTarget?_consumes _).bind fun target? => ?_)
    cases target? with
    | some target => exact .pure _
    | none => exact .pure _

theorem baseType_consumes : (baseType type).Consumes T M := by
  refine (words_consumes _).bind fun row => ?_
  split
  · exact .pure _
  · refine Consumes.identifier?.bind fun name? => ?_
    split
    · exact (Consumes.advance 1).bind fun _ => .pure _
    · exact (Consumes.advance 1).bind fun _ => (balanced_consumes _ _).bind fun _ => .pure _
    · exact namedType_consumes h

theorem typeWith_consumes : (typeWith type).Consumes T M :=
  leadingQualifiers_consumes.bind fun _ => (baseType_consumes h).bind fun _ =>
      qualifiers_consumes.bind fun _ =>
    indirections_consumes _

end Types

/-- Reading a type consumes, whatever its bound is. It changes no memory. -/
theorem typeWithin_consumes (bound : Nat) : (typeWithin bound).Consumes T M := by
  induction bound with
  | zero => exact .fail _
  | succ bound ih => exact typeWith_consumes ih

theorem type_consumes : type.Consumes T M :=
  .get_bind fun _ _ => typeWithin_consumes _

theorem functionPointer?_consumes (result : NativeType) :
    (functionPointer? result).Consumes T M := by
  refine (Consumes.isNext "(").bind fun _ => (Consumes.isAt 1 "*").bind fun _ =>
    .ite ?_ (.pure none)
  refine (Consumes.advance 2).bind fun _ => (Consumes.eat "const").discard.bind fun _ => ?_
  refine Consumes.identifier?.bind fun name? => ?_
  have hrest : ∀ name : String, Consumes (do
      expect ")"
      let arguments ← balanced "(" ")"
      if ← eat "noexcept" then
        if ← isNext "(" then discard <| balanced "(" ")"
      return some (name, .unexposed (result.spelling ++ " (*)(" ++ Token.spell arguments ++ ")")) :
        Parser (Option (String × NativeType))) T M :=
    fun name => (Consumes.expect ")").bind fun _ => (balanced_consumes _ _).bind fun _ =>
      (Consumes.eat "noexcept").bind fun _ => .ite (enclosed_consumes (.pure _)) (.pure _)
  cases name? with
  | none => exact (Consumes.pure "").bind hrest
  | some name => exact (Consumes.advance 1).bind fun _ => (Consumes.pure name).bind hrest

theorem skipAttributes_consumes : skipAttributes.Consumes T M :=
  .loop fun _ => (Consumes.isNext "[[").bind fun _ =>
    .ite (skipAttribute_consumes.bind fun _ => .pure _) (.pure _)

theorem decayedArrays_consumes (type : NativeType) : (decayedArrays type).Consumes T M :=
  .loop fun _ => (Consumes.isNext "[").bind fun _ =>
    .ite ((balanced_consumes _ _).discard.bind fun _ => .pure _) (.pure _)

theorem parameter_consumes : parameter.Consumes T M := by
  refine (Consumes.eat "...").bind fun _ =>
    .ite (.pure _) (skipAttributes_consumes.bind fun _ => ?_)
  refine type_consumes.bind fun written => ?_
  have hrest : ∀ named : String × NativeType, Consumes (do
      let type ← decayedArrays named.2
      let default? ←
        if ← eat "=" then
          let run ← upTo [",", ")"]
          pure (some (Token.spell run))
        else pure none
      return { name := named.1, type, default? } : Parser Parameter) T M :=
    fun named => (decayedArrays_consumes named.2).bind fun _ => (Consumes.eat "=").bind fun _ =>
      .ite ((upTo_consumes _).bind fun _ => (Consumes.pure _).bind fun _ => .pure _)
        ((Consumes.pure none).bind fun _ => .pure _)
  refine (functionPointer?_consumes written).bind fun pointer? => ?_
  cases pointer? with
  | some pointer => exact (Consumes.pure pointer).bind hrest
  | none =>
    refine Consumes.identifier?.bind fun name? => ?_
    cases name? with
    | some name => exact (Consumes.advance 1).bind fun _ =>
      (Consumes.pure (name, written)).bind hrest
    | none => exact (Consumes.pure ("", written)).bind hrest

theorem parameters_consumes : parameters.Consumes T M := by
  refine (Consumes.expect "(").bind fun _ => (Consumes.eat ")").bind fun _ => .ite (.pure _) ?_
  refine (Consumes.isNext "void").bind fun _ => (Consumes.isAt 1 ")").bind fun _ =>
    .ite ((Consumes.advance 2).bind fun _ => .pure _) ?_
  exact .loop fun found => parameter_consumes.bind fun p => (Consumes.eat ",").bind fun _ =>
    .ite (.pure _) ((Consumes.expect ")").bind fun _ => .pure _)

theorem skipInitializers_consumes : skipInitializers.Consumes T M := by
  refine .loop fun _ => (Consumes.isNext "\x7b").bind fun _ => .ite (.pure _) ?_
  refine Consumes.next.bind fun t => (Consumes.isNext "(").bind fun _ => .ite ?_ ?_
  · exact (balanced_consumes _ _).discard.bind fun _ => .pure _
  · exact (Consumes.isNext "\x7b").bind fun _ =>
      .ite ((balanced_consumes _ _).discard.bind fun _ => .pure _) (.pure _)

theorem specifiers_consumes : specifiers.Consumes T M := by
  refine .loop fun flags => (Consumes.isNext "[[").bind fun _ =>
    .ite (skipAttribute_consumes.bind fun _ => .pure _) ?_
  refine Consumes.identifier?.bind fun name? => ?_
  split
  · exact (Consumes.advance 1).bind fun _ => .pure _
  · exact .pure _

theorem operatorName_consumes : operatorName.Consumes T M := by
  refine (Consumes.advance 1).bind fun _ => .loop fun name => (Consumes.isNext "(").bind fun _ =>
    .ite (.pure _) ?_
  exact Consumes.next.bind fun t => .ite ((Consumes.expect ")").bind fun _ => .pure _) (.pure _)

theorem arrayBounds_consumes (type : NativeType) : (arrayBounds type).Consumes T M :=
  .loop fun _ => (Consumes.isNext "[").bind fun _ =>
    .ite ((balanced_consumes _ _).bind fun _ => .pure _) (.pure _)

theorem initializer?_consumes : initializer?.Consumes T M := by
  refine (Consumes.eat "=").bind fun _ => .ite ((upTo_consumes _).bind fun _ => .pure _) ?_
  exact (Consumes.isNext "\x7b").bind fun _ => .ite ((balanced_consumes _ _).bind fun _ => .pure _)
    (.pure _)

theorem variableRest_consumes (inClass : Option String) (name : String) (type : NativeType)
    (flags : Flags) :
    (variableRest inClass name type flags).Consumes T M := by
  refine (arrayBounds_consumes type).bind fun type => (Consumes.eat ":").bind fun _ => .ite ?_ ?_
  · exact (upTo_consumes _).discard.bind fun _ => (Consumes.pure _).bind fun _ =>
      initializer?_consumes.bind fun _ => .pure _
  · exact (Consumes.pure _).bind fun _ => initializer?_consumes.bind fun _ => .pure _

theorem accessLabel?_consumes : accessLabel?.Consumes T M :=
  (Consumes.isAt 1 ":").bind fun _ => .ite (Consumes.text.bind fun _ => .pure _) (.pure none)

theorem templateParameters_consumes : templateParameters.Consumes T M :=
  (Consumes.expect "<").bind fun _ =>
    (Consumes.takeRun fun tokens _ _ => Token.angleGroups_suffix tokens).bind fun _ => .pure _

theorem classNames_consumes : classNames.Consumes T M := by
  refine .loop fun found => (Consumes.isNext "[[").bind fun _ =>
    .ite (skipAttribute_consumes.bind fun _ => .pure _) ?_
  refine Consumes.identifier?.bind fun name? => ?_
  cases name? with
  | none => exact .pure _
  | some name =>
    refine (Consumes.advance 1).bind fun _ => (Consumes.isNext "(").bind fun _ => .ite ?_ ?_
    · exact (balanced_consumes _ _).discard.bind fun _ => .pure _
    · refine Consumes.bind (.loop fun name => (Consumes.eat "::").bind fun _ => ?_) fun _ => .pure _
      exact .ite (Consumes.identifier.bind fun _ => .pure _) (.pure _)

theorem baseClasses_consumes (access : Access) : (baseClasses access).Consumes T M := by
  refine (Consumes.eat ":").bind fun _ => .ite (.loop fun found => ?_) (.pure [])
  have hbase : (baseClass access).Consumes T M :=
    (words_consumes _).bind fun _ => Consumes.line.bind fun _ => type_consumes.bind fun _ => .pure _
  exact hbase.bind fun _ => (Consumes.eat ",").bind fun _ => .ite (.pure _) (.pure _)

theorem enumerators_consumes : enumerators.Consumes T M := by
  refine .loop fun found => (Consumes.isNext "\x7d").bind fun _ => .ite (.pure _) ?_
  refine Consumes.line.bind fun line => Consumes.identifier.bind fun name =>
    (Consumes.eat "=").bind fun _ => ?_
  have hrest : ∀ value? : Option String, Consumes (do
      let found := { kind := .enumerator, name, value?, line } :: found
      if ← eat "," then again found else done found.reverse) T M :=
    fun value? => (Consumes.eat ",").bind fun _ => .ite (.pure _) (.pure _)
  exact .ite ((upTo_consumes _).bind fun _ => (Consumes.pure _).bind hrest)
    ((Consumes.pure none).bind hrest)

end Parser

end Interop.Header
