import Interop.Proofs.Header.Progress
import Interop.Proofs.Header.Scoping

namespace Interop.Header.Parser

open Token

variable {α : Type} {T : List Token} {n : Nat}

theorem recordAlias_advances (name : String) (type : NativeType) :
    (recordAlias name type).Advances T :=
  fun _ _ _ hT _ => ⟨rfl, hT, nofun⟩

theorem recordDefinition_advances (name : String) : (recordDefinition name).Advances T :=
  fun _ _ _ hT _ => ⟨rfl, hT, nofun⟩

theorem namespaceNames_advances : namespaceNames.Advances T := by
  refine .loop fun found _ _ => .identifier?_bind fun name? => ?_
  cases name? with
  | none => exact .pure not_false
  | some name =>
    exact (Leads.advance_of_ne fun _ hne => hne rfl).behind fun _ _ _ _ =>
      .eat_bind (fun _ _ _ => .pure not_false) (.pure not_false)

theorem usingDeclaration_advances : usingDeclaration.Advances T (fun _ => True) (· ≠ []) := by
  have hskipped : ∀ {α : Type} {T : List Token} (f : List Token → α), Advances (do
      let target ← upTo [";"]
      discard <| eat ";"
      return f target) T :=
    fun f => (upTo_advances _).bind fun _ => (Leads.eat ";").any.discard.bind fun _ =>
      .pure not_false
  refine (Leads.advance_of_ne fun _ => id).behind fun _ T _ _ =>
    .eat_bind (fun _ _ _ => hskipped _) ?_
  refine .identifier?_bind fun _ => .isAt_bind fun _ => .ite (fun _ => ?_) fun _ => hskipped _
  refine Leads.identifier.any.bind fun name => (Leads.advance 1).bind fun _ =>
    type_advances.any.bind fun target => ?_
  exact endDeclaration_advances.bind fun _ => (recordAlias_advances name target).bind fun _ =>
    .pure not_false

theorem typedef_advances : typedef.Advances T (fun _ => True) (· ≠ []) := by
  have hunmodelled : ∀ {T : List Token}, unmodelledTypedef.Advances T :=
    skip_advances.bind fun _ => .pure not_false
  have hrecorded : ∀ {T : List Token} name type (d : Declaration), Advances (do
      recordAlias name type
      return [d]) T :=
    fun name type d => (recordAlias_advances name type).bind fun _ => .pure not_false
  refine (Leads.advance_of_ne fun _ => id).behind fun _ T _ _ =>
    type_advances.attempt.any.bind fun target? => ?_
  cases target? with
  | none => exact hunmodelled
  | some target =>
    refine (functionPointer?_advances target).bind fun pointer? => ?_
    cases pointer? with
    | some pointer => exact endDeclaration_advances.bind fun _ => hrecorded _ _ _
    | none =>
      refine .identifier?_bind fun _ => .isAt_bind fun _ => ?_
      split
      · exact (Leads.advance 2).bind fun _ => hrecorded _ _ _
      · exact hunmodelled

theorem staticAssertion_advances : staticAssertion.Advances T (fun _ => True) (· ≠ []) :=
  (Leads.advance_of_ne fun _ => id).behind fun _ _ _ _ => (balanced_advances _ _).any.bind fun _ =>
    (Leads.eat ";").any.discard.bind fun _ => .pure not_false

theorem enumeration_advances : enumeration.Advances T (fun _ => True) (· ≠ []) := by
  have hbody : ∀ {T : List Token} (line : Nat) (isScoped : Bool) (name : String)
      (type? : Option NativeType), Advances (do
        if ← eat ";" then return []
        else if ← isNext "\x7b" then
          advance 1
          let children ← enumerators
          expect "\x7d"
          endDeclaration
          if name ≠ "" then recordDefinition name
          let flags : Flags := { isScoped, isDefinition := true }
          return [{ kind := .enumeration, name, type?, line, flags, children }]
        else
          skipDeclaration
          return [] : Parser (List Declaration)) T := by
    intro T line isScoped name type?
    refine .eat_bind (fun _ _ _ => .pure not_false)
      (.isNext_bind fun _ => .ite (fun _ => ?_) fun _ => ?_)
    · refine (Leads.advance 1).bind fun _ => enumerators_advances.bind fun children =>
        (Leads.expect _).any.bind fun _ => ?_
      refine endDeclaration_advances.bind fun _ => .ite (fun _ => ?_) fun _ => .pure not_false
      exact (recordDefinition_advances name).bind fun _ => .pure not_false
    · exact skip_advances.bind fun _ => .pure not_false
  refine (Leads.advance_of_ne fun _ => id).behind fun _ T _ _ => Leads.line.bind fun line =>
    (Leads.eat "class").any.bind fun _ => ?_
  refine .joined (.pure not_false) (Leads.eat "struct").any fun isScoped =>
    .identifier?_bind fun name? => ?_
  have htyped : ∀ name : String, Advances (do
      let type? ← if ← eat ":" then some <$> type else pure none
      if ← eat ";" then return []
      else if ← isNext "\x7b" then
        advance 1
        let children ← enumerators
        expect "\x7d"
        endDeclaration
        if name ≠ "" then recordDefinition name
        let flags : Flags := { isScoped, isDefinition := true }
        return [{ kind := .enumeration, name, type?, line, flags, children }]
      else
        skipDeclaration
        return [] : Parser (List Declaration)) T :=
    fun name => (Leads.eat ":").any.bind fun _ =>
      .joined (type_advances.map some fun _ => False.elim) (.pure not_false)
      fun type? => hbody line isScoped name type?
  cases name? with
  | some name => exact (Leads.advance 1).bind fun _ => (Leads.pure not_false).bind htyped
  | none => exact Leads.anywhere ((Leads.pure not_false).bind htyped)

/-- A label is looked for in a class only. -/
theorem outcome_label (inClass : Option String) {line : Nat} {tokens : List Token}
    {memory : Memory} :
    (if inClass.isSome = true then accessLabel? else pure none : Parser (Option Access)).outcome
      line tokens memory =
          (.ok (if inClass.isSome = true ∧ tokens[1]?.any (·.text == ":") = true then
          Access.ofWord? (tokens.head?.elim "" Token.text) else none, tokens), memory) := by
  by_cases hclass : inClass.isSome = true
  · rw [if_pos hclass, outcome_accessLabel?]
    simp [hclass]
  · rw [if_neg hclass, outcome_pure, if_neg fun h => hclass h.1]

section Declarations

variable {declaration declaration' : DeclarationParser}
  (h : ∀ (certain : Prop) (inClass : Option String) {T : List Token}, T.length < n →
    Agree (declaration inClass) (declaration' inClass) T (fun _ => certain) fun tokens => certain →
      Starts tokens)
include h

/-- A declaration that fails is skipped alike under all bounds, and takes a token if it does not
begin with a closing brace. -/
theorem recovering_agree (hT : T.length < n) (inClass : Option String) :
    Agree (recovering declaration inClass) (recovering declaration' inClass) T (fun _ =>
      True) Starts := by
  have hdeclaration : Agree (declaration inClass) (declaration' inClass) T (fun _ => True) Starts :=
    (h True inClass hT).conseq (fun _ _ => id) fun _ hstarts _ => hstarts
  refine .line_bind fun line => .tryCatch hdeclaration fun e he =>
    .restart fun start _ hstarts => ?_
  split
  · rename_i rest hrest
    refine .set_bind (Token.pastDeclaration_suffix start hrest) (.give ?_)
    rintro _ hsuffix rfl
    obtain ⟨t, ht, hne⟩ := hstarts
    obtain ⟨tail, rfl⟩ := List.head?_eq_some_iff.mp ht
    exact ⟨hsuffix, fun _ => Nat.lt_succ_of_le (pastDeclaration_starts hne hrest).length_le⟩
  · exact .throw he

/-- Declarations are read up to the end or up to a closing brace. -/
theorem declarations_leads (hT : T.length < n) (inClass : Option String) (access : Access) :
    Leads (declarations declaration inClass access) (declarations declaration' inClass access) T
      fun _ rest =>
      rest <:+ T ∧ ∀ t ∈ rest.head?, t.text = "\x7d" := by
  refine .loop_to fun (access, found) T' hT' => .observe outcome_peek? fun next? => ?_
  have hlength := hT'.length_le
  cases next? with
  | none => exact .give fun tokens htokens hnext => ⟨htokens.trans hT',
    fun t ht => absurd (hnext.2.symm.trans ht) nofun⟩
  | some t =>
    refine .ite (fun hclose => ?_) fun hopen => .ite (fun _ => ?_) fun _ => ?_
    · refine .give fun tokens htokens hnext => ⟨htokens.trans hT', fun u hu => ?_⟩
      cases hnext.2.symm.trans hu
      exact hclose
    · exact (Leads.advance_of_ne (by rintro _ ⟨-, hnext⟩ rfl; cases hnext)).after
          fun _ T₁ h₁ hlength₁ =>
        .give fun tokens htokens _ => ⟨htokens.trans h₁, by have := htokens.length_le; omega⟩
    · -- Another declaration begins with a token that does not close the scope, so it is not empty.
      have hstarts : ∀ tokens : List Token, (True ∧ tokens.head? = some t) → Starts tokens :=
        fun _ hnext => ⟨t, hnext.2, hopen⟩
      have hdeclaration : ∀ found' : List Declaration → List Declaration,
          Leads (do
              let ds ← recovering declaration inClass
              again (access, found' ds) : Parser ((Access × List Declaration) ⊕ List Declaration))
            (do
              let ds ← recovering declaration' inClass
              again (access, found' ds)) T'
            (Sum.elim (fun _ rest => rest <:+ T' ∧ rest.length < T'.length) fun _ rest =>
              rest <:+ T ∧ ∀ t ∈ rest.head?, t.text = "\x7d")
            fun tokens => True ∧ tokens.head? = some t := by
        refine fun found' =>
          .after ((recovering_agree h (by omega) inClass).conseq (fun _ _ => id) hstarts)
          fun ds T₁ h₁ hlength₁ => ?_
        exact .give fun tokens htokens _ => ⟨htokens.trans h₁, by have := htokens.length_le; omega⟩
      refine .observe (outcome_label inClass) fun label? => ?_
      cases label? with
      | none => exact (hdeclaration _).conseq (fun _ _ => id) fun _ hnext => hnext.1
      | some label =>
        refine .after (.advance_of_ne (by rintro _ ⟨⟨-, hnext⟩, -⟩ rfl; cases hnext))
          fun _ T₁ h₁ hlength₁ => ?_
        exact .give fun tokens htokens _ => ⟨htokens.trans h₁, by have := htokens.length_le; omega⟩

/-- Declarations in braces are read alike under all bounds above the number of tokens. -/
theorem enclosed_agree (hT : T.length < n) (inClass : Option String) (access : Access) (k : Nat) :
    Agree (thenLeaving k (declarations declaration inClass access))
      (thenLeaving k (declarations declaration' inClass access)) T :=
  .thenLeaving k ((declarations_leads h hT inClass access).conseq (fun _ _ hrest =>
    ⟨hrest.1, nofun⟩) fun _ => id)

/-- A declaration in another one, which may be any. -/
theorem inner_agree (hT : T.length < n) (inClass : Option String) :
    Agree (declaration inClass) (declaration' inClass) T :=
  (h False inClass hT).conseq (fun _ _ => id) fun _ _ => False.elim

/-- A namespace is read alike under all bounds that are not below the number of tokens. -/
theorem nameSpace_agree (hT : T.length ≤ n) :
    Agree (nameSpace declaration) (nameSpace declaration') T (fun _ => True) (· ≠ []) := by
  refine (Leads.advance_of_ne fun _ => id).behind fun _ T₁ h₁ hlength₁ =>
    namespaceNames_advances.bind fun names => ?_
  refine .eat_bind (fun _ _ _ => ?_) ?_
  · exact (upTo_advances _).bind fun _ => (Leads.eat ";").any.discard.bind fun _ => .pure not_false
  · refine (Leads.modifyMemory _).bind fun _ => (Leads.expect _).any.bind fun _ => ?_
    exact (enclosed_agree h (by omega) none .exposed _).bind fun children =>
        (Leads.expect _).any.bind fun _ =>
      .pure not_false

theorem linkage_agree (hT : T.length ≤ n) (inClass : Option String) :
    Agree (linkage declaration inClass) (linkage declaration' inClass) T (fun _ => True) (· ≠
      []) := by
  refine (Leads.advance_of_ne fun _ => id).behind fun _ T₁ h₁ hlength₁ =>
      Leads.next.any.bind fun t =>
    .eat_bind (fun T₂ _ _ => ?_) ?_
  · have hblock : Agree (declarations declaration inClass .exposed)
        (declarations declaration' inClass .exposed) T₂ :=
      (declarations_leads h (by omega) inClass .exposed).conseq (fun _ _ hrest =>
        ⟨hrest.1, nofun⟩) fun _ => id
    exact hblock.bind fun children => (Leads.expect _).any.bind fun _ => .pure not_false
  · exact (inner_agree h (by omega) inClass).bind fun children => .pure not_false

theorem template_agree (hT : T.length ≤ n) (inClass : Option String) :
    Agree (template declaration inClass) (template declaration' inClass) T (fun _ => True)
      (· ≠ []) :=
  (Leads.advance_of_ne fun _ => id).behind fun _ _ _ _ => templateParameters_advances.any.bind
      fun parameters =>
    (inner_agree h (by omega) inClass).bind fun inner => .pure not_false

theorem friend_agree (hT : T.length ≤ n) (inClass : Option String) :
    Agree (friend declaration inClass) (friend declaration' inClass) T (fun _ => True) (· ≠
      []) := by
  refine (Leads.advance_of_ne fun _ => id).behind fun _ _ _ _ => .text_bind fun word =>
      .isAt_bind fun _ =>
    .ite (fun _ => ?_) fun _ => ?_
  · exact (Leads.advance 1).bind fun _ => Leads.identifier.any.bind fun name =>
        (Leads.eat ";").any.discard.bind fun _ =>
      .pure not_false
  · exact (inner_agree h (by omega) inClass).bind fun inner => .pure not_false

/-- The body of a class is read alike under all bounds above the number of tokens. -/
theorem classBody_agree (hT : T.length < n) (kind : Kind) (name : String) (access : Access)
    (line : Nat) :
    Agree (classBody declaration kind name access line) (classBody declaration' kind name access
      line) T := by
  refine (baseClasses_advances access).bind fun bases => (Leads.expect _).any.bind fun _ =>
    (Leads.modifyMemory _).bind fun _ => ?_
  refine (enclosed_agree h hT (some name) access 1).bind fun members =>
      (Leads.expect _).any.bind fun _ =>
    .ite (fun _ => ?_) fun _ => ?_
  · exact (recordDefinition_advances name).bind fun _ => endDeclaration_advances.bind fun _ =>
      .pure not_false
  · exact endDeclaration_advances.bind fun _ => .pure not_false

theorem classOrElaborated_agree (hT : T.length ≤ n) (inClass : Option String) :
    Agree (classOrElaborated declaration inClass) (classOrElaborated declaration' inClass) T
      fun _ => True := by
  refine Leads.next.behind fun keyword T₁ h₁ hlength₁ => .get_bind fun typeStart htypeStart =>
    Leads.line.bind fun line => ?_
  refine classNames_advances.bind fun names => ?_
  generalize className names = parts
  obtain ⟨name, before⟩ := parts
  have hrest : ∀ isSpecialization : Bool, Agree (do
      let behind ← text
      if behind = "\x7b" ∨ behind = ":" then
        let kind : Kind := if isSpecialization then .classSpecialization else .classType
        let access : Access := if keyword.text = "class" then .hidden else .exposed
        return [← classBody declaration kind name access line]
      else if behind = ";" ∧ before.all isExportMacro then
        advance 1
        return []
      else
        set typeStart
        member inClass) (do
      let behind ← text
      if behind = "\x7b" ∨ behind = ":" then
        let kind : Kind := if isSpecialization then .classSpecialization else .classType
        let access : Access := if keyword.text = "class" then .hidden else .exposed
        return [← classBody declaration' kind name access line]
      else if behind = ";" ∧ before.all isExportMacro then
        advance 1
        return []
      else
        set typeStart
        member inClass) T₁ := by
    refine fun isSpecialization => .text_bind fun behind => .ite (fun _ => ?_) fun _ =>
      .ite (fun _ => ?_) fun _ => ?_
    · exact Leads.anywhere ((classBody_agree h (by omega) _ name _ line).bind fun d =>
        .pure not_false)
    · exact (Leads.advance 1).bind fun _ => .pure not_false
    · exact .set_bind htypeStart ((member_advances False inClass).conseq (fun _ _ => id) fun _ _ =>
        False.elim)
  refine .isNext_bind fun isSpecialization => .ite (fun _ => ?_) fun _ =>
    (hrest isSpecialization).anywhere
  exact templateParameters_advances.discard.any.bind fun _ => (Leads.eat "final").any.discard.bind
      fun _ =>
    hrest isSpecialization

/-- A declaration that begins with a token that can begin one is not empty. -/
theorem declarationForm_agree (hT : T.length ≤ n) (certain : Prop) (inClass : Option String) :
    Agree (declarationForm declaration inClass) (declarationForm declaration' inClass) T
      (fun _ => certain)
      fun tokens => certain → Starts tokens := by
  refine .observe outcome_text fun word => ?_
  -- A form that has a keyword begins with a token, and takes it.
  have hform : ∀ {word : String} {p q : Parser (List Declaration)}, word ≠ "" →
      Agree p q T (fun _ => True) (· ≠ []) →
          Agree p q T (fun _ => certain) fun tokens => (certain → Starts tokens) ∧
          tokens.head?.elim "" Token.text = word := by
    refine fun hword hform => hform.conseq (fun _ _ hrest => hrest.widen List.suffix_rfl fun _ =>
      .inl trivial) ?_
    rintro _ ⟨-, hhead⟩ rfl
    exact hword hhead.symm
  have hmember : Advances (member inClass) T (fun _ => certain) fun tokens =>
      (certain → Starts tokens) ∧ tokens.head?.elim "" Token.text = word :=
    (member_advances certain inClass).conseq (fun _ _ => id) fun _ => And.left
  split
  case h_1 => exact hform (by decide) (nameSpace_agree h hT)
  case h_2 => exact hform (by decide) (template_agree h hT inClass)
  case h_3 | h_4 | h_5 => exact hform (by decide) (classOrElaborated_agree h hT inClass).anywhere
  case h_6 => exact hform (by decide) enumeration_advances
  case h_7 => exact hform (by decide) usingDeclaration_advances
  case h_8 => exact hform (by decide) typedef_advances
  case h_9 => exact hform (by decide) staticAssertion_advances
  case h_10 => exact hform (by decide) (friend_agree h hT inClass)
  case h_11 => exact .get_bind fun _ _ => .ite (fun _ =>
    hform (by decide) (linkage_agree h hT inClass)) fun _ => hmember
  case h_12 => exact hmember

/-- A declaration is read alike under all bounds that are not below the number of tokens. -/
theorem declarationWith_agree (hT : T.length ≤ n) (certain : Prop) (inClass : Option String) :
    Agree (declarationWith declaration inClass) (declarationWith declaration' inClass) T
      (fun _ => certain)
      fun tokens => certain → Starts tokens :=
  .line_bind fun _ => (declarationForm_agree h hT certain inClass).either
      (fun _ _ _ _ _ => .pure not_false) fun _ hnot =>
    .pure hnot

end Declarations

/-- Declarations are the same within any bounds that are greater than the number of tokens. -/
theorem declarationWithin_agree {bound : Nat} :
    ∀ {bound' : Nat} (certain : Prop) (inClass : Option String) {T : List Token},
      T.length < bound → T.length < bound' →
        Agree (declarationWithin bound inClass) (declarationWithin bound' inClass) T
        (fun _ => certain)
        fun tokens => certain → Starts tokens := by
  induction bound with
  | zero => exact fun _ _ _ hbound => absurd hbound (Nat.not_lt_zero _)
  | succ bound ih =>
    intro bound' certain inClass T hbound hbound'
    obtain ⟨bound', rfl⟩ := Nat.exists_eq_add_one_of_ne_zero (Nat.ne_zero_of_lt hbound')
    exact declarationWith_agree (n := min bound bound') (fun certain inClass T hT =>
      ih certain inClass (by omega) (by omega))
      (by omega) certain inClass

/-- Whether a bound that is greater than the number of tokens is never felt: all such bounds give
the same, and none of them is used up. -/
def Boundless (p : Nat → Parser α) (tokens : List Token) : Prop :=
  ∀ bound bound', tokens.length < bound → tokens.length < bound' → ∀ line memory,
    (p bound).outcome line tokens memory = (p bound').outcome line tokens memory ∧
      ∀ e memory', (p bound).outcome line tokens memory = (.error e, memory') →
        e.cause ≠ .nestedTooDeep

/-- What leads on under any two bounds above the number of tokens does not depend on them. -/
theorem Boundless.of_leads {p : Nat → Parser α} {tokens : List Token} {left : α → List Token → Prop}
    (h : ∀ bound bound', tokens.length < bound → tokens.length < bound' →
      Leads (p bound) (p bound') tokens left) :
    Boundless p tokens := by
  intro bound bound' hbound hbound' line memory
  obtain ⟨hsame, hreached⟩ :=
    h bound bound' hbound hbound' line tokens memory List.suffix_rfl trivial
  refine ⟨hsame, fun e memory' he => ?_⟩
  rw [he] at hreached
  exact hreached

/-- What is left is behind at least one token if less is left. -/
theorem exists_taken {tokens rest : List Token} (h : rest <:+ tokens)
    (hlength : rest.length < tokens.length) :
    ∃ taken, taken ≠ [] ∧ tokens = taken ++ rest := by
  obtain ⟨taken, rfl⟩ := h
  refine ⟨taken, ?_, rfl⟩
  rintro rfl
  exact absurd hlength (Nat.lt_irrefl _)

/-- Reading always goes on. Where some tokens, which are those behind any place in a header, do not
begin with a closing brace, a declaration that is passed over or read successfully takes at least
one of them and no more than there are. So neither the bound on how deep types and declarations nest
nor the one on how many declarations follow each other is ever used up, and declarations that are
read are read up to the end or up to a closing brace. -/
theorem declarations_advance (tokens : List Token) (inClass : Option String) (access : Access) :
    (∀ line memory rest memory', Starts tokens → skipDeclaration.outcome line tokens memory =
      (.ok ((), rest), memory') → ∃ taken, taken ≠ [] ∧ tokens = taken ++ rest) ∧
    (∀ bound line memory ds rest memory', Starts tokens → tokens.length < bound →
      (declarationWithin bound inClass).outcome line tokens memory = (.ok (ds, rest), memory') →
      ∃ taken, taken ≠ [] ∧ tokens = taken ++ rest) ∧
    (Boundless typeWithin tokens ∧ Boundless (declarationWithin · inClass) tokens ∧
      Boundless (fun bound => declarations (declarationWithin bound) inClass access) tokens) ∧
    ∀ bound line memory ds rest memory', tokens.length < bound →
      (declarations (declarationWithin bound) inClass access).outcome line tokens memory =
        (.ok (ds, rest), memory') →
      rest <:+ tokens ∧ (rest = [] ∨ ∃ t ∈ rest.head?, t.text = "\x7d") := by
  have hdeclarations : ∀ bound bound', tokens.length < bound → tokens.length < bound' →
      Leads (declarations (declarationWithin bound) inClass access)
        (declarations (declarationWithin bound') inClass access) tokens
        fun _ rest => rest <:+ tokens ∧ ∀ t ∈ rest.head?, t.text = "\x7d" := by
    intro bound bound' hbound hbound'
    refine declarations_leads (n := min bound bound') (fun certain inClass T hT => ?_)
      (by omega) inClass access
    exact declarationWithin_agree certain inClass (by omega) (by omega)
  refine ⟨?_, ?_, ⟨?_, ?_, ?_⟩, ?_⟩
  · intro line memory rest memory' hstarts hskip
    have hreached := ((skipDeclaration_advances True) line tokens memory List.suffix_rfl fun _ =>
      hstarts).2
    rw [hskip] at hreached
    exact exists_taken hreached.1 (hreached.2 trivial)
  · intro bound line memory ds rest memory' hstarts hbound hread
    have hreached := (declarationWithin_agree True inClass hbound hbound line tokens memory
        List.suffix_rfl fun _ =>
      hstarts).2
    rw [hread] at hreached
    exact exists_taken hreached.1 (hreached.2 trivial)
  · exact .of_leads fun _ _ => typeWithin_agree
  · have hdeclaration : ∀ bound bound', tokens.length < bound → tokens.length < bound' →
        Agree (declarationWithin bound inClass) (declarationWithin bound' inClass) tokens :=
          fun bound bound' hbound hbound' =>
      (declarationWithin_agree False inClass hbound hbound').conseq (fun _ _ => id) fun _ _ =>
        False.elim
    exact .of_leads hdeclaration
  · exact .of_leads hdeclarations
  · intro bound line memory ds rest memory' hbound hread
    have hreached := (hdeclarations bound bound hbound hbound line tokens memory List.suffix_rfl
      trivial).2
    rw [hread] at hreached
    refine ⟨hreached.1, ?_⟩
    cases rest with
    | nil => exact .inl rfl
    | cons t rest => exact .inr ⟨t, rfl, hreached.2 t rfl⟩

/-- A declaration that cannot be read, in front of a closing brace. -/
theorem declarations_advance_recovered :
    let tokens := [mark "(", mark ";", mark ")", mark ";", mark "\x7d"]
    Starts tokens ∧ tokens.length < 6 ∧
      (∃ ds rest memory', (declarationWithin 6 none).outcome 1 tokens {} =
        (.ok (ds, rest), memory') ∧ ∃ taken, taken ≠ [] ∧ tokens = taken ++ rest) ∧
      ∃ ds rest memory', (declarations (declarationWithin 6) none .exposed).outcome 1 tokens {} =
        (.ok (ds, rest), memory') ∧ rest <:+ tokens ∧
            (rest = [] ∨ ∃ t ∈ rest.head?, t.text = "\x7d") := by
  intro tokens
  have hstarts : Starts tokens := ⟨_, rfl, by decide⟩
  have hbound : tokens.length < 6 := by decide
  obtain ⟨-, hdeclaration, -, hdeclarations⟩ := declarations_advance tokens none .exposed
  refine ⟨hstarts, hbound, ⟨_, _, _, rfl, hdeclaration 6 1 {} _ _ _ hstarts hbound rfl⟩, _, _, _,
    rfl, ?_⟩
  exact hdeclarations 6 1 {} _ _ _ hbound rfl

end Interop.Header.Parser
