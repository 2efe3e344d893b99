import Interop.Proofs.Header.DeclarationReading
import Interop.Proofs.Header.Endings
import Interop.Proofs.Header.Reading

namespace Interop.Header

namespace Token

variable {t : Token} {tokens rest : List Token} {behindUsing : Bool}

/-- The names that a namespace begins with, which have double colons between them, and the tokens
behind them. -/
def namespaceHead : List Token → List String × List Token
  | [] => ([], [])
  | [t] => if t.kind = .identifier then ([t.text], []) else ([], [t])
  | t :: mark :: rest =>
    if t.kind = .identifier then
      if mark.text = "::" then
        let (names, behind) := namespaceHead rest
        (t.text :: names, behind)
      else ([t.text], mark :: rest)
    else ([], t :: mark :: rest)

/-- The scopes that a namespace enters. One without a name enters a scope without a name. -/
def namespaceScopes (tokens : List Token) : List String :=
  let names := (namespaceHead tokens).1
  if names.isEmpty then [""] else names

/-- Whether a body or a namespace that is meant follows the names that some tokens begin with. -/
def opensNamespace (tokens : List Token) : Bool :=
  (namespaceHead tokens).2.head?.any fun t => t.text == "\x7b" || t.text == "="

/-- Whether all namespaces among some tokens are opened. Behind the keyword of a `using` none has to
be. -/
def namespacesOpen : (behindUsing : Bool) → List Token → Bool
  | _, [] => true
  | behindUsing, t :: rest =>
    (t.text != "namespace" || behindUsing || opensNamespace rest) && namespacesOpen t.isUsing rest

/-- Behind the names of a namespace there are some of the tokens. -/
theorem namespaceHead_suffix (tokens : List Token) : (namespaceHead tokens).2 <:+ tokens := by
  fun_induction namespaceHead tokens with
  | case1 | case3 | case6 => exact List.suffix_rfl
  | case2 t => exact List.suffix_cons t []
  | case5 t mark rest => exact List.suffix_cons t (mark :: rest)
  | case4 t mark rest _ _ names behind hhead ih =>
    rw [hhead] at ih
    exact ih.trans ((List.suffix_cons mark rest).trans (List.suffix_cons t _))

/-- Namespaces that are opened are opened behind a `using`, too. -/
theorem namespacesOpen_behind (h : namespacesOpen behindUsing tokens = true) :
    namespacesOpen true tokens = true := by
  cases tokens with
  | nil => rfl
  | cons t rest => simp_all [namespacesOpen]

/-- If all namespaces among some tokens are opened, so are those among the last of them. The first
of these may stand behind a using. -/
theorem namespacesOpen_suffix (h : namespacesOpen behindUsing tokens = true)
    (hrest : rest <:+ tokens) :
    namespacesOpen true rest = true := by
  induction tokens generalizing behindUsing with
  | nil => exact List.suffix_nil.mp hrest ▸ rfl
  | cons t tail ih =>
    rcases List.suffix_cons_iff.mp hrest with rfl | hrest
    · exact namespacesOpen_behind h
    · exact ih (Bool.and_eq_true_iff.mp h).2 hrest

/-- Where a declaration has ended the next namespace has to be opened. -/
theorem Ended.namespacesOpen (hrest : Ended tokens rest)
    (h : namespacesOpen behindUsing tokens = true) :
    namespacesOpen false rest = true := by
  cases hrest with
  | behind hsuffix ht =>
    have hopen := namespacesOpen_suffix h hsuffix
    rw [Token.namespacesOpen, ht] at hopen
    exact (Bool.and_eq_true_iff.mp hopen).2
  | before hsuffix ht =>
    have hopen := namespacesOpen_suffix h hsuffix
    cases rest with
    | nil => rfl
    | cons t tail =>
      rw [Token.namespacesOpen] at hopen ⊢
      simp_all

theorem exists_drop {text : String} {n : Nat} (h : tokens[n]?.any (·.text == text) = true) :
    ∃ t, t.text = text ∧ tokens.drop n = t :: tokens.drop (n + 1) := by
  obtain ⟨t, ht, htext⟩ := (Option.any_eq_true ..).mp h
  obtain ⟨hn, rfl⟩ := List.getElem?_eq_some_iff.mp ht
  exact ⟨tokens[n], beq_iff_eq.mp htext, List.drop_eq_getElem_cons hn⟩

/-- What is left behind a mark some tokens ahead has ended. -/
theorem ended_drop {text : String} (htext : text ≠ "using") {n : Nat}
    (h : tokens[n]?.any (·.text == text) = true) :
    Ended tokens (tokens.drop (n + 1)) := by
  obtain ⟨t, ht, hdrop⟩ := exists_drop h
  exact .of_text (hdrop ▸ List.drop_suffix n tokens) (ht ▸ htext)

end Token

namespace Parser

open Token

variable {α β : Type} {H : Prop} {behindUsing : Bool} {scope : List String} {line : Nat}
    {tokens start : List Token}
  {M memory : Memory} {inClass : Option String}

/-- The names of a namespace are read as its head has them. -/
theorem outcome_namespaceNames :
    namespaceNames.outcome line tokens memory = (.ok (namespaceHead tokens), memory) := by
  have hloops : ∀ found, Loops namespaceNameStep line (found.reverse ++ (namespaceHead tokens).1)
      (namespaceHead tokens).2
      memory found tokens memory := by
    fun_induction namespaceHead tokens with
    | case1 => exact fun found => .done (by simp [namespaceNameStep, done])
    | case2 t ht | case3 t ht =>
      exact fun found => .done (by simp [namespaceNameStep, done, Option.filter_some, ht])
    | case4 t mark rest ht hmark names behind hhead ih =>
      intro found
      have hnext : Loops namespaceNameStep line (found.reverse ++ t.text :: names) behind memory
          (t.text :: found) rest
          memory := by
        have hall := ih (t.text :: found)
        rw [hhead] at hall
        simpa using hall
      refine .again ?_ ?_ hnext
      · simp [namespaceNameStep, again, Option.filter_some, ht, hmark]
      · simp only [List.length_cons]
        omega
    | case5 t mark rest ht hmark | case6 t mark rest ht =>
      exact fun found => .done (by simp [namespaceNameStep, done, Option.filter_some, *])
  exact Loops.outcome_loop (hloops [])

/-- Whether the scopes are the given ones, with others in front of them that have been left behind
by namespaces without an opening brace. If `H` holds there are none. -/
def Scoped (H : Prop) (scope : List String) (memory : Memory) : Prop :=
  ∃ leaked, memory.scope = leaked ++ scope ∧ (H → leaked = [])

/-- Whether the scopes are such, and all namespaces ahead are opened if `H` holds. -/
def Stands (H : Prop) (behindUsing : Bool) (scope : List String) (tokens : List Token)
    (memory : Memory) : Prop :=
  (H → namespacesOpen behindUsing tokens = true) ∧ Scoped H scope memory

/-- Whether what is read by a parser that may be run there leaves the scopes such. -/
def Restores (H : Prop) (p : Parser α) (behindUsing : Bool := false) : Prop :=
  ∀ scope, Triple (Stands H behindUsing scope) p (fun _ => Stands H false scope) (Scoped H scope)

/-- Behind a using there is less to ask of namespaces. -/
theorem Stands.behind (h : Stands H behindUsing scope tokens memory) :
    Stands H true scope tokens memory :=
  ⟨fun hH => namespacesOpen_behind (h.1 hH), h.2⟩

/-- Scopes stand at tokens further on, which may begin behind a using. -/
theorem Stands.suffix {rest : List Token} (h : Stands H behindUsing scope tokens memory)
    (hrest : rest <:+ tokens) :
    Stands H true scope rest memory :=
  ⟨fun hH => namespacesOpen_suffix (h.1 hH) hrest, h.2⟩

/-- Scopes stand where something has ended. -/
theorem Stands.ended {rest : List Token} (h : Stands H behindUsing scope tokens memory)
    (hrest : Ended tokens rest) :
    Stands H false scope rest memory :=
  ⟨fun hH => hrest.namespacesOpen (h.1 hH), h.2⟩

section Rules

variable {p : Parser α} {f : α → Parser β} {post : β → List Token → Memory → Prop}

/-- What only takes tokens may be run anywhere. -/
theorem Consumes.stands (h : ∀ {T M}, p.Consumes T M) :
    Triple (Stands H behindUsing scope) p (fun _ => Stands H true scope) (Scoped H scope) := by
  constructor
  · intro line tokens memory a rest memory' hpre hrun
    obtain ⟨hrest, rfl⟩ := h.of_ok ⟨List.suffix_rfl, rfl⟩ hrun
    exact hpre.suffix hrest
  · intro line tokens memory e memory' hpre hrun
    exact h.of_error ⟨List.suffix_rfl, rfl⟩ hrun ▸ hpre.2

/-- A parser that leaves the memory and ends restores the scopes. -/
theorem Ends.restores (h : ∀ {T M}, p.Ends T M) : Restores H p behindUsing := by
  intro scope
  constructor
  · intro line tokens memory a rest memory' hpre hrun
    obtain ⟨⟨-, hended⟩, rfl⟩ := h.of_ok ⟨List.suffix_rfl, rfl⟩ hrun
    exact hpre.ended (hended trivial)
  · intro line tokens memory e memory' hpre hrun
    exact h.of_error ⟨List.suffix_rfl, rfl⟩ hrun ▸ hpre.2

/-- What follows a parser that only takes tokens. -/
theorem Triple.behind (h : ∀ {T M}, p.Consumes T M)
    (hf : ∀ a, Triple (Stands H true scope) (f a) post (Scoped H scope)) :
    Triple (Stands H behindUsing scope) (p >>= f) post (Scoped H scope) :=
  .bind (Consumes.stands h) hf

/-- What restores the scopes may be followed by what starts in them. -/
theorem Restores.bind (h : Restores H p behindUsing)
    (hf : ∀ a, Triple (Stands H false scope) (f a) post (Scoped H scope)) :
    Triple (Stands H behindUsing scope) (p >>= f) post (Scoped H scope) :=
  .bind (h scope) hf

/-- What has been read is returned. -/
theorem Triple.finish_stands {a : α} :
    Triple (Stands H behindUsing scope) (Pure.pure a) (fun _ => Stands H behindUsing scope)
      (Scoped H scope) :=
  .pure fun _ _ => id

/-- What follows a condition of which both sides only take tokens. -/
theorem Triple.behind_ite {c : Prop} [Decidable c] {q : Parser α} (h : ∀ {T M}, p.Consumes T M)
    (hq : ∀ {T M}, q.Consumes T M)
    (hf : ∀ a, Triple (Stands H true scope) (f a) post (Scoped H scope)) :
    Triple (Stands H behindUsing scope) (if c then p >>= f else q >>= f) post (Scoped H scope) := by
  split
  · exact .behind h hf
  · exact .behind hq hf

theorem recordAlias_stands (name : String) (type : NativeType) :
    Triple (Stands H behindUsing scope) (recordAlias name type) (fun _ =>
      Stands H behindUsing scope) (Scoped H scope) := by
  refine ⟨fun hpre hrun => ?_, fun _ hrun => ?_⟩
  · cases hrun
    exact hpre
  · cases hrun

theorem recordDefinition_stands (name : String) :
    Triple (Stands H behindUsing scope) (recordDefinition name) (fun _ =>
      Stands H behindUsing scope) (Scoped H scope) := by
  refine ⟨fun hpre hrun => ?_, fun _ hrun => ?_⟩
  · cases hrun
    exact hpre
  · cases hrun

theorem line_stands :
    Triple (Stands H behindUsing scope) Parser.line (fun _ =>
      Stands H behindUsing scope) (Scoped H scope) := by
  refine ⟨fun hpre hrun => ?_, fun _ hrun => ?_⟩
  · cases outcome_line'.symm.trans hrun
    exact hpre
  · cases outcome_line'.symm.trans hrun

/-- What is returned to later can be read from there. -/
theorem Triple.get_stands {f : List Token → Parser β}
    (hf : ∀ start, (H → namespacesOpen true start = true) →
      Triple (Stands H true scope) (f start) post (Scoped H scope)) :
    Triple (Stands H true scope) (get >>= f) post (Scoped H scope) :=
  .from_start fun start _ hstart =>
    .step (fun _ => outcome_get) ((hf start hstart.1).at_start hstart)

/-- Behind a mark the next namespace has to be opened. -/
theorem eat_stands {text : String} (htext : text ≠ "using") :
    Triple (Stands H behindUsing scope) (eat text)
      (fun taken => Stands H (behindUsing && !taken) scope)
      (Scoped H scope) := by
  constructor
  · intro line tokens memory taken rest memory' hpre hrun
    obtain ⟨hrest, rfl⟩ := outcome_eat_eq_ok.mp hrun
    cases taken with
    | true =>
      obtain ⟨t, ht, rfl⟩ := hrest
      rw [Bool.not_true, Bool.and_false]
      exact hpre.ended (.of_text List.suffix_rfl (ht ▸ htext))
    | false =>
      obtain ⟨rfl, -⟩ := hrest
      rwa [Bool.not_false, Bool.and_true]
  · intro line tokens memory e memory' hpre hrun
    exact (Consumes.eat text).of_error ⟨List.suffix_rfl, rfl⟩ hrun ▸ hpre.2

end Rules

theorem usingDeclaration_restores : Restores H usingDeclaration true := by
  intro scope
  have hskipped : ∀ {α : Type} (f : List Token → α), Restores H (do
      let target ← upTo [";"]
      discard <| eat ";"
      return f target) true :=
    fun f => Ends.restores ((upTo_ends (by decide)).optional (by decide) f)
  refine .behind (.advance 1) fun _ => .behind (.eat "namespace") fun _ => ?_
  split
  · exact hskipped _ scope
  · refine .behind .identifier? fun _ => .behind (.isAt 1 "=") fun _ => ?_
    split
    · refine .behind .identifier fun name => .behind (.advance 1) fun _ =>
        .behind type_consumes fun target => ?_
      refine Restores.bind (Ends.restores endDeclaration_ends) fun _ =>
        (recordAlias_stands name target).bind fun _ => ?_
      exact .finish_stands
    · exact hskipped _ scope

theorem typedef_restores : Restores H typedef true := by
  intro scope
  have hunmodelled : Restores H unmodelledTypedef true :=
    Ends.restores (skipDeclaration_ends.returning _)
  have hrecorded : ∀ name type (d : Declaration), Triple (Stands H false scope) (do
      recordAlias name type
      return [d]) (fun _ => Stands H false scope) (Scoped H scope) :=
    fun name type d => (recordAlias_stands name type).bind fun _ => .finish_stands
  refine .behind (.advance 1) fun _ => .behind type_consumes.attempt fun target? => ?_
  cases target? with
  | none => exact hunmodelled scope
  | some target =>
    refine .behind (functionPointer?_consumes target) fun pointer? => ?_
    cases pointer? with
    | some pointer =>
      exact Restores.bind (Ends.restores endDeclaration_ends) fun _ => hrecorded _ _ _
    | none =>
      refine .from_start fun start M hstart => .step (fun _ => outcome_identifier?)
        (.step (fun _ => outcome_isAt 1 ";") ?_)
      split
      · rename_i hend
        refine .step (fun _ => outcome_advance 2) ((hrecorded _ _ _).at_start ?_)
        exact hstart.ended (ended_drop (by decide) hend)
      · exact (hunmodelled scope).at_start hstart

/-- An enum restores the scopes. It may record a definition. -/
theorem enumeration_restores : Restores H enumeration true := by
  intro scope
  have hbody : ∀ (line : Nat) (isScoped : Bool) (name : String) (type? : Option NativeType),
      Triple (Stands H true scope) (do
        if ← eat ";" then return []
        else if ← isNext "\x7b" then
          advance 1
          let children ← enumerators
          expect "\x7d"
          endDeclaration
          if name ≠ "" then recordDefinition name
          let flags : Flags := { isScoped, isDefinition := true }
          return [{ kind := .enumeration, name, type?, line, flags, children }]
        else
          skipDeclaration
          return [] : Parser (List Declaration)) (fun _ =>
              Stands H false scope) (Scoped H scope) := by
    intro line isScoped name type?
    refine (eat_stands (by decide)).bind fun isEmpty => ?_
    cases isEmpty with
    | true => exact .finish_stands
    | false =>
      refine .behind (.isNext _) fun isOpen => ?_
      split
      · refine .behind (.advance 1) fun _ => .behind enumerators_consumes fun children =>
          .behind (.expect _) fun _ => ?_
        refine Restores.bind (Ends.restores endDeclaration_ends) fun _ => ?_
        split
        · exact (recordDefinition_stands name).bind fun _ => .finish_stands
        · exact .finish_stands
      · exact Restores.bind (Ends.restores skipDeclaration_ends) fun _ => .finish_stands
  refine .behind (.advance 1) fun _ => .behind .line fun line => .behind (.eat "class") fun _ => ?_
  refine .behind_ite (.pure true) (.eat "struct") fun isScoped =>
    .behind .identifier? fun name? => ?_
  cases name? with
  | some name =>
    refine .behind (.advance 1) fun _ => .behind (.pure name) fun name =>
      .behind (.eat ":") fun _ => ?_
    exact .behind_ite (type_consumes.map some) (.pure none) fun type? =>
      hbody line isScoped name type?
  | none =>
    refine .behind (.pure "") fun name => .behind (.eat ":") fun _ => ?_
    exact .behind_ite (type_consumes.map some) (.pure none) fun type? =>
      hbody line isScoped name type?

theorem outcome_accessLabel? :
    accessLabel?.outcome line tokens memory =
      (.ok (if tokens[1]?.any (·.text == ":") then Access.ofWord? (tokens.head?.elim "" Token.text)
        else none, tokens), memory) := by
  simp only [accessLabel?, outcome_bind, outcome_isAt, outcome_ite, outcome_text, outcome_pure]
  split <;> rfl

section Declarations

variable {declaration : DeclarationParser} (h : ∀ inClass, Restores H (declaration inClass))
include h

/-- The scopes are restored also when a declaration is skipped after an error. -/
theorem recovering_restores (inClass : Option String) :
    Restores H (recovering declaration inClass) := by
  intro scope
  refine line_stands.bind fun line => .tryCatch (fun _ _ => And.left) (h inClass scope) fun e => ?_
  refine .from_start fun start M hstart => .step (fun _ => outcome_get) ?_
  split
  · rename_i rest hrest
    exact .step (fun _ => outcome_set rest)
      (.pure_at (Stands.ended hstart (pastDeclaration_ended hrest)))
  · exact .at_start (.throw e fun _ _ => And.right) hstart

/-- Declarations restore the scopes, one after the other. -/
theorem declarations_restores (inClass : Option String) (access : Access) :
    Restores H (declarations declaration inClass access) := by
  intro scope
  refine .loop (I := fun _ => Stands H false scope) (fun _ _ _ hstart => hstart.2) fun (access,
    found) => ?_
  refine .from_start fun start M hstart => .step (fun _ => outcome_peek?) ?_
  cases start with
  | nil => exact .pure_at hstart
  | cons t tail =>
    simp only [List.head?_cons]
    split
    · exact .pure_at hstart
    · split
      · rename_i hend
        refine .step (fun _ => outcome_advance 1) (.pure_at ?_)
        exact hstart.ended (.of_text List.suffix_rfl (by simp [hend]))
      · have hdeclaration : ∀ found' : List Declaration → List Declaration,
            Triple (fun tokens memory => tokens = t :: tail ∧ memory = M) (do
              let ds ← recovering declaration inClass
              again (access, found' ds) : Parser ((Access × List Declaration) ⊕ List Declaration))
            (fun next => next.elim (fun _ => Stands H false scope) fun _ => Stands H false scope)
                (Scoped H scope) :=
          fun _ => .at_start (Restores.bind (recovering_restores h inClass) fun _ =>
            .pure fun _ _ => id) hstart
        split
        · refine .step (fun _ => outcome_accessLabel?) ?_
          split
          · rename_i hlabel
            obtain ⟨hmark, -⟩ := Option.ite_none_right_eq_some.mp hlabel
            exact .step (fun _ => outcome_advance 2)
              (.pure_at (hstart.ended (ended_drop (by decide) hmark)))
          · exact hdeclaration _
        · exact .step (fun _ => outcome_pure none) (hdeclaration _)

/-- Declarations between the braces of a namespace or a class, whose scopes are left behind them. -/
theorem enclosed_restores (inClass : Option String) (access : Access) (names : List String) :
    Triple (fun tokens memory => (H → namespacesOpen false tokens = true) ∧
        ∃ leaked, memory.scope = names.reverse ++ (leaked ++ scope) ∧ (H → leaked = []))
      (thenLeaving names.length (declarations declaration inClass access))
        (fun _ => Stands H false scope)
      (Scoped H scope) := by
  refine .from_start fun start M hstart => ?_
  obtain ⟨hopen, leaked, hscope, hleaked⟩ := hstart
  -- Behind the declarations the scopes that have been left behind inside lie in front of those that
  -- were entered.
  have hleft : ∀ memory, Scoped H (names.reverse ++ (leaked ++ scope)) memory →
      Scoped H scope (memory.leaving names.length) := by
    rintro memory ⟨leaked', hmemory, hleaked'⟩
    refine ⟨(leaked' ++ names.reverse).drop names.length ++ leaked, ?_, fun hH => ?_⟩
    · rw [Memory.leaving, hmemory, ← List.append_assoc, List.drop_append_of_le_length (by simp),
        List.append_assoc]
    · rw [hleaked hH, hleaked' hH]
      simp
  have hinside := declarations_restores h inClass access (names.reverse ++ (leaked ++ scope))
  have hstart : Stands H false (names.reverse ++ (leaked ++ scope)) start M :=
    ⟨hopen, [], hscope, fun _ => rfl⟩
  exact (Triple.thenLeaving _ hinside (fun _ tokens memory hpost =>
    ⟨hpost.1, hleft memory hpost.2⟩) hleft).at_start hstart

/-- A linkage block enters no scope. -/
theorem linkage_restores (inClass : Option String) (hstart : Stands H behindUsing scope start M)
    (hstring : start[1]?.any (·.kind == .string) = true) :
    Triple (fun tokens memory => tokens = start ∧ memory = M) (linkage declaration inClass)
      (fun _ => Stands H false scope) (Scoped H scope) := by
  obtain ⟨t, text, tail, rfl, htext⟩ : ∃ t text tail, start = t :: text :: tail ∧
      text.kind = .string := by
    match start, hstring with
    | t :: text :: tail, hstring => exact ⟨t, text, tail, rfl, by simpa using hstring⟩
  refine .step (fun _ => outcome_advance 1) (.step (fun _ => outcome_next) ?_)
  have hbehind : Stands H false scope tail M :=
    hstart.ended (.behind (List.suffix_cons t _) (by simp [isUsing, htext]))
  refine Triple.at_start ((eat_stands (by decide)).bind fun isBlock => ?_) hbehind
  rw [Bool.false_and]
  split
  · refine Restores.bind (declarations_restores h inClass .exposed) fun children => ?_
    exact Restores.bind (Ends.restores (.expect (by decide))) fun _ => .finish_stands
  · exact Restores.bind (h inClass) fun children => .finish_stands

/-- A template restores the scopes, as the declaration in it does. -/
theorem template_restores (inClass : Option String) :
    Restores H (template declaration inClass) true := by
  intro scope
  have hparameters : ∀ {T M}, templateParameters.Ends T M :=
    .after (.expect "<") fun _ => (Ends.takeRun angleGroups_ended).returning _
  exact .behind (.advance 1) fun _ => Restores.bind (Ends.restores hparameters) fun parameters =>
    Restores.bind (h inClass) fun inner => .finish_stands

/-- A friend restores the scopes, as the declaration in it does. -/
theorem friend_restores (inClass : Option String) (hstart : Stands H behindUsing scope start M)
    (hfriend : start.head?.elim "" Token.text = "friend") :
    Triple (fun tokens memory => tokens = start ∧ memory = M) (friend declaration inClass)
      (fun _ => Stands H false scope) (Scoped H scope) := by
  have hbehind : Stands H false scope (start.drop 1) M :=
    hstart.ended (.of_head (by decide) (by decide) hfriend)
  refine .step (fun _ => outcome_advance 1) ?_
  generalize start.drop 1 = tail at hbehind ⊢
  refine .step (fun _ => outcome_text) (.step (fun _ => outcome_isAt 2 ";") ?_)
  split
  · rename_i hannounced
    rw [Bool.and_eq_true] at hannounced
    have hname : Triple (fun tokens memory => tokens = tail.drop 1 ∧ memory = M) identifier
        (fun _ tokens memory => tokens = tail.drop 2 ∧ memory = M) (Scoped H scope) := by
      constructor
      · rintro line _ _ name rest memory' ⟨rfl, rfl⟩ hrun
        obtain ⟨⟨t, -, -, htokens⟩, rfl⟩ := outcome_identifier_eq_ok.mp hrun
        refine ⟨?_, rfl⟩
        rw [← List.drop_drop (i := 1) (j := 1), htokens]
        rfl
      · rintro line _ _ e memory' ⟨rfl, rfl⟩ hrun
        exact (Consumes.identifier).of_error ⟨List.suffix_rfl, rfl⟩ hrun ▸ hbehind.2
    obtain ⟨t, ht, hdrop⟩ := exists_drop hannounced.2
    have hend : ∀ line, (discard (eat ";")).outcome line (tail.drop 2) M = (.ok ((), tail.drop 3),
        M) := by
      intro line
      rw [outcome_discard, hdrop, outcome_eat_of_next ht]
    refine .step (fun _ => outcome_advance 1) (hname.bind fun name => ?_)
    exact .step hend (.pure_at (hbehind.ended (ended_drop (by decide) hannounced.2)))
  · exact .at_start (Restores.bind (h inClass) fun inner => .finish_stands) hbehind

/-- A namespace leaves its scopes at its end, or it has no opening brace and is left behind in
them. -/
theorem nameSpace_restores (hstart : Stands H false scope start M)
    (hkeyword : start.head?.elim "" Token.text = "namespace") :
    Triple (fun tokens memory => tokens = start ∧ memory = M) (nameSpace declaration)
      (fun _ => Stands H false scope)
      (Scoped H scope) := by
  cases start with
  | nil => exact absurd hkeyword (by decide)
  | cons t tail =>
    have htext : t.text = "namespace" := hkeyword
    have hopens : H → opensNamespace tail = true := by
      intro hH
      simpa [namespacesOpen, htext] using (Bool.and_eq_true_iff.mp (hstart.1 hH)).1
    have hbehind := hstart.suffix ((namespaceHead_suffix tail).trans (List.suffix_cons t tail))
    rw [opensNamespace] at hopens
    refine @Triple.step _ _ _ _ _ _ _ _ tail _ _ (fun _ => outcome_advance 1)
      (.step (fun _ => outcome_namespaceNames) ?_)
    rcases exists_next_or "=" (namespaceHead tail).2 with ⟨mark, rest, heq, hmark⟩ | hnot
    · rw [heq] at hbehind ⊢
      refine .step (fun _ => outcome_eat_of_next hmark) ?_
      rw [if_pos rfl]
      exact .at_start (Ends.restores ((upTo_ends (by decide)).optional (by decide) _) scope)
        (hbehind.suffix (List.suffix_cons mark rest))
    · refine .step (fun _ => outcome_eat_of_not_next hnot) ?_
      rw [if_neg (by decide)]
      obtain ⟨leaked, hscope, hleaked⟩ := hstart.2
      refine .step (fun _ => outcome_enterScopes (namespaceScopes tail)) ?_
      rcases exists_next_or "\x7b" (namespaceHead tail).2 with ⟨brace, rest, heq, hbrace⟩ | hmissing
      · rw [heq] at hbehind ⊢
        refine .step (fun _ => outcome_expect_of_next hbrace) ?_
        refine .bind (Triple.at_start (enclosed_restores h none .exposed (namespaceScopes tail))
          ?_) fun children => ?_
        · exact ⟨(hbehind.ended (.of_text List.suffix_rfl (by simp [hbrace]))).1, leaked,
            congrArg _ hscope, hleaked⟩
        · exact Restores.bind (Ends.restores (.expect (by decide))) fun _ => .finish_stands
      · refine .stop (fun line => outcome_expect_of_not_next hmissing) ?_
        refine ⟨(namespaceScopes tail).reverse ++ leaked, by rw [hscope, List.append_assoc],
          fun hH => ?_⟩
        obtain ⟨t, ht, hopen⟩ := (Option.any_eq_true ..).mp (hopens hH)
        simp [hnot t ht, hmissing t ht] at hopen

/-- The body of a class leaves the scope of the class at its end. -/
theorem classBody_restores (kind : Kind) (name : String) (access : Access) (line : Nat) :
    Restores H (classBody declaration kind name access line) true := by
  intro scope
  refine .behind (baseClasses_consumes access) fun bases => Restores.bind (Ends.restores
    (.expect (by decide))) fun _ => ?_
  refine .from_start fun start M hstart => .step (fun _ => outcome_enterScopes [name]) ?_
  refine .bind (Triple.at_start (enclosed_restores h (some name) access [name]) ?_)
    fun members => ?_
  · obtain ⟨hopen, leaked, hscope, hleaked⟩ := hstart
    exact ⟨hopen, leaked, congrArg _ hscope, hleaked⟩
  · refine Restores.bind (Ends.restores (.expect (by decide))) fun _ => ?_
    split
    · refine (recordDefinition_stands name).bind fun _ =>
        Restores.bind (Ends.restores endDeclaration_ends) fun _ => ?_
      exact .finish_stands
    · exact Restores.bind (Ends.restores endDeclaration_ends) fun _ => .finish_stands

theorem classOrElaborated_restores (inClass : Option String) :
    Restores H (classOrElaborated declaration inClass) := by
  intro scope
  refine .behind .next fun keyword => .get_stands fun typeStart hopen =>
    .behind .line fun line => ?_
  refine .behind classNames_consumes fun names => ?_
  generalize className names = parts
  obtain ⟨name, before⟩ := parts
  have hrest : ∀ isSpecialization : Bool, Triple (Stands H true scope) (do
      let behind ← text
      if behind = "\x7b" ∨ behind = ":" then
        let kind : Kind := if isSpecialization then .classSpecialization else .classType
        let access : Access := if keyword.text = "class" then .hidden else .exposed
        return [← classBody declaration kind name access line]
      else if behind = ";" ∧ before.all isExportMacro then
        advance 1
        return []
      else
        set typeStart
        member inClass) (fun _ => Stands H false scope) (Scoped H scope) := by
    intro isSpecialization
    refine .from_start fun start M hstart => .step (fun _ => outcome_text) ?_
    split
    · exact .at_start (Restores.bind (classBody_restores h _ name _ line) fun d =>
        .finish_stands) hstart
    · split
      · rename_i hend
        exact .step (fun _ => outcome_advance 1)
          (.pure_at (hstart.ended (.of_head (by decide) (by decide) hend.1)))
      · refine .step (fun _ => outcome_set typeStart) ?_
        exact (Ends.restores (member_ends inClass) scope).at_start
          (⟨hopen, hstart.2⟩ : Stands H true scope typeStart M)
  refine .behind (.isNext "<") fun isSpecialization => ?_
  split
  · exact .behind templateParameters_consumes.discard fun _ =>
      .behind (Consumes.eat "final").discard fun _ => hrest true
  · exact hrest false

/-- Each form of a declaration restores the scopes. -/
theorem declarationForm_restores (inClass : Option String) :
    Restores H (declarationForm declaration inClass) := by
  intro scope
  refine .from_start fun start M hstart => .step (fun _ => outcome_text) ?_
  split
  case h_1 hkeyword => exact nameSpace_restores h hstart hkeyword
  case h_2 => exact (template_restores h inClass scope).at_start hstart.behind
  case h_3 | h_4 | h_5 => exact (classOrElaborated_restores h inClass scope).at_start hstart
  case h_6 => exact (enumeration_restores scope).at_start hstart.behind
  case h_7 => exact (usingDeclaration_restores scope).at_start hstart.behind
  case h_8 => exact (typedef_restores scope).at_start hstart.behind
  case h_9 => exact (Ends.restores staticAssertion_ends scope).at_start hstart
  case h_10 hkeyword => exact friend_restores h inClass hstart hkeyword
  case h_11 =>
    refine .step (fun _ => outcome_get) ?_
    split
    · rename_i hstring
      exact linkage_restores h inClass hstart hstring
    · exact (Ends.restores (member_ends inClass) scope).at_start hstart
  case h_12 => exact (Ends.restores (member_ends inClass) scope).at_start hstart

theorem declarationWith_restores (inClass : Option String) :
    Restores H (declarationWith declaration inClass) :=
  fun _ => line_stands.bind fun _ => Restores.bind (declarationForm_restores h inClass) fun _ =>
    .finish_stands

end Declarations

/-- Declarations restore the scopes, whatever the bound of their nesting is. -/
theorem declarationWithin_restores (bound : Nat) :
    ∀ inClass, Restores H (declarationWithin bound inClass) := by
  induction bound with
  | zero =>
    exact fun inClass => Ends.restores (.fail _)
  | succ bound ih => exact declarationWith_restores ih

/-- A namespace without its opening brace fails with its scopes entered. -/
theorem outcome_nameSpace_of_not_open {declaration : DeclarationParser} {t : Token}
    {rest : List Token} (h : opensNamespace rest = false) :
    ∃ e, (nameSpace declaration).outcome line (t :: rest) memory = (.error e,
      memory.entering (namespaceScopes rest)) := by
  have hmissing : ∀ u ∈ (namespaceHead rest).2.head?, u.text ≠ "\x7b" ∧ u.text ≠ "=" := by
    intro u hu
    have hnot := (Option.any_eq_false ..).mp h u hu
    simpa using hnot
  have hadvance : (advance 1).outcome line (t :: rest) memory = (.ok ((), rest), memory) := rfl
  obtain ⟨e, he⟩ := @outcome_expect_of_not_next line (namespaceHead rest).2
    (memory.entering (namespaceScopes rest)) _
    fun u hu => (hmissing u hu).1
  refine ⟨e, ?_⟩
  rw [nameSpace, outcome_bind_ok hadvance, outcome_bind_ok outcome_namespaceNames,
    outcome_bind_ok (outcome_eat_of_not_next fun u hu => (hmissing u hu).2), if_neg (by decide)]
  exact (outcome_bind_ok (outcome_enterScopes (namespaceScopes rest))).trans (outcome_bind_error he)

/-- Reading a declaration, whether it succeeds or fails, keeps the scopes that it is read in, and
restores them if all namespaces ahead are opened. A namespace that is not leaves the scopes behind
that it has entered. -/
theorem declarationWithin_scope (bound : Nat) (inClass : Option String) (line : Nat)
    (tokens : List Token) (memory : Memory) :
    let after := ((declarationWithin bound inClass).outcome line tokens memory).2.scope
    memory.scope <:+ after ∧ (namespacesOpen false tokens = true → after = memory.scope) ∧
      ∀ keyword rest, tokens = keyword :: rest → keyword.text = "namespace" →
        opensNamespace rest = false → bound ≠ 0 →
            after = (namespaceScopes rest).reverse ++ memory.scope ∧ after ≠ memory.scope := by
  have hscoped : ∀ H : Prop, (H → namespacesOpen false tokens = true) →
      Scoped H memory.scope ((declarationWithin bound inClass).outcome line tokens memory).2 := by
    intro H hopen
    have hrestores := (@declarationWithin_restores H bound inClass memory.scope).at_start ⟨hopen,
      [], rfl, fun _ => rfl⟩
    cases houtcome : (declarationWithin bound inClass).outcome line tokens memory with
    | mk result memory' =>
      cases result with
      | ok read => exact (hrestores.of_ok ⟨rfl, rfl⟩ houtcome).2
      | error e => exact hrestores.of_error ⟨rfl, rfl⟩ houtcome
  refine ⟨?_, fun hopen => ?_, ?_⟩
  · obtain ⟨leaked, hscope, -⟩ := hscoped False False.elim
    exact ⟨leaked, hscope.symm⟩
  · obtain ⟨leaked, hscope, hleaked⟩ := hscoped True fun _ => hopen
    rw [hscope, hleaked trivial, List.nil_append]
  · rintro keyword rest rfl hkeyword hmissing hbound
    obtain ⟨bound, rfl⟩ := Nat.exists_eq_add_one_of_ne_zero hbound
    obtain ⟨e, he⟩ := @outcome_nameSpace_of_not_open line memory
      (declarationWithin bound) keyword rest hmissing
    have hform : (declarationForm (declarationWithin bound) inClass).outcome line
        (keyword :: rest) memory = (.error e, memory.entering (namespaceScopes rest)) := by
      rw [declarationForm, outcome_bind_ok outcome_text]
      simp only [List.head?_cons, Option.elim_some, hkeyword]
      exact he
    rw [declarationWithin, declarationWith, outcome_bind_ok outcome_line, outcome_bind_error hform]
    refine ⟨rfl, fun hsame => ?_⟩
    have hnone : (namespaceScopes rest).reverse = [] := List.append_left_eq_self.mp hsame
    rw [List.reverse_eq_nil_iff, namespaceScopes] at hnone
    split at hnone
    · cases hnone
    · rename_i hsome
      exact hsome (List.isEmpty_iff.mpr hnone)

/-- A namespace with a class in it, which leaves no scope behind. -/
theorem declarationWithin_scope_nested :
    let tokens := [word "namespace", word "N", mark "\x7b", word "class", word "C", mark "\x7b",
      word "int", word "x", mark ";", mark "\x7d", mark ";", mark "\x7d"]
    namespacesOpen false tokens = true ∧
      ((declarationWithin 3 none).outcome 1 tokens {}).2.scope = [] := by
  intro tokens
  have hopen : namespacesOpen false tokens = true := by decide
  exact ⟨hopen, (declarationWithin_scope 3 none 1 tokens {}).2.1 hopen⟩

/-- An attribute in front of a namespace's name: the namespace is lost, and a scope without a name
is never left. -/
theorem declarationWithin_scope_kept :
    let tokens := [word "namespace", mark "[[", word "deprecated", mark "]", mark "]", word "N",
      mark "\x7b", mark "\x7d"]
    ∃ e, (declarationWithin 1 none).outcome 1 tokens {} = (.error e, { scope := [""] }) :=
  ⟨_, rfl⟩

end Parser

end Interop.Header
