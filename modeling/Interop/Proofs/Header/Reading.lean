import Interop.Proofs.Header.Phrases

namespace Interop.Header

namespace Memory

/-- The memory in which a name stands for a type, both alone and with its scopes. -/
def withAlias (memory : Memory) (name : String) (type : NativeType) : Memory :=
  { memory with aliases := (memory.full name, type) :: (name, type) :: memory.aliases }

/-- The memory in which a type of the current scope is defined. -/
def withDefinition (memory : Memory) (name : String) : Memory :=
  { memory with defined := memory.full name :: memory.defined }

/-- The memory inside of the scopes of the given names, the outermost first. -/
def entering (memory : Memory) (names : List String) : Memory :=
  { memory with scope := names.reverse ++ memory.scope }

/-- The memory outside of the `n` innermost scopes. -/
def leaving (memory : Memory) (n : Nat) : Memory :=
  { memory with scope := memory.scope.drop n }

end Memory

namespace Parser

open Declaration

variable {α β : Type} {M M' : Memory} {inClass : Option String}

/-- Whether a parser is run on simple identifiers and on the given memory. -/
def At (M : Memory) (tokens : List Token) (memory : Memory) : Prop :=
  AllSimple tokens ∧ memory = M

/-- Whether `R` is kept by every way in which declarations are put together, inside of the named
class or outside of classes. `F` relates the memory before a reading that fails and the memory that
it leaves. -/
structure Kept (R : Option String → Memory → List Declaration → Memory → Prop)
    (F : Memory → Memory → Prop) : Prop where
  leaves {inClass : Option String} {M : Memory} {ds : List Declaration}
    (h : AllLeaves M inClass ds) : R inClass M ds M
  append {inClass : Option String} {M M' M'' : Memory} {ds ds' : List Declaration}
    (h : R inClass M ds M')
    (h' : R inClass M' ds' M'') : R inClass M (ds ++ ds') M''
  /-- An access and a line may be given to what has been read. -/
  relocate {inClass : Option String} {M M' : Memory} {ds : List Declaration}
    {f : Declaration → Declaration}
    (hf : ∀ d, ∃ access line, f d = { d with access, line }) (h : R inClass M ds M') :
      R inClass M (ds.map f) M'
  /-- A failed reading leaves an unexposed declaration. -/
  lost {inClass : Option String} {M M' : Memory} {line : Nat} (h : F M M') :
    R inClass M [{ kind := .unexposed, name := "", line }] M'
  typeAlias {inClass : Option String} {M : Memory} {name : String} {target : NativeType}
    (hname : Simple name)
    (htarget : target.ResolvedIn M) :
    R inClass M [{ kind := .typeAlias, name, type? := some target }] (M.withAlias name target)
  enumeration {inClass : Option String} {M : Memory} {name : String} {type? : Option NativeType}
    {line : Nat}
    {isScoped : Bool} {children : List Declaration} (htype : ∀ type ∈ type?, type.ResolvedIn M)
    (hchildren : AllListed children) :
    R inClass M [{ kind := .enumeration, name, type?, line,
                   flags := { isScoped, isDefinition := true }, children }]
      (if name ≠ "" then M.withDefinition name else M)
  nameSpace {inClass : Option String} {M M' : Memory} {names : List String}
    {children : List Declaration}
    (hnames : names ≠ []) (hsimple : ∀ name ∈ names,
      Simple name) (h : R none (M.entering names) children M') :
    R inClass M (nestedNamespaces children names) (M'.leaving names.length)
  linkage {inClass : Option String} {M M' : Memory} {name : String} {children : List Declaration}
    (h : R inClass M children M') : R inClass M [{ kind := .linkage, name, children }] M'
  template {inClass : Option String} {M M' : Memory} {parameters ds : List Declaration}
    (hparameters : ∀ p ∈ parameters, p.Blank inClass) (h : R inClass M ds M') :
    R inClass M (ds.map (templated parameters)) M'
  friend {inClass : Option String} {M M' : Memory} {name : String} {ds : List Declaration}
    (h : R inClass M ds M') :
    R inClass M [{ kind := .friend, name, children := ds.map ({ · with isFriended := true }) }] M'
  classType {inClass : Option String} {M M' : Memory} {kind : Kind} {name : String} {line : Nat}
    {bases members : List Declaration} (hkind : kind = .classType ∨ kind = .classSpecialization)
      (hname : Undotted name)
    (hbases : AllLeaves M (some name) bases) (h : R (some name) (M.entering [name]) members M') :
    R inClass M [{ kind, name, line, flags := { isDefinition := true },
                   children := bases ++ members }]
      (if kind = .classType ∧ name ≠ "" then (M'.leaving 1).withDefinition name else M'.leaving 1)
  /-- A reading may fail at once. -/
  refl {M : Memory} : F M M
  /-- A reading may fail behind what has been read. -/
  behind {inClass : Option String} {M M' M'' : Memory} {ds : List Declaration}
    (h : R inClass M ds M') (h' : F M' M'') :
    F M M''
  /-- Scopes that have been entered are left if what is inside of them fails, but not if it does not
  begin. -/
  entered {M : Memory} {names : List String} : F M (M.entering names)
  left {M M' : Memory} {names : List String} (h : F (M.entering names) M') :
    F M (M'.leaving names.length)
  /-- A class is recorded before its end is read. -/
  recorded {M M' : Memory} {name : String} (h : F M M') : F M (M'.withDefinition name)

section Rules

variable {p : Parser α} {P : α → Prop} {f : α → Parser β} {failed : Memory → Prop}

/-- What follows a steady parser is run where the steady one was run. -/
theorem Triple.after {post : β → List Token → Memory → Prop} (h : p.Steady M P) (hfailed : failed M)
    (hf : ∀ a, P a → Triple (At M) (f a) post failed) : Triple (At M) (p >>= f) post failed := by
  have hp := h.conseq (fun _ _ => id) (fun _ _ _ => id) fun memory (hmemory : memory = M) =>
    hmemory ▸ hfailed
  exact hp.bind fun a => .of_fact fun ha => hf a ha

/-- A parser may be looked at for each memory that it can be run on. -/
theorem Triple.each {K : Memory → Prop} {post : α → List Token → Memory → Prop}
    (h : ∀ M, K M → Triple (At M) p post failed) :
    Triple (fun tokens memory => AllSimple tokens ∧ K memory) p post failed :=
  ⟨fun hpre hrun => (h _ hpre.2).of_ok ⟨hpre.1, rfl⟩ hrun,
    fun hpre hrun => (h _ hpre.2).of_error ⟨hpre.1, rfl⟩ hrun⟩

/-- A parser that ends by returning a value need not be followed further. -/
theorem Triple.finish {K : α → Memory → Prop} {a : α} (h : K a M) :
    Triple (At M) (Pure.pure a) (fun a tokens memory => AllSimple tokens ∧ K a memory) failed :=
  .pure fun _ _ hpre => ⟨hpre.1, hpre.2 ▸ h⟩

/-- Leaving scopes afterwards turns the memory into one outside of them, on failure as well. -/
theorem Triple.thenLeaving {pre : List Token → Memory → Prop}
    {post post' : α → List Token → Memory → Prop} {failed' : Memory → Prop} (n : Nat)
    (h : Triple pre p post failed)
    (hpost : ∀ a tokens memory, post a tokens memory → post' a tokens (memory.leaving n))
    (hfailed : ∀ memory, failed memory → failed' (memory.leaving n)) :
    Triple pre (Parser.thenLeaving n p) post' failed' := by
  let ended (post : α → List Token → Memory → Prop) (failed : Memory →
      Prop) (result : Except SyntaxError α)
      (tokens : List Token) (memory : Memory) : Prop :=
    (∀ a, result = .ok a → post a tokens memory) ∧ ∀ e, result = .error e → failed memory
  have hresult : Triple pre (MonadExcept.tryCatch (Except.ok <$> p) fun e => return .error e)
      (ended post failed)
      failed' := by
    refine @Triple.tryCatch _ _ _ _ _ _ failed (fun _ => True) (fun _ _ _ => trivial) ?_ fun e =>
      .pure ?_
    · refine h.bind fun a => .pure fun tokens memory hpost => ⟨?_, nofun⟩
      rintro b ⟨⟩
      exact hpost
    · rintro tokens memory ⟨-, hmemory⟩
      exact ⟨nofun, fun _ _ => hmemory⟩
  refine hresult.bind fun result => ?_
  refine @bind _ _ _ _ (fun _ => ended post' failed' result) _ _ _ ?_ fun _ => ?_
  · refine ⟨fun hpre hrun => ?_, fun _ hrun => ?_⟩
    · cases hrun
      exact ⟨fun a ha => hpost a _ _ (hpre.1 a ha), fun e he => hfailed _ (hpre.2 e he)⟩
    · cases hrun
  · cases result with
    | ok a => exact .pure fun _ _ hpre => hpre.1 a rfl
    | error e => exact .throw e fun _ _ hpre => hpre.2 e rfl

/-- Entering scopes changes the memory in this way only. -/
theorem enterScopes_at (names : List String) :
    Triple (At M) (enterScopes names) (fun _ => At (M.entering names)) failed := by
  refine ⟨fun hpre hrun => ?_, fun _ hrun => ?_⟩
  · cases hrun
    obtain ⟨hsimple, rfl⟩ := hpre
    exact ⟨hsimple, rfl⟩
  · cases hrun

/-- Recording a definition changes the memory in this way only. -/
theorem recordDefinition_at (name : String) :
    Triple (At M) (recordDefinition name) (fun _ => At (M.withDefinition name)) failed := by
  refine ⟨fun hpre hrun => ?_, fun _ hrun => ?_⟩
  · cases hrun
    obtain ⟨hsimple, rfl⟩ := hpre
    exact ⟨hsimple, rfl⟩
  · cases hrun

/-- Recording an alias changes the memory in this way only. -/
theorem recordAlias_at (name : String) (target : NativeType) :
    Triple (At M) (recordAlias name target) (fun _ => At (M.withAlias name target)) failed := by
  refine ⟨fun hpre hrun => ?_, fun _ hrun => ?_⟩
  · cases hrun
    obtain ⟨hsimple, rfl⟩ := hpre
    exact ⟨hsimple, rfl⟩
  · cases hrun

end Rules

variable {R : Option String → Memory → List Declaration → Memory → Prop}
    {F : Memory → Memory → Prop}

/-- What holds when declarations have been read. -/
def Read (R : Option String → Memory → List Declaration → Memory → Prop) (inClass : Option String)
    (M : Memory) (ds : List Declaration) (tokens : List Token) (memory : Memory) : Prop :=
  AllSimple tokens ∧ R inClass M ds memory

/-- Whether a parser of declarations keeps `R`. -/
def Reads (R : Option String → Memory → List Declaration → Memory → Prop)
    (F : Memory → Memory → Prop) (inClass : Option String) (p : Parser (List Declaration)) : Prop :=
  ∀ M, Triple (At M) p (Read R inClass M) (F M)

section Kept

variable (hR : Kept R F)
include hR

/-- What leaves the memory may come first. -/
theorem Kept.after {p : Parser α} {P : α → Prop} {f : α → Parser β}
    {post : β → List Token → Memory → Prop} (h : p.Steady M P)
    (hf : ∀ a, P a → Triple (At M) (f a) post (F M)) : Triple (At M) (p >>= f) post (F M) :=
  .after h hR.refl hf

/-- What follows declarations is run where they have left off. -/
theorem Kept.bind {p : Parser (List Declaration)} {f : List Declaration → Parser α}
    {post : α → List Token → Memory → Prop} (h : Reads R F inClass p)
    (hf : ∀ ds M', R inClass M ds M' → Triple (At M') (f ds) post (F M')) :
    Triple (At M) (p >>= f) post (F M) := by
  refine (h M).bind fun ds => .each fun M' hds => ?_
  exact (hf ds M' hds).conseq (fun _ _ => id) (fun _ _ _ => id) fun _ => hR.behind hds

/-- Leaves are read without any change of the memory. -/
theorem Kept.of_steady {p : Parser (List Declaration)} (h : p.Steady M (AllLeaves M inClass)) :
    Triple (At M) p (Read R inClass M) (F M) := by
  refine h.conseq (fun _ _ => id) ?_ ?_
  · rintro ds tokens memory ⟨hds, hsimple, rfl⟩
    exact ⟨hsimple, hR.leaves hds⟩
  · rintro memory rfl
    exact hR.refl

theorem Kept.nil : Triple (At M) (Pure.pure []) (Read R inClass M) (F M) :=
  hR.of_steady (.pure .nil)

theorem usingDeclaration_reads : Reads R F inClass usingDeclaration := by
  have hskipped : ∀ {M} (f : List Token → Declaration), (∀ run, (f run).Leaf M inClass) →
      Parser.Steady (do
        let target ← upTo [";"]
        discard <| eat ";"
        return [f target]) M (AllLeaves M inClass) :=
    fun f hf => (upTo_steady _).seq fun run => (Steady.eat ";").discard.seq fun _ =>
      .pure (hf run).one
  intro M
  refine hR.after (.advance 1) fun _ _ => hR.after (.eat "namespace") fun _ _ => ?_
  split
  · exact hR.of_steady (hskipped _ fun run => Blank.leaf ⟨⟨rfl, rfl, rfl⟩, rfl, rfl⟩)
  · refine hR.after .identifier? fun _ _ => hR.after (.isAt 1 "=") fun _ _ => ?_
    split
    · refine hR.after .identifier fun name hname => hR.after (.advance 1) fun _ _ => ?_
      refine hR.after type_steady fun target htarget => hR.after endDeclaration_steady fun _ _ => ?_
      exact (recordAlias_at name target).bind fun _ => .finish (hR.typeAlias hname htarget)
    · exact hR.of_steady (hskipped _ fun run => Blank.leaf ⟨⟨rfl, rfl, rfl⟩, rfl, rfl⟩)

theorem typedef_reads : Reads R F inClass typedef := by
  intro M
  have hunmodelled : unmodelledTypedef.Steady M (AllLeaves M inClass) :=
    skipDeclaration_steady.seq fun _ => .pure (Blank.leaf ⟨⟨rfl, rfl, rfl⟩, rfl, rfl⟩).one
  refine hR.after (.advance 1) fun _ _ => hR.after type_steady.attempt fun target? htarget => ?_
  split
  · exact hR.of_steady hunmodelled
  · rename_i target
    refine hR.after (functionPointer?_steady target) fun pointer? hpointer => ?_
    split
    · rename_i name pointer
      obtain ⟨hname, hpointer⟩ := hpointer _ rfl
      refine hR.after endDeclaration_steady fun _ _ => (recordAlias_at name pointer).bind
        fun _ => ?_
      exact .finish (hR.typeAlias hname hpointer)
    · refine hR.after .identifier? fun name? hname => hR.after (.isAt 1 ";") fun _ _ => ?_
      split
      · rename_i name
        refine hR.after (.advance 2) fun _ _ => (recordAlias_at name target).bind fun _ => ?_
        exact .finish (hR.typeAlias (hname name rfl) (htarget target rfl))
      · exact hR.of_steady hunmodelled

/-- An enum behind its type: however it begins, its body follows. -/
theorem enumerationBody_reads (line : Nat) (isScoped : Bool) (name : String)
    (type? : Option NativeType) (htype : ∀ type ∈ type?, type.ResolvedIn M) : Triple (At M) (do
      if ← eat ";" then return []
      else if ← isNext "\x7b" then
        advance 1
        let children ← enumerators
        expect "\x7d"
        endDeclaration
        if name ≠ "" then recordDefinition name
        let flags : Flags := { isScoped, isDefinition := true }
        return [{ kind := .enumeration, name, type?, line, flags, children }]
      else
        skipDeclaration
        return []) (Read R inClass M) (F M) := by
  refine hR.after (.eat _) fun isEmpty _ => ?_
  split
  · exact hR.nil
  · refine hR.after (.isNext _) fun isOpen _ => ?_
    split
    · refine hR.after (.advance 1) fun _ _ =>
        hR.after enumerators_steady fun children hchildren => ?_
      refine hR.after (.expect _) fun _ _ => hR.after endDeclaration_steady fun _ _ => ?_
      have henum := @hR.enumeration inClass M name type? line isScoped children htype hchildren
      split
      · rename_i hname
        rw [if_pos hname] at henum
        exact (recordDefinition_at name).bind fun _ => .finish henum
      · rename_i hname
        rw [if_neg hname] at henum
        exact .finish henum
    · exact hR.after skipDeclaration_steady fun _ _ => hR.nil

/-- An enum behind its name. -/
theorem enumerationType_reads (line : Nat) (isScoped : Bool) (name : String) : Reads R F inClass (do
    let type? ← if ← eat ":" then some <$> type else pure none
    if ← eat ";" then return []
    else if ← isNext "\x7b" then
      advance 1
      let children ← enumerators
      expect "\x7d"
      endDeclaration
      if name ≠ "" then recordDefinition name
      let flags : Flags := { isScoped, isDefinition := true }
      return [{ kind := .enumeration, name, type?, line, flags, children }]
    else
      skipDeclaration
      return []) := by
  intro M
  refine hR.after (.eat ":") fun hasType _ => ?_
  cases hasType with
  | true =>
    have htype : Parser.Steady (some <$> type) M fun type? => ∀ type ∈ type?,
        type.ResolvedIn M := by
      refine type_steady.map fun type htype => ?_
      rintro _ ⟨⟩
      exact htype
    exact hR.after htype fun type? htype => enumerationBody_reads hR line isScoped name type? htype
  | false =>
    have hnone : Parser.Steady (pure none) M fun type? : Option NativeType => ∀ type ∈ type?,
        type.ResolvedIn M :=
      .pure nofun
    exact hR.after hnone fun type? htype => enumerationBody_reads hR line isScoped name type? htype

/-- An enum behind its keywords. -/
theorem enumerationName_reads (line : Nat) (isScoped : Bool) : Reads R F inClass (do
    let name ← match ← identifier? with
      | some name =>
        advance 1
        pure name
      | none => pure ""
    let type? ← if ← eat ":" then some <$> type else pure none
    if ← eat ";" then return []
    else if ← isNext "\x7b" then
      advance 1
      let children ← enumerators
      expect "\x7d"
      endDeclaration
      if name ≠ "" then recordDefinition name
      let flags : Flags := { isScoped, isDefinition := true }
      return [{ kind := .enumeration, name, type?, line, flags, children }]
    else
      skipDeclaration
      return []) := by
  intro M
  refine hR.after .identifier? fun name? _ => ?_
  cases name? with
  | some name =>
    exact hR.after (.advance 1) fun _ _ => hR.after (.just _) fun name _ =>
      enumerationType_reads hR line isScoped name M
  | none => exact hR.after (.just _) fun name _ => enumerationType_reads hR line isScoped name M

theorem enumeration_reads : Reads R F inClass enumeration := by
  intro M
  refine hR.after (.advance 1) fun _ _ => hR.after .line fun line _ =>
    hR.after (.eat _) fun isClass _ => ?_
  cases isClass with
  | true => exact hR.after (.just _) fun isScoped _ => enumerationName_reads hR line isScoped M
  | false => exact hR.after (.eat _) fun isScoped _ => enumerationName_reads hR line isScoped M

section Declarations

variable {declaration : DeclarationParser} (h : ∀ inClass, Reads R F inClass (declaration inClass))
include h

/-- After an error the declaration is lost, and what it has put into the memory may stay. -/
theorem recovering_reads (inClass : Option String) :
    Reads R F inClass (recovering declaration inClass) := by
  intro M
  refine hR.after .line fun line _ => .tryCatch (fun _ _ hpre => hpre.1) (h inClass M) fun e => ?_
  refine .each fun M' hfailed => .after .get hfailed fun tokens htokens => ?_
  split
  · rename_i rest hrest
    refine .after (.set (htokens.suffix (Token.pastDeclaration_suffix tokens hrest))) hfailed
      fun _ _ => ?_
    exact .finish (hR.lost hfailed)
  · exact .throw e fun _ _ hpre => hpre.2 ▸ hfailed

theorem declarations_reads (inClass : Option String) (access : Access) :
    Reads R F inClass (declarations declaration inClass access) := by
  intro M
  let I (state : Access × List Declaration) (tokens : List Token) (memory : Memory) : Prop :=
    AllSimple tokens ∧ R inClass M state.2.reverse memory
  have hstart : ∀ tokens memory, At M tokens memory → I (access, []) tokens memory := by
    rintro tokens memory ⟨hsimple, rfl⟩
    exact ⟨hsimple, hR.leaves .nil⟩
  refine Triple.conseq (Triple.loop (I := I) (fun _ _ _ hI => hR.behind hI.2 hR.refl) ?_) hstart
    (fun _ _ _ => id)
    fun _ => id
  rintro ⟨access, found⟩
  refine .each fun M' hfound => @Triple.conseq _ (At M') _ _ (F M') _ _ _ ?_ (fun _ _ => id)
    (fun _ _ _ => id)
    fun _ => hR.behind hfound
  have hdone : Triple (At M') (done found.reverse) (fun next => next.elim I (Read R inClass M))
      (F M') :=
    .pure fun tokens memory hpre => ⟨hpre.1, hpre.2 ▸ hfound⟩
  -- What is read next is put in front, as the declarations are collected in reverse.
  have hagain : ∀ access {ds M''}, R inClass M' ds M'' →
      Triple (At M'') (again (access, ds.reverse ++ found)) (fun next =>
          next.elim I (Read R inClass M)) (F M'') := by
    intro access ds M'' hds
    refine .pure fun tokens memory hpre => ⟨hpre.1, ?_⟩
    rw [hpre.2, List.reverse_append, List.reverse_reverse]
    exact hR.append hfound hds
  refine hR.after .peek? fun t? _ => ?_
  cases t? with
  | none => exact hdone
  | some t =>
    simp only
    split
    · exact hdone
    · split
      · exact hR.after (.advance 1) fun _ _ => hagain access (hR.leaves .nil)
      · have hlabel : Parser.Steady (if inClass.isSome then accessLabel? else pure none) M' := by
          split
          · exact accessLabel?_steady
          · exact .just _
        refine hR.after hlabel fun label? _ => ?_
        cases label? with
        | some label =>
          refine hR.after (.advance 2) fun _ _ => hagain label (hR.leaves (Leaf.one ?_))
          exact Blank.leaf ⟨⟨rfl, rfl, rfl⟩, rfl, rfl⟩
        | none =>
          refine hR.bind (recovering_reads hR h inClass) fun ds M'' hds => hagain access ?_
          split
          · exact hR.relocate (fun d => ⟨access, d.line, rfl⟩) hds
          · exact hds

theorem linkage_reads (inClass : Option String) :
    Reads R F inClass (linkage declaration inClass) := by
  intro M
  refine hR.after (.advance 1) fun _ _ => hR.after .next fun t _ =>
    hR.after (.eat _) fun isBlock _ => ?_
  split
  · refine hR.bind (declarations_reads hR h inClass .exposed) fun children M' hchildren => ?_
    exact hR.after (.expect _) fun _ _ => .finish (hR.linkage hchildren)
  · exact hR.bind (h inClass) fun children M' hchildren => .finish (hR.linkage hchildren)

theorem template_reads (inClass : Option String) :
    Reads R F inClass (template declaration inClass) := by
  intro M
  refine hR.after (.advance 1) fun _ _ => hR.after (@templateParameters_steady M inClass) ?_
  intro parameters hparameters
  exact hR.bind (h inClass) fun inner M' hinner => .finish (hR.template hparameters hinner)

theorem friend_reads (inClass : Option String) :
    Reads R F inClass (friend declaration inClass) := by
  intro M
  refine hR.after (.advance 1) fun _ _ => hR.after .text fun keyword _ =>
    hR.after (.isAt _ _) fun isAnnounced _ => ?_
  split
  · refine hR.of_steady ((Steady.advance 1).seq fun _ => Steady.identifier.seq fun name => ?_)
    exact (Steady.eat ";").discard.seq fun _ => .pure (Blank.leaf ⟨⟨rfl, rfl, rfl⟩, rfl, rfl⟩).one
  · exact hR.bind (h inClass) fun inner M' hinner => .finish (hR.friend hinner)

/-- Declarations that are read inside of scopes, with the scopes left behind them. -/
theorem enclosed_reads (inClass : Option String) (access : Access) (names : List String) :
    Triple (At (M.entering names))
      (thenLeaving names.length (declarations declaration inClass access))
      (fun ds tokens memory => AllSimple tokens ∧
        ∃ M', R inClass (M.entering names) ds M' ∧ memory = M'.leaving names.length) (F M) := by
  refine (declarations_reads hR h inClass access (M.entering names)).thenLeaving _ ?_ fun memory =>
    hR.left
  rintro ds tokens memory ⟨hsimple, hds⟩
  exact ⟨hsimple, memory, hds, rfl⟩

/-- A namespace reads its declarations in its scopes. -/
theorem nameSpace_reads (inClass : Option String) : Reads R F inClass (nameSpace declaration) := by
  intro M
  refine hR.after (.advance 1) fun _ _ => hR.after namespaceNames_steady fun names hsimple =>
    hR.after (.eat _) ?_
  intro isAlias _
  split
  · refine hR.of_steady ((upTo_steady _).seq fun target => (Steady.eat ";").discard.seq fun _ => ?_)
    exact .pure (Blank.leaf ⟨⟨rfl, rfl, rfl⟩, rfl, rfl⟩).one
  · have hnames : (if names.isEmpty then [""] else names) ≠ [] := by
      split
      · exact nofun
      · rename_i hnonempty
        exact fun hempty => hnonempty (List.isEmpty_iff.mpr hempty)
    have hallSimple : ∀ name ∈ if names.isEmpty then [""] else names, Simple name := by
      split
      · exact fun name hname => List.mem_singleton.mp hname ▸ .empty
      · exact hsimple
    generalize (if names.isEmpty then [""] else names) = names at hnames hallSimple
    refine (enterScopes_at names).bind fun _ => .after (.expect _) hR.entered fun _ _ => ?_
    refine (enclosed_reads hR h none .exposed names).bind fun children => .each ?_
    rintro _ ⟨M', hchildren, rfl⟩
    have hfailed : F M (M'.leaving names.length) := hR.left (hR.behind hchildren hR.refl)
    exact .after (.expect _) hfailed fun _ _ => .finish (hR.nameSpace hnames hallSimple hchildren)

/-- A class reads its members in its scope, and is recorded behind them. -/
theorem classBody_reads {kind : Kind} (hkind : kind = .classType ∨ kind = .classSpecialization)
    {name : String} (hname : Undotted name) (access : Access) (line : Nat) :
    Triple (At M) (classBody declaration kind name access line)
      (fun d tokens memory => AllSimple tokens ∧ R inClass M [d] memory) (F M) := by
  refine hR.after (@baseClasses_steady M (some name) access rfl) fun bases hbases => ?_
  refine hR.after (.expect _) fun _ _ => (enterScopes_at [name]).bind fun _ => ?_
  refine (enclosed_reads hR h (some name) access [name]).bind fun members => .each ?_
  rintro _ ⟨M', hmembers, rfl⟩
  have hfailed : F M (M'.leaving 1) := @Kept.left _ _ hR _ _ [name] (hR.behind hmembers hR.refl)
  have hclass := @Kept.classType _ _ hR inClass _ _ _ _ line _ _ hkind hname hbases hmembers
  refine .after (.expect _) hfailed fun _ _ => ?_
  split
  · rename_i hrecorded
    rw [if_pos hrecorded] at hclass
    refine (recordDefinition_at name).bind fun _ => ?_
    exact .after endDeclaration_steady (hR.recorded hfailed) fun _ _ => .finish hclass
  · rename_i hrecorded
    rw [if_neg hrecorded] at hclass
    exact .after endDeclaration_steady hfailed fun _ _ => .finish hclass

theorem classOrElaborated_reads (inClass : Option String) :
    Reads R F inClass (classOrElaborated declaration inClass) := by
  intro M
  refine hR.after .next fun keyword _ => hR.after .get fun start hstart =>
    hR.after .line fun line _ => ?_
  refine hR.after classNames_steady fun names hnames => ?_
  have hname := className_undotted hnames
  generalize className names = parts at hname
  obtain ⟨name, before⟩ := parts
  refine hR.after (.isNext "<") fun isSpecialization _ => ?_
  have hrest : ∀ behind : String, Triple (At M) (
      if behind = "\x7b" ∨ behind = ":" then do
        let kind : Kind := if isSpecialization then .classSpecialization else .classType
        let access : Access := if keyword.text = "class" then .hidden else .exposed
        return [← classBody declaration kind name access line]
      else if behind = ";" ∧ before.all isExportMacro then do
        advance 1
        return []
      else do
        set start
        member inClass) (Read R inClass M) (F M) := by
    intro behind
    split
    · have hkind : (if isSpecialization then Kind.classSpecialization else .classType) =
          .classType ∨ (if isSpecialization then Kind.classSpecialization else .classType) =
              .classSpecialization := by
        split
        · exact .inr rfl
        · exact .inl rfl
      exact (classBody_reads hR h hkind hname _ line).bind fun d => .pure fun _ _ => id
    · split
      · exact hR.after (.advance 1) fun _ _ => hR.nil
      · exact hR.of_steady ((Steady.set hstart).seq fun _ => member_steady inClass)
  cases isSpecialization with
  | true =>
    refine hR.after (@templateParameters_steady M inClass).discard fun _ _ => ?_
    exact hR.after (Steady.eat "final").discard fun _ _ => hR.after .text fun behind _ =>
      hrest behind
  | false => exact hR.after .text fun behind _ => hrest behind

theorem declarationForm_reads (inClass : Option String) :
    Reads R F inClass (declarationForm declaration inClass) := by
  intro M
  refine hR.after .text fun word _ => ?_
  split
  case h_1 => exact nameSpace_reads hR h inClass M
  case h_2 => exact template_reads hR h inClass M
  case h_3 | h_4 | h_5 => exact classOrElaborated_reads hR h inClass M
  case h_6 => exact enumeration_reads hR M
  case h_7 => exact usingDeclaration_reads hR M
  case h_8 => exact typedef_reads hR M
  case h_9 => exact hR.of_steady staticAssertion_steady
  case h_10 => exact friend_reads hR h inClass M
  case h_11 =>
    refine hR.after .get fun tokens _ => ?_
    split
    · exact linkage_reads hR h inClass M
    · exact hR.of_steady (member_steady inClass)
  case h_12 => exact hR.of_steady (member_steady inClass)

theorem declarationWith_reads (inClass : Option String) :
    Reads R F inClass (declarationWith declaration inClass) := by
  intro M
  refine hR.after .line fun line _ => ?_
  refine hR.bind (declarationForm_reads hR h inClass) fun ds M' hds =>
    .finish (hR.relocate (fun d => ?_) hds)
  split
  · exact ⟨d.access, line, rfl⟩
  · cases d
    exact ⟨_, _, rfl⟩

end Declarations

/-- What reads hold is kept by declarations, whatever the bound of their nesting is. -/
theorem declarationWithin_reads (bound : Nat) :
    ∀ inClass, Reads R F inClass (declarationWithin bound inClass) := by
  induction bound with
  | zero => exact fun inClass M => hR.of_steady (.fail _)
  | succ bound ih => exact declarationWith_reads hR ih

/-- What each way of putting declarations together keeps holds of all declarations of a header. -/
theorem header_reads : Reads R F none header := by
  intro M
  refine hR.after .get fun tokens _ => ?_
  refine hR.bind (declarations_reads hR (declarationWithin_reads hR _) none .exposed)
    fun ds M' hds => ?_
  refine hR.after .peek? fun t? _ => ?_
  cases t? with
  | none => exact .finish hds
  | some t => exact .throw _ fun _ _ hpre => hpre.2 ▸ hR.refl

end Kept

end Parser

end Interop.Header
