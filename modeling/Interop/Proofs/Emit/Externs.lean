import Interop.Proofs.Emit.Places
import Interop.Proofs.Emit.Exports

namespace Interop.Emit

open Overlay

namespace ManagedItem

mutual

/-- The bridge declarations of an item. -/
def externs : ManagedItem → List BridgeDeclaration
  | .member _ => []
  | .enumeration _ => []
  | .nameSpace _ items => externsAll items
  | .classType c items bridges => externsAll items ++ (c.bridges ++ bridges)

/-- The bridge declarations of several items. -/
def externsAll : List ManagedItem → List BridgeDeclaration
  | [] => []
  | item :: rest => externs item ++ externsAll rest

end

mutual

/-- The bridge declarations of an item are the externs that it declares, wherever it stands. -/
theorem mem_externs {d : BridgeDeclaration} : (item : ManagedItem) → (around : List Block) →
    (d ∈ item.externs ↔ ∃ inside, (inside, .bridge d) ∈ item.entries around)
  | .member _, around => by simp [externs, entries]
  | .enumeration _, around => by simp [externs, entries]
  | .nameSpace name items, around => by
    rw [externs, entries]
    exact mem_externsAll items _
  | .classType c items bridges, around => by
    rw [externs, entries, List.mem_append, mem_externsAll items (around ++ [.classType c.name])]
    simp [ManagedClass.entries, externsAt, exists_or]

theorem mem_externsAll {d : BridgeDeclaration} :
    (items : List ManagedItem) → (around : List Block) →
    (d ∈ externsAll items ↔ ∃ inside, (inside, .bridge d) ∈ entriesAll around items)
  | [], around => by simp [externsAll, entriesAll]
  | item :: rest, around => by
    simp only [externsAll, entriesAll, List.mem_append, mem_externs item around,
      mem_externsAll rest around, exists_or]

end

end ManagedItem

/-- The bridge declarations of a managed file. -/
def ManagedFile.externs (m : ManagedFile) : List BridgeDeclaration :=
  ManagedItem.externsAll m.items

/-- The externs of a file are the bridge declarations that stand anywhere in its items. -/
theorem ManagedFile.mem_externs {m : ManagedFile} {d : BridgeDeclaration} :
    d ∈ m.externs ↔ ∃ inside, (inside, .bridge d) ∈ m.entries :=
  ManagedItem.mem_externsAll m.items _

/-- With how many parameters besides the object a bridge function of a name calls a node. -/
inductive Calls (n : Node) : String → Nat → Prop
  | function (h : n.kind = .constructor ∨ n.kind = .memberFunction ∨ n.kind = .freeFunction) :
      Calls n n.bridgeName n.parameters.length
  | getter (h : n.kind.isVariable = true) : Calls n ("get_" ++ n.bridgeName) 0
  | setter (h : n.kind.isVariable = true) : Calls n ("set_" ++ n.bridgeName) 1
  | destructor (h : n.kind = .classType) : Calls n (n.bridgeName ++ "_destructor") 0

/-- Whether a declaration with a parameter more than the call needs begins with the one for the
object. -/
def BridgeDeclaration.TakesHandle (d : BridgeDeclaration) (arity : Nat) : Prop :=
  d.parameters.length = arity + 1 ∧ d.parameters.head? = some instanceParameter

/-- Whether a function with a parameter more than the call needs begins with the one for the
object. -/
def BridgeFunction.TakesInstance (f : BridgeFunction) (arity : Nat) : Prop :=
  f.parameters.length = arity + 1 ∧ ∃ symbol, f.parameters.head? = some (.ofInstance symbol)

/-- Whether a declaration and a function agree on a call. -/
structure Agrees (arity : Nat) (d : BridgeDeclaration) (f : BridgeFunction) : Prop where
  name : f.name = d.name
  length : d.parameters.length = f.parameters.length
  handle : d.TakesHandle arity ↔ f.TakesInstance arity

/-- Whether a node is a function that needs no object, in a class that has objects. -/
def Misplaced (w : Workspace) (n : Node) : Prop :=
  n.kind = .freeFunction ∧ n.isStatic = false ∧ ∃ parent, n.parent? = some parent ∧
    (w.node parent).isStatic = false

/-- Where both sides have the same parameters besides the object, they agree if they agree on the
object. -/
theorem agrees_iff {arity : Nat} {d : BridgeDeclaration} {f : BridgeFunction}
    {takesHandle takesInstance : Bool} {symbol : String} {ps : List String}
    {qs : List BridgeParameter} (hname : f.name = d.name)
    (hd : d.parameters = (if takesHandle then [BridgeDeclaration.instanceParameter] else []) ++ ps)
    (hf : f.parameters = (if takesInstance then [BridgeParameter.ofInstance symbol] else []) ++ qs)
    (hps : ps.length = arity) (hqs : qs.length = arity) :
    Agrees arity d f ↔ takesHandle = takesInstance := by
  have hlength : d.parameters.length = f.parameters.length ↔ takesHandle = takesInstance := by
    rw [hd, hf, List.length_append, List.length_append, hps, hqs]
    cases takesHandle <;> cases takesInstance <;> simp
  constructor
  · intro h
    exact hlength.mp h.length
  · intro h
    refine ⟨hname, hlength.mpr h, ?_⟩
    subst h
    unfold BridgeDeclaration.TakesHandle BridgeFunction.TakesInstance
    rw [hd, hf, List.length_append, List.length_append, hps, hqs]
    cases takesHandle with
    | true => simp
    | false => simp

/-- What a declaration in a managed file tells about the node it is for: the node has a bridge
function of its name, and the two agree just where the node is not misplaced. -/
def Declared (s : Surroundings) (w : Workspace) (id : NodeId) (d : BridgeDeclaration) : Prop :=
  ∃ arity f, Calls (w.node id) d.name arity ∧ f ∈ exported s w id ∧ f.name = d.name ∧
    (Agrees arity d f ↔ ¬Misplaced w (w.node id))

/-- The block that the walk opens where it enters a node. -/
def opened? (s : Surroundings) (w : Workspace) (id : NodeId) : Option OpenBlock :=
  match (w.node id).kind with
  | .classType => some (classBlock s w (w.node id))
  | .nameSpace => some (namespaceBlock s w id (w.node id))
  | _ => none

/-- The blocks that are open where the walk meets a node, the innermost first. -/
def openAt (s : Surroundings) (w : Workspace) (id : NodeId) : List OpenBlock :=
  (w.forest.lineage id).filterMap (opened? s w)

/-- The blocks that what a node becomes stands in, the outermost first. -/
def spot (s : Surroundings) (w : Workspace) (id : NodeId) : List Block :=
  OpenBlock.path [.nameSpace s.rules.name] (openAt s w id)

/-- What is declared for a node: a type where the node is, or an extern in the class that owns the
node's functions. -/
inductive Stands (s : Surroundings) (w : Workspace) (id : NodeId) : List Block × Entry → Prop
  | type (hkind : (w.node id).kind = .classType ∨ (w.node id).kind = .enumeration) :
      Stands s w id (spot s w id, .type (w.node id).name)
  | bridge {class_ : NodeId} {d : BridgeDeclaration} (howner : owner? w id = some class_)
      (h : Declared s w id d) :
      Stands s w id (spot s w class_ ++ [.classType (w.node class_).name], .bridge d)

/-- What will be declared if nothing is added any more. -/
abbrev ManagedState.declared (s : Surroundings) (state : ManagedState) :
    List (List Block × Entry) :=
  state.entries [.nameSpace s.rules.name]

/-- What a walk over some nodes does to the state: it leaves the same blocks open, keeps what is
declared, and declares the types among the nodes and nothing that does not belong to the nodes. -/
structure Writes (s : Surroundings) (w : Workspace) (ids : List NodeId)
    (before after : ManagedState) : Prop where
  blocks : after.blocks = before.blocks
  kept : ∀ x ∈ before.declared s, x ∈ after.declared s
  types : ∀ id ∈ ids, (w.node id).kind = .classType ∨ (w.node id).kind = .enumeration →
    (spot s w id, .type (w.node id).name) ∈ after.declared s
  new : ∀ x ∈ after.declared s, x ∈ before.declared s ∨ ∃ id ∈ ids, Stands s w id x

namespace Writes

variable {s : Surroundings} {w : Workspace} {ids ids' : List NodeId}
    {state state' state'' : ManagedState}

theorem refl : Writes s w [] state state :=
  ⟨rfl, fun _ h => h, nofun, fun _ h => .inl h⟩

/-- What two walks write one after the other is written by both together. -/
theorem trans (h : Writes s w ids state state') (h' : Writes s w ids' state' state'') :
    Writes s w (ids ++ ids') state state'' := by
  refine ⟨h'.blocks.trans h.blocks, fun x hx => h'.kept x (h.kept x hx), fun id hid hkind => ?_,
    fun x hx => ?_⟩
  · rcases List.mem_append.mp hid with hid | hid
    · exact h'.kept _ (h.types id hid hkind)
    · exact h'.types id hid hkind
  · rcases h'.new x hx with hx | ⟨id, hid, hx⟩
    · rcases h.new x hx with hx | ⟨id, hid, hx⟩
      · exact .inl hx
      · exact .inr ⟨id, List.mem_append_left _ hid, hx⟩
    · exact .inr ⟨id, List.mem_append_right _ hid, hx⟩

end Writes

/-- What a node that lies in a class makes of a state: nothing, or a member with bridge declarations
for the node. -/
inductive Adds (s : Surroundings) (w : Workspace) (id : NodeId) (state : ManagedState) :
    ManagedState → Prop
  | none : Adds s w id state state
  | member {signature : String} {m : ManagedMember} {bridges : List BridgeDeclaration}
      (h : ∀ d ∈ bridges, Declared s w id d) :
        Adds s w id state (state.addMember signature m bridges)

section Leaf

variable {s : Surroundings} {w : Workspace} {id parent : NodeId} {state : ManagedState}
    {d : BridgeDeclaration}
  {m : Mapper} {n class_ : Node} {c : ManagedClass} {isInheritable : Bool}

/-- Parameters that can be shown in managed code have arguments on the bridge, as many as there are
parameters. -/
theorem exists_arguments_of_managed {parameters : List NodeParameter}
    {managed : List ManagedParameter} (h : managedParameters? m parameters = some managed) :
    managed.length = parameters.length ∧
      ∃ arguments, BridgeArgument.ofParameters? m parameters = some arguments ∧
        arguments.length = parameters.length := by
  unfold managedParameters? BridgeArgument.ofParameters? at *
  induction parameters generalizing managed with
  | nil =>
    cases h
    exact ⟨rfl, [], rfl, rfl⟩
  | cons p rest ih =>
    rw [List.mapM_cons] at h
    simp only [Option.bind_eq_bind] at h
    obtain ⟨first, hfirst, h⟩ := Option.bind_eq_some_iff.mp h
    obtain ⟨others, hothers, h⟩ := Option.bind_eq_some_iff.mp h
    obtain ⟨type, htype, hfirst⟩ := Option.bind_eq_some_iff.mp hfirst
    obtain ⟨info, hinfo, -⟩ := Option.bind_eq_some_iff.mp hfirst
    obtain ⟨hlength, arguments, harguments, hargumentsLength⟩ := ih hothers
    cases h
    refine ⟨congrArg (· + 1) hlength, ?_⟩
    rw [List.mapM_cons, harguments, htype]
    simp only [Option.bind_eq_bind, Option.bind_some, hinfo, pure]
    exact ⟨_, rfl, congrArg (· + 1) hargumentsLength⟩

/-- A function that can be called from managed code has a bridge function. -/
theorem exists_callable (class_ : Node) {managed : List ManagedParameter}
    {result? : Option Marshalling} (hparameters : managedParameters? m n.parameters = some managed)
    (hresult : resultMarshalling? m n.returnType? = some result?) :
    ∃ f qs, callable? m class_ n = some f ∧ f.name = n.bridgeName ∧
      qs.length = n.parameters.length ∧
          f.parameters = (if takesInstance class_ n then [BridgeParameter.ofInstance class_.symbol]
          else []) ++ qs := by
  obtain ⟨-, arguments, harguments, hlength⟩ := exists_arguments_of_managed hparameters
  unfold callable?
  simp only [harguments, hresult, Option.bind_eq_bind, Option.bind_some, pure]
  exact ⟨_, _, rfl, rfl, (List.length_map _).trans hlength, rfl⟩

/-- A variable that is not a managed constant has accessors in the bridge. -/
theorem accessors_of_settled (class_ : Node) {info : Marshalling} (hsettled : n.Settled)
    (hvariable : n.kind.isVariable = true) (hinfo : n.type?.bind m.resolve? = some info)
    (hopen : ¬(n.isConstant = true ∧ n.managedValue?.isSome = true)) :
    ∃ getter setter, accessors m class_ n = (if n.isConstant then [getter] else [getter, setter]) ∧
      getter.name = "get_" ++ n.bridgeName ∧ setter.name = "set_" ++ n.bridgeName ∧
      getter.parameters =
        (if (variableTarget class_ n).2 then [BridgeParameter.ofInstance class_.symbol]
          else []) ++ [] ∧
      setter.parameters =
        (if (variableTarget class_ n).2 then [BridgeParameter.ofInstance class_.symbol] else []) ++
          [⟨info.bridge, "value"⟩] := by
  have hvalue : n.managedValue?.isSome = false := by
    rw [Bool.eq_false_iff]
    intro hsome
    exact hopen ⟨hsettled.value hvariable hsome, hsome⟩
  unfold accessors
  simp only [hvalue, Bool.false_eq_true, if_false, hinfo]
  exact ⟨_, _, rfl, rfl, rfl, (List.append_nil _).symm, rfl⟩

/-- A variable exports its accessors and nothing else. -/
theorem memberFunctions_of_isVariable (hvariable : n.kind.isVariable = true) :
    memberFunctions m class_ n = accessors m class_ n := by
  unfold memberFunctions
  cases hkind : n.kind with
  | freeVariable | memberVariable | bitField => rfl
  | _ =>
    rw [hkind] at hvariable
    cases hvariable

/-- Both files give a method the object in the same cases, but for a node that is misplaced. -/
theorem takesInstance_eq_iff (hparent : n.parent? = some parent)
    (hkind : n.kind = .memberFunction ∨ n.kind = .freeFunction) :
    (!((w.node parent).isStatic || n.isStatic)) = takesInstance
    (w.node parent) n ↔ ¬Misplaced w n := by
  have hmisplaced : Misplaced w n ↔
      n.kind = .freeFunction ∧ n.isStatic = false ∧ (w.node parent).isStatic = false := by
    unfold Misplaced
    rw [hparent]
    simp
  rw [hmisplaced]
  unfold takesInstance
  rcases hkind with hkind | hkind <;> rw [hkind] <;> cases n.isStatic <;>
    cases (w.node parent).isStatic <;> simp

variable (hparent : (w.node id).parent? = some parent) (hclass : (w.node parent).kind = .classType)
  (hframe : state.class? = some (c, isInheritable)) (hstatic : c.isStatic =
    (w.node parent).isStatic)

include hparent hclass

/-- A function's declaration is declared for it, if it takes the object where the node would have to
be misplaced for the bridge not to take it. -/
theorem declared_of_callable {managed : List ManagedParameter} {result? : Option Marshalling}
    (takesHandle : Bool)
    (hkind : (w.node id).kind = .constructor ∨ (w.node id).kind = .memberFunction ∨
      (w.node id).kind = .freeFunction)
    (hparameters : managedParameters? (s.mapper w (w.node parent).symbol) (w.node id).parameters =
      some managed)
    (hresult : resultMarshalling? (s.mapper w (w.node parent).symbol) (w.node id).returnType? =
      some result?)
    (hname : d.name = (w.node id).bridgeName)
    (hd : d.parameters = (if takesHandle then [BridgeDeclaration.instanceParameter] else []) ++
      managed.map (·.bridgeDeclaration))
    (hplaced : takesHandle = takesInstance (w.node parent) (w.node id) ↔ ¬Misplaced w (w.node id)) :
    Declared s w id d := by
  obtain ⟨f, qs, hf, hfname, hqs, hfparameters⟩ :=
    exists_callable (w.node parent) hparameters hresult
  have hlength := (exists_arguments_of_managed hparameters).1
  refine ⟨(w.node id).parameters.length, f, hname ▸ .function hkind, ?_,
    hfname.trans hname.symm, ?_⟩
  · have hnot : (w.node id).kind ≠ .classType := by
      rcases hkind with hkind | hkind | hkind <;> rw [hkind] <;> exact nofun
    rw [exported_of_member hnot hparent hclass, memberFunctions]
    rcases hkind with hkind | hkind | hkind <;> rw [hkind, hf] <;> exact List.mem_singleton.mpr rfl
  · exact (agrees_iff (hfname.trans hname.symm) hd hfparameters
      ((List.length_map _).trans hlength) hqs).trans hplaced

/-- The declarations of a variable's getter and setter are declared for it, if the variable is no
managed constant. -/
theorem declared_of_variable {info : Marshalling} (hvariable : (w.node id).kind.isVariable = true)
    (hsettled : (w.node id).Settled)
    (hinfo : (w.node id).type?.bind (s.mapper w (w.node parent).symbol).resolve? = some info)
    (hopen : ¬((w.node id).isConstant = true ∧ (w.node id).managedValue?.isSome = true)) :
    (∀ d : BridgeDeclaration, d.name = "get_" ++ (w.node id).bridgeName →
      d.parameters = (if (variableTarget (w.node parent)
        (w.node id)).2 then [BridgeDeclaration.instanceParameter] else []) →
      Declared s w id d) ∧
    ((w.node id).isConstant ≠ true → ∀ d : BridgeDeclaration,
      d.name = "set_" ++ (w.node id).bridgeName →
        d.parameters = (if (variableTarget (w.node parent)
        (w.node id)).2 then [BridgeDeclaration.instanceParameter] else []) ++
        [ManagedParameter.attributed info.attribute? (info.marshal ++ " value")] →
      Declared s w id d) := by
  have hexported : exported s w id =
      accessors (s.mapper w (w.node parent).symbol) (w.node parent) (w.node id) := by
    have hnot : (w.node id).kind ≠ .classType := by
      intro hfalse
      rw [hfalse] at hvariable
      cases hvariable
    rw [exported_of_member hnot hparent hclass, memberFunctions_of_isVariable hvariable]
  have hplaced : ¬Misplaced w (w.node id) := by
    intro hfalse
    rw [hfalse.1] at hvariable
    cases hvariable
  obtain ⟨getter, setter, haccessors, hgetter, hsetter, hgetterParameters, hsetterParameters⟩ :=
    accessors_of_settled (w.node parent) hsettled hvariable hinfo hopen
  refine ⟨fun d hname hparameters => ?_, fun hwritable d hname hparameters => ?_⟩
  · have hmem : getter ∈ exported s w id := by
      rw [hexported, haccessors]
      cases (w.node id).isConstant <;> exact List.mem_cons_self
    have hagrees := agrees_iff (hgetter.trans hname.symm)
      (hparameters.trans (List.append_nil _).symm)
      hgetterParameters rfl rfl
    exact ⟨0, getter, hname ▸ .getter hvariable, hmem, hgetter.trans hname.symm,
      hagrees.trans (iff_of_true rfl hplaced)⟩
  · have hmem : setter ∈ exported s w id := by
      rw [hexported, haccessors, if_neg hwritable]
      exact List.mem_cons_of_mem _ List.mem_cons_self
    have hagrees := agrees_iff (hsetter.trans hname.symm) hparameters hsetterParameters
      List.length_singleton
      List.length_singleton
    exact ⟨1, setter, hname ▸ .setter hvariable, hmem, hsetter.trans hname.symm,
      hagrees.trans (iff_of_true rfl hplaced)⟩

/-- A constructor adds its extern exactly if its types can be marshalled. Being settled tells that
it has no result. -/
theorem addConstructor_spec (hkind : (w.node id).kind = .constructor)
    (hsettled : (w.node id).Settled) :
    Adds s w id state (state.addConstructor (s.mapper w (w.node parent).symbol) (w.node id)) := by
  unfold ManagedState.addConstructor
  split
  · rename_i managed c _ hparameters _
    simp only
    split
    · exact .none
    · apply Adds.member
      intro d h
      obtain rfl := List.mem_singleton.mp h
      have hresult : resultMarshalling? (s.mapper w (w.node parent).symbol)
          (w.node id).returnType? = some none := by
        rw [hsettled.result hkind]
        rfl
      apply declared_of_callable hparent hclass false (.inl hkind) hparameters hresult rfl rfl
      unfold takesInstance Misplaced
      rw [hkind]
      simp
  · exact .none

include hframe hstatic

/-- A method or a function adds its extern exactly if its types can be marshalled. -/
theorem addMethod_spec
    (hkind : (w.node id).kind = .memberFunction ∨ (w.node id).kind = .freeFunction) :
    Adds s w id state (state.addMethod (s.mapper w (w.node parent).symbol) (w.node id)) := by
  unfold ManagedState.addMethod
  rw [hframe]
  split
  · rename_i managed result? c' isInheritable' hparameters hresult heq
    cases heq
    simp only
    split
    · exact .none
    · apply Adds.member
      intro d h
      obtain rfl := List.mem_singleton.mp h
      apply declared_of_callable hparent hclass (!(c.isStatic || (w.node id).isStatic))
        (.inr hkind) hparameters
        hresult rfl
      · cases c.isStatic || (w.node id).isStatic <;> rfl
      · rw [hstatic]
        exact takesInstance_eq_iff hparent hkind
  · exact .none

/-- A variable adds the externs of its accessors exactly if its type can be marshalled. Being
settled tells that one with a known value is constant. -/
theorem addVariable_spec (hvariable : (w.node id).kind.isVariable = true)
    (hsettled : (w.node id).Settled) :
    Adds s w id state (state.addVariable (s.mapper w (w.node parent).symbol) (w.node id)) := by
  have hthis : (if c.isStatic || (w.node id).isStatic then []
      else [BridgeDeclaration.instanceParameter]) = if (variableTarget (w.node parent)
          (w.node id)).2 then [BridgeDeclaration.instanceParameter] else [] := by
    unfold variableTarget
    rw [hstatic]
    cases (w.node parent).isStatic <;> cases (w.node id).isStatic <;>
      cases (w.node id).kind != .memberVariable <;> rfl
  unfold ManagedState.addVariable
  rw [hframe]
  split
  · rename_i info c' isInheritable' hinfo heq
    cases heq
    simp only
    split
    · exact .none
    · split
      · apply Adds.member
        intro d h
        cases h
      · rename_i hopen
        have hunknown : ¬((w.node id).isConstant = true ∧
            (w.node id).managedValue?.isSome = true) := by
          rintro ⟨hconstant, hsome⟩
          obtain ⟨value, hvalue⟩ := Option.isSome_iff_exists.mp hsome
          exact hopen value hconstant hvalue
        obtain ⟨hget, hset⟩ := declared_of_variable hparent hclass hvariable hsettled hinfo hunknown
        split
        · apply Adds.member
          intro d h
          obtain rfl := List.mem_singleton.mp h
          exact hget _ rfl hthis
        · rename_i hwritable
          apply Adds.member
          intro d h
          rcases List.mem_cons.mp h with rfl | h
          · exact hget _ rfl hthis
          · obtain rfl := List.mem_singleton.mp h
            exact hset hwritable _ rfl (congrArg (· ++ [_]) hthis)
  · exact .none

end Leaf

end Interop.Emit
