import Interop.Proofs.Emit.ClassBlocks
import Interop.Proofs.Emit.Publicity

namespace Interop

open Overlay Export Emit

/-- Two numbers are never written alike. -/
theorem toString_injective : Function.Injective fun i : Nat => toString i := by
  intro i j h
  have hdigits : Nat.toDigits 10 i = Nat.toDigits 10 j := by
    simpa using congrArg String.toList h
  simpa using congrArg (Nat.ofDigitChars 10 · 0) hdigits

namespace Parameter

variable {p : Parameter} {position : Nat}

/-- A parameter without a name is named after its position. -/
theorem nameAt_of_empty (h : p.name = "") : p.nameAt position = "param" ++ toString position := by
  rw [nameAt, h]
  rfl

theorem nameAt_of_ne (h : p.name ≠ "") : p.nameAt position = p.name := by
  rw [nameAt, if_neg (by simpa using h)]

end Parameter

namespace Declaration

/-- The names that the parameters of a declaration have when it is exported. -/
def parameterNames (d : Declaration) : List String :=
  d.parameters.zipIdx.map fun (p, position) => p.nameAt position

/-- The names that parameters are declared with. -/
def declaredNames (d : Declaration) : List String :=
  (d.parameters.map Parameter.name).filter fun name => !name.isEmpty

/-- Whether a parameter without a name is given a name that another one is declared with. -/
def NamesTwice (d : Declaration) : Prop :=
  ∃ (position : Nat) (p q : Parameter), d.parameters[position]? = some p ∧ p.name = "" ∧
    q ∈ d.parameters ∧ q.name = "param" ++ toString position

/-- Whether the names that are made up meet others: the one for the object, or those for
positions. -/
def Clashes (d : Declaration) (takesObject : Bool) : Prop :=
  d.NamesTwice ∨ takesObject = true ∧ "instance" ∈ d.parameterNames

/-- Whether a keyword stands beside the name that it is written as in managed code. -/
def Escapes (d : Declaration) : Prop :=
  ∃ word ∈ managedKeywords, word ∈ d.parameterNames ∧ "@" ++ word ∈ d.parameterNames

variable {d : Declaration}

/-- Where the declared names differ, all names do, unless a parameter is given the name of another
one. -/
theorem nodup_parameterNames_iff (h : d.declaredNames.Nodup) :
    d.parameterNames.Nodup ↔ ¬d.NamesTwice := by
  have hdeclared : ∀ (i j : Nat) (hi : i < d.parameters.length) (hj : j < d.parameters.length),
      i < j → d.parameters[i].name ≠ "" → d.parameters[j].name ≠ "" →
          d.parameters[i].name ≠ d.parameters[j].name := by
    rw [declaredNames, List.Nodup, List.pairwise_filter, List.pairwise_map,
      List.pairwise_iff_getElem] at h
    simpa using h
  have hnames : d.parameterNames.Nodup ↔
      ∀ (i j : Nat) (hi : i < d.parameters.length) (hj : j < d.parameters.length),
      i < j → d.parameters[i].nameAt i ≠ d.parameters[j].nameAt j := by
    rw [parameterNames, List.Nodup, List.pairwise_map, List.pairwise_iff_getElem]
    simp
  rw [hnames]
  constructor
  · rintro hdistinct ⟨i, p, q, hp, hempty, hq, hname⟩
    obtain ⟨hi, rfl⟩ := List.getElem?_eq_some_iff.mp hp
    obtain ⟨j, hj, rfl⟩ := List.mem_iff_getElem.mp hq
    have hsame : d.parameters[i].nameAt i = d.parameters[j].nameAt j := by
      rw [Parameter.nameAt_of_empty hempty, Parameter.nameAt_of_ne (by rw [hname]; simp), hname]
    rcases Nat.lt_trichotomy i j with hlt | rfl | hlt
    · exact hdistinct i j hi hj hlt hsame
    · rw [hempty] at hname
      simp at hname
    · exact hdistinct j i hj hi hlt hsame.symm
  · intro honce i j hi hj hlt hsame
    by_cases hi' : d.parameters[i].name = "" <;> by_cases hj' : d.parameters[j].name = ""
    · rw [Parameter.nameAt_of_empty hi', Parameter.nameAt_of_empty hj',
        String.append_right_inj] at hsame
      exact absurd (toString_injective hsame) (by omega)
    · rw [Parameter.nameAt_of_empty hi', Parameter.nameAt_of_ne hj'] at hsame
      exact honce ⟨i, _, _, List.getElem?_eq_getElem hi, hi', List.getElem_mem hj, hsame.symm⟩
    · rw [Parameter.nameAt_of_ne hi', Parameter.nameAt_of_empty hj'] at hsame
      exact honce ⟨j, _, _, List.getElem?_eq_getElem hj, hj', List.getElem_mem hi, hsame⟩
    · rw [Parameter.nameAt_of_ne hi', Parameter.nameAt_of_ne hj'] at hsame
      exact hdeclared i j hi hj hlt hi' hj' hsame

end Declaration

namespace Emit

/-- A keyword is escaped. -/
theorem managedName_of_keyword {name : String} (h : name ∈ managedKeywords) :
    managedName name = "@" ++ name :=
  if_pos (List.contains_iff_mem.mpr h)

theorem managedName_of_not_keyword {name : String} (h : name ∉ managedKeywords) :
    managedName name = name :=
  if_neg (mt List.contains_iff_mem.mp h)

/-- Names differ in managed code if they differ, and no name is what another one is written as. -/
theorem nodup_map_managedName_iff (names : List String) :
    (names.map managedName).Nodup ↔
      names.Nodup ∧ ¬∃ word ∈ managedKeywords, word ∈ names ∧ "@" ++ word ∈ names := by
  have hescaped : ∀ word ∈ managedKeywords, "@" ++ word ∉ managedKeywords := by decide
  constructor
  · intro h
    refine ⟨.of_map _ h, ?_⟩
    rintro ⟨word, hword, hmem, hmem'⟩
    have hsame : managedName word = managedName ("@" ++ word) := by
      rw [managedName_of_keyword hword, managedName_of_not_keyword (hescaped word hword)]
    have heq := List.inj_on_of_nodup_map h hmem hmem' hsame
    exact hescaped word hword (by rwa [← heq])
  · rintro ⟨hnodup, happart⟩
    refine hnodup.map_on fun name hname name' hname' hsame => ?_
    by_cases hword : name ∈ managedKeywords <;> by_cases hword' : name' ∈ managedKeywords
    · rwa [managedName_of_keyword hword, managedName_of_keyword hword',
        String.append_right_inj] at hsame
    · rw [managedName_of_keyword hword, managedName_of_not_keyword hword'] at hsame
      exact absurd ⟨name, hword, hname, hsame ▸ hname'⟩ happart
    · rw [managedName_of_not_keyword hword, managedName_of_keyword hword'] at hsame
      exact absurd ⟨name', hword', hname', hsame ▸ hname⟩ happart
    · rwa [managedName_of_not_keyword hword, managedName_of_not_keyword hword'] at hsame

/-- The name for the object is no keyword and is not written as one. -/
theorem instance_mem_map_managedName_iff {names : List String} :
    "instance" ∈ names.map managedName ↔ "instance" ∈ names := by
  have hword : "instance" ∉ managedKeywords := by decide
  constructor
  · intro h
    obtain ⟨name, hname, hsame⟩ := List.mem_map.mp h
    by_cases hkeyword : name ∈ managedKeywords
    · rw [managedName_of_keyword hkeyword] at hsame
      have hfirst := congrArg (fun text => text.toList.head?) hsame
      simp at hfirst
    · rw [managedName_of_not_keyword hkeyword] at hsame
      exact hsame ▸ hname
  · exact fun h => List.mem_map.mpr ⟨_, h, managedName_of_not_keyword hword⟩

end Emit

namespace Emit

variable {s : Surroundings} {w : Workspace} {m : Mapper} {class_ n : Node} {f : BridgeFunction}
    {o : Offer}
  {c : ManagedClass} {isInheritable : Bool} {state : ManagedState}

/-- The names of the parameters of a bridge function. -/
def BridgeFunction.names (f : BridgeFunction) : List String :=
  f.parameters.map (·.name)

/-- Whether names are those of the parameters of a bridge declaration, each behind its type. -/
def BridgeDeclaration.Names (d : BridgeDeclaration) (names : List String) : Prop :=
  List.Forall₂ (fun text name => ∃ type, text = type ++ " " ++ name) d.parameters names

/-- The parameters of a member, if it is a constructor or a method. -/
def ManagedMember.parameters? : ManagedMember → Option (List ManagedParameter)
  | .constructor _ _ parameters _ => some parameters
  | .method _ _ _ parameters _ => some parameters
  | .constant .. => none
  | .property .. => none

/-- The name of the parameter for the object, if there is one. -/
def objectNames (takesObject : Bool) : List String :=
  if takesObject then ["instance"] else []

/-- The arguments of a bridge function are named like its parameters. -/
theorem names_of_ofParameters? {parameters : List NodeParameter} {arguments : List BridgeArgument}
    (h : BridgeArgument.ofParameters? m parameters = some arguments) :
    arguments.map (·.parameter.name) = parameters.map (·.name) := by
  unfold BridgeArgument.ofParameters? at h
  induction parameters generalizing arguments with
  | nil =>
    cases h
    rfl
  | cons p rest ih =>
    rw [List.mapM_cons] at h
    simp only [Option.bind_eq_bind] at h
    obtain ⟨first, hfirst, h⟩ := Option.bind_eq_some_iff.mp h
    obtain ⟨others, hothers, h⟩ := Option.bind_eq_some_iff.mp h
    obtain ⟨type, -, hfirst⟩ := Option.bind_eq_some_iff.mp hfirst
    obtain ⟨info, -, hfirst⟩ := Option.bind_eq_some_iff.mp hfirst
    cases h
    cases hfirst
    rw [List.map_cons, List.map_cons, ih hothers]

/-- A bridge function has the names of its node behind the one for the object. -/
theorem names_of_callable? (h : callable? m class_ n = some f) :
    f.names = objectNames (takesInstance class_ n) ++ n.parameters.map (·.name) := by
  simp only [callable?, Option.bind_eq_bind] at h
  obtain ⟨arguments, harguments, h⟩ := Option.bind_eq_some_iff.mp h
  obtain ⟨result?, -, h⟩ := Option.bind_eq_some_iff.mp h
  obtain rfl := Option.some.inj h
  rw [BridgeFunction.names, List.map_append, List.map_map,
    objectNames, ← names_of_ofParameters? harguments]
  cases takesInstance class_ n <;> rfl

/-- The bridge functions of a function are made for it as a member of a class. -/
theorem exists_callable?_of_exported {id : NodeId} (hcallable : isCallable (w.node id) = true)
    (hf : f ∈ exported s w id) :
    ∃ class_, (w.node id).parent? = some class_ ∧ (w.node class_).kind = .classType ∧
      callable? (s.mapper w (w.node class_).symbol) (w.node class_) (w.node id) = some f := by
  have hkind : (w.node id).kind ≠ .classType := by
    intro hkind
    rw [isCallable, hkind] at hcallable
    cases hcallable
  cases howner : owner? w id with
  | none =>
    rw [exported, howner] at hf
    cases hf
  | some class_ =>
    rw [owner?, if_neg hkind] at howner
    obtain ⟨hparent, hclass⟩ := Option.filter_eq_some_iff.mp howner
    rw [beq_iff_eq] at hclass
    rw [exported_of_member hkind hparent hclass, memberFunctions] at hf
    refine ⟨class_, hparent, hclass, ?_⟩
    rcases isCallable_iff.mp hcallable with hkind | hkind | hkind <;> rw [hkind] at hf <;>
      exact Option.mem_toList.mp hf

/-- In managed code parameters keep their names but for keywords. -/
theorem names_of_managedParameters? {parameters : List NodeParameter}
    {managed : List ManagedParameter} (h : managedParameters? m parameters = some managed) :
    managed.map (·.name) = (parameters.map (·.name)).map managedName := by
  unfold managedParameters? at h
  induction parameters generalizing managed with
  | nil =>
    cases h
    rfl
  | cons p rest ih =>
    rw [List.mapM_cons] at h
    simp only [Option.bind_eq_bind] at h
    obtain ⟨first, hfirst, h⟩ := Option.bind_eq_some_iff.mp h
    obtain ⟨others, hothers, h⟩ := Option.bind_eq_some_iff.mp h
    obtain ⟨type, -, hfirst⟩ := Option.bind_eq_some_iff.mp hfirst
    obtain ⟨info, -, hfirst⟩ := Option.bind_eq_some_iff.mp hfirst
    cases h
    cases hfirst
    rw [List.map_cons, ih hothers]
    rfl

/-- A bridge declaration names the parameters of its function behind the one for the object. -/
theorem names_of_parameters {d : BridgeDeclaration} {takesObject : Bool}
    {parameters : List ManagedParameter}
    (h : d.parameters = (if takesObject then [BridgeDeclaration.instanceParameter] else []) ++
      parameters.map (·.bridgeDeclaration)) :
    d.Names (objectNames takesObject ++ parameters.map (·.name)) := by
  have hparameters : List.Forall₂ (fun text name => ∃ type, text = type ++ " " ++ name)
      (parameters.map (·.bridgeDeclaration)) (parameters.map (·.name)) := by
    rw [List.forall₂_map_left_iff, List.forall₂_map_right_iff, List.forall₂_same]
    intro p _
    unfold ManagedParameter.bridgeDeclaration ManagedParameter.attributed
    cases p.attribute? with
    | none => exact ⟨p.marshal, rfl⟩
    | some text =>
      exact ⟨"[" ++ text ++ "] " ++ p.marshal, by simp only [Option.elim_some, String.append_assoc]⟩
  rw [BridgeDeclaration.Names, h]
  cases takesObject with
  | false => exact hparameters
  | true => exact .cons ⟨"IntPtr", rfl⟩ hparameters

/-- Whether managed code hands the object of a class to a function. -/
def handsObject (c : ManagedClass) (n : Node) : Bool :=
  n.kind != .constructor && !(c.isStatic || n.isStatic)

/-- Whether an offered function is the one of a node, with a bridge declaration that hands the
object if asked to. -/
structure Offer.Calls (m : Mapper) (n : Node) (handsObject : Bool) (o : Offer) : Prop where
  callable : isCallable n = true
  declared : ∃ parameters, managedParameters? m n.parameters = some parameters ∧
    o.member.parameters? = some parameters ∧ ∃ d ∈ o.bridges, d.name = n.bridgeName ∧
      d.parameters = (if handsObject then [BridgeDeclaration.instanceParameter] else []) ++
        parameters.map (·.bridgeDeclaration)

/-- Whether a step adds nothing to a class, or what is offered in a way. -/
def Takes (offered : Offer → Prop) (before after : ManagedState) : Prop :=
  after = before ∨ ∃ o, offered o ∧ after = before.take o

/-- What a constructor offers to its class calls its function, without an object. -/
theorem addConstructor_takes (hkind : n.kind = .constructor)
    (hclass : state.class? = some (c, isInheritable)) :
    Takes (Offer.Calls m n (handsObject c n)) state (state.addConstructor m n) := by
  unfold ManagedState.addConstructor
  rw [hclass]
  cases hparameters : managedParameters? m n.parameters with
  | none => exact .inl rfl
  | some parameters =>
    have hhands : handsObject c n = false := by simp [handsObject, hkind]
    refine .inr ⟨⟨_, .constructor c.name c.base?.isSome parameters n.bridgeName, _⟩,
      ⟨?_, parameters, hparameters, rfl, ?_⟩, rfl⟩
    · exact isCallable_iff.mpr (.inl hkind)
    · exact ⟨_, List.mem_cons_self, rfl, by rw [hhands]; rfl⟩

/-- What a method offers to its class calls its function, with the object in front unless the method
or the class is static. -/
theorem addMethod_takes (hkind : n.kind = .memberFunction ∨ n.kind = .freeFunction)
    (hclass : state.class? = some (c, isInheritable)) :
    Takes (Offer.Calls m n (handsObject c n)) state (state.addMethod m n) := by
  unfold ManagedState.addMethod
  rw [hclass]
  cases hparameters : managedParameters? m n.parameters with
  | none => exact .inl rfl
  | some parameters =>
    cases ManagedState.result? m n with
    | none => exact .inl rfl
    | some result? =>
      have hhands : handsObject c n = !(c.isStatic || n.isStatic) := by
        rcases hkind with hkind | hkind <;> simp [handsObject, hkind]
      refine .inr ⟨⟨_, .method _ _ _ parameters _, _⟩, ⟨?_, parameters, hparameters, rfl, ?_⟩, rfl⟩
      · exact isCallable_iff.mpr (.inr hkind)
      · refine ⟨_, List.mem_cons_self, rfl, ?_⟩
        rw [hhands]
        cases c.isStatic || n.isStatic <;> rfl

/-- What a variable offers has no parameters of its own. -/
theorem addVariable_takes (hclass : state.class? = some (c, isInheritable)) :
    Takes (fun o => o.member.parameters? = none) state (state.addVariable m n) := by
  unfold ManagedState.addVariable
  rw [hclass]
  cases n.type?.bind m.resolve? with
  | none => exact .inl rfl
  | some info =>
    cases n.isConstant with
    | false => exact .inr ⟨⟨_, .property _ _ _ _ _, _⟩, rfl, rfl⟩
    | true =>
      cases n.managedValue? with
      | none => exact .inr ⟨⟨_, .property _ _ _ _ _, _⟩, rfl, rfl⟩
      | some value => exact .inr ⟨⟨_, .constant _ _ _, _⟩, rfl, rfl⟩

/-- Whether an offered member is none with parameters, or the one of a node of a class. -/
def Offer.Belongs (s : Surroundings) (class_ : Node) (c : ManagedClass) (w : Workspace) (n : Node)
    (o : Offer) : Prop :=
  o.member.parameters? = none ∨ o.Calls (s.mapper w class_.symbol) n (handsObject c n)

theorem addLeaf_takes {parent : NodeId} (hparent : n.parent? = some parent)
    (hclass : (w.node parent).kind = .classType) (hframe : state.class? = some (c, isInheritable)) :
    Takes (Offer.Belongs s (w.node parent) c w n) state (ManagedState.addLeaf s w n state) := by
  have hcalls : ∀ {after},
      Takes (Offer.Calls (s.mapper w (w.node parent).symbol) n (handsObject c n)) state after →
      Takes (Offer.Belongs s (w.node parent) c w n) state after :=
    fun h => h.imp_right fun ⟨o, ho, heq⟩ => ⟨o, .inr ho, heq⟩
  have hvalue : Takes (Offer.Belongs s (w.node parent) c w n) state
      (state.addVariable (s.mapper w (w.node parent).symbol) n) :=
    (addVariable_takes hframe).imp_right fun ⟨o, ho, heq⟩ => ⟨o, .inl ho, heq⟩
  unfold ManagedState.addLeaf
  simp only [hparent, Option.map_some, hclass, beq_self_eq_true, if_true]
  split
  case h_1 hkind => exact hcalls (addConstructor_takes hkind hframe)
  case h_2 hkind => exact hcalls (addMethod_takes (.inl hkind) hframe)
  case h_3 hkind => exact hcalls (addMethod_takes (.inr hkind) hframe)
  case h_4 | h_5 | h_6 => exact hvalue
  case h_7 => exact .inl rfl

/-- A class that is offered something keeps what it has, and takes the member with its bridge
declarations, if at all. -/
theorem members_take (own : BlockFrame) (o : Offer) :
    (own.take o).block = own.block ∧ (∀ d ∈ own.bridges, d ∈ (own.take o).bridges) ∧
      ∀ m ∈ ManagedItem.members (own.take o).items, m ∈ ManagedItem.members own.items ∨
        o.member = m ∧ ∀ d ∈ o.bridges, d ∈ (own.take o).bridges := by
  unfold BlockFrame.take
  split
  · exact ⟨rfl, fun _ h => h, fun _ h => .inl h⟩
  · refine ⟨rfl, fun d hd => List.mem_append_right _ hd, fun m hm => ?_⟩
    rcases List.mem_cons.mp hm with rfl | hm
    · exact .inr ⟨rfl, fun d hd => List.mem_append_left _ (List.mem_reverse.mpr hd)⟩
    · exact .inl hm

/-- The members that an open class has taken were offered by the nodes that it was shown, and their
bridge declarations are the class's. -/
theorem foldl_takes {offered : NodeId → Offer → Prop} {step : ManagedState → NodeId → ManagedState}
    {ids : List NodeId} (hsteps : ∀ id ∈ ids, ∀ state : ManagedState,
      state.class? = some (c, isInheritable) → Takes (offered id) state (step state id))
    {own : BlockFrame} (hown : own.block = .classType c isInheritable) :
    ∃ own', ids.foldl step ⟨[own], []⟩ = ⟨[own'], []⟩ ∧ own'.block = .classType c isInheritable ∧
      (∀ d ∈ own.bridges, d ∈ own'.bridges) ∧
      ∀ m ∈ ManagedItem.members own'.items, m ∈ ManagedItem.members own.items ∨
        ∃ id ∈ ids, ∃ o, offered id o ∧ o.member = m ∧ ∀ d ∈ o.bridges, d ∈ own'.bridges := by
  induction ids generalizing own with
  | nil => exact ⟨own, rfl, hown, fun _ h => h, fun _ h => .inl h⟩
  | cons id rest ih =>
    have hrest := fun key hkey => hsteps key (List.mem_cons_of_mem _ hkey)
    have hclass : own.class? = some (c, isInheritable) := by rw [BlockFrame.class?, hown]
    have hstate : ManagedState.class? ⟨[own], []⟩ = some (c, isInheritable) := by
      rw [ManagedState.class?, List.findSome?_cons, hclass]
    rw [List.foldl_cons]
    rcases hsteps id List.mem_cons_self _ hstate with hstays | ⟨o, ho, htakes⟩
    · rw [hstays]
      obtain ⟨own', hfold, hblock, hbridges, hmembers⟩ := ih hrest hown
      refine ⟨own', hfold, hblock, hbridges, fun m hm => ?_⟩
      rcases hmembers m hm with hm | ⟨key, hkey, hoffer⟩
      · exact .inl hm
      · exact .inr ⟨key, List.mem_cons_of_mem _ hkey, hoffer⟩
    · rw [htakes, ManagedState.take_eq (by rw [hclass]; rfl)]
      obtain ⟨hkept, hdeclared, htaken⟩ := members_take own o
      obtain ⟨own', hfold, hblock, hbridges, hmembers⟩ := ih hrest (hkept.trans hown)
      refine ⟨own', hfold, hblock, fun d hd => hbridges d (hdeclared d hd), fun m hm => ?_⟩
      rcases hmembers m hm with hm | ⟨key, hkey, hoffer⟩
      · rcases htaken m hm with hm | ⟨hmember, hown'⟩
        · exact .inl hm
        · exact .inr ⟨id, List.mem_cons_self, o, ho, hmember, fun d hd => hbridges d (hown' d hd)⟩
      · exact .inr ⟨key, List.mem_cons_of_mem _ hkey, hoffer⟩

/-- The members of a class's block with parameters are the functions of leaves of the class, with
their bridge declarations in the block. -/
theorem exists_leaf_of_member (hf : w.forest.WellFormed) {class_ : NodeId}
    (hclass : (w.node class_).kind = .classType) {block : ClassBlock}
    (hblock : block ∈ ownBlocks s w class_) {member : ManagedMember}
    (hmember : member ∈ block.members) {parameters : List ManagedParameter}
    (hparameters : member.parameters? = some parameters) :
    ∃ id, w.forest.parent? id = some class_ ∧ isCallable (w.node id) = true ∧
      managedParameters? (s.mapper w (w.node class_).symbol) (w.node id).parameters =
        some parameters ∧
      ∃ d ∈ block.bridges, d.name = (w.node id).bridgeName ∧
        d.parameters = (if handsObject block.class_
          (w.node id) then [BridgeDeclaration.instanceParameter] else []) ++
          parameters.map (·.bridgeDeclaration) := by
  obtain ⟨c, isInheritable, hopened, -⟩ := exists_classBlock s w (w.node class_)
  have hleaves : ∀ id ∈ (w.forest.children class_).filter fun id => !(w.node id).kind.isContainer,
      ∀ state : ManagedState, state.class? = some (c, isInheritable) →
        Takes (Offer.Belongs s (w.node class_) c w (w.node id)) state (ManagedState.addLeaf s w
            (w.node id) state) := by
    intro id hid state hframe
    have hparent : (w.node id).parent? = some class_ :=
      (w.parent?_node id).trans ((hf.links class_ id).mp (List.mem_filter.mp hid).1)
    exact addLeaf_takes hparent hclass hframe
  obtain ⟨own, hfold, hown, -, hmembers⟩ :=
    @foldl_takes c isInheritable _ _ _ hleaves { block := .classType c isInheritable } rfl
  have halone : ManagedState.alone s w class_ = ⟨[own], []⟩ := by
    rw [← hfold, ManagedState.alone, hopened]
    rfl
  rw [ownBlocks, halone] at hblock
  simp only [List.filterMap_cons, List.filterMap_nil, BlockFrame.classBlock?, BlockFrame.class?,
    hown, Option.map_some, List.mem_singleton] at hblock
  subst hblock
  rw [ManagedItem.members, List.filterMap_reverse, List.mem_reverse] at hmember
  rcases hmembers member hmember with hnone | ⟨id, hid, o, hoffer, rfl, hbridges⟩
  · cases hnone
  · rcases hoffer with hvalue | hcalls
    · rw [hvalue] at hparameters
      cases hparameters
    · obtain ⟨ps, hmanaged, hps, d, hd, hname, hdeclared⟩ := hcalls.declared
      obtain rfl := Option.some.inj (hps.symm.trans hparameters)
      refine ⟨id, (hf.links class_ id).mp (List.mem_filter.mp hid).1, hcalls.callable, hmanaged, d,
        ?_, hname, hdeclared⟩
      exact List.mem_append_right _ (List.mem_reverse.mpr (hbridges d hd))

/-- Names stay apart behind that of the object if they are apart and none of them is the
object's. -/
theorem nodup_objectNames_append_iff {takesObject : Bool} {names : List String} :
    (objectNames takesObject ++ names).Nodup ↔ names.Nodup ∧
      ¬(takesObject = true ∧ "instance" ∈ names) := by
  cases takesObject <;> simp [objectNames, and_comm]

end Emit

namespace Declaration

variable {d : Declaration}

/-- The names of a bridge function differ unless those of its declaration clash. -/
theorem nodup_bridge_iff (h : d.declaredNames.Nodup) (takesObject : Bool) :
    (objectNames takesObject ++ d.parameterNames).Nodup ↔ ¬d.Clashes takesObject := by
  rw [nodup_objectNames_append_iff, nodup_parameterNames_iff h, Clashes, not_or]

/-- In managed code, names may meet where one is escaped, too. -/
theorem nodup_managed_iff (h : d.declaredNames.Nodup) (handsObject : Bool) :
    (objectNames handsObject ++ d.parameterNames.map managedName).Nodup ↔ ¬d.Clashes handsObject ∧
      ¬d.Escapes := by
  rw [nodup_objectNames_append_iff, nodup_map_managedName_iff, nodup_parameterNames_iff h,
    instance_mem_map_managedName_iff, Clashes, Escapes, not_or, and_right_comm]

end Declaration

section Files

variable {g : Generator} {others : List NodeId} {s : Surroundings}

/-- A function of a tree in which all functions are what declarations are exported as has the names
of one. -/
theorem AllPublished.exists_named {units : List HeaderUnit} {w : Workspace} {id : NodeId}
    (h : AllPublished s units w) (hrooted : Rooted s w) (hwithin : w.forest.Within s.root id)
    (hcallable : isCallable (w.node id) = true) :
    ∃ parent, w.forest.parent? id = some parent ∧
      ∃ o ∈ originsIn units, o.Published (w.node parent) (w.node id) ∧
      (w.node id).parameters.map (·.name) = o.declaration.parameterNames := by
  have hmember : (w.node id).isMember = true := by
    rw [Node.isMember, Bool.or_eq_true]
    exact .inl hcallable
  obtain ⟨parent, hparent, o, ho, hpublished⟩ := h.exists_published hrooted hwithin hmember
  exact ⟨parent, hparent, o, ho, hpublished, hpublished.parameterNames hcallable⟩

/-- The parameters of every function that is written have the names of a public declaration, in the
bridge file and its bridge declaration behind the one for the object, if it is given one. Where the
declared names differ, so do those of the bridge function, unless a parameter without a name is
given one that is declared, or one beside the object is declared as the object is named; those in
managed code differ in the same cases, unless a keyword stands beside the name that it is written
as. -/
theorem Passes.parameter_names_nodup_iff (hg : Generator.Reached g.workspace)
    (hroot : s.root = (g.restart others).1) (units : List HeaderUnit) :
    let made := Passes.standard.apply s units (g.restart others).2
    let b := BridgeFile.ofTree s made.1 s.root
    let m := ManagedFile.ofTree s made.1 s.root
    made.2 = [⟨BridgeFile.fileName s.rules, b.text s⟩, ⟨ManagedFile.fileName s.rules, m.text⟩] ∧
      (∀ id ∈ visited s made.1, isCallable (made.1.node id) = true → ∀ f ∈ exported s made.1 id,
        f ∈ b.functions ∧ ∃ class_, (made.1.node id).parent? = some class_ ∧
          ∃ o ∈ originsIn units, o.Published (made.1.node class_) (made.1.node id) ∧
            let d := o.declaration
            let takesObject := takesInstance (made.1.node class_) (made.1.node id)
            f.names = objectNames takesObject ++ d.parameterNames ∧
            (d.declaredNames.Nodup → (f.names.Nodup ↔ ¬d.Clashes takesObject))) ∧
      ∀ block ∈ m.classBlocks, ∀ member ∈ block.members, ∀ parameters, member.parameters? =
        some parameters → ∃ id, made.1.forest.Within s.root id ∧
          isCallable (made.1.node id) = true ∧ ∃ class_, (made.1.node id).parent? = some class_ ∧
            ∃ o ∈ originsIn units, o.Published (made.1.node class_) (made.1.node id) ∧
            ∃ e ∈ block.bridges, e.name = (made.1.node id).bridgeName ∧
              let d := o.declaration
              let handed := handsObject block.class_ (made.1.node id)
              let names := parameters.map (·.name)
              names = d.parameterNames.map managedName ∧ e.Names (objectNames handed ++ names) ∧
              (d.declaredNames.Nodup → (names.Nodup ↔ ¬d.Clashes false ∧ ¬d.Escapes) ∧
                ((objectNames handed ++ names).Nodup ↔ ¬d.Clashes handed ∧ ¬d.Escapes)) := by
  intro made b m
  have hbare := Generator.restart_bareTree hg.wellFormed hroot
  have hrooted : Rooted s made.1 := Passes.apply_rooted hbare.rooted Passes.standard
  have htop : made.1.forest.parent? s.root = .none :=
    Passes.apply_top hbare.rooted hbare.top Passes.standard
  have hpublished := AllPublished.of_passes hg hroot units
  refine ⟨Passes.standard_artifacts s units _, fun id hid hcallable f hf => ?_, ?_⟩
  · obtain ⟨class_, hparent, -, hf'⟩ := exists_callable?_of_exported hcallable hf
    have hwithin := (Forest.within_of_mem_preorder hrooted.wellFormed hid).1
    obtain ⟨parent, hup, o, ho, hfrom, hdeclared⟩ :=
      hpublished.exists_named hrooted hwithin hcallable
    obtain rfl := Option.some.inj (hup.symm.trans (Workspace.parent?_of_node hparent))
    have hnames := names_of_callable? hf'
    rw [hdeclared] at hnames
    refine ⟨?_, parent, hparent, o, ho, hfrom, hnames, fun hdistinct => ?_⟩
    · change f ∈ (BridgeFile.ofTree s made.1 s.root).functions
      rw [ofTree_eq, (collected_eq hrooted.wellFormed _ _ _).1]
      exact List.mem_append_right _ (List.mem_flatMap.mpr ⟨id, hid, hf⟩)
    · rw [hnames]
      exact Declaration.nodup_bridge_iff hdistinct _
  · intro block hblock member hmember parameters hparameters
    rw [ManagedFile.classBlocks_ofTree s (hrooted.wellFormed.isTree htop), classesBelow,
      List.mem_flatMap] at hblock
    obtain ⟨class_, hclass_, hblock⟩ := hblock
    obtain ⟨hmem, hclass⟩ := List.mem_filter.mp hclass_
    rw [beq_iff_eq] at hclass
    have hinside := (Forest.within_of_mem_preorder hrooted.wellFormed hmem).1
    obtain ⟨id, hparent, hcallable, hmanaged, e, he, hname, hbridge⟩ :=
      exists_leaf_of_member hrooted.wellFormed hclass hblock hmember hparameters
    have hwithin := Forest.Within.step hparent hinside
    obtain ⟨parent, hup, o, ho, hfrom, hdeclared⟩ :=
      hpublished.exists_named hrooted hwithin hcallable
    have hnames := names_of_managedParameters? hmanaged
    rw [hdeclared] at hnames
    refine ⟨id, hwithin, hcallable, parent, (Workspace.parent?_node _ _).trans hup, o, ho, hfrom,
      e, he, hname, hnames, names_of_parameters hbridge, fun hdistinct => ?_⟩
    rw [hnames]
    exact ⟨Declaration.nodup_managed_iff hdistinct false, Declaration.nodup_managed_iff hdistinct _⟩

/-- A constructor and a method have parameters without names between others. -/
theorem Passes.parameter_names_nodup_iff_unnamed :
    ∃ u : HeaderUnit,
      (Header.FrontEnd.builtin {} ⟨"A.h"⟩
        (.text "class A { public: A(int, int b); void f(int x, int); };")).result = .ok u ∧
      let g := Generator.ofDirectories ⟨""⟩ ⟨"/o"⟩
      let s : Surroundings :=
        { settings := g.settings, rules := { name := "M" }, root := (g.restart []).1 }
      let made := Passes.standard.apply s [u] (g.restart []).2
      let b := BridgeFile.ofTree s made.1 s.root
      let m := ManagedFile.ofTree s made.1 s.root
      (made.1.forest.children ⟨1⟩).map
          (fun id => ((made.1.node id).symbol, (made.1.node id).parameters.map (·.name))) =
          [("A::A", ["param0", "b"]), ("A::f", ["x", "param1"])] ∧
        made.2 = [⟨BridgeFile.fileName s.rules, b.text s⟩, ⟨ManagedFile.fileName s.rules, m.text⟩] ∧
        ∀ id ∈ visited s made.1, isCallable (made.1.node id) = true →
          ∀ f ∈ exported s made.1 id, f ∈ b.functions ∧
            ∃ class_, (made.1.node id).parent? = some class_ ∧
            ∃ o ∈ originsIn [u], o.Published (made.1.node class_) (made.1.node id) ∧
              let d := o.declaration
              let takesObject := takesInstance (made.1.node class_) (made.1.node id)
              f.names = objectNames takesObject ++ d.parameterNames ∧
              (d.declaredNames.Nodup → (f.names.Nodup ↔ ¬d.Clashes takesObject)) := by
  refine exists_ok_of_decide (fun u =>
    let g := Generator.ofDirectories ⟨""⟩ ⟨"/o"⟩
    let s : Surroundings :=
      { settings := g.settings, rules := { name := "M" }, root := (g.restart []).1 }
    let made := Passes.standard.apply s [u] (g.restart []).2
    (made.1.forest.children ⟨1⟩).map
      (fun id => ((made.1.node id).symbol, (made.1.node id).parameters.map (·.name))) =
      [("A::A", ["param0", "b"]),
        ("A::f", ["x", "param1"])]) (by decide +kernel) fun u _ hparameters => ?_
  intro g s made b m
  obtain ⟨hmade, hfunctions, -⟩ :=
    Passes.parameter_names_nodup_iff (Generator.Reached.ofDirectories ⟨""⟩ ⟨"/o"⟩) (s := s) rfl [u]
  exact ⟨hparameters, hmade, hfunctions⟩

/-- A parameter of a method is named as its object, and a parameter without a name is given the name
of another one. -/
theorem Passes.parameter_names_meet :
    ∃ u : HeaderUnit,
      (Header.FrontEnd.builtin {} ⟨"A.h"⟩
        (.text
          "class A { public: void f(int instance); static void g(int, int param0); };")).result =
          .ok u ∧
      (∃ d ∈ u.root.subtree, d.name = "f" ∧ d.parameters.map Parameter.name = ["instance"]) ∧
      (∃ d ∈ u.root.subtree, d.name = "g" ∧ d.parameters.map Parameter.name = ["", "param0"]) ∧
      let g := Generator.ofDirectories ⟨""⟩ ⟨"/o"⟩
      let s : Surroundings :=
        { settings := g.settings, rules := { name := "M" }, root := (g.restart []).1 }
      let made := Passes.standard.apply s [u] (g.restart []).2
      let b := BridgeFile.ofTree s made.1 s.root
      let m := ManagedFile.ofTree s made.1 s.root
      made.2 = [⟨BridgeFile.fileName s.rules, b.text s⟩, ⟨ManagedFile.fileName s.rules, m.text⟩] ∧
        b.functions.map BridgeFunction.names = [["instance"], ["instance", "instance"],
          ["param0", "param0"]] ∧
        m.externs.map (·.parameters) =
          [["IntPtr instance"], ["IntPtr instance", "int instance"],
              ["int param0", "int param0"]] := by
  refine exists_ok_of_decide (fun u =>
    let g := Generator.ofDirectories ⟨""⟩ ⟨"/o"⟩
    let s : Surroundings :=
      { settings := g.settings, rules := { name := "M" }, root := (g.restart []).1 }
    let made := Passes.standard.apply s [u] (g.restart []).2
    (∃ d ∈ u.root.subtree, d.name = "f" ∧ d.parameters.map Parameter.name = ["instance"]) ∧
      (∃ d ∈ u.root.subtree, d.name = "g" ∧ d.parameters.map Parameter.name = ["", "param0"]) ∧
      (BridgeFile.ofTree s made.1 s.root).functions.map BridgeFunction.names =
        [["instance"], ["instance", "instance"], ["param0", "param0"]] ∧
      (ManagedFile.ofTree s made.1 s.root).externs.map (·.parameters) =
        [["IntPtr instance"], ["IntPtr instance", "int instance"], ["int param0", "int param0"]])
    (by decide +kernel) fun u _ ⟨hf, hg, hfunctions, hexterns⟩ => ?_
  exact ⟨hf, hg, Passes.standard_artifacts _ _ _, hfunctions, hexterns⟩

end Files

end Interop
