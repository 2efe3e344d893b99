import Interop.Proofs.Export.Nesting
import Interop.Proofs.Overlay.Growth

namespace Interop

/-- Whether a node of one kind may stand below a node of another in an overlay. -/
def Kind.fitsIn (child parent : Kind) : Bool :=
  match child with
  | .constructor | .memberFunction | .baseClass => parent == .classType
  | .freeFunction | .freeVariable | .memberVariable | .bitField | .classType | .enumeration =>
    parent == .file || parent == .nameSpace || parent == .classType
  | .nameSpace => parent == .file || parent == .nameSpace
  | .enumerator => parent == .enumeration
  | _ => false

/-- Whether overlay nodes of a kind have others below them. -/
def Kind.isHolder : Kind → Bool
  | .file | .nameSpace | .classType | .enumeration => true
  | _ => false

theorem Kind.isContainer_of_isHolder {kind : Kind} (h : kind.isHolder = true) :
    kind.isContainer = true := by
  cases kind <;> first | rfl | cases h

namespace Overlay

/-- Whether all types of a node can be described. -/
structure Node.Crosses (mapper : Mapper) (n : Node) : Prop where
  parameters : ∀ p ∈ n.parameters, ∃ type, p.type? = some type ∧
    (mapper.resolve? type).isSome = true
  result : ∀ type, n.returnType? = some type → (mapper.resolve? type).isSome = true
  value : n.kind.isVariable = true →
    ∃ type, n.type? = some type ∧ (mapper.resolve? type).isSome = true

/-- What can cross the bridge can still do so when more types are known. -/
theorem Node.Crosses.mono {m m' : Mapper} {n : Node} (h : n.Crosses m) (hbelow : m.Below m') :
    n.Crosses m' where
  parameters p hp := by
    obtain ⟨type, htype, hsome⟩ := h.parameters p hp
    exact ⟨type, htype, hbelow.resolve? type hsome⟩
  result type htype := hbelow.resolve? type (h.result type htype)
  value hkind := by
    obtain ⟨type, htype, hsome⟩ := h.value hkind
    exact ⟨type, htype, hbelow.resolve? type hsome⟩

/-- Whether a node stands rightly below its parent `m`, types being seen through a mapper. -/
structure Node.Placed (mapper : Mapper) (n m : Node) : Prop where
  fits : n.kind.fitsIn m.kind = true
  symbol : n.kind = .classType → n.symbol = Symbol.qualify m.symbol n.name
  crosses : n.Crosses mapper

/-- Whether the tree of a namespace is in order: `ok` holds of each node and its parent. -/
structure Built (ok : Node → Node → Prop) (s : Surroundings) (w : Workspace) : Prop where
  wellFormed : w.forest.WellFormed
  root : ∃ r, w.forest.content? s.root = some r ∧ r.kind = .file
  top : w.forest.parent? s.root = none
  nodes : ∀ id n, w.forest.Within s.root id → id ≠ s.root → w.forest.content? id = some n →
    ∃ parent m, w.forest.parent? id = some parent ∧ w.forest.content? parent = some m ∧ ok m n

/-- Whether a constructor has no result, and a variable with a known value is constant. -/
structure Node.Settled (n : Node) : Prop where
  result : n.kind = .constructor → n.returnType? = none
  value : n.kind.isVariable = true → n.managedValue?.isSome = true → n.isConstant = true

variable {ok ok' : Node → Node → Prop} {s : Surroundings} {w w' : Workspace} {parent : NodeId}
    {m n : Node}
  {names : List String}

theorem Built.mono (h : Built ok s w) (hok : ∀ m n, ok m n → ok' m n) : Built ok' s w where
  wellFormed := h.wellFormed
  root := h.root
  top := h.top
  nodes id n hwithin hne hn := by
    obtain ⟨parent, m, hparent, hm, hmn⟩ := h.nodes id n hwithin hne hn
    exact ⟨parent, m, hparent, hm, hok m n hmn⟩

/-- A tree stays in order when a node is added that is in order. -/
theorem Built.grow (h : Built ok s w) (hparent : w.forest.content? parent = some m)
    (hfresh : n.IsFresh) (hcontainer : m.kind.isContainer = true) (hok : ok m n) :
    Built ok s (w.grow parent n names) := by
  have hcontent := Workspace.content?_grow (n := n) hfresh w parent
  have hparents := h.wellFormed.parent?_pushBelow hparent hfresh
  obtain ⟨r, hr, hfile⟩ := h.root
  have hrootNe : s.root ≠ w.forest.nextId := Forest.ne_nextId_of_content? hr
  refine ⟨h.wellFormed.pushBelow hparent hfresh hcontainer, ⟨r, ?_, hfile⟩, ?_,
    fun id k hwithin hne hk => ?_⟩
  · rw [hcontent, if_neg hrootNe, hr]
  · exact (hparents s.root).trans (by rw [if_neg hrootNe, h.top])
  · rw [hcontent] at hk
    by_cases hid : id = w.forest.nextId
    · rw [if_pos hid] at hk
      obtain rfl : n = k := Option.some.inj hk
      exact ⟨parent, m, (hparents id).trans (if_pos hid),
        Workspace.content?_grow_of_some hfresh hparent, hok⟩
    · rw [if_neg hid] at hk
      have hold := (h.wellFormed.within_pushBelow hparent hfresh hid).mp hwithin
      obtain ⟨p, k', hp, hk', hok'⟩ := h.nodes id k hold hne hk
      exact ⟨p, k', (hparents id).trans (by rw [if_neg hid, hp]),
        Workspace.content?_grow_of_some hfresh hk', hok'⟩

/-- A node below one that is held is held as well. -/
theorem Forest.HeldBy.grow {held : List NodeId} {id : NodeId} (hf : w.forest.WellFormed)
    (hparent : w.forest.content? parent = some m) (hfresh : n.IsFresh)
    (hheld : w.forest.HeldBy held (if id = w.forest.nextId then parent else id)) :
    (w.grow parent n names).forest.HeldBy held id := by
  have hold : ∀ {id}, id ≠ w.forest.nextId → w.forest.HeldBy held id →
      (w.grow parent n names).forest.HeldBy held id := by
    rintro id hid ⟨top, htop, hwithin⟩
    exact ⟨top, htop, (hf.within_pushBelow hparent hfresh hid).mpr hwithin⟩
  by_cases hid : id = w.forest.nextId
  · rw [if_pos hid] at hheld
    have hp : (w.grow parent n names).forest.parent? id = some parent :=
      (hf.parent?_pushBelow hparent hfresh id).trans (if_pos hid)
    exact (hold (Forest.ne_nextId_of_content? hparent) hheld).below hp
  · rw [if_neg hid] at hheld
    exact hold hid hheld

/-- Whether every node lies in the tree of the namespace or in one that is kept. -/
def AllHeld (s : Surroundings) (w : Workspace) : Prop :=
  ∀ id n, w.forest.content? id = some n → w.forest.HeldBy (s.root :: s.kept) id

/-- A node that is added to a held tree is held with it. -/
theorem AllHeld.grow (h : AllHeld s w) (hf : w.forest.WellFormed)
    (hparent : w.forest.content? parent = some m) (hfresh : n.IsFresh) :
    AllHeld s (w.grow parent n names) := by
  intro id k hk
  rw [Workspace.content?_grow hfresh] at hk
  refine Forest.HeldBy.grow hf hparent hfresh ?_
  split
  · exact h parent m hparent
  · rename_i hid
    rw [if_neg hid] at hk
    exact h id k hk

end Overlay

namespace Export

open Overlay

/-- Whether `w'` is `w` with one node more, of which and its parent `adds` holds. -/
inductive Grows (adds : Workspace → Node → Node → List String → Prop) (w : Workspace) :
    Workspace → Prop
  | grow {parent : NodeId} {m n : Node} {names : List String}
      (hparent : w.forest.content? parent = some m) (hadds : adds w m n names) :
      Grows adds w (w.grow parent n names)

/-- Whether a node is there and is a container of the given kind. -/
def IsContainer (kind : Kind) (id : NodeId) (w : Workspace) : Prop :=
  kind.isHolder = true ∧ ∃ n, w.forest.content? id = some n ∧ n.kind = kind

/-- Containers stay what they are when nodes are added. -/
theorem IsContainer.mono {adds : Workspace → Node → Node → List String → Prop} {w w' : Workspace}
    {kind : Kind} {id : NodeId} (hfresh : ∀ {w m n names}, adds w m n names → n.IsFresh)
    (hgrows : Relation.ReflTransGen (Grows adds) w w') (h : IsContainer kind id w) :
    IsContainer kind id w' := by
  induction hgrows with
  | refl => exact h
  | tail _ hstep ih =>
    obtain ⟨hcontainer, n, hn, hkind⟩ := ih
    cases hstep with
    | grow hparent hadds =>
      exact ⟨hcontainer, n, Workspace.content?_grow_of_some (hfresh hadds) hn, hkind⟩

theorem IsContainer.of_kind {w : Workspace} {kind : Kind} {id : NodeId}
    (hcontainer : kind.isHolder = true) (h : (w.node id).kind = kind) : IsContainer kind id w := by
  refine ⟨hcontainer, (w.node id).unlinked, Workspace.content?_of_kind ?_, h⟩
  rintro hunexposed
  rw [← h, hunexposed] at hcontainer
  cases hcontainer

namespace Containers

/-- What the first pass adds: namespaces, classes and enums where their declarations fit, and
enumerators below enums. -/
structure Adds (fits : Kind → Kind → Prop) (w : Workspace) (m n : Node) (names : List String) :
    Prop where
  fresh : n.IsFresh
  container : m.kind.isHolder = true
  symbol : n.symbol = Symbol.qualify m.symbol n.name
  named : n.kind.isHolder = true → n.name.isEmpty = false
  keyed : n.kind.isHolder = true → names = [n.symbol]
  kind : (n.kind = .nameSpace ∨ n.kind = .classType ∨ n.kind = .enumeration) ∧ fits n.kind m.kind ∨
    n.kind = .enumerator ∧ m.kind = .enumeration
  parameters : n.parameters = []
  result : n.returnType? = none

variable {fits : Kind → Kind → Prop} {s : Surroundings} {header? : Option Path}

/-- A namespace that has a name may be added where it fits. -/
theorem adds_space {w : Workspace} {m : Node} {name : String} (hcontainer : m.kind.isHolder = true)
    (hfits : fits .nameSpace m.kind) (hname : name.isEmpty = false) :
    Adds fits w m { kind := .nameSpace, name, symbol := Symbol.qualify m.symbol name }
      [Symbol.qualify m.symbol name] where
  fresh := ⟨rfl, rfl, rfl⟩
  container := hcontainer
  symbol := rfl
  named _ := hname
  keyed _ := rfl
  kind := .inl ⟨.inl rfl, hfits⟩
  parameters := rfl
  result := rfl

/-- A class or enum that has a name may be added where it fits. -/
theorem adds_type {w : Workspace} {m : Node} {d : Declaration} (hcontainer : m.kind.isHolder = true)
    (hd : d.kind = .classType ∨ d.kind = .enumeration) (hfits : fits d.kind m.kind)
    (hname : d.name.isEmpty = false) :
    Adds fits w m (typeNode d (Symbol.qualify m.symbol d.name) header?)
      [Symbol.qualify m.symbol d.name] where
  fresh := ⟨rfl, rfl, rfl⟩
  container := hcontainer
  symbol := rfl
  named _ := hname
  keyed _ := rfl
  kind := .inl ⟨.inr hd, hfits⟩
  parameters := rfl
  result := rfl

/-- Entering a namespace adds its node, or nothing if a namespace of that name is open already. What
it is added to has to be able to hold it. -/
theorem enteredNamespace_grows {top : NodeId} {d : Declaration} {w : Workspace} {m : Node}
    (hm : w.forest.content? top = some m) (hcontainer : m.kind.isHolder = true)
    (hfits : fits .nameSpace m.kind) :
    Relation.ReflTransGen (Grows (Adds fits)) w (enteredNamespace top d w).2 ∧
      ∀ inner, (enteredNamespace top d w).1 = some inner →
        IsContainer .nameSpace inner (enteredNamespace top d w).2 := by
  have hsymbol : (w.node top).symbol = m.symbol := by rw [← Workspace.node_unlinked hm]; rfl
  simp only [enteredNamespace]
  split
  · exact ⟨.refl, fun _ hinner => by cases hinner⟩
  · rename_i hname
    split
    · rename_i existing hfind
      refine ⟨.refl, fun inner hinner => ?_⟩
      cases hinner
      have hspace := List.find?_some hfind
      obtain ⟨n, hn, hname⟩ := (Option.any_eq_true _ _).mp hspace
      rw [Bool.and_eq_true, beq_iff_eq] at hname
      exact ⟨rfl, n.unlinked, Forest.content?_of_node? hn, hname.1⟩
    · have hadds : Adds fits w m
          { kind := .nameSpace, name := d.name,
            symbol := Symbol.qualify (w.node top).symbol d.name }
          [Symbol.qualify (w.node top).symbol d.name] :=
        hsymbol ▸ adds_space hcontainer hfits (Bool.not_eq_true _ ▸ hname)
      refine ⟨.single (.grow hm hadds), fun inner hinner => ?_⟩
      cases hinner
      exact ⟨rfl, _, by rw [Workspace.content?_grow hadds.fresh, if_pos rfl], rfl⟩

/-- A type is entered where it is already, where it is added, or not at all. -/
theorem enteredType_grows {top : NodeId} {d : Declaration} {w : Workspace} {m : Node}
    (hm : w.forest.content? top = some m) (hcontainer : m.kind.isHolder = true)
    (hd : d.kind = .classType ∨ d.kind = .enumeration) (hfits : fits d.kind m.kind)
    {symbol : String} (hsymbol : Symbol.qualify m.symbol d.name = symbol) :
    Relation.ReflTransGen (Grows (Adds fits)) w (enteredType s header? top d symbol w).2 ∧
      ∀ inner, (enteredType s header? top d symbol w).1 = some inner →
        IsContainer d.kind inner (enteredType s header? top d symbol w).2 := by
  have hdContainer : d.kind.isHolder = true := by
    rcases hd with hd | hd
    · rw [hd]; rfl
    · rw [hd]; rfl
  simp only [enteredType]
  split
  · exact ⟨.refl, fun _ hinner => by cases hinner⟩
  · rename_i hgate
    simp only [Bool.or_eq_true, not_or, Bool.not_eq_true] at hgate
    split
    · rename_i existing hexisting
      refine ⟨.refl, fun inner hinner => ?_⟩
      have hkind := (Option.filter_eq_some_iff.mp hexisting).2
      simp only at hinner
      split at hinner
      · cases hinner
        exact .of_kind hdContainer (by simpa using hkind)
      · cases hinner
    · split
      · have hadds : Adds fits w m (typeNode d symbol header?) [symbol] :=
          hsymbol ▸ adds_type hcontainer hd hfits hgate.1.1.1
        refine ⟨.single (.grow hm hadds), fun inner hinner => ?_⟩
        cases hinner
        exact ⟨hdContainer, _, by rw [Workspace.content?_grow hadds.fresh, if_pos rfl], rfl⟩
      · exact ⟨.refl, fun _ hinner => by cases hinner⟩

/-- Entering a container adds its node, or nothing. Linkage blocks are excluded since they are
passed through. -/
theorem entered_grows {kind : Kind} {top : NodeId} {d : Declaration} {w : Workspace}
    (htop : IsContainer kind top w) (hlinkage : d.kind ≠ .linkage) (hfits : fits d.kind kind) :
    Relation.ReflTransGen (Grows (Adds fits)) w (entered s header? top d w).2 ∧
      ∀ inner, (entered s header? top d w).1 = some inner →
        IsContainer d.kind inner (entered s header? top d w).2 := by
  obtain ⟨hcontainer, m, hm, rfl⟩ := htop
  have hsymbol : Symbol.qualify m.symbol d.name = Symbol.qualify (w.node top).symbol d.name := by
    rw [← Workspace.node_unlinked hm]
    rfl
  simp only [entered]
  split
  · rename_i hkind
    exact absurd hkind hlinkage
  · rename_i hkind
    rw [hkind] at hfits ⊢
    exact enteredNamespace_grows hm hcontainer hfits
  · rename_i hkind
    exact enteredType_grows hm hcontainer (.inl hkind) hfits hsymbol
  · rename_i hkind
    exact enteredType_grows hm hcontainer (.inr hkind) hfits hsymbol
  · exact ⟨.refl, fun _ hinner => by cases hinner⟩

/-- A leaf adds an enumerator at most. -/
theorem added_grows {kind : Kind} {top : NodeId} {d : Declaration} {w : Workspace}
    (htop : IsContainer kind top w) : Relation.ReflTransGen (Grows (Adds fits)) w
    (added top d w) := by
  obtain ⟨hcontainer, m, hm, rfl⟩ := htop
  have hnode := Workspace.node_unlinked hm
  simp only [added]
  split
  · rename_i hkinds
    rw [Bool.and_eq_true, beq_iff_eq, beq_iff_eq] at hkinds
    refine .single (.grow hm ⟨⟨rfl, rfl, rfl⟩, hcontainer, ?_, (fun h => by cases h),
      (fun h => by cases h), .inr ⟨rfl, ?_⟩, rfl, rfl⟩)
    · rw [← hnode]
      rfl
    · rw [← hnode]
      exact hkinds.2
  · exact .refl

/-- The first pass over a header adds nodes one by one. -/
theorem steps (fits : Kind → Kind → Prop) (s : Surroundings) (header? : Option Path) :
    (builder s header?).Steps fits (Relation.ReflTransGen (Grows (Adds fits))) IsContainer where
  refl _ := .refl
  trans := .trans
  mono := IsContainer.mono Adds.fresh
  linkage hkind := by simp only [builder, entered, hkind]
  enter := entered_grows
  leaf htop _ := added_grows htop

end Containers

namespace Members

/-- What the second pass adds: members that stand where their kinds fit and have types that cross,
under names that are not in use. -/
structure Adds (s : Surroundings) (w : Workspace) (m n : Node) (names : List String) : Prop where
  fresh : n.IsFresh
  around : m.kind = .file ∨ m.kind = .nameSpace ∨ m.kind = .classType
  unused : ∀ name ∈ names, w.symbol? name = none
  leaf : n.kind.isHolder = false
  placed : n.Placed (s.mapper w m.symbol) m
  settled : n.Settled

variable {s : Surroundings} {header? : Option Path} {mapper : Mapper}

/-- An exportable type resolves. The converse fails for types that are only described. -/
theorem resolves_of_isExportable {type : NativeType} (h : mapper.isExportable type = true) :
    (mapper.resolve? type).isSome = true :=
  (Bool.and_eq_true _ _ ▸ h : _ ∧ _).2

/-- The types of parameters that are taken all resolve. -/
theorem crosses_of_parametersFrom? {position : Nat} {ps : List Parameter}
    {parameters : List NodeParameter} (h : parametersFrom? mapper position ps = some parameters) :
    ∀ p ∈ parameters, ∃ type, p.type? = some type ∧ (mapper.resolve? type).isSome = true := by
  induction ps generalizing position parameters with
  | nil =>
    cases h
    exact fun _ hp => absurd hp List.not_mem_nil
  | cons first rest ih =>
    simp only [parametersFrom?] at h
    split at h
    · rename_i hexportable
      obtain ⟨others, hothers, rfl⟩ := Option.map_eq_some_iff.mp h
      intro p hp
      rcases List.mem_cons.mp hp with rfl | hp
      · exact ⟨first.type, rfl, resolves_of_isExportable hexportable⟩
      · exact ih hothers p hp
    · cases h

/-- The type of a result that is taken resolves. -/
theorem resultType?_cases {d : Declaration} {result? : Option NativeType}
    (h : resultType? mapper d = some result?) :
    ∀ type, result? = some type → (mapper.resolve? type).isSome = true := by
  intro type htype
  simp only [resultType?] at h
  split at h
  · cases h
    cases htype
  · split at h
    · rename_i hexportable
      cases h
      cases htype
      exact resolves_of_isExportable hexportable
    · cases h

/-- A function is exported below a parent that its kind fits in. -/
theorem placed_of_functionNode? {m n : Node} {d : Declaration}
    (haround : m.kind = .file ∨ m.kind = .nameSpace ∨ m.kind = .classType)
    (h : functionNode? mapper m d header? = some n) : n.IsFresh ∧ n.Placed mapper m := by
  simp only [functionNode?, Option.bind_eq_bind] at h
  split at h
  · cases h
  · obtain ⟨name, hname, h⟩ := Option.bind_eq_some_iff.mp h
    obtain ⟨result?, hresult, h⟩ := Option.bind_eq_some_iff.mp h
    obtain ⟨parameters, hparameters, h⟩ := Option.bind_eq_some_iff.mp h
    cases h
    refine ⟨⟨rfl, rfl, rfl⟩, ?_, fun _ => rfl, crosses_of_parametersFrom? hparameters,
      resultType?_cases hresult, fun hvariable => ?_⟩
    · simp only [functionName?] at hname
      split at hname
      · rename_i hkind
        split at hname
        · rename_i hclass
          rw [Bool.and_eq_true] at hclass
          simp only [hkind, Kind.fitsIn]
          exact hclass.1
        · cases hname
      · rename_i hkind
        split at hname
        · rename_i hclass
          simp only [hkind, Kind.fitsIn]
          exact hclass
        · cases hname
      · rename_i hkind
        simp only [hkind, Kind.fitsIn]
        rcases haround with hm | hm | hm <;> rw [hm] <;> rfl
      · cases hname
    · simp only [functionName?] at hname
      split at hname
      · rename_i hkind
        rw [hkind] at hvariable
        cases hvariable
      · rename_i hkind
        rw [hkind] at hvariable
        cases hvariable
      · rename_i hkind
        rw [hkind] at hvariable
        cases hvariable
      · cases hname

/-- A variable that is added is placed well, under the root as well as in classes. -/
theorem placed_of_variableNode? {m n : Node} {d : Declaration}
    (haround : m.kind = .file ∨ m.kind = .nameSpace ∨ m.kind = .classType)
    (hkind : d.kind.isVariable = true) (h : variableNode? mapper m d header? = some n) :
    n.IsFresh ∧ n.Placed mapper m := by
  simp only [variableNode?, Option.bind_eq_bind] at h
  obtain ⟨type, htype, h⟩ := Option.bind_eq_some_iff.mp h
  split at h
  · cases h
  · rename_i hexportable
    cases h
    refine ⟨⟨rfl, rfl, rfl⟩, ?_, fun _ => rfl, fun _ hp => absurd hp List.not_mem_nil, nofun,
      fun _ => ⟨type, rfl, resolves_of_isExportable (by simpa using hexportable)⟩⟩
    cases hd : d.kind
    case freeVariable => rcases haround with hm | hm | hm <;> rw [hm] <;> rfl
    case memberVariable => rcases haround with hm | hm | hm <;> rw [hm] <;> rfl
    case bitField => rcases haround with hm | hm | hm <;> rw [hm] <;> rfl
    all_goals
      rw [hd] at hkind
      cases hkind

/-- A base class that is added is placed well. -/
theorem placed_of_baseNode? {m n : Node} {d : Declaration} (h : baseNode? mapper m d = some n) :
    n.IsFresh ∧ n.Placed mapper m := by
  simp only [baseNode?, Option.bind_eq_bind] at h
  split at h
  · cases h
  · rename_i hclass
    obtain ⟨type, _, h⟩ := Option.bind_eq_some_iff.mp h
    obtain ⟨id, _, h⟩ := Option.bind_eq_some_iff.mp h
    obtain ⟨base, _, h⟩ := Option.bind_eq_some_iff.mp h
    split at h
    · cases h
    · cases h
      refine ⟨⟨rfl, rfl, rfl⟩, ?_, nofun, fun _ hp => absurd hp List.not_mem_nil, nofun, nofun⟩
      simpa [Kind.fitsIn] using hclass

/-- A node of a scope or class is there. -/
theorem placed_of_memberNode? {w : Workspace} {parent : NodeId} {m n : Node} {d : Declaration}
    (hm : w.forest.content? parent = some m)
    (haround : m.kind = .file ∨ m.kind = .nameSpace ∨ m.kind = .classType)
    (h : memberNode? s w header? parent d = some n) :
    n.IsFresh ∧ n.Placed (s.mapper w m.symbol) m := by
  obtain ⟨k, hk, rfl⟩ := Option.map_eq_some_iff.mp hm
  rw [memberNode?, Workspace.node_of_node? hk] at h
  have hfunction : ∀ {n}, functionNode? (s.mapper w k.symbol) k d header? = some n →
      n.IsFresh ∧ n.Placed (s.mapper w k.symbol) k.unlinked := by
    intro n hn
    obtain ⟨hfresh, hfits, hsymbol, hcrosses⟩ := placed_of_functionNode? haround hn
    exact ⟨hfresh, hfits, hsymbol, hcrosses⟩
  have hvariable : ∀ {n}, d.kind.isVariable = true →
      variableNode? (s.mapper w k.symbol) k d header? = some n →
      n.IsFresh ∧ n.Placed (s.mapper w k.symbol) k.unlinked := by
    intro n hkind hn
    obtain ⟨hfresh, hfits, hsymbol, hcrosses⟩ := placed_of_variableNode? haround hkind hn
    exact ⟨hfresh, hfits, hsymbol, hcrosses⟩
  split at h
  · exact hfunction (Option.filter_eq_some_iff.mp h).1
  · exact hfunction (Option.filter_eq_some_iff.mp h).1
  · exact hfunction (Option.filter_eq_some_iff.mp h).1
  · rename_i hkind
    exact hvariable (by rw [hkind]; rfl) (Option.filter_eq_some_iff.mp h).1
  · rename_i hkind
    exact hvariable (by rw [hkind]; rfl) (Option.filter_eq_some_iff.mp h).1
  · rename_i hkind
    exact hvariable (by rw [hkind]; rfl) (Option.filter_eq_some_iff.mp h).1
  · obtain ⟨hfresh, hfits, hsymbol, hcrosses⟩ := placed_of_baseNode? h
    exact ⟨hfresh, hfits, hsymbol, hcrosses⟩
  · cases h

/-- What is added is settled: the raw passes give no values to variables. -/
theorem settled_of_memberNode? {w : Workspace} {parent : NodeId} {n : Node} {d : Declaration}
    (h : memberNode? s w header? parent d = some n) : n.Settled := by
  have hfunction : ∀ {mapper m}, functionNode? mapper m d header? = some n → n.Settled := by
    intro mapper m hn
    simp only [functionNode?, Option.bind_eq_bind] at hn
    split at hn
    · cases hn
    · obtain ⟨name, -, hn⟩ := Option.bind_eq_some_iff.mp hn
      obtain ⟨result?, hresult, hn⟩ := Option.bind_eq_some_iff.mp hn
      obtain ⟨parameters, -, hn⟩ := Option.bind_eq_some_iff.mp hn
      cases hn
      refine ⟨fun hkind => ?_, fun _ hvalue => nomatch hvalue⟩
      rw [resultType?, if_pos (beq_iff_eq.mpr hkind)] at hresult
      exact (Option.some.inj hresult).symm
  have hvariable : ∀ {mapper m}, variableNode? mapper m d header? = some n → n.Settled := by
    intro mapper m hn
    simp only [variableNode?, Option.bind_eq_bind] at hn
    obtain ⟨type, -, hn⟩ := Option.bind_eq_some_iff.mp hn
    split at hn
    · cases hn
    · cases hn
      exact ⟨fun _ => rfl, fun _ hvalue => nomatch hvalue⟩
  simp only [memberNode?] at h
  split at h
  case h_1 | h_2 | h_3 => exact hfunction (Option.filter_eq_some_iff.mp h).1
  case h_4 | h_5 | h_6 => exact hvariable (Option.filter_eq_some_iff.mp h).1
  case h_7 =>
    simp only [baseNode?, Option.bind_eq_bind] at h
    split at h
    · cases h
    · obtain ⟨type, -, h⟩ := Option.bind_eq_some_iff.mp h
      obtain ⟨id, -, h⟩ := Option.bind_eq_some_iff.mp h
      obtain ⟨base, -, h⟩ := Option.bind_eq_some_iff.mp h
      split at h
      · cases h
      · cases h
        exact ⟨nofun, nofun⟩
  case h_8 => cases h

/-- No namespace and no type is added. -/
theorem isHolder_of_memberNode? {w : Workspace} {parent : NodeId} {n : Node} {d : Declaration}
    (h : memberNode? s w header? parent d = some n) : n.kind.isHolder = false := by
  have hfunction : ∀ {mapper m}, d.kind.isHolder = false →
      functionNode? mapper m d header? = some n → n.kind.isHolder = false := by
    intro mapper m hkind hn
    simp only [functionNode?, Option.bind_eq_bind] at hn
    split at hn
    · cases hn
    · obtain ⟨name, -, hn⟩ := Option.bind_eq_some_iff.mp hn
      obtain ⟨result?, -, hn⟩ := Option.bind_eq_some_iff.mp hn
      obtain ⟨parameters, -, hn⟩ := Option.bind_eq_some_iff.mp hn
      cases hn
      exact hkind
  have hvariable : ∀ {mapper m}, d.kind.isHolder = false →
      variableNode? mapper m d header? = some n → n.kind.isHolder = false := by
    intro mapper m hkind hn
    simp only [variableNode?, Option.bind_eq_bind] at hn
    obtain ⟨type, -, hn⟩ := Option.bind_eq_some_iff.mp hn
    split at hn
    · cases hn
    · cases hn
      exact hkind
  simp only [memberNode?] at h
  split at h
  case h_1 hkind | h_2 hkind | h_3 hkind =>
    exact hfunction (by rw [hkind]; rfl) (Option.filter_eq_some_iff.mp h).1
  case h_4 hkind | h_5 hkind | h_6 hkind =>
    exact hvariable (by rw [hkind]; rfl) (Option.filter_eq_some_iff.mp h).1
  case h_7 =>
    simp only [baseNode?, Option.bind_eq_bind] at h
    split at h
    · cases h
    · obtain ⟨type, -, h⟩ := Option.bind_eq_some_iff.mp h
      obtain ⟨id, -, h⟩ := Option.bind_eq_some_iff.mp h
      obtain ⟨base, -, h⟩ := Option.bind_eq_some_iff.mp h
      split at h
      · cases h
      · cases h
        rfl
  case h_8 => cases h

/-- Whether a node is one that members are added to. -/
def IsScope (kind : Kind) (id : NodeId) (w : Workspace) : Prop :=
  (kind = .file ∨ kind = .nameSpace ∨ kind = .classType) ∧ IsContainer kind id w

/-- A leaf adds a member at most. -/
theorem added_grows {kind : Kind} {top : NodeId} {d : Declaration} {w : Workspace}
    (htop : IsScope kind top w) :
    Relation.ReflTransGen (Grows (Adds s)) w (added s header? top d w) := by
  obtain ⟨haround, _, m, hm, rfl⟩ := htop
  simp only [added]
  split
  · split
    · exact .refl
    · rename_i n hn
      obtain ⟨hfresh, hplaced⟩ := placed_of_memberNode? hm haround hn
      refine .single (.grow hm ⟨hfresh, haround, fun name hname => ?_, isHolder_of_memberNode? hn,
        hplaced, settled_of_memberNode? hn⟩)
      simpa using (List.mem_filter.mp hname).2
  · exact .refl

theorem entered_isScope {top inner : NodeId} {d : Declaration} {w : Workspace}
    (hlinkage : d.kind ≠ .linkage) (h : entered s header? top d w = some inner) :
    IsScope d.kind inner w := by
  have hscope : ∀ {owned : Bool} {found? : Option NodeId},
      (found?.filter fun id => owned && (w.node id).kind == d.kind) = some inner →
      (d.kind = .nameSpace ∨ d.kind = .classType) → IsScope d.kind inner w := by
    intro owned found? hfound hkind
    have hnode := (Option.filter_eq_some_iff.mp hfound).2
    rw [Bool.and_eq_true, beq_iff_eq] at hnode
    refine ⟨.inr hkind, .of_kind ?_ hnode.2⟩
    rcases hkind with hkind | hkind
    · rw [hkind]; rfl
    · rw [hkind]; rfl
  simp only [entered] at h
  split at h
  · rename_i hkind
    exact absurd hkind hlinkage
  · rename_i hkind
    exact hscope h (.inl hkind)
  · rename_i hkind
    exact hscope h (.inr hkind)
  · cases h

/-- The second pass over a header adds nodes one by one. -/
theorem steps (s : Surroundings) (header? : Option Path) :
    (builder s header?).Steps (fun _ _ => True)
    (Relation.ReflTransGen (Grows (Adds s))) IsScope where
  refl _ := .refl
  trans := .trans
  mono hgrows h := ⟨h.1, h.2.mono Adds.fresh hgrows⟩
  linkage hkind := by simp only [builder, entered, hkind]
  enter _ hlinkage _ := ⟨.refl, fun _ hinner => entered_isScope hlinkage hinner⟩
  leaf htop _ := added_grows htop

end Members

end Export

namespace Overlay

open Export

/-- A tree in which every node stands rightly, whatever types are looked up in. -/
def BareTree (s : Surroundings) (w : Workspace) : Prop :=
  Built (fun m n => ∀ mapper, n.Placed mapper m) s w

/-- A tree in which every node stands rightly, with types looked up from its parent. -/
def MemberTree (s : Surroundings) (w : Workspace) : Prop :=
  Built (fun m n => n.Placed (s.mapper w m.symbol) m) s w

variable {s : Surroundings} {w w' : Workspace} {fits : Kind → Kind → Prop}

/-- The first pass keeps a tree bare, if namespaces and types stand only where they fit. -/
theorem BareTree.grows
    (hfits : ∀ child parent, (child = .nameSpace ∨ child = .classType ∨ child = .enumeration) →
      parent.isHolder = true → fits child parent → child.fitsIn parent = true)
    (hgrows : Relation.ReflTransGen (Grows (Containers.Adds fits)) w w') (h : BareTree s w) :
    BareTree s w' := by
  induction hgrows with
  | refl => exact h
  | tail _ hstep ih =>
    cases hstep with
    | grow hparent hadds =>
      have hcontainer := Kind.isContainer_of_isHolder hadds.container
      refine ih.grow hparent hadds.fresh hcontainer fun mapper => ⟨?_, fun _ => hadds.symbol, ?_⟩
      · rcases hadds.kind with ⟨hkind, hfit⟩ | ⟨hkind, hparent⟩
        · exact hfits _ _ hkind hadds.container hfit
        · rw [hkind, hparent]
          rfl
      · refine ⟨fun p hp => ?_, fun type htype => ?_, fun hvariable => ?_⟩
        · rw [hadds.parameters] at hp
          cases hp
        · rw [hadds.result] at htype
          cases htype
        · rcases hadds.kind with ⟨hkind | hkind | hkind, _⟩ | ⟨hkind, _⟩
          all_goals
            rw [hkind] at hvariable
            cases hvariable

section Grows

variable {adds : Workspace → Node → Node → List String → Prop}
  (hadds : ∀ {w m n names}, adds w m n names → n.IsFresh ∧ m.kind.isContainer = true)
  (hgrows : Relation.ReflTransGen (Grows adds) w w') (hf : w.forest.WellFormed)
include hadds hgrows hf

theorem Forest.WellFormed.grows : w'.forest.WellFormed := by
  induction hgrows with
  | refl => exact hf
  | tail _ hstep ih =>
    cases hstep with
    | grow hparent hnew =>
      obtain ⟨hfresh, hcontainer⟩ := hadds hnew
      exact ih.pushBelow hparent hfresh hcontainer

/-- What was there stays what it was, and lies in no tree that it did not lie in. -/
theorem Forest.WellFormed.kept_of_grows {id : NodeId} {k : Node}
    (hk : w.forest.content? id = some k) :
    w'.forest.content? id = some k ∧ ∀ top, w'.forest.Within top id → w.forest.Within top id := by
  induction hgrows with
  | refl => exact ⟨hk, fun _ h => h⟩
  | tail hbefore hstep ih =>
    have hforest := hf.grows hadds hbefore
    obtain ⟨hk', hwithin⟩ := ih
    cases hstep with
    | grow hparent hnew =>
      have hfresh := (hadds hnew).1
      have hid := Forest.ne_nextId_of_content? hk'
      refine ⟨by rw [Workspace.content?_grow hfresh, if_neg hid, hk'], fun top h => hwithin top ?_⟩
      exact (hforest.within_pushBelow hparent hfresh hid).mp h

/-- Both passes add nodes below nodes that are held. -/
theorem AllHeld.grows (h : AllHeld s w) : AllHeld s w' := by
  induction hgrows with
  | refl => exact h
  | tail hbefore hstep ih =>
    have hforest := hf.grows hadds hbefore
    cases hstep with
    | grow hparent hnew => exact ih.grow hforest hparent (hadds hnew).1

end Grows

/-- A tree of nothing but a root has only members where they belong. -/
theorem BareTree.memberTree (h : BareTree s w) : MemberTree s w :=
  h.mono fun _ _ hplaced => hplaced _

/-- The second pass keeps all members placed: it takes no symbol from a type, so what could be
described can be described afterwards. -/
theorem MemberTree.grows (hgrows : Relation.ReflTransGen (Grows (Members.Adds s)) w w')
    (h : MemberTree s w) : MemberTree s w' := by
  induction hgrows with
  | refl => exact h
  | @tail w w' _ hstep ih =>
    cases hstep with
    | @grow parent m n names hparent hadds =>
      have hcontainer : m.kind.isContainer = true := by
        rcases hadds.around with hm | hm | hm <;> rw [hm] <;> rfl
      have hbelow : ∀ scope, (s.mapper w scope).Below (s.mapper (w.grow parent n names) scope) :=
        fun scope => Workspace.mapper_below
          (fun _ htype => htype.grow hadds.fresh (.inr hadds.unused))
          fun _ _ hmem => hmem
      have hgrown : Built _ s (w.grow parent n names) :=
        ih.grow hparent hadds.fresh hcontainer hadds.placed
      exact hgrown.mono fun m n hplaced =>
        ⟨hplaced.fits, hplaced.symbol, hplaced.crosses.mono (hbelow m.symbol)⟩

end Overlay

end Interop
