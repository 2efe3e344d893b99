import Interop.Proofs.Emit.Coverage
import Interop.Proofs.Export.Origin

namespace Interop

open Overlay Export Emit

/-- A type that may be exported where some names are known may be exported where more are. -/
theorem Mapper.Below.isExportable {m m' : Mapper} (h : m.Below m') {type : NativeType}
    (hexportable : m.isExportable type = true) : m'.isExportable type = true := by
  rw [Mapper.isExportable, Bool.and_eq_true] at hexportable ⊢
  exact ⟨h.accepts hexportable.1, h.resolve? type hexportable.2⟩

/-- The types of a node's parameters, result and value. -/
def Overlay.Node.types (n : Node) : List NativeType :=
  n.parameters.filterMap (·.type?) ++ n.returnType?.toList ++ n.type?.toList

/-- Whether a node stands for a function or a variable. -/
def Overlay.Node.isMember (n : Node) : Bool :=
  isCallable n || n.kind.isVariable

namespace Export.Members

variable {s : Surroundings} {w : Workspace} {mapper : Mapper} {header? : Option Path}
    {d : Declaration} {m n : Node}
  {parent : NodeId}

/-- A function that is added is of its declaration's kind and tells the header that it is from. -/
theorem kind_of_functionNode? (h : functionNode? mapper m d header? = some n) :
    n.kind = d.kind ∧ isCallable n = true ∧ n.source? = header? := by
  simp only [functionNode?, Option.bind_eq_bind] at h
  split at h
  · cases h
  · obtain ⟨name, hname, h⟩ := Option.bind_eq_some_iff.mp h
    obtain ⟨result?, -, h⟩ := Option.bind_eq_some_iff.mp h
    obtain ⟨parameters, -, h⟩ := Option.bind_eq_some_iff.mp h
    cases h
    refine ⟨rfl, ?_, rfl⟩
    simp only [functionName?] at hname
    split at hname
    case h_1 hkind | h_2 hkind | h_3 hkind => simp [isCallable, hkind]
    case h_4 => cases hname

/-- A variable that is added is of its declaration's kind and tells the header that it is from. -/
theorem kind_of_variableNode? (h : variableNode? mapper m d header? = some n) :
    n.kind = d.kind ∧ n.source? = header? := by
  simp only [variableNode?, Option.bind_eq_bind] at h
  obtain ⟨type, -, h⟩ := Option.bind_eq_some_iff.mp h
  split at h
  · cases h
  · cases h
    exact ⟨rfl, rfl⟩

theorem kind_of_baseNode? (h : baseNode? mapper m d = some n) : n.kind = .baseClass := by
  simp only [baseNode?, Option.bind_eq_bind] at h
  split at h
  · cases h
  · obtain ⟨type, -, h⟩ := Option.bind_eq_some_iff.mp h
    obtain ⟨id, -, h⟩ := Option.bind_eq_some_iff.mp h
    obtain ⟨base, -, h⟩ := Option.bind_eq_some_iff.mp h
    split at h
    · cases h
    · cases h
      rfl

/-- The second pass adds functions that are new below their parent, variables whose symbols are not
in use, and base classes. -/
theorem memberNode?_cases (h : memberNode? s w header? parent d = some n) :
    (isCallable n = true ∧
      functionNode? (s.mapper w (w.node parent).symbol) (w.node parent) d header? = some n ∧
      ∀ c ∈ (w.node parent).children, isSameFunction n (w.node c) = false) ∨
    (n.kind.isVariable = true ∧
      variableNode? (s.mapper w (w.node parent).symbol) (w.node parent) d header? = some n ∧
      w.symbol? n.symbol = none) ∨
    (n.kind = .baseClass ∧ d.kind = .baseClass ∧
      baseNode? (s.mapper w (w.node parent).symbol) (w.node parent) d = some n) := by
  simp only [memberNode?] at h
  split at h
  case h_1 | h_2 | h_3 =>
    obtain ⟨hn, hnew⟩ := Option.filter_eq_some_iff.mp h
    rw [Bool.not_eq_true', List.any_eq_false] at hnew
    exact .inl ⟨(kind_of_functionNode? hn).2.1, hn, fun c hc => by simpa using hnew c hc⟩
  case h_4 hkind | h_5 hkind | h_6 hkind =>
    obtain ⟨hn, hnew⟩ := Option.filter_eq_some_iff.mp h
    exact .inr (.inl ⟨by rw [(kind_of_variableNode? hn).1, hkind]; rfl, hn, by simpa using hnew⟩)
  case h_7 hkind => exact .inr (.inr ⟨kind_of_baseNode? h, hkind, h⟩)
  case h_8 => cases h

end Export.Members

theorem Overlay.Node.isVariable_of_isCallable {n : Node} (h : isCallable n = true) :
    n.kind.isVariable = false := by
  rcases isCallable_iff.mp h with hkind | hkind | hkind <;> rw [hkind] <;> rfl

/-- Whether nodes of a kind are made before members are added. -/
def Kind.isFrame : Kind → Bool
  | .nameSpace | .classType | .enumeration | .enumerator => true
  | _ => false

/-- Members are made later. -/
theorem Overlay.Node.isFrame_of_isMember {n : Node} (h : n.isMember = true) :
    n.kind.isFrame = false ∧ n.kind ≠ .file := by
  unfold isMember isCallable at h
  cases hkind : n.kind <;> rw [hkind] at h <;> first | exact ⟨rfl, by decide⟩ | cases h

namespace Parameter

/-- The name of the parameter at a position. -/
def nameAt (p : Parameter) (position : Nat) : String :=
  if p.name.isEmpty then "param" ++ toString position else p.name

/-- What the parameter at a position is exported as. -/
def exported (p : Parameter) (position : Nat) : NodeParameter :=
  { name := p.nameAt position, type? := some p.type, nativeDefault? := p.default? }

end Parameter

namespace Declaration

/-- Whether a variable is taken for constant when it is exported. -/
def isConstant (d : Declaration) : Bool :=
  d.type?.any Members.isConstType || d.flags.isConstexpr

/-- What a function or variable of a header is exported as in a scope. A constructor bears the name
of its class. -/
def exported (d : Declaration) (header? : Option Path) (scope class_ : String) : Node :=
  let name := if d.kind = .constructor then class_ else d.name
  let n : Node :=
    { kind := d.kind, name, symbol := Symbol.qualify scope name, access := d.access,
      flags := d.flags
      source? := header? }
  if d.kind.isVariable then
    { n with isConstant := d.isConstant, type? := d.type?, nativeValue? := d.value? }
  else
    { n with
      returnType? := if d.kind = .constructor then none
        else some (d.returnType?.getD (.builtin .void))
      parameters := d.parameters.zipIdx.map fun (p, position) => p.exported position }

section Exported

variable (d : Declaration) (header? : Option Path) (scope class_ : String)

/-- What all that is exported has in common. -/
theorem exported_eq :
    ∃ isConstant type? returnType? parameters nativeValue?, d.exported header? scope class_ =
    { kind := d.kind, name := if d.kind = .constructor then class_ else d.name
      symbol := Symbol.qualify scope (if d.kind = .constructor then class_ else d.name)
      access := d.access, flags := d.flags, source? := header?
      isConstant, type?, returnType?, parameters, nativeValue? } := by
  unfold exported
  by_cases hvariable : d.kind.isVariable = true
  · exact ⟨d.isConstant, d.type?, none, [], d.value?, if_pos hvariable⟩
  · exact ⟨false, none, _, _, none, if_neg hvariable⟩

theorem exported_unlinked :
    (d.exported header? scope class_).unlinked = d.exported header? scope class_ := by
  obtain ⟨_, _, _, _, _, heq⟩ := d.exported_eq header? scope class_
  rw [heq]
  rfl

@[simp]
theorem exported_kind : (d.exported header? scope class_).kind = d.kind := by
  obtain ⟨_, _, _, _, _, heq⟩ := d.exported_eq header? scope class_
  rw [heq]

/-- A constructor is named after the class that it is added to, whatever its declaration calls it.
All other members keep their names. -/
@[simp]
theorem exported_name :
    (d.exported header? scope class_).name = if d.kind = .constructor then class_ else d.name := by
  obtain ⟨_, _, _, _, _, heq⟩ := d.exported_eq header? scope class_
  rw [heq]

/-- The symbol of a member is its name behind those of the scope it is declared in. -/
@[simp]
theorem exported_symbol : (d.exported header? scope class_).symbol =
    Symbol.qualify scope (d.exported header? scope class_).name := by
  obtain ⟨_, _, _, _, _, heq⟩ := d.exported_eq header? scope class_
  rw [heq]

variable {d}

/-- A variable takes its type, its initializer and its constness from its declaration. -/
theorem exported_of_isVariable (h : d.kind.isVariable = true) :
    (d.exported header? scope class_).type? = d.type? ∧
      (d.exported header? scope class_).nativeValue? = d.value? ∧
      (d.exported header? scope class_).isConstant = d.isConstant := by
  simp only [exported, h, if_true, and_self]

/-- A function takes its parameters from its declaration, one for one. Nothing is assumed of them;
those that cannot be exported keep the function out elsewhere. -/
theorem exported_of_not_isVariable (h : d.kind.isVariable = false) :
    (d.exported header? scope class_).parameters =
      d.parameters.zipIdx.map fun (p, position) => p.exported position := by
  simp only [exported, h, Bool.false_eq_true, if_false]

/-- Only a constructor bears the name of its class. -/
theorem exported_congr (h : d.kind ≠ .constructor) (class_' : String) :
    d.exported header? scope class_' = d.exported header? scope class_ := by
  simp only [exported, if_neg h]

end Exported

end Declaration

/-- What the declaration is exported as below `m`, where it stands. -/
def Origin.exported (o : Origin) (m : Node) : Node :=
  o.declaration.exported (some o.unit.path) o.scope m.name

/-- Whether a declaration may be exported below the node `m` that bears the names around it, and `n`
is what it is exported as there. -/
structure Origin.Admitted (s : Surroundings) (mapper : Mapper) (m : Node) (o : Origin) (n : Node) :
    Prop where
  scope : m.symbol = o.scope
  node : n.unlinked = o.exported m
  access : o.declaration.access = .exposed
  selected : s.rules.symbols.selects (Symbol.qualify m.symbol o.declaration.name) = true
  function : isCallable n = true →
    o.declaration.flags.isDeleted = false ∧ o.declaration.name.startsWith "operator" = false
  value : n.kind.isVariable = true → n.type?.isSome = true
  types : ∀ type ∈ n.types, mapper.isExportable type = true
  constructible : n.kind = .constructor → m.flags.isPure = false

namespace Export.Members

variable {s : Surroundings} {mapper : Mapper} {m n : Node} {d : Declaration} {header? : Option Path}

/-- If parameters are taken at all, they are those of the declaration, and the type of each is
exportable. -/
theorem eq_of_parametersFrom? {position : Nat} {ps : List Parameter}
    {parameters : List NodeParameter} (h : parametersFrom? mapper position ps = some parameters) :
    parameters = (ps.zipIdx position).map (fun (p, i) => p.exported i) ∧
      ∀ p ∈ ps, mapper.isExportable p.type = true := by
  induction ps generalizing position parameters with
  | nil =>
    cases h
    exact ⟨rfl, nofun⟩
  | cons first rest ih =>
    simp only [parametersFrom?] at h
    split at h
    · rename_i hexportable
      obtain ⟨others, hothers, rfl⟩ := Option.map_eq_some_iff.mp h
      obtain ⟨heq, hall⟩ := ih hothers
      exact ⟨by rw [heq]; rfl, List.forall_mem_cons.mpr ⟨hexportable, hall⟩⟩
    · cases h

/-- If a result is taken at all, it is that of the declaration, where a function without one returns
nothing and a constructor has none. -/
theorem eq_of_resultType? {result? : Option NativeType} (h : resultType? mapper d = some result?) :
    (result? = if d.kind = .constructor then none else some (d.returnType?.getD (.builtin .void))) ∧
      ∀ type, result? = some type → mapper.isExportable type = true := by
  simp only [resultType?] at h
  split at h
  · rename_i hkind
    rw [← Option.some.inj h]
    exact ⟨by rw [if_pos (beq_iff_eq.mp hkind)], fun _ htype => by cases htype⟩
  · rename_i hkind
    split at h
    · rename_i hexportable
      rw [← Option.some.inj h]
      exact ⟨by rw [if_neg (by simpa using hkind)],
        fun type htype => Option.some.inj htype ▸ hexportable⟩
    · cases h

/-- A function is exported if it is neither deleted nor an operator, and its types cross the
bridge. -/
theorem eq_of_functionNode? (h : functionNode? mapper m d header? = some n) :
    n = d.exported header? m.symbol m.name ∧
      (d.flags.isDeleted = false ∧ d.name.startsWith "operator" = false) ∧
      (∀ type ∈ n.types, mapper.isExportable type = true) ∧
          (n.kind = .constructor → m.flags.isPure = false) := by
  have hvariable : d.kind.isVariable = false := by
    obtain ⟨hkind, hcallable, -⟩ := kind_of_functionNode? h
    exact hkind ▸ Node.isVariable_of_isCallable hcallable
  simp only [functionNode?, Option.bind_eq_bind] at h
  split at h
  · cases h
  · rename_i hordinary
    obtain ⟨name, hname, h⟩ := Option.bind_eq_some_iff.mp h
    obtain ⟨result?, hresult, h⟩ := Option.bind_eq_some_iff.mp h
    obtain ⟨parameters, hparameters, h⟩ := Option.bind_eq_some_iff.mp h
    obtain ⟨hparameters, hall⟩ := eq_of_parametersFrom? hparameters
    obtain ⟨hresult, hexportable⟩ := eq_of_resultType? hresult
    have hnamed : name = (if d.kind = .constructor then m.name else d.name) ∧
        (d.kind = .constructor → m.flags.isPure = false) := by
      simp only [functionName?] at hname
      split at hname <;> simp_all
    cases h
    refine ⟨?_, by simpa using hordinary, fun type htype => ?_, hnamed.2⟩
    · simp only [Declaration.exported, hvariable, Bool.false_eq_true, if_false, hnamed.1,
        hparameters, hresult]
    · simp only [Node.types, Option.toList_none, List.append_nil, List.mem_append,
        Option.mem_toList] at htype
      rcases htype with htype | htype
      · obtain ⟨q, hq, hqtype⟩ := List.mem_filterMap.mp htype
        rw [hparameters] at hq
        obtain ⟨⟨p, i⟩, hp, rfl⟩ := List.mem_map.mp hq
        exact Option.some.inj hqtype ▸ hall p (List.fst_mem_of_mem_zipIdx hp)
      · exact hexportable type htype

/-- A variable is exported if its type crosses the bridge. -/
theorem eq_of_variableNode? (hkind : d.kind.isVariable = true)
    (h : variableNode? mapper m d header? = some n) :
    n = d.exported header? m.symbol m.name ∧ n.type?.isSome = true ∧
      ∀ type ∈ n.types, mapper.isExportable type = true := by
  have hordinary : d.kind ≠ .constructor := fun heq => by simp [heq, Kind.isVariable] at hkind
  simp only [variableNode?, Option.bind_eq_bind] at h
  obtain ⟨type, htype, h⟩ := Option.bind_eq_some_iff.mp h
  split at h
  · cases h
  · rename_i hexportable
    cases h
    refine ⟨?_, rfl, fun other hother => ?_⟩
    · simp only [Declaration.exported, hkind, if_true, if_neg hordinary, Declaration.isConstant,
        htype]
      rfl
    · simp only [Node.types, List.filterMap_nil, Option.toList_none, List.nil_append,
        Option.toList_some, List.mem_singleton] at hother
      rw [hother]
      simpa using hexportable

/-- A function or variable that the second pass adds is what its declaration is exported as. -/
theorem eq_of_memberNode? {w : Workspace} {parent : NodeId} (hm : w.forest.content? parent = some m)
    (h : memberNode? s w header? parent d = some n) (hmember : n.isMember = true) :
    n = d.exported header? m.symbol m.name ∧ (isCallable n = true →
      d.flags.isDeleted = false ∧ d.name.startsWith "operator" = false) ∧
      (n.kind.isVariable = true → n.type?.isSome = true) ∧
      (∀ type ∈ n.types, (s.mapper w m.symbol).isExportable type = true) ∧
      (n.kind = .constructor → m.flags.isPure = false) := by
  obtain rfl := (Workspace.node_unlinked hm).symm
  rcases memberNode?_cases h with ⟨hcallable, hn, -⟩ | ⟨hvariable, hn, -⟩ | ⟨hbase, -⟩
  · obtain ⟨heq, hordinary, htypes, hconstructor⟩ := eq_of_functionNode? hn
    refine ⟨heq, fun _ => hordinary, fun hvariable => ?_, htypes, hconstructor⟩
    rw [Node.isVariable_of_isCallable hcallable] at hvariable
    cases hvariable
  · obtain ⟨heq, htype, htypes⟩ := eq_of_variableNode? ((kind_of_variableNode? hn).1 ▸ hvariable) hn
    refine ⟨heq, fun hcallable => ?_, fun _ => htype, htypes, fun hconstructor => ?_⟩
    · rw [Node.isVariable_of_isCallable hcallable] at hvariable
      cases hvariable
    · rw [hconstructor] at hvariable
      cases hvariable
  · simp [Node.isMember, isCallable, hbase, Kind.isVariable] at hmember

end Export.Members

namespace Origin.Admitted

variable {s : Surroundings} {mapper mapper' : Mapper} {m n : Node} {o : Origin}

/-- What is admitted stays admitted for a mapper that knows more types. -/
theorem mono (h : o.Admitted s mapper m n) (hbelow : mapper.Below mapper') :
    o.Admitted s mapper' m n :=
  { h with types := fun type htype => hbelow.isExportable (h.types type htype) }

/-- What the second pass adds for a public declaration that the rules select has been admitted. -/
theorem of_memberNode? {w : Workspace} {parent : NodeId} (hm : w.forest.content? parent = some m)
    (hscope : m.symbol = o.scope) (haccess : o.declaration.access = .exposed)
    (hselected : s.rules.symbols.selects (Symbol.qualify m.symbol o.declaration.name) = true)
    (h : Members.memberNode? s w (some o.unit.path) parent o.declaration = some n)
    (hmember : n.isMember = true) :
    o.Admitted s (s.mapper w m.symbol) m n := by
  obtain ⟨heq, hfunction, hvalue, htypes, hconstructor⟩ := Members.eq_of_memberNode? hm h hmember
  refine ⟨hscope, ?_, haccess, hselected, hfunction, hvalue, htypes, hconstructor⟩
  rw [heq, Declaration.exported_unlinked, hscope]
  rfl

end Origin.Admitted

/-- Whether a tree consists of namespaces and types, the symbols of which tell where they stand: it
is ready for members. -/
structure Framed (s : Surroundings) (w : Workspace) : Prop where
  built : Built (fun _ n => n.kind.isFrame = true) s w
  titled : Titled w
  root : w.forest.content? s.root = some Node.root

namespace Framed

variable {g : Generator} {others : List NodeId} {s : Surroundings} {w : Workspace}

/-- The first pass makes namespaces, types and enumerators only. -/
theorem containers (h : Framed s w) (units : List HeaderUnit) :
    Framed s (RawPass.containers.apply s units w) := by
  have hgrows : Relation.ReflTransGen (Grows (Containers.Adds fun _ _ => True)) w
      (RawPass.containers.apply s units w) :=
    RawPass.containers_grows h.built.rooted
      fun u _ => Declaration.nested_of_forall (fun _ _ => trivial) u.root .file
  refine ⟨?_, h.titled.grows Containers.Adds.titled hgrows,
    (h.built.wellFormed.kept_of_grows Interop.Containers.Adds.holds hgrows h.root).1⟩
  generalize RawPass.containers.apply s units w = w' at hgrows
  induction hgrows with
  | refl => exact h.built
  | tail _ hstep ih =>
    cases hstep with
    | grow hparent hadds =>
      refine ih.grow hparent hadds.fresh (Kind.isContainer_of_isHolder hadds.container) ?_
      rcases hadds.kind with ⟨hkind | hkind | hkind, -⟩ | ⟨hkind, -⟩ <;> simp [hkind, Kind.isFrame]

/-- A namespace that starts anew has nothing around its root, so the root is the only place that
members may be added to. -/
theorem restart (hg : Generator.Reached g.workspace) (hroot : s.root = (g.restart others).1) :
    Framed s (g.restart others).2 :=
  ⟨Generator.restart_built hg.wellFormed hroot, Generator.restart_titled hg.titled others,
    hroot ▸ (Generator.restart_root hg.wellFormed).1⟩

end Framed

namespace Export.Members

variable {s : Surroundings} {units : List HeaderUnit} {w₀ w w' : Workspace} {o : Origin}
    {u : HeaderUnit}
  {around : List String} {d : Declaration} {parent id : NodeId} {m n : Node}

/-- Being the same function does not depend on which of two comes first. -/
theorem isSameFunction_comm (n n' : Node) : isSameFunction n n' = isSameFunction n' n := by
  simp only [isSameFunction, beq_eq_decide]
  simp only [eq_comm]

theorem isSameFunction_unlinked (n n' : Node) :
    isSameFunction n n'.unlinked = isSameFunction n n' :=
  rfl

/-- What the second pass over `units` has kept up on its way from `w₀` to `w`. -/
structure Gated (s : Surroundings) (units : List HeaderUnit) (w₀ w : Workspace) : Prop where
  wellFormed : w.forest.WellFormed
  origin : ∀ id n, w₀.forest.content? id = none → w.forest.content? id = some n →
    n.isMember = true → ∃ o ∈ originsIn units, ∃ parent m, w.forest.parent? id = some parent ∧
      w.forest.content? parent = some m ∧ o.Admitted s (s.mapper w m.symbol) m n
  functions : ∀ c c' n n', w₀.forest.content? c = none → w.forest.content? c = some n →
    w.forest.content? c' = some n' → isCallable n = true → c ≠ c' →
      w.forest.parent? c = w.forest.parent? c' →
    isSameFunction n n' = false
  values : ∀ id n, w₀.forest.content? id = none → w.forest.content? id = some n →
    n.kind.isVariable = true → w.symbols.entries.get? n.symbol = some id

/-- Before anything is added nothing has to be kept up but the form of the trees. -/
theorem Gated.refl (hf : w.forest.WellFormed) : Gated s units w w where
  wellFormed := hf
  origin id n hnone hn := by simp [hnone] at hn
  functions c c' n n' hnone hn := by simp [hnone] at hn
  values id n hnone hn := by simp [hnone] at hn

/-- A variable is registered under its symbol alone. -/
theorem symbolKeys_of_isVariable (h : n.kind.isVariable = true) : symbolKeys n = [n.symbol] :=
  if_pos h

section Addition

/- A member of `d` is added below `parent`. -/
variable (hopen : IsOpen s u around parent w) (hn : memberNode? s w (some u.path) parent d = some n)
include hopen hn

/-- Adding a node changes no other one. -/
theorem content?_added (key : NodeId) :
    (w.grow parent n (unused w (symbolKeys n))).forest.content? key =
    if key = w.forest.nextId then some n else w.forest.content? key := by
  obtain ⟨m, -, -, hfresh, -⟩ := added_placed hopen hn
  exact Workspace.content?_grow hfresh w parent key _

theorem content?_added_of_some (hm : w.forest.content? id = some m) :
    (w.grow parent n (unused w (symbolKeys n))).forest.content? id = some m := by
  obtain ⟨k, -, -, hfresh, -⟩ := added_placed hopen hn
  exact Workspace.content?_grow_of_some hfresh hm

/-- A new node has the parent that it is added to, and no other node gets a new one. Well-formedness
is needed since a stale link to the new place would count as well. -/
theorem parent?_added (hf : w.forest.WellFormed) (key : NodeId) :
    (w.grow parent n (unused w (symbolKeys n))).forest.parent? key =
      if key = w.forest.nextId then some parent else w.forest.parent? key := by
  obtain ⟨m, hm, -, hfresh, -⟩ := added_placed hopen hn
  exact hf.parent?_pushBelow hm hfresh key

/-- A mapper still knows all its types when a node is added, since names that are taken are not
given away. -/
theorem mapper_below_added (scope : String) :
    (s.mapper w scope).Below (s.mapper (w.grow parent n (unused w (symbolKeys n))) scope) := by
  obtain ⟨m, -, -, hfresh, -⟩ := added_placed hopen hn
  exact Workspace.mapper_below
    (fun _ htype => htype.grow hfresh (.inr fun _ hname => symbol?_of_mem_unused hname))
    fun _ _ hmem => hmem

/-- A function that is added is the same as nothing that stands beside it. -/
theorem isSameFunction_sibling (hf : w.forest.WellFormed) {c : NodeId} {k : Node}
    (hc : w.forest.parent? c = some parent) (hk : w.forest.content? c = some k)
    (hcallable : isCallable n = true) : isSameFunction n k = false := by
  obtain ⟨m, hm, -⟩ := added_placed hopen hn
  rcases memberNode?_cases hn with ⟨-, -, hnew⟩ | ⟨hvariable, -⟩ | ⟨hbase, -⟩
  · have hchildren : (w.node parent).children = w.forest.children parent := by
      obtain ⟨p, hp, -⟩ := Option.map_eq_some_iff.mp hm
      rw [Workspace.node_of_node? hp, Forest.children_of_node? hp]
    rw [← Workspace.node_unlinked hk, isSameFunction_unlinked]
    exact hnew c (hchildren ▸ (hf.links parent c).mpr hc)
  · simp [Node.isVariable_of_isCallable hcallable] at hvariable
  · simp [isCallable, hbase] at hcallable

namespace Gated

variable (h : Gated s units w₀ w)
include h

/-- Of two functions side by side at most one is new, and it is the same as no old one. -/
theorem functions_added {c c' : NodeId} {k k' : Node} (hnone : w₀.forest.content? c = none)
    (hk : (w.grow parent n (unused w (symbolKeys n))).forest.content? c = some k)
    (hk' : (w.grow parent n (unused w (symbolKeys n))).forest.content? c' = some k')
    (hcallable : isCallable k = true) (hne : c ≠ c')
    (hsame : (w.grow parent n (unused w (symbolKeys n))).forest.parent? c =
      (w.grow parent n (unused w (symbolKeys n))).forest.parent? c') :
          isSameFunction k k' = false := by
  have hf := h.wellFormed
  rw [content?_added hopen hn] at hk hk'
  rw [parent?_added hopen hn hf, parent?_added hopen hn hf] at hsame
  by_cases hc : c = w.forest.nextId
  · have hc' : c' ≠ w.forest.nextId := fun heq => hne (hc.trans heq.symm)
    rw [if_pos hc] at hk hsame
    rw [if_neg hc'] at hk' hsame
    obtain rfl := Option.some.inj hk
    exact isSameFunction_sibling hopen hn hf hsame.symm hk' hcallable
  · rw [if_neg hc] at hk hsame
    by_cases hc' : c' = w.forest.nextId
    · rw [if_pos hc'] at hk' hsame
      obtain rfl := Option.some.inj hk'
      rw [isSameFunction_comm]
      by_cases hnew : isCallable n = true
      · exact isSameFunction_sibling hopen hn hf hsame hk hnew
      · have hkind : n.kind ≠ k.kind := by
          intro heq
          apply hnew
          rw [isCallable_iff, heq]
          exact isCallable_iff.mp hcallable
        simp [isSameFunction, hkind.symm]
    · rw [if_neg hc'] at hk' hsame
      exact h.functions c c' k k' hnone hk hk' hcallable hne hsame

/-- A variable that has been added is found under its symbol, if it was when it was added: nothing
is registered under a name twice. -/
theorem values_added {id : NodeId} {k : Node} (hnone : w₀.forest.content? id = none)
    (hk : (w.grow parent n (unused w (symbolKeys n))).forest.content? id = some k)
    (hvariable : k.kind.isVariable = true) :
    (w.grow parent n (unused w (symbolKeys n))).symbols.entries.get? k.symbol = some id := by
  rw [content?_added hopen hn] at hk
  by_cases hid : id = w.forest.nextId
  · rw [if_pos hid] at hk
    obtain rfl := Option.some.inj hk
    rcases memberNode?_cases hn with ⟨hcallable, -⟩ | ⟨-, -, hunused⟩ | ⟨hbase, -⟩
    · simp [Node.isVariable_of_isCallable hcallable] at hvariable
    · rw [Workspace.get?_grow, if_pos, hid]
      simp [unused, symbolKeys_of_isVariable hvariable, hunused]
    · simp [hbase, Kind.isVariable] at hvariable
  · rw [if_neg hid] at hk
    exact get?_grow_unused (h.values id k hnone hk hvariable) ⟨k, hk⟩

end Gated

end Addition

section Origin

/- A member is added for an origin. -/
variable (hopen : IsOpen s o.unit o.around parent w) (ho : o ∈ originsIn units)
  (haccess : o.declaration.access = .exposed)
  (hselected : s.rules.symbols.selects
    (Symbol.qualify (w.node parent).symbol o.declaration.name) = true)
  (hn : memberNode? s w (some o.unit.path) parent o.declaration = some n)
include hopen ho haccess hselected hn

/-- What has been kept of earlier nodes survives the addition of one more. -/
theorem Gated.origin_added (h : Gated s units w₀ w) {id : NodeId} {k : Node}
    (hnone : w₀.forest.content? id = none)
    (hk : (w.grow parent n (unused w (symbolKeys n))).forest.content? id = some k)
    (hmember : k.isMember = true) :
    ∃ o ∈ originsIn units, ∃ p m, (w.grow parent n (unused w (symbolKeys n))).forest.parent? id =
      some p ∧ (w.grow parent n (unused w (symbolKeys n))).forest.content? p = some m ∧
      o.Admitted s (s.mapper (w.grow parent n (unused w (symbolKeys n))) m.symbol) m k := by
  obtain ⟨m, hm, hjoins, -⟩ := hopen.node
  rw [content?_added hopen hn] at hk
  rw [parent?_added hopen hn h.wellFormed]
  by_cases hid : id = w.forest.nextId
  · rw [if_pos hid] at hk
    obtain rfl := Option.some.inj hk
    rw [← Workspace.node_unlinked hm] at hjoins
    have hadmitted := Origin.Admitted.of_memberNode? hm
      (Workspace.node_unlinked hm ▸ hjoins.symbol) haccess
      (by rw [← Workspace.node_unlinked hm]; exact hselected) hn hmember
    exact ⟨o, ho, parent, m, if_pos hid, content?_added_of_some hopen hn hm,
      hadmitted.mono (mapper_below_added hopen hn _)⟩
  · rw [if_neg hid] at hk
    obtain ⟨o', ho', p, m', hp, hm', hadmitted⟩ := h.origin id k hnone hk hmember
    exact ⟨o', ho', p, m', by rw [if_neg hid, hp], content?_added_of_some hopen hn hm',
      hadmitted.mono (mapper_below_added hopen hn _)⟩

/-- What is added keeps the gate. -/
theorem Gated.add (h : Gated s units w₀ w) :
    Gated s units w₀ (w.grow parent n (unused w (symbolKeys n))) := by
  obtain ⟨m, hm, hcontainer, hfresh, -⟩ := added_placed hopen hn
  exact ⟨h.wellFormed.pushBelow hm hfresh hcontainer,
    fun _ _ => h.origin_added hopen ho haccess hselected hn,
    fun _ _ _ _ => h.functions_added hopen hn,
    fun _ _ => h.values_added hopen hn⟩

end Origin

/-- A run of the second pass keeps up what each of its steps does. -/
theorem Gated.run {log : List Origin} (hlog : log.Sublist (originsIn units))
    (hrun : Run (Step s) w log w') (hf : w.forest.WellFormed) : Gated s units w w' := by
  refine hrun.induction (fun ho hstep hgated => ?_) (Gated.refl hf)
  cases hstep with
  | stay => exact hgated
  | add hopen haccess hselected hn => exact hgated.add hopen (hlog.subset ho) haccess hselected hn

/-- Whether all that the second pass has added was admitted, and is there once: each function and
variable of the tree was added, comes from an admitted declaration, and is the same as no other
one. -/
structure Sound (s : Surroundings) (units : List HeaderUnit) (before after : Workspace) : Prop where
  added : ∀ id n, after.forest.Within s.root id → after.forest.node? id = some n →
    n.isMember = true → before.forest.node? id = none
  origin : ∀ id n, before.forest.node? id = none → after.forest.node? id = some n →
    n.isMember = true → ∃ o ∈ originsIn units, ∃ parent, after.forest.parent? id = some parent ∧
      o.Admitted s (s.mapper after (after.node parent).symbol) (after.node parent) n
  functions : ∀ parent c c', c ∈ after.forest.children parent → c' ∈ after.forest.children parent →
    c ≠ c' → before.forest.node? c = none → isCallable (after.node c) = true →
    isSameFunction (after.node c) (after.node c') = false
  values : ∀ id id' n n', after.forest.Within s.root id → after.forest.Within s.root id' →
    after.forest.node? id = some n → after.forest.node? id' = some n' → n.kind.isVariable = true →
    n'.kind.isVariable = true → n.symbol = n'.symbol → id = id'

/-- In a tree of namespaces and types, all other nodes are the second pass's. -/
theorem added_of_isFrame (h : Framed s w)
    (hwithin : (RawPass.members.apply s units w).forest.Within s.root id)
    (hn : (RawPass.members.apply s units w).forest.content? id = some n)
    (hframe : n.kind.isFrame = false) (hfile : n.kind ≠ .file) : w.forest.content? id = none := by
  by_contra hsome
  obtain ⟨k, hk⟩ := Option.ne_none_iff_exists'.mp hsome
  obtain ⟨hkept, hbefore⟩ :=
    h.built.wellFormed.kept_of_grows Members.Adds.holds (RawPass.members_grows h.built.rooted) hk
  obtain rfl := Option.some.inj (hn.symm.trans hkept)
  by_cases hroot : id = s.root
  · obtain rfl := Option.some.inj ((hroot ▸ hk).symm.trans h.root)
    exact hfile rfl
  · obtain ⟨-, -, -, -, hkind⟩ := h.built.nodes id n (hbefore s.root hwithin) hroot hk
    simp [hframe] at hkind

end Export.Members

end Interop
