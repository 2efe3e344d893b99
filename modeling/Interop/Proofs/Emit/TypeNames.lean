import Mathlib.Algebra.GroupWithZero.Nat
import Interop.Proofs.Emit.Around

namespace Interop

open Overlay Emit

namespace Mapper

variable {m : Mapper} {id : NodeId} {n : Node} {type : NativeType}

/-- Whether a type refers to an exported type and no type map applies: by value or by reference, and
to a class also by a pointer or by a smart pointer. -/
inductive Refers (m : Mapper) (id : NodeId) : NativeType → Prop
  | value {name : String} (hmap : m.typeMap? (.named name) = none) (hname : m.typeNamed? name =
      some id) :
      Refers m id (.named name)
  | synonym {name : String} {target : NativeType} (hmap : m.typeMap? (.synonym name target) = none)
      (hname : m.typeNamed? name = some id) : Refers m id (.synonym name target)
  | qualified {inner : NativeType} {isConst isVolatile : Bool}
      (hmap : m.typeMap? (.qualified inner isConst isVolatile) = none) (h : Refers m id inner) :
      Refers m id (.qualified inner isConst isVolatile)
  | reference {referee : NativeType} {kind : RefKind}
      (hmap : m.typeMap? (.reference referee kind) = none)
      (hreferee : m.typeMap? referee = none) (hbuiltin : ∀ kind,
        referee.unqualified ≠ .builtin kind)
      (happlied : ∀ template arguments, referee.unqualified ≠ .applied template arguments)
      (hname : m.typeNamed? referee.typeName = some id) : Refers m id (.reference referee kind)
  | pointer {pointee : NativeType} (hclass : (m.forest.node? id).any (·.kind == .classType) = true)
      (hmap : m.typeMap? (.pointer pointee) = none)
        (hdirect : (NativeType.pointer pointee).crossesDirectly = false)
      (hname : m.typeNamed? pointee.typeName = some id) : Refers m id (.pointer pointee)
  | smart {template : String} {arguments : List NativeType} {first : NativeType}
      (hclass : (m.forest.node? id).any (·.kind == .classType) = true)
      (hmap : m.typeMap? (.applied template arguments) = none) (hfirst : arguments.head? =
        some first)
      (hname : m.typeNamed? first.typeName = some id) : Refers m id (.applied template arguments)
  | smartReference {referee : NativeType} {kind : RefKind} {template : String}
      {arguments : List NativeType}
      (hmap : m.typeMap? (.reference referee kind) = none) (hreferee : m.typeMap? referee = none)
      (happlied : referee.unqualified = .applied template arguments)
        (h : Refers m id (.applied template arguments)) :
      Refers m id (.reference referee kind)

/-- The name by which signatures refer to an exported type. -/
def typeName (m : Mapper) (id : NodeId) (n : Node) : String :=
  ".".intercalate (m.forest.managedNamespace id m.rules.name ++ [n.name])

/-- A type that refers to a class, or to an enum but not through a pointer, is shown under the name
of its node. -/
theorem ofNode?_managed (hn : m.forest.node? id = some n) {indirection : Indirection}
    (hkind : n.kind = .classType ∨ n.kind = .enumeration ∧ indirection ≠ .pointer) :
    ∃ info, m.ofNode? id indirection = some info ∧ info.managed = m.typeName id n := by
  unfold ofNode?
  rw [hn, Option.bind_some]
  rcases hkind with hkind | ⟨hkind, hvalue⟩
  · simp only [hkind]
    exact ⟨_, rfl, rfl⟩
  · simp only [hkind]
    cases indirection with
    | pointer => exact absurd rfl hvalue
    | value => exact ⟨_, rfl, rfl⟩
    | reference => exact ⟨_, rfl, rfl⟩

theorem kind_of_any (hn : m.forest.node? id = some n)
    (h : (m.forest.node? id).any (·.kind == .classType) = true) :
    n.kind = .classType := by
  rw [hn, Option.any_some] at h
  exact beq_iff_eq.mp h

/-- However a type refers to an exported type, the managed type is the name of the exported one. -/
theorem Refers.resolve? (h : m.Refers id type) (hn : m.forest.node? id = some n)
    (hkind : n.kind = .classType ∨ n.kind = .enumeration) :
    ∃ info, m.resolve? type = some info ∧ info.managed = m.typeName id n := by
  have hvalue : ∀ indirection, indirection ≠ .pointer →
      ∃ info, m.ofNode? id indirection = some info ∧ info.managed = m.typeName id n :=
    fun indirection hne => ofNode?_managed hn (hkind.imp_right fun hkind => ⟨hkind, hne⟩)
  induction h with
  | value hmap hname =>
    rw [Mapper.resolve?, hmap, ofName?, hname]
    exact hvalue .value (by decide)
  | synonym hmap hname =>
    rw [Mapper.resolve?, hmap, hname]
    exact hvalue .value (by decide)
  | qualified hmap _ ih =>
    rw [Mapper.resolve?, hmap]
    exact ih
  | @reference referee kind hmap hreferee hbuiltin happlied hname =>
    rw [Mapper.resolve?, hmap]
    simp only
    unfold ofReference?
    split
    · rename_i hunqualified
      exact absurd hunqualified (hbuiltin _)
    · rw [hreferee]
      split
      · rename_i heq
        cases heq
      · rename_i hunqualified
        exact absurd hunqualified (happlied _ _)
      · rw [ofName?, hname]
        cases kind with
        | lvalue => exact hvalue .reference (by decide)
        | rvalue => exact hvalue .value (by decide)
  | pointer hclass hmap hdirect hname =>
    rw [Mapper.resolve?, hmap]
    simp only
    rw [if_neg (by rw [hdirect]; exact Bool.false_ne_true), ofName?, hname]
    exact ofNode?_managed hn (.inl (kind_of_any hn hclass))
  | smart hclass hmap hfirst hname =>
    obtain ⟨info, hinfo, hmanaged⟩ :=
      @ofNode?_managed _ _ _ hn .pointer (.inl (kind_of_any hn hclass))
    rw [Mapper.resolve?, ofApplied?, hmap, hfirst]
    simp only [Option.map_some, Option.bind_some, hname, Option.bind_eq_bind, hinfo]
    exact ⟨_, rfl, hmanaged⟩
  | smartReference hmap hreferee happlied _ ih =>
    obtain ⟨info, hinfo, hmanaged⟩ := ih
    rw [Mapper.resolve?, hmap]
    simp only
    unfold ofReference?
    rw [happlied, hreferee]
    exact ⟨info, hinfo, hmanaged⟩

end Mapper

namespace Emit

/-- How long a dotted name is. -/
theorem length_dotted (names : List String) (name : String) :
    (".".intercalate (names ++ [name])).length = (names.map fun part =>
      part.length + 1).sum + name.length := by
  induction names with
  | nil => simp
  | cons first rest ih =>
    obtain ⟨next, others, hrest⟩ : ∃ next others, rest ++ [name] = next :: others :=
      List.exists_cons_of_ne_nil (by simp)
    rw [List.cons_append, hrest, String.intercalate_cons_cons, ← hrest, String.length_append,
      String.length_append, ih, List.map_cons, List.sum_cons]
    have hdot : ".".length = 1 := rfl
    omega

/-- Leaving out the classes of a path makes a dotted name shorter. -/
theorem dotted_spaces_iff (around : List Block) (name : String) :
    ".".intercalate (around.filterMap Block.space? ++ [name]) =
      ".".intercalate (around.map Block.name ++ [name]) ↔
      ∀ block ∈ around, block.class? = none := by
  constructor
  · intro heq
    have hlengths : ((around.filterMap Block.space?).map fun part => part.length + 1).sum =
        ((around.map Block.name).map fun part => part.length + 1).sum := by
      have hlength := congrArg String.length heq
      rw [length_dotted, length_dotted] at hlength
      omega
    have hall : ∀ blocks : List Block,
        ((blocks.filterMap Block.space?).map fun part => part.length + 1).sum ≤
            ((blocks.map Block.name).map fun part => part.length + 1).sum ∧
          (((blocks.filterMap Block.space?).map fun part => part.length + 1).sum =
              ((blocks.map Block.name).map fun part => part.length + 1).sum →
            ∀ block ∈ blocks, block.class? = none) := by
      intro blocks
      induction blocks with
      | nil => exact ⟨Nat.le_refl _, fun _ _ hmem => by cases hmem⟩
      | cons first rest ih =>
        obtain ⟨hle, hnone⟩ := ih
        cases first with
        | nameSpace space =>
          simp only [List.filterMap_cons, Block.space?, List.map_cons, Block.name, List.sum_cons,
            List.mem_cons, forall_eq_or_imp, Block.class?, true_and]
          exact ⟨by omega, fun heq => hnone (by omega)⟩
        | classType class_ =>
          simp only [List.filterMap_cons, Block.space?, List.map_cons, Block.name, List.sum_cons]
          exact ⟨by omega, fun heq => by omega⟩
    exact (hall around).2 hlengths
  · intro hnone
    have hspaces : around.filterMap Block.space? = around.map Block.name := by
      rw [← List.filterMap_eq_map]
      refine List.filterMap_congr fun block hblock => ?_
      cases block with
      | nameSpace space => rfl
      | classType class_ => cases hnone _ hblock
    rw [hspaces]

end Emit

/-- Every class and every enum that no enum encloses is declared inside of the blocks around it, and
referred to by its namespaces among them. So it is referred to by the name that it is declared under
if and only if no class is around. -/
theorem Passes.type_names_iff {g : Generator} {others : List NodeId} {s : Surroundings}
    (hg : Generator.Reached g.workspace) (hroot : s.root = (g.restart others).1) (p : Passes)
    (units : List HeaderUnit) :
    let made := (p.apply s units (g.restart others).2).1
    ∀ id n, made.forest.Within s.root id → made.forest.node? id = some n →
      n.kind = .classType ∨ n.kind = .enumeration →
      (∀ outer e, made.forest.content? outer = some e → e.kind = .enumeration →
        made.forest.Within outer id → outer = id) →
      let around := blocksAround made.forest id s.rules.name
      (.nameSpace s.rules.name :: around, .type n.name) ∈
        (ManagedFile.ofTree s made s.root).entries ∧
          ∀ scope type, (s.mapper made scope).Refers id type →
          ∃ info, (s.mapper made scope).resolve? type = some info ∧
            info.managed = ".".intercalate (around.filterMap Block.space? ++ [n.name]) ∧
            (info.managed = ".".intercalate (around.map Block.name ++ [n.name]) ↔
              ∀ block ∈ around, block.class? = .none) := by
  intro made id n hwithin hn hkind hopen around
  have hbare := Generator.restart_bareTree hg.wellFormed hroot
  have hrooted : Rooted s made := Passes.apply_rooted hbare.rooted p
  have htop : made.forest.parent? s.root = .none := Passes.apply_top hbare.rooted hbare.top p
  have hsettled : AllSettled made :=
    Passes.apply_settled hbare.rooted (Generator.restart_settled hg.wellFormed hg.settled others) p
  have hf := hrooted.wellFormed
  have hnode := Workspace.node_of_node? hn
  obtain ⟨r, hr, hfile⟩ := hrooted.root
  have hspot : spot s made id = .nameSpace s.rules.name :: around :=
    spot_eq hf htop ((Globals.node_kind hr).trans hfile) hwithin
  constructor
  · have hbound : made.forest.size - made.forest.rank s.root < made.forest.depthBound := by
      unfold Forest.depthBound
      omega
    have hmem : id ∈ made.forest.preorder isClosed made.forest.depthBound s.root := by
      refine Forest.mem_preorder hf hbound hwithin ⟨_,
        Forest.content?_of_node? hn⟩ fun outer e he hclosed hbelow => ?_
      exact hopen outer e he (beq_iff_eq.mp hclosed) hbelow
    rw [← hspot, ← hnode]
    exact mem_entries_ofTree hrooted htop hsettled hmem (hnode ▸ hkind)
  · intro scope type hrefers
    obtain ⟨info, hinfo, hmanaged⟩ := hrefers.resolve? hn hkind
    have hname : info.managed = ".".intercalate (around.filterMap Block.space? ++ [n.name]) := by
      rw [hmanaged, Mapper.typeName, managedNamespace_eq]
      rfl
    refine ⟨info, hinfo, hname, ?_⟩
    rw [hname]
    exact dotted_spaces_iff around n.name

/-- A class and an enum in a namespace, which are referred to by the names that they are declared
by. -/
theorem Passes.type_names_iff_namespace :
    let class_ : Declaration :=
      { kind := .classType, name := "A", line := 1, flags := { isDefinition := true } }
    let u := HeaderUnit.ofDeclarations
      ⟨"A.h"⟩ [{ kind := .nameSpace, name := "N", line := 1, children := [class_] }]
    let g := Generator.ofDirectories ⟨""⟩ ⟨"/o"⟩
    let s : Surroundings :=
      { settings := g.settings, rules := { name := "M" }, root := (g.restart []).1 }
    let made := (Passes.standard.apply s [u] (g.restart []).2).1
    ([.nameSpace "M", .nameSpace "N"], .type "A") ∈ (ManagedFile.ofTree s made s.root).entries ∧
      ∃ info, (s.mapper made "N").resolve? (.named "A") = some info ∧ info.managed = "N.A" := by
  intro class_ u g s made
  have hclass : made.forest.parent? ⟨2⟩ = some ⟨1⟩ := by decide +kernel
  have hspace : made.forest.parent? ⟨1⟩ = some s.root := by decide +kernel
  have htop : made.forest.parent? s.root = .none := by decide +kernel
  obtain ⟨n, hn⟩ : ∃ n, made.forest.node? ⟨2⟩ = some n :=
    Option.isSome_iff_exists.mp (by decide +kernel)
  have hnode : made.node ⟨2⟩ = n := Workspace.node_of_node? hn
  have hkind : n.kind = .classType :=
    hnode ▸ (by decide +kernel : (made.node ⟨2⟩).kind = .classType)
  have hname : n.name = "A" := hnode ▸ (by decide +kernel : (made.node ⟨2⟩).name = "A")
  have hopen : ∀ outer e, made.forest.content? outer = some e → e.kind = .enumeration →
      made.forest.Within outer ⟨2⟩ → outer = ⟨2⟩ := by
    have hspaces : ∀ outer ∈ [⟨1⟩, s.root],
        (made.forest.content? outer).any (·.kind == .enumeration) = false := by
      decide +kernel
    intro outer e he henum hwithin
    cases hwithin with
    | self => rfl
    | step hparent hwithin =>
      obtain rfl := Option.some.inj (hclass.symm.trans hparent)
      have hmem : outer ∈ [⟨1⟩, s.root] := by
        cases hwithin with
        | self => exact List.mem_cons_self
        | step hparent hwithin =>
          obtain rfl := Option.some.inj (hspace.symm.trans hparent)
          exact List.mem_cons_of_mem _ (List.mem_singleton.mpr (hwithin.eq_of_root htop).symm)
      have hfalse := hspaces outer hmem
      rw [he, Option.any_some, henum] at hfalse
      cases hfalse
  obtain ⟨hdeclared, hnames⟩ := Passes.type_names_iff (s := s) .start rfl Passes.standard [u] ⟨2⟩ n
    (.step hclass (.step hspace .self)) hn (.inl hkind) hopen
  have haround : blocksAround made.forest ⟨2⟩ s.rules.name = [.nameSpace "N"] := by decide +kernel
  change (.nameSpace s.rules.name :: blocksAround made.forest ⟨2⟩ s.rules.name,
    Entry.type n.name) ∈ _ at hdeclared
  rw [haround, hname] at hdeclared
  obtain ⟨info, hinfo, hmanaged, -⟩ :=
    hnames "N" (.named "A") (.value (by decide +kernel) (by decide +kernel))
  refine ⟨hdeclared, info, hinfo, ?_⟩
  rw [hmanaged]
  change ".".intercalate ((blocksAround made.forest ⟨2⟩ s.rules.name).filterMap Block.space? ++
    [n.name]) = _
  rw [haround, hname]
  rfl

/-- A class that is declared in another class is referred to as if it stood in the namespace. -/
theorem Passes.nested_class_misnamed :
    let class_ (name : String) (children : List Declaration) : Declaration :=
      { kind := .classType, name, line := 1, flags := { isDefinition := true }, children }
    let u := HeaderUnit.ofDeclarations ⟨"A.h"⟩ [class_ "A" [class_ "B" []]]
    let g := Generator.ofDirectories ⟨""⟩ ⟨"/o"⟩
    let s : Surroundings :=
      { settings := g.settings, rules := { name := "M" }, root := (g.restart []).1 }
    let made := (Passes.standard.apply s [u] (g.restart []).2).1
    ([.nameSpace "M", .classType "A"], .type "B") ∈ (ManagedFile.ofTree s made s.root).entries ∧
      (∃ id, made.forest.Within s.root id ∧ (s.mapper made "").Refers id (.named "A::B")) ∧
      ((s.mapper made "").resolve? (.named "A::B")).map Marshalling.managed = some "B" ∧
          "B" ≠ "A.B" := by
  intro class_ u g s made
  refine ⟨by decide +kernel, ⟨⟨2⟩, ?_, .value (by decide +kernel) (by decide +kernel)⟩,
    by decide +kernel, by decide⟩
  have hinner : made.forest.parent? ⟨2⟩ = some ⟨1⟩ := by decide +kernel
  have houter : made.forest.parent? ⟨1⟩ = some s.root := by decide +kernel
  exact .step hinner (.step houter .self)

end Interop
