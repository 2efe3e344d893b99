import Interop.Proofs.Export.Admission

namespace Interop

open Overlay Export Emit

/-- Whether nodes of a kind belong below nodes of kind `around`. Bit-fields stand wherever variables
may stand. -/
def Kind.belongsIn (kind around : Kind) : Bool :=
  match kind with
  | .nameSpace | .freeFunction | .freeVariable => around == .file || around == .nameSpace
  | .constructor | .memberFunction | .memberVariable | .baseClass => around == .classType
  | .enumerator => around == .enumeration
  | .classType | .enumeration | .bitField => around == .file || around == .nameSpace || around ==
    .classType
  | _ => false

/-- Whether a declaration of a kind may stand in a container of kind `around`, where members belong
to classes and other functions and variables do not. -/
def Kind.Homed (kind around : Kind) : Prop :=
  (kind = .freeFunction ∨ kind = .freeVariable → around ≠ .classType) ∧
    (kind = .constructor ∨ kind = .memberFunction ∨ kind = .memberVariable → around ≠ .file ∧
      around ≠ .nameSpace)

/-- Whether a declaration of a kind may stand in a container of kind `around`, where bit-fields do
not stand outside of classes. -/
def Kind.Packed (kind around : Kind) : Prop :=
  kind = .bitField → around ≠ .file ∧ around ≠ .nameSpace

instance (kind around : Kind) : Decidable (kind.Packed around) :=
  decidable_of_iff (kind = .bitField → around ≠ .file ∧ around ≠ .nameSpace) .rfl

/-- Only what can hold something has anything that fits into it. -/
theorem Kind.isHolder_of_fitsIn {kind around : Kind} (h : kind.fitsIn around = true) :
    around.isHolder = true ∧ around ≠ .baseClass := by
  have haround : around = .file ∨ around = .nameSpace ∨ around = .classType ∨
      around = .enumeration := by
    cases kind <;> simp [fitsIn] at h <;> tauto
  rcases haround with rfl | rfl | rfl | rfl <;> exact ⟨rfl, by decide⟩

/-- What fits somewhere and is at home there belongs there. -/
theorem Kind.belongsIn_of_homed {kind around : Kind} (hfits : kind.fitsIn around = true)
    (h : kind.Homed around) :
    kind.belongsIn around = true := by
  cases kind
  case freeFunction | freeVariable =>
    simpa [fitsIn, belongsIn, h.1] using hfits
  case memberVariable =>
    simpa [fitsIn, belongsIn, h.2] using hfits
  all_goals exact hfits

namespace Declaration

variable {fits : Kind → Kind → Prop} {inClass : Option String} {around : Kind} {d : Declaration}

/-- A declaration stands where it fits if it fits and what it holds does, or, where it stands for
its children only, if these do. -/
theorem nested_of_children (hkind : d.kind ≠ .file ∧ d.kind ≠ .linkage) (hfits : fits d.kind around)
    (hchildren : ∀ c ∈ d.children, c.Nested fits d.kind)
    (hproxy : d.isProxy = true → ∀ c ∈ d.children, c.Nested fits around) :
    d.Nested fits around := by
  rw [nested_eq]
  split
  · rename_i hpassed
    simp only [Bool.or_eq_true, beq_iff_eq, hkind.1, hkind.2, false_or, or_false] at hpassed
    exact nestedAll_iff.mpr (hproxy hpassed)
  · exact ⟨hfits, nestedAll_iff.mpr hchildren⟩

/-- Whether a container of kind `around` may hold what is read inside of the named class, or outside
of classes. -/
def Takes (around : Kind) (inClass : Option String) : Prop :=
  (around = .classType → inClass.isSome = true) ∧
    (around = .file ∨ around = .nameSpace → inClass = none)

/-- Whatever a header declares, members are in classes and other functions and variables are not. -/
theorem Form.homed (h : d.Form inClass) (htakes : Takes around inClass)
    (hproxy : d.isProxy = true → ∀ inClass, Takes around inClass) : d.Nested Kind.Homed around := by
  have hfree : ∀ {kind : Kind}, kind ≠ .classType ∧ kind ≠ .file ∧ kind ≠ .nameSpace →
      ∀ inClass, Takes kind inClass :=
    fun hkind _ => ⟨fun h => absurd h hkind.1,
      fun h => h.elim (absurd · hkind.2.1) (absurd · hkind.2.2)⟩
  have hplain : ∀ {c : Declaration} {around : Kind}, c.isProxy = false → c.isProxy = true →
      ∀ inClass, Takes around inClass := fun hfalse htrue => by simp [hfalse] at htrue
  induction h generalizing around with
  | @bare inClass d hkind hbare =>
    refine nested_of_children ⟨?_, ?_⟩ ⟨?_, ?_⟩ (by simp [hbare]) (by simp [hbare])
    · rintro heq
      simp [heq, Kind.isBareIn] at hkind
    · rintro heq
      simp [heq, Kind.isBareIn] at hkind
    · rintro hfree rfl
      have hsome := htakes.1 rfl
      rcases hfree with heq | heq <;> simp_all [Kind.isBareIn]
    · intro hmember
      refine not_or.mp fun hscope => ?_
      have hnone := htakes.2 hscope
      rcases hmember with heq | heq | heq <;> simp [heq, hnone, Kind.isBareIn] at hkind
  | enumeration hkind h =>
    have henumerator : ∀ c ∈ _, ∀ around, Nested Kind.Homed around c := fun c hc around => by
      obtain ⟨hc, hbare, -⟩ := h c hc
      exact nested_of_children (by simp [hc]) (by simp [Kind.Homed, hc]) (by simp [hbare])
        (by simp [hbare])
    exact nested_of_children (by simp [hkind]) (by simp [Kind.Homed, hkind])
      (fun c hc => henumerator c hc _)
      fun _ c hc => henumerator c hc _
  | nameSpace hkind _ hproxies h ih =>
    refine nested_of_children (by simp [hkind]) (by simp [Kind.Homed, hkind]) (fun c hc =>
      ?_) fun htrue c hc => ?_
    · exact ih c hc (by simp [Takes, hkind]) (hplain (hproxies c hc))
    · exact ih c hc (hproxy htrue none) (hplain (hproxies c hc))
  | group hkind hproxies h ih =>
    rw [nested_eq, if_pos (by rcases hkind with hkind | hkind <;> simp [hkind])]
    exact nestedAll_iff.mpr fun c hc => ih c hc htakes (hplain (hproxies c hc))
  | @wrapper inClass d hkind h ih =>
    have hopen : d.kind ≠ .classType ∧ d.kind ≠ .file ∧ d.kind ≠ .nameSpace := by
      rcases hkind with hkind | hkind | hkind <;> simp [hkind]
    refine nested_of_children ?_ ?_ (fun c hc => ?_) fun htrue c hc => ?_
    · rcases hkind with hkind | hkind | hkind <;> simp [hkind]
    · rcases hkind with hkind | hkind | hkind <;> simp [Kind.Homed, hkind]
    · exact ih c hc (hfree hopen inClass) fun _ => hfree hopen
    · exact ih c hc htakes fun _ => hproxy htrue
  | @classType inClass d hkind hname hproxies h ih =>
    refine nested_of_children ?_ ?_ (fun c hc => ?_) fun htrue c hc => ?_
    · rcases hkind with hkind | hkind <;> simp [hkind]
    · rcases hkind with hkind | hkind <;> simp [Kind.Homed, hkind]
    · refine ih c hc ?_ (hplain (hproxies c hc))
      rcases hkind with hkind | hkind <;> simp [Takes, hkind]
    · exact ih c hc (hproxy htrue (some d.name)) (hplain (hproxies c hc))

end Declaration

/-- Whether a node stands rightly below its parent `m`: its kind fits, in particular as `fits` says
where it is a member, its symbol is that of its name below the parent, and it has a name if others
may stand below it. -/
structure Overlay.Node.Joined (fits : Kind → Kind → Prop) (n m : Node) : Prop where
  placed : n.kind.fitsIn m.kind = true
  fits : n.kind.isFrame = false → fits n.kind m.kind
  symbol : n.kind ≠ .baseClass → n.symbol = Symbol.qualify m.symbol n.name
  named : n.kind.isHolder = true → n.name.isEmpty = false

namespace Export.Members

variable {fits : Kind → Kind → Prop} {s : Surroundings} {w : Workspace} {header? : Option Path}
    {d : Declaration}
  {m n : Node} {mapper : Mapper} {top : NodeId} {kind : Kind} {units : List HeaderUnit}

/-- A function's symbol is its name behind that of its parent. -/
theorem symbol_of_functionNode? (h : functionNode? mapper m d header? = some n) :
    n.symbol = Symbol.qualify m.symbol n.name := by
  simp only [functionNode?, Option.bind_eq_bind] at h
  split at h
  · cases h
  · obtain ⟨name, -, h⟩ := Option.bind_eq_some_iff.mp h
    obtain ⟨result?, -, h⟩ := Option.bind_eq_some_iff.mp h
    obtain ⟨parameters, -, h⟩ := Option.bind_eq_some_iff.mp h
    cases h
    rfl

/-- A variable's symbol is its name behind that of its parent. -/
theorem symbol_of_variableNode? (h : variableNode? mapper m d header? = some n) :
    n.symbol = Symbol.qualify m.symbol n.name := by
  simp only [variableNode?, Option.bind_eq_bind] at h
  obtain ⟨type, -, h⟩ := Option.bind_eq_some_iff.mp h
  split at h
  · cases h
  · cases h
    rfl

/-- What a declaration adds below a node stands rightly there, if the declaration stands where it
fits. -/
theorem joined_of_memberNode? (hm : w.forest.content? top = some m)
    (haround : m.kind = .file ∨ m.kind = .nameSpace ∨ m.kind = .classType)
    (hfits : fits d.kind m.kind) (h : memberNode? s w header? top d = some n) :
    n.Joined fits m := by
  have hsame : (w.node top).symbol = m.symbol := by
    rw [← Workspace.node_unlinked hm]
    rfl
  have hplaced := (placed_of_memberNode? hm haround h).2.fits
  rcases memberNode?_cases h with ⟨hcallable, hn, -⟩ | ⟨hvariable, hn, -⟩ | ⟨hbase, hkind, -⟩
  · obtain ⟨hframe, -⟩ := Node.isFrame_of_isMember (n := n) (by simp [Node.isMember, hcallable])
    refine ⟨hplaced, fun _ => (kind_of_functionNode? hn).1 ▸ hfits,
      fun _ => hsame ▸ symbol_of_functionNode? hn, ?_⟩
    rcases isCallable_iff.mp hcallable with hkind | hkind | hkind <;> simp [hkind, Kind.isHolder]
  · refine ⟨hplaced, fun _ => (kind_of_variableNode? hn).1 ▸ hfits,
      fun _ => hsame ▸ symbol_of_variableNode? hn, ?_⟩
    rcases isVariable_iff.mp hvariable with hkind | hkind | hkind <;> simp [hkind, Kind.isHolder]
  · exact ⟨hplaced, fun _ => hbase.trans hkind.symm ▸ hfits, fun hne => absurd hbase hne,
      by simp [hbase, Kind.isHolder]⟩

/-- What the second pass adds where all declarations stand as `fits` says. -/
def Joins (fits : Kind → Kind → Prop) (s : Surroundings) (w : Workspace) (m n : Node)
    (names : List String) : Prop :=
  Adds s w m n names ∧ n.Joined fits m

theorem Joins.holds {names : List String} (h : Joins fits s w m n names) :
    n.IsFresh ∧ m.kind.isContainer = true :=
  Interop.Members.Adds.holds h.1

/-- A member joins the node that is open, provided that its declaration fits there. -/
theorem added_joins (htop : IsScope kind top w) (hfits : fits d.kind kind) :
    Relation.ReflTransGen (Grows (Joins fits s)) w (added s header? top d w) := by
  obtain ⟨haround, _, m, hm, rfl⟩ := htop
  simp only [added]
  split
  · split
    · exact .refl
    · rename_i n hn
      obtain ⟨hfresh, hplaced⟩ := placed_of_memberNode? hm haround hn
      have hunused : ∀ name ∈ (symbolKeys n).filter fun name => !(w.symbol? name).isSome,
          w.symbol? name = none :=
        fun name hname => by simpa using (List.mem_filter.mp hname).2
      exact .single (.grow hm
        ⟨⟨hfresh, haround, hunused, isHolder_of_memberNode? hn, hplaced, settled_of_memberNode? hn⟩,
        joined_of_memberNode? hm haround hfits hn⟩)
  · exact .refl

/-- The second pass adds nodes that stand rightly, if the declarations stand where they fit. -/
theorem joining_steps (fits : Kind → Kind → Prop) (s : Surroundings) (header? : Option Path) :
    (builder s header?).Steps fits (Relation.ReflTransGen (Grows (Joins fits s))) IsScope where
  refl _ := .refl
  trans := .trans
  mono hgrows h := ⟨h.1, h.2.mono (fun hadds => hadds.1.fresh) hgrows⟩
  linkage := (steps s header?).linkage
  enter _ hlinkage _ := ⟨.refl, fun _ hinner => entered_isScope hlinkage hinner⟩
  leaf := added_joins

end Export.Members

theorem Export.Containers.Adds.joined {fits fits' : Kind → Kind → Prop} {w : Workspace}
    {m n : Node} {names : List String}
    (hfits : ∀ child parent, (child = .nameSpace ∨ child = .classType ∨ child = .enumeration) →
      parent.isHolder = true → fits child parent → child.fitsIn parent = true)
    (h : Containers.Adds fits w m n names) : n.Joined fits' m := by
  refine ⟨?_, fun hframe => ?_, fun _ => h.symbol, h.named⟩
  · rcases h.kind with ⟨hkind, hfit⟩ | ⟨hkind, hparent⟩
    · exact hfits _ _ hkind h.container hfit
    · rw [hkind, hparent]
      rfl
  · rcases h.kind with ⟨hkind | hkind | hkind, -⟩ | ⟨hkind, -⟩ <;> simp [hkind,
      Kind.isFrame] at hframe

/-- All of the second pass is made of such steps, if the headers declare things only where they
fit. -/
theorem RawPass.members_joins {fits : Kind → Kind → Prop} {s : Surroundings} {w : Workspace}
    {units : List HeaderUnit} (h : Rooted s w) (hnested : ∀ u ∈ units, u.root.Nested fits .file) :
    Relation.ReflTransGen (Grows (Members.Joins fits s)) w (members.apply s units w) := by
  rw [apply_eq]
  exact foldl_steps (fun u => Members.joining_steps fits s (some u.path))
    (fun _ => .refl) hnested h.isScope

/-- A tree stays in order when nodes are added that are in order. -/
theorem Overlay.Built.grows {ok : Node → Node → Prop}
    {adds : Workspace → Node → Node → List String → Prop} {s : Surroundings} {w w' : Workspace}
    (hadds : ∀ {w m n names}, adds w m n names → (n.IsFresh ∧ m.kind.isContainer = true) ∧ ok m n)
    (hgrows : Relation.ReflTransGen (Grows adds) w w') (h : Built ok s w) : Built ok s w' := by
  induction hgrows with
  | refl => exact h
  | tail _ hstep ih =>
    cases hstep with
    | grow hparent hnew =>
      obtain ⟨⟨hfresh, hcontainer⟩, hok⟩ := hadds hnew
      exact ih.grow hparent hfresh hcontainer hok

/-- A qualified name is never empty if the name is not, even in the global scope. -/
theorem Symbol.isEmpty_qualify {scope name : String} (hname : name.isEmpty = false) :
    (qualify scope name).isEmpty = false := by
  unfold qualify
  split
  · exact hname
  · rw [Bool.eq_false_iff, Ne, String.isEmpty_iff] at hname ⊢
    simp [hname]

/-- The names of the nodes from below the root of a tree down to a node. -/
def Overlay.Workspace.path (w : Workspace) (id : NodeId) : List String :=
  (w.forest.ancestors id ++ [id]).map fun c => (w.node c).name

section Symbols

variable {fits : Kind → Kind → Prop} {s : Surroundings} {w : Workspace} {id : NodeId} {n : Node}

/-- In a tree in which every node bears the symbol of its name below its parent, symbols are made of
the names on the way down. -/
theorem Overlay.Built.symbol_eq (h : Built (fun m n => n.Joined fits m) s w)
    (hroot : w.forest.content? s.root = some Node.root) (hwithin : w.forest.Within s.root id)
    (hne : id ≠ s.root) (hn : w.forest.content? id = some n) (hkind : n.kind ≠ .baseClass) :
    n.symbol = "::".intercalate (w.path id) := by
  have hf := h.wellFormed
  induction hwithin generalizing n with
  | self => exact absurd rfl hne
  | @step id parent hparent hwithin ih =>
    obtain ⟨p, m, hp, hm, hjoined⟩ := h.nodes id n (.step hparent hwithin) hne hn
    obtain rfl := Option.some.inj (hp.symm.trans hparent)
    have hname := Globals.node_name hn
    rw [hjoined.symbol hkind]
    by_cases htop : p = s.root
    · subst htop
      obtain rfl := Option.some.inj (hroot.symm.trans hm)
      have hpath : w.path id = [n.name] := by
        rw [Workspace.path, hf.ancestors_child hparent, if_pos h.top, List.nil_append,
          List.map_singleton, hname]
      rw [hpath, String.intercalate_singleton]
      rfl
    · have hup : w.forest.parent? p ≠ none := fun hup => htop (hwithin.eq_of_root hup)
      have hpath : w.path id = w.path p ++ [n.name] := by
        rw [Workspace.path, hf.ancestors_child hparent, if_neg hup, List.map_append,
          List.map_singleton, hname]
        rfl
      have hholder := Kind.isHolder_of_fitsIn hjoined.placed
      obtain ⟨o, k, -, -, houter⟩ := h.nodes p m hwithin htop hm
      have hsymbol : m.symbol.isEmpty = false :=
        houter.symbol hholder.2 ▸ Symbol.isEmpty_qualify (houter.named hholder.1)
      rw [hpath, String.intercalate_append_of_ne_nil (by simp [Workspace.path]) (by simp),
        String.intercalate_singleton, ← ih htop hm hholder.2, Symbol.qualify,
          if_neg (by rw [hsymbol]; exact Bool.false_ne_true)]

end Symbols

section Tree

variable {fits : Kind → Kind → Prop} {g : Generator} {others : List NodeId} {s : Surroundings}
    {units : List HeaderUnit}

/-- Whether a node of the tree of a namespace stands where it belongs, bit-fields in classes only if
they are `packed`, and bears a symbol that is made of the names on the way down to it. -/
structure Arranged (s : Surroundings) (w : Workspace) (packed : Prop) (id : NodeId) (n : Node) :
    Prop where
  plain : n.isProxy = false
  root : n.kind = .file ↔ id = s.root
  parent : id ≠ s.root → ∃ parent m, w.forest.parent? id = some parent ∧
    w.forest.node? parent = some m ∧ n.kind.belongsIn m.kind = true ∧
      (n.kind = .bitField → packed → m.kind = .classType)
  symbol : id ≠ s.root → n.kind ≠ .baseClass → n.symbol = "::".intercalate (w.path id)

variable (hg : Generator.Reached g.workspace) (hroot : s.root = (g.restart others).1)
  (hread : ∀ u ∈ units, ∃ configuration path content,
    (Header.FrontEnd.builtin configuration path content).result = .ok u)
  (hspaced : ∀ u ∈ units, u.root.Nested Kind.Spaced .file)
include hg hroot hread hspaced

/-- The raw passes make a tree in which every node stands rightly below its parent, if the
declarations stand where they fit. -/
theorem joined_of_passes (hnested : ∀ u ∈ units, u.root.Nested fits .file) :
    let made := RawPass.members.apply s units
      (RawPass.containers.apply s units (g.restart others).2)
    Built (fun m n => n.Joined fits m) s made ∧ made.forest.content? s.root = some Node.root := by
  intro made
  have hcontained : ∀ u ∈ units, u.root.Nested (fun kind around => kind.Spaced around ∧
      kind.Listed around) .file := by
    intro u hu
    obtain ⟨configuration, path, content, hresult⟩ := hread u hu
    exact Declaration.Nested.and u.root .file (hspaced u hu)
      (Header.FrontEnd.builtin_regular hresult)
  have hstart : Built (fun m n => n.Joined fits m) s (g.restart others).2 :=
    Generator.restart_built hg.wellFormed hroot
  have hcontainers := RawPass.containers_grows hstart.rooted hcontained
  have hbuilt : Built (fun m n => n.Joined fits m) s
      (RawPass.containers.apply s units (g.restart others).2) :=
    hstart.grows (fun hadds => ⟨Containers.Adds.holds hadds,
      hadds.joined fun _ _ => Kind.fitsIn_of_spaced⟩) hcontainers
  have hmembers := RawPass.members_joins hbuilt.rooted hnested
  refine ⟨hbuilt.grows (fun hadds => ⟨hadds.holds, hadds.2⟩) hmembers, ?_⟩
  have hr := (@Generator.restart_root g others hg.wellFormed).1
  rw [← hroot] at hr
  have hr₁ := (hstart.wellFormed.kept_of_grows Containers.Adds.holds hcontainers hr).1
  exact (hbuilt.wellFormed.kept_of_grows Members.Joins.holds hmembers hr₁).1

/-- The raw passes make a tree in which every node stands where it belongs: namespaces, functions
and variables outside of classes, members in classes, and bit-fields where the headers declare
them. -/
theorem RawPass.arranged :
    let made : Workspace := members.apply s units (containers.apply s units (g.restart others).2)
    ∀ id n, made.forest.Within s.root id → made.forest.node? id = some n →
      Arranged s made (∀ u ∈ units, u.root.Nested Kind.Packed .file) id n := by
  intro made id n hwithin hnode
  have hhomed : ∀ u ∈ units, u.root.Nested Kind.Homed .file := by
    intro u hu
    obtain ⟨configuration, path, content, hresult⟩ := hread u hu
    obtain ⟨hplain, hform⟩ := Header.FrontEnd.builtin_formed hresult
    exact hform.homed ⟨nofun, fun _ => rfl⟩ fun htrue => by simp [hplain] at htrue
  obtain ⟨hbuilt, hr⟩ := joined_of_passes hg hroot hread hspaced hhomed
  have hn := Forest.content?_of_node? hnode
  have hfile : n.kind = .file ↔ id = s.root := by
    constructor
    · intro hkind
      by_contra hne
      obtain ⟨p, m, -, -, hjoined⟩ := hbuilt.nodes id _ hwithin hne hn
      have hplaced := hjoined.placed
      rw [Node.unlinked_kind, hkind] at hplaced
      cases hplaced
    · rintro rfl
      have hsame := Option.some.inj (hr.symm.trans hn)
      rw [← Node.unlinked_kind n, ← hsame]
      rfl
  refine ⟨hbuilt.wellFormed.plain id n.unlinked hn, hfile, fun hne => ?_, fun hne hkind => ?_⟩
  · obtain ⟨p, m, hparent, hm, hjoined⟩ := hbuilt.nodes id _ hwithin hne hn
    obtain ⟨k, hk, rfl⟩ := Option.map_eq_some_iff.mp hm
    have hbelongs : n.kind.belongsIn k.kind = true := by
      by_cases hframe : n.kind.isFrame = true
      · have hplaced := hjoined.placed
        cases hkind : n.kind <;> simp [hkind, Kind.isFrame] at hframe <;>
          simpa [hkind, Kind.fitsIn, Kind.belongsIn] using hplaced
      · exact Kind.belongsIn_of_homed hjoined.placed (hjoined.fits (Bool.not_eq_true _ ▸ hframe))
    refine ⟨p, k, hparent, hk, hbelongs, fun hkind hpacked => ?_⟩
    obtain ⟨hbuilt', -⟩ := joined_of_passes hg hroot hread hspaced hpacked
    obtain ⟨p', m', hparent', hm', hjoined'⟩ := hbuilt'.nodes id _ hwithin hne hn
    obtain rfl := Option.some.inj (hparent'.symm.trans hparent)
    obtain rfl := Option.some.inj (hm'.symm.trans hm)
    obtain ⟨hnotFile, hnotSpace⟩ := hjoined'.fits (by rw [Node.unlinked_kind, hkind]; rfl) hkind
    rw [hkind] at hbelongs
    simpa [Kind.belongsIn, show k.kind ≠ .file from hnotFile,
      show k.kind ≠ .nameSpace from hnotSpace] using hbelongs
  · have hsymbol : n.unlinked.symbol = _ := hbuilt.symbol_eq hr hwithin hne hn hkind
    exact hsymbol

end Tree

/-- A class with an enum, a bit-field and a method in a namespace, with a variable behind it. -/
theorem RawPass.arranged_namespace :
    ∃ u : HeaderUnit,
      (Header.FrontEnd.builtin {} ⟨"A.h"⟩
        (.text
         "namespace N { class A { public: enum E { X }; int x : 2; void f(); }; int y; }")).result =
          .ok u ∧
      let g := Generator.ofDirectories ⟨""⟩ ⟨"/o"⟩
      let s : Surroundings :=
        { settings := g.settings, rules := { name := "M" }, root := (g.restart []).1 }
      let made := members.apply s [u] (containers.apply s [u] (g.restart []).2)
      ∀ id n, made.forest.Within s.root id → made.forest.node? id = some n →
        Arranged s made (∀ v ∈ [u], v.root.Nested Kind.Packed .file) id n := by
  refine exists_ok_of_decide (fun u => u.root.Nested Kind.Spaced .file) (by decide +kernel)
    fun u hu hspaced => ?_
  exact RawPass.arranged .start rfl (List.forall_mem_singleton.mpr ⟨_, _, _, hu⟩)
    (List.forall_mem_singleton.mpr hspaced)

/-- A bit-field that a header declares outside of classes stands outside of classes. -/
theorem RawPass.bitField_outside :
    ∃ u : HeaderUnit, (Header.FrontEnd.builtin {} ⟨"A.h"⟩ (.text "int a : 3;")).result = .ok u ∧
      u.root.Nested Kind.Spaced .file ∧
      let g := Generator.ofDirectories ⟨""⟩ ⟨"/o"⟩
      let s : Surroundings :=
        { settings := g.settings, rules := { name := "M" }, root := (g.restart []).1 }
      let made := members.apply s [u] (containers.apply s [u] (g.restart []).2)
      made.forest.parent? ⟨1⟩ = some s.root ∧ (made.node ⟨1⟩).kind = .bitField ∧
          (made.node s.root).kind = .file := by
  refine exists_ok_of_decide (fun u =>
    let g := Generator.ofDirectories ⟨""⟩ ⟨"/o"⟩
    let s : Surroundings :=
      { settings := g.settings, rules := { name := "M" }, root := (g.restart []).1 }
    let made := members.apply s [u] (containers.apply s [u] (g.restart []).2)
    u.root.Nested Kind.Spaced .file ∧ made.forest.parent? ⟨1⟩ = some s.root ∧
      (made.node ⟨1⟩).kind = .bitField ∧
        (made.node s.root).kind = .file) (by decide +kernel) fun u _ houtside => houtside

end Interop
