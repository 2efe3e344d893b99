import Interop.Proofs.Emit.Coverage
import Interop.Proofs.Emit.TypeNames
import Interop.Proofs.Export.Definitions

namespace Interop

open Overlay Export

section Classes

variable {s : Surroundings} {w₀ w w' : Workspace} {g : Generator} {others : List NodeId}
    {units : List HeaderUnit}

/-- Whether no class in the tree of a namespace has a dot in its name. -/
def ClassesUndotted (s : Surroundings) (w : Workspace) : Prop :=
  ∀ id n, w.forest.Within s.root id → w.forest.content? id = some n → n.kind = .classType →
    Header.Undotted n.name

/-- Whether no class that was not in `w₀` has a dot in its name. -/
def Export.Containers.NewUndotted (w₀ w : Workspace) : Prop :=
  ∀ id n, w₀.forest.content? id = none → w.forest.content? id = some n → n.kind = .classType →
    Header.Undotted n.name

/-- A step of the first pass adds no class with a dot in its name, if its declaration has none. -/
theorem Export.Containers.NewUndotted.step {o : Origin}
    (ho : o.declaration.kind = .classType → Header.Undotted o.declaration.name)
    (hstep : Containers.Step s o w w') (htitled : Titled w) (h : NewUndotted w₀ w) :
    NewUndotted w₀ w' := by
  cases hstep with
  | stay => exact h
  | make hmade hkind hnew =>
    rename_i symbol made m
    intro id n hnone hn hclass
    by_cases hid : id = made
    · subst hid
      obtain rfl := Option.some.inj (hmade.content?_self.symm.trans hn)
      cases hold : w.forest.content? id with
      | none =>
        obtain ⟨hsame, hname⟩ := hnew hold
        exact hname ▸ ho (hsame.symm.trans hclass)
      | some k =>
        obtain rfl := Option.some.inj ((hmade.content?_of_some hold).symm.trans hn)
        exact h id k hnone hold hclass
    · rw [hmade.content?_of_ne hid] at hn
      exact h id n hnone hn hclass
  | define hmade hkind hdefines =>
    rename_i w₁ symbol e m
    have hfills := Containers.fills_filled (hmade.titled htitled) hmade.content?_self hkind
      o.declaration
    intro id n hnone hn hclass
    have hn₁ : w₁.forest.content? id = some n := by
      rcases hfills.added id n hn with hn₁ | henum
      · exact hn₁
      · rw [hclass] at henum
        cases henum
    have hne : id ≠ e := by
      rintro rfl
      obtain rfl := Option.some.inj (hmade.content?_self.symm.trans hn₁)
      rw [hkind] at hclass
      cases hclass
    rw [hmade.content?_of_ne hne] at hn₁
    exact h id n hnone hn₁ hclass

/-- After the first pass over units that the front end has read, no new class has a dot in its
name. -/
theorem RawPass.containers_undotted (htitled : Titled w)
    (hroot : w.forest.content? s.root = some Node.root)
    (hread : ∀ u ∈ units, ∃ configuration path content,
      (Header.FrontEnd.builtin configuration path content).result = .ok u) :
    Containers.NewUndotted w (containers.apply s units w) := by
  have hregular : ∀ u ∈ units, u.root.Regular := by
    intro u hu
    obtain ⟨configuration, path, content, hresult⟩ := hread u hu
    exact Header.FrontEnd.builtin_regular hresult
  obtain ⟨log, hlog, hrun⟩ := Containers.run_apply htitled hroot hregular
  have hstart : Titled w ∧ Containers.NewUndotted w w :=
    ⟨htitled, fun id n hnone hn => by simp [hnone] at hn⟩
  refine (hrun.induction (P := fun v => Titled v ∧ Containers.NewUndotted w v)
    (fun {o v v'} ho hstep hv => ⟨hstep.titled hv.1, hv.2.step ?_ hstep hv.1⟩) hstart).2
  obtain ⟨u, hu, hdeclared⟩ := exists_unit_of_mem_originsIn (hlog.subset ho)
  obtain ⟨configuration, path, content, hresult⟩ := hread u hu
  exact (Header.FrontEnd.builtin_formed hresult).2.undotted o.declaration hdeclared

/-- When the artifacts are made, no class of the tree has a dot in its name. -/
theorem classesUndotted_of_passes (hg : Generator.Reached g.workspace)
    (hroot : s.root = (g.restart others).1) (hread : ∀ u ∈ units, ∃ configuration path content,
      (Header.FrontEnd.builtin configuration path content).result = .ok u) :
    ClassesUndotted s (OverlayPass.applyAll s
      ([RawPass.containers, RawPass.members].foldl (RawPass.apply s units) (g.restart others).2)
      [.globals, .naming]).1 := by
  have hframed := Framed.restart hg hroot
  have hframed₁ := hframed.containers units
  have hrooted := hframed.built.rooted
  have hrooted₁ := hframed₁.built.rooted
  have hgrows : Relation.ReflTransGen (Grows (Containers.Adds fun _ _ => True)) (g.restart others).2
      (RawPass.containers.apply s units (g.restart others).2) :=
    RawPass.containers_grows hrooted fun u _ =>
      Declaration.nested_of_forall (fun _ _ => trivial) u.root .file
  have hgrows₁ := @RawPass.members_grows s _ units hrooted₁
  have hrooted₂ := hrooted₁.grows Members.Adds.holds hgrows₁
  obtain ⟨log, hlog, hrun⟩ := @Members.run_apply s _ units hframed₁.titled hframed₁.root
  have htraced := Members.Traced.run hframed₁.titled hlog hrun
  obtain ⟨r, hr, hfile⟩ := hrooted₂.root
  obtain ⟨hsteps, -⟩ :=
    Globals.move_steps hrooted₂.wellFormed hr (Globals.isScope_iff.mpr (.inl hfile))
  have hmoved := (OverlayPass.move_rooted hrooted₂).wellFormed
  intro id n hwithin hn hclass
  -- naming keeps names, and letting go of other trees keeps the nodes of this one
  have hnaming := Naming.nameAll_reshaped s.settings
    ((Globals.move (RawPass.members.apply s units
      (RawPass.containers.apply s units (g.restart others).2))
      s.root).release (s.root :: s.kept)) s.root
  obtain ⟨k, hk, hshape⟩ := hnaming.exists_content hn
  have hkind : n.kind = k.kind := Node.kind_eq_of_shape hshape
  have hname : n.name = k.name := Node.eq_of_shape Node.name (fun _ => rfl) hshape
  have hheld := (hmoved.within_release (Forest.heldBy_of_mem List.mem_cons_self)).mp
    (hnaming.within_iff.mp hwithin)
  rw [hname]
  rw [hkind] at hclass
  rcases Globals.Steps.class_cases hsteps hrooted₂.wellFormed
      (hmoved.content?_release.mp hk).1 hclass hheld with
    hglobals | ⟨hk₂, hwithin₂⟩
  · rw [hglobals]
    unfold Header.Undotted
    decide
  · have hk₁ := htraced.types id k hk₂ (.inl hclass)
    obtain ⟨-, hwithin₁⟩ := hrooted₁.wellFormed.kept_of_grows Members.Adds.holds hgrows₁ hk₁
    cases hold : (g.restart others).2.forest.content? id with
    | none =>
      exact RawPass.containers_undotted hframed.titled hframed.root hread id k hold hk₁ hclass
    | some k₀ =>
      obtain ⟨hk₀, hwithin₀⟩ := hrooted.wellFormed.kept_of_grows Containers.Adds.holds hgrows hold
      obtain rfl := Option.some.inj (hk₀.symm.trans hk₁)
      have hfile := Generator.restart_alone hg.wellFormed hroot
        (hwithin₀ _ (hwithin₁ _ hwithin₂)) hold
      rw [hclass] at hfile
      cases hfile

end Classes

namespace Emit

section Paths

/-- The character that stands for another one in a path. -/
theorem toList_replaceString (text : String) :
    (Text.replaceString text "." "/").toList = text.toList.flatMap fun c => if c = '.' then ['/']
      else [c] := by
  rw [Text.replaceString, String.toList_ofList]
  exact Text.replaceAll_singleton '.' ['/'] text.toList

theorem replaceString_of_undotted {name : String} (h : Header.Undotted name) :
    Text.replaceString name "." "/" = name := by
  apply String.toList_injective
  rw [toList_replaceString]
  have hall : ∀ c ∈ name.toList, (if c = '.' then ['/'] else [c]) = [c] := by
    intro c hc
    apply if_neg
    rintro rfl
    exact h hc
  rw [List.flatMap_congr hall, List.flatMap_singleton']

/-- Names without dots are only taken apart where they were put together. -/
theorem replaceString_intercalate {names : List String} (h : ∀ name ∈ names, Header.Undotted name) :
    Text.replaceString (".".intercalate names) "." "/" = "/".intercalate names := by
  induction names with
  | nil => rfl
  | cons first rest ih =>
    have hfirst := replaceString_of_undotted (h first List.mem_cons_self)
    cases rest with
    | nil => simpa using hfirst
    | cons next others =>
      have happend : Text.replaceString (first ++ ("." ++ ".".intercalate (next :: others)))
          "." "/" = Text.replaceString first "." "/" ++ ("/" ++ Text.replaceString
              (".".intercalate (next :: others)) "." "/") := by
        apply String.toList_injective
        simp only [String.toList_append, toList_replaceString, List.flatMap_append]
        rfl
      rw [String.intercalate_cons_cons, String.intercalate_cons_cons, String.append_assoc,
        String.append_assoc, happend, hfirst, ih fun name hname =>
          h name (List.mem_cons_of_mem first hname)]

end Paths

/-- Whether the blocks around a node are namespaces with classes inside of them, and the path below
the namespaces goes through just these classes. -/
def Layered (w : Workspace) (module : String) (id : NodeId) (spaces classes : List String) : Prop :=
  blocksAround w.forest id module = spaces.map .nameSpace ++ classes.map .classType ∧
    w.forest.namesOf (fun k => k == .classType || k == .enumeration) (w.forest.ancestors id) =
      classes

/-- A node at the end of a path adds its name if it is of the kind that is asked for. -/
theorem namesOf_snoc {f : Forest} {id : NodeId} {n : Node} (hn : f.node? id = some n)
    {p : Kind → Bool} {ids : List NodeId} :
    f.namesOf p (ids ++ [id]) = f.namesOf p ids ++ if p n.kind then [n.name] else [] := by
  simp only [Forest.namesOf, List.filterMap_append, List.filterMap_cons, hn, List.filterMap_nil]
  cases p n.kind <;> rfl

section Layered

variable {w : Workspace} {module : String} {id parent : NodeId} {m : Node}
    {spaces classes : List String}

/-- Nothing is around what has no ancestors. -/
theorem layered_of_ancestors (hancestors : w.forest.ancestors id = []) :
    Layered w module id [] [] := by
  refine ⟨?_, ?_⟩
  · rw [blocksAround, hancestors]
    rfl
  · rw [hancestors]
    rfl

/-- The classes on the way to the children of a node that is no root. -/
theorem Layered.namesOf_child (h : Layered w module parent spaces classes)
    (hf : w.forest.WellFormed) (hparent : w.forest.parent? id = some parent)
    (hinner : w.forest.parent? parent ≠ none) (hm : w.forest.node? parent = some m) :
    w.forest.namesOf (fun k => k == .classType || k == .enumeration) (w.forest.ancestors id) =
      classes ++ if m.kind == .classType || m.kind == .enumeration then [m.name] else [] := by
  rw [hf.ancestors_child hparent, if_neg hinner, namesOf_snoc hm, h.2]

/-- A child of a class has one more class around it. The class itself must not be the root, which
counts as no layer. -/
theorem Layered.child_of_class (h : Layered w module parent spaces classes)
    (hf : w.forest.WellFormed) (hparent : w.forest.parent? id = some parent)
    (hinner : w.forest.parent? parent ≠ none) (hm : w.forest.node? parent = some m)
    (hkind : m.kind = .classType) :
    Layered w module id spaces (classes ++ [m.name]) := by
  refine ⟨?_, ?_⟩
  · rw [blocksAround_child hf hparent hinner, h.1, Workspace.node_of_node? hm,
      Forest.isNamespace, hm]
    simp [hkind, Block.ofNode?]
  · rw [h.namesOf_child hf hparent hinner hm, hkind]
    rfl

/-- A namespace of the module's name below the root is no block of its own. -/
theorem Layered.child_of_nameSpace (h : Layered w module parent spaces [])
    (hf : w.forest.WellFormed) (hparent : w.forest.parent? id = some parent)
    (hinner : w.forest.parent? parent ≠ none) (hm : w.forest.node? parent = some m)
    (hkind : m.kind = .nameSpace) :
    ∃ spaces', Layered w module id spaces' [] := by
  have hnone : w.forest.namesOf (fun k => k == .classType || k ==
      .enumeration) (w.forest.ancestors id) = [] := by
    rw [h.namesOf_child hf hparent hinner hm, hkind]
    rfl
  have hblocks : blocksAround w.forest id module = _ := blocksAround_child hf hparent hinner
  rw [h.1, Workspace.node_of_node? hm, Forest.isNamespace, hm] at hblocks
  cases hmodule : (w.forest.ancestors parent).isEmpty && m.name == module
  · refine ⟨spaces ++ [m.name], ?_, hnone⟩
    rw [hblocks]
    simp [hkind, hmodule, Block.ofNode?]
  · refine ⟨spaces, ?_, hnone⟩
    rw [hblocks]
    simp [hkind, hmodule]

end Layered

end Emit

namespace Overlay

open Emit

variable {s : Surroundings} {w : Workspace} {id : NodeId} {n : Node} {module : String}

/-- Classes and namespaces of a tree that is in order stand in classes, namespaces and files, and
only classes in classes. -/
theorem kind_of_fits {m : Node} (hfits : n.kind.fitsIn m.kind = true)
    (hkind : n.kind = .classType ∨ n.kind = .nameSpace ∨ n.kind = .file) :
    (m.kind = .classType ∨ m.kind = .nameSpace ∨ m.kind = .file) ∧
      (n.kind ≠ .classType → m.kind ≠ .classType) := by
  rcases hkind with hkind | hkind | hkind <;> rw [hkind] at hfits ⊢
  · simp only [Kind.fitsIn, Bool.or_eq_true, beq_iff_eq] at hfits
    exact ⟨by tauto, fun hnot => absurd rfl hnot⟩
  · refine ⟨?_, fun _ hm => ?_⟩
    · simp only [Kind.fitsIn, Bool.or_eq_true, beq_iff_eq] at hfits
      tauto
    · rw [hm] at hfits
      cases hfits
  · cases hfits

/-- What is around a class or a namespace of a tree that is in order. -/
theorem HousedTree.exists_layered (h : HousedTree s w) (hundotted : ClassesUndotted s w)
    (hwithin : w.forest.Within s.root id) (hn : w.forest.content? id = some n)
    (hkind : n.kind = .classType ∨ n.kind = .nameSpace ∨ n.kind = .file) :
    ∃ spaces classes, Layered w module id spaces classes ∧ (n.kind ≠ .classType → classes = []) ∧
      ∀ name ∈ classes, Header.Undotted name := by
  have hf := h.wellFormed
  induction hwithin generalizing n with
  | self => exact ⟨[], [], layered_of_ancestors (hf.ancestors_of_root h.top), fun _ => rfl, nofun⟩
  | @step id parent hparent hwithin ih =>
    have hne : id ≠ s.root := by
      rintro rfl
      rw [h.top] at hparent
      cases hparent
    obtain ⟨p, m, hp, hm, hplaced, -⟩ := h.nodes id n (.step hparent hwithin) hne hn
    obtain rfl := Option.some.inj (hp.symm.trans hparent)
    obtain ⟨haround, hclass⟩ := kind_of_fits hplaced.fits hkind
    by_cases hroot : p = s.root
    · subst hroot
      exact ⟨[], [], layered_of_ancestors (by rw [hf.ancestors_child hparent, if_pos h.top]),
        fun _ => rfl, nofun⟩
    · obtain ⟨spaces, classes, hlayered, hempty, hall⟩ := ih hm haround
      have hinner : w.forest.parent? p ≠ none := fun hup => hroot (hwithin.eq_of_root hup)
      obtain ⟨k, hk, rfl⟩ := Option.map_eq_some_iff.mp hm
      rw [Node.unlinked_kind] at haround hclass hempty
      rcases haround with hk' | hk' | hk'
      · refine ⟨spaces, classes ++ [k.name], hlayered.child_of_class hf hparent hinner hk hk',
          fun hnot => absurd hk' (hclass hnot), fun name hname => ?_⟩
        rcases List.mem_append.mp hname with hname | hname
        · exact hall name hname
        · rw [List.mem_singleton.mp hname]
          exact hundotted p k.unlinked hwithin hm hk'
      · obtain rfl := hempty (by rw [hk']; decide)
        obtain ⟨spaces', hspaces⟩ := hlayered.child_of_nameSpace hf hparent hinner hk hk'
        exact ⟨spaces', [], hspaces, fun _ => rfl, nofun⟩
      · obtain ⟨outer, o, -, -, houter, -⟩ := h.nodes p k.unlinked hwithin hroot hm
        have hinside := houter.fits
        rw [Node.unlinked_kind, hk'] at hinside
        cases hinside

end Overlay

section Registered

open Overlay Emit

variable {g : Generator} {others : List NodeId} {s : Surroundings} {units : List HeaderUnit}
    {w : Workspace}

/-- Whether every extern is declared in namespaces with classes inside of them, and registered under
the path of these. -/
def Emit.ManagedFile.Registered (m : ManagedFile) (b : BridgeFile) : Prop :=
  ∀ path d, (path, Entry.bridge d) ∈ m.entries → ∃ spaces classes : List String, classes ≠ [] ∧
    path = spaces.map .nameSpace ++ classes.map .classType ∧
    ⟨".".intercalate spaces ++ "." ++ "/".intercalate classes ++ "::" ++ d.name, d.name⟩ ∈
      b.registrations

/-- What owns a node of a tree is a class of the tree. -/
theorem class_of_owner? (h : HousedTree s w) {id class_ : NodeId}
    (howner : owner? w id = some class_) (hwithin : w.forest.Within s.root id) :
    (w.node class_).kind = .classType ∧ w.forest.Within s.root class_ := by
  unfold owner? at howner
  split at howner
  · rename_i hclass
    obtain rfl := Option.some.inj howner
    exact ⟨hclass, hwithin⟩
  · obtain ⟨hup, hclass⟩ := Option.filter_eq_some_iff.mp howner
    have hparent := Workspace.parent?_of_node hup
    have hne : id ≠ s.root := by
      rintro rfl
      rw [h.top] at hparent
      cases hparent
    exact ⟨beq_iff_eq.mp hclass, hwithin.above hne hparent⟩

/-- In a tree that is in order every extern is registered where it is declared. -/
theorem registered_of_housed (h : HousedTree s w) (hsettled : AllSettled w)
    (hundotted : ClassesUndotted s w) :
    (ManagedFile.ofTree s w s.root).Registered (BridgeFile.ofTree s w s.root) := by
  intro path d hd
  have hf := h.wellFormed
  have hrooted : Rooted s w := h.rooted
  obtain ⟨id, hid, hstands⟩ := ofTree_stands hrooted h.top hsettled hd
  cases hstands with
  | @bridge class_ _ howner hdeclared =>
    obtain ⟨-, f, -, hexported, hname, -⟩ := hdeclared
    obtain ⟨hkind, hwithin⟩ := class_of_owner? h howner (Forest.within_of_mem_preorder hf hid).1
    have hclass : w.forest.content? class_ = some (w.node class_).unlinked :=
      Workspace.content?_of_kind (by rw [hkind]; exact nofun)
    obtain ⟨spaces, classes, ⟨hblocks, hnames⟩, -, hall⟩ :
        ∃ spaces classes, Layered w s.rules.name class_ spaces classes ∧ _ :=
      h.exists_layered hundotted hwithin hclass (.inl hkind)
    obtain ⟨r, hr, hfile⟩ := h.root
    refine ⟨s.rules.name :: spaces, classes ++ [(w.node class_).name], by simp, ?_, ?_⟩
    · rw [spot_eq hf h.top ((Globals.node_kind hr).trans hfile) hwithin, hblocks]
      simp
    · rw [ofTree_eq, (collected_eq hf _ _ _).2]
      refine List.mem_append_right _ (List.mem_flatMap.mpr ⟨id, hid, ?_⟩)
      have hundotted : ∀ name ∈ classes ++ [(w.node class_).name], Header.Undotted name := by
        intro name hname
        rcases List.mem_append.mp hname with hname | hname
        · exact hall name hname
        · rw [List.mem_singleton.mp hname]
          exact hundotted class_ (w.node class_).unlinked hwithin hclass hkind
      have hpath : BridgeFile.registrationPath s w.forest class_ f.name =
          ".".intercalate (s.rules.name :: spaces) ++ "." ++ "/".intercalate
            (classes ++ [(w.node class_).name]) ++ "::" ++ f.name := by
        have hspaces : (spaces.map Block.nameSpace ++
            classes.map Block.classType).filterMap Block.space? = spaces := by
          simp [List.filterMap_map, Function.comp_def, Block.space?]
        obtain ⟨k, hk, -⟩ := Option.map_eq_some_iff.mp hclass
        rw [BridgeFile.registrationPath, managedNamespace_eq, hblocks, hspaces, Forest.managedPath,
          hnames, hk, Workspace.node_of_node? hk, Option.elim_some, ← Workspace.node_of_node? hk,
          replaceString_intercalate hundotted]
      rw [registered_of_owner howner, ← hname, ← hpath]
      exact List.mem_map.mpr ⟨f, hexported, rfl⟩

/-- Every extern of the managed file is registered in the bridge file under its own name, at the
path of the blocks that it is declared in, if the headers have namespaces outside of classes
only. -/
theorem Passes.externs_registered (hg : Generator.Reached g.workspace)
    (hroot : s.root = (g.restart others).1) (hkept : s.kept = others)
    (hread : ∀ u ∈ units, ∃ configuration path content,
      (Header.FrontEnd.builtin configuration path content).result = .ok u)
    (hspaced : ∀ u ∈ units, u.root.Nested Kind.Spaced .file) :
    let made := Passes.standard.apply s units (g.restart others).2
    let b := BridgeFile.ofTree s made.1 s.root
    let m := ManagedFile.ofTree s made.1 s.root
    made.2 = [⟨BridgeFile.fileName s.rules, b.text s⟩, ⟨ManagedFile.fileName s.rules, m.text⟩] ∧
      m.Registered b := by
  have hrooted := (Generator.restart_bareTree hg.wellFormed hroot).rooted
  have hsettled := Generator.restart_settled hg.wellFormed hg.settled others
  have htree : HousedTree s (Passes.standard.apply s units (g.restart others).2).1 :=
    housedTree_of_passes hg hroot hkept hread hspaced
  have hundotted : ClassesUndotted s (Passes.standard.apply s units (g.restart others).2).1 :=
    classesUndotted_of_passes hg hroot hread
  refine ⟨standard_artifacts s units _, ?_⟩
  exact registered_of_housed htree (Passes.apply_settled hrooted hsettled Passes.standard) hundotted

/-- A class in a class of a namespace and a function beside them: each is registered under the
blocks around it. -/
theorem Passes.externs_registered_nested :
    ∃ u : HeaderUnit,
      (Header.FrontEnd.builtin {} ⟨"A.h"⟩
        (.text
         "namespace N { class A { public: class B { public: int x; }; }; int f(int a); }")).result =
          .ok u ∧
      let g := Generator.ofDirectories ⟨""⟩ ⟨"/o"⟩
      let s : Surroundings :=
        { settings := g.settings, rules := { name := "M" }, root := (g.restart []).1 }
      let made := Passes.standard.apply s [u] (g.restart []).2
      let b := BridgeFile.ofTree s made.1 s.root
      let m := ManagedFile.ofTree s made.1 s.root
      made.2 = [⟨BridgeFile.fileName s.rules, b.text s⟩, ⟨ManagedFile.fileName s.rules, m.text⟩] ∧
          m.Registered b := by
  refine exists_ok_of_decide (fun u => u.root.Nested Kind.Spaced .file) (by decide +kernel)
    fun u hu hspaced => ?_
  exact Passes.externs_registered .start rfl rfl (List.forall_mem_singleton.mpr ⟨_, _, _, hu⟩)
    (List.forall_mem_singleton.mpr hspaced)

end Registered

end Interop
