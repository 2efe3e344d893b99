import Interop.Proofs.Emit.Externs
import Interop.Proofs.Generator.Settled

namespace Interop.Emit

open Overlay

variable {s : Surroundings} {w : Workspace} {id : NodeId} {state : ManagedState} {n : Node}
    {d : BridgeDeclaration}

/-- The block of a class node shows the class itself, which is static if the node is. Nothing has to
be known about the node. -/
theorem exists_classBlock (s : Surroundings) (w : Workspace) (n : Node) :
    ∃ c isInheritable, classBlock s w n = .classType c isInheritable ∧ c.isStatic = n.isStatic := by
  unfold classBlock
  split
  · rename_i hstatic
    exact ⟨_, _, rfl, hstatic.symm⟩
  · rename_i hstatic
    exact ⟨_, _, rfl, (Bool.not_eq_true _ ▸ hstatic).symm⟩

/-- A class is printed under the name of its node, even if its base cannot be printed. -/
theorem name_of_classBlock {c : ManagedClass} {isInheritable : Bool}
    (h : classBlock s w n = .classType c isInheritable) :
    c.name = n.name := by
  unfold classBlock at h
  split at h <;> cases h <;> rfl

theorem owner?_of_class (hclass : (w.node id).kind = .classType) : owner? w id = some id := by
  unfold owner?
  rw [if_pos hclass]

/-- The destructor of a class is declared for the class. -/
theorem declared_of_classBlock (hclass : (w.node id).kind = .classType) {c : ManagedClass}
    {isInheritable : Bool} (hblock : classBlock s w (w.node id) = .classType c isInheritable)
    (hd : d ∈ c.bridges) : Declared s w id d := by
  unfold classBlock at hblock
  split at hblock
  · cases hblock
    cases hd
  · rename_i hstatic
    cases hblock
    obtain rfl := List.mem_singleton.mp hd
    have hexported : exported s w id = [destructor (w.node id)] := by
      unfold exported
      rw [owner?_of_class hclass]
      simp only [if_pos hclass, if_neg hstatic]
    have hplaced : ¬Misplaced w (w.node id) := by
      intro hfalse
      rw [hfalse.1] at hclass
      cases hclass
    refine ⟨0, destructor (w.node id), .destructor hclass, ?_, rfl, ?_⟩
    · rw [hexported]
      exact List.mem_cons_self
    · apply iff_of_true _ hplaced
      exact ⟨rfl, rfl, iff_of_true ⟨rfl, rfl⟩ ⟨rfl, _, rfl⟩⟩

/-- The blocks around a child are those around its parent and perhaps the one that the parent opens.
Well-formedness is needed for the parent alone to count as a child's ancestor. -/
theorem openAt_child (hf : w.forest.WellFormed) {c : NodeId}
    (hparent : w.forest.parent? c = some id) :
    openAt s w c = (opened? s w id).toList ++ openAt s w id := by
  have hlineage : w.forest.lineage c = id :: w.forest.lineage id := by
    rw [hf.lineage_eq, hparent]
    rfl
  unfold openAt
  rw [hlineage, List.filterMap_cons]
  cases opened? s w id <;> rfl

/-- A leaf of a class adds a member of that class, or nothing. -/
theorem addLeaf_adds {parent : NodeId} (hparent : (w.node id).parent? = some parent)
    (hclass : (w.node parent).kind = .classType) {c : ManagedClass} {isInheritable : Bool}
    (hframe : state.class? = some (c, isInheritable))
    (hstatic : c.isStatic = (w.node parent).isStatic) (hsettled : (w.node id).Settled) :
    Adds s w id state (ManagedState.addLeaf s w (w.node id) state) := by
  unfold ManagedState.addLeaf
  simp only [hparent, Option.map_some, hclass, beq_self_eq_true, if_true]
  split
  · rename_i hkind
    exact addConstructor_spec hparent hclass hkind hsettled
  · rename_i hkind
    exact addMethod_spec hparent hclass hframe hstatic (.inl hkind)
  · rename_i hkind
    exact addMethod_spec hparent hclass hframe hstatic (.inr hkind)
  · rename_i hkind
    exact addVariable_spec hparent hclass hframe hstatic (by rw [hkind]; rfl) hsettled
  · rename_i hkind
    exact addVariable_spec hparent hclass hframe hstatic (by rw [hkind]; rfl) hsettled
  · rename_i hkind
    exact addVariable_spec hparent hclass hframe hstatic (by rw [hkind]; rfl) hsettled
  · exact .none

/-- A leaf declares nothing but externs of its own, in the class that it lies in. -/
theorem addLeaf_spec (hf : w.forest.WellFormed) {n : Node} (hn : w.forest.node? id = some n)
    (hleaf : n.kind.isContainer = false) (hopen : state.blocks = openAt s w id)
    (hsettled : n.Settled) :
    Writes s w [id] state (ManagedState.addLeaf s w n state) := by
  have hnode := Workspace.node_of_node? hn
  have hkind : ¬((w.node id).kind = .classType ∨ (w.node id).kind = .enumeration) := by
    rw [hnode]
    rintro (hkind | hkind) <;> rw [hkind] at hleaf <;> cases hleaf
  have htypes : ∀ {after : ManagedState}, ∀ key ∈ [id], (w.node key).kind = .classType ∨
      (w.node key).kind = .enumeration →
          (spot s w key, Entry.type (w.node key).name) ∈ after.declared s := by
    intro after key hkey htype
    rw [List.mem_singleton.mp hkey] at htype
    exact absurd htype hkind
  have hstay : Writes s w [id] state state := ⟨rfl, fun _ h => h, htypes, fun _ h => .inl h⟩
  rw [← hnode] at hsettled ⊢
  cases hparent : (w.node id).parent? with
  | none =>
    unfold ManagedState.addLeaf
    rw [hparent]
    exact hstay
  | some parent =>
    by_cases hclass : (w.node parent).kind = .classType
    · obtain ⟨c, isInheritable, hblock, hstatic⟩ := exists_classBlock s w (w.node parent)
      have hup : w.forest.parent? id = some parent :=
        by rw [Forest.parent?_of_node? hn, ← hnode, hparent]
      have howner : owner? w id = some parent :=
        owner?_of_member (fun hk => hkind (.inl hk)) hparent hclass
      have hopened : opened? s w parent = some (.classType c isInheritable) := by
        unfold opened?
        rw [hclass, hblock]
      have hblocks : state.blocks = .classType c isInheritable :: openAt s w parent := by
        rw [hopen, openAt_child hf hup, hopened]
        rfl
      have hpath : OpenBlock.path [.nameSpace s.rules.name] state.blocks =
          spot s w parent ++ [.classType (w.node parent).name] := by
        rw [hblocks, ← name_of_classBlock hblock]
        rfl
      have hadds := addLeaf_adds (s := s) hparent hclass (ManagedState.class?_of_blocks hblocks)
        hstatic hsettled
      generalize ManagedState.addLeaf s w (w.node id) state = after at hadds
      cases hadds with
      | none => exact hstay
      | member hdeclared =>
        refine ⟨ManagedState.blocks_addMember, fun x hx => ?_, htypes, fun x hx => ?_⟩
        · exact (ManagedState.mem_entries_addMember hblocks).mpr (.inl hx)
        · rcases (ManagedState.mem_entries_addMember hblocks).mp hx with hx | hx
          · exact .inl hx
          · obtain ⟨d, hd, rfl⟩ := List.mem_map.mp hx
            rw [hpath]
            exact .inr ⟨id, List.mem_cons_self, .bridge howner (hdeclared d hd)⟩
    · unfold ManagedState.addLeaf
      rw [hparent]
      simp only [Option.map_some, beq_eq_false_iff_ne.mpr hclass, Bool.false_eq_true, if_false]
      exact hstay

theorem ManagedState.step_leaf (s : Surroundings) (w : Workspace) (id : NodeId)
    (state : ManagedState) :
    ManagedState.step s w .leaf id state = (true, ManagedState.addLeaf s w (w.node id) state) := by
  unfold ManagedState.step
  simp only

/-- The walk goes no deeper where the file is closed. -/
theorem deeper_enter : (ManagedState.step s w .enter id state).1 = !isClosed (w.node id).kind := by
  unfold ManagedState.step
  simp only
  cases (w.node id).kind <;> rfl

/-- Where the walk enters a node it opens the node's block. -/
theorem blocks_enter :
    (ManagedState.step s w .enter id state).2.blocks = (opened? s w id).toList ++ state.blocks := by
  unfold ManagedState.step opened?
  simp only
  cases hkind : (w.node id).kind with
  | enumeration => exact ManagedState.blocks_put
  | _ => rfl

/-- Where the walk enters a type, that type is declared, and nothing but it and its destructor. -/
theorem entries_enter (hopen : state.blocks = openAt s w id) :
    (∀ x ∈ state.declared s, x ∈ (ManagedState.step s w .enter id state).2.declared s) ∧
      ((w.node id).kind = .classType ∨ (w.node id).kind = .enumeration →
        (spot s w id, .type (w.node id).name) ∈
          (ManagedState.step s w .enter id state).2.declared s) ∧
      ∀ x ∈ (ManagedState.step s w .enter id state).2.declared s, x ∈ state.declared s ∨
          Stands s w id x := by
  have hspot : OpenBlock.path [.nameSpace s.rules.name] state.blocks = spot s w id :=
    by rw [hopen, spot]
  unfold ManagedState.step
  simp only
  cases hkind : (w.node id).kind with
  | classType =>
    obtain ⟨c, isInheritable, hblock, -⟩ := exists_classBlock s w (w.node id)
    have hname := name_of_classBlock hblock
    have hmem : ∀ x, x ∈ (state.openBlock (classBlock s w (w.node id))).declared s ↔
        x ∈ state.declared s ∨ x ∈ c.entries (spot s w id) := by
      intro x
      rw [hblock, ← hspot]
      exact ManagedState.mem_entries_openBlock
    refine ⟨fun x hx => (hmem x).mpr (.inl hx), fun _ => (hmem _).mpr (.inr ?_), fun x hx => ?_⟩
    · rw [ManagedClass.entries, hname]
      exact List.mem_cons_self
    · rcases (hmem x).mp hx with hx | hx
      · exact .inl hx
      · rw [ManagedClass.entries, hname] at hx
        rcases List.mem_cons.mp hx with rfl | hx
        · exact .inr (.type (.inl hkind))
        · obtain ⟨d, hd, rfl⟩ := List.mem_map.mp hx
          exact .inr (.bridge (owner?_of_class hkind) (declared_of_classBlock hkind hblock hd))
  | nameSpace =>
    have hmem : ∀ x, x ∈ (state.openBlock (namespaceBlock s w id (w.node id))).declared s ↔
        x ∈ state.declared s := by
      intro x
      rw [ManagedState.mem_entries_openBlock]
      simp [namespaceBlock, OpenBlock.entries]
    refine ⟨fun x hx => (hmem x).mpr hx, ?_, fun x hx => .inl ((hmem x).mp hx)⟩
    rintro (hfalse | hfalse) <;> cases hfalse
  | enumeration =>
    have hmem : ∀ x, x ∈ (state.put [.enumeration (managedEnum w (w.node id))]).declared s ↔
        x ∈ state.declared s ∨ x = (spot s w id, .type (w.node id).name) := by
      intro x
      rw [ManagedState.mem_entries_put, hspot]
      simp [ManagedItem.entriesAll, ManagedItem.entries, managedEnum]
    refine ⟨fun x hx => (hmem x).mpr (.inl hx), fun _ => (hmem _).mpr (.inr rfl), fun x hx => ?_⟩
    rcases (hmem x).mp hx with hx | rfl
    · exact .inl hx
    · exact .inr (.type (.inr hkind))
  | _ =>
    refine ⟨fun x hx => hx, ?_, fun x hx => .inl hx⟩
    rintro (hfalse | hfalse) <;> cases hfalse

/-- Where the walk leaves a node nothing is declared. -/
theorem entries_exit (x : List Block × Entry) :
    x ∈ (ManagedState.step s w .exit id state).2.declared s ↔ x ∈ state.declared s := by
  unfold ManagedState.step
  simp only
  cases hkind : (w.node id).kind with
  | classType | nameSpace => exact ManagedState.mem_entries_closeBlock
  | _ => exact .rfl

/-- Where the walk leaves a node it closes what it has opened. -/
theorem blocks_exit (s : Surroundings) (w : Workspace) (id : NodeId) (state after : ManagedState)
    (h : after.blocks = (ManagedState.step s w .enter id state).2.blocks) :
    (if (ManagedState.step s w .enter id state).1 then (ManagedState.step s w .exit id after).2
      else after).blocks = state.blocks := by
  unfold ManagedState.step at h ⊢
  simp only at h ⊢
  cases hkind : (w.node id).kind with
  | classType | nameSpace =>
    rw [hkind] at h
    simp only [if_true]
    rw [ManagedState.blocks_closeBlock, h]
    rfl
  | enumeration =>
    rw [hkind] at h
    exact h.trans ManagedState.blocks_put
  | _ =>
    rw [hkind] at h
    exact h

/-- The state after the walk from a node. -/
def written (s : Surroundings) (w : Workspace) (bound : Nat) (id : NodeId) (state : ManagedState) :
    ManagedState :=
  Forest.walked (fun _ => w.forest) (fun event id _ state => ManagedState.step s w event id state)
    bound id state

/-- The managed file of a tree is what writing its root leaves, in reading order. -/
theorem ManagedFile.ofTree_eq (s : Surroundings) (w : Workspace) (root : NodeId) :
    ManagedFile.ofTree s w root = ⟨s.rules.name,
      (written s w w.forest.depthBound root {}).items.reverse⟩ := by
  have hrun : (Forest.walkWithin (m := StateM ManagedState) (pure w.forest)
      (fun event id _ state => ManagedState.step s w event id state) w.forest.depthBound
        root).run {} =
      ((), written s w w.forest.depthBound root {}) :=
    Forest.run_walkWithin (.state ManagedState) (fun _ => rfl)
      (fun _ _ _ _ => rfl) w.forest.depthBound root {}
  unfold ManagedFile.ofTree
  simp only [hrun]

/-- A walk over children writes what the walks from each of them write. -/
theorem Writes.children {ids : NodeId → List NodeId} {write : ManagedState → NodeId → ManagedState}
    {cs : List NodeId} (h : ∀ c ∈ cs, ∀ inner : ManagedState, inner.blocks = state.blocks →
      Writes s w (ids c) inner (write inner c)) :
    Writes s w (cs.flatMap ids) state (cs.foldl write state) := by
  induction cs generalizing state with
  | nil => exact .refl
  | cons c rest ih =>
    have hfirst := h c List.mem_cons_self state rfl
    have hrest : Writes s w (rest.flatMap ids) (write state c) (rest.foldl write (write state c)) :=
      ih fun d hd inner hinner => h d (List.mem_cons_of_mem _ hd) inner (hinner.trans hfirst.blocks)
    rw [List.flatMap_cons, List.foldl_cons]
    exact hfirst.trans hrest

/-- The walk from a node closes the blocks it opens, and declares what belongs to the nodes that it
enters, each thing at its place. -/
theorem written_spec (hf : w.forest.WellFormed) (hsettled : AllSettled w) (bound : Nat)
    (id : NodeId) (state : ManagedState) (hopen : state.blocks = openAt s w id) :
    Writes s w (w.forest.preorder isClosed bound id) state (written s w bound id state) := by
  induction bound generalizing id state with
  | zero => exact .refl
  | succ bound ih =>
    unfold written Forest.walked Forest.preorder
    cases hn : w.forest.node? id with
    | none => exact .refl
    | some n =>
      have hplain : n.isProxy = false := hf.plain id n.unlinked (Forest.content?_of_node? hn)
      have hnode := Workspace.node_of_node? hn
      simp only [hplain, Bool.false_eq_true, if_false]
      by_cases hcontainer : n.kind.isContainer = true
      · rw [if_pos hcontainer]
        obtain ⟨hkept, htype, hnew⟩ := entries_enter (s := s) hopen
        have hdeeper : (ManagedState.step s w .enter id state).1 = !isClosed n.kind := by
          rw [← hnode]
          exact deeper_enter
        have hexit := blocks_exit s w id state
        have hbelow : Writes s w ((w.forest.children id).flatMap (w.forest.preorder isClosed bound))
            (ManagedState.step s w .enter id state).2
            ((w.forest.children id).foldl (fun state c => written s w bound c state)
              (ManagedState.step s w .enter id state).2) := by
          refine Writes.children fun c hc inner hinner => ih c inner ?_
          rw [hinner, blocks_enter, hopen, openAt_child hf ((hf.links id c).mp hc)]
        generalize ManagedState.step s w .enter id state =
          entry at hkept htype hnew hdeeper hexit hbelow
        obtain ⟨deeper, entered⟩ := entry
        simp only at hkept htype hnew hdeeper hexit hbelow
        subst hdeeper
        cases hclosed : isClosed n.kind with
        | true =>
          simp only [hclosed, Bool.not_true, Bool.false_eq_true, if_false, if_true] at hexit ⊢
          refine ⟨hexit entered rfl, hkept, fun key hkey => List.mem_singleton.mp hkey ▸ htype,
            fun x hx => ?_⟩
          exact (hnew x hx).imp_right fun h => ⟨id, List.mem_cons_self, h⟩
        | false =>
          simp only [hclosed, Bool.not_false, Bool.false_eq_true, if_false, if_true] at hexit ⊢
          refine ⟨hexit _ hbelow.blocks, fun x hx => ?_, fun key hkey hkind => ?_, fun x hx => ?_⟩
          · exact (entries_exit x).mpr (hbelow.kept x (hkept x hx))
          · rcases List.mem_cons.mp hkey with rfl | hkey
            · exact (entries_exit _).mpr (hbelow.kept _ (htype hkind))
            · exact (entries_exit _).mpr (hbelow.types key hkey hkind)
          · rcases hbelow.new x ((entries_exit x).mp hx) with h | ⟨key, hkey, h⟩
            · exact (hnew x h).imp_right fun h => ⟨id, List.mem_cons_self, h⟩
            · exact .inr ⟨key, List.mem_cons_of_mem _ hkey, h⟩
      · rw [if_neg hcontainer]
        have hleaf : n.kind.isContainer = false := Bool.not_eq_true _ ▸ hcontainer
        have hbare := hf.bare id n.unlinked (Forest.content?_of_node? hn) hleaf
        rw [ManagedState.step_leaf, hbare]
        simp only [List.flatMap_nil, ite_self, hnode]
        exact addLeaf_spec hf hn hleaf hopen (hsettled.node? hn)

section Tree

variable (hrooted : Rooted s w) (htop : w.forest.parent? s.root = none) (hsettled : AllSettled w)
include hrooted htop hsettled

/-- Everything that the file of a tree declares belongs to a node of the tree, and stands at that
node's place. -/
theorem ofTree_stands {x : List Block × Entry} (hx : x ∈ (ManagedFile.ofTree s w s.root).entries) :
    ∃ id ∈ w.forest.preorder isClosed w.forest.depthBound s.root, Stands s w id x := by
  have hopen : ({} : ManagedState).blocks = openAt s w s.root := by
    unfold openAt
    rw [hrooted.wellFormed.lineage_eq, htop]
    rfl
  have hmem : x ∈ (written s w w.forest.depthBound s.root {}).declared s := by
    rw [ManagedFile.ofTree_eq] at hx
    exact List.mem_append_left _ (ManagedItem.mem_entriesAll_reverse.mp hx)
  rcases (written_spec hrooted.wellFormed hsettled w.forest.depthBound s.root {} hopen).new x
    hmem with h | h
  · cases h
  · exact h

/-- Every type that the walk meets is declared at its place. -/
theorem mem_entries_ofTree {id : NodeId}
    (hid : id ∈ w.forest.preorder isClosed w.forest.depthBound s.root)
    (hkind : (w.node id).kind = .classType ∨ (w.node id).kind = .enumeration) :
    (spot s w id, .type (w.node id).name) ∈ (ManagedFile.ofTree s w s.root).entries := by
  have hopen : ({} : ManagedState).blocks = openAt s w s.root := by
    unfold openAt
    rw [hrooted.wellFormed.lineage_eq, htop]
    rfl
  have hspec := written_spec hrooted.wellFormed hsettled w.forest.depthBound s.root {} hopen
  have hframes : (written s w w.forest.depthBound s.root {}).frames = [] := by
    have hblocks := hspec.blocks
    exact List.map_eq_nil_iff.mp hblocks
  have hmem := hspec.types id hid hkind
  rw [ManagedFile.ofTree_eq]
  rw [ManagedState.declared, ManagedState.entries, hframes] at hmem
  simp only [ManagedState.framesEntries, List.append_nil] at hmem
  exact ManagedItem.mem_entriesAll_reverse.mpr hmem

end Tree

/-- Whether every extern is declared for a node of the tree whose function is in the bridge file,
and the two agree just where the node is not misplaced. -/
def ManagedFile.Pairs (s : Surroundings) (w : Workspace) (m : ManagedFile) (b : BridgeFile) :
    Prop :=
  ∀ d ∈ m.externs, ∃ id n arity f, w.forest.node? id = some n ∧ w.forest.Within s.root id ∧
    Calls n d.name arity ∧ f ∈ exported s w id ∧ f ∈ b.functions ∧ f.name = d.name ∧
      (Agrees arity d f ↔ ¬Misplaced w n)

/-- The two files of a settled tree agree. The tree may still hold globals outside of classes, since
nothing is asked of their places. -/
theorem pairs_of_rooted (hrooted : Rooted s w) (htop : w.forest.parent? s.root = none)
    (hsettled : AllSettled w) :
    (ManagedFile.ofTree s w s.root).Pairs s w (BridgeFile.ofTree s w s.root) := by
  intro d hd
  have hf := hrooted.wellFormed
  obtain ⟨inside, hinside⟩ := ManagedFile.mem_externs.mp hd
  obtain ⟨id, hid, hstands⟩ := ofTree_stands hrooted htop hsettled hinside
  cases hstands with
  | bridge howner hdeclared =>
    obtain ⟨arity, f, hcalls, hexported, hname, hagrees⟩ := hdeclared
    obtain ⟨hwithin, n, hn⟩ := Forest.within_of_mem_preorder hf hid
    obtain ⟨n, hn, -⟩ := Option.map_eq_some_iff.mp hn
    rw [Workspace.node_of_node? hn] at hcalls hagrees
    refine ⟨id, n, arity, f, hn, hwithin, hcalls, hexported, ?_, hname, hagrees⟩
    rw [ofTree_eq, (collected_eq hf _ _ _).1]
    exact List.mem_append_right _ (List.mem_flatMap.mpr ⟨id, hid, hexported⟩)

end Interop.Emit

namespace Interop

open Overlay Emit

variable {g : Generator} {others : List NodeId} {s : Surroundings}

/-- The standard passes make exactly two artifacts, both printed from the workspace that the passes
leave. -/
theorem Passes.standard_artifacts (s : Surroundings) (units : List HeaderUnit) (w : Workspace) :
    (Passes.standard.apply s units w).2 =
      [⟨BridgeFile.fileName s.rules,
        (BridgeFile.ofTree s (Passes.standard.apply s units w).1 s.root).text s⟩,
      ⟨ManagedFile.fileName s.rules,
        (ManagedFile.ofTree s (Passes.standard.apply s units w).1 s.root).text⟩] :=
  rfl

/-- Every extern of the managed file has its function in the bridge file. The two have the same
parameters unless the extern is for a function that needs no object, and the class that the function
was moved into has objects: then the extern takes one that the function does not take. -/
theorem Passes.externs_paired (hg : Generator.Reached g.workspace)
    (hroot : s.root = (g.restart others).1) (units : List HeaderUnit) :
    let made := Passes.standard.apply s units (g.restart others).2
    let b := BridgeFile.ofTree s made.1 s.root
    let m := ManagedFile.ofTree s made.1 s.root
    made.2 = [⟨BridgeFile.fileName s.rules, b.text s⟩, ⟨ManagedFile.fileName s.rules, m.text⟩] ∧
      m.Pairs s made.1 b := by
  have hbare := Generator.restart_bareTree hg.wellFormed hroot
  have hrooted := hbare.rooted
  have hsettled := Generator.restart_settled hg.wellFormed hg.settled others
  refine ⟨standard_artifacts s units _, ?_⟩
  exact pairs_of_rooted (Passes.apply_rooted hrooted Passes.standard)
    (Passes.apply_top hrooted hbare.top Passes.standard)
      (Passes.apply_settled hrooted hsettled Passes.standard)

/-- A namespace with a class and a function that takes it: the externs of both are paired. -/
theorem Passes.externs_paired_function :
    ∃ u : HeaderUnit,
      (Header.FrontEnd.builtin {} ⟨"A.h"⟩
        (.text "namespace N { struct A { int x; }; int f(A a); }")).result = .ok u ∧
      let g := Generator.ofDirectories ⟨""⟩ ⟨"/o"⟩
      let s : Surroundings :=
        { settings := g.settings, rules := { name := "M" }, root := (g.restart []).1 }
      let made := Passes.standard.apply s [u] (g.restart []).2
      let b := BridgeFile.ofTree s made.1 s.root
      let m := ManagedFile.ofTree s made.1 s.root
      made.2 = [⟨BridgeFile.fileName s.rules, b.text s⟩, ⟨ManagedFile.fileName s.rules, m.text⟩] ∧
        m.Pairs s made.1 b := by
  refine exists_ok_of_decide (fun _ => True) (by decide +kernel) fun u _ _ => ?_
  exact Passes.externs_paired (Generator.Reached.ofDirectories ⟨""⟩ ⟨"/o"⟩) rfl [u]

/-- Where a header declares the class that functions are moved into, an extern has a parameter more
than every function of its name. -/
theorem Passes.externs_unpaired_globals :
    ∃ u : HeaderUnit,
      (Header.FrontEnd.builtin {} ⟨"G.h"⟩
        (.text "namespace N { class Globals { public: int x; }; void f(int a); }")).result = .ok u ∧
      let g := Generator.ofDirectories ⟨""⟩ ⟨"/o"⟩
      let s : Surroundings :=
        { settings := g.settings, rules := { name := "M" }, root := (g.restart []).1 }
      let made := Passes.standard.apply s [u] (g.restart []).2
      let b := BridgeFile.ofTree s made.1 s.root
      let m := ManagedFile.ofTree s made.1 s.root
      made.2 = [⟨BridgeFile.fileName s.rules, b.text s⟩, ⟨ManagedFile.fileName s.rules, m.text⟩] ∧
        ∃ d ∈ m.externs, ∀ f ∈ b.functions, f.name = d.name →
            f.parameters.length < d.parameters.length := by
  refine exists_ok_of_decide (fun u =>
    let g := Generator.ofDirectories ⟨""⟩ ⟨"/o"⟩
    let s : Surroundings :=
      { settings := g.settings, rules := { name := "M" }, root := (g.restart []).1 }
    let made := Passes.standard.apply s [u] (g.restart []).2
    ∃ d ∈ (ManagedFile.ofTree s made.1 s.root).externs,
      ∀ f ∈ (BridgeFile.ofTree s made.1 s.root).functions,
      f.name = d.name → f.parameters.length <
        d.parameters.length) (by decide +kernel) fun u _ hextern => ?_
  exact ⟨standard_artifacts _ _ _, hextern⟩

end Interop
