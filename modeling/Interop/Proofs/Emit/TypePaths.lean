import Interop.Proofs.Emit.Around
import Interop.Proofs.Emit.Blocks

namespace Interop.Emit

open Overlay

/-- The full path of a type that is declared inside of some blocks: their names and its own. -/
def typePath? : List Block × Entry → Option (List String)
  | (around, .type name) => some (around.map Block.name ++ [name])
  | (_, .bridge _) => none

/-- The full paths of the types that a managed file declares, one for each declaration. -/
def ManagedFile.typePaths (m : ManagedFile) : List (List String) :=
  m.entries.filterMap typePath?

theorem typePaths_externsAt (around : List Block) (bridges : List BridgeDeclaration) :
    (externsAt around bridges).filterMap typePath? = [] := by
  rw [externsAt, List.filterMap_map, List.filterMap_eq_nil_iff]
  exact fun _ _ => rfl

/-- A class declares one type, below the blocks around it. -/
theorem ManagedClass.typePaths_entries (around : List Block) (c : ManagedClass) :
    (c.entries around).filterMap typePath? = [around.map Block.name ++ [c.name]] := by
  rw [entries, List.filterMap_cons, typePaths_externsAt]
  rfl

namespace ManagedState

variable {base : List Block} {state : ManagedState}

/-- The full paths of the types that are declared if nothing is added any more. -/
def typePaths (base : List Block) (state : ManagedState) : List (List String) :=
  (state.entries base).filterMap typePath?

/-- Closing a block changes no path of a type. -/
theorem typePaths_closeBlock : (state.closeBlock.typePaths base).Perm (state.typePaths base) :=
  entries_closeBlock.filterMap _

/-- What a class has been told to end with is no type. -/
theorem typePaths_changeClass {change : BlockFrame → BlockFrame}
    (hchange : ∀ frame, (change frame).block = frame.block ∧ (change frame).items = frame.items)
    (frames : List BlockFrame) :
    (framesEntries base (changeClass change frames)).filterMap typePath? =
      (framesEntries base frames).filterMap typePath? := by
  have hframe : ∀ (around : List Block) (frame : BlockFrame),
      (frame.entries around).filterMap typePath? =
        (ManagedItem.entriesAll (around ++ frame.block.blocks) frame.items).filterMap typePath? ++
        (frame.block.entries around).filterMap typePath? := by
    intro around frame
    unfold BlockFrame.entries
    split <;> simp [typePaths_externsAt]
  induction frames with
  | nil => rfl
  | cons first outer ih =>
    unfold changeClass
    split
    · simp only [framesEntries, List.filterMap_append, hframe, (hchange first).1, (hchange first).2]
    · simp only [framesEntries, List.filterMap_append, ih,
        map_block_changeClass fun frame => (hchange frame).1]

/-- Members declare no types. -/
theorem typePaths_addMember (state : ManagedState) (signature : String) (m : ManagedMember)
    (bridges : List BridgeDeclaration) :
    ((state.addMember signature m bridges).typePaths base).Perm (state.typePaths base) := by
  have hput : ((state.put [.member m]).typePaths base).Perm (state.typePaths base) :=
    (@entries_put base state [.member m]).filterMap typePath?
  have hchange : (state.addMember signature m bridges).typePaths base =
      (state.put [.member m]).typePaths base := by
    unfold addMember typePaths entries
    simp only [List.filterMap_append]
    congr 1
    apply typePaths_changeClass
    intro frame
    exact ⟨rfl, rfl⟩
  exact hchange ▸ hput

/-- A leaf declares no type. -/
theorem typePaths_offers {step : ManagedState → ManagedState} (h : Offers step)
    (state : ManagedState) :
    ((step state).typePaths base).Perm (state.typePaths base) := by
  cases hclass : state.class? with
  | none => rw [h.outside state hclass]
  | some c =>
    rcases h.inside c with hstays | ⟨o, -, htakes⟩
    · rw [hstays state hclass]
    · rw [htakes state hclass, take]
      split
      · exact .refl _
      · exact typePaths_addMember state _ _ _

end ManagedState

section Tree

variable {s : Surroundings} {w : Workspace} {id : NodeId} {state : ManagedState}

/-- Whether nodes of a kind are declared as types. -/
def isType (kind : Kind) : Bool :=
  kind == .classType || kind == .enumeration

/-- The nodes of a tree that are declared as types, in the order of the walk. -/
def types (s : Surroundings) (w : Workspace) : List NodeId :=
  (w.forest.preorder isClosed w.forest.depthBound s.root).filter fun id => isType (w.node id).kind

/-- Whether a node lies in the native namespace that has the module's name. -/
def inModule (s : Surroundings) (w : Workspace) (id : NodeId) : Bool :=
  (w.forest.ancestors id).head?.any (w.forest.isNamespace · s.rules.name)

/-- The native path of a node: the names of the namespaces and classes around it, and its own. -/
def nativePath (w : Workspace) (id : NodeId) : List String :=
  (blocksOf w.forest (w.forest.ancestors id)).map Block.name ++ [(w.node id).name]

/-- The managed path of a node: its native path, with the module's name in front unless it lies in
the native namespace of that name. -/
def managedPath (s : Surroundings) (w : Workspace) (id : NodeId) : List String :=
  if inModule s w id then nativePath w id else s.rules.name :: nativePath w id

/-- The place where a node's type stands is told by its managed path. -/
theorem spot_managedPath (hf : w.forest.WellFormed) (htop : w.forest.parent? s.root = none)
    (hfile : (w.node s.root).kind = .file) (hwithin : w.forest.Within s.root id) :
    (spot s w id).map Block.name ++ [(w.node id).name] = managedPath s w id := by
  rw [spot_eq hf htop hfile hwithin, managedPath, nativePath, inModule, blocksAround]
  cases w.forest.ancestors id with
  | nil => rfl
  | cons top inner =>
    cases hspace : w.forest.isNamespace top s.rules.name with
    | false => simp [hspace, Block.name]
    | true =>
      obtain ⟨n, hn, hnamed⟩ := (Option.any_eq_true _ _).mp hspace
      obtain ⟨hkind, hname⟩ := (Bool.and_eq_true _ _).mp hnamed
      have hblock : blocksOf w.forest [top] = [.nameSpace s.rules.name] := by
        simp [blocksOf, hn, Block.ofNode?, beq_iff_eq.mp hkind, beq_iff_eq.mp hname]
      simp only [List.head?_cons, Option.any_some, hspace, if_true]
      rw [← List.singleton_append (x := top), blocksOf_append, hblock]
      rfl

/-- The full paths of the types among some nodes, each told by the blocks that are open at the
node. -/
def pathsOf (s : Surroundings) (w : Workspace) (ids : List NodeId) : List (List String) :=
  (ids.filter fun id => isType (w.node id).kind).map fun id => (spot s w id).map Block.name ++
    [(w.node id).name]

theorem pathsOf_append (s : Surroundings) (w : Workspace) (ids ids' : List NodeId) :
    pathsOf s w (ids ++ ids') = pathsOf s w ids ++ pathsOf s w ids' := by
  rw [pathsOf, List.filter_append, List.map_append]
  rfl

/-- A class or an enum has the path of its place with its own name behind. -/
theorem pathsOf_type (h : isType (w.node id).kind = true) :
    pathsOf s w [id] = [(spot s w id).map Block.name ++ [(w.node id).name]] := by
  simp [pathsOf, h]

/-- Nothing else has a path. -/
theorem pathsOf_other (h : isType (w.node id).kind = false) : pathsOf s w [id] = [] := by
  simp [pathsOf, h]

/-- What a part of the walk does to the declared types: the same blocks are open as before, and one
type is declared for each of the nodes that are types. -/
structure Names (s : Surroundings) (w : Workspace) (ids : List NodeId)
    (before after : ManagedState) : Prop where
  blocks : after.blocks = before.blocks
  paths : (after.typePaths [.nameSpace s.rules.name]).Perm
    (pathsOf s w ids ++ before.typePaths [.nameSpace s.rules.name])

namespace Names

variable {ids ids' : List NodeId} {before after state : ManagedState}

theorem refl (state : ManagedState) : Names s w [] state state :=
  ⟨rfl, .refl _⟩

theorem trans (h : Names s w ids before state) (h' : Names s w ids' state after) :
    Names s w (ids ++ ids') before after := by
  refine ⟨h'.blocks.trans h.blocks, h'.paths.trans ?_⟩
  rw [pathsOf_append, List.append_assoc]
  exact (h.paths.append_left _).trans (List.perm_append_comm_assoc _ _ _)

/-- The walk over several nodes names what the walks from each of them name. -/
theorem children {ids : NodeId → List NodeId} {bound : Nat} {cs : List NodeId}
    (h : ∀ c ∈ cs, ∀ inner : ManagedState, inner.blocks = state.blocks →
      Names s w (ids c) inner (written s w bound c inner)) :
    Names s w (cs.flatMap ids) state (writtenAll s w bound cs state) := by
  induction cs generalizing state with
  | nil => exact .refl state
  | cons c rest ih =>
    have hfirst := h c List.mem_cons_self state rfl
    rw [List.flatMap_cons]
    exact hfirst.trans (ih fun d hd inner hinner => h d (List.mem_cons_of_mem _ hd) inner
      (hinner.trans hfirst.blocks))

/-- A leaf names nothing. -/
theorem leaf {n : Node} (hnode : w.node id = n) (hleaf : n.kind.isContainer = false)
    (state : ManagedState) :
    Names s w [id] state (ManagedState.addLeaf s w n state) := by
  have hoffers := addLeaf_offers s w n
  have hkind : isType (w.node id).kind = false := by
    rw [hnode]
    cases h : n.kind <;> rw [h] at hleaf <;> first | rfl | cases hleaf
  refine ⟨(Returns.offers hoffers state).blocks, ?_⟩
  rw [pathsOf_other hkind]
  exact ManagedState.typePaths_offers hoffers state

/-- An enum is declared at the place of its node, if the blocks around it are those that are
open. -/
theorem enumeration {n : Node} (hnode : w.node id = n) (hkind : n.kind = .enumeration)
    (hopen : state.blocks = openAt s w id) :
    Names s w [id] state (state.put [.enumeration (managedEnum w n)]) := by
  refine ⟨ManagedState.blocks_put, ?_⟩
  rw [pathsOf_type (by rw [hnode, hkind]; rfl), hnode]
  have hput := (@ManagedState.entries_put [.nameSpace s.rules.name] state
    [.enumeration (managedEnum w n)]).filterMap
    typePath?
  rw [hopen] at hput
  exact hput

/-- A block names what its own type and what lies in it name. -/
theorem closeBlock {block : OpenBlock} (hopen : state.blocks = openAt s w id)
    (hblock : (block.entries (spot s w id)).filterMap typePath? = pathsOf s w [id])
    (h : Names s w ids (state.openBlock block) after) :
    Names s w (id :: ids) state after.closeBlock := by
  have hentry : ((state.openBlock block).typePaths [.nameSpace s.rules.name]).Perm
      (pathsOf s w [id] ++ state.typePaths [.nameSpace s.rules.name]) := by
    have hentries := (@ManagedState.entries_openBlock [.nameSpace s.rules.name] state
      block).filterMap typePath?
    rw [List.filterMap_append, hopen, ← spot, hblock] at hentries
    exact hentries
  constructor
  · rw [ManagedState.blocks_closeBlock, h.blocks]
    rfl
  · refine ManagedState.typePaths_closeBlock.trans (h.paths.trans ?_)
    rw [show id :: ids = [id] ++ ids from rfl, pathsOf_append, List.append_assoc]
    exact (hentry.append_left _).trans (List.perm_append_comm_assoc _ _ _)

end Names

/-- The walk from a node declares one type for every node that it enters and that is a type. -/
theorem written_names (hf : w.forest.WellFormed) (bound : Nat) (id : NodeId) (state : ManagedState)
    (hopen : state.blocks = openAt s w id) :
    Names s w (w.forest.preorder isClosed bound id) state (written s w bound id state) := by
  induction bound generalizing id state with
  | zero => exact .refl state
  | succ bound ih =>
    rw [Forest.preorder]
    cases hn : w.forest.node? id with
    | none =>
      unfold written Forest.walked
      rw [hn]
      exact .refl state
    | some n =>
      have hnode := Workspace.node_of_node? hn
      have hplain : n.isProxy = false := hf.plain id n.unlinked (Forest.content?_of_node? hn)
      have hbelow : ∀ inner : ManagedState, inner.blocks = (opened? s w id).toList ++ state.blocks →
          Names s w ((w.forest.children id).flatMap (w.forest.preorder isClosed bound)) inner
            (writtenAll s w bound (w.forest.children id) inner) := by
        intro inner hinner
        refine .children fun c hc later hlater => ih c later ?_
        rw [hlater, hinner, hopen, openAt_child hf ((hf.links id c).mp hc)]
      cases hcontainer : n.kind.isContainer with
      | false =>
        have hbare := hf.bare id n.unlinked (Forest.content?_of_node? hn) hcontainer
        rw [written_leaf hn hplain hcontainer, hbare]
        simpa using Names.leaf hnode hcontainer state
      | true =>
        rw [written_container hn hplain hcontainer]
        simp only
        cases hkind : n.kind with
        | classType =>
          obtain ⟨c, isInheritable, hblock, -⟩ := exists_classBlock s w n
          have hopened : opened? s w id = some (classBlock s w n) := by rw [opened?, hnode, hkind]
          refine .closeBlock hopen ?_ (hbelow _ (by rw [hopened]; rfl))
          rw [hblock, pathsOf_type (by rw [hnode, hkind]; rfl), hnode, ← name_of_classBlock hblock]
          exact c.typePaths_entries _
        | nameSpace =>
          have hopened : opened? s w id = some (namespaceBlock s w id n) :=
            by rw [opened?, hnode, hkind]
          refine .closeBlock hopen ?_ (hbelow _ (by rw [hopened]; rfl))
          rw [pathsOf_other (by rw [hnode, hkind]; rfl)]
          rfl
        | enumeration => exact .enumeration hnode hkind hopen
        | _ =>
          have hopened : opened? s w id = none := by rw [opened?, hnode, hkind]
          have hself : Names s w [id] state state := by
            refine ⟨rfl, ?_⟩
            rw [pathsOf_other (by rw [hnode, hkind]; rfl)]
            exact .refl _
          exact hself.trans (hbelow state (by rw [hopened]; rfl))

/-- Whether no two types of a tree are declared under one path. -/
structure TypesApart (s : Surroundings) (w : Workspace) : Prop where
  /-- Types on the same side of the module's native namespace have native paths of their own. -/
  native : ∀ id ∈ types s w, ∀ other ∈ types s w, inModule s w id = inModule s w other →
    nativePath w id = nativePath w other → id = other
  /-- No type outside of the module's native namespace has the native path of a type inside but for
  the module's name. -/
  elided : ∀ id ∈ types s w, ∀ other ∈ types s w, inModule s w id = true →
    inModule s w other = false → nativePath w id ≠ s.rules.name :: nativePath w other

/-- The managed paths of the types of a tree are different exactly if the types are apart. -/
theorem managedPath_injOn_iff :
    (∀ id ∈ types s w, ∀ other ∈ types s w, managedPath s w id = managedPath s w other →
      id = other) ↔ TypesApart s w := by
  constructor
  · intro h
    refine ⟨fun id hid other hother hside hpath => h id hid other hother ?_,
      fun id hid other hother hinside houtside hpath => ?_⟩
    · rw [managedPath, managedPath, hside, hpath]
    · have hsame : id = other := by
        apply h id hid other hother
        rw [managedPath, managedPath, hinside, houtside, hpath]
        rfl
      rw [hsame, houtside] at hinside
      cases hinside
  · intro h id hid other hother hpath
    unfold managedPath at hpath
    cases hinside : inModule s w id <;> cases hinside' : inModule s w other <;>
      simp only [hinside, hinside', if_true, Bool.false_eq_true, if_false] at hpath
    · exact h.native id hid other hother (hinside.trans hinside'.symm) (List.cons.inj hpath).2
    · exact absurd hpath.symm (h.elided other hother id hid hinside' hinside)
    · exact absurd hpath (h.elided id hid other hother hinside hinside')
    · exact h.native id hid other hother (hinside.trans hinside'.symm) hpath

end Tree

section Types

variable {s : Surroundings} {w : Workspace} {id : NodeId} (hrooted : Rooted s w)
  (htop : w.forest.parent? s.root = none)
include hrooted htop

/-- The managed file declares one type for each of the tree's types, under its managed path. -/
theorem ofTree_typePaths :
    (ManagedFile.ofTree s w s.root).typePaths.Perm ((types s w).map (managedPath s w)) := by
  have hf := hrooted.wellFormed
  obtain ⟨r, hr, hfile⟩ := hrooted.root
  have hopen : ({} : ManagedState).blocks = openAt s w s.root := by
    unfold openAt
    rw [hf.lineage_eq, htop]
    rfl
  have hnames := written_names hf w.forest.depthBound s.root {} hopen
  have hframes : (written s w w.forest.depthBound s.root {}).frames = [] :=
    List.map_eq_nil_iff.mp hnames.blocks
  have hpaths : pathsOf s w (w.forest.preorder isClosed w.forest.depthBound s.root) =
      (types s w).map (managedPath s w) := by
    refine List.map_congr_left fun id hid => ?_
    have hwithin := (Forest.within_of_mem_preorder hf (List.mem_filter.mp hid).1).1
    exact spot_managedPath hf htop ((Globals.node_kind hr).trans hfile) hwithin
  rw [ManagedFile.ofTree_eq, ← hpaths]
  refine (ManagedItem.entriesAll_reverse.filterMap typePath?).trans ?_
  have hwritten := hnames.paths
  simpa [ManagedState.typePaths, ManagedState.entries, hframes, ManagedState.framesEntries,
    ManagedItem.entriesAll] using hwritten

omit htop in
/-- Every class of a tree, and every enum that no enum encloses, is one of its types. -/
theorem mem_types {n : Node} (hwithin : w.forest.Within s.root id) (hn : w.forest.node? id = some n)
    (htype : isType n.kind = true)
    (houter : ∀ outer e, w.forest.content? outer = some e → e.kind = .enumeration →
      w.forest.Within outer id → outer = id) : id ∈ types s w := by
  have hbound : w.forest.size - w.forest.rank s.root < w.forest.depthBound := by
    unfold Forest.depthBound
    omega
  rw [types, List.mem_filter, Workspace.node_of_node? hn]
  refine ⟨?_, htype⟩
  apply Forest.mem_preorder hrooted.wellFormed hbound hwithin ⟨_, Forest.content?_of_node? hn⟩
  intro outer e he hclosed hbelow
  exact houter outer e he (beq_iff_eq.mp hclosed) hbelow

/-- In a tree no type is declared twice if and only if the native paths of the types are apart. -/
theorem ofTree_typePaths_nodup_iff :
    (ManagedFile.ofTree s w s.root).typePaths.Nodup ↔ TypesApart s w := by
  have hnodup : (types s w).Nodup := (Forest.preorder_nodup hrooted.wellFormed).filter _
  rw [(ofTree_typePaths hrooted htop).nodup_iff, List.nodup_map_iff_inj_on hnodup]
  exact managedPath_injOn_iff

end Types

end Interop.Emit

namespace Interop

open Overlay Emit

/-- Whatever passes are done, the managed file declares every class and every unenclosed enum of the
tree under its native path, with the module's name in front of what does not lie in the native
namespace of that name. So no path is declared twice if and only if the native paths tell the types
on each side apart and none on one side is, behind the module's name, one on the other. -/
theorem Passes.type_paths_nodup_iff {g : Generator} {others : List NodeId} {s : Surroundings}
    (hg : Generator.Reached g.workspace) (hroot : s.root = (g.restart others).1) (p : Passes)
    (units : List HeaderUnit) :
    let made := (p.apply s units (g.restart others).2).1
    let file := ManagedFile.ofTree s made s.root
    (∀ id n, made.forest.Within s.root id → made.forest.node? id = some n → isType n.kind = true →
      (∀ outer e, made.forest.content? outer = some e → e.kind = .enumeration →
        made.forest.Within outer id → outer = id) → id ∈ types s made) ∧
    file.typePaths.Perm ((types s made).map (managedPath s made)) ∧
    (file.typePaths.Nodup ↔ TypesApart s made) := by
  intro made file
  have hbare := Generator.restart_bareTree hg.wellFormed hroot
  have hrooted : Rooted s made := Passes.apply_rooted hbare.rooted p
  have htop : made.forest.parent? s.root = .none := Passes.apply_top hbare.rooted hbare.top p
  exact ⟨fun id n => mem_types hrooted, ofTree_typePaths hrooted htop,
    ofTree_typePaths_nodup_iff hrooted htop⟩

/-- Types of one name inside and outside of a namespace, which are declared apart. -/
theorem Passes.type_paths_nodup_iff_namespace :
    let class_ (name : String) : Declaration :=
      { kind := .classType, name, line := 1, flags := { isDefinition := true } }
    let space : Declaration :=
      { kind := .nameSpace, name := "M", line := 1, children := [class_ "A"] }
    let u := HeaderUnit.ofDeclarations ⟨"A.h"⟩ [class_ "B", space]
    let g := Generator.ofDirectories ⟨""⟩ ⟨"/o"⟩
    let s : Surroundings :=
      { settings := g.settings, rules := { name := "M" }, root := (g.restart []).1 }
    let made := (Passes.standard.apply s [u] (g.restart []).2).1
    TypesApart s made ∧ (ManagedFile.ofTree s made s.root).typePaths.Perm [["M", "B"],
        ["M", "A"]] := by
  intro class_ space u g s made
  obtain ⟨-, hpaths, hnodup⟩ := Passes.type_paths_nodup_iff (s := s) .start rfl Passes.standard [u]
  have hmanaged : (types s made).map (managedPath s made) = [["M", "B"], ["M", "A"]] :=
    by decide +kernel
  change (ManagedFile.ofTree s made s.root).typePaths.Perm
    ((types s made).map (managedPath s made)) at hpaths
  rw [hmanaged] at hpaths
  exact ⟨hnodup.mp (hpaths.nodup_iff.mpr (by decide)), hpaths⟩

/-- A class outside of all namespaces and a class of the same name in the native namespace with the
module's name are declared under one path. -/
theorem Passes.type_paths_meet :
    let class_ (name : String) : Declaration :=
      { kind := .classType, name, line := 1, flags := { isDefinition := true } }
    let space : Declaration :=
      { kind := .nameSpace, name := "M", line := 1, children := [class_ "A"] }
    let u := HeaderUnit.ofDeclarations ⟨"A.h"⟩ [class_ "A", space]
    let g := Generator.ofDirectories ⟨""⟩ ⟨"/o"⟩
    let s : Surroundings :=
      { settings := g.settings, rules := { name := "M" }, root := (g.restart []).1 }
    let made := (Passes.standard.apply s [u] (g.restart []).2).1
    (types s made).map (nativePath made) = [["A"], ["M", "A"]] ∧
      (types s made).map (managedPath s made) = [["M", "A"], ["M", "A"]] ∧
      ¬(ManagedFile.ofTree s made s.root).typePaths.Nodup := by
  decide +kernel

end Interop
