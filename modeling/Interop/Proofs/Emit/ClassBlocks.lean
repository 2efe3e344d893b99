import Interop.Proofs.Emit.Blocks
import Interop.Proofs.Overlay.Branches

namespace Interop.Emit

open Overlay

/-- A class of a managed file with what stands in its block directly. -/
structure ClassBlock where
  class_ : ManagedClass
  members : List ManagedMember
  /-- The bridge declarations that the block ends with. -/
  bridges : List BridgeDeclaration
deriving DecidableEq, Repr

namespace ManagedItem

/-- The member that an item is. -/
def member? : ManagedItem → Option ManagedMember
  | member m => some m
  | _ => none

/-- The members among some items. -/
def members (items : List ManagedItem) : List ManagedMember :=
  items.filterMap member?

mutual

/-- The class blocks of an item, each before those that are nested in it. -/
def classBlocks : ManagedItem → List ClassBlock
  | member _ => []
  | enumeration _ => []
  | nameSpace _ items => classBlocksAll items
  | classType c items bridges => ⟨c, members items, c.bridges ++ bridges⟩ :: classBlocksAll items

/-- The class blocks of several items. -/
def classBlocksAll : List ManagedItem → List ClassBlock
  | [] => []
  | item :: rest => classBlocks item ++ classBlocksAll rest

end

mutual

/-- The members of an item that do not stand directly in the block of a class. -/
def strays (inClass : Bool) : ManagedItem → List ManagedMember
  | member m => if inClass then [] else [m]
  | enumeration _ => []
  | nameSpace _ items => straysAll false items
  | classType _ items _ => straysAll true items

/-- The members of several items that do not stand directly in the block of a class. -/
def straysAll (inClass : Bool) : List ManagedItem → List ManagedMember
  | [] => []
  | item :: rest => strays inClass item ++ straysAll inClass rest

end

variable {items items' : List ManagedItem} {inClass : Bool}

theorem classBlocksAll_append :
    classBlocksAll (items ++ items') = classBlocksAll items ++ classBlocksAll items' := by
  induction items with
  | nil => rfl
  | cons item rest ih => rw [List.cons_append, classBlocksAll, ih, classBlocksAll,
    List.append_assoc]

theorem straysAll_append :
    straysAll inClass (items ++ items') = straysAll inClass items ++ straysAll inClass items' := by
  induction items with
  | nil => rfl
  | cons item rest ih => rw [List.cons_append, straysAll, ih, straysAll, List.append_assoc]

/-- Items without members of their own have the same strays inside of a class and outside. -/
theorem straysAll_of_members (h : members items = []) :
    straysAll false items = straysAll true items := by
  induction items with
  | nil => rfl
  | cons item rest ih =>
    rw [straysAll, straysAll]
    cases item with
    | member m => cases h
    | enumeration e | nameSpace name items | classType c items bridges => rw [ih h]; rfl

end ManagedItem

/-- The class blocks of a managed file. -/
def ManagedFile.classBlocks (m : ManagedFile) : List ClassBlock :=
  ManagedItem.classBlocksAll m.items

/-- The members of a managed file that do not stand directly in the block of a class. -/
def ManagedFile.strays (m : ManagedFile) : List ManagedMember :=
  ManagedItem.straysAll false m.items

/-- Whether items are whole: no member stands beside the class blocks. -/
structure Whole (items : List ManagedItem) (blocks : List ClassBlock) : Prop where
  members : ManagedItem.members items = []
  strays : ManagedItem.straysAll true items = []
  blocks : ManagedItem.classBlocksAll items = blocks

namespace Whole

variable {items items' : List ManagedItem} {blocks blocks' : List ClassBlock}

theorem nil : Whole [] [] :=
  ⟨rfl, rfl, rfl⟩

/-- Class blocks of items that follow each other do so themselves. -/
theorem append (h : Whole items blocks) (h' : Whole items' blocks') :
    Whole (items ++ items') (blocks ++ blocks') := by
  refine ⟨?_, ?_, ?_⟩
  · rw [ManagedItem.members, List.filterMap_append]
    exact List.append_eq_nil_iff.mpr ⟨h.members, h'.members⟩
  · rw [ManagedItem.straysAll_append, h.strays, h'.strays]
    rfl
  · rw [ManagedItem.classBlocksAll_append, h.blocks, h'.blocks]

end Whole

namespace BlockFrame

/-- The class block that an open block would be closed to. -/
def classBlock? (frame : BlockFrame) : Option ClassBlock :=
  frame.class?.map fun (c, _) =>
    ⟨c, ManagedItem.members frame.items.reverse, c.bridges ++ frame.bridges.reverse⟩

/-- An open block with a member that has been offered to it. -/
def take (frame : BlockFrame) (o : Offer) : BlockFrame :=
  if frame.signatures.contains o.signature then frame
  else
    { frame with
      items := .member o.member :: frame.items
      bridges := o.bridges.reverse ++ frame.bridges
      signatures := o.signature :: frame.signatures }

end BlockFrame

/-- Whether an open block has the members of another one, and besides them only what is whole. -/
structure Filled (frame own : BlockFrame) (blocks : List ClassBlock) : Prop where
  block : own.block = frame.block
  bridges : own.bridges = frame.bridges
  signatures : own.signatures = frame.signatures
  members : ManagedItem.members own.items = ManagedItem.members frame.items
  strays : ManagedItem.straysAll true frame.items.reverse = []
  blocks : ManagedItem.classBlocksAll frame.items.reverse = blocks

namespace Filled

variable {frame own : BlockFrame} {blocks blocks' : List ClassBlock} {items : List ManagedItem}
    {o : Offer}

/-- A member that is taken by an open block is one of the block's own. -/
theorem take (h : Filled frame own blocks) (o : Offer) :
    Filled (frame.take o) (own.take o) blocks := by
  unfold BlockFrame.take
  rw [h.signatures]
  split
  · exact h
  · refine ⟨h.block, congrArg (o.bridges.reverse ++ ·) h.bridges, rfl,
      congrArg (o.member :: ·) h.members, ?_, ?_⟩
    · rw [List.reverse_cons, ManagedItem.straysAll_append, h.strays]
      rfl
    · rw [List.reverse_cons, ManagedItem.classBlocksAll_append, h.blocks]
      exact List.append_nil blocks

/-- What is whole may be put into the block. -/
theorem put (h : Filled frame own blocks) (hitems : Whole items blocks') :
    Filled { frame with items := items.reverse ++ frame.items } own (blocks ++ blocks') := by
  have hreverse : (items.reverse ++ frame.items).reverse = frame.items.reverse ++ items := by
    rw [List.reverse_append, List.reverse_reverse]
  refine ⟨h.block, h.bridges, h.signatures, ?_, ?_, ?_⟩
  · have hmembers : ManagedItem.members items.reverse = [] := by
      rw [ManagedItem.members, List.filterMap_reverse, ← ManagedItem.members, hitems.members]
      rfl
    have hall : ManagedItem.members (items.reverse ++ frame.items) =
        ManagedItem.members items.reverse ++ ManagedItem.members frame.items :=
          List.filterMap_append
    exact h.members.trans (by rw [hall, hmembers, List.nil_append])
  · rw [hreverse, ManagedItem.straysAll_append, h.strays, hitems.strays]
    rfl
  · rw [hreverse, ManagedItem.classBlocksAll_append, h.blocks, hitems.blocks]

/-- What has been taken since a block was opened does not change which class it is. -/
theorem classBlock? (h : Filled frame own blocks) : own.classBlock? = frame.classBlock? := by
  have hmembers : ManagedItem.members own.items.reverse =
      ManagedItem.members frame.items.reverse := by
    have hitems := h.members
    unfold ManagedItem.members at hitems ⊢
    rw [List.filterMap_reverse, List.filterMap_reverse, hitems]
  rw [BlockFrame.classBlock?, BlockFrame.classBlock?, BlockFrame.class?, BlockFrame.class?,
    h.block, h.bridges, hmembers]

end Filled

namespace ManagedState

variable {frame own : BlockFrame} {outer : List BlockFrame} {items : List ManagedItem}
    {blocks : List ClassBlock}

theorem put_nil (state : ManagedState) : state.put [] = state := by
  unfold put
  split
  · rfl
  · rename_i frame outer hframes
    rw [List.reverse_nil, List.nil_append, ← hframes]

/-- Items may be put one part after the other. -/
theorem put_append (state : ManagedState) (items items' : List ManagedItem) :
    state.put (items ++ items') = (state.put items).put items' := by
  unfold put
  cases hframes : state.frames with
  | nil => simp only [List.reverse_append, List.append_assoc]
  | cons frame outer => simp only [List.reverse_append, List.append_assoc]

/-- A block that is opened, filled and closed is one item of the block around it. -/
theorem closeBlock_put_openBlock (state : ManagedState) (block : OpenBlock)
    (items : List ManagedItem) :
    ((state.openBlock block).put items).closeBlock = state.put
    { block, items := items.reverse : BlockFrame }.close := by
  unfold openBlock put closeBlock
  simp only [List.append_nil]
  rfl

/-- Inside of a class a member changes the innermost block only. -/
theorem take_eq (hclass : frame.class?.isSome = true) (o : Offer) :
    take ⟨frame :: outer, items⟩ o = ⟨frame.take o :: outer, items⟩ := by
  have htaken : isTaken ⟨frame :: outer,
      items⟩ o.signature = frame.signatures.contains o.signature := by
    have hfind : (frame :: outer).find? (·.class?.isSome) = some frame :=
      List.find?_cons_of_pos (p := fun f : BlockFrame => f.class?.isSome) hclass
    rw [isTaken, hfind]
    rfl
  have hadd : addMember ⟨frame :: outer, items⟩ o.signature o.member o.bridges =
      ⟨{ frame with
        items := .member o.member :: frame.items
        bridges := o.bridges.reverse ++ frame.bridges
        signatures := o.signature :: frame.signatures } :: outer, items⟩ := by
    unfold addMember put
    simp only [changeClass]
    rw [if_pos]
    · rfl
    · exact hclass
  rw [take, htaken, hadd, BlockFrame.take]
  split <;> rfl

end ManagedState

/-- Steps that offer members fill the innermost block, provided that it is a class. -/
theorem Offers.filled {step : ManagedState → ManagedState} {frame own : BlockFrame}
    {blocks : List ClassBlock} (h : Offers step) (hfilled : Filled frame own blocks)
    (hclass : frame.class?.isSome = true) (outer : List BlockFrame) (items : List ManagedItem) :
    ∃ frame' own', step ⟨frame :: outer, items⟩ = ⟨frame' :: outer, items⟩ ∧
      step ⟨[own], []⟩ = ⟨[own'], []⟩ ∧ frame'.block = frame.block ∧ Filled frame' own' blocks := by
  obtain ⟨c, hc⟩ := Option.isSome_iff_exists.mp hclass
  have hown : own.class? = some c := by
    rw [BlockFrame.class?, hfilled.block]
    exact hc
  have hinner : ManagedState.class? ⟨frame :: outer, items⟩ = some c := by
    rw [ManagedState.class?, List.findSome?_cons, hc]
  have hinner' : ManagedState.class? ⟨[own], []⟩ = some c := by
    rw [ManagedState.class?, List.findSome?_cons, hown]
  rcases h.inside c with hstays | ⟨o, -, htakes⟩
  · exact ⟨frame, own, hstays _ hinner, hstays _ hinner', rfl, hfilled⟩
  · refine ⟨frame.take o, own.take o, ?_, ?_, ?_, hfilled.take o⟩
    · rw [htakes _ hinner, ManagedState.take_eq hclass]
    · rw [htakes _ hinner', ManagedState.take_eq (by rw [hown]; rfl)]
    · unfold BlockFrame.take
      split <;> rfl

/-- Whether the walk goes no deeper from nodes of a kind. -/
def isEndpoint (kind : Kind) : Bool :=
  !kind.isContainer || isClosed kind

/-- The block of a class with what its own leaves put into it, one after the other. -/
def ManagedState.alone (s : Surroundings) (w : Workspace) (id : NodeId) : ManagedState :=
  ((w.forest.children id).filter fun c => !(w.node c).kind.isContainer).foldl
    (fun state c => ManagedState.addLeaf s w (w.node c) state)
    (({} : ManagedState).openBlock (classBlock s w (w.node id)))

/-- The class block that the leaves of a class fill alone. -/
def ownBlocks (s : Surroundings) (w : Workspace) (id : NodeId) : List ClassBlock :=
  (ManagedState.alone s w id).frames.filterMap BlockFrame.classBlock?

/-- The class blocks of the classes that the walk from a node enters, in this order, each filled
alone. -/
def classesBelow (s : Surroundings) (w : Workspace) (bound : Nat) (id : NodeId) : List ClassBlock :=
  ((w.forest.preorder isEndpoint bound id).filter fun c => (w.node c).kind == .classType).flatMap
    (ownBlocks s w)

/-- Whether the walk from a container puts class blocks into the innermost block and no member, and
the walk from a leaf is what the leaf adds. -/
structure WalksWhole (s : Surroundings) (w : Workspace) (bound : Nat) (id : NodeId) : Prop where
  container : (w.node id).kind.isContainer = true → ∀ state, ∃ items,
    written s w bound id state = state.put items ∧ Whole items (classesBelow s w bound id)
  leaf : (w.node id).kind.isContainer = false → classesBelow s w bound id = [] ∧
    ∀ state, written s w bound id state = ManagedState.addLeaf s w (w.node id) state

section Walk

variable {s : Surroundings} {w : Workspace} {bound : Nat} {id root : NodeId} {up cs : List NodeId}

/-- In the block of a class, the walk through children does what the leaves among them do alone. -/
theorem foldl_filled (h : ∀ c ∈ cs, WalksWhole s w bound c) {frame own : BlockFrame}
    {blocks : List ClassBlock} (hfilled : Filled frame own blocks)
    (hclass : frame.class?.isSome = true) (outer : List BlockFrame) (items : List ManagedItem) :
    ∃ frame' own',
      writtenAll s w bound cs ⟨frame :: outer, items⟩ = ⟨frame' :: outer, items⟩ ∧
      (cs.filter fun c => !(w.node c).kind.isContainer).foldl
        (fun state c => ManagedState.addLeaf s w (w.node c) state) ⟨[own], []⟩ = ⟨[own'], []⟩ ∧
      frame'.block = frame.block ∧
          Filled frame' own' (blocks ++ cs.flatMap (classesBelow s w bound)) := by
  induction cs generalizing frame own blocks with
  | nil => exact ⟨frame, own, rfl, rfl, rfl,
    by rw [List.flatMap_nil, List.append_nil]; exact hfilled⟩
  | cons c rest ih =>
    have hc := h c List.mem_cons_self
    have hrest := fun d hd => h d (List.mem_cons_of_mem _ hd)
    cases hcontainer : (w.node c).kind.isContainer with
    | true =>
      obtain ⟨inner, hwritten, hwhole⟩ := hc.container hcontainer ⟨frame :: outer, items⟩
      obtain ⟨frame', own', hfold, hown, hblock, hfilled'⟩ := ih hrest (hfilled.put hwhole) hclass
      refine ⟨frame', own', ?_, ?_, hblock, ?_⟩
      · rw [writtenAll, List.foldl_cons, hwritten]
        exact hfold
      · rw [List.filter_cons_of_neg (by rw [hcontainer]; exact nofun)]
        exact hown
      · rw [List.flatMap_cons, ← List.append_assoc]
        exact hfilled'
    | false =>
      obtain ⟨hbelow, hwritten⟩ := hc.leaf hcontainer
      obtain ⟨frame₁, own₁, hstep, hstep', hblock₁, hfilled₁⟩ :=
        (addLeaf_offers s w (w.node c)).filled hfilled hclass outer items
      have hclass₁ : frame₁.class?.isSome = true := by
        rw [BlockFrame.class?, hblock₁]
        exact hclass
      obtain ⟨frame', own', hfold, hown, hblock, hfilled'⟩ := ih hrest hfilled₁ hclass₁
      refine ⟨frame', own', ?_, ?_, hblock.trans hblock₁, ?_⟩
      · rw [writtenAll, List.foldl_cons, hwritten, hstep]
        exact hfold
      · rw [List.filter_cons_of_pos (by rw [hcontainer]; rfl), List.foldl_cons, hstep']
        exact hown
      · rw [List.flatMap_cons, hbelow]
        exact hfilled'

/-- Where no leaf belongs to a class, the walk through children puts what is whole. -/
theorem foldl_whole (h : ∀ c ∈ cs, WalksWhole s w bound c)
    (hleaf : ∀ c ∈ cs, ∀ state, ManagedState.addLeaf s w (w.node c) state = state)
    (state : ManagedState) :
    ∃ items, writtenAll s w bound cs state = state.put items ∧
      Whole items (cs.flatMap (classesBelow s w bound)) := by
  induction cs generalizing state with
  | nil => exact ⟨[], (ManagedState.put_nil state).symm, .nil⟩
  | cons c rest ih =>
    have hc := h c List.mem_cons_self
    have hfirst : ∃ items, written s w bound c state = state.put items ∧
        Whole items (classesBelow s w bound c) := by
      cases hcontainer : (w.node c).kind.isContainer with
      | true => exact hc.container hcontainer state
      | false =>
        obtain ⟨hbelow, hwritten⟩ := hc.leaf hcontainer
        refine ⟨[], ?_, hbelow ▸ .nil⟩
        rw [hwritten, hleaf c List.mem_cons_self, ManagedState.put_nil]
    obtain ⟨items, hwritten, hwhole⟩ := hfirst
    obtain ⟨items', hfold, hwhole'⟩ := ih (fun d hd => h d (List.mem_cons_of_mem _ hd))
      (fun d hd => hleaf d (List.mem_cons_of_mem _ hd)) (written s w bound c state)
    refine ⟨items ++ items', ?_, ?_⟩
    · rw [writtenAll, List.foldl_cons, ← writtenAll, hfold, hwritten, ManagedState.put_append]
    · rw [List.flatMap_cons]
      exact hwhole.append hwhole'

/-- A leaf below something that is no class adds nothing. -/
theorem addLeaf_of_parent (hparent : w.forest.parent? id = some root)
    (hclass : (w.node root).kind ≠ .classType) (state : ManagedState) :
    ManagedState.addLeaf s w (w.node id) state = state := by
  obtain ⟨n, hn, hup⟩ := Option.bind_eq_some_iff.mp hparent
  unfold ManagedState.addLeaf
  rw [Workspace.node_of_node? hn, hup]
  simp only [Option.map_some, beq_eq_false_iff_ne.mpr hclass, Bool.false_eq_true, if_false]

/-- A leaf that is the root of a tree adds nothing. -/
theorem addLeaf_of_top (htop : w.forest.parent? id = none) (state : ManagedState) :
    ManagedState.addLeaf s w (w.node id) state = state := by
  have hparent : (w.node id).parent? = none := by
    rw [Workspace.node]
    unfold Forest.parent? at htop
    cases hn : w.forest.node? id with
    | none => rfl
    | some n => rw [hn] at htop; exact htop
  unfold ManagedState.addLeaf
  rw [hparent]
  rfl

/-- The classes below a node that may be entered are its own block and the classes below its
children. -/
theorem classesBelow_container {n : Node} (hn : w.forest.node? id = some n)
    (hdeeper : isEndpoint n.kind = false) :
    classesBelow s w (bound + 1) id =
      (if n.kind == .classType then ownBlocks s w id else []) ++
        (w.forest.children id).flatMap (classesBelow s w bound) := by
  unfold classesBelow
  rw [Forest.preorder, hn]
  simp only [hdeeper, Bool.false_eq_true, if_false]
  rw [List.filter_cons, Workspace.node_of_node? hn, List.filter_flatMap]
  split
  · rw [List.flatMap_cons, List.flatMap_assoc]
  · rw [List.flatMap_assoc, List.nil_append]

/-- Below a node that is not entered there are no classes. -/
theorem classesBelow_endpoint {n : Node} (hn : w.forest.node? id = some n)
    (hendpoint : isEndpoint n.kind = true) :
    classesBelow s w (bound + 1) id = [] := by
  have hclass : (n.kind == .classType) = false := by
    cases hkind : n.kind <;> rw [hkind] at hendpoint <;> first | rfl | cases hendpoint
  unfold classesBelow
  rw [Forest.preorder, hn]
  simp only [hendpoint, if_true]
  rw [List.filter_cons_of_neg (by rw [Workspace.node_of_node? hn, hclass]; exact nofun)]
  rfl

/-- A class block is closed to what its own leaves have filled it with, and to the class blocks
nested in it. -/
theorem Whole.close {frame own : BlockFrame} {blocks : List ClassBlock} {c : ManagedClass}
    {isInheritable : Bool} (h : Filled frame own blocks)
    (hblock : frame.block = .classType c isInheritable) :
    Whole frame.close (own.classBlock?.toList ++ blocks) := by
  rw [h.classBlock?]
  unfold BlockFrame.close BlockFrame.classBlock? BlockFrame.class?
  rw [hblock]
  refine ⟨rfl, ?_, ?_⟩
  · exact (List.append_nil _).trans h.strays
  · rw [ManagedItem.classBlocksAll, ManagedItem.classBlocks, h.blocks]
    exact List.append_nil _

/-- A namespace is closed to what has been put into it. -/
theorem Whole.closeNamespace {items : List ManagedItem} {blocks : List ClassBlock}
    (h : Whole items blocks) (name? : Option String) :
    Whole { block := .nameSpace name?, items := items.reverse : BlockFrame }.close blocks := by
  unfold BlockFrame.close
  cases name? with
  | none =>
    simp only [List.reverse_reverse]
    exact h
  | some name =>
    simp only [List.reverse_reverse]
    refine ⟨rfl, ?_, ?_⟩
    · rw [ManagedItem.straysAll, ManagedItem.strays, ManagedItem.straysAll_of_members h.members,
        h.strays]
      rfl
    · rw [ManagedItem.classBlocksAll, ManagedItem.classBlocks, h.blocks]
      exact List.append_nil _

/-- A node that is not there is written as nothing. -/
theorem walksWhole_of_none (hn : w.forest.node? id = none) : WalksWhole s w (bound + 1) id := by
  have hnode : w.node id = default := by rw [Workspace.node, hn]; rfl
  refine ⟨fun hcontainer => ?_, fun _ => ⟨?_, fun state => ?_⟩⟩
  · rw [hnode] at hcontainer
    cases hcontainer
  · unfold classesBelow Forest.preorder
    rw [hn]
    rfl
  · unfold written Forest.walked
    rw [hn, hnode]
    rfl

/-- A class is closed to its block, filled by its own leaves, with the blocks of the classes in
it. -/
theorem class_whole {n : Node} (hn : w.forest.node? id = some n) (hkind : n.kind = .classType)
    (h : ∀ c ∈ w.forest.children id, WalksWhole s w bound c) (state : ManagedState) : ∃ items,
      (writtenAll s w bound (w.forest.children id)
        (state.openBlock (classBlock s w n))).closeBlock = state.put items ∧
      Whole items (classesBelow s w (bound + 1) id) := by
  obtain ⟨c, isInheritable, hblock, -⟩ := exists_classBlock s w n
  have hstart : Filled { block := .classType c isInheritable }
      { block := .classType c isInheritable } [] :=
    ⟨rfl, rfl, rfl, rfl, rfl, rfl⟩
  obtain ⟨frame, own, hfold, hown, hframe, hfilled⟩ :=
    foldl_filled h hstart rfl state.frames state.items
  have halone : ManagedState.alone s w id = ⟨[own], []⟩ := by
    rw [← hown, ManagedState.alone, Workspace.node_of_node? hn, hblock]
    rfl
  refine ⟨frame.close, ?_, ?_⟩
  · rw [hblock, ManagedState.openBlock, hfold]
    rfl
  · rw [classesBelow_container hn (by rw [hkind]; rfl), hkind, ownBlocks, halone]
    have hlist : [own].filterMap BlockFrame.classBlock? = own.classBlock?.toList := by
      cases hown : own.classBlock? <;> simp [hown]
    exact (congrArg (· ++ _) hlist) ▸ Whole.close hfilled hframe

/-- Everywhere in a tree the walk puts class blocks filled by their own leaves. -/
theorem written_whole (h : w.forest.IsTree root) (hbranch : w.forest.Branch root (id :: up))
    (hbound : w.forest.size < bound + up.length) : WalksWhole s w bound id := by
  induction bound generalizing id up with
  | zero =>
    have hlength := hbranch.length_le h.top
    rw [List.length_cons] at hlength
    omega
  | succ bound ih =>
    cases hn : w.forest.node? id with
    | none => exact walksWhole_of_none hn
    | some n =>
      have hnode := Workspace.node_of_node? hn
      have hplain := h.plain id n hbranch.within hn
      have hchildren : ∀ c ∈ w.forest.children id, w.forest.parent? c = some id ∧
          WalksWhole s w bound c := by
        intro c hc
        have hparent := h.links id c hbranch.within hc
        exact ⟨hparent, ih (.child hparent hbranch) (by rw [List.length_cons]; omega)⟩
      have hwhole := fun c hc => (hchildren c hc).2
      refine ⟨fun hcontainer state => ?_, fun hleaf => ⟨?_, fun state => ?_⟩⟩
      · rw [hnode] at hcontainer
        have hothers : n.kind ≠ .classType → ∀ state, ∃ items,
            writtenAll s w bound (w.forest.children id) state = state.put items ∧
              Whole items ((w.forest.children id).flatMap (classesBelow s w bound)) := by
          intro hclass
          exact foldl_whole hwhole fun c hc => addLeaf_of_parent (hchildren c hc).1
            (by rw [hnode]; exact hclass)
        rw [written_container hn hplain hcontainer]
        cases hkind : n.kind with
        | classType => exact class_whole hn hkind hwhole state
        | nameSpace =>
          obtain ⟨items, hfold, hwhole'⟩ := hothers (by rw [hkind]; exact nofun)
            (state.openBlock (namespaceBlock s w id n))
          refine ⟨_, (congrArg ManagedState.closeBlock hfold).trans
            (state.closeBlock_put_openBlock _ items), ?_⟩
          · rw [classesBelow_container hn (by rw [hkind]; rfl), hkind]
            exact hwhole'.closeNamespace _
        | enumeration =>
          refine ⟨_, rfl, ?_⟩
          rw [classesBelow_endpoint hn (by rw [hkind]; rfl)]
          exact ⟨rfl, rfl, rfl⟩
        | file | linkage | functionTemplate | classTemplate =>
          obtain ⟨items, hfold, hwhole'⟩ := hothers (by rw [hkind]; exact nofun) state
          refine ⟨items, hfold, ?_⟩
          rw [classesBelow_container hn (by rw [hkind]; rfl), hkind]
          exact hwhole'
        | _ =>
          rw [hkind] at hcontainer
          cases hcontainer
      · exact classesBelow_endpoint hn (by rw [hnode] at hleaf; rw [isEndpoint, hleaf]; rfl)
      · rw [hnode] at hleaf ⊢
        exact written_leaf hn hplain hleaf state

/-- The leaves of a class fill one class block, the one of their class. -/
theorem exists_ownBlocks (s : Surroundings) (w : Workspace) (id : NodeId) :
    ∃ c isInheritable members bridges, classBlock s w (w.node id) = .classType c isInheritable ∧
      ownBlocks s w id = [⟨c, members, c.bridges ++ bridges⟩] := by
  obtain ⟨c, isInheritable, hblock, -⟩ := exists_classBlock s w (w.node id)
  have hfold : ∀ (leaves : List NodeId) (own : BlockFrame), own.block = .classType c isInheritable →
      Filled own own [] → ∃ own' : BlockFrame, own'.block = .classType c isInheritable ∧
        leaves.foldl (fun state c => ManagedState.addLeaf s w (w.node c) state) ⟨[own],
            []⟩ = ⟨[own'], []⟩ := by
    intro leaves
    induction leaves with
    | nil => exact fun own hown _ => ⟨own, hown, rfl⟩
    | cons leaf rest ih =>
      intro own hown hfilled
      have hclass : own.class?.isSome = true := by rw [BlockFrame.class?, hown]; rfl
      obtain ⟨frame', own', hstep, hstep', hsame, hfilled'⟩ :=
        (addLeaf_offers s w (w.node leaf)).filled hfilled hclass [] []
      obtain rfl : frame' = own' := by
        rw [hstep'] at hstep
        cases hstep
        rfl
      obtain ⟨last, hlast, hrest⟩ := ih frame' (hsame.trans hown) hfilled'
      exact ⟨last, hlast, by rw [List.foldl_cons, hstep']; exact hrest⟩
  obtain ⟨own, hown, halone⟩ := hfold
    ((w.forest.children id).filter fun c => !(w.node c).kind.isContainer)
      { block := .classType c isInheritable } rfl
    ⟨rfl, rfl, rfl, rfl, rfl, rfl⟩
  refine ⟨c, isInheritable, ManagedItem.members own.items.reverse, own.bridges.reverse, hblock, ?_⟩
  have hstate : ManagedState.alone s w id = ⟨[own], []⟩ := by
    rw [← halone, ManagedState.alone, hblock]
    rfl
  rw [ownBlocks, hstate]
  simp [BlockFrame.classBlock?, BlockFrame.class?, hown]

end Walk

namespace ManagedFile

/-- What is printed of a managed file before its tree is walked. -/
def opening (module : String) : Printer :=
  Printer.empty
    |>.lines ["using System;", "using System.Collections.Generic;",
      "using System.Runtime.CompilerServices;"]
    |>.blank
    |>.line ("namespace " ++ module)
    |>.indent
    |>.blank

/-- The printer that a managed file is printed with. -/
def printed (m : ManagedFile) : Printer :=
  (ManagedItem.printAll m.items (opening m.module)).dedent

theorem text_eq (m : ManagedFile) : m.text = m.printed.text :=
  rfl

/-- No block is left open at the end of a tree. -/
theorem frames_written (s : Surroundings) (w : Workspace) (root : NodeId) :
    (written s w w.forest.depthBound root {}).frames = [] :=
  List.map_eq_nil_iff.mp (written_returns s w w.forest.depthBound root {}).blocks

/-- Printing the file is printing during the walk. -/
theorem printed_ofTree (s : Surroundings) (w : Workspace) (root : NodeId) :
    (ofTree s w root).printed = ((written s w w.forest.depthBound root {}).printer
      (opening s.rules.name)).dedent := by
  rw [ofTree_eq, printed, ManagedState.printer, frames_written]
  rfl

/-- The lines of a file are balanced, each block's lines being nested one level deeper. -/
theorem extends_printed (s : Surroundings) (w : Workspace) (root : NodeId) :
    Printer.empty.Extends (ofTree s w root).printed := by
  have hwalk := (written_returns s w w.forest.depthBound root {}).printed (opening s.rules.name)
  have hlines : Printer.empty.Extends
      (((Printer.empty.lines ["using System;", "using System.Collections.Generic;",
      "using System.Runtime.CompilerServices;"]).blank).line ("namespace " ++ s.rules.name)) :=
    .line (.blank (.lines (.refl _) (by decide))) (.before (by decide) _)
  rw [printed_ofTree]
  exact hlines.trans ((Printer.Extends.blank (.refl _)).trans hwalk).dedent

/-- The items of the file of a tree are whole: its class blocks are those of the classes that the
walk enters, and no member stands beside them. The root has to be one of a tree, or it could itself
be what a class holds. -/
theorem whole_items (s : Surroundings) {w : Workspace} {root : NodeId} (h : w.forest.IsTree root) :
    Whole (ofTree s w root).items (classesBelow s w w.forest.depthBound root) := by
  have hwhole : WalksWhole s w w.forest.depthBound root :=
    written_whole h .root (by rw [Forest.depthBound, List.length_nil]; omega)
  have hleaf : ∀ c ∈ [root], ∀ state, ManagedState.addLeaf s w (w.node c) state = state := by
    intro c hc state
    obtain rfl := List.mem_singleton.mp hc
    exact addLeaf_of_top h.top state
  obtain ⟨items, hwritten, hitems⟩ := foldl_whole (List.forall_mem_singleton.mpr hwhole) hleaf {}
  have hfile : (ofTree s w root).items = items := by
    have hwalk : written s w w.forest.depthBound root {} = ({} : ManagedState).put items := hwritten
    rw [ofTree_eq, hwalk]
    exact (congrArg List.reverse (List.append_nil _)).trans (List.reverse_reverse items)
  rw [List.flatMap_singleton] at hitems
  exact hfile ▸ hitems

/-- The class blocks of the file of a tree are those of the classes that the walk enters. -/
theorem classBlocks_ofTree (s : Surroundings) {w : Workspace} {root : NodeId}
    (h : w.forest.IsTree root) :
    (ofTree s w root).classBlocks = classesBelow s w w.forest.depthBound root :=
  (whole_items s h).blocks

/-- The managed file of a tree is properly structured. Around each subtree of the walk the same
blocks are open and the printer is at the same level, and it prints rows between that are properly
nested, like those of the whole file. All members stand directly in the blocks of classes: each
class that the walk enters has its block, with the members and the bridge declarations that its own
leaves would put into it if there were nothing else. -/
theorem ofTree_structured (s : Surroundings) {w : Workspace} {root : NodeId}
    (h : w.forest.IsTree root) :
    let file := ofTree s w root
    let start := opening s.rules.name
    (∀ bound id before,
      (written s w bound id before).blocks = before.blocks ∧
        (before.printer start).Extends ((written s w bound id before).printer start)) ∧
    file.text = file.printed.text ∧
    file.printed = ((written s w w.forest.depthBound root {}).printer start).dedent ∧
    Printer.empty.Extends file.printed ∧
    file.strays = [] ∧
    file.classBlocks = classesBelow s w w.forest.depthBound root ∧
    ∀ id, ∃ c isInheritable members bridges, classBlock s w (w.node id) =
      .classType c isInheritable ∧ ownBlocks s w id = [⟨c, members, c.bridges ++ bridges⟩] := by
  intro file start
  have hitems : Whole file.items (classesBelow s w w.forest.depthBound root) := whole_items s h
  refine ⟨fun bound id before => ?_, text_eq file, printed_ofTree s w root,
    extends_printed s w root, ?_, classBlocks_ofTree s h, exists_ownBlocks s w⟩
  · have hreturns := written_returns s w bound id before
    exact ⟨hreturns.blocks, hreturns.printed start⟩
  · rw [strays, ManagedItem.straysAll_of_members hitems.members, hitems.strays]

/-- Between the two members of the outer class stands the block of the inner one. -/
theorem ofTree_structured_nested :
    ∃ u : HeaderUnit,
      (Header.FrontEnd.builtin {} ⟨"A.h"⟩
        (.text "class A { public: int x; class B { public: void f(); }; int y; };")).result =
          .ok u ∧
      let g := Generator.ofDirectories ⟨""⟩ ⟨"/o"⟩
      let s : Surroundings :=
        { settings := g.settings, rules := { name := "M" }, root := (g.restart []).1 }
      let w := (Passes.standard.apply s [u] (g.restart []).2).1
      w.forest.IsTree s.root ∧
        (ofTree s w s.root).classBlocks = classesBelow s w w.forest.depthBound s.root ∧
        (classesBelow s w w.forest.depthBound s.root).map
          (fun b => (b.class_.name, b.members.length)) = [("A", 2), ("B", 1)] := by
  refine exists_ok_of_decide (fun u =>
    let g := Generator.ofDirectories ⟨""⟩ ⟨"/o"⟩
    let s : Surroundings :=
      { settings := g.settings, rules := { name := "M" }, root := (g.restart []).1 }
    let w := (Passes.standard.apply s [u] (g.restart []).2).1
    (classesBelow s w w.forest.depthBound s.root).map (fun b => (b.class_.name, b.members.length)) =
      [("A", 2), ("B", 1)]) (by decide +kernel) fun u _ hclasses => ?_
  intro g s w
  have hbare : BareTree s (g.restart []).2 :=
    Generator.restart_bareTree (Generator.Reached.ofDirectories ⟨""⟩ ⟨"/o"⟩).wellFormed rfl
  have htree : w.forest.IsTree s.root :=
    (Passes.apply_rooted hbare.rooted Passes.standard).wellFormed.isTree
      (Passes.apply_top hbare.rooted hbare.top Passes.standard)
  exact ⟨htree, (ofTree_structured s htree).2.2.2.2.2.1, hclasses⟩

end ManagedFile

end Interop.Emit
