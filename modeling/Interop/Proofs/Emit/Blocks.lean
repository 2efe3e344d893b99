import Interop.Proofs.Emit.Agreement
import Interop.Proofs.Emit.Layout

namespace Interop.Emit

open Overlay

theorem ManagedItem.printAll_append (items items' : List ManagedItem) (p : Printer) :
    printAll (items ++ items') p = printAll items' (printAll items p) := by
  induction items generalizing p with
  | nil => rfl
  | cons item rest ih => exact ih _

/-- Prints what an open block begins with. -/
def OpenBlock.printOpen : OpenBlock → Printer → Printer
  | .nameSpace none, p => p
  | .nameSpace (some name), p => (p.line ("namespace " ++ name)).indent.blank
  | .classType c _, p => c.printStart (p.line c.header).indent

namespace BlockFrame

/-- Prints an open block with what has been put into it. -/
def print (frame : BlockFrame) (p : Printer) : Printer :=
  ManagedItem.printAll frame.items.reverse (frame.block.printOpen p)

/-- Prints what an open block ends with; a class ends with its bridge declarations. -/
def printClose (frame : BlockFrame) (p : Printer) : Printer :=
  match frame.block with
  | .nameSpace none => p
  | .nameSpace (some _) => p.dedent.blank
  | .classType c _ => ((c.bridges ++ frame.bridges.reverse).foldl
    (fun p d => d.print p) p).dedent.blank

/-- A closed block is printed as the open one is, and its end behind it. -/
theorem printAll_close (frame : BlockFrame) (p : Printer) :
    ManagedItem.printAll frame.close p = frame.printClose (frame.print p) := by
  unfold close printClose print
  split <;> rename_i hblock <;> rw [hblock] <;> rfl

end BlockFrame

namespace ManagedState

variable {s : ManagedState} {frame : BlockFrame} {outer : List BlockFrame} {p : Printer}

/-- What has been printed of a state if everything is printed as soon as it is put. -/
def printer (s : ManagedState) (p : Printer) : Printer :=
  s.frames.foldr BlockFrame.print (ManagedItem.printAll s.items.reverse p)

/-- Items that are put into a state are printed behind what it has printed. -/
theorem printer_put (s : ManagedState) (items : List ManagedItem) (p : Printer) :
    (s.put items).printer p = ManagedItem.printAll items (s.printer p) := by
  unfold put
  split
  · rename_i hframes
    rw [printer, printer, hframes, List.reverse_append, List.reverse_reverse]
    exact ManagedItem.printAll_append _ _ _
  · rename_i frame outer hframes
    rw [printer, printer, hframes, List.foldr_cons, List.foldr_cons, BlockFrame.print,
      List.reverse_append, List.reverse_reverse]
    exact ManagedItem.printAll_append _ _ _

/-- The end of a block prints the block's closing lines only, since its items have been printed as
they came. -/
theorem printer_closeBlock (h : s.frames = frame :: outer) :
    s.closeBlock.printer p = frame.printClose (s.printer p) := by
  unfold closeBlock
  rw [h]
  simp only
  rw [printer_put, BlockFrame.printAll_close, printer, printer, h, List.foldr_cons]

/-- What is printed does not depend on what the class has been told to end with. -/
theorem foldr_print_changeClass {change : BlockFrame → BlockFrame}
    (hchange : ∀ frame, (change frame).block = frame.block ∧ (change frame).items = frame.items)
    (frames : List BlockFrame) :
    (changeClass change frames).foldr BlockFrame.print p = frames.foldr BlockFrame.print p := by
  induction frames with
  | nil => rfl
  | cons first outer ih =>
    unfold changeClass
    split
    · rw [List.foldr_cons, List.foldr_cons, BlockFrame.print, BlockFrame.print, (hchange first).1,
        (hchange first).2]
    · rw [List.foldr_cons, List.foldr_cons, ih]

/-- A member is printed as it is added, whether or not its signature is new. -/
theorem printer_addMember (s : ManagedState) (signature : String) (m : ManagedMember)
    (bridges : List BridgeDeclaration) (p : Printer) :
    (s.addMember signature m bridges).printer p = m.print (s.printer p) := by
  have hput : (s.put [.member m]).printer p = m.print (s.printer p) := printer_put s [.member m] p
  rw [← hput]
  unfold addMember printer
  apply foldr_print_changeClass
  intro frame
  exact ⟨rfl, rfl⟩

end ManagedState

/-- What a class notes of a member, so that it takes no second one of the same kind. -/
def ManagedMember.signature : ManagedMember → String
  | .constructor _ _ parameters _ => ".ctor(" ++ ManagedParameter.types parameters ++ ")"
  | .method _ _ name parameters _ => name ++ "(" ++ ManagedParameter.types parameters ++ ")"
  | .constant _ name _ => name
  | .property _ _ name _ _ => name

/-- A member that may be added to a class. -/
structure Offer where
  signature : String
  member : ManagedMember
  bridges : List BridgeDeclaration

/-- Whether what is noted of an offered member is its own, and its statement is a row of its own. -/
structure Offer.Proper (o : Offer) : Prop where
  signed : o.signature = o.member.signature
  spoken : o.member.Spoken

/-- Adds a member to the innermost class unless its signature is taken. -/
def ManagedState.take (state : ManagedState) (o : Offer) : ManagedState :=
  if state.isTaken o.signature then state else state.addMember o.signature o.member o.bridges

/-- Whether a step offers at most one member to a state, and nothing but the innermost class decides
which. -/
structure Offers (step : ManagedState → ManagedState) : Prop where
  outside : ∀ state : ManagedState, state.class? = none → step state = state
  inside : ∀ c, (∀ state : ManagedState, state.class? = some c → step state = state) ∨
    ∃ o : Offer, o.Proper ∧ ∀ state : ManagedState, state.class? = some c →
      step state = state.take o

/-- A step that adds no member offers nothing. -/
theorem Offers.nothing : Offers fun state => state :=
  ⟨fun _ _ => rfl, fun _ => .inl fun _ _ => rfl⟩

section Leaf

variable (m : Mapper) (n : Node)

/-- A constructor is offered once, or not at all if one of its types cannot be marshalled. -/
theorem addConstructor_offers : Offers fun state => state.addConstructor m n := by
  unfold ManagedState.addConstructor
  cases managedParameters? m n.parameters with
  | none => exact .nothing
  | some parameters =>
    refine ⟨fun state hclass => by simp only [hclass],
      fun c => .inr ⟨⟨?_, ?member, ?_⟩, ?proper, fun state hclass => ?step⟩⟩
    case step =>
      simp only [hclass]
      rfl
    case proper => exact ⟨rfl, trivial⟩

/-- A method is offered once, or not at all if one of its types cannot be marshalled. -/
theorem addMethod_offers : Offers fun state => state.addMethod m n := by
  unfold ManagedState.addMethod
  cases managedParameters? m n.parameters with
  | none => exact .nothing
  | some parameters =>
    cases ManagedState.result? m n with
    | none => exact .nothing
    | some result? =>
      refine ⟨fun state hclass => by simp only [hclass], fun c => .inr ?_⟩
      cases result? with
      | none =>
        refine ⟨⟨?_, ?call, ?_⟩, ?proper, fun state hclass => ?step⟩
        case step =>
          simp only [hclass]
          rfl
        case proper => exact ⟨rfl, Spoken.behind _ (by decide)⟩
      | some info =>
        refine ⟨⟨?_, ?result, ?_⟩, ?proper, fun state hclass => ?step⟩
        case step =>
          simp only [hclass]
          rfl
        case proper => exact ⟨rfl, Spoken.behind _ (by decide)⟩

/-- A variable is offered as one member, with the externs of its accessors. -/
theorem addVariable_offers : Offers fun state => state.addVariable m n := by
  unfold ManagedState.addVariable
  cases n.type?.bind m.resolve? with
  | none => exact .nothing
  | some info =>
    refine ⟨fun state hclass => by simp only [hclass], fun c => .inr ?_⟩
    cases hconstant : n.isConstant with
    | false =>
      refine ⟨⟨?_, ?property, ?_⟩, ?proper, fun state hclass => ?step⟩
      case step =>
        simp only [hclass]
        rfl
      case proper => exact ⟨rfl, trivial⟩
    | true =>
      cases n.managedValue? with
      | none =>
        refine ⟨⟨?_, ?getter, ?_⟩, ?proper, fun state hclass => ?step⟩
        case step =>
          simp only [hclass]
          rfl
        case proper => exact ⟨rfl, trivial⟩
      | some value =>
        refine ⟨⟨?_, ?constant, ?_⟩, ?proper, fun state hclass => ?step⟩
        case step =>
          simp only [hclass]
          rfl
        case proper => exact ⟨rfl, trivial⟩

end Leaf

/-- A leaf offers a member to the class that it lies in. -/
theorem addLeaf_offers (s : Surroundings) (w : Workspace) (n : Node) :
    Offers (ManagedState.addLeaf s w n) := by
  unfold ManagedState.addLeaf
  cases n.parent?.map w.node with
  | none => exact .nothing
  | some around =>
    simp only
    split
    · split
      · exact addConstructor_offers _ n
      · exact addMethod_offers _ n
      · exact addMethod_offers _ n
      · exact addVariable_offers _ n
      · exact addVariable_offers _ n
      · exact addVariable_offers _ n
      · exact .nothing
    · exact .nothing

/-- Whether a part of the walk leaves the blocks open that were open, and prints nothing between but
rows that are properly nested. -/
structure Returns (before after : ManagedState) : Prop where
  blocks : after.blocks = before.blocks
  printed : ∀ p, (before.printer p).Extends (after.printer p)

namespace Returns

variable {before after state : ManagedState}

theorem refl (state : ManagedState) : Returns state state :=
  ⟨rfl, fun _ => .refl _⟩

theorem trans (h : Returns before after) (h' : Returns after state) : Returns before state :=
  ⟨h'.blocks.trans h.blocks, fun p => (h.printed p).trans (h'.printed p)⟩

/-- A walk over several nodes returns to the blocks it starts from if the walk over each of them
does. -/
theorem foldl {walk : ManagedState → NodeId → ManagedState}
    (h : ∀ state id, Returns state (walk state id)) (ids : List NodeId) (state : ManagedState) :
    Returns state (ids.foldl walk state) := by
  induction ids generalizing state with
  | nil => exact .refl state
  | cons id rest ih => exact (h state id).trans (ih _)

/-- Taking a proper offer opens and closes no block. -/
theorem take (state : ManagedState) {o : Offer} (ho : o.Proper) : Returns state (state.take o) := by
  unfold ManagedState.take
  split
  · exact .refl state
  · refine ⟨ManagedState.blocks_addMember, fun p => ?_⟩
    rw [ManagedState.printer_addMember]
    exact ManagedMember.print_extends ho.spoken _

/-- Steps that only offer members open and close no block. -/
theorem offers {step : ManagedState → ManagedState} (h : Offers step) (state : ManagedState) :
    Returns state (step state) := by
  cases hclass : state.class? with
  | none =>
    rw [h.outside state hclass]
    exact .refl state
  | some c =>
    rcases h.inside c with hstays | ⟨o, ho, htakes⟩
    · rw [hstays state hclass]
      exact .refl state
    · rw [htakes state hclass]
      exact .take state ho

theorem put_enumeration (state : ManagedState) (e : ManagedEnum) :
    Returns state (state.put [.enumeration e]) := by
  refine ⟨ManagedState.blocks_put, fun p => ?_⟩
  rw [ManagedState.printer_put]
  exact e.print_extends _

/-- What is printed while a block is open lies between what the block begins and ends with. -/
theorem printClose {frame : BlockFrame} {p q : Printer} (h : (frame.block.printOpen p).Extends q) :
    p.Extends (frame.printClose q) := by
  unfold OpenBlock.printOpen at h
  unfold BlockFrame.printClose
  split <;> rename_i hblock <;> rw [hblock] at h
  · exact h
  · exact (((Printer.Extends.refl p).line (.before (by decide) _)).trans
      (((Printer.Extends.refl _).blank.trans h).dedent)).blank
  · rename_i c isInheritable
    refine (((Printer.Extends.refl p).line c.header_spoken).trans (Printer.Extends.dedent ?_)).blank
    exact ((c.printStart_extends _).trans h).trans (BridgeDeclaration.foldl_print_extends _ _)

/-- A block that is opened is closed where the walk returns to it. -/
theorem closeBlock {block : OpenBlock} (h : Returns (before.openBlock block) after) :
    Returns before after.closeBlock := by
  have hblocks : after.blocks = block :: before.blocks := h.blocks
  cases hframes : after.frames with
  | nil =>
    rw [ManagedState.blocks, hframes] at hblocks
    cases hblocks
  | cons frame outer =>
    rw [ManagedState.blocks, hframes, List.map_cons, List.cons.injEq] at hblocks
    refine ⟨?_, fun p => ?_⟩
    · rw [ManagedState.blocks_closeBlock, ManagedState.blocks, hframes]
      exact hblocks.2
    · rw [ManagedState.printer_closeBlock hframes]
      apply printClose
      rw [hblocks.1]
      exact h.printed p

end Returns

section Written

variable {s : Surroundings} {w : Workspace} {bound : Nat} {id : NodeId} {n : Node}

/-- The walk through several nodes, one after the other. -/
def writtenAll (s : Surroundings) (w : Workspace) (bound : Nat) (ids : List NodeId)
    (state : ManagedState) :
    ManagedState :=
  ids.foldl (fun state c => written s w bound c state) state

/-- The walk from a container opens its block, if it has one, goes through its children and closes
the block. -/
theorem written_container (hn : w.forest.node? id = some n) (hplain : n.isProxy = false)
    (hcontainer : n.kind.isContainer = true) (state : ManagedState) :
    written s w (bound + 1) id state =
      match n.kind with
      | .classType => (writtenAll s w bound (w.forest.children id)
        (state.openBlock (classBlock s w n))).closeBlock
      | .nameSpace => (writtenAll s w bound (w.forest.children id)
        (state.openBlock (namespaceBlock s w id n))).closeBlock
      | .enumeration => state.put [.enumeration (managedEnum w n)]
      | _ => writtenAll s w bound (w.forest.children id) state := by
  unfold written Forest.walked
  simp only [hn, hplain, Bool.false_eq_true, if_false, hcontainer, if_true]
  unfold ManagedState.step
  simp only [Workspace.node_of_node? hn]
  cases n.kind <;> rfl

/-- A node that holds nothing is written as a leaf, whatever the bound for deeper nodes is. -/
theorem written_leaf (hn : w.forest.node? id = some n) (hplain : n.isProxy = false)
    (hleaf : n.kind.isContainer = false) (state : ManagedState) :
    written s w (bound + 1) id state = ManagedState.addLeaf s w n state := by
  unfold written Forest.walked
  simp only [hn, hplain, Bool.false_eq_true, if_false, hleaf]
  rw [ManagedState.step_leaf, Workspace.node_of_node? hn]

/-- A node that stands for its children only is written as these. -/
theorem written_proxy (hn : w.forest.node? id = some n) (hproxy : n.isProxy = true)
    (state : ManagedState) :
    written s w (bound + 1) id state = writtenAll s w bound n.children state := by
  unfold written Forest.walked
  simp only [hn, hproxy, if_true]
  rfl

end Written

/-- After each subtree the same blocks are open as before it, and the printer is at the same
level. -/
theorem written_returns (s : Surroundings) (w : Workspace) (bound : Nat) (id : NodeId)
    (state : ManagedState) :
    Returns state (written s w bound id state) := by
  induction bound generalizing id state with
  | zero => exact .refl state
  | succ bound ih =>
    have hbelow : ∀ ids (state : ManagedState), Returns state (writtenAll s w bound ids state) :=
      fun ids state => .foldl (fun state c => ih c state) ids state
    cases hn : w.forest.node? id with
    | none =>
      unfold written Forest.walked
      rw [hn]
      exact .refl state
    | some n =>
      cases hproxy : n.isProxy with
      | true =>
        rw [written_proxy hn hproxy]
        exact hbelow _ state
      | false =>
        cases hcontainer : n.kind.isContainer with
        | false =>
          rw [written_leaf hn hproxy hcontainer]
          exact .offers (addLeaf_offers s w n) state
        | true =>
          rw [written_container hn hproxy hcontainer]
          split
          · exact .closeBlock (hbelow _ _)
          · exact .closeBlock (hbelow _ _)
          · exact .put_enumeration state _
          · exact hbelow _ state

end Interop.Emit
