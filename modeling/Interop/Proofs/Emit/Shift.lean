import Interop.Proofs.Emit.Agreement
import Interop.Proofs.Marshal.Shift
import Interop.Proofs.Overlay.ShiftedWalk

namespace Interop.Emit

open Overlay

variable {s : Surroundings} {w : Workspace} {k : Nat} {m : Mapper} {class_ n : Node}

section Marshalling

variable (h : m.forest.WellFormed)
include h

/-- Arguments do not depend on where nodes lie. -/
theorem ofParameters?_shift (ps : List NodeParameter) :
    BridgeArgument.ofParameters? (m.shift k) ps = BridgeArgument.ofParameters? m ps := by
  unfold BridgeArgument.ofParameters?
  simp only [Mapper.resolve?_shift h]

theorem resultMarshalling?_shift (type? : Option NativeType) :
    resultMarshalling? (m.shift k) type? = resultMarshalling? m type? := by
  unfold resultMarshalling?
  simp only [Mapper.resolve?_shift h]

/-- A function is exported alike wherever its node lies. -/
theorem callable?_shift :
    callable? (m.shift k) (class_.shift k) (n.shift k) = callable? m class_ n := by
  unfold callable?
  rw [ofParameters?_shift h, resultMarshalling?_shift h]
  rfl

/-- Accessors are exported alike wherever their node lies. -/
theorem accessors_shift :
    accessors (m.shift k) (class_.shift k) (n.shift k) = accessors m class_ n := by
  have hresolve : (m.shift k).resolve? = m.resolve? :=
    funext fun type => Mapper.resolve?_shift h type
  unfold accessors
  rw [hresolve]
  rfl

theorem memberFunctions_shift :
    memberFunctions (m.shift k) (class_.shift k) (n.shift k) = memberFunctions m class_ n := by
  unfold memberFunctions
  rw [callable?_shift h, accessors_shift h]
  rfl

/-- Parameters are shown alike wherever nodes lie. -/
theorem managedParameters?_shift (ps : List NodeParameter) :
    managedParameters? (m.shift k) ps = managedParameters? m ps := by
  unfold managedParameters?
  simp only [Mapper.resolve?_shift h]

theorem addConstructor_shift (state : ManagedState) :
    state.addConstructor (m.shift k) (n.shift k) = state.addConstructor m n := by
  unfold ManagedState.addConstructor
  rw [managedParameters?_shift h]
  rfl

/-- A method is added alike wherever its node lies. -/
theorem addMethod_shift (state : ManagedState) :
    state.addMethod (m.shift k) (n.shift k) = state.addMethod m n := by
  have hresult : ManagedState.result? (m.shift k) (n.shift k) = ManagedState.result? m n := by
    unfold ManagedState.result?
    simp only [Mapper.resolve?_shift h]
    rfl
  unfold ManagedState.addMethod
  rw [managedParameters?_shift h, hresult]
  rfl

theorem addVariable_shift (state : ManagedState) :
    state.addVariable (m.shift k) (n.shift k) = state.addVariable m n := by
  have hresolve : (m.shift k).resolve? = m.resolve? :=
    funext fun type => Mapper.resolve?_shift h type
  unfold ManagedState.addVariable
  rw [hresolve]
  rfl

end Marshalling

section Steps

variable (hf : w.forest.WellFormed)
include hf

theorem adding_shift (b : BridgeFile) (id : NodeId) (function : BridgeFunction) :
    b.adding (s.shift k) (w.shift k).forest (id.shift k) function =
      b.adding s w.forest id function := by
  have hspace : (w.shift k).forest.managedNamespace (id.shift k) s.rules.name =
      w.forest.managedNamespace id s.rules.name :=
    hf.managedNamespace_shift k id s.rules.name
  have hpath : (w.shift k).forest.managedPath (id.shift k) = w.forest.managedPath id :=
    hf.managedPath_shift k id
  unfold BridgeFile.adding BridgeFile.registrationPath
  rw [show (s.shift k).rules = s.rules from rfl, hspace, hpath]

/-- A leaf adds the same functions. -/
theorem bridgeLeaf_shift (b : BridgeFile) :
    BridgeFile.addLeaf (s.shift k) (w.shift k) (n.shift k) b = BridgeFile.addLeaf s w n b := by
  unfold BridgeFile.addLeaf
  rw [show (n.shift k).parent? = n.parent?.map (·.shift k) from rfl]
  cases n.parent? with
  | none => rfl
  | some parent =>
    have hmapper : (s.shift k).mapper (w.shift k) (w.node parent).symbol =
      (s.mapper w (w.node parent).symbol).shift k := rfl
    simp only [Option.map_some, Workspace.node_shift, adding_shift hf,
      show ((w.node parent).shift k).symbol = (w.node parent).symbol from rfl, hmapper,
      memberFunctions_shift (m := s.mapper w (w.node parent).symbol) hf]
    rfl

/-- A step adds the same to the bridge file, and the walk goes as deep. -/
theorem bridgeStep_shift (event : WalkEvent) (id : NodeId) (b : BridgeFile) :
    BridgeFile.step (s.shift k) (w.shift k) event (id.shift k) b =
      BridgeFile.step s w event id b := by
  have hsource : ((w.node id).shift k).source? = (w.node id).source? := rfl
  have hkind : ((w.node id).shift k).kind = (w.node id).kind := rfl
  have hstatic : ((w.node id).shift k).isStatic = (w.node id).isStatic := rfl
  have hdestructor : destructor ((w.node id).shift k) = destructor (w.node id) := rfl
  unfold BridgeFile.step
  simp only [Workspace.node_shift, hsource, hkind, hstatic, hdestructor, adding_shift hf,
    bridgeLeaf_shift hf]

omit hf in
/-- The base of a class is found alike wherever nodes lie, for it is looked up by name. -/
theorem managedBase?_shift :
    managedBase? (s.shift k) (w.shift k) (n.shift k) = managedBase? s w n := by
  unfold managedBase?
  rw [show (n.shift k).children = n.children.map (·.shift k) from rfl, List.findSome?_map]
  congr 1
  funext c
  simp only [Function.comp_apply, Workspace.node_shift]
  rw [show ((w.node c).shift k).kind = (w.node c).kind from rfl,
    show ((w.node c).shift k).symbol = (w.node c).symbol from rfl, Workspace.symbol?_shift]
  cases w.symbol? (w.node c).symbol with
  | none => rfl
  | some target =>
    simp only [Option.map_some, Option.bind_eq_bind, Option.bind_some, Workspace.node_shift]
    rfl

omit hf in
/-- A class opens the same block wherever its node lies. -/
theorem classBlock_shift : classBlock (s.shift k) (w.shift k) (n.shift k) = classBlock s w n := by
  unfold classBlock
  rw [managedBase?_shift]
  rfl

theorem namespaceBlock_shift (id : NodeId) :
    namespaceBlock (s.shift k) (w.shift k) (id.shift k) (n.shift k) = namespaceBlock s w id n := by
  have htop : ((w.shift k).forest.ancestors (id.shift k)).isEmpty =
      (w.forest.ancestors id).isEmpty := by
    rw [show (w.shift k).forest = w.forest.shift k from rfl, hf.ancestors_shift, List.isEmpty_map]
  unfold namespaceBlock
  rw [htop]
  rfl

omit hf in
theorem managedEnum_shift : managedEnum (w.shift k) (n.shift k) = managedEnum w n := by
  have hnodes : (n.shift k).children.map (w.shift k).node =
      (n.children.map w.node).map (·.shift k) := by
    rw [show (n.shift k).children = n.children.map (·.shift k) from rfl, List.map_map, List.map_map]
    exact List.map_congr_left fun c _ => w.node_shift k c
  unfold managedEnum
  rw [hnodes, List.filter_map, List.map_map]
  rfl

/-- A leaf becomes the same members. -/
theorem managedLeaf_shift (state : ManagedState) :
    ManagedState.addLeaf (s.shift k) (w.shift k) (n.shift k) state =
      ManagedState.addLeaf s w n state := by
  unfold ManagedState.addLeaf
  rw [show (n.shift k).parent? = n.parent?.map (·.shift k) from rfl]
  cases n.parent? with
  | none => rfl
  | some parent =>
    have hmapper : (s.shift k).mapper (w.shift k) (w.node parent).symbol =
        (s.mapper w (w.node parent).symbol).shift k :=
      rfl
    have hm : (s.mapper w (w.node parent).symbol).forest.WellFormed := hf
    simp only [Option.map_some, Workspace.node_shift, show ((w.node parent).shift k).symbol =
      (w.node parent).symbol from rfl, hmapper, addConstructor_shift hm, addMethod_shift hm,
        addVariable_shift hm]
    rfl

/-- A step does the same to the managed file, and the walk goes as deep. -/
theorem managedStep_shift (event : WalkEvent) (id : NodeId) (state : ManagedState) :
    ManagedState.step (s.shift k) (w.shift k) event (id.shift k) state =
      ManagedState.step s w event id state := by
  unfold ManagedState.step
  simp only [Workspace.node_shift, classBlock_shift, namespaceBlock_shift hf, managedEnum_shift,
    managedLeaf_shift hf]
  rfl

end Steps

/-- A walk that only reads a forest does the same over the shifted one. -/
theorem walked_readonly_shift {σ : Type} (hf : w.forest.WellFormed)
    {visit visit' : WalkEvent → NodeId → Access → σ → Bool × σ}
    (hvisit : ∀ event (id : NodeId) access state, visit' event (id.shift k) access state =
      visit event id access state)
    (root : NodeId) (state : σ) :
    Forest.walked (fun _ => (w.shift k).forest) visit' (w.shift k).forest.depthBound
      (root.shift k) state = Forest.walked (fun _ =>
          w.forest) visit w.forest.depthBound root state := by
  have hdepth : w.forest.depthBound ≤ (w.shift k).forest.depthBound := by
    rw [Forest.depthBound, Forest.depthBound, show (w.shift k).forest = w.forest.shift k from rfl,
      Forest.size_shift]
    omega
  have hsize : w.forest.size < w.forest.depthBound := by
    unfold Forest.depthBound
    omega
  have hbounds : Forest.walked (fun _ => w.forest) visit (w.shift k).forest.depthBound root state =
      Forest.walked (fun _ => w.forest) visit w.forest.depthBound root state := by
    refine Forest.walked_eq_of_height (fun _ => True) (fun id => w.forest.size - w.forest.rank id)
      (fun _ _ _ _ _ => trivial)
        (fun _ id n _ hn => hf.plain id n.unlinked (Forest.content?_of_node? hn)) ?_ ?_ ?_ trivial
    · intro _ id n _ _ _ _ c hc
      have hlt := hf.rank_lt ((hf.links id c).mp hc)
      have hle := w.forest.rank_le_size c
      omega
    · omega
    · omega
  rw [← hbounds]
  exact Forest.walked_shift id (fun _ => True) (fun _ _ _ _ _ => trivial) (fun _ => rfl)
    (fun event id access state _ => hvisit event id access state)
      (w.shift k).forest.depthBound root trivial

/-- The bridge file of a tree does not depend on where the forest begins. -/
theorem BridgeFile.ofTree_shift (hf : w.forest.WellFormed) (k : Nat) (root : NodeId) :
    BridgeFile.ofTree (s.shift k) (w.shift k) (root.shift k) = BridgeFile.ofTree s w root := by
  rw [ofTree_eq, ofTree_eq]
  exact walked_readonly_shift hf (fun event id _ b => bridgeStep_shift hf event id b) root {}

/-- The managed file of a tree does not depend on where the forest begins. -/
theorem ManagedFile.ofTree_shift (hf : w.forest.WellFormed) (k : Nat) (root : NodeId) :
    ManagedFile.ofTree (s.shift k) (w.shift k) (root.shift k) = ManagedFile.ofTree s w root := by
  have hwritten : written (s.shift k) (w.shift k) (w.shift k).forest.depthBound (root.shift k) {} =
      written s w w.forest.depthBound root {} :=
    walked_readonly_shift hf (fun event id _ state => managedStep_shift hf event id state) root {}
  rw [ManagedFile.ofTree_eq, ManagedFile.ofTree_eq, hwritten]
  rfl

end Interop.Emit
