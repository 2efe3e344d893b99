import Interop.Naming.Bridge
import Interop.Proofs.Overlay.Housing

namespace Interop.Overlay

/-- A node without what naming works out. -/
def Node.shape (n : Node) : Node :=
  { n with
    isConstant := false, managedValue? := none, bridgeName := ""
    parameters := n.parameters.map fun p => { p with managedDefault? := none } }

/-- What depends on the shape only is the same for nodes of one shape. -/
theorem Node.eq_of_shape {α : Type} {n n' : Node} (g : Node → α) (hg : ∀ n : Node, g n.shape = g n)
    (h : n'.shape = n.shape) : g n' = g n := by
  rw [← hg n', h, hg n]

theorem Node.kind_eq_of_shape {n n' : Node} (h : n'.shape = n.shape) : n'.kind = n.kind :=
  Node.eq_of_shape Node.kind (fun _ => rfl) h

/-- Whether a workspace is another one with other names and values. -/
structure Workspace.Reshaped (w w' : Workspace) : Prop where
  shapes : ∀ id, (w'.forest.node? id).map Node.shape = (w.forest.node? id).map Node.shape
  size : w'.forest.size = w.forest.size
  symbols : w'.symbols = w.symbols

namespace Workspace.Reshaped

variable {w w' w'' : Workspace} {id : NodeId} {n n' : Node}

theorem refl (w : Workspace) : w.Reshaped w :=
  ⟨fun _ => rfl, rfl, rfl⟩

/-- Workspaces of one shape as a third one have the same shape. -/
theorem trans (h : w.Reshaped w') (h' : w'.Reshaped w'') : w.Reshaped w'' :=
  ⟨fun id => (h'.shapes id).trans (h.shapes id), h'.size.trans h.size, h'.symbols.trans h.symbols⟩

/-- Having the shape of another workspace goes both ways. -/
theorem symm (h : w.Reshaped w') : w'.Reshaped w :=
  ⟨fun id => (h.shapes id).symm, h.size.symm, h.symbols.symm⟩

/-- A change of a node that keeps its shape. -/
theorem modify {change : Node → Node} (w : Workspace) (id : NodeId)
    (h : ∀ n, w.forest.node? id = some n → (change n).shape = n.shape) :
    w.Reshaped (w.modify id change) := by
  refine ⟨fun key => ?_, Forest.size_modify .., rfl⟩
  rw [Workspace.modify, Forest.node?_modify]
  split
  · rename_i hkey
    subst hkey
    cases hn : w.forest.node? key with
    | none => rfl
    | some n => exact congrArg some (h n hn)
  · rfl

/-- No node is there that was not, up to names and values. -/
theorem exists_node (h : w.Reshaped w') (hn : w'.forest.node? id = some n') :
    ∃ n, w.forest.node? id = some n ∧ n'.shape = n.shape := by
  have hshape := h.shapes id
  rw [hn] at hshape
  obtain ⟨n, hnode, heq⟩ := Option.map_eq_some_iff.mp hshape.symm
  exact ⟨n, hnode, heq.symm⟩

theorem children_eq (h : w.Reshaped w') (id : NodeId) :
    w'.forest.children id = w.forest.children id := by
  rw [Forest.children, Forest.children]
  cases hn' : w'.forest.node? id with
  | some n' =>
    obtain ⟨n, hn, hshape⟩ := h.exists_node hn'
    rw [hn]
    exact Node.eq_of_shape Node.children (fun _ => rfl) hshape
  | none =>
    have hnone := h.shapes id
    rw [hn', Option.map_none, eq_comm, Option.map_eq_none_iff] at hnone
    rw [hnone]

theorem parent?_eq (h : w.Reshaped w') (id : NodeId) :
    w'.forest.parent? id = w.forest.parent? id := by
  rw [Forest.parent?, Forest.parent?]
  cases hn' : w'.forest.node? id with
  | some n' =>
    obtain ⟨n, hn, hshape⟩ := h.exists_node hn'
    rw [hn]
    exact Node.eq_of_shape Node.parent? (fun _ => rfl) hshape
  | none =>
    have hnone := h.shapes id
    rw [hn', Option.map_none, eq_comm, Option.map_eq_none_iff] at hnone
    rw [hnone]

theorem exists_content (h : w.Reshaped w') (hn : w'.forest.content? id = some n') :
    ∃ n, w.forest.content? id = some n ∧ n'.shape = n.shape := by
  obtain ⟨k', hk', rfl⟩ := Option.map_eq_some_iff.mp hn
  obtain ⟨k, hk, hshape⟩ := h.exists_node hk'
  refine ⟨k.unlinked, Forest.content?_of_node? hk, ?_⟩
  exact congrArg Node.unlinked hshape

/-- The trees are the same. -/
theorem within_iff (h : w.Reshaped w') {top : NodeId} :
    w'.forest.Within top id ↔ w.forest.Within top id := by
  constructor
  · intro hwithin
    induction hwithin with
    | self => exact .self
    | step hparent _ ih => exact .step ((h.parent?_eq _).symm.trans hparent) ih
  · intro hwithin
    induction hwithin with
    | self => exact .self
    | step hparent _ ih => exact .step ((h.parent?_eq _).trans hparent) ih

/-- A workspace with other names and values is as well-formed. -/
theorem wellFormed (h : w.Reshaped w') (hf : w.forest.WellFormed) : w'.forest.WellFormed := by
  refine ⟨fun parent child => ?_, fun id => ?_, fun id n' hn hleaf => ?_,
    fun id n' parent hn hc hparent => ?_, fun id n' hn => ?_⟩
  · rw [h.children_eq, h.parent?_eq]
    exact hf.links parent child
  · rw [h.children_eq]
    exact hf.nodup id
  all_goals
    obtain ⟨n, hcontent, hshape⟩ := h.exists_content hn
    have hkind : n'.kind = n.kind := Node.kind_eq_of_shape hshape
  · rw [h.children_eq]
    exact hf.bare id n hcontent (hkind ▸ hleaf)
  · rw [h.parent?_eq] at hparent
    exact hf.deeper id n parent hcontent (hkind ▸ hc) hparent
  · exact (Node.eq_of_shape Node.isProxy (fun _ => rfl) hshape).trans (hf.plain id n hcontent)

/-- The types that are registered are the same. -/
theorem hasType (h : w.Reshaped w') {symbol : String} (htype : w.HasType symbol) :
    w'.HasType symbol := by
  obtain ⟨id, n, hget, hn, hkind⟩ := htype
  obtain ⟨n', hn', hshape⟩ := h.symm.exists_content hn
  have hkind' : n.kind = n'.kind := Node.kind_eq_of_shape hshape
  exact ⟨id, n', by rw [h.symbols, hget], hn', hkind' ▸ hkind⟩

end Workspace.Reshaped

/-- Whether a node crosses does not depend on names and values. -/
theorem Node.Crosses.of_shape {mapper : Mapper} {n n' : Node} (hshape : n'.shape = n.shape)
    (h : n.Crosses mapper) : n'.Crosses mapper where
  parameters p' hp' := by
    have hparameters : n'.parameters.map (fun p => { p with managedDefault? := none }) =
        n.parameters.map fun p => { p with managedDefault? := none } :=
          congrArg Node.parameters hshape
    have hmem := List.mem_map_of_mem (f := fun p : NodeParameter =>
      { p with managedDefault? := none }) hp'
    rw [hparameters] at hmem
    obtain ⟨p, hp, heq⟩ := List.mem_map.mp hmem
    obtain ⟨type, htype, hsome⟩ := h.parameters p hp
    exact ⟨type, (congrArg NodeParameter.type? heq).symm.trans htype, hsome⟩
  result type htype :=
    h.result type ((Node.eq_of_shape Node.returnType? (fun _ => rfl) hshape).symm.trans htype)
  value hkind := by
    have hkind' : n'.kind = n.kind := Node.kind_eq_of_shape hshape
    obtain ⟨type, htype, hsome⟩ := h.value (hkind' ▸ hkind)
    exact ⟨type, (Node.eq_of_shape Node.type? (fun _ => rfl) hshape).trans htype, hsome⟩

/-- Names and values do not matter to the order of a tree. -/
theorem HousedTree.reshaped {s : Surroundings} {w w' : Workspace} (h : HousedTree s w)
    (hshapes : w.Reshaped w') : HousedTree s w' := by
  obtain ⟨r, hr, hfile⟩ := h.root
  obtain ⟨r', hr', hrootShape⟩ := hshapes.symm.exists_content hr
  refine ⟨hshapes.wellFormed h.wellFormed,
    ⟨r', hr', (Node.kind_eq_of_shape hrootShape).symm.trans hfile⟩,
    (hshapes.parent?_eq s.root).trans h.top, fun id n' hid hne hn' => ?_⟩
  obtain ⟨n, hn, hnShape⟩ := hshapes.exists_content hn'
  obtain ⟨parent, m, hparent, hm, hplaced, hclass⟩ :=
    h.nodes id n (hshapes.within_iff.mp hid) hne hn
  obtain ⟨m', hm', hmShape⟩ := hshapes.symm.exists_content hm
  have hkind : n'.kind = n.kind := Node.kind_eq_of_shape hnShape
  have hmKind : m.kind = m'.kind := Node.kind_eq_of_shape hmShape
  have hmSymbol : m.symbol = m'.symbol := Node.eq_of_shape Node.symbol (fun _ => rfl) hmShape
  refine ⟨parent, m', (hshapes.parent?_eq id).trans hparent, hm', ⟨?_, fun hclassType => ?_, ?_⟩,
    fun hglobal => ?_⟩
  · rw [hkind, ← hmKind]
    exact hplaced.fits
  · rw [show n'.symbol = n.symbol from Node.eq_of_shape Node.symbol (fun _ => rfl) hnShape,
      show n'.name = n.name from Node.eq_of_shape Node.name (fun _ => rfl) hnShape, ← hmSymbol]
    exact hplaced.symbol (hkind ▸ hclassType)
  · rw [← hmSymbol]
    exact (hplaced.crosses.mono (Workspace.mapper_below (fun _ => hshapes.hasType) fun _ _ hmem =>
      hmem)).of_shape
      hnShape
  · rw [← hmKind]
    exact hclass ((Globals.isGlobal_congr hkind).symm.trans hglobal)

end Interop.Overlay

namespace Interop.Naming

open Overlay

variable {settings : Settings} {id : NodeId}

/-- Cutting defaults off keeps their number. -/
theorem length_trailing (defaults : List (Option String)) :
    (trailing defaults).length = defaults.length := by
  induction defaults with
  | nil => rfl
  | cons d rest ih => rw [trailing, List.length_cons, List.length_cons, ih]

/-- Parameters keep their names and types when they get defaults. -/
theorem shape_parameters (parameters : List NodeParameter) (defaults : List (Option String))
    (hlength : defaults.length = parameters.length) :
    (parameters.zipWith (fun p d => { p with managedDefault? := d }) defaults).map
        (fun p => { p with managedDefault? := none }) =
      parameters.map fun p => { p with managedDefault? := none } := by
  induction parameters generalizing defaults with
  | nil => rfl
  | cons p rest ih =>
    cases defaults with
    | nil => cases hlength
    | cons d ds =>
      rw [List.length_cons, List.length_cons, Nat.succ_inj] at hlength
      simp only [List.zipWith_cons_cons, List.map_cons, ih ds hlength]

/-- Naming a function changes its name and its defaults only. -/
theorem nameFunction_reshaped (used : Used) (w : Workspace) :
    w.Reshaped (((nameFunction settings id).run used).run w).2 := by
  refine Workspace.Reshaped.modify w id fun n hn => ?_
  have hparameters := shape_parameters n.parameters
    (trailing (n.parameters.map fun p => p.nativeDefault?.bind (managedDefault? settings w id)))
    (by rw [length_trailing, List.length_map])
  simp only [Workspace.node_of_node? hn, Node.shape, hparameters]

/-- A value is no part of the shape. -/
theorem withValue_shape (settings : Settings) (n : Node) (value : String) :
    (withValue settings n value).shape = n.shape := by
  simp only [withValue]
  split
  · rfl
  · rfl

/-- Naming a variable changes its name, its value and whether it is constant only. -/
theorem nameVariable_reshaped (used : Used) (w : Workspace) :
    w.Reshaped (((nameVariable settings id).run used).run w).2 := by
  refine Workspace.Reshaped.modify w id fun n _ => ?_
  cases (w.node id).nativeValue?.bind (managedDefault? settings w id) with
  | none => rfl
  | some value => exact withValue_shape settings _ value

/-- Working out the value of an enumerator changes nothing else. -/
theorem valueEnumerator_reshaped (used : Used) (w : Workspace) :
    w.Reshaped (((valueEnumerator settings id).run used).run w).2 :=
  Workspace.Reshaped.modify w id fun _ _ => rfl

/-- What the pass does at each step of a walk, as a function. -/
def visited (settings : Settings) (event : WalkEvent) (id : NodeId) (access : Access)
    (s : Used × Workspace) : Bool × Used × Workspace :=
  let r := ((visit settings event id access).run s.1).run s.2
  (r.1.1, r.1.2, r.2)

/-- What a visit of a node makes of a workspace. -/
inductive Renamed (settings : Settings) (id : NodeId) (w : Workspace) : Workspace → Prop
  | same : Renamed settings id w w
  | type : Renamed settings id w (w.modify id fun n =>
    { n with bridgeName := Symbol.flat n.symbol })
  | function (used : Used) : Renamed settings id w (((nameFunction settings id).run used).run w).2
  | value (used : Used) : Renamed settings id w (((nameVariable settings id).run used).run w).2
  | enumerator (used : Used) (hkind : (w.node id).kind = .enumerator) :
      Renamed settings id w (((valueEnumerator settings id).run used).run w).2

/-- What entering a node does, by the kind of the node. -/
theorem visit_enter (id : NodeId) (access : Access) (used : Used) (w : Workspace) :
    ((visit settings .enter id access).run used).run w = ((match (w.node id).kind with
      | .classType => do
        set (w.modify id fun n => { n with bridgeName := Symbol.flat n.symbol })
        return true
      | .constructor | .memberFunction | .freeFunction => do
        nameFunction settings id
        return true
      | .freeVariable | .memberVariable | .bitField => do
        nameVariable settings id
        return true
      | .enumerator => do
        valueEnumerator settings id
        return true
      | _ => return true : Pass Bool).run used).run w :=
  rfl

/-- Each visit makes one of the changes of naming, or none. -/
theorem visited_renamed (event : WalkEvent) (id : NodeId) (access : Access) (s : Used × Workspace) :
    Renamed settings id s.2 (visited settings event id access s).2.2 := by
  obtain ⟨used, w⟩ := s
  have hentry : Renamed settings id w (visited settings .enter id access (used, w)).2.2 := by
    change Renamed settings id w (((visit settings .enter id access).run used).run w).2
    rw [visit_enter]
    split
    case h_1 => exact .type
    case h_2 | h_3 | h_4 => exact .function used
    case h_5 | h_6 | h_7 => exact .value used
    case h_8 hkind => exact .enumerator used hkind
    case h_9 => exact .same
  cases event with
  | enter => exact hentry
  | leaf => exact hentry
  | exit => exact .same

/-- The changes of naming keep the shape. -/
theorem Renamed.reshaped {w w' : Workspace} (h : Renamed settings id w w') : w.Reshaped w' := by
  cases h with
  | same => exact .refl w
  | type => exact .modify w id fun _ _ => rfl
  | function used => exact nameFunction_reshaped used w
  | value used => exact nameVariable_reshaped used w
  | enumerator used hkind => exact valueEnumerator_reshaped used w

/-- The names that have been given out and the workspace after the walk from a node. -/
def named (settings : Settings) (bound : Nat) (id : NodeId) (s : Used × Workspace) :
    Used × Workspace :=
  Forest.walked (fun s => s.2.forest) (visited settings) bound id s

/-- The pass is the walk from the root, begun with no names given out. -/
theorem nameAll_eq (settings : Settings) (w : Workspace) (root : NodeId) :
    nameAll settings w root = (named settings w.forest.depthBound root ({}, w)).2 := by
  have hrun : (Forest.Runs.stacked Used Workspace).run
      (Forest.walkWithin (return (← getThe Workspace).forest)
        (visit settings) w.forest.depthBound root)
      ({}, w) = ((), named settings w.forest.depthBound root ({}, w)) := by
    unfold named
    exact Forest.run_walkWithin _ (fun _ => rfl) (fun _ _ _ _ => rfl) w.forest.depthBound root _
  exact congrArg (fun r => r.2.2) hrun

/-- What holds between the workspaces around each visit holds between those around the pass. -/
theorem nameAll_rel {R : Workspace → Workspace → Prop} (hrefl : ∀ w, R w w)
    (htrans : ∀ {w w' w''}, R w w' → R w' w'' → R w w'')
    (hvisit : ∀ {id w w'}, Renamed settings id w w' → R w w') (w : Workspace) (root : NodeId) :
    R w (nameAll settings w root) := by
  rw [nameAll_eq]
  exact Forest.walked_rel (R := fun s s' : Used × Workspace => R s.2 s'.2)
    (fun s => hrefl s.2) htrans
    (fun event id access s => hvisit (visited_renamed event id access s)) w.forest.depthBound root
      ({}, w)

/-- Naming a tree gives other names and values only. -/
theorem nameAll_reshaped (settings : Settings) (w : Workspace) (root : NodeId) :
    w.Reshaped (nameAll settings w root) :=
  nameAll_rel .refl .trans Renamed.reshaped w root

end Interop.Naming
