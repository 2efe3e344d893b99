import Interop.Proofs.Naming.Numbers
import Interop.Proofs.Overlay.ShiftedWalk

namespace Interop.Naming

open Overlay

variable {settings : Settings} {w w' : Workspace} {k : Nat} {id : NodeId}

section Values

variable (h : w.forest.WellFormed)
include h

/-- A default becomes the same text wherever the nodes stand. -/
theorem managedDefault?_shift (user : NodeId) :
    managedDefault? settings (w.shift k) (user.shift k) = managedDefault? settings w user := by
  have hlookup : ∀ name, (w.shift k).symbols.constant? (w.shift k).forest settings.replacements
      (some (user.shift k)) name =
          (w.symbols.constant? w.forest settings.replacements (some user) name).map (·.shift k) :=
    Symbols.constant?_shift w.symbols h k settings.replacements (some user)
  have hpath : ∀ id, (w.shift k).forest.managedPath (NodeId.shift id k) = w.forest.managedPath id :=
    h.managedPath_shift k
  funext expression
  unfold managedDefault?
  simp only [hlookup]
  cases w.symbols.constant? w.forest settings.replacements (some user)
      (Symbol.unrooted (Text.trimString expression)) with
  | none => rfl
  | some constant =>
    cases constant with
    | replacement text => rfl
    | node id =>
      simp only [Option.map_some, Symbols.Constant.shift, Workspace.node_shift, hpath]
      rfl

/-- Naming a function and shifting may change places. -/
theorem nameFunction_shift (used : Used) (id : NodeId) :
    ((nameFunction settings (id.shift k)).run used).run (w.shift k) =
      ((((nameFunction settings id).run used).run w).1,
          (((nameFunction settings id).run used).run w).2.shift k) := by
  have hrun : ∀ (w : Workspace) (id : NodeId), ((nameFunction settings id).run used).run w =
      (((), (uniqueName used (w.node id).symbol).2), w.modify id fun n =>
        { n with
          bridgeName := (uniqueName used (w.node id).symbol).1
          parameters := (w.node id).parameters.zipWith (fun p d => { p with managedDefault? := d })
            (trailing ((w.node id).parameters.map fun p =>
                p.nativeDefault?.bind (managedDefault? settings w id))) }) :=
    fun _ _ => rfl
  rw [hrun, hrun, managedDefault?_shift h, Workspace.node_shift]
  exact Prod.ext rfl (Workspace.modify_shift w id _ fun _ => rfl).symm

/-- Naming a variable and shifting may change places. -/
theorem nameVariable_shift (used : Used) (id : NodeId) :
    ((nameVariable settings (id.shift k)).run used).run (w.shift k) =
      ((((nameVariable settings id).run used).run w).1,
          (((nameVariable settings id).run used).run w).2.shift k) := by
  have hrun : ∀ (w : Workspace) (id : NodeId), ((nameVariable settings id).run used).run w =
      (((), used), w.modify id fun n =>
        ((w.node id).nativeValue?.bind (managedDefault? settings w id)).elim
          { n with bridgeName := accessorStem w (w.node id) }
          (withValue settings { n with bridgeName := accessorStem w (w.node id) })) :=
    fun _ _ => rfl
  have hstem : accessorStem (w.shift k) ((w.node id).shift k) = accessorStem w (w.node id) := by
    have haround : ((w.node id).shift k).parent?.elim ""
        (fun parent => Symbol.flat ((w.shift k).node parent).symbol) =
        (w.node id).parent?.elim "" fun parent => Symbol.flat (w.node parent).symbol := by
      rw [show ((w.node id).shift k).parent? = (w.node id).parent?.map (·.shift k) from rfl]
      cases (w.node id).parent? with
      | none => rw [Option.map_none, Option.elim_none, Option.elim_none]
      | some parent => exact congrArg Symbol.flat (w.symbol_shift k parent)
    unfold accessorStem
    rw [haround]
    rfl
  have hvalue : ∀ (n : Node) (value : String),
      withValue settings (n.shift k) value = (withValue settings n value).shift k := by
    intro n value
    simp only [withValue, show (n.shift k).isConstant = n.isConstant from rfl,
      show (n.shift k).type? = n.type? from rfl]
    split <;> rfl
  rw [hrun, hrun, managedDefault?_shift h, Workspace.node_shift, hstem]
  refine Prod.ext rfl (Workspace.modify_shift w id _ fun n => ?_).symm
  rw [show ((w.node id).shift k).nativeValue? = (w.node id).nativeValue? from rfl]
  cases (w.node id).nativeValue?.bind (managedDefault? settings w id) with
  | none => rfl
  | some value => exact hvalue { n with bridgeName := accessorStem w (w.node id) } value

/-- Working out an enumerator and shifting may change places. -/
theorem valueEnumerator_shift (used : Used) (id : NodeId) :
    ((valueEnumerator settings (id.shift k)).run used).run (w.shift k) =
      ((((valueEnumerator settings id).run used).run w).1,
        (((valueEnumerator settings id).run used).run w).2.shift k) := by
  have hrun : ∀ (w : Workspace) (id : NodeId), ((valueEnumerator settings id).run used).run w =
      (((), used), w.modify id fun n =>
        { n with
          managedValue? := (w.node id).nativeValue?.bind (managedDefault? settings w id) }) :=
    fun _ _ => rfl
  rw [hrun, hrun, managedDefault?_shift h, Workspace.node_shift]
  exact Prod.ext rfl (Workspace.modify_shift w id _ fun _ => rfl).symm

/-- What the pass does with a node of a shifted workspace. -/
theorem entry_shift (used : Used) (id : NodeId) :
    entry settings (id.shift k) (used, w.shift k) =
      ((entry settings id (used, w)).1, (entry settings id (used, w)).2.shift k) := by
  have hfunction := @nameFunction_shift settings w k h used id
  have hvariable := @nameVariable_shift settings w k h used id
  have henumerator := @valueEnumerator_shift settings w k h used id
  unfold entry
  rw [Workspace.kind_shift]
  cases (w.node id).kind
  case classType => exact Prod.ext rfl (Workspace.modify_shift w id _ fun _ => rfl).symm
  case constructor | memberFunction | freeFunction => simp only [hfunction]
  case freeVariable | memberVariable | bitField => simp only [hvariable]
  case enumerator => simp only [henumerator]
  all_goals rfl

end Values

/-- Names are given in a shifted workspace as in the workspace. -/
theorem nameAll_shift (hf : w.forest.WellFormed) (k : Nat) (root : NodeId) :
    nameAll settings (w.shift k) (root.shift k) = (nameAll settings w root).shift k := by
  have hkeeps : ∀ event id access (s : Used × Workspace), w.Reshaped s.2 →
      w.Reshaped (visited settings event id access s).2.2 :=
    fun event id access s hs => hs.trans (visited_renamed event id access s).reshaped
  have hshift : ∀ bound (s : Used × Workspace), w.Reshaped s.2 →
      named settings bound (root.shift k) (s.1, s.2.shift k) =
        ((named settings bound root s).1, (named settings bound root s).2.shift k) := by
    intro bound s hs
    refine Forest.walked_shift (fun s : Used × Workspace => (s.1, s.2.shift k))
      (fun s => w.Reshaped s.2) hkeeps
      (fun _ => rfl) ?_ bound root hs
    intro event id access s hs
    have hentry : ∀ event ≠ WalkEvent.exit,
        visited settings event (id.shift k) access (s.1, s.2.shift k) =
          ((visited settings event id access s).1, (visited settings event id access s).2.1,
            (visited settings event id access s).2.2.shift k) := by
      intro event hevent
      rw [visited_entry hevent, visited_entry hevent, entry_shift (hs.wellFormed hf)]
    cases event with
    | enter => exact hentry .enter (by simp)
    | leaf => exact hentry .leaf (by simp)
    | exit => rfl
  have hbounds : ∀ bound, w.forest.depthBound ≤ bound →
      named settings bound root ({}, w) = named settings w.forest.depthBound root ({}, w) := by
    intro bound hbound
    have hsize : w.forest.size < w.forest.depthBound := by
      unfold Forest.depthBound
      omega
    refine Forest.walked_eq_of_height (fun s : Used × Workspace => w.Reshaped s.2)
      (fun id => w.forest.size - w.forest.rank id) hkeeps
      (fun s id n hs hn => (Forest.WellFormed.plain (hs.wellFormed hf)) id n.unlinked
        (Forest.content?_of_node? hn)) ?_ ?_ ?_
      (Workspace.Reshaped.refl w)
    · intro s id n hs _ _ _ c hc
      rw [(hkeeps .enter id n.access s hs).children_eq] at hc
      have hlt := hf.rank_lt ((hf.links id c).mp hc)
      have hle := w.forest.rank_le_size c
      omega
    · omega
    · omega
  have hdepth : w.forest.depthBound ≤ (w.shift k).forest.depthBound := by
    rw [Forest.depthBound, Forest.depthBound, show (w.shift k).forest = w.forest.shift k from rfl,
      Forest.size_shift]
    omega
  rw [nameAll_eq, nameAll_eq, ← hbounds _ hdepth]
  exact congrArg Prod.snd (hshift _ ({}, w) (.refl w))

end Interop.Naming
