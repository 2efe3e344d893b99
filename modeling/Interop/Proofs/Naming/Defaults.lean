import Interop.Proofs.Naming.Numbers

namespace Interop.Naming

open Overlay Emit

section Expressions

variable {settings : Settings} {w : Workspace} {user id : NodeId} {expression : String}

/-- What an expression that `user` uses as a default stands for: a text of its own, or what its name
is found to be. -/
def denoted? (settings : Settings) (w : Workspace) (user : NodeId) (expression : String) :
    Option Symbols.Constant :=
  let native := Text.trimString expression
  (settings.replacements.get? native <|> managedLiteral? native).map .replacement <|>
    if isQualifiedName native then
      w.symbols.constant? w.forest settings.replacements user (Symbol.unrooted native)
    else none

/-- The managed text of what an expression stands for, which is the path of a node that managed code
can name. -/
def constantText? (settings : Settings) (w : Workspace) : Symbols.Constant → Option String
  | .replacement text => some text
  | .node id => if isNameable settings (w.node id) then some (w.forest.managedPath id) else none

/-- A default becomes the text of what it stands for. -/
theorem managedDefault?_eq (settings : Settings) (w : Workspace) (user : NodeId)
    (expression : String) :
    managedDefault? settings w user expression =
      (denoted? settings w user expression).bind (constantText? settings w) := by
  simp only [managedDefault?, denoted?]
  cases settings.replacements.get? (Text.trimString expression) with
  | some text => simp [constantText?]
  | none =>
    cases managedLiteral? (Text.trimString expression) with
    | some text => simp [constantText?]
    | none =>
      split
      · cases w.symbols.constant? w.forest settings.replacements user
            (Symbol.unrooted (Text.trimString expression)) with
        | none => rfl
        | some constant => cases constant <;> rfl
      · rfl

/-- An expression that stands for a node has the path of the node for its managed text, if it has
one at all. -/
theorem managedDefault?_of_node (hdenoted : denoted? settings w user expression = some (.node id)) :
    managedDefault? settings w user expression =
      if isNameable settings (w.node id) then some (w.forest.managedPath id) else none := by
  rw [managedDefault?_eq, hdenoted]
  rfl

/-- A plain value becomes a text in each workspace. -/
theorem isSome_managedDefault?_of_plain (hplain : isPlainValue settings expression = true) :
    (managedDefault? settings w user expression).isSome = true := by
  simp only [isPlainValue, Table.contains, Bool.or_eq_true] at hplain
  simp only [managedDefault?, Option.orElse_eq_orElse, Option.orElse_eq_or, Option.isSome_or,
    Bool.or_eq_true]
  exact hplain.imp_right .inl

end Expressions

/-- A node without its children and its name in the bridge, which no value depends on. -/
def core (n : Node) : Node :=
  { n with children := [], bridgeName := "" }

/-- Being a managed constant does not depend on children and names. -/
theorem isManagedConstant_core (settings : Settings) (n : Node) :
    isManagedConstant settings (core n) = isManagedConstant settings n :=
  rfl

theorem isNameable_core (settings : Settings) (n : Node) :
    isNameable settings (core n) = isNameable settings n :=
  rfl

section Values

variable {settings : Settings} {w : Workspace} {id key : NodeId} {n : Node} {s : Used × Workspace}
  {before after : List NodeId}

/-- A node with the managed values that its expressions have in a workspace. -/
def valued (settings : Settings) (w : Workspace) (id : NodeId) (n : Node) : Node :=
  match n.kind with
  | .constructor | .memberFunction | .freeFunction =>
    let defaults := trailing (n.parameters.map fun p =>
      p.nativeDefault?.bind (managedDefault? settings w id))
    { n with
      parameters := n.parameters.zipWith (fun p d => { p with managedDefault? := d }) defaults }
  | .freeVariable | .memberVariable | .bitField =>
    (n.nativeValue?.bind (managedDefault? settings w id)).elim n (withValue settings n)
  | .enumerator => { n with managedValue? := n.nativeValue?.bind (managedDefault? settings w id) }
  | _ => n

/-- The defaults of a function are worked out, and those at the end are kept. -/
theorem valued_function (hcallable : isCallable n = true) :
    valued settings w id n =
      { n with
        parameters := n.parameters.zipWith (fun p d => { p with managedDefault? := d })
          (trailing (n.parameters.map fun p =>
              p.nativeDefault?.bind (managedDefault? settings w id))) } := by
  unfold valued
  rcases isCallable_iff.mp hcallable with hkind | hkind | hkind <;> rw [hkind]

/-- A variable keeps its value when its initializer has none in managed code. -/
theorem valued_variable (hkind : n.kind.isVariable = true) :
    valued settings w id n = (n.nativeValue?.bind (managedDefault? settings w id)).elim n
      (withValue settings n) := by
  unfold valued
  rcases isVariable_iff.mp hkind with hkind | hkind | hkind <;> rw [hkind]

/-- An enumerator loses its value when its expression has none in managed code. -/
theorem valued_enumerator (hkind : n.kind = .enumerator) :
    valued settings w id n =
      { n with managedValue? := n.nativeValue?.bind (managedDefault? settings w id) } := by
  rw [valued, hkind]

/-- Whether a node is of a kind that has managed values. -/
def hasValues (n : Node) : Bool :=
  isCallable n || n.kind.isVariable || n.kind == .enumerator

/-- Nodes of other kinds get no values. -/
theorem valued_of_not_hasValues (h : hasValues n = false) : valued settings w id n = n := by
  unfold valued
  cases hkind : n.kind
  case constructor | memberFunction | freeFunction | freeVariable | memberVariable | bitField |
      enumerator =>
    rw [hasValues, isCallable, hkind] at h
    cases h
  all_goals rfl

/-- A value makes a variable constant if the rules force it to, and is kept by a constant of a
simple type. -/
theorem withValue_eq (settings : Settings) (n : Node) (value : String) :
    withValue settings n value =
      { n with
        isConstant := n.isConstant || settings.isForced value
        managedValue? :=
          if (n.isConstant || settings.isForced value) && n.type?.any isSimpleType then some value
          else n.managedValue? } := by
  simp only [withValue]
  split
  · rfl
  · rfl

theorem valued_shape (settings : Settings) (w : Workspace) (id : NodeId) (n : Node) :
    (valued settings w id n).shape = n.shape := by
  by_cases hvalues : hasValues n = true
  · simp only [hasValues, Bool.or_eq_true, beq_iff_eq] at hvalues
    rcases hvalues with (hcallable | hvariable) | henumerator
    · have hparameters := shape_parameters n.parameters
        (trailing (n.parameters.map fun p => p.nativeDefault?.bind (managedDefault? settings w id)))
        (by rw [length_trailing, List.length_map])
      rw [valued_function hcallable]
      simp only [Node.shape, hparameters]
    · rw [valued_variable hvariable]
      cases n.nativeValue?.bind (managedDefault? settings w id) with
      | none => rfl
      | some value => exact withValue_shape settings n value
    · rw [valued_enumerator henumerator]
      rfl
  · rw [valued_of_not_hasValues (Bool.not_eq_true _ ▸ hvalues)]

/-- Naming a function gives it the values of its defaults. -/
theorem core_nameFunction (hn : s.2.forest.node? id = some n) (hcallable : isCallable n = true) :
    core ((((nameFunction settings id).run s.1).run s.2).2.node id) =
      valued settings s.2 id (core n) := by
  rw [valued_function (n := core n) hcallable]
  refine (congrArg core (Workspace.node_modify_self hn _)).trans ?_
  rw [Workspace.node_of_node? hn]
  rfl

/-- Naming a variable gives it the value of its initializer. -/
theorem core_nameVariable (hn : s.2.forest.node? id = some n) (hkind : n.kind.isVariable = true) :
    core ((((nameVariable settings id).run s.1).run s.2).2.node id) =
      valued settings s.2 id (core n) := by
  rw [valued_variable (n := core n) hkind]
  refine (congrArg core (Workspace.node_modify_self hn _)).trans ?_
  rw [Workspace.node_of_node? hn, show (core n).nativeValue? = n.nativeValue? from rfl]
  cases n.nativeValue?.bind (managedDefault? settings s.2 id) with
  | none => rfl
  | some value =>
    simp only [Option.elim_some, withValue_eq]
    rfl

/-- Working out an enumerator gives it the value of its expression. -/
theorem core_valueEnumerator (hn : s.2.forest.node? id = some n) (hkind : n.kind = .enumerator) :
    core ((((valueEnumerator settings id).run s.1).run s.2).2.node id) =
      valued settings s.2 id (core n) := by
  rw [valued_enumerator (n := core n) hkind]
  refine (congrArg core (Workspace.node_modify_self hn _)).trans ?_
  rw [Workspace.node_of_node? hn]
  rfl

/-- A visit gives a node the values that its expressions have then. -/
theorem core_entry (settings : Settings) (id : NodeId) (s : Used × Workspace) :
    core ((entry settings id s).2.node id) = valued settings s.2 id (core (s.2.node id)) := by
  cases hn : s.2.forest.node? id with
  | none =>
    have hnode : s.2.node id = default := by rw [Workspace.node_eq, hn]; rfl
    have hkind : (s.2.node id).kind = .unexposed := by rw [hnode]; rfl
    rw [entry, hkind, hnode, valued_of_not_hasValues rfl]
  | some n =>
    have hnode := Workspace.node_of_node? hn
    have hclass : core ((s.2.modify id fun k => { k with bridgeName := Symbol.flat k.symbol }).node
        id) = core n :=
      (congrArg core (Workspace.node_modify_self hn _)).trans rfl
    rw [hnode]
    cases hkind : n.kind
    case constructor | memberFunction | freeFunction =>
      have hcallable : isCallable n = true := isCallable_iff.mpr (by simp [hkind])
      simpa only [entry, hnode, hkind] using core_nameFunction hn hcallable
    case freeVariable | memberVariable | bitField =>
      have hvariable : n.kind.isVariable = true := isVariable_iff.mpr (by simp [hkind])
      simpa only [entry, hnode, hkind] using core_nameVariable hn hvariable
    case enumerator => simpa only [entry, hnode, hkind] using core_valueEnumerator hn hkind
    all_goals
      have hvalued : valued settings s.2 id (core n) = core n := by
        rw [valued, show (core n).kind = n.kind from rfl, hkind]
      rw [hvalued]
    case classType => simpa only [entry, hnode, hkind] using hclass
    all_goals simp only [entry, hnode, hkind]

/-- In the end a node has the values that its expressions had when it was visited. -/
theorem core_entries (hnodup : (before ++ id :: after).Nodup) :
    core ((entries settings (before ++ id :: after) s).2.node id) =
      valued settings (entries settings before s).2 id (core (s.2.node id)) := by
  obtain ⟨-, hrest, hdisjoint⟩ := List.nodup_append.mp hnodup
  have hbefore : id ∉ before := fun hmem => hdisjoint id hmem id List.mem_cons_self rfl
  rw [entries_append, entries_cons, entries_node (List.nodup_cons.mp hrest).1, core_entry,
    entries_node hbefore]

end Values

end Interop.Naming
