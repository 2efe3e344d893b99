import Interop.Emit.Managed
import Interop.Proofs.Generator.Start
import Interop.Proofs.Naming.Defaults
import Interop.Proofs.Overlay.Preorder

namespace Interop

open Overlay Emit

namespace Naming

variable {settings : Settings} {w : Workspace} {id v : NodeId} {n : Node} {s : Used × Workspace}
    {ids : List NodeId}

/-- A managed constant is a constant variable of a simple type with a value or an initializer that
is plain. -/
theorem isManagedConstant_iff :
    isManagedConstant settings n = true ↔
      n.kind.isVariable = true ∧ n.isConstant = true ∧ n.type?.any isSimpleType = true ∧
        (n.managedValue?.isSome = true ∨ n.nativeValue?.any (isPlainValue settings) = true) := by
  simp only [isManagedConstant, Bool.and_eq_true, Bool.or_eq_true, and_assoc]

/-- Of the variables only managed constants can be named. -/
theorem isNameable_iff_of_variable (hkind : n.kind.isVariable = true) :
    isNameable settings n = true ↔ isManagedConstant settings n = true := by
  have hne : (n.kind == .enumerator) = false := by
    rcases isVariable_iff.mp hkind with hkind | hkind | hkind <;> rw [hkind] <;> rfl
  rw [isNameable, hne, Bool.false_or]

/-- What is or will be a managed constant stays so when its value is worked out. -/
theorem isManagedConstant_valued (h : isManagedConstant settings n = true) :
    isManagedConstant settings (valued settings w id n) = true := by
  obtain ⟨hkind, hconstant, hsimple, -⟩ := isManagedConstant_iff.mp h
  rw [valued_variable hkind]
  cases n.nativeValue?.bind (managedDefault? settings w id) with
  | none => exact h
  | some value =>
    rw [Option.elim_some, withValue_eq]
    refine isManagedConstant_iff.mpr ⟨hkind, ?_, hsimple, .inl ?_⟩
    · simp [hconstant]
    · simp [hconstant, hsimple]

/-- Once its value has been worked out, a managed constant has one. -/
theorem isSome_managedValue?_valued (h : isManagedConstant settings (valued settings w id n) = true)
    (hkind : n.kind.isVariable = true) : (valued settings w id n).managedValue?.isSome = true := by
  rw [valued_variable hkind] at h ⊢
  cases hvalue : n.nativeValue?.bind (managedDefault? settings w id) with
  | none =>
    rw [hvalue] at h
    obtain ⟨-, -, -, hset | hplain⟩ := isManagedConstant_iff.mp h
    · exact hset
    · -- a plain value is never without a managed text
      change n.nativeValue?.any _ = true at hplain
      cases hnative : n.nativeValue? with
      | none =>
        rw [hnative] at hplain
        cases hplain
      | some native =>
        rw [hnative, Option.any_some] at hplain
        rw [hnative, Option.bind_some] at hvalue
        have hsome := @isSome_managedDefault?_of_plain settings w id native hplain
        rw [hvalue] at hsome
        cases hsome
  | some value =>
    rw [hvalue, Option.elim_some, withValue_eq] at h
    obtain ⟨-, hconstant, hsimple, -⟩ := isManagedConstant_iff.mp h
    rw [Option.elim_some, withValue_eq]
    exact congrArg Option.isSome (if_pos (Bool.and_eq_true_iff.mpr ⟨hconstant, hsimple⟩))

/-- A managed constant stays one when any node is named. -/
theorem isManagedConstant_entry (h : isManagedConstant settings (s.2.node v) = true) :
    isManagedConstant settings ((entry settings id s).2.node v) = true := by
  by_cases hid : v = id
  · subst hid
    rw [← isManagedConstant_core, core_entry]
    exact isManagedConstant_valued h
  · rwa [entry_node hid]

/-- What the pass takes for a managed constant at some time, it takes for one ever after. -/
theorem isManagedConstant_entries (h : isManagedConstant settings (s.2.node v) = true) :
    isManagedConstant settings ((entries settings ids s).2.node v) = true := by
  induction ids generalizing s with
  | nil => exact h
  | cons id rest ih => exact ih (isManagedConstant_entry h)

/-- A managed constant that has been visited has a value. -/
theorem isSome_managedValue?_entries (hnodup : ids.Nodup) (hmem : v ∈ ids)
    (h : isManagedConstant settings ((entries settings ids s).2.node v) = true) :
    ((entries settings ids s).2.node v).managedValue?.isSome = true := by
  obtain ⟨before, after, rfl⟩ := List.append_of_mem hmem
  have hkind : (s.2.node v).kind.isVariable = true := by
    rw [← Node.kind_eq_of_shape ((entries_reshaped settings _ s).node_shape v)]
    exact (isManagedConstant_iff.mp h).1
  have hcore : core ((entries settings (before ++ v :: after) s).2.node v) =
      valued settings (entries settings before s).2 v (core (s.2.node v)) := core_entries hnodup
  rw [← isManagedConstant_core, hcore] at h
  exact congrArg Node.managedValue? hcore ▸ isSome_managedValue?_valued
    (n := core (s.2.node v)) h hkind

/-- What the pass has made of a workspace when it comes to a node of the tree. -/
def namedUntil (settings : Settings) (w : Workspace) (root user : NodeId) : Workspace :=
  (entries settings ((order w w.forest.depthBound root).takeWhile (· != user)) ({}, w)).2

/-- At any point of the pass there are the nodes that were there before, with other names and
values. -/
theorem namedUntil_reshaped (settings : Settings) (w : Workspace) (root user : NodeId) :
    w.Reshaped (namedUntil settings w root user) :=
  entries_reshaped settings _ ({}, w)

/-- What is a managed constant at some point of the pass is one in the end. -/
theorem isManagedConstant_of_namedUntil (hf : w.forest.WellFormed) {root user : NodeId}
    (h : isManagedConstant settings ((namedUntil settings w root user).node v) = true) :
    isManagedConstant settings ((nameAll settings w root).node v) = true := by
  rw [nameAll_eq, named_eq (s := ({}, w)) hf]
  conv in order _ _ _ =>
    rw [← List.takeWhile_append_dropWhile (p := (· != user))
    (l := order w w.forest.depthBound root)]
  rw [entries_append]
  exact isManagedConstant_entries h

/-- The pass comes to every node of the tree. -/
theorem mem_order (hf : w.forest.WellFormed) {root : NodeId} (hwithin : w.forest.Within root v)
    (hkind : (w.node v).kind ≠ .unexposed) : v ∈ order w w.forest.depthBound root := by
  have hbound : w.forest.size - w.forest.rank root < w.forest.depthBound := by
    unfold Forest.depthBound
    omega
  exact Forest.mem_preorder hf hbound hwithin ⟨_,
    Workspace.content?_of_kind hkind⟩ fun _ _ _ => nofun

/-- After the pass, a node has the values that its expressions had when the pass came to it. -/
theorem core_nameAll (hf : w.forest.WellFormed) {root : NodeId}
    (hid : id ∈ order w w.forest.depthBound root) :
    core ((nameAll settings w root).node id) =
      valued settings (namedUntil settings w root id) id (core (w.node id)) := by
  have hnodup : (order w w.forest.depthBound root).Nodup := Forest.preorder_nodup hf
  rw [nameAll_eq, named_eq (s := ({}, w)) hf, namedUntil]
  obtain ⟨before, after, horder⟩ := List.append_of_mem hid
  rw [horder] at hnodup ⊢
  have hbefore : ∀ key ∈ before, (key != id) = true := by
    intro key hkey
    rw [bne_iff_ne]
    rintro rfl
    exact (List.nodup_append.mp hnodup).2.2 key hkey key List.mem_cons_self rfl
  rw [List.takeWhile_append_of_pos hbefore, List.takeWhile_cons_of_neg (by simp), List.append_nil]
  exact core_entries hnodup

/-- After the pass, every managed constant of the tree has a value. -/
theorem isSome_managedValue?_nameAll (hf : w.forest.WellFormed) {root : NodeId}
    (hwithin : w.forest.Within root v)
    (h : isManagedConstant settings ((nameAll settings w root).node v) = true) :
    ((nameAll settings w root).node v).managedValue?.isSome = true := by
  have hkind : (w.node v).kind.isVariable = true := by
    rw [← Node.kind_eq_of_shape ((nameAll_reshaped settings w root).node_shape v)]
    exact (isManagedConstant_iff.mp h).1
  have hmem := mem_order hf hwithin (by rintro heq; rw [heq] at hkind; cases hkind)
  rw [nameAll_eq, named_eq (s := ({}, w)) hf] at h ⊢
  exact isSome_managedValue?_entries (Forest.preorder_nodup hf) hmem h

end Naming

/-- A variable with a managed value needs no accessors. -/
theorem Emit.accessors_of_value {n : Node} {value : String} (hvalue : n.managedValue? = some value)
    (m : Mapper) (class_ : Node) : accessors m class_ n = [] := by
  rw [accessors, hvalue]
  rfl

/-- A constant with a value is added as such, if it is added. -/
theorem Emit.ManagedState.addVariable_of_value {n : Node} {value : String}
    (hconstant : n.isConstant = true) (hvalue : n.managedValue? = some value) (m : Mapper)
    (state : ManagedState) :
    state.addVariable m n = state ∨
      ∃ managed, state.addVariable m n =
        state.addMember (managedName n.name) (.constant managed (managedName n.name) value) [] := by
  unfold addVariable
  split
  · rename_i info _ _ _ _
    simp only [hconstant, hvalue]
    split
    · exact .inl rfl
    · exact .inr ⟨info.managed, rfl⟩
  · exact .inl rfl

/-- When a default has become the path of a variable of the tree, the variable is a constant with a
value in the end: it has no accessors, and managed code declares it as a constant. -/
theorem Passes.named_constants_valued {g : Generator} {others : List NodeId} {s : Surroundings}
    (hg : Generator.Reached g.workspace) (hroot : s.root = (g.restart others).1) (p : Passes)
    (units : List HeaderUnit) (settings : Settings) {w : Workspace}
    (hforest : w.forest = (p.apply s units (g.restart others).2).1.forest) :
    let w' := Naming.nameAll settings w s.root
    ∀ user ∈ Naming.order w w.forest.depthBound s.root, ∀ expression v,
      w.forest.Within s.root v → (w.node v).kind.isVariable = true →
      let current := Naming.namedUntil settings w s.root user
      Naming.denoted? settings current user expression = some (.node v) →
      Naming.managedDefault? settings current user expression =
        some (current.forest.managedPath v) →
      (w'.node v).isConstant = true ∧ ∃ value, (w'.node v).managedValue? = some value ∧
        (∀ m class_, accessors m class_ (w'.node v) = []) ∧
        ∀ m (state : ManagedState), state.addVariable m (w'.node v) = state ∨
          ∃ managed, state.addVariable m (w'.node v) =
            state.addMember (managedName (w'.node v).name)
            (.constant managed (managedName (w'.node v).name) value) [] := by
  intro w' user _ expression v hwithin hkind current hdenoted hdefault
  have hf : w.forest.WellFormed :=
    hforest ▸ (Passes.apply_rooted (Generator.restart_bareTree hg.wellFormed hroot).rooted
      p).wellFormed
  have hnameable : Naming.isNameable settings (current.node v) = true := by
    rw [Naming.managedDefault?_of_node hdenoted] at hdefault
    by_contra hnot
    rw [if_neg hnot] at hdefault
    cases hdefault
  have hcurrent : (current.node v).kind.isVariable = true := by
    rw [Node.kind_eq_of_shape ((Naming.namedUntil_reshaped settings w s.root user).node_shape v)]
    exact hkind
  have hconstant := Naming.isManagedConstant_of_namedUntil hf
    ((Naming.isNameable_iff_of_variable hcurrent).mp hnameable)
  have hset := Naming.isSome_managedValue?_nameAll hf hwithin hconstant
  obtain ⟨value, hvalue⟩ := Option.isSome_iff_exists.mp hset
  have hisConstant := (Naming.isManagedConstant_iff.mp hconstant).2.1
  exact ⟨hisConstant, value, hvalue, Emit.accessors_of_value hvalue,
    Emit.ManagedState.addVariable_of_value hisConstant hvalue⟩

/-- A default that names a variable which has no value yet, and the value it gets later. -/
theorem Passes.named_constants_valued_ahead :
    let int : NativeType := .builtin .int
    let f : Declaration :=
      { kind := .memberFunction, name := "f", line := 1, returnType? := some int
        parameters := [{ name := "x", type := int, default? := some "a" }] }
    let class_ : Declaration :=
      { kind := .classType, name := "A", line := 1, flags := { isDefinition := true },
        children := [f] }
    let a : Declaration :=
      { kind := .freeVariable, name := "a", line := 1, type? := some (.qualified int true false),
        value? := some "1" }
    let u := HeaderUnit.ofDeclarations ⟨"A.h"⟩ [class_, a]
    let g := Generator.ofDirectories ⟨""⟩ ⟨"/o"⟩
    let s : Surroundings :=
      { settings := g.settings, rules := { name := "M" }, root := (g.restart []).1 }
    let p : Passes := ⟨[.containers, .members], [.globals]⟩
    let w := (p.apply s [u] (g.restart []).2).1
    let current := Naming.namedUntil g.settings w s.root ⟨2⟩
    Naming.managedDefault? g.settings current ⟨2⟩ "a" = some "Globals.a" ∧
      (current.node ⟨3⟩).managedValue? = .none ∧
      ∃ value, ((Naming.nameAll g.settings w s.root).node ⟨3⟩).managedValue? = some value := by
  intro int f class_ a u g s p w current
  refine ⟨by decide +kernel, by decide +kernel, ?_⟩
  have hparent : w.forest.parent? ⟨3⟩ = some ⟨4⟩ := by decide +kernel
  have htop : w.forest.parent? ⟨4⟩ = some s.root := by decide +kernel
  obtain ⟨-, value, hvalue, -⟩ :=
    Passes.named_constants_valued (s := s) .start rfl p [u] g.settings (w := w) rfl ⟨2⟩
    (by decide +kernel) "a" ⟨3⟩ (.step hparent (.step htop .self)) (by decide +kernel)
      (by decide +kernel)
    (by decide +kernel)
  exact ⟨value, hvalue⟩

end Interop
