import Interop.Proofs.Generator.Start

namespace Interop.Overlay

open Export

variable {w w' : Workspace} {s : Surroundings} {id : NodeId} {n n' : Node}

/-- Whether all nodes are settled. -/
def AllSettled (w : Workspace) : Prop :=
  ∀ id n, w.forest.content? id = some n → n.Settled

theorem Node.Settled.of_unlinked (h : n.unlinked.Settled) : n.Settled :=
  ⟨h.result, h.value⟩

theorem AllSettled.node? (h : AllSettled w) (hn : w.forest.node? id = some n) : n.Settled :=
  (h id n.unlinked (Forest.content?_of_node? hn)).of_unlinked

/-- Growth keeps all nodes settled if each new node is settled. -/
theorem AllSettled.grows {adds : Workspace → Node → Node → List String → Prop}
    (hadds : ∀ {w m n names}, adds w m n names → n.IsFresh ∧ n.Settled)
    (hgrows : Relation.ReflTransGen (Grows adds) w w') (h : AllSettled w) : AllSettled w' := by
  induction hgrows with
  | refl => exact h
  | tail _ hstep ih =>
    cases hstep with
    | grow hparent hnew =>
      obtain ⟨hfresh, hsettled⟩ := hadds hnew
      intro id k hk
      rw [Workspace.content?_grow hfresh] at hk
      split at hk
      · cases hk
        exact hsettled
      · exact ih id k hk

/-- Dropping trees keeps the others settled. -/
theorem AllSettled.release (h : AllSettled w) (hf : w.forest.WellFormed) (held : List NodeId) :
    AllSettled (w.release held) :=
  fun id n hn => h id n (hf.content?_release.mp hn).1

/-- A change of one node that leaves it settled. -/
theorem AllSettled.modify (h : AllSettled w) {change : Node → Node}
    (hchange : ∀ n, w.forest.node? id = some n → n.Settled → (change n).Settled) :
    AllSettled (w.modify id change) := by
  intro key n hn
  obtain ⟨k, hk, rfl⟩ := Option.map_eq_some_iff.mp hn
  rw [Workspace.modify, Forest.node?_modify] at hk
  split at hk
  · rename_i hkey
    subst hkey
    obtain ⟨old, hold, rfl⟩ := Option.map_eq_some_iff.mp hk
    have hsettled := hchange old hold (h.node? hold)
    exact ⟨hsettled.result, hsettled.value⟩
  · have hsettled := h.node? hk
    exact ⟨hsettled.result, hsettled.value⟩

/-- Moving globals keeps all nodes settled, for only classes are changed by it, and these are
settled whatever is in them. -/
theorem Globals.Steps.settled {root : NodeId} (hsteps : Globals.Steps root w w')
    (hf : w.forest.WellFormed) (h : AllSettled w) : AllSettled w' := by
  intro id n hn
  by_cases hkind : n.kind = .classType
  · constructor
    · intro hfalse
      rw [hkind] at hfalse
      cases hfalse
    · intro hfalse
      rw [hkind] at hfalse
      cases hfalse
  · exact h id n (Globals.Steps.content?_of_ne_class hsteps hf hn hkind)

end Interop.Overlay

namespace Interop

open Overlay Export

variable {s : Surroundings} {w : Workspace} {units : List HeaderUnit} {fits : Kind → Kind → Prop}

/-- The first pass adds containers and enumerators, which are neither constructors nor variables. -/
theorem Containers.Adds.settled {m n : Node} {names : List String}
    (h : Containers.Adds fits w m n names) :
    n.IsFresh ∧ n.Settled := by
  have hkind : n.kind ≠ .constructor ∧ n.kind.isVariable = false := by
    rcases h.kind with ⟨hkind | hkind | hkind, -⟩ | ⟨hkind, -⟩ <;> rw [hkind] <;> exact ⟨nofun, rfl⟩
  refine ⟨h.fresh, fun hfalse => absurd hfalse hkind.1, fun hvariable => ?_⟩
  rw [hkind.2] at hvariable
  cases hvariable

/-- The second pass gives no constructor a result and no variable a value. -/
theorem Members.Adds.isSettled {m n : Node} {names : List String} (h : Members.Adds s w m n names) :
    n.IsFresh ∧ n.Settled :=
  ⟨h.fresh, h.settled⟩

namespace Naming

variable {settings : Settings} {id : NodeId}

/-- Naming a function changes neither its result nor a value. -/
theorem nameFunction_settled (used : Used) (h : AllSettled w) :
    AllSettled (((nameFunction settings id).run used).run w).2 :=
  h.modify fun _ _ hsettled => ⟨hsettled.result, hsettled.value⟩

/-- A value is known of constants only, because a variable that gets one becomes constant if it is
forced to, and gets none otherwise. -/
theorem withValue_settled {n : Node} (value : String) (h : n.Settled) :
    (withValue settings n value).Settled := by
  simp only [withValue]
  split
  · rename_i hconstant
    rw [Bool.and_eq_true] at hconstant
    exact ⟨h.result, fun _ _ => hconstant.1⟩
  · refine ⟨h.result, fun hvariable hvalue => ?_⟩
    rw [Bool.or_eq_true]
    exact .inl (h.value hvariable hvalue)

/-- Naming a variable keeps all nodes settled. -/
theorem nameVariable_settled (used : Used) (h : AllSettled w) :
    AllSettled (((nameVariable settings id).run used).run w).2 := by
  refine h.modify fun n hn hsettled => ?_
  have hnamed : Node.Settled { n with bridgeName := accessorStem w (w.node id) } :=
    ⟨hsettled.result, hsettled.value⟩
  cases (w.node id).nativeValue?.bind (managedDefault? settings w id) with
  | none => exact hnamed
  | some value => exact withValue_settled value hnamed

/-- Giving an enumerator its value keeps all nodes settled, as enumerators are no variables. -/
theorem valueEnumerator_settled (used : Used) (hkind : (w.node id).kind = .enumerator)
    (h : AllSettled w) :
    AllSettled (((valueEnumerator settings id).run used).run w).2 := by
  refine h.modify fun n hn hsettled => ⟨hsettled.result, fun hvariable => ?_⟩
  rw [Workspace.node_of_node? hn] at hkind
  rw [hkind] at hvariable
  cases hvariable

/-- Whatever the naming pass does to a node keeps all nodes settled. -/
theorem Renamed.settled {w w' : Workspace} (hrenamed : Renamed settings id w w')
    (h : AllSettled w) :
    AllSettled w' := by
  cases hrenamed with
  | same => exact h
  | type => exact h.modify fun _ _ hsettled => ⟨hsettled.result, hsettled.value⟩
  | function used => exact nameFunction_settled used h
  | value used => exact nameVariable_settled used h
  | enumerator used hkind => exact valueEnumerator_settled used hkind h

/-- The naming pass keeps all nodes settled. -/
theorem nameAll_settled (h : AllSettled w) (root : NodeId) : AllSettled (nameAll settings w root) :=
  nameAll_rel (R := fun w w' => AllSettled w → AllSettled w') (fun _ h => h)
    (fun h h' hw => h' (h hw))
    Renamed.settled w root h

end Naming

/-- A raw pass keeps all nodes settled. -/
theorem RawPass.apply_settled (hrooted : Rooted s w) (h : AllSettled w) (pass : RawPass) :
    AllSettled (pass.apply s units w) := by
  cases pass with
  | containers =>
    have hunits : ∀ u ∈ units, u.root.Nested (fun _ _ => True) .file :=
      fun u _ => Declaration.nested_of_forall (fun _ _ => trivial) u.root .file
    exact h.grows Containers.Adds.settled (containers_grows hrooted hunits)
  | members => exact h.grows Members.Adds.isSettled (members_grows hrooted)

/-- An overlay pass keeps all nodes settled. -/
theorem OverlayPass.apply_settled (hrooted : Rooted s w) (h : AllSettled w) (pass : OverlayPass) :
    AllSettled (pass.apply s w).1 := by
  cases pass with
  | globals =>
    obtain ⟨r, hr, hfile⟩ := hrooted.root
    obtain ⟨hsteps, -⟩ :=
      Globals.move_steps hrooted.wellFormed hr (Globals.isScope_iff.mpr (.inl hfile))
    have hmoved := Globals.Steps.settled hsteps hrooted.wellFormed h
    exact hmoved.release (move_rooted hrooted).wellFormed (s.root :: s.kept)
  | naming => exact Naming.nameAll_settled h s.root
  | bridge => exact h
  | managed => exact h

/-- Overlay passes keep all nodes settled, whichever of them are applied and in which order. -/
theorem OverlayPass.applyAll_settled (hrooted : Rooted s w) (h : AllSettled w)
    (passes : List OverlayPass) :
    AllSettled (applyAll s w passes).1 := by
  induction passes generalizing w with
  | nil => exact h
  | cons pass rest ih => exact ih (apply_rooted hrooted pass) (apply_settled hrooted h pass)

/-- All passes together keep all nodes settled. -/
theorem Passes.apply_settled (hrooted : Rooted s w) (h : AllSettled w) (p : Passes) :
    AllSettled (p.apply s units w).1 := by
  have hraw : ∀ passes : List RawPass, ∀ w, Rooted s w → AllSettled w →
      Rooted s (passes.foldl (RawPass.apply s units) w) ∧
          AllSettled (passes.foldl (RawPass.apply s units) w) := by
    intro passes
    induction passes with
    | nil => exact fun w hrooted h => ⟨hrooted, h⟩
    | cons pass rest ih =>
      exact fun w hrooted h => ih _ (RawPass.apply_rooted hrooted pass)
        (RawPass.apply_settled hrooted h pass)
  obtain ⟨hrooted, hsettled⟩ := hraw p.raw w hrooted h
  exact OverlayPass.applyAll_settled hrooted hsettled p.overlay

namespace Generator

/-- A new root is settled. -/
theorem plant_settled (h : AllSettled w) : AllSettled (plant w).2 := by
  intro id n hn
  rw [show (plant w).2.forest = w.forest.push Node.root from rfl, Forest.content?_push] at hn
  split at hn
  · cases hn
    exact ⟨nofun, nofun⟩
  · exact h id n hn

theorem plantAll_settled (h : AllSettled w) (rules : List ExportRules) :
    AllSettled (plantAll w rules).2 := by
  induction rules generalizing w with
  | nil => exact h
  | cons first rest ih => exact ih (plant_settled h)

/-- A namespace starts with settled nodes only. -/
theorem restart_settled {g : Generator} (hf : g.workspace.forest.WellFormed)
    (h : AllSettled g.workspace) (others : List NodeId) : AllSettled (g.restart others).2 :=
  (plant_settled h).release (plant_wellFormed hf) _

/-- In everything that is reached all nodes are settled. -/
theorem Reached.settled (h : Reached w) : AllSettled w := by
  induction h with
  | start =>
    intro id n hn
    cases hn
  | load rules h ih =>
    exact (plantAll_settled ih rules.namespaces).release
      (plantAll_wellFormed h.wellFormed rules.namespaces) _
  | @run g others rules h ih =>
    have htree : BareTree (g.surroundings others rules) (g.restart others).2 :=
      restart_bareTree h.wellFormed rfl
    rw [generateOne_workspace]
    exact Passes.apply_settled htree.rooted (restart_settled h.wellFormed ih others) g.passes

end Generator

end Interop
