import Interop.Pass
import Interop.Proofs.Naming.Shape

namespace Interop

open Overlay Export

variable {s : Surroundings} {w w' : Workspace} {units : List HeaderUnit} {fits : Kind → Kind → Prop}

/-- Whether a forest is well-formed and the root of the namespace is there. -/
structure Rooted (s : Surroundings) (w : Workspace) : Prop where
  wellFormed : w.forest.WellFormed
  root : ∃ r, w.forest.content? s.root = some r ∧ r.kind = .file

theorem Rooted.isContainer (h : Rooted s w) : IsContainer .file s.root w :=
  ⟨rfl, h.root⟩

theorem Rooted.isScope (h : Rooted s w) : Members.IsScope .file s.root w :=
  ⟨.inl rfl, h.isContainer⟩

/-- A tree that is built is rooted. -/
theorem Overlay.Built.rooted {ok : Node → Node → Prop} (h : Built ok s w) : Rooted s w :=
  ⟨h.wellFormed, h.root⟩

theorem Containers.Adds.holds {m n : Node} {names : List String}
    (h : Containers.Adds fits w m n names) :
    n.IsFresh ∧ m.kind.isContainer = true :=
  ⟨h.fresh, Kind.isContainer_of_isHolder h.container⟩

theorem Members.Adds.holds {m n : Node} {names : List String} (h : Members.Adds s w m n names) :
    n.IsFresh ∧ m.kind.isContainer = true := by
  refine ⟨h.fresh, ?_⟩
  rcases h.around with hm | hm | hm <;> rw [hm] <;> rfl

/-- Growth keeps the root, provided that nodes are added to containers only. -/
theorem Rooted.grows {adds : Workspace → Node → Node → List String → Prop}
    (hadds : ∀ {w m n names}, adds w m n names → n.IsFresh ∧ m.kind.isContainer = true)
    (hgrows : Relation.ReflTransGen (Grows adds) w w') (h : Rooted s w) : Rooted s w' :=
  ⟨h.wellFormed.grows hadds hgrows, (h.isContainer.mono (fun hnew => (hadds hnew).1) hgrows).2⟩

namespace RawPass

/-- What holds between the workspaces around each header holds between those around all headers. -/
theorem foldl_steps {b : HeaderUnit → Builder} {R : Workspace → Workspace → Prop}
    {Ok : Kind → NodeId → Workspace → Prop} (hsteps : ∀ u, (b u).Steps fits R Ok)
    (hrefl : ∀ w, R w w) {kind : Kind} {top : NodeId}
    (hunits : ∀ u ∈ units, u.root.Nested fits kind) (htop : Ok kind top w) :
    R w (units.foldl (fun w u => (b u).build top u.root w) w) := by
  induction units generalizing w with
  | nil => exact hrefl w
  | cons u rest ih =>
    have hfirst := (hsteps u).build u.root kind top w (hunits u List.mem_cons_self) htop
    have hrest := ih (fun v hv => hunits v (List.mem_cons_of_mem u hv))
      ((hsteps u).mono hfirst htop)
    exact (hsteps u).trans hfirst hrest

/-- The first pass only adds containers and enumerators, if the declarations of the headers fit into
each other. -/
theorem containers_grows (h : Rooted s w) (hunits : ∀ u ∈ units, u.root.Nested fits .file) :
    Relation.ReflTransGen (Grows (Containers.Adds fits)) w (containers.apply s units w) := by
  rw [apply_eq]
  exact foldl_steps (fun u => Containers.steps fits s (some u.path))
    (fun _ => .refl) hunits h.isContainer

/-- The second pass only adds members. Nothing has to be known of the headers. -/
theorem members_grows (h : Rooted s w) :
    Relation.ReflTransGen (Grows (Members.Adds s)) w (members.apply s units w) := by
  rw [apply_eq]
  have hunits : ∀ u ∈ units, u.root.Nested (fun _ _ => True) .file :=
    fun u _ => Declaration.nested_of_forall (fun _ _ => trivial) u.root .file
  exact foldl_steps (fun u => Members.steps s (some u.path)) (fun _ => .refl) hunits h.isScope

/-- A raw pass keeps the root. -/
theorem apply_rooted (h : Rooted s w) (pass : RawPass) : Rooted s (pass.apply s units w) := by
  cases pass with
  | containers =>
    have hunits : ∀ u ∈ units, u.root.Nested (fun _ _ => True) .file :=
      fun u _ => Declaration.nested_of_forall (fun _ _ => trivial) u.root .file
    exact h.grows Containers.Adds.holds (containers_grows h hunits)
  | members => exact h.grows Members.Adds.holds (members_grows h)

end RawPass

namespace OverlayPass

/-- Moving globals keeps the root. -/
theorem move_rooted (h : Rooted s w) : Rooted s (Globals.move w s.root) := by
  obtain ⟨r, hr, hfile⟩ := h.root
  obtain ⟨hsteps, -⟩ := Globals.move_steps h.wellFormed hr (Globals.isScope_iff.mpr (.inl hfile))
  exact ⟨Globals.Steps.wellFormed hsteps h.wellFormed, r, Globals.Steps.content?_of_some hsteps hr,
    hfile⟩

/-- Dropping trees keeps the root if it is held. -/
theorem release_rooted (h : Rooted s w) (held : List NodeId) :
    Rooted s (w.release (s.root :: held)) := by
  obtain ⟨r, hr, hfile⟩ := h.root
  have hheld : w.forest.HeldBy (s.root :: held) s.root := Forest.heldBy_of_mem List.mem_cons_self
  exact ⟨h.wellFormed.release _, r, h.wellFormed.content?_release.mpr ⟨hr, hheld⟩, hfile⟩

/-- A change that keeps all shapes keeps the root. -/
theorem reshaped_rooted (h : Rooted s w) (hshapes : w.Reshaped w') : Rooted s w' := by
  obtain ⟨r, hr, hfile⟩ := h.root
  obtain ⟨r', hr', hshape⟩ := hshapes.symm.exists_content hr
  exact ⟨hshapes.wellFormed h.wellFormed, r', hr', (Node.kind_eq_of_shape hshape).symm.trans hfile⟩

/-- An overlay pass keeps the root. -/
theorem apply_rooted (h : Rooted s w) (pass : OverlayPass) : Rooted s (pass.apply s w).1 := by
  cases pass with
  | globals => exact release_rooted (move_rooted h) s.kept
  | naming => exact reshaped_rooted h (Naming.nameAll_reshaped s.settings w s.root)
  | bridge => exact h
  | managed => exact h

/-- Overlay passes keep the root, whichever of them are applied. -/
theorem applyAll_rooted (h : Rooted s w) (passes : List OverlayPass) :
    Rooted s (applyAll s w passes).1 := by
  induction passes generalizing w with
  | nil => exact h
  | cons pass rest ih => exact ih (apply_rooted h pass)

end OverlayPass

/-- All passes together keep the root. -/
theorem Passes.apply_rooted (h : Rooted s w) (p : Passes) : Rooted s (p.apply s units w).1 := by
  apply OverlayPass.applyAll_rooted
  induction p.raw generalizing w with
  | nil => exact h
  | cons pass rest ih => exact ih (RawPass.apply_rooted h pass)

section Top

variable (h : Rooted s w) (htop : w.forest.parent? s.root = .none)
include h htop

/-- Growth puts nothing above the root. -/
theorem Rooted.top_of_grows {adds : Workspace → Node → Node → List String → Prop}
    (hadds : ∀ {w m n names}, adds w m n names → n.IsFresh ∧ m.kind.isContainer = true)
    (hgrows : Relation.ReflTransGen (Grows adds) w w') : w'.forest.parent? s.root = none := by
  induction hgrows with
  | refl => exact htop
  | tail hbefore hstep ih =>
    have hrooted := h.grows hadds hbefore
    obtain ⟨r, hr, -⟩ := hrooted.root
    cases hstep with
    | grow hparent hnew =>
      refine (hrooted.wellFormed.parent?_pushBelow hparent (hadds hnew).1 s.root).trans ?_
      rw [if_neg (Forest.ne_nextId_of_content? hr), ih]

/-- A raw pass puts nothing above the root. -/
theorem RawPass.apply_top (pass : RawPass) :
    (pass.apply s units w).forest.parent? s.root = none := by
  cases pass with
  | containers =>
    have hunits : ∀ u ∈ units, u.root.Nested (fun _ _ => True) .file :=
      fun u _ => Declaration.nested_of_forall (fun _ _ => trivial) u.root .file
    exact h.top_of_grows htop Containers.Adds.holds (containers_grows h hunits)
  | members => exact h.top_of_grows htop Members.Adds.holds (members_grows h)

/-- An overlay pass puts nothing above the root. -/
theorem OverlayPass.apply_top (pass : OverlayPass) :
    (pass.apply s w).1.forest.parent? s.root = none := by
  obtain ⟨r, hr, hfile⟩ := h.root
  cases pass with
  | globals =>
    obtain ⟨hsteps, -⟩ := Globals.move_steps h.wellFormed hr (Globals.isScope_iff.mpr (.inl hfile))
    have hmoved : (Globals.move w s.root).forest.parent? s.root = none :=
      Globals.Steps.top hsteps h.wellFormed hr hfile htop
    cases hparent : ((Globals.move w s.root).release (s.root :: s.kept)).forest.parent? s.root with
    | none => exact hparent
    | some parent =>
      have hold := ((move_rooted h).wellFormed.parent?_release.mp hparent).1
      rw [hmoved] at hold
      cases hold
  | naming => exact ((Naming.nameAll_reshaped s.settings w s.root).parent?_eq s.root).trans htop
  | bridge => exact htop
  | managed => exact htop

theorem OverlayPass.applyAll_top (passes : List OverlayPass) :
    (applyAll s w passes).1.forest.parent? s.root = none := by
  induction passes generalizing w with
  | nil => exact htop
  | cons pass rest ih => exact ih (apply_rooted h pass) (apply_top h htop pass)

theorem RawPass.applyAll_top (passes : List RawPass) :
    Rooted s (passes.foldl (RawPass.apply s units) w) ∧
      (passes.foldl (RawPass.apply s units) w).forest.parent? s.root = none := by
  induction passes generalizing w with
  | nil => exact ⟨h, htop⟩
  | cons pass rest ih => exact ih (RawPass.apply_rooted h pass) (RawPass.apply_top h htop pass)

/-- The root of the namespace stays at the top of its tree. -/
theorem Passes.apply_top (p : Passes) : (p.apply s units w).1.forest.parent? s.root = .none := by
  obtain ⟨hrooted, htop⟩ := @RawPass.applyAll_top s w units h htop p.raw
  exact OverlayPass.applyAll_top hrooted htop p.overlay

end Top

end Interop
