import Interop.Proofs.Export.Arrangement

namespace Interop

open Overlay Export Emit

/-- Members hold nothing. -/
theorem Overlay.Node.not_isContainer_of_isMember {n : Node} (h : n.isMember = true) :
    n.kind.isContainer = false := by
  unfold isMember isCallable at h
  cases hkind : n.kind <;> rw [hkind] at h <;> first | rfl | cases h

/-- Whether each function and variable of a tree goes back to a declaration of the units to which it
is related, seen from the node around it. -/
def AllFrom (related : Origin → Node → Node → Prop) (s : Surroundings) (units : List HeaderUnit)
    (w : Workspace) :
    Prop :=
  ∀ id n parent m, w.forest.Within s.root id → w.forest.content? id = some n → n.isMember = true →
    w.forest.parent? id = some parent → w.forest.content? parent = some m →
      ∃ o ∈ originsIn units, related o m n

namespace AllFrom

variable {related : Origin → Node → Node → Prop} {g : Generator} {others : List NodeId}
    {s : Surroundings}
  {units : List HeaderUnit} {w w' : Workspace}

/-- Whether what has been admitted is related to its declaration. -/
def Exported (related : Origin → Node → Node → Prop) (s : Surroundings) : Prop :=
  ∀ ⦃mapper : Mapper⦄ ⦃o : Origin⦄ ⦃m n : Node⦄, o.Admitted s mapper m n → related o m n

/-- Whether a class is the one for the globals of a scope. -/
structure Houses (m t : Node) : Prop where
  scope : Globals.isScope m = true
  kind : t.kind = .classType
  name : t.name = Globals.className
  symbol : t.symbol = Symbol.qualify m.symbol Globals.className

/-- Whether a relation outlasts that a global moves into the class for the globals of its scope. -/
def Movable (related : Origin → Node → Node → Prop) : Prop :=
  ∀ ⦃o : Origin⦄ ⦃m t n : Node⦄, related o m n → Globals.isGlobal n = true → Houses m t →
    related o t n

/-- Whether a relation does not depend on what naming works out. -/
def Shaped (related : Origin → Node → Node → Prop) : Prop :=
  ∀ ⦃o : Origin⦄ ⦃m m' n n' : Node⦄, related o m n → m'.shape = m.shape → n'.shape = n.shape →
    related o m' n'

/-- In a tree of namespaces and types, the second pass adds what goes back to declarations. -/
theorem members (hexported : Exported related s) (h : Framed s w) :
    AllFrom related s units (RawPass.members.apply s units w) := by
  intro id n parent m hwithin hn hmember hparent hm
  obtain ⟨log, hlog, hrun⟩ := @Members.run_apply s w units h.titled h.root
  have hgated := Members.Gated.run hlog hrun h.built.wellFormed
  obtain ⟨hframe, hfile⟩ := Node.isFrame_of_isMember hmember
  have hnone := Members.added_of_isFrame h hwithin hn hframe hfile
  obtain ⟨o, ho, p, k, hp, hk, hadmitted⟩ := hgated.origin id n hnone hn hmember
  obtain rfl := Option.some.inj (hp.symm.trans hparent)
  obtain rfl := Option.some.inj (hk.symm.trans hm)
  exact ⟨o, ho, hexported hadmitted⟩

/-- A global that moves keeps what it goes back to. -/
theorem step (hmovable : Movable related) (h : AllFrom related s units w) (htitled : Titled w)
    {r : Node} (hr : w.forest.content? s.root = some r) (hfile : r.kind = .file)
    (hstep : Globals.Step s.root w w') : AllFrom related s units w' := by
  intro id n parent m hwithin hn hmember hparent hm
  have hf := htitled.wellFormed
  have hleaf := Node.not_isContainer_of_isMember hmember
  have hbefore : w.forest.content? id = some n := by
    refine (hstep.content?_cases hf hn).resolve_right ?_
    rintro ⟨hclass, -⟩
    rw [hclass] at hleaf
    cases hleaf
  have hinside := hstep.within_of_content? hf hr hfile hbefore hwithin
  rcases hstep.parent?_of_leaf hf hbefore hleaf hparent with
    hkept | ⟨hglobal, scope, k, hscope, hk, hkind, hbeside, t, ht, hclass, hname⟩
  · obtain ⟨k, hk, -⟩ := hf.exists_parent hkept
    obtain rfl := Option.some.inj ((hstep.content?_of_some hk).symm.trans hm)
    exact h id n parent k hinside hbefore hmember hkept hk
  · obtain rfl := Option.some.inj ((hstep.content?_of_some ht).symm.trans hm)
    obtain ⟨o, ho, hrelated⟩ := h id n scope k hinside hbefore hmember hscope hk
    have hsymbol := htitled.stands parent scope t k ht (by rw [hclass]; rfl) hbeside hk
    exact ⟨o, ho, hmovable hrelated hglobal ⟨hkind, hclass, hname, hname ▸ hsymbol⟩⟩

/-- Globals that move keep what they go back to. -/
theorem steps (hmovable : Movable related) (h : AllFrom related s units w) (htitled : Titled w)
    (hrooted : Rooted s w) (hsteps : Globals.Steps s.root w w') : AllFrom related s units w' := by
  obtain ⟨r, hr, hfile⟩ := hrooted.root
  induction hsteps with
  | refl => exact h
  | tail hsteps hstep ih =>
    exact ih.step hmovable (htitled.steps hsteps) (Globals.Steps.content?_of_some hsteps hr) hfile
      hstep

/-- Dropping other trees takes nothing from what goes back to declarations, for the root of the tree
is held. -/
theorem release (h : AllFrom related s units w) (hf : w.forest.WellFormed) (held : List NodeId) :
    AllFrom related s units (w.release (s.root :: held)) := by
  intro id n parent m hwithin hn hmember hparent hm
  have hinside := (hf.within_release (Forest.heldBy_of_mem List.mem_cons_self)).mp hwithin
  exact h id n parent m hinside (hf.content?_release.mp hn).1 hmember
    (hf.parent?_release.mp hparent).1
    (hf.content?_release.mp hm).1

/-- A change that keeps all shapes and parents keeps where nodes come from, if the relation looks at
shapes only. -/
theorem reshaped (hshaped : Shaped related) (h : AllFrom related s units w)
    (hshapes : w.Reshaped w') :
    AllFrom related s units w' := by
  intro id n parent m hwithin hn hmember hparent hm
  obtain ⟨k, hk, hshape⟩ := hshapes.exists_content hn
  obtain ⟨c, hc, hclass⟩ := hshapes.exists_content hm
  have hkind : n.kind = k.kind := Node.kind_eq_of_shape hshape
  have hmember : k.isMember = true := by
    unfold Node.isMember isCallable at hmember ⊢
    rwa [← hkind]
  obtain ⟨o, ho, hrelated⟩ := h id k parent c (hshapes.within_iff.mp hwithin) hk hmember
    ((hshapes.parent?_eq id).symm.trans hparent) hc
  exact ⟨o, ho, hshaped hrelated hclass hshape⟩

/-- When the naming pass begins, all members go back to declarations. -/
theorem of_globals (hg : Generator.Reached g.workspace) (hroot : s.root = (g.restart others).1)
    (hexported : Exported related s) (hmovable : Movable related) (units : List HeaderUnit) :
    AllFrom related s units
      (Passes.apply ⟨[.containers, .members], [.globals]⟩ s units (g.restart others).2).1 := by
  have hframed₁ := (Framed.restart hg hroot).containers units
  have hrooted₂ : Rooted s
      (RawPass.members.apply s units (RawPass.containers.apply s units (g.restart others).2)) :=
    RawPass.apply_rooted hframed₁.built.rooted .members
  obtain ⟨r, hr, hfile⟩ := hrooted₂.root
  obtain ⟨hsteps, -⟩ :=
    Globals.move_steps hrooted₂.wellFormed hr (Globals.isScope_iff.mpr (.inl hfile))
  have htitled₂ : Titled (RawPass.members.apply s units _) :=
    RawPass.apply_titled hframed₁.built.rooted hframed₁.titled .members
  have hmoved := (members hexported hframed₁).steps hmovable htitled₂ hrooted₂ hsteps
  exact hmoved.release (OverlayPass.move_rooted hrooted₂).wellFormed s.kept

/-- After the raw passes, the globals pass and the naming pass all members go back to
declarations. -/
theorem of_passes (hg : Generator.Reached g.workspace) (hroot : s.root = (g.restart others).1)
    (hexported : Exported related s) (hmovable : Movable related) (hshaped : Shaped related)
    (units : List HeaderUnit) :
    AllFrom related s units (Passes.standard.apply s units (g.restart others).2).1 :=
  (of_globals hg hroot hexported hmovable units).reshaped hshaped
    (Naming.nameAll_reshaped s.settings _ s.root)

/-- Every function and every variable of the tree stands below some node, so it goes back to a
declaration. -/
theorem exists_origin (h : AllFrom related s units w) (hrooted : Rooted s w) {id : NodeId}
    {n : Node} (hwithin : w.forest.Within s.root id) (hn : w.forest.content? id = some n)
    (hmember : n.isMember = true) :
    ∃ parent m, w.forest.parent? id = some parent ∧ w.forest.content? parent = some m ∧
      ∃ o ∈ originsIn units, related o m n := by
  cases hwithin with
  | self =>
    obtain ⟨r, hr, hfile⟩ := hrooted.root
    obtain rfl := Option.some.inj (hr.symm.trans hn)
    exact absurd hfile (Node.isFrame_of_isMember hmember).2
  | step hup hinside =>
    obtain ⟨m, hm, -⟩ := hrooted.wellFormed.exists_parent hup
    exact ⟨_, m, hup, hm, h id n _ m (.step hup hinside) hn hmember hup hm⟩

end AllFrom

/-- Whether a node below `m` is what a public declaration has been exported as, but for what naming
works out. The node stands where the declaration stands, unless it is a global that has moved into
the class for the globals of that scope. -/
structure Origin.Published (o : Origin) (m n : Node) : Prop where
  access : o.declaration.access = .exposed
  kept : isCallable n = true → o.declaration.flags.isDeleted = false
  node : n.unlinked.shape = (o.exported m).shape
  place : m.symbol = o.scope ∨ Globals.isGlobal n = true ∧ m.kind = .classType ∧
    m.name = Globals.className ∧ m.symbol = Symbol.qualify o.scope Globals.className

namespace Origin.Published

variable {o : Origin} {m m' n n' : Node}

/-- Whatever is read off the shape of a node is that of what its declaration is exported as. -/
theorem eq_exported {α : Type} (h : o.Published m n) (f : Node → α)
    (hf : ∀ n : Node, f n.unlinked.shape = f n) :
    f n = f (o.exported m) := by
  have hexported : f (o.exported m).shape = f (o.exported m) := by
    rw [← hf (o.exported m), exported, Declaration.exported_unlinked]
  rw [← hf n, h.node, hexported]

/-- A published node is of its declaration's kind. -/
theorem kind (h : o.Published m n) : n.kind = o.declaration.kind :=
  (h.eq_exported Node.kind fun _ => rfl).trans (Declaration.exported_kind ..)

/-- A published node bears its declaration's name, except that a constructor is named after its
class. -/
theorem name (h : o.Published m n) :
    n.name = if o.declaration.kind = .constructor then m.name else o.declaration.name :=
  (h.eq_exported Node.name fun _ => rfl).trans (Declaration.exported_name ..)

/-- The symbol of a node is that of its name where its declaration stands. -/
theorem symbol (h : o.Published m n) : n.symbol = Symbol.qualify o.scope n.name := by
  rw [h.eq_exported Node.symbol fun _ => rfl, h.eq_exported Node.name fun _ => rfl]
  exact Declaration.exported_symbol ..

/-- A published variable has the initializer of its declaration. Other nodes have none to
compare. -/
theorem initializer (h : o.Published m n) (hvariable : n.kind.isVariable = true) :
    n.nativeValue? = o.declaration.value? :=
  (h.eq_exported Node.nativeValue? fun _ => rfl).trans
    (Declaration.exported_of_isVariable _ _ _ (h.kind ▸ hvariable)).2.1

/-- A function has the names of its declaration's parameters, and names by position where there are
none. -/
theorem parameterNames (h : o.Published m n) (hcallable : isCallable n = true) :
    n.parameters.map (·.name) = o.declaration.parameters.zipIdx.map fun (p,
      position) => p.nameAt position := by
  have hvariable := Node.isVariable_of_isCallable hcallable
  rw [h.eq_exported (fun n => n.parameters.map (·.name)) fun n => by simp [Node.shape,
    Node.unlinked], exported, Declaration.exported_of_not_isVariable _ _ _ (h.kind ▸ hvariable),
      List.map_map]
  rfl

/-- What the second pass admits is published. -/
theorem of_admitted {s : Surroundings} {mapper : Mapper} (h : o.Admitted s mapper m n) :
    o.Published m n :=
  ⟨h.access, fun hcallable => (h.function hcallable).1, congrArg Node.shape h.node, .inl h.scope⟩

/-- A global may move into the class for the globals of its scope. -/
theorem moved (h : o.Published m n) (hglobal : Globals.isGlobal n = true)
    (hhouses : AllFrom.Houses m m') : o.Published m' n := by
  have hordinary : o.declaration.kind ≠ .constructor := by
    rw [← h.kind]
    intro heq
    rw [Globals.isGlobal, heq] at hglobal
    cases hglobal
  -- it has not moved before, for it comes from a scope
  have hscope : m.symbol = o.scope := by
    refine h.place.resolve_right ?_
    rintro ⟨-, hclass, -⟩
    have hkind := hhouses.scope
    rw [Globals.isScope, hclass] at hkind
    cases hkind
  refine ⟨h.access, h.kept, ?_, .inr ⟨hglobal, hhouses.kind, hhouses.name, ?_⟩⟩
  · rw [h.node, exported, exported, Declaration.exported_congr _ _ _ hordinary]
  · rw [hhouses.symbol, hscope]

/-- Being published depends only on the shapes of a node and its parent, so it outlasts the naming
pass. -/
theorem of_shape (h : o.Published m n) (hm : m'.shape = m.shape) (hn : n'.shape = n.shape) :
    o.Published m' n' := by
  have hkind : n'.kind = n.kind := Node.kind_eq_of_shape hn
  have hname : m'.name = m.name := Node.eq_of_shape Node.name (fun _ => rfl) hm
  have hsymbol : m'.symbol = m.symbol := Node.eq_of_shape Node.symbol (fun _ => rfl) hm
  refine ⟨h.access, fun hcallable => h.kept ?_, ?_, ?_⟩
  · rwa [isCallable, hkind] at hcallable
  · rw [exported, hname]
    exact (congrArg Node.unlinked hn).trans h.node
  · rw [hsymbol, hname, Node.kind_eq_of_shape hm, Globals.isGlobal_congr hkind]
    exact h.place

/-- What is linked to a node does not matter. -/
theorem linked (h : o.Published m.unlinked n.unlinked) : o.Published m n :=
  ⟨h.access, h.kept, h.node, h.place⟩

end Origin.Published

/-- Whether all functions and variables of a tree are what declarations of the units are exported
as. -/
abbrev AllPublished (s : Surroundings) (units : List HeaderUnit) (w : Workspace) : Prop :=
  AllFrom Origin.Published s units w

namespace AllPublished

variable {g : Generator} {others : List NodeId} {s : Surroundings} {units : List HeaderUnit}
    {w : Workspace}

/-- After the raw passes, the globals pass and the naming pass all members are what declarations of
the units are exported as. -/
theorem of_passes (hg : Generator.Reached g.workspace) (hroot : s.root = (g.restart others).1)
    (units : List HeaderUnit) :
    AllPublished s units (Passes.standard.apply s units (g.restart others).2).1 :=
  AllFrom.of_passes hg hroot (fun _ _ _ _ h => .of_admitted h) (fun _ _ _ _ h => h.moved)
    (fun _ _ _ _ _ h => h.of_shape) units

/-- Every function and every variable of the tree is what a declaration is exported as below its
parent. -/
theorem exists_published (h : AllPublished s units w) (hrooted : Rooted s w) {id : NodeId}
    (hwithin : w.forest.Within s.root id) (hmember : (w.node id).isMember = true) :
    ∃ parent, w.forest.parent? id = some parent ∧
      ∃ o ∈ originsIn units, o.Published (w.node parent) (w.node id) := by
  have hn : w.forest.content? id = some (w.node id).unlinked := by
    refine Workspace.content?_of_kind fun hnone => ?_
    simp [Node.isMember, isCallable, hnone, Kind.isVariable] at hmember
  obtain ⟨parent, m, hparent, hm, o, ho, hpublished⟩ :=
    AllFrom.exists_origin h hrooted hwithin hn hmember
  obtain rfl := (Workspace.node_unlinked hm).symm
  exact ⟨parent, hparent, o, ho, hpublished.linked⟩

end AllPublished

end Interop
