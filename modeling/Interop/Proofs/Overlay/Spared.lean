import Interop.Proofs.Passes

namespace Interop.Overlay

namespace Forest

variable {f f' f'' : Forest} {kept : NodeId → Prop} {id parent child key top : NodeId}
    {roots : List NodeId}
  {m n : Node}

/-- Whether a set of nodes that are there has with each node its parent and its children. -/
structure Whole (f : Forest) (kept : NodeId → Prop) : Prop where
  live : ∀ id, kept id → ∃ n, f.node? id = some n
  links : ∀ child parent, f.parent? child = some parent → (kept child ↔ kept parent)

/-- A whole set of nodes has with a node all that lies in its tree. -/
theorem Whole.of_within (h : f.Whole kept) (htop : kept top) (hwithin : f.Within top id) :
    kept id := by
  induction hwithin with
  | self => exact htop
  | step hparent _ ih => exact (h.links _ _ hparent).mpr ih

/-- Whether nodes are the roots of trees that are there. -/
def Tops (f : Forest) (roots : List NodeId) : Prop :=
  ∀ top ∈ roots, (∃ n, f.node? top = some n) ∧ f.parent? top = none

/-- Whether a node is there, in one of the trees with the given roots. -/
def InTrees (f : Forest) (roots : List NodeId) (id : NodeId) : Prop :=
  (∃ n, f.node? id = some n) ∧ f.HeldBy roots id

/-- Roots lie in their own trees. -/
theorem Tops.inTrees (h : f.Tops roots) (htop : top ∈ roots) : f.InTrees roots top :=
  ⟨(h top htop).1, heldBy_of_mem htop⟩

/-- The order of the roots does not matter. -/
theorem Tops.perm {roots' : List NodeId} (h : f.Tops roots) (hperm : roots.Perm roots') :
    f.Tops roots' :=
  fun top htop => h top (hperm.mem_iff.mpr htop)

theorem Tops.tail (h : f.Tops (top :: roots)) : f.Tops roots :=
  fun other hother => h other (List.mem_cons_of_mem top hother)

/-- The nodes of some trees are a whole set, if their roots have no parents. -/
theorem WellFormed.whole_inTrees (hf : f.WellFormed) (htops : f.Tops roots) :
    f.Whole (f.InTrees roots) := by
  refine ⟨fun id hid => hid.1, fun child parent hparent => ⟨?_, fun h => ⟨?_, h.2.below hparent⟩⟩⟩
  · rintro ⟨-, top, htop, hwithin⟩
    obtain ⟨m, hm, -⟩ := hf.exists_parent hparent
    obtain ⟨k, hk, -⟩ := Option.map_eq_some_iff.mp hm
    have hne : child ≠ top := by
      rintro rfl
      rw [(htops child htop).2] at hparent
      cases hparent
    exact ⟨⟨k, hk⟩, top, htop, hwithin.above hne hparent⟩
  · obtain ⟨n, hn, -⟩ := Option.bind_eq_some_iff.mp hparent
    exact ⟨n, hn⟩

/-- Whether a change of a forest leaves a set of nodes as they are, with all their fields. -/
structure Spares (kept : NodeId → Prop) (f f' : Forest) : Prop where
  wellFormed : f'.WellFormed
  same : ∀ id, kept id → f'.node? id = f.node? id

namespace Spares

/-- Changing nothing spares every set of nodes in a well-formed forest. -/
theorem refl (hf : f.WellFormed) : Spares kept f f :=
  ⟨hf, fun _ _ => rfl⟩

/-- Two changes that spare a set of nodes do so together. -/
theorem trans (h : Spares kept f f') (h' : Spares kept f' f'') : Spares kept f f'' :=
  ⟨h'.wellFormed, fun id hid => (h'.same id hid).trans (h.same id hid)⟩

/-- What is whole stays whole: nothing can come below a node, or leave it, without a change of the
node. -/
theorem whole (h : Spares kept f f') (hf : f.WellFormed) (hwhole : f.Whole kept) :
    f'.Whole kept := by
  refine ⟨fun id hid => (h.same id hid) ▸ hwhole.live id hid,
    fun child parent hparent => ⟨fun hchild => ?_, fun hkept => ?_⟩⟩
  · refine (hwhole.links child parent ?_).mp hchild
    rw [Forest.parent?, ← h.same child hchild]
    exact hparent
  · have hmem : child ∈ f'.children parent := (h.wellFormed.links parent child).mpr hparent
    rw [children, h.same parent hkept] at hmem
    exact (hwhole.links child parent ((hf.links parent child).mp hmem)).mpr hkept

/-- Below a node that is spared everything stays in its tree. -/
theorem within (h : Spares kept f f') (hwhole : f.Whole kept) (hid : kept id)
    (hwithin : f.Within top id) :
    f'.Within top id := by
  induction hwithin with
  | self => exact .self
  | @step id parent hparent _ ih =>
    refine .step ?_ (ih ((hwhole.links id parent hparent).mp hid))
    rw [Forest.parent?, h.same id hid]
    exact hparent

/-- Roots that are spared stay roots. -/
theorem tops (h : Spares kept f f') (htops : f.Tops roots) (hkept : ∀ top ∈ roots, kept top) :
    f'.Tops roots := by
  intro top htop
  obtain ⟨⟨n, hn⟩, hroot⟩ := htops top htop
  have hsame := h.same top (hkept top htop)
  exact ⟨⟨n, hsame.trans hn⟩, (congrArg (·.bind (·.parent?)) hsame).trans hroot⟩

/-- Trees that are left as they are get nothing new. -/
theorem of_inTrees (h : Spares kept f f') (hf : f.WellFormed) (hwhole : f.Whole kept)
    (hkept : ∀ top ∈ roots, kept top) (hid : f'.InTrees roots id) : kept id := by
  obtain ⟨-, top, htop, hwithin⟩ := hid
  exact (h.whole hf hwhole).of_within (hkept top htop) hwithin

end Spares

/-- Whether a change of a forest leaves all nodes as they are, but that some get new children behind
those they have. -/
structure Lengthens (f f' : Forest) : Prop where
  size : f.size ≤ f'.size
  nodes : ∀ id n, f.node? id = some n →
    ∃ news : List NodeId, f'.node? id = some { n with children := n.children ++ news } ∧
      ∀ c ∈ news, f.size ≤ c.index

namespace Lengthens

/-- Changing nothing lengthens a forest. -/
theorem refl (f : Forest) : Lengthens f f :=
  ⟨Nat.le_refl _, fun id n hn => ⟨[], by rw [List.append_nil, hn], nofun⟩⟩

/-- Two changes that lengthen a forest do so together. -/
theorem trans (h : Lengthens f f') (h' : Lengthens f' f'') : Lengthens f f'' := by
  refine ⟨Nat.le_trans h.size h'.size, fun id n hn => ?_⟩
  obtain ⟨news, hnode, hnews⟩ := h.nodes id n hn
  obtain ⟨news', hnode', hnews'⟩ := h'.nodes id _ hnode
  refine ⟨news ++ news', by rw [hnode', List.append_assoc], fun c hc => ?_⟩
  rcases List.mem_append.mp hc with hc | hc
  · exact hnews c hc
  · exact Nat.le_trans h.size (hnews' c hc)

/-- Lengthening leaves the parents of the nodes that were there. -/
theorem parent?_eq (h : Lengthens f f') (hn : f.node? id = some n) :
    f'.parent? id = f.parent? id := by
  obtain ⟨news, hnode, -⟩ := h.nodes id n hn
  rw [parent?_of_node? hnode, parent?_of_node? hn]

/-- Roots stay roots when a forest is lengthened. -/
theorem tops (h : Lengthens f f') (htops : f.Tops roots) : f'.Tops roots := by
  intro top htop
  obtain ⟨⟨n, hn⟩, hroot⟩ := htops top htop
  obtain ⟨news, hnode, -⟩ := h.nodes top n hn
  exact ⟨⟨_, hnode⟩, (h.parent?_eq hn).trans hroot⟩

/-- Nodes stay in their trees when a forest is lengthened. -/
theorem inTrees (h : Lengthens f f') (hid : f.InTrees roots id) : f'.InTrees roots id := by
  obtain ⟨⟨n, hn⟩, top, htop, hwithin⟩ := hid
  obtain ⟨news, hnode, -⟩ := h.nodes id n hn
  refine ⟨⟨_, hnode⟩, top, htop, ?_⟩
  clear hn hnode
  induction hwithin with
  | self => exact .self
  | step hparent _ ih =>
    obtain ⟨k, hk, -⟩ := Option.bind_eq_some_iff.mp hparent
    exact .step ((h.parent?_eq hk).trans hparent) ih

/-- A new node below a parent that is there lengthens a forest. -/
theorem pushBelow (hparent : f.content? parent = some m) (hfresh : n.parent? = none) :
    Lengthens f (f.pushBelow parent n) := by
  refine ⟨by rw [Forest.pushBelow, size_attach, size_push]; exact Nat.le_succ _, fun id k hk => ?_⟩
  have hroot : (f.push n).parent? f.nextId = none := by
    rw [parent?_push hfresh, Forest.parent?, node?_nextId]
    rfl
  rw [Forest.pushBelow, node?_attach_of_root hroot (ne_nextId_of_content? hparent),
    if_neg (ne_nextId hk), node?_push, if_neg (ne_nextId hk), hk]
  split
  · exact ⟨[f.nextId], rfl, fun c hc => List.mem_singleton.mp hc ▸ Nat.le_refl _⟩
  · exact ⟨[], by rw [List.append_nil], fun _ hmem => by cases hmem⟩

end Lengthens

theorem parent?_modify_of_ne {change : Node → Node} (hne : key ≠ id) :
    (f.modify id change).parent? key = f.parent? key := by
  rw [Forest.parent?, node?_modify, if_neg hne, Forest.parent?]

theorem parent?_modify_children {change : Node → List NodeId} (f : Forest) (id key : NodeId) :
    (f.modify id fun n => { n with children := change n }).parent? key = f.parent? key := by
  rw [Forest.parent?, node?_modify, Forest.parent?]
  split
  · rw [Option.bind_map]
    rfl
  · rfl

/-- A node that is attached has its new parent, and other nodes have the parents that they had. -/
theorem parent?_attach_cases (h : (f.attach parent child).parent? key = some top) :
    key = child ∧ top = parent ∨ f.parent? key = some top := by
  rw [attach, parent?_modify_children] at h
  by_cases hkey : key = child
  · rw [hkey, Forest.parent?, node?_modify, if_pos rfl, Option.bind_map] at h
    obtain ⟨n, -, htop⟩ := Option.bind_eq_some_iff.mp h
    exact .inl ⟨hkey, (Option.some.inj htop).symm⟩
  · rw [parent?_modify_of_ne hkey, detach] at h
    cases hparent : f.parent? child with
    | none =>
      rw [hparent] at h
      exact .inr h
    | some outer =>
      rw [hparent] at h
      simp only [parent?_modify_of_ne hkey, parent?_modify_children] at h
      exact .inr h

section Links

variable (hwhole : f.Whole kept) (hchild : ¬kept child)
include hwhole hchild

/-- A node outside of a whole set can be taken out without touching the set. -/
theorem Whole.node?_detach (hid : kept id) : (f.detach child).node? id = f.node? id := by
  have hne : id ≠ child := fun heq => hchild (heq ▸ hid)
  unfold detach
  cases hparent : f.parent? child with
  | none => rfl
  | some parent =>
    have houtside : id ≠ parent :=
      fun heq => hchild ((hwhole.links child parent hparent).mpr (heq ▸ hid))
    simp only [node?_modify, if_neg hne, if_neg houtside]

/-- Attaching below a parent outside of a whole set touches none of its nodes, as far as the child
is outside as well. -/
theorem Whole.node?_attach (hparent : ¬kept parent) (hid : kept id) :
    (f.attach parent child).node? id = f.node? id := by
  have hne : id ≠ child := fun heq => hchild (heq ▸ hid)
  have hne' : id ≠ parent := fun heq => hparent (heq ▸ hid)
  unfold attach
  simp only [node?_modify, if_neg hne, if_neg hne', hwhole.node?_detach hchild hid]

/-- Where a node goes outside of whole trees, these stay whole. -/
theorem Whole.attach (hparent : ¬kept parent) : (f.attach parent child).Whole kept := by
  refine ⟨fun id hid => ?_, fun c p hp => ?_⟩
  · rw [hwhole.node?_attach hchild hparent hid]
    exact hwhole.live id hid
  · rcases parent?_attach_cases hp with ⟨rfl, rfl⟩ | hkept
    · exact iff_of_false hchild hparent
    · exact hwhole.links c p hkept

end Links

/-- Several nodes can be attached outside of a whole set without touching it. -/
theorem Whole.node?_attachAll (hwhole : f.Whole kept) (hparent : ¬kept parent)
    {children : List NodeId} (hchildren : ∀ c ∈ children, ¬kept c) (hid : kept id) :
    (children.foldl (·.attach parent ·) f).node? id = f.node? id := by
  induction children generalizing f with
  | nil => rfl
  | cons first rest ih =>
    have hfirst := hchildren first List.mem_cons_self
    rw [List.foldl_cons, ih (hwhole.attach hfirst hparent) fun c hc =>
      hchildren c (List.mem_cons_of_mem first hc)]
    exact hwhole.node?_attach hfirst hparent hid

/-- The next free place is in no whole set, since its nodes are there. -/
theorem Whole.not_nextId (hwhole : f.Whole kept) : ¬kept f.nextId := by
  intro hkept
  obtain ⟨n, hn⟩ := hwhole.live f.nextId hkept
  exact ne_nextId hn rfl

/-- A set stays whole when a node without a parent is pushed. -/
theorem Whole.push {n : Node} (hwhole : f.Whole kept) (hfresh : n.parent? = none) :
    (f.push n).Whole kept := by
  refine ⟨fun id hid => ?_,
    fun child parent hparent =>
      hwhole.links child parent ((parent?_push hfresh child).symm.trans hparent)⟩
  obtain ⟨k, hk⟩ := hwhole.live id hid
  exact ⟨k, by rw [node?_push, if_neg (ne_nextId hk), hk]⟩

/-- A new node changes nothing but its parent. -/
theorem Whole.node?_pushBelow {n : Node} (hwhole : f.Whole kept) (hfresh : n.parent? = none)
    (hparent : ¬kept parent) (hid : kept id) : (f.pushBelow parent n).node? id = f.node? id := by
  have hne : id ≠ f.nextId := fun heq => hwhole.not_nextId (heq ▸ hid)
  rw [pushBelow, (hwhole.push hfresh).node?_attach hwhole.not_nextId hparent hid, node?_push,
    if_neg hne]

/-- A node that is held stays as it is if all that is around it is held. -/
theorem WellFormed.spares_release (hf : f.WellFormed) (hwhole : f.Whole kept) {held : List NodeId}
    (hheld : ∀ id, kept id → f.HeldBy held id) : Spares kept f (f.release held) := by
  refine ⟨hf.release held, fun id hid => ?_⟩
  rw [node?_release]
  cases hn : f.node? id with
  | none => simp
  | some n =>
    have hstays : ∀ key m, f.node? key = some m → kept key →
        f.stays held key = true := fun key m hm hkey =>
      hf.stays_iff.mpr ⟨⟨m.unlinked, content?_of_node? hm⟩, hheld key hkey⟩
    have hparent : n.parent?.all (f.stays held) = true := by
      cases hup : n.parent? with
      | none => rfl
      | some parent =>
        have hlink : f.parent? id = some parent := (parent?_of_node? hn).trans hup
        obtain ⟨m, hm, -⟩ := hf.exists_parent hlink
        obtain ⟨k, hk, -⟩ := Option.map_eq_some_iff.mp hm
        exact hstays parent k hk ((hwhole.links id parent hlink).mp hid)
    rw [if_pos (hstays id n hn hid), Option.map_some, if_pos hparent]

/-- A walk that begins outside of whole trees spares them if each visit outside of them does. -/
theorem walked_spares {σ : Type} (forest : σ → Forest)
    {visit : WalkEvent → NodeId → Access → σ → Bool × σ}
    (hvisit : ∀ event id access s, (forest s).WellFormed → (forest s).Whole kept → ¬kept id →
      Spares kept (forest s) (forest (visit event id access s).2))
    (bound : Nat) (id : NodeId) (s : σ) (hf : (forest s).WellFormed)
    (hwhole : (forest s).Whole kept) (hid : ¬kept id) :
    Spares kept (forest s) (forest (walked forest visit bound id s)) := by
  induction bound generalizing id s with
  | zero => exact .refl hf
  | succ bound ih =>
    have hall : ∀ (cs : List NodeId) (s : σ), (forest s).WellFormed → (forest s).Whole kept →
        (∀ c ∈ cs, ¬kept c) →
            Spares kept (forest s) (forest
            (cs.foldl (fun s c => walked forest visit bound c s) s)) := by
      intro cs
      induction cs with
      | nil => exact fun s hf _ _ => .refl hf
      | cons c rest ihs =>
        intro s hf hwhole hcs
        have hfirst := ih c s hf hwhole (hcs c List.mem_cons_self)
        exact hfirst.trans (ihs _ hfirst.wellFormed (hfirst.whole hf hwhole)
          fun d hd => hcs d (List.mem_cons_of_mem c hd))
    have hchildren : ∀ s, (forest s).WellFormed → (forest s).Whole kept →
        ∀ c ∈ (forest s).children id, ¬kept c :=
      fun s hf hwhole c hc hkept => hid ((hwhole.links c id ((hf.links id c).mp hc)).mp hkept)
    rw [walked]
    split
    · exact .refl hf
    · rename_i n hn
      split
      · refine hall n.children s hf hwhole ?_
        rw [← children_of_node? hn]
        exact hchildren s hf hwhole
      · split
        · have henter := hvisit .enter id n.access s hf hwhole hid
          generalize visit .enter id n.access s = entered at henter
          obtain ⟨deeper, s'⟩ := entered
          simp only at henter ⊢
          have hwhole' := henter.whole hf hwhole
          split
          · have hbelow := hall _ s' henter.wellFormed hwhole'
              (hchildren s' henter.wellFormed hwhole')
            refine henter.trans (hbelow.trans ?_)
            exact hvisit .exit id n.access _ hbelow.wellFormed
              (hbelow.whole henter.wellFormed hwhole') hid
          · exact henter
        · exact hvisit .leaf id n.access s hf hwhole hid

end Forest

/-- Passes that only add fresh nodes below containers lengthen the forest. -/
theorem Forest.lengthens_of_grows {adds : Workspace → Node → Node → List String → Prop}
    {w w' : Workspace} (hadds : ∀ {w m n names}, adds w m n names → n.IsFresh ∧
      m.kind.isContainer = true)
    (hgrows : Relation.ReflTransGen (Export.Grows adds) w w') : w.forest.Lengthens w'.forest := by
  induction hgrows with
  | refl => exact .refl _
  | tail _ hstep ih =>
    cases hstep with
    | grow hparent hnew => exact ih.trans (.pushBelow hparent (hadds hnew).1.parent)

section Passes

variable {kept : NodeId → Prop} {w : Workspace} {id : NodeId}

namespace Globals

variable (hf : w.forest.WellFormed) (hwhole : w.forest.Whole kept) (hid : ¬kept id)
include hf hwhole hid

/-- Dropping an empty namespace spares every whole set without it. -/
theorem dropEmpty_spares : Forest.Spares kept w.forest (dropEmpty w id).forest := by
  have hsteps : Steps id w (dropEmpty w id) := dropEmpty_steps w id
  refine ⟨hsteps.wellFormed hf, fun key hkey => ?_⟩
  simp only [dropEmpty]
  split
  · exact hwhole.node?_detach hid hkey
  · rfl

/-- A scope that has no class for its globals gets one below it, and no other tree gets anything. -/
theorem ensure_spares {m : Node} (hm : w.forest.content? id = some m) (hscope : isScope m = true) :
    Forest.Spares kept w.forest (ensure w id).2.forest ∧ ¬kept (ensure w id).1 := by
  obtain ⟨hsteps, -, -⟩ := ensure_steps hf hm hscope .self
  have hf' := Steps.wellFormed hsteps hf
  unfold ensure at hf' ⊢
  cases hexisting : existing? w id with
  | some class_ =>
    have hmem := List.mem_of_find?_eq_some hexisting
    exact ⟨.refl hf, fun hkept =>
      hid ((hwhole.links class_ id ((hf.links id class_).mp hmem)).mp hkept)⟩
  | none =>
    rw [hexisting] at hf'
    exact ⟨⟨hf', fun key hkey => hwhole.node?_pushBelow rfl hid hkey⟩, hwhole.not_nextId⟩

/-- Gathering the globals of a scope spares every whole set without the scope. -/
theorem gather_spares {m : Node} (hm : w.forest.content? id = some m) (hscope : isScope m = true) :
    Forest.Spares kept w.forest (gather w id).forest := by
  refine ⟨Steps.wellFormed (gather_steps hf hm hscope .self).1 hf, fun key hkey => ?_⟩
  unfold gather
  split
  · rfl
  · obtain ⟨hensure, htarget⟩ := ensure_spares hf hwhole hid hm hscope
    refine ((hensure.whole hf hwhole).node?_attachAll htarget (fun c hc hkept => ?_) hkey).trans
      (hensure.same key hkey)
    exact hid ((hwhole.links c id ((hf.links id c).mp (List.mem_filter.mp hc).1)).mp hkept)

/-- One visit of the pass spares every whole set without the visited node. -/
theorem visit_spares (event : WalkEvent) (access : Access) :
    Forest.Spares kept w.forest ((visit event id access).run w).2.forest := by
  change Forest.Spares kept w.forest
    ((if isScope (w.node id) then _ else _ : StateM Workspace Bool).run w).2.forest
  split
  · rename_i hscope
    have hm : w.forest.content? id = some (w.node id).unlinked := Workspace.content?_of_kind (by
      rcases isScope_iff.mp hscope with hkind | hkind <;> rw [hkind] <;> exact nofun)
    cases event with
    | enter => exact gather_spares hf hwhole hid hm hscope
    | exit => exact dropEmpty_spares hf hwhole hid
    | leaf => exact .refl hf
  · exact .refl hf

/-- Moving the globals of a tree changes no other tree. -/
theorem move_spares : Forest.Spares kept w.forest (move w id).forest := by
  rw [move_eq]
  exact Forest.walked_spares Workspace.forest
    (fun event _ access _ hf hwhole hid => visit_spares hf hwhole hid event access) _ id w hf
      hwhole hid

end Globals

end Passes

end Interop.Overlay

namespace Interop.Naming

open Overlay

variable {kept : NodeId → Prop} {w : Workspace} {id : NodeId}

/-- Renaming a node spares every set without it. -/
theorem Renamed.spares {settings : Settings} {w' : Workspace} (h : Renamed settings id w w')
    (hf : w.forest.WellFormed) (hid : ¬kept id) : Forest.Spares kept w.forest w'.forest := by
  have hmodify : ∀ (change : Node → Node) key, kept key →
      (w.forest.modify id change).node? key = w.forest.node? key := by
    intro change key hkey
    rw [Forest.node?_modify, if_neg]
    rintro rfl
    exact hid hkey
  refine ⟨h.reshaped.wellFormed hf, fun key hkey => ?_⟩
  cases h with
  | same => rfl
  | type | function used | value used | enumerator used hkind => exact hmodify _ key hkey

/-- Naming a tree changes no other tree. -/
theorem nameAll_spares (settings : Settings) (hf : w.forest.WellFormed)
    (hwhole : w.forest.Whole kept) (hid : ¬kept id) :
    Forest.Spares kept w.forest (nameAll settings w id).forest := by
  rw [nameAll_eq]
  exact Forest.walked_spares (fun s : Used × Workspace => s.2.forest)
    (fun event id access s hf _ hid => (visited_renamed event id access s).spares hf hid) _ id ({},
      w) hf hwhole hid

end Interop.Naming

namespace Interop.OverlayPass

open Overlay

variable {kept : NodeId → Prop} {s : Surroundings} {w : Workspace}

/-- A pass over the tree of a namespace changes no other tree that stays. -/
theorem apply_spares (hf : w.forest.WellFormed) (hwhole : w.forest.Whole kept)
    (hroot : ¬kept s.root) (hheld : ∀ id, kept id → w.forest.HeldBy s.kept id)
    (pass : OverlayPass) :
    Forest.Spares kept w.forest (pass.apply s w).1.forest := by
  cases pass with
  | globals =>
    have hmoved := Globals.move_spares hf hwhole hroot
    refine hmoved.trans (hmoved.wellFormed.spares_release (hmoved.whole hf hwhole) fun id hid => ?_)
    obtain ⟨top, htop, hwithin⟩ := hheld id hid
    exact ⟨top, List.mem_cons_of_mem _ htop, hmoved.within hwhole hid hwithin⟩
  | naming => exact Naming.nameAll_spares s.settings hf hwhole hroot
  | bridge => exact .refl hf
  | managed => exact .refl hf

/-- The passes over the tree of a namespace spare every whole set of nodes that does not have its
root, as long as these nodes are kept. -/
theorem applyAll_spares (hf : w.forest.WellFormed) (hwhole : w.forest.Whole kept)
    (hroot : ¬kept s.root) (hheld : ∀ id, kept id → w.forest.HeldBy s.kept id)
    (passes : List OverlayPass) :
    Forest.Spares kept w.forest (applyAll s w passes).1.forest := by
  induction passes generalizing w with
  | nil => exact .refl hf
  | cons pass rest ih =>
    have hfirst := apply_spares hf hwhole hroot hheld pass
    refine hfirst.trans (ih hfirst.wellFormed (hfirst.whole hf hwhole) fun id hid => ?_)
    obtain ⟨top, htop, hwithin⟩ := hheld id hid
    exact ⟨top, htop, hfirst.within hwhole hid hwithin⟩

end Interop.OverlayPass

namespace Interop.RawPass

open Overlay

variable {s : Surroundings} {w : Workspace} {units : List HeaderUnit}

/-- A raw pass adds nodes, to whatever trees, and does nothing else to a forest. -/
theorem apply_lengthens (h : Rooted s w) (pass : RawPass) :
    w.forest.Lengthens (pass.apply s units w).forest := by
  cases pass with
  | containers =>
    have hunits : ∀ u ∈ units, u.root.Nested (fun _ _ => True) .file :=
      fun u _ => Declaration.nested_of_forall (fun _ _ => trivial) u.root .file
    exact Forest.lengthens_of_grows Containers.Adds.holds (containers_grows h hunits)
  | members => exact Forest.lengthens_of_grows Members.Adds.holds (members_grows h)

/-- The raw passes only lengthen the forest. -/
theorem applyAll_lengthens (h : Rooted s w) (passes : List RawPass) :
    w.forest.Lengthens (passes.foldl (RawPass.apply s units) w).forest := by
  induction passes generalizing w with
  | nil => exact .refl _
  | cons pass rest ih => exact (apply_lengthens h pass).trans (ih (apply_rooted h pass))

end Interop.RawPass
