import Interop.Proofs.Export.Isolation
import Interop.Proofs.Generator.Again

namespace Interop.Generator

open Overlay Export

variable {g : Generator} {others : List NodeId} {rules : ExportRules} {id : NodeId}

/-- The new root is in none of the other trees. -/
theorem restart_root_outside : ¬g.workspace.forest.InTrees others (g.restart others).1 := by
  rintro ⟨⟨n, hn⟩, -⟩
  exact Forest.ne_nextId hn rfl

section Restart

variable (hf : g.workspace.forest.WellFormed) (hothers : g.workspace.forest.Tops others)
include hf hothers

/-- A namespace starts without a change of any other tree. -/
theorem restart_spares :
    Forest.Spares (g.workspace.forest.InTrees others) g.workspace.forest
      (g.restart others).2.forest := by
  have hwhole := hf.whole_inTrees hothers
  have hplanted :
      Forest.Spares (g.workspace.forest.InTrees others) g.workspace.forest
          (plant g.workspace).2.forest := by
    refine ⟨plant_wellFormed hf, fun id hid => (Forest.node?_push ..).trans (if_neg ?_)⟩
    obtain ⟨n, hn⟩ := hid.1
    exact Forest.ne_nextId hn
  refine hplanted.trans
    (hplanted.wellFormed.spares_release (hplanted.whole hf hwhole) fun id hid => ?_)
  obtain ⟨top, htop, hwithin⟩ := hid.2
  exact ⟨top, List.mem_cons_of_mem _ htop, hplanted.within hwhole hid hwithin⟩

/-- A namespace that starts anew leaves the roots of the others at the tops of their trees. -/
theorem restart_tops : (g.restart others).2.forest.Tops others :=
  (restart_spares hf hothers).tops hothers fun _ htop => hothers.inTrees htop

/-- Outside of the other trees, there is nothing but the new root. -/
theorem restart_outside (hid : ¬g.workspace.forest.InTrees others id) {n : Node}
    (hn : (g.restart others).2.forest.content? id = some n) : n.kind = .file := by
  let s := g.surroundings others (ExportRules.ofName "")
  obtain ⟨top, htop, hwithin⟩ := @restart_held g others s hf rfl rfl id n hn
  rcases List.mem_cons.mp htop with rfl | htop
  · exact restart_alone hf rfl hwithin hn
  · have hwhole := (restart_spares hf hothers).whole hf (hf.whole_inTrees hothers)
    exact absurd (hwhole.of_within (hothers.inTrees htop) hwithin) hid

/-- A namespace starts isolated: there is nothing outside of the other trees but its root, and no
name leads anywhere else. -/
theorem restart_isolated :
    Isolated (g.workspace.forest.InTrees others) (g.restart others).2 (g.restart others).2 where
  spares := .refl (restart_wellFormed hf)
  whole := (restart_spares hf hothers).whole hf (hf.whole_inTrees hothers)
  live _ _ := restart_live
  named _ _ hget _ := hget
  titled _ _ _ _ hid hn _ := .inl (restart_outside hf hothers hid hn)
  spaces _ _ hid hn hkind := by
    rw [restart_outside hf hothers hid hn] at hkind
    cases hkind
  below _ _ _ _ hid hn hkind := by
    rw [restart_outside hf hothers hid hn] at hkind
    cases hkind

end Restart

/-- What the raw passes make of a namespace in a run. -/
def built (g : Generator) (others : List NodeId) (rules : ExportRules) : Workspace :=
  g.passes.raw.foldl (RawPass.apply (g.surroundings others rules) (g.survey rules).units)
    (g.restart others).2

section Run

variable (rules) (hf : g.workspace.forest.WellFormed) (hothers : g.workspace.forest.Tops others)
include hf

theorem restart_rooted : Rooted (g.surroundings others rules) (g.restart others).2 :=
  (restart_bareTree hf rfl : BareTree (g.surroundings others rules) (g.restart others).2).rooted

/-- The raw passes keep the new root where it is. -/
theorem built_rooted : Rooted (g.surroundings others rules) (g.built others rules) ∧
    (g.built others rules).forest.parent? (g.restart others).1 = none :=
  RawPass.applyAll_top (restart_rooted rules hf) (restart_root hf).2.1 g.passes.raw

/-- The raw passes only add nodes, at the ends of child lists. -/
theorem restart_lengthens : (g.restart others).2.forest.Lengthens (g.built others rules).forest :=
  RawPass.applyAll_lengthens (restart_rooted rules hf) g.passes.raw

include hothers

/-- The raw passes leave the roots of the other trees at their tops. -/
theorem built_tops : (g.built others rules).forest.Tops others :=
  (restart_lengthens rules hf).tops (restart_tops hf hothers)

/-- After the raw passes the other trees stay what they are. -/
theorem built_spares : Forest.Spares ((g.built others rules).forest.InTrees others)
    (g.built others rules).forest
    (g.generateOne others rules).1.workspace.forest := by
  obtain ⟨hrooted, hroot⟩ := @built_rooted g others rules hf
  have htops : (g.built others rules).forest.Tops others := built_tops rules hf hothers
  have houtside : ¬(g.built others rules).forest.InTrees others (g.restart others).1 := by
    rintro ⟨-, top, htop, hwithin⟩
    exact restart_root_outside (hwithin.eq_of_root hroot ▸ hothers.inTrees htop)
  rw [generateOne_workspace]
  exact OverlayPass.applyAll_spares hrooted.wellFormed (hrooted.wellFormed.whole_inTrees htops)
    houtside
    (fun id hid => hid.2) g.passes.overlay

/-- A node of another tree is one after the raw passes as well. -/
theorem inTrees_built (hid : g.workspace.forest.InTrees others id) :
    (g.built others rules).forest.InTrees others id := by
  have hwhole := hf.whole_inTrees hothers
  have hspares := restart_spares hf hothers
  obtain ⟨top, htop, hwithin⟩ := hid.2
  refine (restart_lengthens rules hf).inTrees ⟨(hspares.whole hf hwhole).live id hid, top, htop, ?_⟩
  exact hspares.within hwhole hid hwithin

/-- A node of another tree keeps its fields, and may get children behind those that it has. -/
theorem node?_generateOne {n : Node} (hid : g.workspace.forest.InTrees others id)
    (hn : g.workspace.forest.node? id = some n) :
    ∃ news : List NodeId,
      (g.generateOne others rules).1.workspace.forest.node? id =
        some { n with children := n.children ++ news } ∧
            ∀ c ∈ news, g.workspace.forest.size ≤ c.index := by
  have hstart : (g.restart others).2.forest.node? id = some n :=
    ((restart_spares hf hothers).same id hid).trans hn
  obtain ⟨news, hnode, hnews⟩ := (restart_lengthens rules hf).nodes id n hstart
  refine ⟨news, ((built_spares rules hf hothers).same id
    (inTrees_built rules hf hothers hid)).trans hnode, fun c hc => ?_⟩
  exact Nat.le_of_succ_le ((size_restart g others).symm.trans_le (hnews c hc))

/-- The root of a namespace that is generated is at the top of a tree like those of the others. -/
theorem generateOne_tops : (g.generateOne others rules).1.workspace.forest.Tops
    ((g.generateOne others rules).2.outcome.root :: others) := by
  intro top htop
  rcases List.mem_cons.mp htop with rfl | htop
  · have hstart := @restart_rooted g others rules hf
    have hend : Rooted (g.surroundings others rules) (g.passed others rules).1 :=
      Passes.apply_rooted hstart g.passes
    obtain ⟨r, hr, -⟩ := hend.root
    obtain ⟨n, hn, -⟩ := Option.map_eq_some_iff.mp hr
    exact ⟨⟨n, hn⟩, Passes.apply_top hstart (restart_root hf).2.1 g.passes⟩
  · have hbuilt := built_tops rules hf hothers
    exact (built_spares rules hf hothers).tops hbuilt (fun _ htop => hbuilt.inTrees htop) top htop

/-- A node of another tree is still in that tree when a namespace has been generated. -/
theorem inTrees_generateOne (hid : g.workspace.forest.InTrees others id) :
    (g.generateOne others rules).1.workspace.forest.InTrees others id := by
  obtain ⟨hrooted, -⟩ := @built_rooted g others rules hf
  have hwhole := hrooted.wellFormed.whole_inTrees (built_tops rules hf hothers)
  have hspares := built_spares rules hf hothers
  have hbuilt := inTrees_built rules hf hothers hid
  obtain ⟨top, htop, hwithin⟩ := hbuilt.2
  exact ⟨(hspares.whole hrooted.wellFormed hwhole).live id hbuilt, top, htop,
    hspares.within hwhole hbuilt hwithin⟩

/-- Where nothing new is in the other trees, they are as they were. -/
theorem node?_generateOne_of_old
    (hold : ∀ id, (g.generateOne others rules).1.workspace.forest.InTrees others id →
      g.workspace.forest.InTrees others id) (hid : g.workspace.forest.InTrees others id) :
    (g.generateOne others rules).1.workspace.forest.node? id = g.workspace.forest.node? id := by
  obtain ⟨n, hn⟩ := hid.1
  obtain ⟨news, hnode, hnews⟩ := node?_generateOne rules hf hothers hid hn
  cases news with
  | nil => rw [hnode, hn, List.append_nil]
  | cons c rest =>
    -- a new child would be in the tree of its parent
    have hf' : (g.generateOne others rules).1.workspace.forest.WellFormed :=
      (built_spares rules hf hothers).wellFormed
    have hparent : (g.generateOne others rules).1.workspace.forest.parent? c = some id := by
      refine (hf'.links id c).mp ?_
      rw [Forest.children_of_node? hnode]
      exact List.mem_append_right _ List.mem_cons_self
    have htops : (g.generateOne others rules).1.workspace.forest.Tops others := fun top htop =>
      generateOne_tops rules hf hothers top (List.mem_cons_of_mem _ htop)
    have hin := ((hf'.whole_inTrees htops).links c id hparent).mpr
      (inTrees_generateOne rules hf hothers hid)
    obtain ⟨k, hk⟩ := (hold c hin).1
    exact absurd (Forest.lt_size hk) (Nat.not_lt_of_le (hnews c List.mem_cons_self))

/-- If no container meets a node of another tree, the other trees are as they were. -/
theorem node?_generateOne_of_apart (hraw : g.passes.raw = [.containers, .members])
    (hsites : ∀ u ∈ (g.survey rules).units, ∀ x ∈ u.sites, x.isSpace = false →
      ¬x.Meets (g.workspace.forest.InTrees others) (g.restart others).2)
    (hid : g.workspace.forest.InTrees others id) :
    (g.generateOne others rules).1.workspace.forest.node? id = g.workspace.forest.node? id := by
  obtain ⟨hroot, -, -⟩ := @restart_root g others hf
  have hstands : Stands (g.workspace.forest.InTrees others) (g.restart others).2 ""
      (g.surroundings others rules).root
      (g.restart others).2 :=
    ⟨restart_isolated hf hothers, restart_root_outside, Node.root, hroot, rfl, rfl⟩
  have hkind : ((g.restart others).2.node (g.restart others).1).kind ≠ .enumeration := by
    rw [Globals.node_kind hroot]
    exact nofun
  have hisolated := RawPass.members_containers_isolated hstands hkind hsites
  have hbuilt : g.built others rules = RawPass.members.apply (g.surroundings others rules)
      (g.survey rules).units
      (RawPass.containers.apply (g.surroundings others rules) (g.survey rules).units
          (g.restart others).2) := by
    rw [built, hraw]
    rfl
  calc (g.generateOne others rules).1.workspace.forest.node? id
    _ = (g.built others rules).forest.node? id :=
      (built_spares rules hf hothers).same id (inTrees_built rules hf hothers hid)
    _ = (g.restart others).2.forest.node? id := hbuilt ▸ hisolated.spares.same id hid
    _ = g.workspace.forest.node? id := (restart_spares hf hothers).same id hid

end Run

/-- Loading rules plants a tree for each of them, so all roots are at tops. -/
theorem withRules_tops (h : Reached g.workspace) (rules : Rules) :
    (g.withRules rules).workspace.forest.Tops ((g.withRules rules).namespaces.map (·.root)) := by
  intro top htop
  have hnode := (withRules_bare h rules).bare top htop
  exact ⟨⟨_, hnode⟩, Forest.parent?_of_node? hnode⟩

/-- The place of a namespace in a run: the generator when the namespace's turn comes, the roots of
the other namespaces, and its rules. -/
structure Turn where
  generator : Generator
  others : List NodeId
  rules : ExportRules

/-- The turns of the namespaces `rest`, the namespaces `done` being done. -/
def turnsFrom (g : Generator) (done : List ExportNamespace) : List ExportNamespace → List Turn
  | [] => []
  | n :: rest =>
    let others := (done ++ rest).map (·.root)
    let one := g.generateOne others n.rules
    ⟨g, others, n.rules⟩ :: if one.2.isComplete then one.1.turnsFrom (done ++ [one.2.outcome]) rest
      else []

/-- The turns of a run. -/
def turns (g : Generator) : List Turn :=
  g.turnsFrom [] g.namespaces

/-- The stages of a run are what its turns make. -/
theorem stages_eq_map_turnsFrom (g : Generator) (done rest : List ExportNamespace) :
    (g.generateFrom done rest).2 =
      (g.turnsFrom done rest).map fun turn =>
          (turn.generator.generateOne turn.others turn.rules).2 := by
  induction rest generalizing g done with
  | nil => rfl
  | cons n rest ih =>
    rw [generateFrom_cons, turnsFrom]
    simp only [List.map_cons]
    split
    · rw [ih]
    · rfl

/-- All through a run the roots of all namespaces are at the tops of trees. -/
theorem generateFrom_tops (h : Reached g.workspace) (done rest : List ExportNamespace)
    (htops : g.workspace.forest.Tops ((done ++ rest).map (·.root))) :
    (∀ turn ∈ g.turnsFrom done rest,
        Reached turn.generator.workspace ∧ turn.generator.workspace.forest.Tops turn.others) ∧
      (g.generateFrom done rest).1.workspace.forest.Tops
          ((g.generateFrom done rest).1.namespaces.map (·.root)) := by
  induction rest generalizing g done with
  | nil => exact ⟨nofun, by rwa [List.append_nil] at htops⟩
  | cons n rest ih =>
    have hperm : ∀ m : ExportNamespace, ((done ++ m :: rest).map (·.root)).Perm
        (m.root :: (done ++ rest).map (·.root)) := fun m => List.perm_middle.map _
    have hothers : g.workspace.forest.Tops ((done ++ rest).map (·.root)) :=
      (htops.perm (hperm n)).tail
    have hnext := (generateOne_tops n.rules h.wellFormed hothers).perm (hperm _).symm
    rw [List.append_cons] at hnext
    rw [generateFrom_cons, turnsFrom]
    simp only [List.forall_mem_cons]
    split
    · obtain ⟨hturns, hend⟩ := ih (.run _ _ h) _ hnext
      exact ⟨⟨⟨h, hothers⟩, hturns⟩, hend⟩
    · exact ⟨⟨⟨h, hothers⟩, nofun⟩, hnext⟩

/-- However often a run is repeated behind the loading of rules, each turn finds the roots of the
other namespaces at the tops of trees. -/
theorem turns_tops (h : Reached g.workspace) (rules : Rules) (k : Nat) {turn : Turn}
    (hturn : turn ∈ ((fun g => g.generate.1)^[k] (g.withRules rules)).turns) :
    Reached turn.generator.workspace ∧ turn.generator.workspace.forest.Tops turn.others := by
  have hruns : ∀ k, Reached ((fun g => g.generate.1)^[k] (g.withRules rules)).workspace ∧
      ((fun g => g.generate.1)^[k] (g.withRules rules)).workspace.forest.Tops
        (((fun g => g.generate.1)^[k] (g.withRules rules)).namespaces.map (·.root)) := by
    intro k
    induction k with
    | zero => exact ⟨.load rules h, withRules_tops h rules⟩
    | succ k ih =>
      rw [Function.iterate_succ_apply']
      exact ⟨reached_of_generate ih.1, (generateFrom_tops ih.1 [] _ ih.2).2⟩
  exact (generateFrom_tops (hruns k).1 [] _ (hruns k).2).1 turn hturn

/-- How the turn of a namespace leaves the trees of the others: their nodes keep their fields and
children, behind which new nodes may come. The trees are as they were exactly if they have no new
node, and they have none if the two raw passes are applied and no class, enum or closed namespace in
a header bears the qualified name of a node of its kind in them. -/
structure Turn.LeavesOthers (turn : Turn) : Prop where
  nodes : ∀ id n, turn.generator.workspace.forest.InTrees turn.others id →
    turn.generator.workspace.forest.node? id = some n → ∃ news : List NodeId,
      (turn.generator.generateOne turn.others turn.rules).1.workspace.forest.node? id =
          some { n with children := n.children ++ news } ∧
        ∀ c ∈ news, turn.generator.workspace.forest.size ≤ c.index
  same_iff : (∀ id, turn.generator.workspace.forest.InTrees turn.others id →
      (turn.generator.generateOne turn.others turn.rules).1.workspace.forest.node? id =
        turn.generator.workspace.forest.node? id) ↔
    ∀ id, (turn.generator.generateOne turn.others turn.rules).1.workspace.forest.InTrees
      turn.others id → turn.generator.workspace.forest.InTrees turn.others id
  same_of_apart : turn.generator.passes.raw = [.containers, .members] →
    (∀ u ∈ (turn.generator.survey turn.rules).units, ∀ x ∈ u.sites, x.isSpace = false →
      ¬x.Meets (turn.generator.workspace.forest.InTrees turn.others)
        (turn.generator.restart turn.others).2) →
    ∀ id, turn.generator.workspace.forest.InTrees turn.others id →
      (turn.generator.generateOne turn.others turn.rules).1.workspace.forest.node? id =
        turn.generator.workspace.forest.node? id

/-- A turn leaves the trees of the others, if their roots are at the tops of trees when it
begins. -/
theorem leavesOthers (hg : Reached g.workspace) (hothers : g.workspace.forest.Tops others)
    (rules : ExportRules) :
    Turn.LeavesOthers ⟨g, others, rules⟩ := by
  have hf := hg.wellFormed
  refine ⟨fun id n hid hn => node?_generateOne rules hf hothers hid hn,
    ⟨fun hsame id hid => ?_, fun hold id hid => ?_⟩, fun hraw hsites id hid =>
      node?_generateOne_of_apart rules hf hothers hraw hsites hid⟩
  · have hspares : Forest.Spares (g.workspace.forest.InTrees others) g.workspace.forest
        (g.generateOne others rules).1.workspace.forest :=
          ⟨(Reached.run others rules hg).wellFormed, hsame⟩
    exact hspares.of_inTrees hf (hf.whole_inTrees hothers) (fun _ htop => hothers.inTrees htop) hid
  · exact node?_generateOne_of_old rules hf hothers hold hid

/-- Generating a namespace leaves the trees of the others as `Turn.LeavesOthers` tells, whatever
rules it is generated with and whatever trees the others are. No more is needed than that their
roots are at the tops of trees, and that is so at every turn of every run behind the loading of
rules, however often the run is repeated. -/
theorem generateOne_others (hg : Reached g.workspace) :
    (∀ others rules, g.workspace.forest.Tops others → Turn.LeavesOthers ⟨g, others, rules⟩) ∧
      ∀ rules k, ∀ turn ∈ ((fun g => g.generate.1)^[k] (g.withRules rules)).turns,
          turn.LeavesOthers :=
  ⟨fun _ rules hothers => leavesOthers hg hothers rules, fun rules k _ hturn =>
    leavesOthers (turns_tops hg rules k hturn).1 (turns_tops hg rules k hturn).2 _⟩

/-- Two namespaces with an enum each. The names of the enums differ, so the second one leaves the
tree of the first as it was. -/
theorem generateOne_others_apart :
    let a : ExportRules := { ExportRules.ofName "A" with parsePaths := [⟨⟨"/s/a"⟩, {}⟩] }
    let b : ExportRules := { ExportRules.ofName "B" with parsePaths := [⟨⟨"/s/b"⟩, {}⟩] }
    let g : Generator := { ofDirectories ⟨"/s"⟩ ⟨"/o"⟩ with
      files := ⟨[(["s"], .directory), (["s", "a"], .directory), (["s", "b"], .directory),
        (["s", "a", "A.h"], .file (.text "enum E { p };")), (["s", "b", "B.h"],
          .file (.text "enum F { p };"))]⟩ }
    let first := (g.generateOne [] a).1
    let w := first.workspace.forest
    w.Tops [⟨0⟩] ∧
      (∀ u ∈ (first.survey b).units, ∀ x ∈ u.sites, x.isSpace = false →
        ¬x.Meets (w.InTrees [⟨0⟩]) (first.restart [⟨0⟩]).2) ∧
      (first.survey b).units.flatMap HeaderUnit.sites ≠ [] ∧ w.InTrees [⟨0⟩] ⟨1⟩ ∧
      ∀ id, w.InTrees [⟨0⟩] id →
          (first.generateOne [⟨0⟩] b).1.workspace.forest.node? id = w.node? id := by
  intro a b g first w
  have hreached : Reached first.workspace := .run [] a (.ofDirectories ⟨"/s"⟩ ⟨"/o"⟩)
  have htops : w.Tops [⟨0⟩] := by
    intro top htop
    rw [List.mem_singleton.mp htop]
    have hlive : (w.node? ⟨0⟩).isSome = true := by decide +kernel
    have hparent : w.parent? ⟨0⟩ = none := by decide +kernel
    exact ⟨Option.isSome_iff_exists.mp hlive, hparent⟩
  have hnames : ∀ u ∈ (first.survey b).units, ∀ x ∈ u.sites,
      (first.restart [⟨0⟩]).2.symbols.entries.get? x.symbol = none := by decide +kernel
  have hsites : ∀ u ∈ (first.survey b).units, ∀ x ∈ u.sites, x.isSpace = false →
      ¬x.Meets (w.InTrees [⟨0⟩]) (first.restart [⟨0⟩]).2 := by
    rintro u hu x hx - ⟨id, -, -, hget, -⟩
    rw [hnames u hu x hx] at hget
    cases hget
  have hlive : (w.node? ⟨1⟩).isSome = true := by decide +kernel
  have hparent : w.parent? ⟨1⟩ = some ⟨0⟩ := by decide +kernel
  have hin : w.InTrees [⟨0⟩] ⟨1⟩ :=
    ⟨Option.isSome_iff_exists.mp hlive, ⟨0⟩, List.mem_singleton.mpr rfl, .step hparent .self⟩
  refine ⟨htops, hsites, by decide +kernel, hin, ?_⟩
  exact ((generateOne_others hreached).1 [⟨0⟩] b htops).same_of_apart rfl hsites

/-- A header that two namespaces read adds the enumerators of its enums to the tree of the first one
again when the second one is generated. -/
theorem generateOne_fills_other :
    let rules : Rules := ⟨{ sourceDirectory := ⟨"/s"⟩ }, [
      { ExportRules.ofName "A" with parsePaths := [⟨⟨"/s"⟩, {}⟩] },
      { ExportRules.ofName "B" with parsePaths := [⟨⟨"/s"⟩, {}⟩] }]⟩
    let g : Generator := { ofDirectories ⟨"/s"⟩ ⟨"/o"⟩ with
      files := ⟨[(["s"], .directory), (["s", "H.h"], .file (.text "enum E { p };"))]⟩ }
    let loaded := g.withRules rules
    let symbols := fun (w : Workspace) (id : NodeId) => (w.forest.children id).map fun c =>
      (w.node c).symbol
    ∃ a b, loaded.namespaces = [a, b] ∧
      let first := loaded.generateOne [b.root] a.rules
      let second := first.1.generateOne [first.2.outcome.root] b.rules
      ∃ e ∈ first.1.workspace.forest.children first.2.outcome.root,
        symbols first.1.workspace e = ["E::p"] ∧
            symbols second.1.workspace e = ["E::p", "E::p"] := by
  intro rules g loaded symbols
  refine ⟨⟨rules.namespaces[0], [], ⟨0⟩⟩, ⟨rules.namespaces[1], [], ⟨1⟩⟩, rfl, ⟨3⟩, ?_⟩
  decide +kernel

end Interop.Generator
