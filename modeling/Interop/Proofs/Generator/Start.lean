import Interop.Generator
import Interop.Proofs.Header.Running
import Interop.Proofs.Passes

namespace Interop.Generator

open Overlay

variable {w : Workspace} {g : Generator} {others : List NodeId} {s : Surroundings}

/-- The headers that a run reads for a namespace. -/
def survey (g : Generator) (rules : ExportRules) : Header.Survey :=
  Header.Survey.ofRules g.frontEnd g.configuration g.files rules

/-- What the passes over a namespace read in a run. -/
def surroundings (g : Generator) (others : List NodeId) (rules : ExportRules) : Surroundings where
  settings := g.settings
  rules := rules
  root := (g.restart others).1
  headers := (g.survey rules).units.map (·.path)
  index? := some (g.survey rules).index
  kept := others

/-- What the passes make of a namespace in a run. -/
def passed (g : Generator) (others : List NodeId) (rules : ExportRules) :
    Workspace × List Artifact :=
  g.passes.apply (g.surroundings others rules) (g.survey rules).units (g.restart others).2

/-- Generating a namespace leaves the workspace that its passes leave. -/
theorem generateOne_workspace (g : Generator) (others : List NodeId) (rules : ExportRules) :
    (g.generateOne others rules).1.workspace = (g.passed others rules).1 :=
  rfl

/-- The workspaces that loading rules and generating namespaces lead to. -/
inductive Reached : Workspace → Prop
  | start : Reached {}
  | load {g : Generator} (rules : Rules) (h : Reached g.workspace) :
    Reached (g.withRules rules).workspace
  | run {g : Generator} (others : List NodeId) (rules : ExportRules) (h : Reached g.workspace) :
      Reached (g.generateOne others rules).1.workspace

/-- A new root keeps the form of the trees. -/
theorem plant_wellFormed (h : w.forest.WellFormed) : (plant w).2.forest.WellFormed :=
  h.push rfl rfl rfl

theorem plantAll_wellFormed (h : w.forest.WellFormed) (rules : List ExportRules) :
    (plantAll w rules).2.forest.WellFormed := by
  induction rules generalizing w with
  | nil => exact h
  | cons first rest ih => exact ih (plant_wellFormed h)

section Restart

variable (hf : g.workspace.forest.WellFormed)
include hf

/-- A namespace starts in well-formed trees. -/
theorem restart_wellFormed : (g.restart others).2.forest.WellFormed :=
  (plant_wellFormed hf).release _

/-- The new root is the file at the top of a tree without further nodes. -/
theorem restart_root :
    (g.restart others).2.forest.content? (g.restart others).1 = some Node.root ∧
      (g.restart others).2.forest.parent? (g.restart others).1 = none ∧
      (g.restart others).2.forest.children (g.restart others).1 = [] := by
  have hplanted := plant_wellFormed hf
  have hheld : (plant g.workspace).2.forest.HeldBy ((g.restart others).1 :: others)
      (g.restart others).1 :=
    Forest.heldBy_of_mem List.mem_cons_self
  have hcontent : (plant g.workspace).2.forest.content? (g.restart others).1 = some Node.root :=
    (Forest.content?_push ..).trans (if_pos rfl)
  have hnone : g.workspace.forest.node? (g.restart others).1 = none := Forest.node?_nextId _
  refine ⟨hplanted.content?_release.mpr ⟨hcontent, hheld⟩, ?_, ?_⟩
  · cases hparent : (g.restart others).2.forest.parent? (g.restart others).1 with
    | none => rfl
    | some parent =>
      have hold := (hplanted.parent?_release.mp hparent).1
      rw [show (plant g.workspace).2.forest = g.workspace.forest.push Node.root from rfl,
        Forest.parent?_push rfl, Forest.parent?, hnone] at hold
      cases hold
  · have hold : (g.restart others).2.forest.children (g.restart others).1 =
        (plant g.workspace).2.forest.children (g.restart others).1 :=
          hplanted.children_release hheld
    rw [hold, show (plant g.workspace).2.forest = g.workspace.forest.push Node.root from rfl,
      Forest.children_push rfl, Forest.children, hnone]
    rfl

/-- All other trees are held. -/
theorem restart_held (hroot : s.root = (g.restart others).1) (hkept : s.kept = others) :
    AllHeld s (g.restart others).2 := by
  have hplanted := plant_wellFormed hf
  intro id n hn
  obtain ⟨-, top, htop, hwithin⟩ := hplanted.content?_release.mp hn
  rw [hroot, hkept]
  exact ⟨top, htop, (hplanted.within_release (Forest.heldBy_of_mem htop)).mpr hwithin⟩

/-- A tree of a root only is in order, whatever order is. -/
theorem restart_built {ok : Node → Node → Prop} (hroot : s.root = (g.restart others).1) :
    Built ok s (g.restart others).2 := by
  obtain ⟨hcontent, hparent, hchildren⟩ := @restart_root g others hf
  refine ⟨restart_wellFormed hf, ⟨Node.root, hroot ▸ hcontent, rfl⟩, hroot ▸ hparent, ?_⟩
  intro id n hwithin hne _
  obtain ⟨c, hc, -⟩ := hwithin.child hne
  have hmem := ((restart_wellFormed hf).links s.root c).mpr hc
  rw [hroot, hchildren] at hmem
  cases hmem

/-- In the tree of the namespace there is nothing but the root. -/
theorem restart_alone (hroot : s.root = (g.restart others).1) {id : NodeId} {n : Node}
    (hwithin : (g.restart others).2.forest.Within s.root id)
    (hn : (g.restart others).2.forest.content? id = some n) : n.kind = .file := by
  have hbuilt : Built (fun _ _ => False) s (g.restart others).2 := restart_built hf hroot
  by_cases hid : id = s.root
  · obtain ⟨r, hr, hfile⟩ := hbuilt.root
    obtain rfl := Option.some.inj ((hid ▸ hn).symm.trans hr)
    exact hfile
  · obtain ⟨-, -, -, -, hfalse⟩ := hbuilt.nodes id n hwithin hid hn
    exact hfalse.elim

/-- The tree that a namespace starts with consists of its root, and the trees that are kept are
those of the others. -/
theorem restart_bareTree (hroot : s.root = (g.restart others).1) :
    BareTree s (g.restart others).2 :=
  restart_built hf hroot

end Restart

/-- All names that are left belong to nodes that are there. -/
theorem restart_live {name : String} {id : NodeId}
    (hget : (g.restart others).2.symbols.entries.get? name = some id) :
    ∃ n, (g.restart others).2.forest.content? id = some n :=
  (Forest.contains_iff_content? _ id).mp (Table.keep_of_get?_filter hget)

/-- In everything that is reached the trees are well-formed. -/
theorem Reached.wellFormed (h : Reached w) : w.forest.WellFormed := by
  induction h with
  | start => exact Forest.wellFormed_empty
  | load rules h ih => exact (plantAll_wellFormed ih rules.namespaces).release _
  | @run g others rules h ih =>
    have htree : BareTree (g.surroundings others rules) (g.restart others).2 :=
      restart_bareTree ih rfl
    rw [generateOne_workspace]
    exact (Passes.apply_rooted htree.rooted g.passes).wellFormed

/-- A generator without rules has no trees. -/
theorem Reached.ofDirectories (source output : Path) :
    Reached (ofDirectories source output).workspace :=
  .start

/-- A run leads to what is reached, also when it ends early. -/
theorem reached_of_generateFrom (h : Reached g.workspace) (done rest : List ExportNamespace) :
    Reached (g.generateFrom done rest).1.workspace := by
  induction rest generalizing g done with
  | nil => exact h
  | cons n rest ih =>
    have hrun := Reached.run ((done ++ rest).map (·.root)) n.rules h
    unfold generateFrom
    simp only
    split
    · exact ih hrun _
    · exact hrun

/-- A whole run leads to what is reached. -/
theorem reached_of_generate (h : Reached g.workspace) : Reached g.generate.1.workspace :=
  reached_of_generateFrom h [] g.namespaces

end Interop.Generator
