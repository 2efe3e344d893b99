import Interop.Proofs.Files.Artifact
import Interop.Proofs.Generator.Afresh

namespace Interop

open Overlay Emit

section Headers

variable {before after t : FileTree} {output directory : Path} {names : List String}

/-- Whether the files that are written do not count as headers of a parse path: its directory holds
none of them, or there is no such directory even when they have been written. -/
def FileTree.Apart (before after : FileTree) (output : Path) (names : List String)
    (directory : Path) : Prop :=
  after.scan? directory = none ∨ ∃ at_ ∈ before.locate? directory, before.isDirectory at_ = true ∧
    ∀ name ∈ names, ∀ loc ∈ after.locate? (output.join name), ¬at_ <+: loc

instance : Decidable (before.Apart after output names directory) :=
  inferInstanceAs (Decidable (_ ∨ _))

/-- The locations of files in a directory. -/
def FileTree.Named (t : FileTree) (output : Path) (names : List String) (at_ : Location) : Prop :=
  ∃ name ∈ names, t.locate? (output.join name) = some at_

namespace FileTree.Apart

/-- A parse path is scanned alike after some of the artifacts have been written, since none of them
lies in it. -/
theorem scan? (h : before.Apart after output names directory)
    (hchanges : Changes (after.Named output names) before t) (hkept : t.Kept after) :
    t.scan? directory = before.scan? directory := by
  rcases h with hnone | ⟨at_, hlocate, hat, hapart⟩
  · rw [hkept.scan?_eq_none hnone, (hchanges.kept.trans hkept).scan?_eq_none hnone]
  · exact hchanges.scan? hlocate hat fun loc ⟨name, hname, hloc⟩ => hapart name hname loc hloc

/-- Artifacts lie apart from a parse path in any tree of files that keeps what the first one has. -/
theorem kept (h : before.Apart after output names directory) (hkept : before.Kept t) :
    t.Apart after output names directory := by
  refine h.imp_right fun ⟨at_, hlocate, hat, hapart⟩ => ?_
  exact ⟨at_, hkept.locate? hlocate, hkept.directories at_ hat, hapart⟩

end FileTree.Apart

/-- Surveys of what is scanned alike are the same. -/
theorem Header.Survey.ofRules_congr {frontEnd : FrontEnd} {configuration : Configuration}
    {rules : ExportRules}
    (h : ∀ p ∈ rules.parsePaths, t.scan? p.directory = before.scan? p.directory) :
    ofRules frontEnd configuration t rules = ofRules frontEnd configuration before rules := by
  unfold ofRules
  generalize rules.parsePaths = paths at h
  generalize ({} : Survey) = s
  induction paths generalizing s with
  | nil => rfl
  | cons p rest ih =>
    have hfirst : addParsePath frontEnd configuration t s p =
        addParsePath frontEnd configuration before s p := by
      unfold addParsePath
      rw [h p List.mem_cons_self]
    rw [List.foldl_cons, List.foldl_cons, hfirst]
    exact ih (fun q hq => h q (List.mem_cons_of_mem p hq)) _

end Headers

/-- The names of the artifacts of a namespace. -/
def ExportRules.artifactNames (r : ExportRules) : List String :=
  [BridgeFile.fileName r, ManagedFile.fileName r]

/-- Overlay passes make no artifacts but the two of their namespace. -/
theorem OverlayPass.name_of_applyAll {s : Surroundings} {w : Workspace} {passes : List OverlayPass}
    {a : Artifact} (h : a ∈ (applyAll s w passes).2) : a.name ∈ s.rules.artifactNames := by
  induction passes generalizing w with
  | nil => cases h
  | cons pass rest ih =>
    rw [applyAll] at h
    rcases List.mem_append.mp h with hfirst | hrest
    · cases pass with
      | globals => cases hfirst
      | naming => cases hfirst
      | bridge =>
        obtain rfl := List.mem_singleton.mp hfirst
        exact List.mem_cons_self
      | managed =>
        obtain rfl := List.mem_singleton.mp hfirst
        exact List.mem_cons_of_mem _ List.mem_cons_self
    · exact ih hrest

namespace Generator

variable {g g' : Generator} {others : List NodeId} {rules : ExportRules} {k : Nat}

theorem name_of_passed {a : Artifact} (h : a ∈ (g.passed others rules).2) :
    a.name ∈ rules.artifactNames :=
  OverlayPass.name_of_applyAll h

/-- Whether two generators do the same, apart from the trees and files that they do it to. -/
structure Alike (g g' : Generator) : Prop where
  settings : g'.settings = g.settings
  frontEnd : g'.frontEnd = g.frontEnd
  configuration : g'.configuration = g.configuration
  passes : g'.passes = g.passes

theorem Alike.inWorkspaces (h : g.Alike g') (w w' : Workspace) :
    Alike { g with workspace := w } { g' with workspace := w' } :=
  ⟨h.settings, h.frontEnd, h.configuration, h.passes⟩

/-- Where a namespace starts alike, the same is made of it. -/
theorem Alike.passed (h : g.Alike g') (hf : g.workspace.forest.WellFormed)
    (hsurvey : g'.survey rules = g.survey rules)
    (hrestart : g'.restart (others.map (·.shift k)) = ((g.restart others).1.shift k,
      (g.restart others).2.shift k)) :
    g'.passed (others.map (·.shift k)) rules = ((g.passed others rules).1.shift k,
      (g.passed others rules).2) := by
  have htree : BareTree (g.surroundings others rules) (g.restart others).2 :=
    restart_bareTree hf rfl
  have hsurroundings :
      g'.surroundings (others.map (·.shift k)) rules = (g.surroundings others rules).shift k := by
    unfold surroundings
    rw [hrestart, hsurvey, h.settings]
    rfl
  unfold Generator.passed
  rw [hsurroundings, hsurvey, hrestart, h.passes, Passes.apply_shift htree.rooted]

/-- The artifacts of a run over the namespaces `rest`, all headers being read before anything is
written. The trees `done` are those of the namespaces before. -/
def replay (g : Generator) (done : List NodeId) : (rest : List ExportNamespace) → List Artifact
  | [] => []
  | n :: rest =>
    let made := g.passed (done ++ rest.map (·.root)) n.rules
    let root := (g.restart (done ++ rest.map (·.root))).1
    made.2 ++ replay { g with workspace := made.1 } (done ++ [root]) rest

/-- The artifacts of a run are those of the namespaces that it goes over. -/
theorem name_of_replay {a : Artifact} {done : List NodeId} {rest : List ExportNamespace}
    (h : a ∈ g.replay done rest) :
    ∃ n ∈ rest, a.name ∈ n.rules.artifactNames := by
  induction rest generalizing g done with
  | nil => cases h
  | cons n rest ih =>
    rw [replay] at h
    rcases List.mem_append.mp h with hfirst | hrest
    · exact ⟨n, List.mem_cons_self, name_of_passed hfirst⟩
    · obtain ⟨n', hn', hname⟩ := ih hrest
      exact ⟨n', List.mem_cons_of_mem n hn', hname⟩

/-- The same namespaces with other trees. -/
def shiftAll (k : Nat) (ns : List ExportNamespace) : List ExportNamespace :=
  ns.map fun n => { n with root := n.root.shift k }

theorem map_root_shiftAll (k : Nat) (ns : List ExportNamespace) :
    (shiftAll k ns).map (·.root) = (ns.map (·.root)).map (·.shift k) := by
  simp [shiftAll]

/-- The passes keep the form of the trees. -/
theorem workspace_passed_wellFormed (hf : g.workspace.forest.WellFormed) :
    (g.passed others rules).1.forest.WellFormed := by
  have htree : BareTree (g.surroundings others rules) (g.restart others).2 :=
    restart_bareTree hf rfl
  exact (Passes.apply_rooted htree.rooted g.passes).wellFormed

/-- A run makes the same artifacts in a shifted workspace. -/
theorem Alike.replay_shift (h : g.Alike g') (done : List NodeId) (rest : List ExportNamespace)
    (hf : g.workspace.forest.WellFormed) (hworkspace : g'.workspace = g.workspace.shift k)
    (hsurvey : ∀ n ∈ rest, g'.survey n.rules = g.survey n.rules) :
    g'.replay (done.map (·.shift k)) (shiftAll k rest) = g.replay done rest := by
  induction rest generalizing g g' done with
  | nil => rfl
  | cons n rest ih =>
    have hothers : done.map (·.shift k) ++ (shiftAll k rest).map (·.root) =
        (done ++ rest.map (·.root)).map (·.shift k) := by
      rw [map_root_shiftAll, List.map_append]
    have hrestart := restart_shift hf hworkspace (done ++ rest.map (·.root))
    have hpassed := h.passed hf (hsurvey n List.mem_cons_self) hrestart
    rw [shiftAll, List.map_cons, ← shiftAll, replay, replay]
    simp only [hothers, hpassed, hrestart]
    refine congrArg (_ ++ ·) ?_
    have hdone : (done.map (·.shift k)) ++ [(g.restart (done ++ rest.map (·.root))).1.shift k] =
        (done ++ [(g.restart (done ++ rest.map (·.root))).1]).map (·.shift k) := by simp
    rw [hdone]
    exact ih (h.inWorkspaces _ _) _ (workspace_passed_wellFormed hf) rfl fun n' hn' =>
      hsurvey n' (List.mem_cons_of_mem n hn')

/-- A run makes the same artifacts if all trees but the first are bare when it starts. -/
theorem Alike.replay_bare {n n' : ExportNamespace} (h : g.Alike g') (rest : List ExportNamespace)
    (hbare : g.Bare (rest.map (·.root))) (hbare' : g'.Bare ((rest.map (·.root)).map (·.shift k)))
    (hsize : g'.workspace.forest.size = g.workspace.forest.size + k) (hrules : n'.rules = n.rules)
    (hsurvey : ∀ m ∈ n :: rest, g'.survey m.rules = g.survey m.rules) :
    g'.replay [] (n' :: shiftAll k rest) = g.replay [] (n :: rest) := by
  have hf := hbare.reached.wellFormed
  have hrestart := restart_bare_shift hbare hbare' hsize
  have hpassed := h.passed hf (hsurvey n List.mem_cons_self) hrestart
  rw [replay, replay, hrules]
  simp only [List.nil_append, map_root_shiftAll, hpassed, hrestart]
  refine congrArg (_ ++ ·) ?_
  have hafter : Alike { g with workspace := (g.passed (rest.map (·.root)) n.rules).1 }
      { g' with workspace := (g.passed (rest.map (·.root)) n.rules).1.shift k } :=
        h.inWorkspaces _ _
  exact hafter.replay_shift [(g.restart (rest.map (·.root))).1] rest
    (workspace_passed_wellFormed hf) rfl
    fun m hm => hsurvey m (List.mem_cons_of_mem n hm)

section Files

variable {after : FileTree} {names : List String} {done rest : List ExportNamespace}

/-- A run begins with the first of the namespaces that are left, and goes on only if its artifacts
could be written. -/
theorem generateFrom_cons (g : Generator) (done : List ExportNamespace) (n : ExportNamespace)
    (rest : List ExportNamespace) :
    g.generateFrom done (n :: rest) =
      let one := g.generateOne ((done ++ rest).map (·.root)) n.rules
      if one.2.isComplete then
        ((one.1.generateFrom (done ++ [one.2.outcome]) rest).1,
          one.2 :: (one.1.generateFrom (done ++ [one.2.outcome]) rest).2)
      else ({ one.1 with namespaces := done ++ [one.2.outcome] ++ rest }, [one.2]) :=
  rfl

/-- A run keeps what there is. -/
theorem generateFrom_kept (g : Generator) (done rest : List ExportNamespace) :
    g.files.Kept (g.generateFrom done rest).1.files := by
  induction rest generalizing g done with
  | nil => exact .refl _
  | cons n rest ih =>
    have hfirst : g.files.Kept (g.generateOne ((done ++ rest).map (·.root)) n.rules).1.files :=
      (Artifact.writeAll_changes ..).kept
    rw [generateFrom_cons]
    simp only
    split
    · exact hfirst.trans (ih _ _)
    · exact hfirst

/-- A run changes trees and files only. -/
theorem generateFrom_alike (g : Generator) (done rest : List ExportNamespace) :
    g.Alike (g.generateFrom done rest).1 := by
  induction rest generalizing g done with
  | nil => exact ⟨rfl, rfl, rfl, rfl⟩
  | cons n rest ih =>
    rw [generateFrom_cons]
    simp only
    split
    · have hrest := ih (g.generateOne ((done ++ rest).map (·.root)) n.rules).1
        (done ++ [(g.generateOne ((done ++ rest).map (·.root)) n.rules).2.outcome])
      exact ⟨hrest.settings, hrest.frontEnd, hrest.configuration, hrest.passes⟩
    · exact ⟨rfl, rfl, rfl, rfl⟩

/-- A run keeps the rules of the namespaces and their order. -/
theorem map_rules_generateFrom (g : Generator) (done rest : List ExportNamespace) :
    (g.generateFrom done rest).1.namespaces.map (·.rules) = (done ++ rest).map (·.rules) := by
  induction rest generalizing g done with
  | nil => simp [generateFrom]
  | cons n rest ih =>
    rw [generateFrom_cons]
    simp only
    split
    · simp only [ih, List.map_append, List.append_assoc, List.map_cons, List.map_nil]
      rfl
    · simp only [List.map_append, List.append_assoc, List.map_cons, List.map_nil]
      rfl

/-- One namespace changes nothing but where its artifacts lie. -/
theorem generateOne_changes {others : List NodeId} {rules : ExportRules}
    (hnames : ∀ name ∈ rules.artifactNames, name ∈ names)
    (hkept : (g.generateOne others rules).1.files.Kept after) :
    FileTree.Changes (after.Named g.settings.outputDirectory names) g.files
      (g.generateOne others rules).1.files := by
  refine (Artifact.writeAll_changes g.files g.settings.outputDirectory
    (g.passed others rules).2).mono ?_
  rintro at_ ⟨a, ha, hlocate⟩
  exact ⟨a.name, hnames a.name (name_of_passed ha), hkept.locate? hlocate⟩

/-- The files of one namespace do not change what the namespaces after it make. -/
theorem replay_generateOne {others : List NodeId} {rules : ExportRules}
    (hf : g.workspace.forest.WellFormed)
    (hsurvey : ∀ n ∈ rest, (g.generateOne others rules).1.survey n.rules = g.survey n.rules)
    (roots : List NodeId) :
    (g.generateOne others rules).1.replay roots rest =
      { g with workspace := (g.passed others rules).1 }.replay roots rest := by
  have halike : Alike { g with workspace := (g.passed others rules).1 }
      (g.generateOne others rules).1 :=
    ⟨rfl, rfl, rfl, rfl⟩
  have hworkspace : (g.generateOne others rules).1.workspace =
      (g.passed others rules).1.shift 0 := by
    rw [Workspace.shift_zero]
    exact generateOne_workspace g others rules
  have hreplay := halike.replay_shift roots rest (workspace_passed_wellFormed hf) hworkspace hsurvey
  simpa [shiftAll, NodeId.shift] using hreplay

/-- If no artifact counts as a header, a run writes the artifacts that could be made before anything
was written. -/
theorem generateFrom_replay (done rest : List ExportNamespace) (hf : g.workspace.forest.WellFormed)
    (hnames : ∀ n ∈ rest, ∀ name ∈ n.rules.artifactNames, name ∈ names)
    (hapart : ∀ n ∈ rest, ∀ p ∈ n.rules.parsePaths,
      g.files.Apart after g.settings.outputDirectory names p.directory)
    (hafter : (g.generateFrom done rest).1.files.Kept after ∨
      (Artifact.writeAll g.files g.settings.outputDirectory
        (g.replay (done.map (·.root)) rest)).1.Kept after) :
    (g.generateFrom done rest).1.files =
        (Artifact.writeAll g.files g.settings.outputDirectory
          (g.replay (done.map (·.root)) rest)).1 ∧
      (g.generateFrom done rest).2.all (·.isComplete) =
        (Artifact.writeAll g.files g.settings.outputDirectory
            (g.replay (done.map (·.root)) rest)).2 := by
  induction rest generalizing g done with
  | nil => exact ⟨rfl, rfl⟩
  | cons n rest ih =>
    obtain ⟨others, hothers⟩ : ∃ others, others = (done ++ rest).map (·.root) := ⟨_, rfl⟩
    obtain ⟨one, hone⟩ : ∃ one, one = g.generateOne others n.rules := ⟨_, rfl⟩
    obtain ⟨done', hdone'⟩ : ∃ done', done' = done ++ [one.2.outcome] := ⟨_, rfl⟩
    have hwrite : Artifact.writeAll g.files g.settings.outputDirectory (g.passed others n.rules).2 =
        (one.1.files, one.2.isComplete) := hone ▸ rfl
    have hroots : done'.map (·.root) = done.map (·.root) ++ [(g.restart others).1] := by
      rw [hdone', List.map_append, hone]
      rfl
    have hreplay : g.replay (done.map (·.root)) (n :: rest) = (g.passed others n.rules).2 ++
        replay { g with workspace := (g.passed others n.rules).1 } (done'.map (·.root)) rest := by
      rw [hroots, hothers, List.map_append]
      rfl
    have hrun : g.generateFrom done (n :: rest) =
        if one.2.isComplete then ((one.1.generateFrom done' rest).1,
          one.2 :: (one.1.generateFrom done' rest).2)
        else ({ one.1 with namespaces := done' ++ rest }, [one.2]) := by
      rw [hdone', hone, hothers]
      rfl
    rw [hreplay, Artifact.writeAll_append, hwrite, hrun] at hafter ⊢
    have hkept : one.1.files.Kept after := by
      split at hafter
      · exact hafter.elim (generateFrom_kept one.1 _ rest).trans
          (Artifact.writeAll_changes ..).kept.trans
      · exact hafter.elim id id
    have hchanges := generateOne_changes (hnames n List.mem_cons_self) (hone ▸ hkept)
    have hsurvey : ∀ n' ∈ rest,
        (g.generateOne others n.rules).1.survey n'.rules = g.survey n'.rules := fun n' hn' =>
      Header.Survey.ofRules_congr fun p hp =>
        (hapart n' (List.mem_cons_of_mem n hn') p hp).scan? hchanges (hone ▸ hkept)
    rw [← replay_generateOne hf hsurvey] at hafter ⊢
    cases hdone : one.2.isComplete with
    | false => exact ⟨rfl, by simp [hdone]⟩
    | true =>
      rw [hdone] at hafter
      rw [← hone] at hafter hchanges ⊢
      have hwellFormed : one.1.workspace.forest.WellFormed := by
        rw [hone, generateOne_workspace]
        exact workspace_passed_wellFormed hf
      have hsettings : one.1.settings = g.settings := hone ▸ rfl
      obtain ⟨hends, hall⟩ :=
        ih done' hwellFormed (fun n' hn' => hnames n' (List.mem_cons_of_mem n hn'))
        (fun n' hn' p hp => hsettings ▸ (hapart n' (List.mem_cons_of_mem n hn') p hp).kept
          hchanges.kept)
        (hsettings ▸ hafter)
      rw [hsettings] at hends hall
      exact ⟨hends, by simpa [hdone] using hall⟩

end Files

end Generator

end Interop
