import Interop.Proofs.Generator.Replay

namespace Interop.Generator

open Overlay

variable {g g' : Generator} {w w' : Workspace} {after : FileTree} {k : Nat}

theorem size_plant (w : Workspace) : (plant w).2.forest.size = w.forest.size + 1 :=
  Forest.size_push ..

/-- Rules are planted alike behind any number of places. -/
theorem plantAll_shift (hsize : w'.forest.size = w.forest.size + k) (rules : List ExportRules) :
    (plantAll w' rules).1 = shiftAll k (plantAll w rules).1 := by
  induction rules generalizing w w' with
  | nil => rfl
  | cons first rest ih =>
    have hnext : (plant w').2.forest.size = (plant w).2.forest.size + k := by
      rw [size_plant, size_plant, hsize]
      omega
    have hroot : (plant w').1 = (plant w).1.shift k := congrArg NodeId.mk hsize
    rw [plantAll, plantAll]
    simp only [ih hnext, hroot]
    rfl

/-- Planting keeps the rules and their order. -/
theorem map_rules_plantAll (w : Workspace) (rules : List ExportRules) :
    (plantAll w rules).1.map (·.rules) = rules := by
  induction rules generalizing w with
  | nil => rfl
  | cons first rest ih => exact congrArg (first :: ·) (ih _)

/-- Each of the rules takes one place. -/
theorem size_plantAll (w : Workspace) (rules : List ExportRules) :
    (plantAll w rules).2.forest.size = w.forest.size + rules.length := by
  induction rules generalizing w with
  | nil => rfl
  | cons first rest ih =>
    refine (ih (plant w).2).trans ?_
    rw [size_plant, List.length_cons]
    omega

/-- Planting registers no names. -/
theorem symbols_plantAll (w : Workspace) (rules : List ExportRules) :
    (plantAll w rules).2.symbols = w.symbols := by
  induction rules generalizing w with
  | nil => rfl
  | cons first rest ih => exact ih _

/-- A planted tree is a root, and none of the trees that have been there before. -/
theorem node?_plantAll {id : NodeId} {rules : List ExportRules} :
    (∀ n, w.forest.node? id = some n → (plantAll w rules).2.forest.node? id = some n) ∧
      (id ∈ (plantAll w rules).1.map (·.root) →
        (plantAll w rules).2.forest.node? id = some Node.root ∧ w.forest.size ≤ id.index) := by
  induction rules generalizing w with
  | nil => exact ⟨fun _ hn => hn, nofun⟩
  | cons first rest ih =>
    obtain ⟨hstays, hplanted⟩ := @ih (plant w).2
    refine ⟨fun n hn => hstays n ?_, fun hid => ?_⟩
    · exact (Forest.node?_push ..).trans ((if_neg (Forest.ne_nextId hn)).trans hn)
    · rcases List.mem_cons.mp hid with rfl | hrest
      · exact ⟨hstays _ ((Forest.node?_push ..).trans (if_pos rfl)), Nat.le_refl _⟩
      · obtain ⟨hroot, hbound⟩ := hplanted hrest
        rw [size_plant] at hbound
        exact ⟨hroot, Nat.le_of_succ_le hbound⟩

/-- The trees of rules that have been loaded are bare. -/
theorem withRules_bare (h : Reached g.workspace) (rules : Rules) :
    (g.withRules rules).Bare ((g.withRules rules).namespaces.map (·.root)) := by
  refine ⟨.load rules h, fun id hid => ?_, fun e he hroot => ?_⟩
  · exact Forest.node?_release_root (List.mem_append_left _ hid) (node?_plantAll.2 hid).1
  · have hold : e ∈ g.workspace.symbols.entries.entries :=
      symbols_plantAll g.workspace rules.namespaces ▸ he
    exact Nat.not_lt_of_le (node?_plantAll.2 hroot).2 (h.issued e hold)

/-- If trees are bare, so are some of them. -/
theorem Bare.mono {roots roots' : List NodeId} (h : g.Bare roots)
    (hsub : ∀ id ∈ roots', id ∈ roots) : g.Bare roots' :=
  ⟨h.reached, fun id hid => h.bare id (hsub id hid), fun e he hid => h.unnamed e he (hsub _ hid)⟩

/-- The rules of all namespaces. -/
def allRules (g : Generator) : List ExportRules :=
  g.namespaces.map (·.rules)

/-- After loading, the rules are those that were loaded, whatever there was before. -/
theorem allRules_withRules (g : Generator) (rules : Rules) :
    (g.withRules rules).allRules = rules.namespaces :=
  map_rules_plantAll ..

/-- A run does not change the rules, however far it comes. -/
theorem allRules_generate (g : Generator) : g.generate.1.allRules = g.allRules :=
  map_rules_generateFrom g [] g.namespaces

/-- Whether the artifacts of a run, which leads to the files `after`, do not count as headers. -/
def Apart (g : Generator) (after : FileTree) : Prop :=
  ∀ r ∈ g.allRules, ∀ p ∈ r.parsePaths,
    g.files.Apart after g.settings.outputDirectory (g.allRules.flatMap (·.artifactNames))
      p.directory

instance : Decidable (g.Apart after) :=
  inferInstanceAs (Decidable (∀ _ ∈ _, _))

/-- Artifacts that do not count as headers before a run do not do so after it, since nothing is
removed. -/
theorem Apart.kept (h : g.Apart after) (hkept : g.files.Kept g'.files)
    (hrules : g'.allRules = g.allRules) (hsettings : g'.settings = g.settings) :
    g'.Apart after := by
  intro r hr p hp
  rw [hrules] at hr ⊢
  rw [hsettings]
  exact (h r hr p hp).kept hkept

/-- The artifacts of a run, if all headers are read before anything is written. -/
def artifacts (g : Generator) : List Artifact :=
  g.replay [] g.namespaces

/-- All artifacts of a run are named after its namespaces. -/
theorem name_of_artifacts {a : Artifact} (ha : a ∈ g.artifacts) :
    a.name ∈ g.allRules.flatMap (·.artifactNames) := by
  obtain ⟨n, hn, hname⟩ := name_of_replay ha
  exact List.mem_flatMap.mpr ⟨n.rules, List.mem_map_of_mem hn, hname⟩

/-- What a run writes. -/
theorem generate_files (hf : g.workspace.forest.WellFormed) (hapart : g.Apart after)
    (hafter : g.generate.1.files.Kept after ∨
      (Artifact.writeAll g.files g.settings.outputDirectory g.artifacts).1.Kept after) :
    Artifact.writeAll g.files g.settings.outputDirectory g.artifacts =
      (g.generate.1.files, g.generate.2.all (·.isComplete)) := by
  have hnames : ∀ n ∈ g.namespaces, ∀ name ∈ n.rules.artifactNames, name ∈
      g.allRules.flatMap (·.artifactNames) :=
    fun n hn name hname => List.mem_flatMap.mpr ⟨n.rules, List.mem_map_of_mem hn, hname⟩
  have hapart' : ∀ n ∈ g.namespaces, ∀ p ∈ n.rules.parsePaths,
      g.files.Apart after g.settings.outputDirectory (g.allRules.flatMap (·.artifactNames))
          p.directory :=
    fun n hn => hapart n.rules (List.mem_map_of_mem hn)
  obtain ⟨hfiles, hall⟩ := generateFrom_replay [] g.namespaces hf hnames hapart' hafter
  exact Prod.ext hfiles.symm hall.symm

/-- No header is read differently after a run. -/
theorem survey_generate (hf : g.workspace.forest.WellFormed) (hapart : g.Apart g.generate.1.files)
    {r : ExportRules} (hr : r ∈ g.allRules) : g.generate.1.survey r = g.survey r := by
  have hwritten := generate_files hf hapart (.inl (.refl _))
  have hchanges := Artifact.writeAll_changes g.files g.settings.outputDirectory g.artifacts
  rw [hwritten] at hchanges
  have halike := generateFrom_alike g [] g.namespaces
  unfold survey
  rw [generate, halike.frontEnd, halike.configuration]
  refine Header.Survey.ofRules_congr fun p hp => (hapart r hr p hp).scan? (hchanges.mono ?_)
    (.refl _)
  rintro at_ ⟨a, ha, hlocate⟩
  exact ⟨a.name, name_of_artifacts ha, hlocate⟩

/-- A run that makes what lies there changes nothing. -/
theorem generate_same {t : FileTree} (hf : g.workspace.forest.WellFormed) (hapart : g.Apart g.files)
    (hwritten : Artifact.writeAll t g.settings.outputDirectory g.artifacts = (g.files, true)) :
    g.generate.2.all (·.isComplete) = true ∧
      ∀ at_, g.generate.1.files.entry? at_ = g.files.entry? at_ := by
  obtain ⟨hall, hentries⟩ := Artifact.writeAll_again hwritten
  have hkept : (Artifact.writeAll g.files g.settings.outputDirectory g.artifacts).1.Kept g.files :=
    FileTree.Kept.of_entry? fun at_ => (hentries at_).symm
  have hruns := generate_files hf hapart (.inr hkept)
  rw [hruns] at hall hentries
  exact ⟨hall, hentries⟩

/-- A namespace that is alone gives the same artifacts behind any number of places. With a second
one the trees that are there would have to lie alike as well. -/
theorem Alike.artifacts_alone_shift (h : g.Alike g') (hg : Reached g.workspace)
    (hg' : Reached g'.workspace) (hsize : g'.workspace.forest.size = g.workspace.forest.size + k)
    (hrules : g'.allRules = g.allRules) (halone : g.allRules.length ≤ 1)
    (hsurvey : ∀ r ∈ g.allRules, g'.survey r = g.survey r) :
    g'.artifacts = g.artifacts := by
  unfold artifacts allRules at *
  generalize g.namespaces = ns at *
  generalize g'.namespaces = ns' at *
  cases ns with
  | nil =>
    obtain rfl := List.map_eq_nil_iff.mp hrules
    rfl
  | cons n rest =>
    have hrest : rest.length = 0 := by simpa using halone
    obtain rfl := List.eq_nil_of_length_eq_zero hrest
    obtain ⟨n', rfl, hn'⟩ := List.map_eq_singleton_iff.mp hrules
    exact h.replay_bare [] (.nil hg) (.nil hg') hsize hn' fun m hm =>
      hsurvey m.rules (List.mem_map_of_mem hm)

/-- A namespace that is alone gives the same artifacts in whatever trees there are. -/
theorem Alike.artifacts_alone (h : g.Alike g') (hg : Reached g.workspace)
    (hg' : Reached g'.workspace) (hrules : g'.allRules = g.allRules)
    (halone : g.allRules.length ≤ 1) (hsurvey : ∀ r ∈ g.allRules, g'.survey r = g.survey r) :
    g'.artifacts = g.artifacts := by
  have hbase : g.artifacts = artifacts { g with workspace := {} } :=
    Alike.artifacts_alone_shift ⟨rfl, rfl, rfl,
      rfl⟩ .start hg (Nat.zero_add _).symm rfl halone fun _ _ => rfl
  have hother : g'.artifacts = artifacts { g with workspace := {} } :=
    Alike.artifacts_alone_shift ⟨h.settings, h.frontEnd, h.configuration, h.passes⟩ .start hg'
      (Nat.zero_add _).symm
      hrules halone hsurvey
  rw [hother, hbase]

section Loading

variable {rules : Rules} (h : (g.withRules rules).Alike (g'.withRules rules))
    (hg : Reached g.workspace)
  (hg' : Reached g'.workspace)
  (hsurvey : ∀ r ∈ rules.namespaces, (g'.withRules rules).survey r = (g.withRules rules).survey r)
include h hg hg' hsurvey

/-- Rules that have just been loaded give the same artifacts behind any number of places. -/
theorem Alike.artifacts_withRules_shift
    (hsize : g'.workspace.forest.size = g.workspace.forest.size + k) :
    (g'.withRules rules).artifacts = (g.withRules rules).artifacts := by
  have hbare := withRules_bare hg rules
  have hbare' := withRules_bare hg' rules
  have hnamespaces : (g'.withRules rules).namespaces = shiftAll k (g.withRules rules).namespaces :=
    plantAll_shift hsize rules.namespaces
  have hrules : (g.withRules rules).namespaces.map (·.rules) = rules.namespaces :=
    map_rules_plantAll ..
  have hsizes : (g'.withRules rules).workspace.forest.size =
      (g.withRules rules).workspace.forest.size + k := by
    refine (Forest.size_release ..).trans ((size_plantAll ..).trans ?_)
    rw [hsize, Nat.add_right_comm, ← size_plantAll g.workspace]
    exact congrArg (· + k) (Forest.size_release ..).symm
  unfold artifacts
  rw [hnamespaces] at hbare' ⊢
  generalize (g.withRules rules).namespaces = ns at *
  cases ns with
  | nil => rfl
  | cons n rest =>
    rw [map_root_shiftAll] at hbare'
    refine h.replay_bare rest (hbare.mono fun _ => List.mem_cons_of_mem _)
      (hbare'.mono fun _ => List.mem_cons_of_mem _) hsizes rfl fun m hm => hsurvey m.rules ?_
    exact hrules ▸ List.mem_map_of_mem hm

/-- A run after loading rules makes the same artifacts in whatever trees there are. -/
theorem Alike.artifacts_withRules :
    (g'.withRules rules).artifacts = (g.withRules rules).artifacts := by
  have hbase : (g.withRules rules).artifacts =
      artifacts (withRules { g with workspace := {} } rules) :=
    Alike.artifacts_withRules_shift ⟨rfl, rfl, rfl, rfl⟩ .start hg (fun _ _ => rfl)
      (Nat.zero_add _).symm
  have hother : (g'.withRules rules).artifacts =
      artifacts (withRules { g with workspace := {} } rules) :=
    Alike.artifacts_withRules_shift ⟨h.settings, h.frontEnd, h.configuration,
      h.passes⟩ .start hg' hsurvey
      (Nat.zero_add _).symm
  rw [hother, hbase]

end Loading

/-- Generating again changes no file if the rules have been loaded again, or if there are not
several namespaces. With several of them it depends on what the names in the headers of one stand
for in the trees that the last run has left of those behind it; loading the rules drops these
trees. -/
theorem generate_again (hg : Reached g.workspace) {rules : Rules}
    (hcomplete : (g.withRules rules).generate.2.all (·.isComplete) = true)
    (hapart : (g.withRules rules).Apart (g.withRules rules).generate.1.files) :
    let first := (g.withRules rules).generate.1
    ((first.withRules rules).generate.2.all (·.isComplete) = true ∧
      ∀ at_, FileTree.entry? (first.withRules rules).generate.1.files at_ =
        first.files.entry? at_) ∧
    (rules.namespaces.length ≤ 1 →
      first.generate.2.all (·.isComplete) = true ∧
        ∀ at_, first.generate.1.files.entry? at_ = first.files.entry? at_) := by
  intro first
  have hloaded : Reached (g.withRules rules).workspace := .load rules hg
  have hfirst : Reached first.workspace := reached_of_generate hloaded
  have halike : (g.withRules rules).Alike first := generateFrom_alike _ _ _
  have hkept : (g.withRules rules).files.Kept first.files := generateFrom_kept _ _ _
  have hrules : (g.withRules rules).allRules = rules.namespaces := allRules_withRules g rules
  have hsurvey : ∀ r ∈ rules.namespaces,
      first.survey r = (g.withRules rules).survey r := fun r hr =>
    survey_generate hloaded.wellFormed hapart (hrules.symm ▸ hr)
  have hwritten := generate_files hloaded.wellFormed hapart (.inl (.refl _))
  rw [hcomplete] at hwritten
  refine ⟨?_, fun halone => ?_⟩
  · have hagain : (g.withRules rules).Alike (first.withRules rules) :=
      ⟨congrArg (fun s : Settings => { rules.settings with outputDirectory := s.outputDirectory })
        halike.settings, halike.frontEnd, halike.configuration, halike.passes⟩
    refine generate_same (Reached.load rules hfirst).wellFormed ?_
      (t := (g.withRules rules).files) ?_
    · exact hapart.kept hkept ((allRules_withRules first rules).trans hrules.symm) hagain.settings
    · rw [hagain.artifacts_withRules hg hfirst hsurvey, hagain.settings]
      exact hwritten
  · refine generate_same hfirst.wellFormed ?_ (t := (g.withRules rules).files) ?_
    · exact hapart.kept hkept (allRules_generate _) halike.settings
    · rw [halike.artifacts_alone hloaded hfirst (allRules_generate _) (hrules ▸ halone)
        (hrules ▸ hsurvey), halike.settings]
      exact hwritten

/-- One namespace with one header, generated again with and without loading its rules again. -/
theorem generate_again_alone :
    let g : Generator := { ofDirectories ⟨"/s"⟩ ⟨"/o"⟩ with
      files := ⟨[(["s"], .directory), (["s", "A.h"], .file (.text "void f(int x);"))]⟩ }
    let rules : Rules :=
      ⟨{ sourceDirectory := ⟨"/s"⟩ },
        [{ ExportRules.ofName "A" with parsePaths := [⟨⟨"/s"⟩, {}⟩] }]⟩
    (g.withRules rules).generate.2.all (·.isComplete) = true ∧
      (g.withRules rules).Apart (g.withRules rules).generate.1.files ∧
      let first := (g.withRules rules).generate.1
      ((first.withRules rules).generate.2.all (·.isComplete) = true ∧
        ∀ at_, FileTree.entry? (first.withRules rules).generate.1.files at_ =
          first.files.entry? at_) ∧
      first.generate.2.all (·.isComplete) = true ∧
        ∀ at_, first.generate.1.files.entry? at_ = first.files.entry? at_ := by
  intro g rules
  have hcomplete : (g.withRules rules).generate.2.all (·.isComplete) = true := by decide +kernel
  have hapart : (g.withRules rules).Apart (g.withRules rules).generate.1.files := by decide +kernel
  have hagain := generate_again (g := g) (.ofDirectories ⟨"/s"⟩ ⟨"/o"⟩) hcomplete hapart
  exact ⟨hcomplete, hapart, hagain.1, hagain.2 (Nat.le_refl 1)⟩

/-- The trees of other namespaces are still there when a namespace is generated again: a function
whose parameter is of a type of a later namespace is exported by the second run only. -/
theorem generate_again_exports :
    let g : Generator := { ofDirectories ⟨"/s"⟩ ⟨"/o"⟩ with
      files := ⟨[(["s"], .directory), (["s", "a"], .directory), (["s", "b"], .directory),
        (["s", "a", "A.h"], .file (.text "void f(E e);")), (["s", "b", "B.h"],
          .file (.text "enum E { x };"))]⟩ }
    let rules : Rules := ⟨{ sourceDirectory := ⟨"/s"⟩ }, [
      { ExportRules.ofName "A" with parsePaths := [⟨⟨"/s/a"⟩, {}⟩] },
      { ExportRules.ofName "B" with parsePaths := [⟨⟨"/s/b"⟩, {}⟩] }]⟩
    let first := (g.withRules rules).generate
    first.2.all (·.isComplete) = true ∧ (g.withRules rules).Apart first.1.files ∧
      first.1.generate.2.all (·.isComplete) = true ∧
      first.1.generate.1.files.text? ⟨"/o/ABridge.cpp"⟩ ≠
          first.1.files.text? ⟨"/o/ABridge.cpp"⟩ := by
  decide +kernel

end Interop.Generator
