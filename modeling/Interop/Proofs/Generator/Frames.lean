import Interop.Proofs.Export.Watch

namespace Interop

open Overlay Export

variable {s : Surroundings} {w w' : Workspace} {units : List HeaderUnit} {u : HeaderUnit}

/-- Whether the front end reads a unit from some header. -/
def HeaderUnit.IsRead (u : HeaderUnit) : Prop :=
  ∃ configuration path content, (Header.FrontEnd.builtin configuration path content).result = .ok u

theorem HeaderUnit.IsRead.shown (h : u.IsRead) : u.root.Shown := by
  obtain ⟨configuration, path, content, hresult⟩ := h
  obtain ⟨hproxy, hform⟩ := Header.FrontEnd.builtin_formed hresult
  exact hform.shown hproxy

namespace RawPass

/-- A watch over a header sees frames follow the containers, and changes nothing of what the pass
does. -/
theorem header_watched (hu : u.root.Shown) (hsigned : Signed w)
    (hroot : w.forest.content? s.root = some Node.root) (scopes : Scopes) (pass : RawPass) :
    ∃ sights, (((Watched.header (pass.visit s) s.root u).run {}).run scopes).run w =
        ((((), { sights }), { frames := [some s.root] }),
          (pass.builder s (some u.path)).build s.root u.root w) ∧
      Grown w ((pass.builder s (some u.path)).build s.root u.root w) ∧
      ∀ v ∈ sights, v.Follows pass.opens u.root s.root := by
  have hinside : Inside pass.opens s.root [] [] s.root [] w :=
    ⟨rfl, rfl, nofun, Node.root, hroot, .inl rfl, .root⟩
  obtain ⟨sights, hwalk, hgrown, hfollows⟩ := (pass.describes s (some u.path)).walk_watched
    (pass.follows s (some u.path)) u.root (o := {}) hu ⟨rfl, .singleton _⟩ hinside hsigned
  refine ⟨sights, ?_, hgrown, hfollows⟩
  refine (Watched.run_bind (u.root.walk (Watched.visit (pass.visit s)))
    (fun _ => modifyThe Scopes fun s => { s with header? := none }) {}
      (Builder.scopes s.root [] (some u.path)) w).trans ?_
  rw [hwalk]
  rfl

section Apply

variable (hunits : ∀ u ∈ units, u.IsRead)
include hunits

/-- A raw pass lets a workspace grow, and keeps its symbols signed. -/
theorem apply_grown (hsigned : Signed w) (hroot : w.forest.content? s.root = some Node.root)
    (pass : RawPass) :
    Grown w (pass.apply s units w) := by
  rw [apply_eq]
  induction units generalizing w with
  | nil => exact .refl hsigned
  | cons u rest ih =>
    obtain ⟨hu, hrest⟩ := List.forall_mem_cons.mp hunits
    obtain ⟨-, -, hgrown, -⟩ := header_watched hu.shown hsigned hroot {} pass
    exact hgrown.trans (ih hrest hgrown.signed (hgrown.kept s.root Node.root hroot))

/-- So do several raw passes, one behind the other. -/
theorem applyAll_grown (hsigned : Signed w) (hroot : w.forest.content? s.root = some Node.root)
    (passes : List RawPass) :
    Grown w (passes.foldl (RawPass.apply s units) w) := by
  induction passes generalizing w with
  | nil => exact .refl hsigned
  | cons pass rest ih =>
    have hgrown := apply_grown hunits hsigned hroot pass
    exact hgrown.trans (ih hgrown.signed (hgrown.kept s.root Node.root hroot))

end Apply

end RawPass

/-- An overlay pass keeps symbols signed: none of them registers a name. -/
theorem OverlayPass.apply_signed (hrooted : Rooted s w) (h : Signed w) (pass : OverlayPass) :
    Signed (pass.apply s w).1 := by
  cases pass with
  | globals =>
    obtain ⟨r, hr, hfile⟩ := hrooted.root
    obtain ⟨hsteps, -⟩ :=
      Globals.move_steps hrooted.wellFormed hr (Globals.isScope_iff.mpr (.inl hfile))
    exact (h.steps hsteps).release (s.root :: s.kept)
  | naming => exact h.reshaped (Naming.nameAll_reshaped s.settings w s.root)
  | bridge => exact h
  | managed => exact h

theorem OverlayPass.applyAll_signed (hrooted : Rooted s w) (h : Signed w)
    (passes : List OverlayPass) :
    Signed (applyAll s w passes).1 := by
  induction passes generalizing w with
  | nil => exact h
  | cons pass rest ih => exact ih (apply_rooted hrooted pass) (apply_signed hrooted h pass)

/-- Passes over what the front end has read leave symbols that tell where nodes stand. -/
theorem Passes.apply_signed (hunits : ∀ u ∈ units, u.IsRead) (h : Signed w)
    (hroot : w.forest.content? s.root = some Node.root) (p : Passes) :
    Signed (p.apply s units w).1 := by
  have hgrown := RawPass.applyAll_grown hunits h hroot p.raw
  exact OverlayPass.applyAll_signed ⟨hgrown.signed.wellFormed, Node.root,
    hgrown.kept s.root _ hroot, rfl⟩
    hgrown.signed p.overlay

namespace Header

/-- The units of a survey are those that have been inserted. -/
theorem mem_of_mem_insertUnit {v : HeaderUnit} {us : List HeaderUnit} (h : v ∈ insertUnit u us) :
    v = u ∨ v ∈ us := by
  induction us with
  | nil => exact .inl (List.mem_singleton.mp h)
  | cons first rest ih => grind [insertUnit]

/-- The front end has read all units of a survey that it is used for. -/
theorem Survey.isRead_of_ofRules {configuration : Configuration} {files : FileTree}
    {rules : ExportRules} :
    ∀ u ∈ (Survey.ofRules .builtin configuration files rules).units, u.IsRead := by
  have hadd : ∀ (survey : Survey) (path file : Path) (content : Content), (∀ u ∈ survey.units,
      u.IsRead) → ∀ u ∈ (survey.add file (FrontEnd.builtin configuration path content)).units,
          u.IsRead := by
    intro survey path file content h u hu
    unfold Survey.add at hu
    cases hresult : (FrontEnd.builtin configuration path content).result with
    | error e =>
      rw [hresult] at hu
      exact h u hu
    | ok unit =>
      rw [hresult] at hu
      rcases mem_of_mem_insertUnit hu with rfl | hold
      · exact ⟨configuration, path, content, hresult⟩
      · exact h u hold
  have hfiles : ∀ (files : List (String × Content)) (directory : Path) (survey : Survey),
      (∀ u ∈ survey.units, u.IsRead) →
        ∀ u ∈ (files.foldl (fun s file => s.add (directory.join file.1)
        (FrontEnd.builtin configuration (directory.join file.1) file.2)) survey).units,
            u.IsRead := by
    intro files directory
    induction files with
    | nil => exact fun _ h => h
    | cons file rest ih => exact fun survey h => ih _ (hadd survey _ _ file.2 h)
  unfold Survey.ofRules
  suffices h : ∀ (paths : List ParsePath) (survey : Survey), (∀ u ∈ survey.units, u.IsRead) →
      ∀ u ∈ (paths.foldl (Survey.addParsePath .builtin configuration files) survey).units,
          u.IsRead from
    h rules.parsePaths {} nofun
  intro paths
  induction paths with
  | nil => exact fun _ h => h
  | cons path rest ih =>
    refine fun survey h => ih _ ?_
    unfold Survey.addParsePath
    split
    · exact h
    · exact hfiles _ path.directory survey h

end Header

namespace Generator

variable {g : Generator} {others : List NodeId}

/-- The workspaces that loading rules and generating namespaces lead to while headers are read by
the front end itself. -/
inductive ReachedReading : Workspace → Prop
  | start : ReachedReading {}
  | load {g : Generator} (rules : Rules) (h : ReachedReading g.workspace) :
      ReachedReading (g.withRules rules).workspace
  | run {g : Generator} (others : List NodeId) (rules : ExportRules) (hfrontEnd : g.frontEnd =
      .builtin)
      (h : ReachedReading g.workspace) : ReachedReading (g.generateOne others rules).1.workspace

theorem restart_signed (h : Signed g.workspace) (others : List NodeId) :
    Signed (g.restart others).2 :=
  (h.plant.release _).prune

/-- Whatever runs lead to is signed, as long as the headers are read by the front end itself. A
front end of another make could give names with colons in them. -/
theorem ReachedReading.signed (h : ReachedReading w) : Signed w := by
  induction h with
  | start => exact ⟨.empty, fun id n hn => by cases hn⟩
  | load rules _ ih =>
    have hplanted : ∀ (rules : List ExportRules) {w : Workspace}, Signed w →
        Signed (plantAll w rules).2 := by
      intro rules
      induction rules with
      | nil => exact fun h => h
      | cons first rest ih => exact fun h => ih h.plant
    exact (hplanted rules.namespaces ih).release _
  | @run g others rules hfrontEnd _ ih =>
    rw [generateOne_workspace]
    refine Passes.apply_signed ?_ (restart_signed ih others) (restart_root ih.wellFormed).1 g.passes
    rw [survey, hfrontEnd]
    exact Header.Survey.isRead_of_ofRules

end Generator

/-- While a raw pass goes over headers that the front end has read, from a new root and whatever raw
passes have gone over them before, its frames follow the containers of each header, and after each
header the root alone is left. -/
theorem RawPass.frames_follow {g : Generator} {others : List NodeId}
    (hg : Generator.ReachedReading g.workspace) (hroot : s.root = (g.restart others).1)
    {before after : List HeaderUnit} (hunits : units = before ++ u :: after)
    (hread : ∀ u ∈ units, u.IsRead) (earlier : List RawPass) (pass : RawPass) :
    let start : Workspace := earlier.foldl (RawPass.apply s units) (g.restart others).2
    let reached := ((before.forM (Pass.header (pass.visit s) s.root)).run {}).run start
    let watched := (((Watched.header (pass.visit s) s.root u).run {}).run reached.1.2).run reached.2
    ((Pass.header (pass.visit s) s.root u).run reached.1.2).run reached.2 = (((), watched.1.2),
      watched.2) ∧ watched.1.2.frames = [some s.root] ∧
      ∀ v ∈ watched.1.1.2.sights, v.Follows pass.opens u.root s.root := by
  intro start reached watched
  subst hunits
  obtain ⟨hbefore, hrest⟩ := List.forall_mem_append.mp hread
  have hnew : (g.restart others).2.forest.content? s.root = some Node.root :=
    hroot ▸ (Generator.restart_root hg.signed.wellFormed).1
  have hstart := applyAll_grown hread (Generator.restart_signed hg.signed others) hnew earlier
  have hstartRoot := hstart.kept s.root _ hnew
  have hreached : Grown start reached.2 := apply_grown hbefore hstart.signed hstartRoot pass
  obtain ⟨sights, hwatched, -, hfollows⟩ :=
    header_watched (List.forall_mem_cons.mp hrest).1.shown hreached.signed
    (hreached.kept s.root _ hstartRoot) reached.1.2 pass
  have heq : watched = _ := hwatched
  rw [heq]
  exact ⟨header_run s u reached.1.2 reached.2 pass, rfl, hfollows⟩

/-- The linkage block has no part in symbols, and nothing is seen inside of the namespace without a
name and the template. -/
theorem RawPass.frames_follow_linked :
    ∃ u : HeaderUnit,
      (Header.FrontEnd.builtin {} ⟨"A.h"⟩ (.text ("extern \"C\" \x7b namespace N \x7b " ++
          "class A { int x; }; namespace { int y; } template <class T> class B { }; int z; " ++
          "\x7d \x7d"))).result = .ok u ∧
      let g := Generator.ofDirectories ⟨""⟩ ⟨"/o"⟩
      let s : Surroundings :=
        { settings := g.settings, rules := { name := "M" }, root := (g.restart []).1 }
      let start := [RawPass.containers].foldl (RawPass.apply s [u]) (g.restart []).2
      let watched := (((Watched.header (RawPass.members.visit s) s.root u).run {}).run {}).run start
      watched.1.2.frames = [some s.root] ∧
        (∀ v ∈ watched.1.1.2.sights, v.Follows RawPass.members.opens u.root s.root) ∧
        watched.1.1.2.sights.map
          (fun v => (v.leaf?.map (·.name), v.top?.map fun id => (start.node id).symbol)) =
          [(none, some ""), (none, some "N"), (none, some "N::A"), (some "x", some "N::A"),
            (none, none), (none, none), (some "z", some "N")] := by
  refine exists_ok_of_decide (fun u =>
    let g := Generator.ofDirectories ⟨""⟩ ⟨"/o"⟩
    let s : Surroundings :=
      { settings := g.settings, rules := { name := "M" }, root := (g.restart []).1 }
    let start := [RawPass.containers].foldl (RawPass.apply s [u]) (g.restart []).2
    let watched := (((Watched.header (RawPass.members.visit s) s.root u).run {}).run {}).run start
    watched.1.1.2.sights.map
      (fun v => (v.leaf?.map (·.name), v.top?.map fun id => (start.node id).symbol)) =
      [(none, some ""), (none, some "N"), (none, some "N::A"), (some "x", some "N::A"),
        (none, none), (none, none),
          (some "z", some "N")]) (by decide +kernel) fun u hu hsights => ?_
  intro g s start watched
  have hread : ∀ v ∈ [u], v.IsRead := List.forall_mem_singleton.mpr ⟨_, _, _, hu⟩
  obtain ⟨-, hframes, hfollows⟩ :=
    @RawPass.frames_follow s [u] u g [] .start rfl [] [] rfl hread [.containers] .members
  exact ⟨hframes, hfollows, hsights⟩

end Interop
