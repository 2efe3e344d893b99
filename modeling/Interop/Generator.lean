import Interop.Header.Survey
import Interop.Pass

namespace Interop

open Overlay

/-- An export namespace with what the last run has made of it. -/
structure ExportNamespace where
  rules : ExportRules
  /-- The units of its headers, in the order of their paths. -/
  units : List HeaderUnit := []
  /-- The root of its overlay. -/
  root : NodeId

/-- A generator between two runs. -/
structure Generator where
  settings : Settings
  namespaces : List ExportNamespace := []
  workspace : Workspace := {}
  configuration : Header.Configuration := {}
  frontEnd : Header.FrontEnd := .builtin
  passes : Passes := .standard
  files : FileTree := {}
  /-- The root of the namespace that raw passes were started on last. Its tree is kept until they
  are started on another one. -/
  started? : Option NodeId := none

/-- How far the generation of one namespace came. -/
structure Stage where
  outcome : ExportNamespace
  /-- The overlays as they were when the namespace was done. -/
  workspace : Workspace
  /-- Whether all artifacts could be written. -/
  isComplete : Bool

namespace Generator

/-- A generator without rules that reads headers below one directory and writes artifacts into
another. -/
def ofDirectories (source output : Path) : Generator where
  settings := { sourceDirectory := source, outputDirectory := output }

/-- Adds a tree that consists of a root only; the root's identifier comes first. -/
def plant (w : Workspace) : NodeId × Workspace :=
  (w.forest.nextId, { w with forest := w.forest.push Node.root })

/-- Plants a tree for each of the rules. -/
def plantAll (w : Workspace) : List ExportRules → List ExportNamespace × Workspace
  | [] => ([], w)
  | rules :: rest =>
    let (root, w) := plant w
    let (namespaces, w) := plantAll w rest
    ({ rules, root } :: namespaces, w)

/-- Replaces the rules. The output directory stays, and the trees of the earlier namespaces go. -/
def withRules (g : Generator) (rules : Rules) : Generator :=
  let (namespaces, workspace) := plantAll g.workspace rules.namespaces
  { g with
    settings := { rules.settings with outputDirectory := g.settings.outputDirectory }
    namespaces
    workspace := workspace.release (namespaces.map (·.root) ++ g.started?.toList) }

/-- Reads a rules document and replaces the rules by it. -/
def load (g : Generator) (document : Json) : Except ConfigError Generator :=
  (Rules.ofJson document g.settings.sourceDirectory).map g.withRules

/-- Sets the directory for artifacts. -/
def withOutput (g : Generator) (directory : Path) : Generator :=
  { g with settings.outputDirectory := directory }

/-- Starts a namespace anew: with a root of its own, without its earlier tree and without the
symbols of nodes that are gone. `others` are the roots of the other namespaces. -/
def restart (g : Generator) (others : List NodeId) : NodeId × Workspace :=
  let (root, w) := plant g.workspace
  let w := w.release (root :: others)
  (root, { w with symbols := w.symbols.prune w.forest })

/-- Generates one namespace. `others` are the roots of the other namespaces. -/
def generateOne (g : Generator) (others : List NodeId) (rules : ExportRules) : Generator × Stage :=
  let (root, w) := g.restart others
  let survey := Header.Survey.ofRules g.frontEnd g.configuration g.files rules
  let s : Surroundings :=
    { settings := g.settings, rules, root, headers := survey.units.map (·.path)
      index? := some survey.index, kept := others }
  let (workspace, artifacts) := g.passes.apply s survey.units w
  let (files, isComplete) := Artifact.writeAll g.files g.settings.outputDirectory artifacts
  let started? := if g.passes.raw.isEmpty then g.started? else some root
  ({ g with workspace, files, started? },
    ⟨{ rules, units := survey.units, root }, workspace, isComplete⟩)

/-- Generates the namespaces `rest`, the namespaces `done` being done. The run ends with a namespace
whose artifacts cannot be written. -/
def generateFrom (g : Generator) (done : List ExportNamespace) :
    (rest : List ExportNamespace) → Generator × List Stage
  | [] => ({ g with namespaces := done }, [])
  | n :: rest =>
    let (g, stage) := g.generateOne ((done ++ rest).map (·.root)) n.rules
    let done := done ++ [stage.outcome]
    if stage.isComplete then
      let (g, stages) := generateFrom g done rest
      (g, stage :: stages)
    else ({ g with namespaces := done ++ rest }, [stage])

/-- Runs the generator over all namespaces; the stages tell how far it came. -/
def generate (g : Generator) : Generator × List Stage :=
  g.generateFrom [] g.namespaces

end Generator

end Interop
