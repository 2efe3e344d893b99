import Interop.Emit.Bridge
import Interop.Emit.Managed
import Interop.Export.Containers
import Interop.Export.Members
import Interop.Files.Artifact
import Interop.Naming.Bridge
import Interop.Overlay.Globals

namespace Interop

open Overlay

/-- A pass over headers. -/
inductive RawPass where
  /-- Makes the nodes of namespaces, classes and enums. -/
  | containers
  /-- Adds functions, variables and base classes. -/
  | members
deriving DecidableEq, Repr

namespace RawPass

/-- What the pass does at each step of a walk over a header. -/
def visit (s : Surroundings) : RawPass → WalkEvent → Declaration → Export.Pass Bool
  | containers => Export.Containers.visit s
  | members => Export.Members.visit s

/-- Applies the pass to units, one after the other. -/
def apply (s : Surroundings) (units : List HeaderUnit) (w : Workspace) (pass : RawPass) :
    Workspace :=
  (((units.forM (Export.Pass.header (pass.visit s) s.root)).run {}).run w).2

end RawPass

/-- A pass over the overlay of a namespace. -/
inductive OverlayPass where
  /-- Moves free functions and variables into classes. -/
  | globals
  /-- Gives bridge names and managed values. -/
  | naming
  /-- Makes the bridge file. -/
  | bridge
  /-- Makes the managed file. -/
  | managed
deriving DecidableEq, Repr

namespace OverlayPass

/-- The workspace that the pass leaves, and the artifact it makes, if it makes one. -/
def apply (s : Surroundings) (w : Workspace) : OverlayPass → Workspace × Option Artifact
  | globals => ((Globals.move w s.root).release (s.root :: s.kept), none)
  | naming => (Naming.nameAll s.settings w s.root, none)
  | bridge =>
    let text := (Emit.BridgeFile.ofTree s w s.root).text s
    (w, some ⟨Emit.BridgeFile.fileName s.rules, text⟩)
  | managed =>
    let text := (Emit.ManagedFile.ofTree s w s.root).text
    (w, some ⟨Emit.ManagedFile.fileName s.rules, text⟩)

/-- Applies passes one after the other, and collects their artifacts. -/
def applyAll (s : Surroundings) (w : Workspace) : List OverlayPass → Workspace × List Artifact
  | [] => (w, [])
  | pass :: rest =>
    let (w, artifact?) := pass.apply s w
    let (w, artifacts) := applyAll s w rest
    (w, artifact?.toList ++ artifacts)

end OverlayPass

/-- The passes of a run. Each pass is done with a namespace before the next one begins. -/
structure Passes where
  raw : List RawPass
  overlay : List OverlayPass
deriving DecidableEq, Repr

namespace Passes

/-- The passes that make both artifacts. -/
def standard : Passes where
  raw := [.containers, .members]
  overlay := [.globals, .naming, .bridge, .managed]

/-- No passes: headers are read, and nothing is made of them. -/
def none : Passes := ⟨[], []⟩

/-- The workspace and the artifacts that all passes make of units. -/
def apply (p : Passes) (s : Surroundings) (units : List HeaderUnit) (w : Workspace) :
    Workspace × List Artifact :=
  OverlayPass.applyAll s (p.raw.foldl (RawPass.apply s units) w) p.overlay

end Passes

end Interop
