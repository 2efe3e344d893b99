import Interop.Header.FrontEnd
import Interop.Header.Index
import Interop.Rules.Document

namespace Interop.Header

/-- Adds a unit in its place, instead of an earlier unit of the same path. -/
def insertUnit (u : HeaderUnit) : List HeaderUnit → List HeaderUnit
  | [] => [u]
  | v :: rest =>
    if u.path.same v.path then u :: rest
    else if u.path.before v.path then u :: v :: rest
    else v :: insertUnit u rest

/-- Adds a failure behind those whose paths do not come later. -/
def insertFailure (path : Path) (failure : ReadFailure) :
    List (Path × ReadFailure) → List (Path × ReadFailure)
  | [] => [(path, failure)]
  | f :: rest =>
    if path.before f.1 then (path, failure) :: f :: rest
    else f :: insertFailure path failure rest

/-- What has been read so far. -/
structure Survey where
  units : List HeaderUnit := []
  failures : List (Path × ReadFailure) := []
  index : Index := .empty
deriving Repr

namespace Survey

/-- Adds what reading one header gives. -/
def add (s : Survey) (path : Path) (reading : Reading ReadFailure HeaderUnit) : Survey :=
  let s := { s with index := s.index.recordAll reading.defined path }
  match reading.result with
  | .ok u => { s with units := insertUnit u s.units }
  | .error failure => { s with failures := insertFailure path failure s.failures }

/-- Reads those of the named files that the parse path selects. -/
def addFiles (s : Survey) (frontEnd : FrontEnd) (config : Configuration) (parsePath : ParsePath)
    (files : List (String × Content)) : Survey :=
  (files.filter fun file => parsePath.files.selects file.1).foldl
    (fun s (name, content) =>
      let path := parsePath.directory.join name
      s.add path (frontEnd config path content)) s

/-- Reads the headers of a parse path; a path that is no directory is passed over. -/
def addParsePath (frontEnd : FrontEnd) (config : Configuration) (files : FileTree) (s : Survey)
    (parsePath : ParsePath) : Survey :=
  match files.scan? parsePath.directory with
  | none => s
  | some files => s.addFiles frontEnd config parsePath files

/-- Reads the headers of all parse paths of an export namespace; of two units with one path the
later counts. -/
def ofRules (frontEnd : FrontEnd) (config : Configuration) (files : FileTree)
    (rules : ExportRules) :
    Survey :=
  rules.parsePaths.foldl (addParsePath frontEnd config files) {}

end Survey

end Interop.Header
