import Interop.Files.Tree

namespace Interop

/-- A generated file. -/
structure Artifact where
  name : String
  text : String
deriving DecidableEq, Repr

namespace Artifact

/-- How the writing of an artifact ends. -/
inductive Outcome where
  | written
  /-- The file was there with the same text. -/
  | unchanged
  /-- The directory or the file cannot be written. -/
  | failed
deriving DecidableEq, Repr

/-- The path of an artifact in its directory. -/
def path (directory : Path) (a : Artifact) : Path :=
  directory.join a.name

/-- Writes an artifact into a directory, which is made if it is missing. -/
def write (t : FileTree) (directory : Path) (a : Artifact) : FileTree × Outcome :=
  if t.text? (a.path directory) = some a.text then (t, .unchanged)
  else
    match t.makeDirectory directory with
    | (t, false) => (t, .failed)
    | (t, true) =>
      match t.write? (a.path directory) (.text a.text) with
      | none => (t, .failed)
      | some t => (t, .written)

/-- Writes artifacts one after the other, until one fails. -/
def writeAll (t : FileTree) (directory : Path) : List Artifact → FileTree × Bool
  | [] => (t, true)
  | a :: rest =>
    match a.write t directory with
    | (t, .failed) => (t, false)
    | (t, _) => writeAll t directory rest

end Artifact

end Interop
