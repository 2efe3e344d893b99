import Interop.Path

namespace Interop

/-- The content of a file. -/
inductive Content where
  | text (value : String)
  /-- Bytes that do not encode a text. -/
  | binary (bytes : List UInt8)
deriving DecidableEq, Repr

namespace Content

/-- The content that bytes make up: the text they encode, if they encode one. -/
def ofBytes (bytes : List UInt8) : Content :=
  match String.fromUTF8? ⟨bytes.toArray⟩ with
  | some value => .text value
  | none => .binary bytes

/-- The text of the content, if it is one. -/
def text? : Content → Option String
  | text value => some value
  | binary _ => none

end Content

/-- The names that lead from the root to a file or directory. -/
abbrev Location := List String

/-- What is found at a location. -/
inductive FileEntry where
  | directory
  | file (content : Content)
deriving DecidableEq, Repr

/-- A tree of files: an entry for each location at which there is something, the root apart. -/
structure FileTree where
  entries : List (Location × FileEntry) := []
deriving Repr

namespace FileTree

/-- The tree without entries. -/
def empty : FileTree := {}

/-- What is found at a location; the root is a directory. -/
def entry? (t : FileTree) (at_ : Location) : Option FileEntry :=
  if at_.isEmpty then some .directory else t.entries.lookup at_

/-- Whether there is a directory at a location. -/
def isDirectory (t : FileTree) (at_ : Location) : Bool :=
  t.entry? at_ == some .directory

/-- Whether a path can be followed at all: it holds no NUL character and fits into 4095 bytes. -/
def canFollow (path : Path) : Bool :=
  !path.text.toList.contains '\x00' && path.text.utf8ByteSize < 4096

/-- The number of bytes that the name of a file or directory may have. -/
def longestName : Nat := 255

/-- One step of a path from a location, which has to be a directory. Nothing needs to be found where
the step leads, but its name has to be one that something could have. -/
def step? (t : FileTree) (from_ : Location) (name : String) : Option Location :=
  if !t.isDirectory from_ then none
  else if name = "" ∨ name = "." then some from_
  else if name = ".." then some from_.dropLast
  else if name.utf8ByteSize ≤ longestName then some (from_ ++ [name])
  else none

/-- The location that a path refers to. -/
def locate? (t : FileTree) (path : Path) : Option Location :=
  if canFollow path then
    (Text.pieces '/' path.text.toList).foldlM (fun at_ name => t.step? at_ (String.ofList name)) []
  else none

/-- The content of the file that a path refers to, if there is one. -/
def content? (t : FileTree) (path : Path) : Option Content :=
  match (t.locate? path).bind t.entry? with
  | some (.file content) => some content
  | _ => none

/-- The text that a path refers to, if there is one. -/
def text? (t : FileTree) (path : Path) : Option String :=
  (t.content? path).bind Content.text?

/-- Replaces what is at a location. -/
def set (t : FileTree) (at_ : Location) (entry : FileEntry) : FileTree :=
  ⟨(t.entries.filter (·.1 != at_)) ++ [(at_, entry)]⟩

/-- Makes sure that a step of a path leads to a directory, by making one that is missing. There is
no location any more once a file is in the way. -/
def enterDirectory (state : FileTree × Option Location) (step : Component) :
    FileTree × Option Location :=
  let (t, at?) := state
  match at?.bind (t.step? · step.text) with
  | none => (t, none)
  | some next =>
    match t.entry? next with
    | some .directory => (t, some next)
    | some (.file _) => (t, none)
    | none => (t.set next .directory, some next)

/-- Makes the directory that components lead to, with all directories on the way, and tells where it
is. Directories that have been made stay even if this is not possible. -/
def enterAll (t : FileTree) (directory : List Component) : FileTree × Option Location :=
  (directory.filter (· != .root)).foldl enterDirectory (t, some [])

/-- Makes a directory with all directories on the way to it, and tells whether it is there
afterwards. A path that ends with a dot does not make the directory itself, but only those on the
way. -/
def makeDirectory (t : FileTree) (directory : Path) : FileTree × Bool :=
  if !canFollow directory then (t, false)
  else if directory.endsWithDot then
    let t := (t.enterAll directory.components.dropLast).1
    (t, (t.locate? directory).any t.isDirectory)
  else
    let (t, at?) := t.enterAll directory.components
    (t, at?.isSome)

/-- Writes a file. Its directory has to be there, and a directory cannot be overwritten. -/
def write? (t : FileTree) (path : Path) (content : Content) : Option FileTree := do
  let at_ ← t.locate? path
  if t.isDirectory at_ then none else some (t.set at_ (.file content))

/-- Writes a file after making its directory. Where this is not possible no file is written. -/
def place (t : FileTree) (path : Path) (content : Content) : FileTree :=
  let t := (t.makeDirectory path.parent).1
  (t.write? path content).getD t

/-- Removes a file; directories stay. -/
def remove (t : FileTree) (path : Path) : FileTree :=
  match t.content? path, t.locate? path with
  | some _, some at_ => ⟨t.entries.filter (·.1 != at_)⟩
  | _, _ => t

/-- The files below a directory with their locations relative to it. -/
def filesBelow (t : FileTree) (directory : Location) : List (Location × Content) :=
  t.entries.filterMap fun (at_, entry) =>
    match entry with
    | .directory => none
    | .file content =>
      if at_.take directory.length = directory then some (at_.drop directory.length, content)
        else none

/-- The files below the directory that a path refers to, each with its relative path written with
slashes, in the order of these paths as texts; nothing if there is no such directory. -/
def scan? (t : FileTree) (directory : Path) : Option (List (String × Content)) := do
  let at_ ← t.locate? directory
  if t.isDirectory at_ then
    let files := (t.filesBelow at_).map fun (names, content) => ("/".intercalate names, content)
    return files.mergeSort fun a b => a.1 ≤ b.1
  else none

end FileTree

end Interop
