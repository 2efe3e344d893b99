import Interop.Text.Split

namespace Interop

/-- One step of a path. -/
inductive Component where
  /-- The leading slash. -/
  | root
  /-- A leading dot. -/
  | current
  /-- Two dots. -/
  | parent
  /-- A file or directory name. -/
  | named (name : String)
deriving DecidableEq, Repr

namespace Component

/-- The components' order: root, dot, two dots, then names by their characters. -/
def lt : Component → Component → Bool
  | root, root => false
  | root, _ => true
  | current, root | current, current => false
  | current, _ => true
  | parent, parent | parent, root | parent, current => false
  | parent, named _ => true
  | named a, named b => decide (a < b)
  | named _, _ => false

/-- How the component is written between slashes; the root writes itself as a slash. -/
def text : Component → String
  | root => "/"
  | current => "."
  | parent => ".."
  | named name => name

end Component

/-- A path, as it was written. -/
structure Path where
  /-- The written form. -/
  text : String
deriving Repr, Inhabited

namespace Path

/-- The component a piece between slashes stands for; an empty piece and a dot stand for none. -/
private def component? (piece : List Char) : Option Component :=
  match piece with
  | [] | ['.'] => none
  | ['.', '.'] => some .parent
  | _ => some (.named (String.ofList piece))

/-- The components of a path, the leading slash or dot first. -/
def components (p : Path) : List Component :=
  match p.text.toList with
  | '/' :: rest => .root :: (Text.pieces '/' rest).filterMap component?
  | cs =>
    let steps := (Text.pieces '/' cs).filterMap component?
    match Text.pieces '/' cs with
    | ['.'] :: _ => .current :: steps
    | _ => steps

/-- Whether two paths have the same components. -/
def same (p q : Path) : Bool :=
  p.components == q.components

instance : BEq Path := ⟨same⟩

/-- The order of component lists: at the first difference the components decide, and a path comes
before those that continue it. -/
def componentsLt : List Component → List Component → Bool
  | [], [] => false
  | [], _ :: _ => true
  | _ :: _, [] => false
  | a :: as, b :: bs => if a = b then componentsLt as bs else a.lt b

/-- Whether `p` comes before `q`. -/
def before (p q : Path) : Bool :=
  componentsLt p.components q.components

/-- Whether the path begins at the root. -/
def isAbsolute (p : Path) : Bool :=
  p.text.startsWith "/"

/-- The path that `tail` names inside the directory `p`; an absolute `tail` stands for itself. -/
def join (p : Path) (tail : String) : Path :=
  if tail.startsWith "/" || p.text.isEmpty then ⟨tail⟩
  else if p.text.endsWith "/" then ⟨p.text ++ tail⟩
  else ⟨p.text ++ "/" ++ tail⟩

/-- The components of `p` below the directory `dir`, if it lies there. -/
def below? (p dir : Path) : Option (List Component) :=
  let ds := dir.components
  let ps := p.components
  if ps.take ds.length = ds then some (ps.drop ds.length) else none

/-- Components written with a slash between any two. -/
def spell (cs : List Component) : String :=
  "/".intercalate (cs.map Component.text)

/-- The path relative to the directory `dir`, written with single slashes; a path that does not lie
there is written whole. -/
def relativeTo (p dir : Path) : String :=
  spell ((p.below? dir).getD p.components)

/-- The path without its last component. -/
def parent (p : Path) : Path :=
  match p.components.dropLast with
  | .root :: rest => ⟨"/" ++ spell rest⟩
  | cs => ⟨spell cs⟩

/-- Whether the last step that the path is written with is a dot. -/
def endsWithDot (p : Path) : Bool :=
  ((Text.pieces '/' p.text.toList).filter (!·.isEmpty)).getLast? == some ['.']

end Path

end Interop
