import Interop.Path
import Interop.Table

namespace Interop.Header

/-- The owning path of each defined name. -/
structure Index where
  owners : Table Path := {}
deriving Repr

namespace Index

/-- The index without definitions. -/
def empty : Index := {}

/-- The path that owns a name. -/
def owner? (i : Index) (name : String) : Option Path :=
  i.owners.get? name

/-- Whether a name is defined somewhere. -/
def contains (i : Index) (name : String) : Bool :=
  i.owners.contains name

/-- The number of names. -/
def size (i : Index) : Nat :=
  i.owners.size

/-- Whether a definition in `path` makes it the owner of `name`: there is no owner yet, or `path`
comes before it. -/
def yields (i : Index) (name : String) (path : Path) : Bool :=
  match i.owner? name with
  | some owner => path.before owner
  | none => true

/-- Records a definition of `name` in `path`. -/
def record (i : Index) (name : String) (path : Path) : Index :=
  if i.yields name path then ⟨i.owners.insert name path⟩ else i

/-- Records the definitions of several names in `path`. -/
def recordAll (i : Index) (names : List String) (path : Path) : Index :=
  names.foldl (·.record · path) i

end Index

end Interop.Header
