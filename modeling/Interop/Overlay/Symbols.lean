import Interop.Overlay.Forest
import Interop.Symbol
import Interop.Table

namespace Interop.Overlay

/-- The registered names with their nodes. -/
structure Symbols where
  entries : Table NodeId := {}

namespace Symbols

/-- Registers a node under a name, in place of what was registered there. -/
def insert (s : Symbols) (name : String) (id : NodeId) : Symbols :=
  ⟨s.entries.insert name id⟩

/-- The node registered under a name, if it is still there. -/
def get? (s : Symbols) (f : Forest) (name : String) : Option NodeId :=
  (s.entries.get? name).filter f.contains

/-- Whether a name has a node that is still there. -/
def contains (s : Symbols) (f : Forest) (name : String) : Bool :=
  (s.get? f name).isSome

/-- The number of registered names, those of nodes that are gone included. -/
def size (s : Symbols) : Nat :=
  s.entries.size

/-- Forgets the names of nodes that are gone. -/
def prune (s : Symbols) (f : Forest) : Symbols :=
  ⟨s.entries.filter f.contains⟩

/-- The class or enum a type's name refers to inside a scope. The scopes around are tried from the
innermost out, and other things of the name are passed over. -/
def typeNamed? (s : Symbols) (f : Forest) (scope name : String) : Option NodeId :=
  (Symbol.candidates scope (Symbol.unrooted name)).findSome? fun symbol =>
    (s.get? f symbol).filter fun id =>
      (f.node? id).any fun n => n.kind == .classType || n.kind == .enumeration

/-- What a constant's name stands for. -/
inductive Constant where
  /-- A text that the rules give for the name. -/
  | replacement (text : String)
  /-- A node of the overlay. -/
  | node (id : NodeId)
deriving DecidableEq, Repr

/-- What one symbol stands for as a constant; the rules win over the overlay. -/
def constantAt? (s : Symbols) (f : Forest) (replacements : Table String) (symbol : String) :
    Option Constant :=
  ((replacements.get? symbol).map .replacement).or ((s.get? f symbol).map .node)

/-- The symbols a constant's name may refer to where `user?` uses it: the name itself, then the name
in the scope of the user and of each node above it, up to the root, whose scope is empty. -/
def constantCandidates (f : Forest) (user? : Option NodeId) (name : String) : List String :=
  let users := user?.elim [] fun user => user :: f.lineage user
  name :: users.map fun id => ((f.node? id).elim "" Node.symbol) ++ "::" ++ name

/-- What a constant's name stands for where `user?` uses it. -/
def constant? (s : Symbols) (f : Forest) (replacements : Table String) (user? : Option NodeId)
    (name : String) : Option Constant :=
  (constantCandidates f user? name).findSome? (s.constantAt? f replacements)

end Symbols

end Interop.Overlay
