import Interop.Native.Declaration

namespace Interop.Overlay

/-- The identity of a node in its forest. -/
structure NodeId where
  index : Nat
deriving DecidableEq, Repr, Inhabited

/-- A parameter of an exported function. -/
structure NodeParameter where
  name : String
  type? : Option NativeType := none
  /-- The default value as the header writes it. -/
  nativeDefault? : Option String := none
  /-- The default value on the managed side, once it is known. -/
  managedDefault? : Option String := none
deriving Repr, Inhabited

/-- A node of the overlay. -/
structure Node where
  kind : Kind
  name : String
  /-- The qualified native name. -/
  symbol : String
  access : Access := .exposed
  /-- The node is passed over by walks, which go on with its children. -/
  isProxy : Bool := false
  flags : Flags := {}
  isConstant : Bool := false
  type? : Option NativeType := none
  returnType? : Option NativeType := none
  parameters : List NodeParameter := []
  /-- The initializer of a variable or the value of an enumerator, as the header writes it. -/
  nativeValue? : Option String := none
  /-- The value on the managed side, once it is known. -/
  managedValue? : Option String := none
  /-- The name of the bridge function, or the stem of the names of accessors. -/
  bridgeName : String := ""
  /-- The header the node comes from. -/
  source? : Option Path := none
  children : List NodeId := []
  parent? : Option NodeId := none
deriving Repr

namespace Node

instance : Inhabited Node := ⟨{ kind := .unexposed, name := "", symbol := "" }⟩

/-- The root of a namespace's tree. -/
def root : Node := { kind := .file, name := "", symbol := "" }

/-- Whether the node declares something static; of classes, one without instances. -/
def isStatic (n : Node) : Bool :=
  n.flags.isStatic

/-- Whether the node may be overridden. -/
def isVirtual (n : Node) : Bool :=
  n.flags.isVirtual

end Node

/-- The nodes of a forest. A node that no tree in use holds any more is gone, and its place stays
empty. -/
structure Forest where
  slots : Array (Option Node) := #[]

namespace Forest

/-- The forest without nodes. -/
def empty : Forest := {}

/-- The node of an identifier, unless it is gone. -/
def node? (f : Forest) (id : NodeId) : Option Node :=
  f.slots[id.index]?.join

/-- Whether the node of an identifier is there. -/
def contains (f : Forest) (id : NodeId) : Bool :=
  (f.node? id).isSome

/-- A bound on the number of nodes. -/
def size (f : Forest) : Nat :=
  f.slots.size

/-- The identifier that the next new node will have. -/
def nextId (f : Forest) : NodeId :=
  ⟨f.slots.size⟩

/-- Adds a node that belongs to no tree yet; its identifier is `nextId`. -/
def push (f : Forest) (n : Node) : Forest :=
  ⟨f.slots.push (some n)⟩

/-- Changes a node. -/
def modify (f : Forest) (id : NodeId) (change : Node → Node) : Forest :=
  ⟨f.slots.modify id.index (·.map change)⟩

/-- The parent of a node. -/
def parent? (f : Forest) (id : NodeId) : Option NodeId :=
  (f.node? id).bind (·.parent?)

/-- The children of a node, in their order. -/
def children (f : Forest) (id : NodeId) : List NodeId :=
  ((f.node? id).map (·.children)).getD []

/-- Takes a node with everything below it out of its parent's children; a root stays what it is. -/
def detach (f : Forest) (child : NodeId) : Forest :=
  match f.parent? child with
  | none => f
  | some parent =>
    (f.modify parent fun n => { n with children := n.children.filter (· != child) }).modify child
      fun n => { n with parent? := none }

/-- Makes a node the last child of `parent`, wherever it was before. -/
def attach (f : Forest) (parent child : NodeId) : Forest :=
  ((f.detach child).modify child fun n => { n with parent? := some parent }).modify parent
    fun n => { n with children := n.children ++ [child] }

/-- Adds a new node as the last child of `parent`; its identifier is `nextId`. -/
def pushBelow (f : Forest) (parent : NodeId) (n : Node) : Forest :=
  (f.push n).attach parent f.nextId

/-- The nodes above a node, from its parent outwards, as long as the bound allows. -/
def lineageWithin (f : Forest) : (bound : Nat) → NodeId → List NodeId
  | 0, _ => []
  | bound + 1, id =>
    match f.parent? id with
    | none => []
    | some parent => parent :: lineageWithin f bound parent

/-- The nodes above a node, from its parent outwards to the root. In a forest no chain is longer
than the number of nodes. -/
def lineage (f : Forest) (id : NodeId) : List NodeId :=
  f.lineageWithin f.size id

/-- The nodes around a node, from the outermost in, without the root of the tree. -/
def ancestors (f : Forest) (id : NodeId) : List NodeId :=
  (f.lineage id).dropLast.reverse

/-- The first child with the given name. -/
def childNamed? (f : Forest) (id : NodeId) (name : String) : Option NodeId :=
  (f.children id).find? fun c => (f.node? c).any (·.name == name)

/-- The children of the given kind. -/
def childrenOfKind (f : Forest) (id : NodeId) (kind : Kind) : List NodeId :=
  (f.children id).filter fun c => (f.node? c).any (·.kind == kind)

/-- The number of nodes below a node, as deep as the bound allows. -/
def countWithin (f : Forest) : (bound : Nat) → NodeId → Nat
  | 0, _ => 0
  | bound + 1, id => ((f.children id).map fun c => 1 + countWithin f bound c).sum

/-- The number of nodes below a node. -/
def countBelow (f : Forest) (id : NodeId) : Nat :=
  f.countWithin f.size id

/-- Whether a node is one of `held` or lies below one of them. A chain of parents that never ends
holds its nodes by itself. -/
def isHeld (f : Forest) (held : List NodeId) : (bound : Nat) → NodeId → Bool
  | 0, _ => true
  | bound + 1, id =>
    held.contains id ||
      match f.parent? id with
      | none => false
      | some parent => isHeld f held bound parent

/-- The forest of the nodes that are held, or that a held node's tree holds. The others are gone,
and those below them that are held become roots. -/
def release (f : Forest) (held : List NodeId) : Forest :=
  let stays (id : NodeId) : Bool := f.contains id && f.isHeld held (f.size + 1) id
  ⟨f.slots.mapIdx fun i slot =>
    if stays ⟨i⟩ then
      slot.map fun n => if n.parent?.all stays then n else { n with parent? := none }
    else none⟩

end Forest

end Interop.Overlay
