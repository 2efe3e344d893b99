import Interop.Overlay.Naming
import Interop.Overlay.Workspace
import Interop.Proofs.Overlay.Growth

namespace Interop.Overlay

variable {k : Nat} {id key parent child : NodeId} {n : Node} {f : Forest}

/-- The identifier that is `k` places further on. -/
def NodeId.shift (id : NodeId) (k : Nat) : NodeId :=
  ⟨id.index + k⟩

/-- A node with links to identifiers that are further on. -/
def Node.shift (n : Node) (k : Nat) : Node :=
  { n with children := n.children.map (·.shift k), parent? := n.parent?.map (·.shift k) }

/-- A forest behind `k` places without nodes. -/
def Forest.shift (f : Forest) (k : Nat) : Forest :=
  ⟨Array.replicate k none ++ f.slots.map (·.map (·.shift k))⟩

/-- The symbols of a shifted forest. -/
def Symbols.shift (s : Symbols) (k : Nat) : Symbols :=
  ⟨⟨s.entries.entries.map fun e => (e.1, e.2.shift k)⟩⟩

/-- A workspace with a shifted forest. -/
def Workspace.shift (w : Workspace) (k : Nat) : Workspace :=
  ⟨w.forest.shift k, w.symbols.shift k⟩

/-- What passes over a shifted tree read. -/
def Surroundings.shift (s : Surroundings) (k : Nat) : Surroundings :=
  { s with root := s.root.shift k, kept := s.kept.map (·.shift k) }

@[simp]
theorem NodeId.shift_inj : id.shift k = key.shift k ↔ id = key := by
  constructor
  · intro h
    have hindex : id.index + k = key.index + k := congrArg NodeId.index h
    cases id
    cases key
    simp only [NodeId.mk.injEq] at hindex ⊢
    omega
  · intro h
    rw [h]

theorem NodeId.shift_beq : (id.shift k == key.shift k) = (id == key) := by
  rw [Bool.eq_iff_iff, beq_iff_eq, beq_iff_eq, NodeId.shift_inj]

/-- An identifier lies before a shifted forest or is shifted itself. -/
theorem NodeId.lt_or_shift (id : NodeId) (k : Nat) :
    id.index < k ∨ ∃ key : NodeId, id = key.shift k := by
  rcases Nat.lt_or_ge id.index k with hlt | hge
  · exact .inl hlt
  · refine .inr ⟨⟨id.index - k⟩, ?_⟩
    cases id
    simp only [NodeId.shift, NodeId.mk.injEq] at hge ⊢
    omega

theorem NodeId.contains_shift (ids : List NodeId) (id : NodeId) :
    (ids.map (·.shift k)).contains (id.shift k) = ids.contains id := by
  rw [Bool.eq_iff_iff, List.contains_iff_mem, List.contains_iff_mem, List.mem_map]
  constructor
  · rintro ⟨other, hother, heq⟩
    exact NodeId.shift_inj.mp heq ▸ hother
  · intro h
    exact ⟨id, h, rfl⟩

/-- A fresh node has no links that a shift could move. -/
theorem Node.IsFresh.shift (h : n.IsFresh) (k : Nat) : n.shift k = n := by
  cases n
  cases h.parent
  cases h.children
  rfl

namespace Forest

/-- A forest is known by its size and its nodes. -/
theorem eq_of_node? {f f' : Forest} (hsize : f.size = f'.size)
    (h : ∀ id, f.node? id = f'.node? id) : f = f' := by
  cases f with
  | mk slots =>
    cases f' with
    | mk slots' =>
      congr 1
      apply Array.ext hsize
      intro i hi hi'
      have hnode := h ⟨i⟩
      simp only [node?, Array.getElem?_eq_getElem hi, Array.getElem?_eq_getElem hi'] at hnode
      exact hnode

/-- A forest that is shifted is as much larger. -/
theorem size_shift (f : Forest) (k : Nat) : (f.shift k).size = f.size + k := by
  simp only [size, shift, Array.size_append, Array.size_replicate, Array.size_map]
  omega

/-- The next free place moves with a shift. -/
theorem nextId_shift (f : Forest) (k : Nat) : (f.shift k).nextId = f.nextId.shift k :=
  congrArg NodeId.mk (size_shift f k)

/-- A node stands as many places further on, with its links moved alike. -/
theorem node?_shift (f : Forest) (k : Nat) (id : NodeId) :
    (f.shift k).node? (id.shift k) = (f.node? id).map (·.shift k) := by
  have hlt : ¬id.index + k < k := by omega
  simp only [node?, shift, NodeId.shift, Array.getElem?_append, Array.size_replicate, if_neg hlt,
    Nat.add_sub_cancel, Array.getElem?_map]
  cases f.slots[id.index]? with
  | none => rfl
  | some slot => rfl

/-- The places in front of a shifted forest are free. -/
theorem node?_shift_of_lt (hid : id.index < k) : (f.shift k).node? id = none := by
  simp only [node?, shift, Array.getElem?_append, Array.size_replicate, if_pos hid,
    Array.getElem?_replicate]
  rfl

/-- A forest is the shifted one if its size and its nodes are. -/
theorem eq_shift {f' : Forest} (hsize : f'.size = f.size + k)
    (hlow : ∀ id : NodeId, id.index < k → f'.node? id = none)
    (h : ∀ id : NodeId, f'.node? (id.shift k) = (f.node? id).map (·.shift k)) : f' = f.shift k := by
  apply eq_of_node? (hsize.trans (size_shift f k).symm)
  intro id
  rcases id.lt_or_shift k with hlt | ⟨key, rfl⟩
  · rw [hlow id hlt, node?_shift_of_lt hlt]
  · rw [h, node?_shift]

theorem contains_shift (f : Forest) (k : Nat) (id : NodeId) :
    (f.shift k).contains (id.shift k) = f.contains id := by
  rw [contains, contains, node?_shift, Option.isSome_map]

/-- Children move along with a shift. -/
theorem children_shift (f : Forest) (k : Nat) (id : NodeId) :
    (f.shift k).children (id.shift k) = (f.children id).map (·.shift k) := by
  rw [children, children, node?_shift]
  cases f.node? id with
  | none => rfl
  | some n => rfl

/-- Parents move along with a shift. -/
theorem parent?_shift (f : Forest) (k : Nat) (id : NodeId) :
    (f.shift k).parent? (id.shift k) = (f.parent? id).map (·.shift k) := by
  rw [parent?, parent?, node?_shift]
  cases f.node? id with
  | none => rfl
  | some n => rfl

/-- Pushing and shifting may change places. -/
theorem push_shift (f : Forest) (k : Nat) (n : Node) :
    (f.push n).shift k = (f.shift k).push (n.shift k) := by
  simp only [push, shift, Array.map_push, Option.map_some, Array.append_push]

/-- Modifying and shifting may change places, if the changes agree on shifted nodes. -/
theorem modify_shift (f : Forest) (id : NodeId) {change : Node → Node} (change' : Node → Node)
    (h : ∀ n : Node, change' (n.shift k) = (change n).shift k) :
    (f.modify id change).shift k = (f.shift k).modify (id.shift k) change' := by
  symm
  apply eq_shift
  · rw [size_modify, size_modify, size_shift]
  · intro key hkey
    have hne : key ≠ id.shift k := by
      rintro rfl
      simp only [NodeId.shift] at hkey
      omega
    rw [node?_modify, if_neg hne, node?_shift_of_lt hkey]
  · intro key
    rw [node?_modify, node?_modify, node?_shift]
    simp only [NodeId.shift_inj]
    split
    · cases f.node? key with
      | none => rfl
      | some n => exact congrArg some (h n)
    · rfl

/-- Taking a node out and shifting may change places. -/
theorem detach_shift (f : Forest) (k : Nat) (child : NodeId) :
    (f.detach child).shift k = (f.shift k).detach (child.shift k) := by
  unfold detach
  rw [parent?_shift]
  cases f.parent? child with
  | none => rfl
  | some parent =>
    simp only [Option.map_some]
    rw [modify_shift _ _ fun n => { n with parent? := none },
      modify_shift _ _ fun n => { n with children := n.children.filter (· != child.shift k) }]
    · intro n
      simp only [Node.shift, List.filter_map]
      congr 3
      funext c
      simp only [Function.comp_apply, bne, NodeId.shift_beq]
    · exact fun _ => rfl

/-- Attaching and shifting may change places. -/
theorem attach_shift (f : Forest) (k : Nat) (parent child : NodeId) :
    (f.attach parent child).shift k = (f.shift k).attach (parent.shift k) (child.shift k) := by
  unfold attach
  rw [modify_shift _ _ fun n => { n with children := n.children ++ [child.shift k] },
    modify_shift _ _ fun n => { n with parent? := some (parent.shift k) }, detach_shift]
  · exact fun _ => rfl
  · intro n
    simp only [Node.shift, List.map_append, List.map_cons, List.map_nil]

/-- Pushing a node below a parent and shifting may change places. -/
theorem pushBelow_shift (f : Forest) (k : Nat) (parent : NodeId) (n : Node) :
    (f.pushBelow parent n).shift k = (f.shift k).pushBelow (parent.shift k) (n.shift k) := by
  unfold pushBelow
  rw [attach_shift, push_shift, nextId_shift]

/-- The way up from a node moves along with a shift, under the same bound. -/
theorem lineageWithin_shift (f : Forest) (k bound : Nat) (id : NodeId) :
    (f.shift k).lineageWithin bound (id.shift k) = (f.lineageWithin bound id).map (·.shift k) := by
  induction bound generalizing id with
  | zero => rfl
  | succ bound ih =>
    rw [lineageWithin, lineageWithin, parent?_shift]
    cases f.parent? id with
    | none => rfl
    | some parent =>
      simp only [Option.map_some, List.map_cons]
      rw [ih]

/-- A shift does not change what is held. -/
theorem isHeld_shift (f : Forest) (k bound : Nat) (held : List NodeId) (id : NodeId) :
    (f.shift k).isHeld (held.map (·.shift k)) bound (id.shift k) = f.isHeld held bound id := by
  induction bound generalizing id with
  | zero => rfl
  | succ bound ih =>
    rw [isHeld, isHeld, NodeId.contains_shift, parent?_shift]
    cases f.parent? id with
    | none => rfl
    | some parent =>
      simp only [Option.map_some]
      rw [ih]

section WellFormed

variable (h : f.WellFormed)
include h

/-- The whole way up moves along with a shift. A well-formed forest has a bound that is enough for
both. -/
theorem WellFormed.lineage_shift (k : Nat) (id : NodeId) :
    (f.shift k).lineage (id.shift k) = (f.lineage id).map (·.shift k) := by
  have hrank := f.rank_le_size id
  unfold lineage
  rw [lineageWithin_shift, size_shift, h.lineageWithin_eq (Nat.le_add_right_of_le hrank) hrank]

/-- Ancestors move along with a shift of a well-formed forest. -/
theorem WellFormed.ancestors_shift (k : Nat) (id : NodeId) :
    (f.shift k).ancestors (id.shift k) = (f.ancestors id).map (·.shift k) := by
  unfold ancestors
  rw [h.lineage_shift, ← List.map_dropLast, List.map_reverse]

/-- A shift does not change which nodes stay. The forest has to be well-formed, as the bounds
differ. -/
theorem WellFormed.stays_shift (k : Nat) (held : List NodeId) (id : NodeId) :
    (f.shift k).stays (held.map (·.shift k)) (id.shift k) = f.stays held id := by
  have hrank := f.rank_le_size id
  have hbounds : f.isHeld held (f.size + k + 1) id = f.isHeld held (f.size + 1) id := by
    rw [Bool.eq_iff_iff, h.isHeld_iff (by omega), h.isHeld_iff (by omega)]
  unfold stays
  rw [contains_shift, isHeld_shift, size_shift, hbounds]

/-- What a release keeps does not depend on where the forest begins. -/
theorem WellFormed.release_shift (k : Nat) (held : List NodeId) :
    (f.release held).shift k = (f.shift k).release (held.map (·.shift k)) := by
  symm
  apply eq_shift
  · rw [size_release, size_release, size_shift]
  · intro id hid
    rw [node?_release, node?_shift_of_lt hid, Option.map_none, ite_self]
  · intro id
    have hall : ∀ n : Node, (n.shift k).parent?.all ((f.shift k).stays (held.map (·.shift k))) =
        n.parent?.all (f.stays held) := by
      intro n
      cases hparent : n.parent? with
      | none => simp only [Node.shift, hparent, Option.map_none, Option.all_none]
      | some parent => simp only [Node.shift, hparent, Option.map_some, Option.all_some,
        h.stays_shift]
    rw [node?_release, node?_release, h.stays_shift, node?_shift]
    split
    · cases f.node? id with
      | none => rfl
      | some n =>
        simp only [Option.map_some, hall]
        split <;> rfl
    · rfl

end WellFormed

/-- Names do not depend on where nodes stand. -/
theorem namesOf_shift (f : Forest) (k : Nat) (p : Kind → Bool) (ids : List NodeId) :
    (f.shift k).namesOf p (ids.map (·.shift k)) = f.namesOf p ids := by
  induction ids with
  | nil => rfl
  | cons id rest ih =>
    unfold namesOf at ih ⊢
    rw [List.map_cons, List.filterMap_cons, List.filterMap_cons, node?_shift]
    cases f.node? id with
    | none => exact ih
    | some n =>
      simp only [Option.map_some, List.filterMap_cons]
      rw [ih]
      rfl

theorem isNamespace_shift (f : Forest) (k : Nat) (id : NodeId) (name : String) :
    (f.shift k).isNamespace (id.shift k) name = f.isNamespace id name := by
  rw [isNamespace, isNamespace, node?_shift, Option.any_map]
  rfl

/-- The managed namespace does not depend on where nodes stand. -/
theorem WellFormed.managedNamespace_shift (h : f.WellFormed) (k : Nat) (id : NodeId)
    (module : String) :
    (f.shift k).managedNamespace (id.shift k) module = f.managedNamespace id module := by
  unfold managedNamespace
  rw [h.ancestors_shift]
  cases f.ancestors id with
  | nil => rfl
  | cons top inner =>
    simp only [List.map_cons, isNamespace_shift]
    split
    · exact namesOf_shift f k _ inner
    · exact namesOf_shift f k _ (top :: inner)

/-- The managed path does not depend on where nodes stand. -/
theorem WellFormed.managedPath_shift (h : f.WellFormed) (k : Nat) (id : NodeId) :
    (f.shift k).managedPath (id.shift k) = f.managedPath id := by
  unfold managedPath
  rw [h.ancestors_shift, namesOf_shift, node?_shift]
  cases f.node? id with
  | none => rfl
  | some n => rfl

end Forest

/-- What a constant's name stands for in a shifted forest. -/
def Symbols.Constant.shift (c : Constant) (k : Nat) : Constant :=
  match c with
  | .replacement text => .replacement text
  | .node id => .node (id.shift k)

namespace Symbols

theorem lookup_shift (entries : List (String × NodeId)) (k : Nat) (name : String) :
    (entries.map fun e => (e.1, e.2.shift k)).lookup name = (entries.lookup name).map
    (·.shift k) := by
  induction entries with
  | nil => rfl
  | cons e rest ih =>
    obtain ⟨key, id⟩ := e
    rw [List.map_cons, List.lookup_cons, List.lookup_cons, ih]
    cases name == key <;> rfl

/-- A shifted table finds the shifted node in the shifted forest. -/
theorem get?_shift (s : Symbols) (f : Forest) (k : Nat) (name : String) :
    (s.shift k).get? (f.shift k) name = (s.get? f name).map (·.shift k) := by
  have hcontains : (f.shift k).contains ∘ (·.shift k) = f.contains := funext (f.contains_shift k)
  have hlookup : (s.shift k).entries.get? name = (s.entries.get? name).map (·.shift k) :=
    lookup_shift s.entries.entries k name
  unfold get?
  rw [hlookup, Option.filter_map, hcontains]

/-- Registering a name and shifting may change places. -/
theorem insert_shift (s : Symbols) (k : Nat) (name : String) (id : NodeId) :
    (s.insert name id).shift k = (s.shift k).insert name (id.shift k) := by
  have hput : ∀ entries : List (String × NodeId),
      (Table.put name id entries).map (fun e => (e.1, e.2.shift k)) =
        Table.put name (id.shift k) (entries.map fun e => (e.1, e.2.shift k)) := by
    intro entries
    induction entries with
    | nil => rfl
    | cons e rest ih =>
      simp only [Table.put, List.map_cons]
      split
      · rfl
      · rw [List.map_cons, ih]
  unfold insert shift Table.insert
  rw [hput]

theorem foldl_insert_shift (names : List String) (s : Symbols) (k : Nat) (id : NodeId) :
    (names.foldl (·.insert · id) s).shift k = names.foldl (·.insert · (id.shift k))
    (s.shift k) := by
  induction names generalizing s with
  | nil => rfl
  | cons name rest ih =>
    rw [List.foldl_cons, List.foldl_cons, ih, insert_shift]

/-- Pruning the table and shifting may change places. -/
theorem prune_shift (s : Symbols) (f : Forest) (k : Nat) :
    (s.prune f).shift k = (s.shift k).prune (f.shift k) := by
  have hcontains : ((fun e : String × NodeId => (f.shift k).contains e.2) ∘
      fun e : String × NodeId => (e.1, e.2.shift k)) = fun e => f.contains e.2 :=
    funext fun e => f.contains_shift k e.2
  unfold prune shift Table.filter
  rw [List.filter_map, hcontains]

/-- A type's name refers to the same node. -/
theorem typeNamed?_shift (s : Symbols) (f : Forest) (k : Nat) (scope name : String) :
    (s.shift k).typeNamed? (f.shift k) scope name = (s.typeNamed? f scope name).map
    (·.shift k) := by
  have hkind : (fun id => ((f.shift k).node? id).any fun n => n.kind == .classType || n.kind ==
      .enumeration) ∘
      (·.shift k) = fun id => (f.node? id).any fun n => n.kind == .classType || n.kind ==
          .enumeration := by
    funext id
    rw [Function.comp_apply, Forest.node?_shift, Option.any_map]
    rfl
  unfold typeNamed?
  rw [List.map_findSome?]
  congr 1
  funext symbol
  rw [Function.comp_apply, get?_shift, Option.filter_map, hkind]

/-- A shift does not change which constants are found. -/
theorem constantAt?_shift (s : Symbols) (f : Forest) (k : Nat) (replacements : Table String)
    (symbol : String) :
    (s.shift k).constantAt? (f.shift k) replacements symbol =
      (s.constantAt? f replacements symbol).map (·.shift k) := by
  unfold constantAt?
  rw [get?_shift]
  cases replacements.get? symbol with
  | some text => rfl
  | none =>
    cases s.get? f symbol with
    | none => rfl
    | some id => rfl

/-- A shift does not change the names under which a constant is searched. -/
theorem constantCandidates_shift (h : f.WellFormed) (k : Nat) (user? : Option NodeId)
    (name : String) :
    constantCandidates (f.shift k) (user?.map (·.shift k)) name =
      constantCandidates f user? name := by
  have hsymbol : ∀ id : NodeId, ((f.shift k).node? (id.shift k)).elim "" Node.symbol ++ "::" ++
      name = (f.node? id).elim "" Node.symbol ++ "::" ++ name := by
    intro id
    rw [Forest.node?_shift]
    cases f.node? id with
    | none => rfl
    | some n => rfl
  unfold constantCandidates
  cases user? with
  | none => rfl
  | some user =>
    simp only [Option.map_some, Option.elim_some, List.map_cons, hsymbol, h.lineage_shift,
      List.map_map, Function.comp_def]

/-- A constant's name stands for the same. -/
theorem constant?_shift (s : Symbols) (h : f.WellFormed) (k : Nat) (replacements : Table String)
    (user? : Option NodeId) (name : String) :
    (s.shift k).constant? (f.shift k) replacements (user?.map (·.shift k)) name =
      (s.constant? f replacements user? name).map (·.shift k) := by
  unfold constant?
  rw [constantCandidates_shift h, List.map_findSome?]
  congr 1
  funext symbol
  exact constantAt?_shift s f k replacements symbol

end Symbols

namespace Workspace

/-- The nodes of a shifted workspace are the shifted ones. -/
theorem node_shift (w : Workspace) (k : Nat) (id : NodeId) :
    (w.shift k).node (id.shift k) = (w.node id).shift k := by
  unfold node
  rw [show (w.shift k).forest = w.forest.shift k from rfl, Forest.node?_shift]
  cases w.forest.node? id with
  | none => rfl
  | some n => rfl

/-- Symbols do not depend on where nodes stand. -/
theorem symbol_shift (w : Workspace) (k : Nat) (id : NodeId) :
    ((w.shift k).node (id.shift k)).symbol = (w.node id).symbol := by
  rw [node_shift]
  rfl

/-- Kinds do not depend on where nodes stand. -/
theorem kind_shift (w : Workspace) (k : Nat) (id : NodeId) :
    ((w.shift k).node (id.shift k)).kind = (w.node id).kind := by
  rw [node_shift]
  rfl

/-- A symbol is found in a shifted workspace where it has been shifted to. -/
theorem symbol?_shift (w : Workspace) (k : Nat) (name : String) :
    (w.shift k).symbol? name = (w.symbol? name).map (·.shift k) :=
  Symbols.get?_shift w.symbols w.forest k name

/-- Growing and shifting may change places. -/
theorem grow_shift (w : Workspace) (k : Nat) (parent : NodeId) (n : Node) (names : List String) :
    (w.grow parent n names).shift k = (w.shift k).grow (parent.shift k) (n.shift k) names := by
  unfold grow shift
  simp only
  rw [Forest.pushBelow_shift, Symbols.foldl_insert_shift, Forest.nextId_shift]

/-- Growing by a fresh node and shifting may change places, with the same node on both sides. -/
theorem grow_fresh_shift (h : n.IsFresh) (w : Workspace) (k : Nat) (parent : NodeId)
    (names : List String) :
    (w.grow parent n names).shift k = (w.shift k).grow (parent.shift k) n names := by
  rw [grow_shift, h.shift]

/-- A change of a node of a workspace and a shift may change places, if the changes agree on shifted
nodes. -/
theorem modify_shift (w : Workspace) (id : NodeId) {change : Node → Node} (change' : Node → Node)
    (h : ∀ n : Node, change' (n.shift k) = (change n).shift k) :
    (w.modify id change).shift k = (w.shift k).modify (id.shift k) change' :=
  congrArg (Workspace.mk · (w.symbols.shift k)) (Forest.modify_shift w.forest id change' h)

/-- Releasing and shifting may change places in a well-formed forest. -/
theorem release_shift {w : Workspace} (h : w.forest.WellFormed) (k : Nat) (held : List NodeId) :
    (w.release held).shift k = (w.shift k).release (held.map (·.shift k)) :=
  congrArg (Workspace.mk · (w.symbols.shift k)) (h.release_shift k held)

theorem shift_zero (w : Workspace) : w.shift 0 = w := by
  have hid : (fun id : NodeId => id.shift 0) = id := rfl
  have hnode : (fun n : Node => n.shift 0) = id := by
    funext n
    simp [Node.shift, hid]
  simp [shift, Forest.shift, Symbols.shift, hnode, NodeId.shift]

end Workspace

end Interop.Overlay
