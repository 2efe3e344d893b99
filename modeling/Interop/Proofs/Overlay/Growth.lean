import Interop.Overlay.Workspace
import Interop.Proofs.Marshal.Resolution
import Interop.Proofs.Overlay.Lineage

namespace Interop.Overlay

/-- Whether a node is linked to no other, and is no proxy. -/
structure Node.IsFresh (n : Node) : Prop where
  parent : n.parent? = none
  children : n.children = []
  plain : n.isProxy = false

@[simp]
theorem Node.unlinked_kind (n : Node) : n.unlinked.kind = n.kind := rfl

@[simp]
theorem Node.unlinked_name (n : Node) : n.unlinked.name = n.name := rfl

@[simp]
theorem Node.unlinked_symbol (n : Node) : n.unlinked.symbol = n.symbol := rfl

/-- A fresh node has no links to lose. -/
theorem Node.IsFresh.unlinked {n : Node} (h : n.IsFresh) : n.unlinked = n := by
  cases n
  cases h.parent
  cases h.children
  rfl

namespace Forest

variable {f : Forest} {parent key : NodeId} {m n : Node}

/-- Behind a fresh node that is pushed below a parent, all others hold what they held. -/
theorem content?_pushBelow (h : n.IsFresh) (f : Forest) (parent key : NodeId) :
    (f.pushBelow parent n).content? key = if key = f.nextId then some n else f.content? key := by
  rw [pushBelow, content?_attach, content?_push, h.unlinked]

/-- A node that is there is not at the next free place. -/
theorem ne_nextId_of_content? (hparent : f.content? parent = some m) : parent ≠ f.nextId := by
  obtain ⟨_, hn, _⟩ := Option.map_eq_some_iff.mp hparent
  exact ne_nextId hn

/-- Pushing a node without links keeps the links in agreement. -/
theorem Paired.push (h : f.Paired) (hparent : n.parent? = none) (hchildren : n.children = []) :
    (f.push n).Paired := by
  refine ⟨fun parent child => ?_, fun hp => ?_⟩
  · rw [children_push hchildren, parent?_push hparent]
    exact h.links parent child
  · rw [parent?_push hparent] at hp
    exact h.parent_ne hp

section Paired

variable (hf : f.Paired) (hparent : f.content? parent = some m) (hfresh : n.IsFresh)
include hf hparent hfresh

/-- The new node has the parent it is pushed below, and all others keep theirs. -/
theorem Paired.parent?_pushBelow (key : NodeId) :
    (f.pushBelow parent n).parent? key = if key = f.nextId then some parent else f.parent? key := by
  have hpushed := hf.push hfresh.parent hfresh.children
  rw [pushBelow, hpushed.parent?_attach (ne_nextId_of_content? hparent)
    (by rw [content?_push, if_pos rfl]), parent?_push hfresh.parent]

/-- The new node is the last child of its parent and no child elsewhere. -/
theorem Paired.children_pushBelow (key : NodeId) :
    (f.pushBelow parent n).children key =
      f.children key ++ if key = parent then [f.nextId] else [] := by
  have hpushed := hf.push hfresh.parent hfresh.children
  have hne := ne_nextId_of_content? hparent
  have hkept : (f.children key).filter (· != f.nextId) = f.children key := by
    rw [List.filter_eq_self]
    intro c hc
    rw [bne_iff_ne]
    rintro rfl
    obtain ⟨k, hk⟩ := exists_content_of_parent? ((hf.links key f.nextId).mp hc)
    exact ne_nextId_of_content? hk rfl
  rw [pushBelow, hpushed.children_attach (by rw [content?_push, if_neg hne, hparent]) hne,
    children_push hfresh.children, hkept]

end Paired

section PushBelow

variable (hf : f.WellFormed) (hparent : f.content? parent = some m) (hfresh : n.IsFresh)
include hf hparent hfresh

/-- In a well-formed forest, pushing a fresh node below a parent gives it that parent and changes no
other. -/
theorem WellFormed.parent?_pushBelow (key : NodeId) :
    (f.pushBelow parent n).parent? key = if key = f.nextId then some parent else f.parent? key :=
  hf.paired.parent?_pushBelow hparent hfresh key

/-- In a well-formed forest, pushing a fresh node below a parent makes it the last child there. -/
theorem WellFormed.children_pushBelow (key : NodeId) :
    (f.pushBelow parent n).children key =
      f.children key ++ if key = parent then [f.nextId] else [] :=
  hf.paired.children_pushBelow hparent hfresh key

/-- A well-formed forest stays so when a fresh node is pushed below a container. -/
theorem WellFormed.pushBelow (hcontainer : m.kind.isContainer = true) :
    (f.pushBelow parent n).WellFormed := by
  have hpushed := hf.push hfresh.parent hfresh.children hfresh.plain
  have hne := ne_nextId_of_content? hparent
  refine hpushed.attach (by rw [content?_push, if_neg hne, hparent]) hne
    (by rw [content?_push, if_pos rfl]) hcontainer fun _ => ?_
  obtain ⟨_, hn, _⟩ := Option.map_eq_some_iff.mp hparent
  exact lt_size hn

/-- The new node is within what its parent is within, and nothing else is within anything new. -/
theorem WellFormed.within_pushBelow {top id : NodeId} (hid : id ≠ f.nextId) :
    (f.pushBelow parent n).Within top id ↔ f.Within top id := by
  have hparents := hf.parent?_pushBelow hparent hfresh
  constructor
  · intro hwithin
    induction hwithin with
    | self => exact .self
    | step hstep _ ih =>
      rw [hparents, if_neg hid] at hstep
      obtain ⟨_, hlive, _⟩ := hf.exists_parent hstep
      exact .step hstep (ih (ne_nextId_of_content? hlive))
  · intro hwithin
    induction hwithin with
    | self => exact .self
    | step hstep _ ih =>
      obtain ⟨_, hlive, _⟩ := hf.exists_parent hstep
      refine .step ?_ (ih (ne_nextId_of_content? hlive))
      rw [hparents, if_neg hid, hstep]

end PushBelow

end Forest

/-- After some names are registered for a node they stand for it, and all others for what they
did. -/
theorem Symbols.get?_foldl_insert (names : List String) (s : Symbols) (id : NodeId) (key : String) :
    (names.foldl (·.insert · id) s).entries.get? key =
      if key ∈ names then some id else s.entries.get? key := by
  induction names generalizing s with
  | nil => simp
  | cons name names ih =>
    rw [List.foldl_cons, ih, Symbols.insert, Table.get?_insert]
    by_cases hkey : key ∈ names
    · simp [hkey]
    · by_cases hname : key = name
      · simp [hname]
      · simp [hkey, hname]

namespace Workspace

variable {w w' : Workspace} {parent : NodeId} {m n : Node} {names : List String}

/-- Whether a symbol is registered for a class or enum that is there. -/
def HasType (w : Workspace) (symbol : String) : Prop :=
  ∃ id n, w.symbols.entries.get? symbol = some id ∧ w.forest.content? id = some n ∧
    (n.kind = .classType ∨ n.kind = .enumeration)

/-- A name is known where one of the symbols it may refer to has a type. -/
theorem knows_iff (s : Surroundings) (w : Workspace) (scope name : String) :
    (s.mapper w scope).knows name = true ↔
      ∃ symbol ∈ Symbol.candidates scope (Symbol.unrooted name), w.HasType symbol := by
  rw [Mapper.knows, Mapper.typeNamed?, Symbols.typeNamed?, List.findSome?_isSome_iff]
  constructor
  · rintro ⟨symbol, hmem, hsome⟩
    refine ⟨symbol, hmem, ?_⟩
    obtain ⟨id, hid⟩ := Option.isSome_iff_exists.mp hsome
    obtain ⟨hget, hany⟩ := Option.filter_eq_some_iff.mp hid
    obtain ⟨n, hn, hkind⟩ := (Option.any_eq_true _ _).mp hany
    exact ⟨id, n.unlinked, (Option.filter_eq_some_iff.mp hget).1, Forest.content?_of_node? hn,
      by simpa using hkind⟩
  · rintro ⟨symbol, hmem, id, n, hget, hcontent, hkind⟩
    refine ⟨symbol, hmem, Option.isSome_iff_exists.mpr ⟨id, ?_⟩⟩
    obtain ⟨k, hk, rfl⟩ := Option.map_eq_some_iff.mp hcontent
    rw [Option.filter_eq_some_iff]
    refine ⟨Option.filter_eq_some_iff.mpr ⟨hget, ?_⟩, ?_⟩
    · exact (Forest.contains_iff_content? _ _).mpr ⟨_, hcontent⟩
    · exact (Option.any_eq_true _ _).mpr ⟨k, hk, by simpa using hkind⟩

/-- Where types keep their symbols, all types that crossed the bridge cross it, also in a scope
further inside. -/
theorem mapper_below {s : Surroundings} {scope scope' : String}
    (htypes : ∀ symbol, w.HasType symbol → w'.HasType symbol)
    (hscope : ∀ name symbol, symbol ∈ Symbol.candidates scope name →
      symbol ∈ Symbol.candidates scope' name) :
    (s.mapper w scope).Below (s.mapper w' scope') where
  rules := rfl
  knows name hknows := by
    rw [knows_iff] at hknows ⊢
    obtain ⟨symbol, hmem, htype⟩ := hknows
    exact ⟨symbol, hscope _ symbol hmem, htypes symbol htype⟩

/-- Growing a workspace adds one node and leaves what the others hold. -/
theorem content?_grow (hfresh : n.IsFresh) (w : Workspace) (parent key : NodeId)
    (names : List String) :
    (w.grow parent n names).forest.content? key =
      if key = w.forest.nextId then some n else w.forest.content? key :=
  Forest.content?_pushBelow hfresh w.forest parent key

/-- A new node takes the place of none. -/
theorem content?_grow_of_some (hfresh : n.IsFresh) {parent key : NodeId} {names : List String}
    {k : Node} (hk : w.forest.content? key = some k) :
    (w.grow parent n names).forest.content? key = some k := by
  rw [content?_grow hfresh, if_neg (Forest.ne_nextId_of_content? hk), hk]

/-- Growing a workspace registers the given names for the new node and no others. -/
theorem get?_grow (w : Workspace) (parent : NodeId) (n : Node) (names : List String)
    (key : String) :
    (w.grow parent n names).symbols.entries.get? key =
      if key ∈ names then some w.forest.nextId else w.symbols.entries.get? key :=
  Symbols.get?_foldl_insert names w.symbols w.forest.nextId key

/-- A new node leaves the symbols of types alone if it is a type itself or takes no name that is in
use. -/
theorem HasType.grow {symbol : String} (h : w.HasType symbol) (hfresh : n.IsFresh)
    (hnames : (n.kind = .classType ∨ n.kind = .enumeration) ∨ ∀ name ∈ names,
      w.symbol? name = none) :
    (w.grow parent n names).HasType symbol := by
  obtain ⟨id, k, hget, hcontent, hkind⟩ := h
  by_cases hmem : symbol ∈ names
  · rcases hnames with hn | hunused
    · refine ⟨w.forest.nextId, n, by rw [get?_grow, if_pos hmem], ?_, hn⟩
      rw [content?_grow hfresh, if_pos rfl]
    · have hnone := hunused symbol hmem
      rw [symbol?, Symbols.get?, hget] at hnone
      have hlive := (Forest.contains_iff_content? w.forest id).mpr ⟨k, hcontent⟩
      rw [Option.filter_some, if_pos hlive] at hnone
      cases hnone
  · exact ⟨id, k, by rw [get?_grow, if_neg hmem, hget], content?_grow_of_some hfresh hcontent,
      hkind⟩

theorem node_eq (w : Workspace) (id : NodeId) : w.node id = (w.forest.node? id).getD default := rfl

theorem node_of_node? {id : NodeId} (h : w.forest.node? id = some n) : w.node id = n := by
  rw [node_eq, h]
  rfl

/-- What a workspace tells of a node that is there agrees with its content. -/
theorem node_unlinked {id : NodeId} (h : w.forest.content? id = some n) :
    (w.node id).unlinked = n := by
  obtain ⟨k, hk, rfl⟩ := Option.map_eq_some_iff.mp h
  rw [node_of_node? hk]

theorem parent?_node (w : Workspace) (id : NodeId) : (w.node id).parent? = w.forest.parent? id := by
  rw [node_eq]
  unfold Forest.parent?
  cases w.forest.node? id <;> rfl

theorem parent?_of_node {id parent : NodeId} (h : (w.node id).parent? = some parent) :
    w.forest.parent? id = some parent :=
  (w.parent?_node id).symm.trans h

/-- A node of an exported kind is there. -/
theorem content?_of_kind {id : NodeId} (h : (w.node id).kind ≠ .unexposed) :
    w.forest.content? id = some (w.node id).unlinked := by
  cases hnode : w.forest.node? id with
  | none =>
    rw [node_eq, hnode] at h
    exact absurd rfl h
  | some k => rw [node_of_node? hnode, Forest.content?_of_node? hnode]

end Workspace

end Interop.Overlay
