import Mathlib.Logic.Relation
import Interop.Overlay.Forest

namespace Interop.Overlay

/-- A node without its links to others. -/
def Node.unlinked (n : Node) : Node :=
  { n with children := [], parent? := none }

namespace Forest

variable {f : Forest} {id key parent child : NodeId} {n : Node}

/-- The node of an identifier without its links. -/
def content? (f : Forest) (id : NodeId) : Option Node :=
  (f.node? id).map Node.unlinked

/-- The node that is pushed stands at the next free place, and all others where they were. -/
@[simp]
theorem node?_push (f : Forest) (n : Node) (key : NodeId) :
    (f.push n).node? key = if key = f.nextId then some n else f.node? key := by
  cases key with
  | mk index =>
    simp only [node?, push, nextId, NodeId.mk.injEq, Array.getElem?_push]
    split <;> rfl

/-- Modifying a node changes that node, if it is there, and no other. -/
@[simp]
theorem node?_modify (f : Forest) (id key : NodeId) (change : Node → Node) :
    (f.modify id change).node? key = if key =
      id then (f.node? key).map change else f.node? key := by
  cases id with
  | mk i =>
    cases key with
    | mk k =>
      simp only [node?, modify, NodeId.mk.injEq, Array.getElem?_modify]
      by_cases h : k = i
      · subst h
        cases f.slots[k]? <;> simp
      · simp [h, Ne.symm h]

@[simp]
theorem size_push (f : Forest) (n : Node) : (f.push n).size = f.size + 1 := by
  simp [size, push]

@[simp]
theorem size_modify (f : Forest) (id : NodeId) (change : Node → Node) :
    (f.modify id change).size = f.size := by
  simp [size, modify]

@[simp]
theorem size_detach (f : Forest) (child : NodeId) : (f.detach child).size = f.size := by
  unfold detach
  split <;> simp

@[simp]
theorem size_attach (f : Forest) (parent child : NodeId) :
    (f.attach parent child).size = f.size := by
  simp [attach]

/-- A node that is there has a place below the size. -/
theorem lt_size (h : f.node? id = some n) : id.index < f.size := by
  rw [← Nat.not_le]
  intro hle
  rw [node?, Array.getElem?_eq_none hle] at h
  cases h

/-- The next free place is free. -/
theorem node?_nextId (f : Forest) : f.node? f.nextId = none := by
  cases h : f.node? f.nextId with
  | none => rfl
  | some n => exact absurd (lt_size h) (Nat.lt_irrefl _)

theorem ne_nextId (h : f.node? id = some n) : id ≠ f.nextId := by
  rintro rfl
  rw [node?_nextId] at h
  cases h

theorem content?_of_node? (h : f.node? id = some n) : f.content? id = some n.unlinked := by
  rw [content?, h]
  rfl

theorem children_of_node? (h : f.node? id = some n) : f.children id = n.children := by
  rw [children, h]
  rfl

theorem parent?_of_node? (h : f.node? id = some n) : f.parent? id = n.parent? := by
  rw [parent?, h]
  rfl

/-- A forest contains the nodes that hold something. -/
theorem contains_iff_content? (f : Forest) (id : NodeId) :
    f.contains id = true ↔ ∃ n, f.content? id = some n := by
  rw [contains, content?]
  cases f.node? id with
  | none => simp
  | some n => simp

/-- A node with a parent is there. -/
theorem exists_content_of_parent? (h : f.parent? child = some parent) :
    ∃ n, f.content? child = some n := by
  obtain ⟨n, hn, _⟩ := Option.bind_eq_some_iff.mp h
  exact ⟨_, content?_of_node? hn⟩

/-- A node with children is there. -/
theorem exists_content_of_mem_children (h : child ∈ f.children parent) :
    ∃ n, f.content? parent = some n := by
  rw [children] at h
  cases hn : f.node? parent with
  | none => simp [hn] at h
  | some n => exact ⟨_, content?_of_node? hn⟩

/-- A change of the links of a node keeps all contents. -/
theorem content?_modify_links {change : Node → Node} (h : ∀ n, (change n).unlinked = n.unlinked)
    (f : Forest) (id key : NodeId) : (f.modify id change).content? key = f.content? key := by
  rw [content?, node?_modify, content?]
  split
  · cases f.node? key with
    | none => rfl
    | some n => exact congrArg some (h n)
  · rfl

/-- Taking a node out of the tree changes links only. -/
@[simp]
theorem content?_detach (f : Forest) (child key : NodeId) :
    (f.detach child).content? key = f.content? key := by
  unfold detach
  split
  · rfl
  · refine (content?_modify_links ?_ _ _ _).trans (content?_modify_links ?_ _ _ _)
    · exact fun _ => rfl
    · exact fun _ => rfl

/-- Attaching a node changes links only. -/
@[simp]
theorem content?_attach (f : Forest) (parent child key : NodeId) :
    (f.attach parent child).content? key = f.content? key := by
  refine (content?_modify_links ?_ _ _ _).trans ((content?_modify_links ?_ _ _ _).trans
    (content?_detach f child key))
  · exact fun _ => rfl
  · exact fun _ => rfl

/-- Whether parents and children agree, and nothing is its own parent. -/
structure Paired (f : Forest) : Prop where
  links : ∀ parent child, child ∈ f.children parent ↔ f.parent? child = some parent
  parent_ne : ∀ {parent child}, f.parent? child = some parent → parent ≠ child

/-- Whether parents and children agree, only containers have children, and containers come after
their parents. -/
structure WellFormed (f : Forest) : Prop where
  links : ∀ parent child, child ∈ f.children parent ↔ f.parent? child = some parent
  nodup : ∀ id, (f.children id).Nodup
  bare : ∀ id n, f.content? id = some n → n.kind.isContainer = false → f.children id = []
  deeper : ∀ id n parent, f.content? id = some n → n.kind.isContainer = true →
    f.parent? id = some parent → parent.index < id.index
  plain : ∀ id n, f.content? id = some n → n.isProxy = false

theorem wellFormed_empty : WellFormed {} := by
  have hnode : ∀ id, node? {} id = none := fun id => rfl
  refine ⟨fun parent child => ?_, fun id => ?_, fun id n h => ?_, fun id n parent h => ?_,
    fun id n h => ?_⟩
  · simp [children, parent?, hnode]
  · simp [children, hnode]
  all_goals simp [content?, hnode] at h

namespace WellFormed

/-- A parent is a container that is there. -/
theorem exists_parent (h : f.WellFormed) (hparent : f.parent? child = some parent) :
    ∃ n, f.content? parent = some n ∧ n.kind.isContainer = true := by
  have hmem := (h.links parent child).mpr hparent
  obtain ⟨n, hn⟩ := exists_content_of_mem_children hmem
  refine ⟨n, hn, ?_⟩
  rw [← Bool.not_eq_false]
  intro hleaf
  rw [h.bare parent n hn hleaf] at hmem
  cases hmem

/-- No node of a well-formed forest is its own parent. -/
theorem parent_ne (h : f.WellFormed) (hparent : f.parent? child = some parent) :
    parent ≠ child := by
  rintro rfl
  obtain ⟨n, hn, hcontainer⟩ := h.exists_parent hparent
  have hlt := h.deeper parent n parent hn hcontainer hparent
  omega

theorem paired (h : f.WellFormed) : f.Paired :=
  ⟨h.links, h.parent_ne⟩

/-- Parents of a well-formed forest have a place below its size. -/
theorem lt_size_of_parent (h : f.WellFormed) (hparent : f.parent? child = some parent) :
    parent.index < f.size := by
  obtain ⟨n, hn, _⟩ := h.exists_parent hparent
  obtain ⟨m, hm, _⟩ := Option.map_eq_some_iff.mp hn
  exact lt_size hm

end WellFormed

section Push

variable (hparent : n.parent? = none) (hchildren : n.children = [])

include hchildren in
theorem children_push (key : NodeId) : (f.push n).children key = f.children key := by
  rw [children, children, node?_push]
  split
  · rename_i heq
    rw [heq, node?_nextId]
    exact hchildren
  · rfl

include hparent in
theorem parent?_push (key : NodeId) : (f.push n).parent? key = f.parent? key := by
  rw [parent?, parent?, node?_push]
  split
  · rename_i heq
    rw [heq, node?_nextId]
    exact hparent
  · rfl

/-- A pushed node is there without its links. -/
theorem content?_push (f : Forest) (n : Node) (key : NodeId) :
    (f.push n).content? key = if key = f.nextId then some n.unlinked else f.content? key := by
  rw [content?, content?, node?_push]
  split <;> rfl

include hparent hchildren in
/-- A new node without parent and children begins a tree of its own. -/
theorem WellFormed.push (h : f.WellFormed) (hplain : n.isProxy = false) :
    (f.push n).WellFormed := by
  refine ⟨fun parent child => ?_, fun id => ?_, fun id m hm hleaf => ?_,
    fun id m parent hm hc hp => ?_, fun id m hm => ?_⟩
  · rw [children_push hchildren, parent?_push hparent]
    exact h.links parent child
  · rw [children_push hchildren]
    exact h.nodup id
  · rw [children_push hchildren]
    rw [content?_push] at hm
    split at hm
    · rename_i heq
      rw [heq, children, node?_nextId]
      rfl
    · exact h.bare id m hm hleaf
  · rw [parent?_push hparent] at hp
    rw [content?_push] at hm
    split at hm
    · rename_i heq
      rw [heq, parent?, node?_nextId] at hp
      cases hp
    · exact h.deeper id m parent hm hc hp
  · rw [content?_push] at hm
    split at hm
    · cases hm
      exact hplain
    · exact h.plain id m hm

end Push

section Detach

/-- A node without a parent need not be taken out. -/
theorem detach_of_root (h : f.parent? child = none) : f.detach child = f := by
  simp only [detach, h]

/-- Taking a node out of the children of its parent changes these two only. -/
theorem node?_detach (h : f.parent? child = some parent) (hne : parent ≠ child) (key : NodeId) :
    (f.detach child).node? key =
      if key = child then (f.node? key).map fun n => { n with parent? := none }
      else if key = parent then
        (f.node? key).map fun n => { n with children := n.children.filter (· != child) }
      else f.node? key := by
  simp only [detach, h, node?_modify]
  by_cases hkey : key = child
  · subst hkey
    simp [Ne.symm hne]
  · simp [hkey]

/-- A node that is taken out has no parent. The links of a forest need to agree only in both
directions. -/
theorem Paired.parent?_detach (h : f.Paired) (child key : NodeId) :
    (f.detach child).parent? key = if key = child then none else f.parent? key := by
  cases hparent : f.parent? child with
  | none =>
    rw [detach_of_root hparent]
    split
    · rename_i heq
      rw [heq, hparent]
    · rfl
  | some parent =>
    rw [parent?, node?_detach hparent (h.parent_ne hparent), parent?]
    by_cases hkey : key = child
    · rw [if_pos hkey, if_pos hkey]
      cases f.node? key <;> rfl
    · rw [if_neg hkey, if_neg hkey]
      split
      · cases f.node? key <;> rfl
      · rfl

/-- A node that is taken out is missing from all lists of children. -/
theorem Paired.children_detach (h : f.Paired) (child key : NodeId) :
    (f.detach child).children key = (f.children key).filter (· != child) := by
  have hkeep : f.parent? child ≠ some key →
      (f.children key).filter (· != child) = f.children key := by
    intro hkey
    rw [List.filter_eq_self]
    intro c hc
    rw [bne_iff_ne]
    rintro rfl
    exact hkey ((h.links key c).mp hc)
  cases hparent : f.parent? child with
  | none => rw [detach_of_root hparent, hkeep (by rw [hparent]; exact nofun)]
  | some parent =>
    rw [children, node?_detach hparent (h.parent_ne hparent)]
    by_cases hkey : key = child
    · rw [if_pos hkey, hkeep (hkey ▸ fun hself => h.parent_ne hself rfl), children]
      cases f.node? key <;> rfl
    · rw [if_neg hkey]
      split
      · rw [children]
        cases f.node? key <;> rfl
      · rename_i hne
        rw [hkeep (by rw [hparent]; exact fun heq => hne (Option.some.inj heq).symm), children]

/-- After a node of a well-formed forest is taken out, it has no parent and all others have
theirs. -/
theorem WellFormed.parent?_detach (h : f.WellFormed) (child key : NodeId) :
    (f.detach child).parent? key = if key = child then none else f.parent? key :=
  h.paired.parent?_detach child key

/-- After a node of a well-formed forest is taken out, all lists of children are without it. -/
theorem WellFormed.children_detach (h : f.WellFormed) (child key : NodeId) :
    (f.detach child).children key = (f.children key).filter (· != child) :=
  h.paired.children_detach child key

/-- A well-formed forest stays so when a node is taken out, whichever it is. -/
theorem WellFormed.detach (h : f.WellFormed) (child : NodeId) : (f.detach child).WellFormed := by
  refine ⟨fun parent key => ?_, fun id => ?_, fun id n hn hleaf => ?_,
    fun id n parent hn hc hparent => ?_, fun id n hn =>
      h.plain id n (by rwa [content?_detach] at hn)⟩
  · rw [h.children_detach, h.parent?_detach, List.mem_filter, h.links, bne_iff_ne]
    by_cases hkey : key = child
    · simp [hkey]
    · simp [hkey]
  · rw [h.children_detach]
    exact (h.nodup id).filter _
  · rw [content?_detach] at hn
    rw [h.children_detach, h.bare id n hn hleaf]
    rfl
  · rw [content?_detach] at hn
    rw [h.parent?_detach] at hparent
    split at hparent
    · cases hparent
    · exact h.deeper id n parent hn hc hparent

end Detach

section Attach

/-- Attaching a node that has no parent changes it and its parent only. -/
theorem node?_attach_of_root (hroot : f.parent? child = none) (hne : parent ≠ child)
    (key : NodeId) :
    (f.attach parent child).node? key =
      if key = child then (f.node? key).map fun n => { n with parent? := some parent }
      else if key = parent then (f.node? key).map fun n =>
        { n with children := n.children ++ [child] }
      else f.node? key := by
  simp only [attach, detach_of_root hroot, node?_modify]
  by_cases hkey : key = child
  · subst hkey
    simp [Ne.symm hne]
  · simp [hkey]

section Paired

variable (h : f.Paired) (hparent : f.content? parent = some n) (hne : parent ≠ child)

include h in
/-- Attaching takes a node from its old place by itself. -/
theorem Paired.attach_detach (parent child : NodeId) :
    (f.detach child).attach parent child = f.attach parent child := by
  have hroot : (f.detach child).parent? child = none := by
    rw [h.parent?_detach, if_pos rfl]
  rw [attach, detach_of_root hroot, attach]

include h hne in
/-- A node that is attached has the new parent. The node needs to be there, the parent need not. -/
theorem Paired.parent?_attach {m : Node} (hchild : f.content? child = some m) (key : NodeId) :
    (f.attach parent child).parent? key = if key = child then some parent else f.parent? key := by
  have hdetach := h.parent?_detach child key
  have hroot : (f.detach child).parent? child = none := by
    rw [h.parent?_detach, if_pos rfl]
  rw [← content?_detach f child] at hchild
  rw [← h.attach_detach, parent?, node?_attach_of_root hroot hne]
  by_cases hkey : key = child
  · subst hkey
    obtain ⟨n, hn, _⟩ := Option.map_eq_some_iff.mp hchild
    rw [if_pos rfl, if_pos rfl, hn]
    rfl
  · rw [if_neg hkey] at hdetach
    rw [if_neg hkey, if_neg hkey, ← hdetach, parent?]
    split
    · cases (f.detach child).node? key <;> rfl
    · rfl

include h hparent hne in
/-- A node that is attached is the last child of its new parent and no child elsewhere. -/
theorem Paired.children_attach (key : NodeId) :
    (f.attach parent child).children key =
      (f.children key).filter (· != child) ++ if key = parent then [child] else [] := by
  have hdetach := h.children_detach child key
  have hroot : (f.detach child).parent? child = none := by
    rw [h.parent?_detach, if_pos rfl]
  rw [← content?_detach f child] at hparent
  rw [← hdetach, ← h.attach_detach, children, node?_attach_of_root hroot hne]
  by_cases hkey : key = child
  · subst hkey
    rw [if_pos rfl, if_neg (Ne.symm hne), List.append_nil, children]
    cases (f.detach key).node? key <;> rfl
  · rw [if_neg hkey]
    by_cases hkp : key = parent
    · subst hkp
      obtain ⟨n, hn, _⟩ := Option.map_eq_some_iff.mp hparent
      rw [if_pos rfl, if_pos rfl, children, hn]
      rfl
    · rw [if_neg hkp, if_neg hkp, List.append_nil, children]

end Paired

variable (h : f.WellFormed) (hparent : f.content? parent = some n) (hne : parent ≠ child)

include h hne in
/-- In a well-formed forest, the node that is attached has the new parent and all others keep
theirs. -/
theorem WellFormed.parent?_attach {m : Node} (hchild : f.content? child = some m) (key : NodeId) :
    (f.attach parent child).parent? key = if key = child then some parent else f.parent? key :=
  h.paired.parent?_attach hne hchild key

include h hparent hne in
/-- In a well-formed forest, the node that is attached is the last child of its new parent only. -/
theorem WellFormed.children_attach (key : NodeId) :
    (f.attach parent child).children key =
      (f.children key).filter (· != child) ++ if key = parent then [child] else [] :=
  h.paired.children_attach hparent hne key

include h hparent hne in
/-- Attaching keeps a forest well-formed where the parent is a container and comes before the child,
if that is a container as well. -/
theorem WellFormed.attach {m : Node} (hchild : f.content? child = some m)
    (hcontainer : n.kind.isContainer = true)
    (hbefore : m.kind.isContainer = true → parent.index < child.index) :
    (f.attach parent child).WellFormed := by
  have hchildren := h.children_attach hparent hne
  have hparents := h.parent?_attach hne hchild
  refine ⟨fun p c => ?_, fun id => ?_, fun id k hk hleaf => ?_, fun id k p hk hc hp => ?_,
    fun id k hk => h.plain id k (by rwa [content?_attach] at hk)⟩
  · rw [hchildren, hparents, List.mem_append, List.mem_filter, h.links, bne_iff_ne]
    by_cases hc : c = child
    · by_cases hp : p = parent
      · simp [hc, hp]
      · simp [hc, hp, Ne.symm hp]
    · by_cases hp : p = parent
      · simp [hc, hp]
      · simp [hc, hp]
  · rw [hchildren]
    refine List.nodup_append.mpr ⟨(h.nodup id).filter _, ?_, fun a ha b hb => ?_⟩
    · split <;> simp
    · have hne := bne_iff_ne.mp (List.mem_filter.mp ha).2
      split at hb
      · rw [List.mem_singleton.mp hb]
        exact hne
      · cases hb
  · rw [content?_attach] at hk
    rw [hchildren, h.bare id k hk hleaf]
    have hid : id ≠ parent := by
      rintro rfl
      obtain rfl : k = n := Option.some.inj (hk.symm.trans hparent)
      rw [hcontainer] at hleaf
      cases hleaf
    rw [if_neg hid]
    rfl
  · rw [content?_attach] at hk
    rw [hparents] at hp
    split at hp
    · rename_i hid
      subst hid
      obtain rfl : k = m := Option.some.inj (hk.symm.trans hchild)
      exact Option.some.inj hp ▸ hbefore hc
    · exact h.deeper id k p hk hc hp

end Attach

end Forest

end Interop.Overlay
