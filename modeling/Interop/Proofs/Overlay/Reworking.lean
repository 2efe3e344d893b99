import Interop.Proofs.Overlay.Gathering

namespace Interop.Overlay.Forest

variable {f g h : Forest} {id key top : NodeId} {n : Node} {change : Node → Node}

/-- A root lies in no tree but its own. -/
theorem not_within_of_root (hroot : f.parent? id = none) (hne : top ≠ id) : ¬f.Within top id :=
  fun hwithin => hne (hwithin.eq_of_root hroot).symm

/-- A node lies in a tree that does not start with it only if its parent does. -/
theorem not_within_of_parent {parent : NodeId} (hparent : f.parent? id = some parent)
    (hne : top ≠ id) (hfree : ¬f.Within top parent) : ¬f.Within top id :=
  fun hwithin => hfree (hwithin.above hne.symm hparent)

/-- Whether a change of a node leaves its place, its kind and whether it is a proxy as they are. Its
children may come to stand in another order. -/
structure KeepsPlace (change : Node → Node) : Prop where
  children : ∀ n, (change n).children.Perm n.children
  parent : ∀ n, (change n).parent? = n.parent?
  kind : ∀ n, (change n).kind = n.kind
  proxy : ∀ n, (change n).isProxy = n.isProxy

/-- Whether a forest can be made of another one by adding nodes, by moving subtrees and taking them
out, and by changing what nodes hold. -/
inductive Reworked (f : Forest) : Forest → Prop
  | refl : Reworked f f
  | push {g : Forest} {n : Node} (h : Reworked f g) (hparent : n.parent? = none)
      (hchildren : n.children = []) :
      Reworked f (g.push n)
  | attach {g : Forest} {parent child : NodeId} (h : Reworked f g)
      (hm : (Move.attach parent child).Allowed g) :
      Reworked f (g.attach parent child)
  | detach {g : Forest} {child : NodeId} (h : Reworked f g) (hm : (Move.detach child).Allowed g) :
    Reworked f (g.detach child)
  | modify {g : Forest} {id : NodeId} {change : Node → Node} (h : Reworked f g)
      (hchange : KeepsPlace change) :
      Reworked f (g.modify id change)

/-- A new node can be put below any node that is there. -/
theorem Linked.reworked_pushBelow (hf : f.Linked) (htop : f.contains top = true)
    (hfresh : n.IsFresh) :
    f.Reworked (f.pushBelow top n) := by
  obtain ⟨m, hm⟩ := (f.contains_iff_content? top).mp htop
  exact (Reworked.refl.push hfresh.parent hfresh.children).attach (hf.allowed_pushBelow hm hfresh)

/-- Whether the nodes of a forest stand in trees and those of another one are among them, with their
kinds. -/
structure Retains (f g : Forest) : Prop where
  linked : g.Linked
  nodes : ∀ {id : NodeId} {n : Node}, f.node? id = some n →
    ∃ k, g.node? id = some k ∧ k.kind = n.kind ∧ k.isProxy = n.isProxy

theorem Retains.refl (hf : f.Linked) : f.Retains f :=
  ⟨hf, fun {_ n} hn => ⟨n, hn, rfl, rfl⟩⟩

theorem Retains.trans (hg : f.Retains g) (hh : g.Retains h) : f.Retains h := by
  refine ⟨hh.linked, fun {id n} hn => ?_⟩
  obtain ⟨k, hk, hkind, hproxy⟩ := hg.nodes hn
  obtain ⟨m, hm, hkind', hproxy'⟩ := hh.nodes hk
  exact ⟨m, hm, hkind'.trans hkind, hproxy'.trans hproxy⟩

/-- Nodes that were there are still there. -/
theorem Retains.contains (hg : f.Retains g) (hid : f.contains id = true) :
    g.contains id = true := by
  obtain ⟨n, hn⟩ := Option.isSome_iff_exists.mp hid
  obtain ⟨k, hk, -⟩ := hg.nodes hn
  exact Option.isSome_iff_exists.mpr ⟨k, hk⟩

/-- Children are there. -/
theorem Linked.contains_child (hf : f.Linked) {child : NodeId} (hchild : child ∈ f.children id) :
    f.contains child = true :=
  (f.contains_iff_content? child).mpr (exists_content_of_parent? ((hf.links id child).mp hchild))

/-- Pushing a node that is linked to nothing leaves all nodes in their trees. -/
theorem Linked.retains_push (hf : f.Linked) (hparent : n.parent? = none)
    (hchildren : n.children = []) :
    f.Retains (f.push n) := by
  refine ⟨hf.push hparent hchildren, fun {id k} hk => ⟨k, ?_, rfl, rfl⟩⟩
  rw [node?_push, if_neg (ne_nextId hk), hk]

/-- A move that is allowed leaves all nodes in trees. The forest need not be well-formed. -/
theorem Linked.retains_move (hf : f.Linked) {m : Move} (hm : m.Allowed f) :
    f.Retains (m.apply f) := by
  have hmoved := hm.moved hf
  refine ⟨hmoved.linked hm.free hf, fun {id n} hn => ?_⟩
  obtain ⟨k, hk, hsame⟩ :=
    Option.map_eq_some_iff.mp ((hmoved.contents id).trans (content?_of_node? hn))
  have hkind : k.unlinked.kind = n.unlinked.kind := congrArg Node.kind hsame
  have hproxy : k.unlinked.isProxy = n.unlinked.isProxy := congrArg Node.isProxy hsame
  exact ⟨k, hk, hkind, hproxy⟩

section Modify

variable (hchange : KeepsPlace change)
include hchange

theorem KeepsPlace.children_modify (f : Forest) (id key : NodeId) :
    ((f.modify id change).children key).Perm (f.children key) := by
  rw [Forest.children, node?_modify, Forest.children]
  split
  · cases f.node? key with
    | none => exact .refl _
    | some n => exact hchange.children n
  · exact .refl _

theorem KeepsPlace.parent?_modify (f : Forest) (id key : NodeId) :
    (f.modify id change).parent? key = f.parent? key := by
  rw [Forest.parent?, node?_modify, Forest.parent?]
  split
  · cases f.node? key with
    | none => rfl
    | some n => exact hchange.parent n
  · rfl

/-- A change that keeps places puts no node into another tree. -/
theorem KeepsPlace.within_modify (hwithin : (f.modify key change).Within top id) :
    f.Within top id := by
  induction hwithin with
  | self => exact .self
  | step hparent _ ih => exact .step ((hchange.parent?_modify f key _).symm.trans hparent) ih

/-- A change that keeps places keeps the nodes in trees, even when it reorders children. -/
theorem Linked.retains_modify (hf : f.Linked) (key : NodeId) : f.Retains (f.modify key change) := by
  refine ⟨⟨fun parent child => ?_, fun id => ?_, fun {id parent} hparent hwithin => ?_⟩,
    fun {id n} hn => ?_⟩
  · rw [(hchange.children_modify f key parent).mem_iff, hchange.parent?_modify]
    exact hf.links parent child
  · exact (hchange.children_modify f key id).nodup_iff.mpr (hf.nodup id)
  · rw [hchange.parent?_modify] at hparent
    exact hf.acyclic hparent (hchange.within_modify hwithin)
  · rw [node?_modify, hn]
    split
    · exact ⟨change n, rfl, hchange.kind n, hchange.proxy n⟩
    · exact ⟨n, rfl, rfl, rfl⟩

end Modify

/-- However a forest is reworked, its nodes stay. -/
theorem Reworked.retains (hg : f.Reworked g) (hf : f.Linked) : f.Retains g := by
  induction hg with
  | refl => exact .refl hf
  | push _ hparent hchildren ih => exact ih.trans (ih.linked.retains_push hparent hchildren)
  | attach _ hm ih => exact ih.trans (ih.linked.retains_move hm)
  | detach _ hm ih => exact ih.trans (ih.linked.retains_move hm)
  | modify _ hchange ih => exact ih.trans (ih.linked.retains_modify hchange _)

end Interop.Overlay.Forest
