import Interop.Proofs.Overlay.Lineage
import Mathlib.Data.List.Nodup
import Mathlib.Data.List.Perm.Subperm

namespace Interop.Overlay.Forest

/-- Whether a node is the root of a tree without proxies in which every child knows its parent. -/
structure IsTree (f : Forest) (root : NodeId) : Prop where
  top : f.parent? root = none
  links : ∀ id child, f.Within root id → child ∈ f.children id → f.parent? child = some id
  plain : ∀ id n, f.Within root id → f.node? id = some n → n.isProxy = false

/-- Whether some nodes lead up to a root, each to the next by its parent. -/
inductive Branch (f : Forest) (root : NodeId) : List NodeId → Prop
  | root : Branch f root [root]
  | child {id parent : NodeId} {up : List NodeId} (hparent : f.parent? id = some parent)
      (h : Branch f root (parent :: up)) : Branch f root (id :: parent :: up)

variable {f : Forest} {root id key parent : NodeId} {branch up : List NodeId}

/-- In a well-formed forest each node without a parent is the root of a tree. -/
theorem WellFormed.isTree (h : f.WellFormed) (htop : f.parent? root = none) : f.IsTree root :=
  ⟨htop, fun id child _ hchild => (h.links id child).mp hchild,
    fun id n _ hn => h.plain id n.unlinked (content?_of_node? hn)⟩

namespace Branch

/-- The end of a branch lies in the tree of its root. -/
theorem within (h : Branch f root (id :: up)) : f.Within root id := by
  induction up generalizing id with
  | nil =>
    cases h
    exact .self
  | cons parent up ih =>
    cases h with
    | child hparent h => exact .step hparent (ih h)

/-- The parent of a node on a branch is further up. -/
theorem mem_up (htop : f.parent? root = none) (h : Branch f root (id :: up)) (hkey : key ∈ id :: up)
    (hparent : f.parent? key = some parent) : parent ∈ up := by
  induction up generalizing id with
  | nil =>
    cases h
    rw [List.mem_singleton.mp hkey, htop] at hparent
    cases hparent
  | cons next up ih =>
    cases h with
    | child hnext h =>
      rcases List.mem_cons.mp hkey with rfl | hkey
      · rw [hnext, Option.some.injEq] at hparent
        exact hparent ▸ List.mem_cons_self
      · exact List.mem_cons_of_mem _ (ih h hkey)

/-- A branch passes each node once, if its root has no parent. -/
theorem nodup (htop : f.parent? root = none) (h : Branch f root branch) : branch.Nodup := by
  induction h with
  | root => exact List.nodup_singleton root
  | child hparent h ih =>
    -- A node that came again would have its parent above the parent.
    exact List.nodup_cons.mpr
      ⟨fun hmem => (List.nodup_cons.mp ih).1 (h.mem_up htop hmem hparent), ih⟩

theorem lt_size_or_eq (h : Branch f root branch) (hkey : key ∈ branch) :
    key = root ∨ key.index < f.size := by
  induction h with
  | root => exact .inl (List.mem_singleton.mp hkey)
  | child hparent h ih =>
    rcases List.mem_cons.mp hkey with rfl | hkey
    · obtain ⟨n, hn, -⟩ := Option.bind_eq_some_iff.mp hparent
      exact .inr (lt_size hn)
    · exact ih hkey

/-- A branch is no longer than the forest has nodes, but for a root that is gone. -/
theorem length_le (htop : f.parent? root = none) (h : Branch f root branch) :
    branch.length ≤ f.size + 1 := by
  have hsubset : branch ⊆ root :: (List.range f.size).map NodeId.mk := by
    intro key hkey
    rcases h.lt_size_or_eq hkey with rfl | hlt
    · exact List.mem_cons_self
    · exact List.mem_cons_of_mem _ (List.mem_map.mpr ⟨key.index, List.mem_range.mpr hlt, rfl⟩)
  have hlength := ((h.nodup htop).subperm hsubset).length_le
  simpa using hlength

end Branch

end Interop.Overlay.Forest
