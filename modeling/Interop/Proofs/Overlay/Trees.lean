import Interop.Overlay.Walk
import Interop.Proofs.Overlay.Preorder
import Mathlib.Data.List.Perm.Basic

namespace Interop.Overlay

/-- A node without its children. -/
def Node.childless (n : Node) : Node :=
  { n with children := [] }

/-- What does not depend on children is the same for nodes that differ in children only. -/
theorem Node.eq_of_childless {α : Type} {n k : Node} (g : Node → α)
    (hg : ∀ n : Node, g n.childless = g n) (h : n.childless = k.childless) : g n = g k := by
  rw [← hg n, h, hg k]

namespace Forest

variable {f f' : Forest} {id key parent c d : NodeId} {n : Node} {bound : Nat}

/-- Whether the nodes of a forest stand in trees. -/
structure Linked (f : Forest) : Prop where
  links : ∀ parent child, child ∈ f.children parent ↔ f.parent? child = some parent
  nodup : ∀ id, (f.children id).Nodup
  acyclic : ∀ {id parent}, f.parent? id = some parent → ¬f.Within id parent

/-- The nodes of a well-formed forest stand in trees. -/
theorem WellFormed.linked (h : f.WellFormed) : f.Linked :=
  ⟨h.links, h.nodup, fun hparent hwithin =>
    absurd (h.rank_lt hparent) (Nat.not_lt.mpr (h.rank_le_of_within hwithin))⟩

/-- Below one parent no node lies within another. -/
theorem Linked.eq_of_within_sibling (h : f.Linked) (hc : f.parent? c = some parent)
    (hd : f.parent? d = some parent) (hwithin : f.Within c d) : c = d := by
  cases hwithin with
  | self => rfl
  | step hparent hup =>
    rw [hd, Option.some.injEq] at hparent
    subst hparent
    exact absurd hup (h.acyclic hc)

/-- The nodes that a walk which changes no links reports, in this order. Proxies are passed over,
and only containers are gone into. -/
def visits (f : Forest) : (bound : Nat) → NodeId → List NodeId
  | 0, _ => []
  | bound + 1, id =>
    match f.node? id with
    | none => []
    | some n =>
      (if n.isProxy then [] else [id]) ++
        if n.isProxy || n.kind.isContainer then (f.children id).flatMap (f.visits bound) else []

/-- Nothing is visited at a place that is free. -/
theorem visits_of_none (hn : f.node? id = none) : f.visits bound id = [] := by
  cases bound with
  | zero => rfl
  | succ bound => rw [visits, hn]

theorem visits_of_node? (hn : f.node? id = some n) :
    f.visits (bound + 1) id = (if n.isProxy then [] else [id]) ++
      if n.isProxy || n.kind.isContainer then (f.children id).flatMap (f.visits bound) else [] := by
  rw [visits, hn]

/-- A walk comes to a node itself, or to what is below one of its children. -/
theorem mem_visits (hmem : key ∈ f.visits (bound + 1) id) :
    ∃ n, f.node? id = some n ∧
      (key = id ∧ n.isProxy = false ∨
        (n.isProxy || n.kind.isContainer) = true ∧
            ∃ c ∈ f.children id, key ∈ f.visits bound c) := by
  cases hn : f.node? id with
  | none =>
    rw [visits_of_none hn] at hmem
    cases hmem
  | some n =>
    rw [visits_of_node? hn, List.mem_append] at hmem
    refine ⟨n, rfl, hmem.imp (fun hself => ?_) fun hbelow => ?_⟩
    · split at hself
      · cases hself
      · rename_i hproxy
        exact ⟨List.mem_singleton.mp hself, Bool.not_eq_true _ ▸ hproxy⟩
    · split at hbelow
      · rename_i hdeeper
        exact ⟨hdeeper, List.mem_flatMap.mp hbelow⟩
      · cases hbelow

/-- Only what lies in the tree of a node is visited from it. -/
theorem Linked.within_of_mem_visits (h : f.Linked) (hmem : key ∈ f.visits bound id) :
    f.Within id key := by
  induction bound generalizing id with
  | zero => cases hmem
  | succ bound ih =>
    obtain ⟨n, -, ⟨rfl, -⟩ | ⟨-, c, hc, hkey⟩⟩ := mem_visits hmem
    · exact .self
    · exact Within.trans (.step ((h.links id c).mp hc) .self) (ih hkey)

/-- No node is visited twice. The nodes have to stand in trees, or a node with two parents would
be. -/
theorem Linked.visits_nodup (h : f.Linked) : (f.visits bound id).Nodup := by
  induction bound generalizing id with
  | zero => exact List.nodup_nil
  | succ bound ih =>
    have hbelow : ((f.children id).flatMap (f.visits bound)).Nodup := by
      refine List.nodup_flatMap.mpr ⟨fun c _ => ih, (h.nodup id).imp_of_mem ?_⟩
      intro c d hc hd hne key hkey hkey'
      have hparent := (h.links id c).mp hc
      have hparent' := (h.links id d).mp hd
      rcases (h.within_of_mem_visits hkey).total (h.within_of_mem_visits hkey') with hcd | hdc
      · exact hne (h.eq_of_within_sibling hparent hparent' hcd)
      · exact hne (h.eq_of_within_sibling hparent' hparent hdc).symm
    have hself : id ∉ (f.children id).flatMap (f.visits bound) := by
      intro hmem
      obtain ⟨c, hc, hid⟩ := List.mem_flatMap.mp hmem
      exact h.acyclic ((h.links id c).mp hc) (h.within_of_mem_visits hid)
    cases hn : f.node? id with
    | none =>
      rw [visits_of_none hn]
      exact List.nodup_nil
    | some n =>
      rw [visits_of_node? hn]
      refine List.nodup_append.mpr ⟨?_, ?_, ?_⟩
      · split
        · exact List.nodup_nil
        · exact List.nodup_singleton id
      · split
        · exact hbelow
        · exact List.nodup_nil
      · intro key hkey other hother
        split at hkey
        · cases hkey
        · split at hother
          · rw [List.mem_singleton.mp hkey]
            exact fun heq => hself (heq ▸ hother)
          · cases hother

/-- Where nothing is a proxy and only containers have children, a walk reports everything. -/
theorem WellFormed.visits_eq_preorder (h : f.WellFormed) :
    f.visits bound id = f.preorder (fun _ => false) bound id := by
  induction bound generalizing id with
  | zero => rfl
  | succ bound ih =>
    cases hn : f.node? id with
    | none => rw [visits_of_none hn, preorder, hn]
    | some n =>
      have hplain : n.isProxy = false := h.plain id n.unlinked (content?_of_node? hn)
      rw [visits_of_node? hn, preorder, hn]
      simp only [hplain, Bool.false_eq_true, if_false, Bool.false_or, funext fun c => @ih c]
      by_cases hcontainer : n.kind.isContainer = true
      · rw [if_pos hcontainer]
        rfl
      · have hbare := h.bare id n.unlinked (content?_of_node? hn) (Bool.not_eq_true _ ▸ hcontainer)
        rw [if_neg hcontainer, hbare]
        rfl

/-- Whether two forests hold the same nodes and differ only in the order of children below their
parents. -/
structure Reordered (f f' : Forest) : Prop where
  nodes : ∀ id, (f'.node? id).map Node.childless = (f.node? id).map Node.childless
  children : ∀ id, (f'.children id).Perm (f.children id)
  size : f'.size = f.size

namespace Reordered

variable (h : f.Reordered f')
include h

/-- Being reordered goes both ways. -/
theorem symm : f'.Reordered f :=
  ⟨fun id => (h.nodes id).symm, fun id => (h.children id).symm, h.size.symm⟩

/-- A reordered forest has no nodes but those of the other, up to their children. -/
theorem exists_node (hn : f'.node? id = some n) :
    ∃ k, f.node? id = some k ∧ n.childless = k.childless := by
  have hnode := h.nodes id
  rw [hn] at hnode
  obtain ⟨k, hk, heq⟩ := Option.map_eq_some_iff.mp hnode.symm
  exact ⟨k, hk, heq.symm⟩

theorem node?_eq_none (hn : f.node? id = none) : f'.node? id = none := by
  have hnode := h.nodes id
  rwa [hn, Option.map_none, Option.map_eq_none_iff] at hnode

/-- Reordering leaves all parents. -/
theorem parent?_eq (id : NodeId) : f'.parent? id = f.parent? id := by
  rw [parent?, parent?]
  cases hn : f.node? id with
  | none => rw [h.node?_eq_none hn]
  | some n =>
    obtain ⟨k, hk, heq⟩ := h.symm.exists_node hn
    rw [hk]
    exact (Node.eq_of_childless Node.parent? (fun _ => rfl) heq).symm

/-- Reordering leaves nodes in their trees. -/
theorem within (hwithin : f.Within id key) : f'.Within id key := by
  induction hwithin with
  | self => exact .self
  | step hparent _ ih => exact .step ((h.parent?_eq _).trans hparent) ih

/-- Reordering leaves nodes in trees. -/
theorem linked (hf : f.Linked) : f'.Linked where
  links parent child := by rw [(h.children parent).mem_iff, h.parent?_eq, hf.links]
  nodup id := (h.children id).nodup_iff.mpr (hf.nodup id)
  acyclic hparent hwithin :=
    hf.acyclic ((h.parent?_eq _).symm.trans hparent) (h.symm.within hwithin)

/-- Walks come to the same nodes. -/
theorem visits_perm : (f'.visits bound id).Perm (f.visits bound id) := by
  induction bound generalizing id with
  | zero => exact .refl []
  | succ bound ih =>
    have hbelow : ((f'.children id).flatMap (f'.visits bound)).Perm
        ((f.children id).flatMap (f.visits bound)) :=
      (h.children id).flatMap fun _ _ => ih
    cases hn : f.node? id with
    | none => rw [visits_of_none hn, visits_of_none (h.node?_eq_none hn)]
    | some n =>
      obtain ⟨k, hk, heq⟩ := h.symm.exists_node hn
      have hproxy : n.isProxy = k.isProxy := Node.eq_of_childless Node.isProxy (fun _ => rfl) heq
      have hkind : n.kind = k.kind := Node.eq_of_childless Node.kind (fun _ => rfl) heq
      rw [visits_of_node? hn, visits_of_node? hk, hproxy, hkind]
      refine .append_left _ ?_
      split
      · exact hbelow
      · exact .refl []

end Reordered

/-- A forest with the children of each node in another order. -/
def rearranged (f : Forest) (order : List NodeId → List NodeId) : Forest :=
  ⟨f.slots.map (·.map fun n => { n with children := order n.children })⟩

section Rearranged

variable {order : List NodeId → List NodeId}

/-- A rearranged node differs in the order of its children only. -/
theorem node?_rearranged (f : Forest) (order : List NodeId → List NodeId) (id : NodeId) :
    (f.rearranged order).node? id = (f.node? id).map fun n =>
      { n with children := order n.children } := by
  simp only [node?, rearranged, Array.getElem?_map]
  cases f.slots[id.index]? with
  | none => rfl
  | some slot => rfl

/-- The children of a rearranged node stand in the new order. The order must add nothing where there
are none. -/
theorem children_rearranged (horder : order [] = []) (id : NodeId) :
    (f.rearranged order).children id = order (f.children id) := by
  rw [children, children, node?_rearranged]
  cases f.node? id with
  | none => exact horder.symm
  | some n => rfl

theorem visits_rearranged (hn : f.node? id = some n) (horder : order [] = []) :
    (f.rearranged order).visits (bound + 1) id = (if n.isProxy then [] else [id]) ++
      if n.isProxy || n.kind.isContainer then (order (f.children id)).flatMap
        ((f.rearranged order).visits bound)
      else [] := by
  have hnode := node?_rearranged f order id
  rw [hn, Option.map_some] at hnode
  rw [visits_of_node? hnode, children_rearranged horder]

/-- Rearranging with permutations is a reordering. -/
theorem reordered_rearranged (f : Forest) (horder : ∀ ids, (order ids).Perm ids) :
    f.Reordered (f.rearranged order) := by
  refine ⟨fun id => ?_, fun id => ?_, Array.size_map ..⟩
  · rw [node?_rearranged, Option.map_map]
    rfl
  · rw [children_rearranged (horder []).eq_nil]
    exact horder _

end Rearranged

section Path

variable (h : f.Linked) {p : NodeId → Bool} (hp : ∀ d, p d = true ↔ f.Within d key)
include h hp

/-- Of the children of a node, only one is around another node. -/
theorem Linked.eq_of_mem_filter (hc : c ∈ f.children id) (hkey : f.Within c key)
    (hd : d ∈ (f.children id).filter p) :
    d = c := by
  obtain ⟨hmem, hd⟩ := List.mem_filter.mp hd
  have hparent := (h.links id c).mp hc
  have hparent' := (h.links id d).mp hmem
  rcases hkey.total ((hp d).mp hd) with hcd | hdc
  · exact (h.eq_of_within_sibling hparent hparent' hcd).symm
  · exact h.eq_of_within_sibling hparent' hparent hdc

/-- With the children around a node put in front, the one child around it is the first. -/
theorem Linked.filter_append (hc : c ∈ f.children id) (hkey : f.Within c key) :
    ∃ rest, (f.children id).filter p ++ (f.children id).filter (!p ·) = c :: rest := by
  have hmem : c ∈ (f.children id).filter p := List.mem_filter.mpr ⟨hc, (hp c).mpr hkey⟩
  cases hfilter : (f.children id).filter p with
  | nil =>
    rw [hfilter] at hmem
    cases hmem
  | cons d rest =>
    obtain rfl := h.eq_of_mem_filter hp hc hkey (d := d) (hfilter ▸ List.mem_cons_self)
    exact ⟨_, rfl⟩

/-- With the children around a node put behind, the one child around it is the last. -/
theorem Linked.append_filter (hc : c ∈ f.children id) (hkey : f.Within c key) :
    ∃ rest, (f.children id).filter (!p ·) ++ (f.children id).filter p = rest ++ [c] := by
  have hmem : c ∈ (f.children id).filter p := List.mem_filter.mpr ⟨hc, (hp c).mpr hkey⟩
  have hne : (f.children id).filter p ≠ [] := List.ne_nil_of_mem hmem
  have hlast := h.eq_of_mem_filter hp hc hkey (List.getLast_mem hne)
  refine ⟨(f.children id).filter (!p ·) ++ ((f.children id).filter p).dropLast, ?_⟩
  rw [List.append_assoc, ← hlast, List.dropLast_append_getLast]

end Path

/-- The children of each node can be put in such an order that a given node is the first that a walk
reports behind the containers around it. -/
theorem Linked.exists_visited_first (h : f.Linked) (hmem : key ∈ f.visits bound id) :
    ∃ f', f.Reordered f' ∧ ∃ before after, f'.visits bound id = before ++ key :: after ∧
      ∀ b ∈ before, ∃ n, f.node? b = some n ∧ n.kind.isContainer = true := by
  classical
  obtain ⟨p, hp⟩ : ∃ p : NodeId → Bool, ∀ d, p d = true ↔ f.Within d key :=
    ⟨fun d => decide (f.Within d key), fun _ => decide_eq_true_iff⟩
  have horder : ∀ ids : List NodeId, (ids.filter p ++ ids.filter (!p ·)).Perm ids :=
    List.filter_append_perm p
  refine ⟨f.rearranged _, f.reordered_rearranged horder, ?_⟩
  induction bound generalizing id with
  | zero => cases hmem
  | succ bound ih =>
    obtain ⟨n, hn, hwhere⟩ := mem_visits hmem
    rw [visits_rearranged hn rfl]
    rcases hwhere with ⟨rfl, hproxy⟩ | ⟨hdeeper, c, hc, hkey⟩
    · simp only [hproxy, Bool.false_eq_true, if_false]
      exact ⟨[], _, rfl, fun b hb => by cases hb⟩
    · obtain ⟨before, after, hvisits, hbefore⟩ := ih hkey
      obtain ⟨rest, hrest⟩ := h.filter_append hp hc (h.within_of_mem_visits hkey)
      rw [hrest, if_pos hdeeper, List.flatMap_cons, hvisits]
      have hsplit : ∀ head tail : List NodeId,
          head ++ (before ++ key :: after ++ tail) = (head ++ before) ++ key :: (after ++ tail) :=
            by simp
      refine ⟨_, _, hsplit _ _, fun b hb => ?_⟩
      rcases List.mem_append.mp hb with hself | hb
      · split at hself
        · cases hself
        · rename_i hproxy
          obtain rfl := List.mem_singleton.mp hself
          exact ⟨n, hn, (Bool.or_eq_true_iff.mp hdeeper).resolve_left hproxy⟩
      · exact hbefore b hb

/-- The children of each node can be put in such an order that a given leaf is the last that a walk
reports. -/
theorem Linked.exists_visited_last (h : f.Linked) (hmem : key ∈ f.visits bound id)
    (hleaf : ∀ n, f.node? key = some n → n.kind.isContainer = false) :
    ∃ f', f.Reordered f' ∧ ∃ before, f'.visits bound id = before ++ [key] := by
  classical
  obtain ⟨p, hp⟩ : ∃ p : NodeId → Bool, ∀ d, p d = true ↔ f.Within d key :=
    ⟨fun d => decide (f.Within d key), fun _ => decide_eq_true_iff⟩
  have horder : ∀ ids : List NodeId, (ids.filter (!p ·) ++ ids.filter p).Perm ids := fun ids =>
    List.perm_append_comm.trans (List.filter_append_perm p ids)
  refine ⟨f.rearranged _, f.reordered_rearranged horder, ?_⟩
  induction bound generalizing id with
  | zero => cases hmem
  | succ bound ih =>
    obtain ⟨n, hn, hwhere⟩ := mem_visits hmem
    rw [visits_rearranged hn rfl]
    rcases hwhere with ⟨rfl, hproxy⟩ | ⟨hdeeper, c, hc, hkey⟩
    · simp only [hproxy, hleaf n hn, Bool.false_eq_true, if_false, Bool.or_self]
      exact ⟨[], rfl⟩
    · obtain ⟨before, hvisits⟩ := ih hkey
      obtain ⟨rest, hrest⟩ := h.append_filter hp hc (h.within_of_mem_visits hkey)
      rw [hrest, if_pos hdeeper, List.flatMap_append, List.flatMap_singleton, hvisits]
      exact ⟨_, by rw [← List.append_assoc, ← List.append_assoc]⟩

end Forest

end Interop.Overlay
