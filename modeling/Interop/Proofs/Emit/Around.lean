import Interop.Proofs.Emit.Agreement

namespace Interop.Emit

open Overlay

/-- The block that a node is printed as. -/
def Block.ofNode? (n : Node) : Option Block :=
  match n.kind with
  | .nameSpace => some (.nameSpace n.name)
  | .classType => some (.classType n.name)
  | _ => none

/-- The name of a block, if it is a namespace. -/
def Block.space? : Block → Option String
  | .nameSpace name => some name
  | .classType _ => none

/-- The name of a block, if it is a class. -/
def Block.class? : Block → Option String
  | .nameSpace _ => none
  | .classType name => some name

/-- The blocks of several nodes. -/
def blocksOf (f : Forest) (ids : List NodeId) : List Block :=
  (ids.filterMap f.node?).filterMap Block.ofNode?

/-- The blocks around a node inside of the module's namespace, from the outermost in. An outermost
namespace with the module's name is the module's namespace itself. -/
def blocksAround (f : Forest) (id : NodeId) (module : String) : List Block :=
  match f.ancestors id with
  | [] => []
  | top :: inner => blocksOf f (if f.isNamespace top module then inner else top :: inner)

theorem blocksOf_append (f : Forest) (ids ids' : List NodeId) :
    blocksOf f (ids ++ ids') = blocksOf f ids ++ blocksOf f ids' := by
  simp only [blocksOf, List.filterMap_append]

/-- The namespaces around a node are the namespaces among the blocks around it. -/
theorem managedNamespace_eq (f : Forest) (id : NodeId) (module : String) :
    f.managedNamespace id module = (blocksAround f id module).filterMap Block.space? := by
  have hnames : ∀ ids,
      f.namesOf (· == .nameSpace) ids = (blocksOf f ids).filterMap Block.space? := by
    intro ids
    unfold Forest.namesOf blocksOf
    rw [List.filterMap_filterMap (l := ids.filterMap f.node?)]
    refine List.filterMap_congr fun n _ => ?_
    unfold Block.ofNode?
    cases n.kind <;> rfl
  unfold Forest.managedNamespace blocksAround
  cases f.ancestors id with
  | nil => rfl
  | cons top inner => exact hnames _

section Tree

variable {s : Surroundings} {w : Workspace} {id parent : NodeId} {module : String}

/-- The blocks around a node are its parent's block and those around that. -/
theorem blocksAround_child (hf : w.forest.WellFormed) (hparent : w.forest.parent? id = some parent)
    (hinner : w.forest.parent? parent ≠ none) :
    blocksAround w.forest id module = blocksAround w.forest parent module ++
      if (w.forest.ancestors parent).isEmpty && w.forest.isNamespace parent module then []
      else (Block.ofNode? (w.node parent)).toList := by
  obtain ⟨n, hn, -⟩ := Option.bind_eq_some_iff.mp (Option.ne_none_iff_exists'.mp hinner).choose_spec
  have hself : blocksOf w.forest [parent] = (Block.ofNode? (w.node parent)).toList := by
    rw [blocksOf, Workspace.node_of_node? hn, List.filterMap_cons, hn]
    cases h : Block.ofNode? n <;> simp [h]
  unfold blocksAround
  rw [hf.ancestors_child hparent, if_neg hinner]
  cases w.forest.ancestors parent with
  | nil =>
    simp only [List.nil_append, List.isEmpty_nil, Bool.true_and]
    split
    · rfl
    · exact hself
  | cons top inner =>
    simp only [List.cons_append, List.isEmpty_cons, Bool.false_and, Bool.false_eq_true, if_false]
    split
    · rw [blocksOf_append, hself]
    · rw [← List.cons_append, blocksOf_append, hself]

/-- A node puts its own block around its children unless it is the root or the namespace that the
module is named after. The node has to be alive. -/
theorem opened?_blocks (hid : ∃ n, w.forest.content? id = some n) :
    (opened? s w id).elim [] OpenBlock.blocks =
      if (w.forest.ancestors id).isEmpty && w.forest.isNamespace id s.rules.name then []
      else (Block.ofNode? (w.node id)).toList := by
  obtain ⟨n, hn⟩ := hid
  obtain ⟨n, hn, -⟩ := Option.map_eq_some_iff.mp hn
  have hspace : w.forest.isNamespace id s.rules.name = (n.kind == .nameSpace && n.name ==
      s.rules.name) := by
    rw [Forest.isNamespace, hn]
    rfl
  rw [hspace, opened?, Workspace.node_of_node? hn, Block.ofNode?]
  cases hkind : n.kind with
  | nameSpace =>
    cases hmodule : (w.forest.ancestors id).isEmpty && n.name == s.rules.name <;>
      simp [namespaceBlock, hmodule, OpenBlock.blocks]
  | classType =>
    obtain ⟨c, isInheritable, hblock, -⟩ := exists_classBlock s w n
    simp [hblock, OpenBlock.blocks, name_of_classBlock hblock]
  | _ => simp

/-- What a node becomes stands in the module's namespace and in the blocks around the node. -/
theorem spot_eq (hf : w.forest.WellFormed) (htop : w.forest.parent? s.root = none)
    (hfile : (w.node s.root).kind = .file) (hwithin : w.forest.Within s.root id) :
    spot s w id = .nameSpace s.rules.name :: blocksAround w.forest id s.rules.name := by
  induction hwithin with
  | self =>
    have hlineage : w.forest.lineage s.root = [] := by
      rw [hf.lineage_eq, htop]
      rfl
    simp [spot, openAt, blocksAround, Forest.ancestors, hlineage, OpenBlock.path]
  | @step id parent hparent hwithin ih =>
    have hstep : spot s w id =
        spot s w parent ++ (opened? s w parent).elim [] OpenBlock.blocks := by
      unfold spot
      rw [openAt_child hf hparent]
      cases opened? s w parent with
      | none => simp
      | some block => rfl
    rw [hstep, ih]
    by_cases hroot : parent = s.root
    · subst hroot
      have hnone : opened? s w s.root = none := by
        unfold opened?
        rw [hfile]
      have hancestors := hf.ancestors_of_root htop
      simp [hnone, blocksAround, hf.ancestors_child hparent, htop, hancestors]
    · have hinner : w.forest.parent? parent ≠ none := fun hup => hroot (hwithin.eq_of_root hup)
      obtain ⟨m, hm, -⟩ := hf.exists_parent hparent
      rw [blocksAround_child hf hparent hinner, opened?_blocks ⟨m, hm⟩]
      rfl

end Tree

end Interop.Emit
