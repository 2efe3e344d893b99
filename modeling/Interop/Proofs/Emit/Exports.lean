import Interop.Emit.Bridge
import Interop.Proofs.Overlay.Housing
import Interop.Proofs.Overlay.Preorder
import Interop.Proofs.Overlay.Walk

namespace Interop.Emit

open Overlay

variable {s : Surroundings} {w : Workspace} {id : NodeId} {b : BridgeFile}

/-- The class that a node's functions belong to: itself, or the class around it. -/
def owner? (w : Workspace) (id : NodeId) : Option NodeId :=
  if (w.node id).kind = .classType then some id
  else (w.node id).parent?.filter fun parent => (w.node parent).kind == .classType

/-- The bridge functions of a node. -/
def exported (s : Surroundings) (w : Workspace) (id : NodeId) : List BridgeFunction :=
  match owner? w id with
  | none => []
  | some class_ =>
    if (w.node id).kind = .classType then
      if (w.node id).isStatic then [] else [destructor (w.node id)]
    else memberFunctions (s.mapper w (w.node class_).symbol) (w.node class_) (w.node id)

/-- The registrations of a node: one for each of its functions, under the path of its class. -/
def registered (s : Surroundings) (w : Workspace) (id : NodeId) : List Registration :=
  match owner? w id with
  | none => []
  | some class_ => (exported s w id).map fun function =>
    ⟨BridgeFile.registrationPath s w.forest class_ function.name, function.name⟩

/-- What stands in a class and is no class itself is exported for that class. -/
theorem owner?_of_member {parent : NodeId} (hkind : (w.node id).kind ≠ .classType)
    (hparent : (w.node id).parent? = some parent) (hclass : (w.node parent).kind = .classType) :
    owner? w id = some parent := by
  unfold owner?
  rw [if_neg hkind, hparent]
  exact Option.filter_eq_some_iff.mpr ⟨rfl, beq_iff_eq.mpr hclass⟩

/-- The functions of what stands in a class are seen from the class. -/
theorem exported_of_member {parent : NodeId} (hkind : (w.node id).kind ≠ .classType)
    (hparent : (w.node id).parent? = some parent) (hclass : (w.node parent).kind = .classType) :
    exported s w id =
      memberFunctions (s.mapper w (w.node parent).symbol) (w.node parent) (w.node id) := by
  unfold exported
  rw [owner?_of_member hkind hparent hclass]
  simp only [if_neg hkind]

/-- All functions of a node are registered for its owner, in their order. -/
theorem registered_of_owner {class_ : NodeId} (h : owner? w id = some class_) :
    registered s w id = (exported s w id).map fun function =>
      ⟨BridgeFile.registrationPath s w.forest class_ function.name, function.name⟩ := by
  unfold registered
  rw [h]

/-- Adding functions for one class appends them and their registrations, and nothing else. -/
theorem adding_foldl (f : Forest) (class_ : NodeId) (functions : List BridgeFunction)
    (b : BridgeFile) :
    (functions.foldl (·.adding s f class_ ·) b).functions = b.functions ++ functions ∧
      (functions.foldl (·.adding s f class_ ·) b).registrations = b.registrations ++
        functions.map fun function =>
          ⟨BridgeFile.registrationPath s f class_ function.name, function.name⟩ := by
  induction functions generalizing b with
  | nil => exact ⟨(List.append_nil _).symm, (List.append_nil _).symm⟩
  | cons function rest ih =>
    obtain ⟨hfunctions, hregistrations⟩ := ih (b.adding s f class_ function)
    rw [List.foldl_cons, hfunctions, hregistrations]
    simp only [BridgeFile.adding, List.append_assoc, List.singleton_append, List.map_cons, and_self]

/-- An include does not change which functions a file has. -/
theorem including_eq (source? : Option Path) (b : BridgeFile) :
    (b.including source?).functions = b.functions ∧
      (b.including source?).registrations = b.registrations := by
  cases source? with
  | none => exact ⟨rfl, rfl⟩
  | some path => exact ⟨rfl, rfl⟩

theorem memberFunctions_of_container {m : Mapper} {class_ n : Node}
    (h : n.kind.isContainer = true) :
    memberFunctions m class_ n = [] := by
  unfold memberFunctions
  cases hkind : n.kind with
  | constructor | memberFunction | freeFunction | freeVariable | memberVariable | bitField =>
    rw [hkind] at h
    cases h
  | _ => rfl

/-- Containers other than classes export nothing of their own. -/
theorem exported_of_container (hclass : (w.node id).kind ≠ .classType)
    (hcontainer : (w.node id).kind.isContainer = true) :
    exported s w id = [] ∧ registered s w id = [] := by
  have hempty : exported s w id = [] := by
    unfold exported
    split
    · rfl
    · rw [if_neg hclass, memberFunctions_of_container hcontainer]
  refine ⟨hempty, ?_⟩
  unfold registered
  rw [hempty]
  split <;> rfl

theorem step_exit (id : NodeId) (b : BridgeFile) : BridgeFile.step s w .exit id b = (true, b) :=
  rfl

/-- A leaf adds what it exports behind what is there. Classes are excluded because the walk reports
them when it enters them. -/
theorem step_leaf (hclass : (w.node id).kind ≠ .classType) (b : BridgeFile) :
    (BridgeFile.addLeaf s w (w.node id) b).functions = b.functions ++ exported s w id ∧
      (BridgeFile.addLeaf s w (w.node id) b).registrations =
          b.registrations ++ registered s w id := by
  unfold BridgeFile.addLeaf registered exported owner?
  simp only [if_neg hclass]
  cases (w.node id).parent? with
  | none => exact ⟨(List.append_nil _).symm, (List.append_nil _).symm⟩
  | some parent =>
    by_cases hparent : (w.node parent).kind = .classType
    · have hfilter : (some parent).filter (fun parent => (w.node parent).kind == .classType) =
          some parent :=
        Option.filter_eq_some_iff.mpr ⟨rfl, beq_iff_eq.mpr hparent⟩
      simp only [hfilter, beq_iff_eq.mpr hparent, if_true]
      exact adding_foldl w.forest parent _ b
    · have hfilter : (some parent).filter (fun parent => (w.node parent).kind == .classType) =
          none :=
        Option.filter_eq_none_iff.mpr fun _ h => by
          cases h
          rwa [beq_iff_eq]
      have hne : ((w.node parent).kind == .classType) = false := beq_eq_false_iff_ne.mpr hparent
      simp only [hfilter, hne]
      exact ⟨(List.append_nil _).symm, (List.append_nil _).symm⟩

/-- Where the walk reports a node first, the node's functions and registrations are added. -/
theorem step_entry {event : WalkEvent} (hevent : event ≠ .exit) (b : BridgeFile) :
    (BridgeFile.step s w event id b).1 = ((w.node id).kind != .enumeration) ∧
      (BridgeFile.step s w event id b).2.functions = b.functions ++ exported s w id ∧
      (BridgeFile.step s w event id b).2.registrations = b.registrations ++ registered s w id := by
  obtain ⟨hfunctions, hregistrations⟩ := including_eq (w.node id).source? b
  have hnone : ∀ hempty : exported s w id = [] ∧ registered s w id = [],
      (b.including (w.node id).source?).functions = b.functions ++ exported s w id ∧
        (b.including (w.node id).source?).registrations = b.registrations ++ registered s w id := by
    intro hempty
    rw [hempty.1, hempty.2, List.append_nil, List.append_nil]
    exact ⟨hfunctions, hregistrations⟩
  unfold BridgeFile.step
  rw [if_neg hevent]
  simp only
  by_cases hclass : (w.node id).kind = .classType
  · rw [if_pos hclass, hclass]
    refine ⟨rfl, ?_⟩
    unfold registered exported owner?
    simp only [if_pos hclass]
    cases (w.node id).isStatic with
    | true =>
      simp only [if_true, List.map_nil, List.append_nil]
      exact ⟨hfunctions, hregistrations⟩
    | false =>
      simp only [Bool.false_eq_true, if_false, BridgeFile.adding, hfunctions, hregistrations,
        List.map_cons, List.map_nil]
      exact ⟨trivial, trivial⟩
  · rw [if_neg hclass]
    by_cases henum : (w.node id).kind = .enumeration
    · rw [if_pos henum]
      refine ⟨?_, hnone (exported_of_container hclass (by rw [henum]; rfl))⟩
      rw [henum]
      rfl
    · have hdeeper : ((w.node id).kind != .enumeration) = true := bne_iff_ne.mpr henum
      rw [if_neg henum, hdeeper]
      split
      · rename_i hcontainer
        exact ⟨rfl, hnone (exported_of_container hclass hcontainer)⟩
      · obtain ⟨hleaf, hleafRegistrations⟩ :=
          step_leaf (s := s) hclass (b.including (w.node id).source?)
        exact ⟨rfl, hleaf.trans (by rw [hfunctions]),
          hleafRegistrations.trans (by rw [hregistrations])⟩

/-- The kinds below which the walk does not go. -/
def isClosed (kind : Kind) : Bool :=
  kind == .enumeration

/-- The bridge file after the walk from a node. -/
def collected (s : Surroundings) (w : Workspace) (bound : Nat) (id : NodeId) (b : BridgeFile) :
    BridgeFile :=
  Forest.walked (fun _ => w.forest) (fun event id _ b => BridgeFile.step s w event id b) bound id b

/-- The bridge file of a tree is what is collected from its root. -/
theorem ofTree_eq (s : Surroundings) (w : Workspace) (root : NodeId) :
    BridgeFile.ofTree s w root = collected s w w.forest.depthBound root {} := by
  have hrun : (Forest.walkWithin (m := StateM BridgeFile) (pure w.forest)
      (fun event id _ b => BridgeFile.step s w event id b) w.forest.depthBound root).run {} =
      ((), collected s w w.forest.depthBound root {}) :=
    Forest.run_walkWithin (.state BridgeFile) (fun _ => rfl)
      (fun _ _ _ _ => rfl) w.forest.depthBound root {}
  exact congrArg Prod.snd hrun

/-- The walk from a node adds the functions and registrations of the nodes it enters, in their
order. -/
theorem collected_eq (hf : w.forest.WellFormed) (bound : Nat) (id : NodeId) (b : BridgeFile) :
    (collected s w bound id b).functions =
        b.functions ++ (w.forest.preorder isClosed bound id).flatMap (exported s w) ∧
      (collected s w bound id b).registrations =
        b.registrations ++ (w.forest.preorder isClosed bound id).flatMap (registered s w) := by
  induction bound generalizing id b with
  | zero => exact ⟨(List.append_nil _).symm, (List.append_nil _).symm⟩
  | succ bound ih =>
    have hall : ∀ (cs : List NodeId) (b : BridgeFile),
        (cs.foldl (fun b c => collected s w bound c b) b).functions = b.functions ++
            (cs.flatMap (w.forest.preorder isClosed bound)).flatMap (exported s w) ∧
          (cs.foldl (fun b c => collected s w bound c b) b).registrations = b.registrations ++
            (cs.flatMap (w.forest.preorder isClosed bound)).flatMap (registered s w) := by
      intro cs
      induction cs with
      | nil =>
        intro b
        exact ⟨(List.append_nil _).symm, (List.append_nil _).symm⟩
      | cons c rest ihrest =>
        intro b
        obtain ⟨hrest, hrestRegistrations⟩ := ihrest (collected s w bound c b)
        rw [List.foldl_cons, hrest, hrestRegistrations, (ih c b).1, (ih c b).2]
        simp only [List.flatMap_cons, List.flatMap_append, List.append_assoc, and_self]
    unfold collected Forest.walked Forest.preorder
    cases hn : w.forest.node? id with
    | none => exact ⟨(List.append_nil _).symm, (List.append_nil _).symm⟩
    | some n =>
      have hplain : n.isProxy = false := hf.plain id n.unlinked (Forest.content?_of_node? hn)
      have hnode := Workspace.node_of_node? hn
      simp only [hplain, Bool.false_eq_true, if_false]
      by_cases hcontainer : n.kind.isContainer = true
      · rw [if_pos hcontainer]
        obtain ⟨hdeeper, hfunctions, hregistrations⟩ :=
          @step_entry s w id .enter (fun h => by cases h) b
        generalize BridgeFile.step s w .enter id b = entered at hdeeper hfunctions hregistrations
        obtain ⟨deeper, b₁⟩ := entered
        simp only [hnode] at hdeeper hfunctions hregistrations
        by_cases hclosed : n.kind = .enumeration
        · have hstop : isClosed n.kind = true := beq_iff_eq.mpr hclosed
          have hdown : deeper = false := by rw [hdeeper, hclosed]; rfl
          rw [hdown, hstop]
          simp only [Bool.false_eq_true, if_false, if_true, List.flatMap_cons, List.flatMap_nil,
            List.append_nil]
          exact ⟨hfunctions, hregistrations⟩
        · have hopen : isClosed n.kind = false := beq_eq_false_iff_ne.mpr hclosed
          have hdown : deeper = true := by rw [hdeeper, bne_iff_ne]; exact hclosed
          obtain ⟨hbelow, hbelowRegistrations⟩ := hall (w.forest.children id) b₁
          rw [hdown, hopen]
          simp only [Bool.false_eq_true, if_false, if_true, step_exit, List.flatMap_cons]
          rw [← List.append_assoc, ← List.append_assoc, ← hfunctions, ← hregistrations]
          exact ⟨hbelow, hbelowRegistrations⟩
      · rw [if_neg hcontainer]
        obtain ⟨-, hfunctions, hregistrations⟩ :=
          @step_entry s w id .leaf (fun h => by cases h) b
        have hbare := hf.bare id n.unlinked (Forest.content?_of_node? hn)
          (Bool.not_eq_true _ ▸ hcontainer)
        rw [hbare]
        simp only [List.flatMap_nil, ite_self, List.flatMap_cons, List.append_nil]
        exact ⟨hfunctions, hregistrations⟩

end Interop.Emit
