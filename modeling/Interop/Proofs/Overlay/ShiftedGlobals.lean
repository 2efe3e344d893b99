import Interop.Proofs.Overlay.Housing
import Interop.Proofs.Overlay.ShiftedWalk

namespace Interop.Overlay.Globals

variable {w w' : Workspace} {k : Nat} {id scope : NodeId} {n : Node}

theorem isScope_shift (n : Node) (k : Nat) : isScope (n.shift k) = isScope n :=
  rfl

/-- The class that is there for globals moves along with a shift. -/
theorem existing?_shift (w : Workspace) (k : Nat) (scope : NodeId) :
    existing? (w.shift k) (scope.shift k) = (existing? w scope).map (·.shift k) := by
  have hclass : (fun c => ((w.shift k).node c).kind == .classType && ((w.shift k).node c).name ==
      className) ∘
      (·.shift k) = fun c => (w.node c).kind == .classType && (w.node c).name == className := by
    funext c
    rw [Function.comp_apply, Workspace.node_shift]
    rfl
  unfold existing?
  rw [show (w.shift k).forest = w.forest.shift k from rfl, Forest.children_shift, List.find?_map,
    hclass]

/-- Making sure of a class for globals and shifting may change places. -/
theorem ensure_shift (w : Workspace) (k : Nat) (scope : NodeId) :
    ensure (w.shift k) (scope.shift k) = ((ensure w scope).1.shift k,
      (ensure w scope).2.shift k) := by
  unfold ensure
  rw [existing?_shift]
  cases existing? w scope with
  | some id => rfl
  | none =>
    simp only [Option.map_none, Workspace.symbol_shift]
    rw [Workspace.grow_fresh_shift (isFresh_home _)]
    exact Prod.ext (w.forest.nextId_shift k) rfl

theorem foldl_attach_shift (globals : List NodeId) (f : Forest) (k : Nat) (target : NodeId) :
    (globals.map (·.shift k)).foldl (·.attach (target.shift k) ·) (f.shift k) =
      (globals.foldl (·.attach target ·) f).shift k := by
  induction globals generalizing f with
  | nil => rfl
  | cons g rest ih =>
    rw [List.map_cons, List.foldl_cons, List.foldl_cons, ← Forest.attach_shift, ih]

/-- Gathering globals and shifting may change places. -/
theorem gather_shift (w : Workspace) (k : Nat) (scope : NodeId) :
    gather (w.shift k) (scope.shift k) = (gather w scope).shift k := by
  have hglobals : ((w.shift k).forest.children (scope.shift k)).filter
      (fun c => isGlobal ((w.shift k).node c)) = ((w.forest.children scope).filter fun c =>
          isGlobal (w.node c)).map (·.shift k) := by
    have hglobal : (fun c => isGlobal ((w.shift k).node c)) ∘ (·.shift k) = fun c =>
        isGlobal (w.node c) := by
      funext c
      rw [Function.comp_apply, Workspace.node_shift]
      rfl
    rw [show (w.shift k).forest = w.forest.shift k from rfl, Forest.children_shift,
      List.filter_map, hglobal]
  unfold gather
  rw [hglobals]
  cases (w.forest.children scope).filter fun c => isGlobal (w.node c) with
  | nil => rfl
  | cons g rest =>
    have hmoved := foldl_attach_shift (g :: rest) (ensure w scope).2.forest k (ensure w scope).1
    rw [List.map_cons] at hmoved ⊢
    simp only [ensure_shift]
    rw [show ((ensure w scope).2.shift k).forest = (ensure w scope).2.forest.shift k from rfl,
      hmoved]
    rfl

/-- Dropping an empty namespace and shifting may change places. -/
theorem dropEmpty_shift (w : Workspace) (k : Nat) (id : NodeId) :
    dropEmpty (w.shift k) (id.shift k) = (dropEmpty w id).shift k := by
  have hempty : ((w.node id).shift k).children.isEmpty = (w.node id).children.isEmpty :=
    List.isEmpty_map
  simp only [dropEmpty, Workspace.node_shift, hempty,
    show ((w.node id).shift k).kind = (w.node id).kind from rfl]
  split
  · exact congrArg (Workspace.mk · _) (w.forest.detach_shift k id).symm
  · rfl

/-- What a visit does to the workspace, and whether the walk goes deeper. -/
theorem visit_run (event : WalkEvent) (id : NodeId) (access : Access) (w : Workspace) :
    (visit event id access).run w =
      if isScope (w.node id) then
        (true, match event with
          | .enter => gather w id
          | .exit => dropEmpty w id
          | .leaf => w)
      else (false, w) := by
  change (if isScope (w.node id) then _ else _ : StateM Workspace Bool).run w = _
  split
  · cases event <;> rfl
  · rfl

/-- What a visit of a scope makes of a workspace. -/
theorem visit_steps (hf : w.forest.WellFormed) (event : WalkEvent) (id : NodeId) (access : Access) :
    Steps id w ((visit event id access).run w).2 := by
  rw [visit_run]
  split
  · rename_i hscope
    have hid : w.forest.content? id = some (w.node id).unlinked := by
      apply Workspace.content?_of_kind
      rcases isScope_iff.mp hscope with hkind | hkind <;> rw [hkind] <;> exact nofun
    cases event with
    | enter => exact (gather_steps hf hid hscope .self).1
    | exit => exact dropEmpty_steps w id
    | leaf => exact .refl
  · exact .refl

/-- Whether a forest is well-formed and has the scopes of another one. -/
structure SameScopes (w w' : Workspace) : Prop where
  wellFormed : w'.forest.WellFormed
  scopes : ∀ id n, isScope n = true →
    (w'.forest.content? id = some n ↔ w.forest.content? id = some n)

/-- The scopes are the same after any further changes. -/
theorem SameScopes.steps {w'' : Workspace} {root : NodeId} (h : SameScopes w w')
    (hsteps : Steps root w' w'') :
    SameScopes w w'' := by
  refine ⟨hsteps.wellFormed h.wellFormed, fun id n hscope => ?_⟩
  rw [← h.scopes id n hscope]
  constructor
  · intro hn
    refine hsteps.content?_of_ne_class h.wellFormed hn ?_
    rcases isScope_iff.mp hscope with hkind | hkind <;> rw [hkind] <;> exact nofun
  · exact hsteps.content?_of_some

/-- A number that is less for what the walk goes through below a scope than for the scope. -/
def scopeHeight (w : Workspace) (id : NodeId) : Nat :=
  if isScope (w.node id) then w.forest.size - id.index + 1 else 0

/-- Going into a scope lowers its height, also after its globals are gathered, which bounds the
walk. -/
theorem scopeHeight_lt {c : NodeId} (h : SameScopes w w') (hscope : isScope (w'.node id) = true)
    (hc : c ∈ (gather w' id).forest.children id) : scopeHeight w c < scopeHeight w id := by
  have hid : w'.forest.content? id = some (w'.node id).unlinked := by
    apply Workspace.content?_of_kind
    rcases isScope_iff.mp hscope with hkind | hkind <;> rw [hkind] <;> exact nofun
  have hold := (h.scopes id (w'.node id).unlinked hscope).mp hid
  have hidScope : isScope (w.node id) = true := (isScope_congr (node_kind hold)).trans hscope
  have hgathered := h.steps (gather_steps h.wellFormed hid hscope .self).1
  unfold scopeHeight
  rw [if_pos hidScope]
  split
  · rename_i hcScope
    have hcContent : w.forest.content? c = some (w.node c).unlinked := by
      apply Workspace.content?_of_kind
      rcases isScope_iff.mp hcScope with hkind | hkind <;> rw [hkind] <;> exact nofun
    have hnew := (hgathered.scopes c (w.node c).unlinked hcScope).mpr hcContent
    have hparent := (hgathered.wellFormed.links id c).mp hc
    have hdeeper := hgathered.wellFormed.deeper c _ id hnew (isContainer_of_isScope hcScope) hparent
    obtain ⟨n, hn, -⟩ := Option.map_eq_some_iff.mp hcContent
    have hlt := Forest.lt_size hn
    omega
  · omega

/-- The walk does not depend on its bound. -/
theorem moved_eq_of_bound (hf : w.forest.WellFormed) {bound : Nat}
    (hbound : w.forest.depthBound ≤ bound) (root : NodeId) : moved bound root w = move w root := by
  have hheight : scopeHeight w root < w.forest.depthBound := by
    unfold scopeHeight Forest.depthBound
    split <;> omega
  rw [move_eq]
  apply Forest.walked_eq_of_height (SameScopes w) (scopeHeight w)
  · exact fun event id access w' h => h.steps (visit_steps h.wellFormed event id access)
  · exact fun w' id n h hn => h.wellFormed.plain id n.unlinked (Forest.content?_of_node? hn)
  · intro w' id n h hn hcontainer hdeeper c hc
    rw [visit_run] at hdeeper hc
    split at hdeeper
    · rename_i hscope
      rw [if_pos hscope] at hc
      exact scopeHeight_lt h hscope hc
    · cases hdeeper
  · omega
  · exact hheight
  · exact ⟨hf, fun _ _ _ => .rfl⟩

/-- Globals find the same home in a shifted workspace. -/
theorem move_shift (hf : w.forest.WellFormed) (k : Nat) (root : NodeId) :
    move (w.shift k) (root.shift k) = (move w root).shift k := by
  have hbound : w.forest.depthBound ≤ (w.shift k).forest.depthBound := by
    rw [Forest.depthBound, Forest.depthBound, show (w.shift k).forest = w.forest.shift k from rfl,
      Forest.size_shift]
    omega
  rw [move_eq, ← moved_eq_of_bound hf hbound]
  unfold moved
  refine Forest.walked_shift (fun w : Workspace => w.shift k) (fun _ => True)
    (fun _ _ _ _ _ => trivial)
    (fun _ => rfl) ?_ _ root trivial
  intro event id access w _
  rw [visit_run, visit_run, Workspace.node_shift, isScope_shift]
  split
  · cases event with
    | enter => exact Prod.ext rfl (gather_shift w k id)
    | exit => exact Prod.ext rfl (dropEmpty_shift w k id)
    | leaf => rfl
  · rfl

end Interop.Overlay.Globals
