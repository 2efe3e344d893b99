import Interop.Proofs.Emit.Shift
import Interop.Proofs.Export.Shift
import Interop.Proofs.Generator.Titled
import Interop.Proofs.Naming.Shift
import Interop.Proofs.Overlay.ShiftedGlobals

namespace Interop

open Overlay Export Emit

variable {s : Surroundings} {w : Workspace} {units : List HeaderUnit} {k : Nat}

namespace OverlayPass

/-- A pass does to a shifted workspace what it does to the workspace, and makes the same
artifact. -/
theorem apply_shift (h : Rooted s w) (k : Nat) (pass : OverlayPass) :
    pass.apply (s.shift k) (w.shift k) = ((pass.apply s w).1.shift k, (pass.apply s w).2) := by
  cases pass with
  | globals =>
    have hmoved : Globals.move (w.shift k) (s.root.shift k) = (Globals.move w s.root).shift k :=
      Globals.move_shift h.wellFormed k s.root
    refine Prod.ext ?_ rfl
    change (Globals.move (w.shift k) (s.root.shift k)).release
      (s.root.shift k :: s.kept.map (·.shift k)) = _
    rw [hmoved]
    exact (Workspace.release_shift (move_rooted h).wellFormed k (s.root :: s.kept)).symm
  | naming => exact Prod.ext (Naming.nameAll_shift h.wellFormed k s.root) rfl
  | bridge =>
    have htree : BridgeFile.ofTree (s.shift k) (w.shift k) (s.root.shift k) =
        BridgeFile.ofTree s w s.root :=
      BridgeFile.ofTree_shift h.wellFormed k s.root
    refine Prod.ext rfl ?_
    change some (Artifact.mk _ ((BridgeFile.ofTree (s.shift k) (w.shift k) (s.root.shift k)).text
      (s.shift k))) = _
    rw [htree]
    rfl
  | managed =>
    have htree : ManagedFile.ofTree (s.shift k) (w.shift k) (s.root.shift k) =
        ManagedFile.ofTree s w s.root :=
      ManagedFile.ofTree_shift h.wellFormed k s.root
    refine Prod.ext rfl ?_
    change some (Artifact.mk _ (ManagedFile.ofTree (s.shift k) (w.shift k)
      (s.root.shift k)).text) = _
    rw [htree]
    rfl

/-- The overlay passes make the same artifacts in a shifted workspace, one after the other. -/
theorem applyAll_shift (h : Rooted s w) (k : Nat) (passes : List OverlayPass) :
    applyAll (s.shift k) (w.shift k) passes = ((applyAll s w passes).1.shift k,
      (applyAll s w passes).2) := by
  induction passes generalizing w with
  | nil => rfl
  | cons pass rest ih =>
    simp only [applyAll]
    rw [apply_shift h, ih (apply_rooted h pass)]

end OverlayPass

namespace Passes

/-- Passes make the same artifacts in a shifted workspace. -/
theorem apply_shift (h : Rooted s w) (k : Nat) (p : Passes) :
    p.apply (s.shift k) units (w.shift k) = ((p.apply s units w).1.shift k,
      (p.apply s units w).2) := by
  have hraw : ∀ passes : List RawPass, ∀ w, Rooted s w →
      passes.foldl (RawPass.apply (s.shift k) units) (w.shift k) =
          (passes.foldl (RawPass.apply s units) w).shift k ∧
        Rooted s (passes.foldl (RawPass.apply s units) w) := by
    intro passes
    induction passes with
    | nil => exact fun w h => ⟨rfl, h⟩
    | cons pass rest ih =>
      intro w h
      rw [List.foldl_cons, List.foldl_cons, RawPass.apply_shift h]
      exact ih _ (RawPass.apply_rooted h pass)
  obtain ⟨hshift, hrooted⟩ := hraw p.raw w h
  unfold apply
  rw [hshift, OverlayPass.applyAll_shift hrooted]

end Passes

namespace Generator

variable {g g' : Generator}

/-- Whether the trees of some roots consist of the roots only, and no name is registered for
them. -/
structure Bare (g : Generator) (roots : List NodeId) : Prop where
  reached : Reached g.workspace
  bare : ∀ id ∈ roots, g.workspace.forest.node? id = some Node.root
  unnamed : ∀ e ∈ g.workspace.symbols.entries.entries, e.2 ∉ roots

theorem Bare.nil (h : Reached g.workspace) : g.Bare [] :=
  ⟨h, nofun, fun _ _ => nofun⟩

/-- A namespace starts with its root and nothing else but the roots of the others, if these have
nothing below them. -/
theorem restart_bare (h : g.Bare others) :
    (∀ id, (g.restart others).2.forest.node? id =
      if id = (g.restart others).1 ∨ id ∈ others then some Node.root else none) ∧
          (g.restart others).2.symbols = {} := by
  have hplanted := plant_wellFormed h.reached.wellFormed
  have hnode : ∀ id, (plant g.workspace).2.forest.node? id =
      if id = (g.restart others).1 then some Node.root else g.workspace.forest.node? id := fun id =>
    Forest.node?_push ..
  have hbare : ∀ id ∈ (g.restart others).1 :: others,
      (plant g.workspace).2.forest.node? id = some Node.root := by
    intro id hid
    rw [hnode]
    split
    · rfl
    · rename_i hne
      exact h.bare id ((List.mem_cons.mp hid).resolve_left hne)
  have hnodes : ∀ id, (g.restart others).2.forest.node? id =
      if id = (g.restart others).1 ∨ id ∈ others then some Node.root else none := fun id =>
    (hplanted.node?_release_bare hbare id).trans (by simp only [List.mem_cons])
  refine ⟨hnodes, ?_⟩
  -- a name of an earlier tree belongs to one of the places before the root
  have hgone : ∀ e ∈ g.workspace.symbols.entries.entries,
      ¬(g.restart others).2.forest.contains e.2 = true := by
    intro e he hlive
    have hne : e.2 ≠ (g.restart others).1 := by
      intro heq
      have hlt : (g.restart others).1.index < g.workspace.forest.size := heq ▸ h.reached.issued e he
      exact Nat.lt_irrefl _ hlt
    rw [Forest.contains, hnodes, if_neg (not_or.mpr ⟨hne, h.unnamed e he⟩)] at hlive
    cases hlive
  exact congrArg (fun entries => Symbols.mk ⟨entries⟩) (List.filter_eq_nil_iff.mpr hgone)

theorem size_restart (g : Generator) (others : List NodeId) :
    (g.restart others).2.forest.size = g.workspace.forest.size + 1 :=
  (Forest.size_release ..).trans (Forest.size_push ..)

/-- Where nothing is left of the other trees but their roots, a namespace starts alike behind any
places. -/
theorem restart_bare_shift (h : g.Bare others) (h' : g'.Bare (others.map (·.shift k)))
    (hsize : g'.workspace.forest.size = g.workspace.forest.size + k) :
    g'.restart (others.map (·.shift k)) = ((g.restart others).1.shift k,
      (g.restart others).2.shift k) := by
  obtain ⟨hnode, hsymbols⟩ := restart_bare h
  obtain ⟨hnode', hsymbols'⟩ := restart_bare h'
  have hroot : (g'.restart (others.map (·.shift k))).1 = (g.restart others).1.shift k :=
    congrArg NodeId.mk hsize
  have hmem : ∀ id : NodeId, id.shift k ∈ others.map (·.shift k) ↔ id ∈ others := by
    intro id
    rw [← List.contains_iff_mem, NodeId.contains_shift, List.contains_iff_mem]
  have hforest : (g'.restart (others.map (·.shift k))).2.forest =
      (g.restart others).2.forest.shift k := by
    apply Forest.eq_shift
    · rw [size_restart, size_restart, hsize]
      omega
    · intro id hid
      rw [hnode', hroot, if_neg]
      rintro (rfl | hother)
      · exact Nat.not_lt_of_le (Nat.le_add_left k _) hid
      · obtain ⟨other, -, rfl⟩ := List.mem_map.mp hother
        exact Nat.not_lt_of_le (Nat.le_add_left k _) hid
    · intro id
      rw [hnode', hnode, hroot]
      simp only [NodeId.shift_inj, hmem]
      split <;> rfl
  have hnames : (g'.restart (others.map (·.shift k))).2.symbols =
      (g.restart others).2.symbols.shift k := by
    rw [hsymbols', hsymbols]
    rfl
  exact Prod.ext hroot (congrArg₂ Workspace.mk hforest hnames)

/-- A namespace starts in a shifted workspace as in the workspace. -/
theorem restart_shift (hf : g.workspace.forest.WellFormed) (h : g'.workspace = g.workspace.shift k)
    (others : List NodeId) :
    g'.restart (others.map (·.shift k)) = ((g.restart others).1.shift k,
      (g.restart others).2.shift k) := by
  have hplant : plant g'.workspace = ((plant g.workspace).1.shift k,
      (plant g.workspace).2.shift k) := by
    rw [h]
    refine Prod.ext (Forest.nextId_shift ..) (congrArg₂ Workspace.mk ?_ rfl)
    exact (Forest.push_shift g.workspace.forest k Node.root).symm
  have hreleased := Workspace.release_shift (plant_wellFormed hf) k
    ((plant g.workspace).1 :: others)
  rw [List.map_cons] at hreleased
  unfold restart
  simp only [hplant, ← hreleased]
  exact Prod.ext rfl (congrArg₂ Workspace.mk rfl (Symbols.prune_shift ..).symm)

end Generator

end Interop
