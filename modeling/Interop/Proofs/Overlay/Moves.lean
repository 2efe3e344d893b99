import Mathlib.Data.Finset.Card
import Interop.Proofs.Overlay.Trees

namespace Interop.Overlay.Forest

/-- Whether no node is linked to another one. -/
def Scattered (f : Forest) : Prop :=
  ∀ id, f.parent? id = none ∧ f.children id = []

section Place

variable {f f' : Forest} {n : Node} {id key parent child top : NodeId} {target? : Option NodeId}

/-- In the empty forest nothing is linked. -/
theorem scattered_empty : empty.Scattered :=
  fun _ => ⟨rfl, rfl⟩

/-- Nodes that are not linked may be pushed one after the other. -/
theorem Scattered.push (h : f.Scattered) (hparent : n.parent? = none)
    (hchildren : n.children = []) :
    (f.push n).Scattered :=
  fun id => ⟨(parent?_push hparent id).trans (h id).1, (children_push hchildren id).trans (h id).2⟩

/-- Nodes that are not linked stand in trees of one node each. -/
theorem Scattered.linked (h : f.Scattered) : f.Linked := by
  refine ⟨fun parent child => ?_, fun id => ?_, fun {id parent} hparent => ?_⟩
  · rw [(h parent).2, (h child).1]
    exact iff_of_false nofun nofun
  · rw [(h id).2]
    exact List.nodup_nil
  · rw [(h id).1] at hparent
    cases hparent

/-- In trees the links agree in both directions. -/
theorem Linked.paired (h : f.Linked) : f.Paired :=
  ⟨h.links, fun hparent heq => h.acyclic hparent (heq ▸ .self)⟩

open Classical in
/-- The number of nodes that a node lies within. -/
noncomputable def depth (f : Forest) (id : NodeId) : Nat :=
  ((Finset.range f.size).filter fun i => f.Within ⟨i⟩ id).card

/-- No node lies deeper than there are nodes. -/
theorem depth_le_size (f : Forest) (id : NodeId) : f.depth id ≤ f.size := by
  classical
  exact (Finset.card_filter_le _ _).trans (Finset.card_range f.size).le

/-- A node lies within itself and within all that its parent lies within. -/
theorem Linked.depth_lt (h : f.Linked) (hparent : f.parent? id = some parent) :
    f.depth parent < f.depth id := by
  classical
  obtain ⟨n, hn, -⟩ := Option.bind_eq_some_iff.mp hparent
  refine Finset.card_lt_card ((Finset.ssubset_iff_of_subset fun i hi => ?_).mpr ⟨id.index, ?_,
    fun hid => ?_⟩)
  · obtain ⟨hrange, hwithin⟩ := Finset.mem_filter.mp hi
    exact Finset.mem_filter.mpr ⟨hrange, .step hparent hwithin⟩
  · exact Finset.mem_filter.mpr ⟨Finset.mem_range.mpr (lt_size hn), .self⟩
  · exact h.acyclic hparent (Finset.mem_filter.mp hid).2

/-- What holds of a node if it holds of its parent, where there is one, holds of every node. -/
theorem Linked.parent_induction (h : f.Linked) {motive : NodeId → Prop}
    (step : ∀ id, (∀ parent, f.parent? id = some parent → motive parent) → motive id)
    (id : NodeId) : motive id := by
  induction hdepth : f.depth id using Nat.strong_induction_on generalizing id with
  | _ depth ih => exact step id fun parent hparent => ih _ (hdepth ▸ h.depth_lt hparent) parent rfl

/-- What is above a node is its parent and what is above that. -/
theorem Linked.lineage_eq (h : f.Linked) (id : NodeId) :
    f.lineage id = (f.parent? id).elim [] fun parent => parent :: f.lineage parent := by
  have hdepth := f.depth_le_size id
  rw [lineage, lineageWithin_eq_of_rank h.depth_lt hdepth (Nat.le_succ_of_le hdepth), lineageWithin]
  cases hparent : f.parent? id with
  | none => rfl
  | some parent => rfl

/-- Above every node there is a root. -/
theorem Linked.exists_top (h : f.Linked) (id : NodeId) :
    ∃ top, f.parent? top = none ∧ f.Within top id := by
  induction id using h.parent_induction with
  | step id ih =>
    cases hparent : f.parent? id with
    | none => exact ⟨id, hparent, .self⟩
    | some parent =>
      obtain ⟨top, htop, hwithin⟩ := ih parent hparent
      exact ⟨top, htop, .step hparent hwithin⟩

/-- Every node lies in exactly one tree. -/
theorem Linked.existsUnique_top (h : f.Linked) (id : NodeId) :
    ∃! top, f.parent? top = none ∧ f.Within top id := by
  obtain ⟨top, htop, hwithin⟩ := h.exists_top id
  refine ⟨top, ⟨htop, hwithin⟩, fun other ⟨hother, hwithin'⟩ => ?_⟩
  rcases hwithin.total hwithin' with hbelow | hbelow
  · exact hbelow.eq_of_root hother
  · exact (hbelow.eq_of_root htop).symm

/-- Whether a forest is another one in which one node stands elsewhere: as the last child of a
target, or on its own. -/
structure Moved (f : Forest) (child : NodeId) (target? : Option NodeId) (f' : Forest) : Prop where
  contents : ∀ id, f'.content? id = f.content? id
  parents : ∀ id, f'.parent? id = if id = child then target? else f.parent? id
  children : ∀ id, f'.children id = (f.children id).filter (· != child) ++ if target? =
    some id then [child] else []

namespace Moved

variable (h : f.Moved child target? f')
include h

/-- The moved node has the target for its parent, or none. -/
theorem parent?_self : f'.parent? child = target? :=
  (h.parents child).trans (if_pos rfl)

/-- All other nodes keep their parents. -/
theorem parent?_of_ne (hne : id ≠ child) : f'.parent? id = f.parent? id :=
  (h.parents id).trans (if_neg hne)

/-- After a move the links agree in both directions. They need to have agreed before. -/
theorem links (hf : f.Linked) (parent key : NodeId) :
    key ∈ f'.children parent ↔ f'.parent? key = some parent := by
  rw [h.children, h.parents, List.mem_append, List.mem_filter, hf.links, bne_iff_ne]
  by_cases hkey : key = child
  · simp [hkey]
  · by_cases htarget : target? = some parent
    · simp [hkey, htarget]
    · simp [hkey, htarget]

/-- After a move no node is a child twice. -/
theorem nodup (hf : f.Linked) (id : NodeId) : (f'.children id).Nodup := by
  rw [h.children]
  refine List.nodup_append.mpr ⟨(hf.nodup id).filter _, ?_, fun a ha b hb => ?_⟩
  · split <;> simp
  · have hne := bne_iff_ne.mp (List.mem_filter.mp ha).2
    split at hb
    · rw [List.mem_singleton.mp hb]
      exact hne
    · cases hb

/-- What lies within a node after the move lay within it before, or came with the moved node. -/
theorem within_cases (hwithin : f'.Within top id) :
    f.Within top id ∨ f.Within child id ∧ ∃ parent, target? = some parent ∧
      f'.Within top parent := by
  induction hwithin with
  | self => exact .inl .self
  | @step id parent hparent hup ih =>
    by_cases hid : id = child
    · subst hid
      exact .inr ⟨.self, parent, h.parent?_self.symm.trans hparent, hup⟩
    · rw [h.parent?_of_ne hid] at hparent
      exact ih.imp (.step hparent) fun ⟨hbelow, hcame⟩ => ⟨.step hparent hbelow, hcame⟩

/-- What did not lie within the moved node has the same nodes above it as before. -/
theorem within_of_outside (houtside : ¬f.Within child id) : f'.Within top id ↔ f.Within top id := by
  constructor
  · intro hwithin
    exact (h.within_cases hwithin).resolve_right fun hcame => houtside hcame.1
  · intro hwithin
    induction hwithin with
    | self => exact .self
    | @step id parent hparent _ ih =>
      have hid : id ≠ child := fun heq => houtside (heq ▸ .self)
      exact .step ((h.parent?_of_ne hid).trans hparent) (ih fun hup => houtside (.step hparent hup))

variable (hfree : ∀ parent, target? = some parent → ¬f.Within child parent)
include hfree

/-- The subtree of the moved node stays whole: the same nodes lie within each node of it. -/
theorem within_of_inside (hf : f.Linked) (hinside : f.Within child top) :
    f'.Within top id ↔ f.Within top id := by
  constructor
  · intro hwithin
    refine (h.within_cases hwithin).resolve_right fun ⟨_, parent, htarget, hup⟩ =>
      hfree parent htarget ?_
    exact hinside.trans ((h.within_of_outside (hfree parent htarget)).mp hup)
  · intro hwithin
    induction hwithin with
    | self => exact .self
    | @step id parent hparent hup ih =>
      have hid : id ≠ child := by
        rintro rfl
        exact hf.acyclic hparent (hinside.trans hup)
      exact .step ((h.parent?_of_ne hid).trans hparent) ih

/-- A move makes no cycle, if the target does not lie below the moved node. -/
theorem acyclic (hf : f.Linked) (hparent : f'.parent? id = some parent) : ¬f'.Within id parent := by
  intro hwithin
  by_cases hid : id = child
  · subst hid
    have htarget : target? = some parent := h.parent?_self.symm.trans hparent
    exact hfree parent htarget ((h.within_of_inside hfree hf .self).mp hwithin)
  · rw [h.parent?_of_ne hid] at hparent
    rcases h.within_cases hwithin with hold | ⟨hbelow, target, htarget, hup⟩
    · exact hf.acyclic hparent hold
    · have hup := (h.within_of_outside (hfree target htarget)).mp hup
      exact hfree target htarget ((Within.step hparent hbelow).trans hup)

/-- After a move nodes stand in trees. -/
theorem linked (hf : f.Linked) : f'.Linked :=
  ⟨h.links hf, h.nodup hf, h.acyclic hfree hf⟩

end Moved

end Place

/-- A change of the place of a node. -/
inductive Move where
  | attach (parent child : NodeId)
  | detach (child : NodeId)
deriving DecidableEq, Repr

namespace Move

/-- The node that is moved. -/
def child : Move → NodeId
  | attach _ child => child
  | detach child => child

/-- The node that gets the moved one as a child, if one does. -/
def target? : Move → Option NodeId
  | attach parent _ => some parent
  | detach _ => none

/-- Makes a move. -/
def apply (f : Forest) : Move → Forest
  | attach parent child => f.attach parent child
  | detach child => f.detach child

/-- Whether a move may be made: the node and its new parent are there, and the parent is not the
node itself or something below it. -/
def Allowed (f : Forest) : Move → Prop
  | attach parent child => f.contains parent = true ∧ f.contains child = true ∧
    ¬f.Within child parent
  | detach child => f.contains child = true

/-- Whether moves may be made one after the other. -/
def AllAllowed (f : Forest) : List Move → Prop
  | [] => True
  | m :: rest => m.Allowed f ∧ AllAllowed (m.apply f) rest

/-- Makes moves one after the other. -/
def applyAll (f : Forest) (moves : List Move) : Forest :=
  moves.foldl apply f

variable {f : Forest} {m : Move} {moves : List Move}

/-- The target of an allowed move does not lie below the moved node. -/
theorem Allowed.free (h : m.Allowed f) (parent : NodeId) (htarget : m.target? = some parent) :
    ¬f.Within m.child parent := by
  cases m with
  | attach target child =>
    cases htarget
    exact h.2.2
  | detach child => cases htarget

/-- A move does what it says: its node stands at its target, and everything else stands where it
was. -/
theorem Allowed.moved (h : m.Allowed f) (hf : f.Linked) :
    f.Moved m.child m.target? (m.apply f) := by
  cases m with
  | attach parent child =>
    obtain ⟨hparent, hchild, hfree⟩ := h
    obtain ⟨n, hn⟩ := (f.contains_iff_content? parent).mp hparent
    obtain ⟨k, hk⟩ := (f.contains_iff_content? child).mp hchild
    have hne : parent ≠ child := fun heq => hfree (heq ▸ .self)
    refine ⟨content?_attach f parent child, hf.paired.parent?_attach hne hk, fun id => ?_⟩
    rw [apply, hf.paired.children_attach hn hne id]
    simp only [target?, Move.child, Option.some.injEq, eq_comm]
  | detach child =>
    refine ⟨content?_detach f child, hf.paired.parent?_detach child, fun id => ?_⟩
    exact (hf.paired.children_detach child id).trans (List.append_nil _).symm

/-- After allowed moves nodes stand in trees. -/
theorem AllAllowed.linked (h : AllAllowed f moves) (hf : f.Linked) : (applyAll f moves).Linked := by
  induction moves generalizing f with
  | nil => exact hf
  | cons m rest ih => exact ih h.2 ((h.1.moved hf).linked h.1.free hf)

/-- Allowed moves leave what the nodes hold. -/
theorem AllAllowed.contents (h : AllAllowed f moves) (hf : f.Linked) (id : NodeId) :
    (applyAll f moves).content? id = f.content? id := by
  induction moves generalizing f with
  | nil => rfl
  | cons m rest ih =>
    have hmoved := h.1.moved hf
    exact (ih h.2 (hmoved.linked h.1.free hf)).trans (hmoved.contents id)

/-- Whatever moves are made among nodes that were not linked, parents and children agree, no child
is listed twice, no node is above itself, every node is what it was and lies in exactly one tree.
Each further move puts its node, with all that lies within it, where it says: the nodes above
anything else and the order of all other children stay. -/
theorem AllAllowed.keeps_forest (hstart : f.Scattered) (h : AllAllowed f moves) :
    let g := applyAll f moves
    g.Linked ∧ (∀ id, g.content? id = f.content? id) ∧
    (∀ id, ∃! top, g.parent? top = none ∧ g.Within top id) ∧
    ∀ m : Move, m.Allowed g →
      g.Moved m.child m.target? (m.apply g) ∧
      (∀ top id, g.Within m.child top → ((m.apply g).Within top id ↔ g.Within top id)) ∧
      ∀ top id, ¬g.Within m.child id → ((m.apply g).Within top id ↔ g.Within top id) := by
  intro g
  have hlinked := h.linked hstart.linked
  refine ⟨hlinked, h.contents hstart.linked, hlinked.existsUnique_top, fun m hm => ?_⟩
  have hmoved := hm.moved hlinked
  exact ⟨hmoved, fun _ _ => hmoved.within_of_inside hm.free hlinked,
    fun _ _ => hmoved.within_of_outside⟩

/-- A node is added to a parent, moved below a sibling, added to its first parent again, and the
sibling is taken out. -/
theorem AllAllowed.keeps_forest_regrouped :
    let f := ((empty.push { kind := .nameSpace, name := "A", symbol := "A" }).push
      { kind := .classType, name := "B", symbol := "A::B" }).push { kind := .freeFunction, name :=
                                                                    "f", symbol := "A::f" }
    let moves := [attach ⟨0⟩ ⟨2⟩, attach ⟨0⟩ ⟨1⟩, attach ⟨1⟩ ⟨2⟩, attach ⟨0⟩ ⟨2⟩]
    let g := applyAll f moves
    f.Scattered ∧ AllAllowed f moves ∧ g.children ⟨0⟩ = [⟨1⟩, ⟨2⟩] ∧ g.Linked ∧
      (detach ⟨1⟩).Allowed g ∧ ((detach ⟨1⟩).apply g).children ⟨0⟩ = [⟨2⟩] ∧
      g.Moved ⟨1⟩ none ((detach ⟨1⟩).apply g) := by
  intro f moves g
  have hstart : f.Scattered := ((scattered_empty.push rfl rfl).push rfl rfl).push rfl rfl
  have hroot : ∀ {g : Forest} {id : NodeId}, id ≠ ⟨0⟩ → g.parent? ⟨0⟩ = none → ¬g.Within id ⟨0⟩ :=
    fun hne htop hwithin => hne (hwithin.eq_of_root htop).symm
  have hbelow : ¬(applyAll f (moves.take 2)).Within ⟨2⟩ ⟨1⟩ := by
    intro hwithin
    have hparent : (applyAll f (moves.take 2)).parent? ⟨1⟩ = some ⟨0⟩ := by decide
    cases hwithin with
    | step hparent' hup =>
      obtain rfl := Option.some.inj (hparent'.symm.trans hparent)
      exact hroot (by decide) (by decide) hup
  have hallowed : AllAllowed f moves :=
    ⟨⟨by decide, by decide, hroot (by decide) (by decide)⟩,
      ⟨by decide, by decide, hroot (by decide) (by decide)⟩,
      ⟨by decide, by decide, hbelow⟩, ⟨by decide, by decide, hroot (by decide) (by decide)⟩,
        trivial⟩
  obtain ⟨hlinked, -, -, hmoves⟩ := AllAllowed.keeps_forest hstart hallowed
  have hdetach : (detach ⟨1⟩).Allowed g := by
    show g.contains ⟨1⟩ = true
    decide
  exact ⟨hstart, hallowed, by decide, hlinked, hdetach, by decide, (hmoves _ hdetach).1⟩

end Move

end Interop.Overlay.Forest
