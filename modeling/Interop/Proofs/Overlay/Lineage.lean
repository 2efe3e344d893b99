import Interop.Proofs.Overlay.Forest

namespace Interop.Overlay.Forest

variable {f : Forest} {id key parent top : NodeId} {n : Node} {held : List NodeId}

/-- Whether a node is `top` or lies below it. -/
inductive Within (f : Forest) (top : NodeId) : NodeId → Prop
  | self : Within f top top
  | step {id parent : NodeId} (hparent : f.parent? id = some parent) (h : Within f top parent) :
      Within f top id

/-- Trees within trees. -/
theorem Within.trans {mid : NodeId} (hmid : f.Within top mid) (h : f.Within mid id) :
    f.Within top id := by
  induction h with
  | self => exact hmid
  | step hparent _ ih => exact .step hparent ih

/-- A node without a parent is within no other node. -/
theorem Within.eq_of_root (h : f.Within top id) (hroot : f.parent? id = none) : id = top := by
  cases h with
  | self => rfl
  | step hparent _ =>
    rw [hroot] at hparent
    cases hparent

/-- What is above a node below another one is within that one as well. -/
theorem Within.above (h : f.Within top id) (hne : id ≠ top)
    (hparent : f.parent? id = some parent) : f.Within top parent := by
  cases h with
  | self => exact absurd rfl hne
  | step hup hwithin =>
    obtain rfl := Option.some.inj (hup.symm.trans hparent)
    exact hwithin

/-- A node below another one is below one of its children. -/
theorem Within.child (h : f.Within top id) (hne : id ≠ top) :
    ∃ c, f.parent? c = some top ∧ f.Within c id := by
  induction h with
  | self => exact absurd rfl hne
  | @step id parent hparent h ih =>
    by_cases htop : parent = top
    · subst htop
      exact ⟨id, hparent, .self⟩
    · obtain ⟨c, hc, hwithin⟩ := ih htop
      exact ⟨c, hc, .step hparent hwithin⟩

/-- A number that is less for a parent than for its children. -/
def rank (f : Forest) (id : NodeId) : Nat :=
  match f.content? id with
  | some n => if n.kind.isContainer then id.index else f.size
  | none => f.size

theorem rank_le_size (f : Forest) (id : NodeId) : f.rank id ≤ f.size := by
  unfold rank
  split
  · rename_i n hn
    obtain ⟨m, hm, -⟩ := Option.map_eq_some_iff.mp hn
    have hlt := lt_size hm
    split <;> omega
  · exact Nat.le_refl _

/-- The rank of a container is its place. -/
theorem rank_of_container (hn : f.content? id = some n) (hcontainer : n.kind.isContainer = true) :
    f.rank id = id.index := by
  simp only [rank, hn, hcontainer, if_true]

/-- In a well-formed forest parents have a smaller rank, so the way up ends. -/
theorem WellFormed.rank_lt (h : f.WellFormed) (hparent : f.parent? id = some parent) :
    f.rank parent < f.rank id := by
  obtain ⟨n, hn, hcontainer⟩ := h.exists_parent hparent
  rw [rank_of_container hn hcontainer]
  obtain ⟨m, hm⟩ := exists_content_of_parent? hparent
  simp only [rank, hm]
  split
  · rename_i hc
    exact h.deeper id m parent hm hc hparent
  · exact h.lt_size_of_parent hparent

/-- A bound that reaches the node's rank is as good as any other, however nodes are ranked below
their parents. -/
theorem lineageWithin_eq_of_rank {rank : NodeId → Nat}
    (hrank : ∀ {id parent}, f.parent? id = some parent → rank parent < rank id) {bound other : Nat}
    (hbound : rank id ≤ bound) (hother : rank id ≤ other) :
    f.lineageWithin bound id = f.lineageWithin other id := by
  induction bound generalizing id other with
  | zero =>
    have hroot : f.parent? id = none := by
      cases hparent : f.parent? id with
      | none => rfl
      | some parent =>
        have hlt := hrank hparent
        omega
    cases other with
    | zero => rfl
    | succ other => simp only [lineageWithin, hroot]
  | succ bound ih =>
    cases hparent : f.parent? id with
    | none => cases other <;> simp only [lineageWithin, hparent]
    | some parent =>
      have hlt := hrank hparent
      cases other with
      | zero => omega
      | succ other =>
        simp only [lineageWithin, hparent]
        have htail : f.lineageWithin bound parent = f.lineageWithin other parent :=
          ih (by omega) (by omega)
        rw [htail]

/-- The way up is the same under all bounds that are not below the rank of the node. -/
theorem WellFormed.lineageWithin_eq (h : f.WellFormed) {bound other : Nat}
    (hbound : f.rank id ≤ bound) (hother : f.rank id ≤ other) :
    f.lineageWithin bound id = f.lineageWithin other id :=
  lineageWithin_eq_of_rank h.rank_lt hbound hother

/-- What is above a node is its parent and what is above that. -/
theorem WellFormed.lineage_eq (h : f.WellFormed) (id : NodeId) :
    f.lineage id = (f.parent? id).elim [] fun parent => parent :: f.lineage parent := by
  have hrank := f.rank_le_size id
  rw [lineage, h.lineageWithin_eq hrank (Nat.le_succ_of_le hrank), lineageWithin]
  cases hparent : f.parent? id with
  | none => rfl
  | some parent => rfl

theorem WellFormed.ancestors_of_root (h : f.WellFormed) (htop : f.parent? id = none) :
    f.ancestors id = [] := by
  rw [ancestors, h.lineage_eq, htop]
  rfl

/-- The nodes around a node that is not right below the root are its parent and those around
that. -/
theorem WellFormed.ancestors_child (h : f.WellFormed) (hparent : f.parent? id = some parent) :
    f.ancestors id = if f.parent? parent = none then [] else f.ancestors parent ++ [parent] := by
  have hlineage : f.lineage id = parent :: f.lineage parent := by
    rw [h.lineage_eq, hparent]
    rfl
  unfold ancestors
  rw [hlineage, h.lineage_eq parent]
  cases f.parent? parent with
  | none => rfl
  | some outer => simp [List.dropLast_cons_of_ne_nil]

/-- Whether a node is one of `held` or lies below one of them. -/
def HeldBy (f : Forest) (held : List NodeId) (id : NodeId) : Prop :=
  ∃ top ∈ held, f.Within top id

/-- What lies below something that is held is held. -/
theorem HeldBy.below (h : f.HeldBy held parent) (hparent : f.parent? id = some parent) :
    f.HeldBy held id := by
  obtain ⟨top, htop, hwithin⟩ := h
  exact ⟨top, htop, .step hparent hwithin⟩

theorem heldBy_of_mem (h : id ∈ held) : f.HeldBy held id :=
  ⟨id, h, .self⟩

/-- The check for what is held is right when its bound is above the rank. The forest has to be
well-formed. -/
theorem WellFormed.isHeld_iff (h : f.WellFormed) {bound : Nat} (hbound : f.rank id < bound) :
    f.isHeld held bound id = true ↔ f.HeldBy held id := by
  induction bound generalizing id with
  | zero => omega
  | succ bound ih =>
    rw [isHeld, Bool.or_eq_true, List.contains_iff_mem]
    cases hparent : f.parent? id with
    | none =>
      constructor
      · rintro (hmem | hfalse)
        · exact heldBy_of_mem hmem
        · cases hfalse
      · rintro ⟨top, htop, hwithin⟩
        exact .inl (hwithin.eq_of_root hparent ▸ htop)
    | some parent =>
      have hlt := h.rank_lt hparent
      have hiff : f.isHeld held bound parent = true ↔ f.HeldBy held parent := ih (by omega)
      constructor
      · rintro (hmem | hheld)
        · exact heldBy_of_mem hmem
        · exact (hiff.mp hheld).below hparent
      · rintro ⟨top, htop, hwithin⟩
        by_cases hself : id = top
        · exact .inl (hself ▸ htop)
        · exact .inr (hiff.mpr ⟨top, htop, hwithin.above hself hparent⟩)

/-- Whether a release keeps a node. -/
def stays (f : Forest) (held : List NodeId) (id : NodeId) : Bool :=
  f.contains id && f.isHeld held (f.size + 1) id

/-- In a well-formed forest those nodes stay that are there and held. -/
theorem WellFormed.stays_iff (h : f.WellFormed) :
    f.stays held id = true ↔ (∃ n, f.content? id = some n) ∧ f.HeldBy held id := by
  rw [stays, Bool.and_eq_true, contains_iff_content?,
    h.isHeld_iff (Nat.lt_succ_of_le (f.rank_le_size id))]

/-- Releasing clears what does not stay, and cuts off parents that do not. -/
theorem node?_release (f : Forest) (held : List NodeId) (id : NodeId) :
    (f.release held).node? id =
      if f.stays held id then
        (f.node? id).map fun n => if n.parent?.all (f.stays held) then n
          else { n with parent? := none }
      else none := by
  have hslots : (f.release held).slots = f.slots.mapIdx fun i slot =>
      if f.stays held ⟨i⟩ then
        slot.map fun n => if n.parent?.all (f.stays held) then n else { n with parent? := none }
      else none := rfl
  cases id with
  | mk i =>
    rw [node?, hslots, Array.getElem?_mapIdx, node?]
    cases hslot : f.slots[i]? with
    | none =>
      have hgone : f.stays held ⟨i⟩ = false := by
        simp [stays, contains, node?, hslot]
      simp [hgone]
    | some slot => rfl

/-- A node without links stays as it is if it is held. -/
theorem node?_release_root (hid : id ∈ held) (hn : f.node? id = some Node.root) :
    (f.release held).node? id = some Node.root := by
  have hstays : f.stays held id = true := by
    simp [stays, contains, hn, isHeld, hid]
  rw [node?_release, if_pos hstays, hn]
  rfl

/-- If nothing lies below what is held, nothing else stays. -/
theorem WellFormed.node?_release_bare (h : f.WellFormed)
    (hbare : ∀ id ∈ held, f.node? id = some Node.root) (id : NodeId) :
    (f.release held).node? id = if id ∈ held then some Node.root else none := by
  split
  · rename_i hid
    exact node?_release_root hid (hbare id hid)
  · rename_i hid
    rw [node?_release, if_neg]
    intro hstays
    obtain ⟨-, top, htop, hwithin⟩ := h.stays_iff.mp hstays
    obtain ⟨c, hparent, -⟩ := hwithin.child (fun heq => hid (heq ▸ htop))
    have hmem := (h.links top c).mpr hparent
    rw [children_of_node? (hbare top htop)] at hmem
    cases hmem

@[simp]
theorem size_release (f : Forest) (held : List NodeId) : (f.release held).size = f.size := by
  simp [size, release]

/-- After a release a node of a well-formed forest holds something exactly if it did and is held. -/
theorem WellFormed.content?_release (h : f.WellFormed) :
    (f.release held).content? id = some n ↔ f.content? id = some n ∧ f.HeldBy held id := by
  rw [content?, node?_release]
  by_cases hstays : f.stays held id = true
  · have hheld := (h.stays_iff.mp hstays).2
    have hcontent : Option.map Node.unlinked ((f.node? id).map fun n =>
        if n.parent?.all (f.stays held) then n
            else { n with parent? := none }) = f.content? id := by
      rw [content?]
      cases f.node? id with
      | none => rfl
      | some n =>
        simp only [Option.map_some]
        split <;> rfl
    rw [if_pos hstays, hcontent]
    exact (and_iff_left hheld).symm
  · rw [if_neg hstays]
    constructor
    · intro hnone
      cases hnone
    · rintro ⟨hn, hheld⟩
      exact absurd (h.stays_iff.mpr ⟨⟨n, hn⟩, hheld⟩) hstays

/-- After a release a parent is the same exactly if it is held itself. -/
theorem WellFormed.parent?_release (h : f.WellFormed) :
    (f.release held).parent? id = some parent ↔ f.parent? id = some parent ∧
      f.HeldBy held parent := by
  rw [Forest.parent?, node?_release]
  constructor
  · intro hparent
    split at hparent
    · obtain ⟨m, hm, hsome⟩ := Option.bind_eq_some_iff.mp hparent
      obtain ⟨n, hn, rfl⟩ := Option.map_eq_some_iff.mp hm
      split at hsome
      · rename_i hall
        rw [hsome] at hall
        exact ⟨(parent?_of_node? hn).trans hsome, (h.stays_iff.mp hall).2⟩
      · cases hsome
    · cases hparent
  · rintro ⟨hparent, hheld⟩
    obtain ⟨m, hm, _⟩ := h.exists_parent hparent
    obtain ⟨n, hn, hsome⟩ := Option.bind_eq_some_iff.mp hparent
    have hparentStays := h.stays_iff.mpr ⟨⟨m, hm⟩, hheld⟩
    have hstays := h.stays_iff.mpr ⟨⟨n.unlinked, content?_of_node? hn⟩, hheld.below hparent⟩
    rw [if_pos hstays, hn]
    simp [hsome, hparentStays]

/-- After a release children are the same exactly if their parent is held. -/
theorem WellFormed.mem_children_release (h : f.WellFormed) {child : NodeId} :
    child ∈ (f.release held).children parent ↔ child ∈ f.children parent ∧
      f.HeldBy held parent := by
  rw [children, node?_release, children]
  by_cases hstays : f.stays held parent = true
  · have hheld := (h.stays_iff.mp hstays).2
    rw [if_pos hstays]
    cases f.node? parent with
    | none => simp
    | some n =>
      simp only [Option.map_some, Option.getD_some, and_iff_left hheld]
      split <;> rfl
  · rw [if_neg hstays]
    constructor
    · intro hmem
      cases hmem
    · rintro ⟨hmem, hheld⟩
      exact absurd (h.stays_iff.mpr ⟨exists_content_of_mem_children hmem, hheld⟩) hstays

/-- A node that is held keeps all its children, in their order. -/
theorem WellFormed.children_release (h : f.WellFormed) (hheld : f.HeldBy held parent) :
    (f.release held).children parent = f.children parent := by
  rw [children, node?_release, children]
  cases hn : f.node? parent with
  | none => simp
  | some n =>
    rw [if_pos (h.stays_iff.mpr ⟨⟨_, content?_of_node? hn⟩, hheld⟩)]
    simp only [Option.map_some, Option.getD_some]
    split <;> rfl

/-- What a release keeps is well-formed, and it keeps whole trees. -/
theorem WellFormed.release (h : f.WellFormed) (held : List NodeId) :
    (f.release held).WellFormed := by
  refine ⟨fun parent child => ?_, fun id => ?_, fun id n hn hleaf => ?_,
    fun id n parent hn hc hparent => ?_, fun id n hn => h.plain id n (h.content?_release.mp hn).1⟩
  · rw [h.mem_children_release, h.parent?_release, h.links]
  · rw [children, node?_release]
    have hnodup := h.nodup id
    rw [children] at hnodup
    split
    · cases hn : f.node? id with
      | none => exact List.nodup_nil
      | some n =>
        rw [hn] at hnodup
        simp only [Option.map_some, Option.getD_some] at hnodup ⊢
        split <;> exact hnodup
    · exact List.nodup_nil
  · obtain ⟨hn, hheld⟩ := h.content?_release.mp hn
    rw [h.children_release hheld, h.bare id n hn hleaf]
  · exact h.deeper id n parent (h.content?_release.mp hn).1 hc (h.parent?_release.mp hparent).1

/-- The trees that are held stay as they are. -/
theorem WellFormed.within_release (h : f.WellFormed) (htop : f.HeldBy held top) :
    (f.release held).Within top id ↔ f.Within top id := by
  constructor
  · intro hwithin
    induction hwithin with
    | self => exact .self
    | step hparent _ ih => exact .step (h.parent?_release.mp hparent).1 ih
  · intro hwithin
    have hheld : ∀ {key}, f.Within top key → f.HeldBy held key := by
      obtain ⟨first, hfirst, hwithinFirst⟩ := htop
      exact fun hkey => ⟨first, hfirst, hwithinFirst.trans hkey⟩
    induction hwithin with
    | self => exact .self
    | step hparent hbelow ih => exact .step (h.parent?_release.mpr ⟨hparent, hheld hbelow⟩) ih

end Interop.Overlay.Forest
