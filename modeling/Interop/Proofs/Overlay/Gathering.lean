import Interop.Proofs.Overlay.Housing
import Interop.Proofs.Overlay.Moves

namespace Interop.Overlay

namespace Forest

variable {f : Forest} {n m : Node} {parent scope target : NodeId} {members : List NodeId}

/-- Pushing a node without links keeps a forest linked. -/
theorem Linked.push (h : f.Linked) (hparent : n.parent? = none) (hchildren : n.children = []) :
    (f.push n).Linked := by
  have hwithin : ∀ {top id}, (f.push n).Within top id → f.Within top id := by
    intro top id hwithin
    induction hwithin with
    | self => exact .self
    | step hstep _ ih => exact .step ((parent?_push hparent _).symm.trans hstep) ih
  refine ⟨fun parent child => ?_, fun id => ?_, fun {id parent} hp hw => ?_⟩
  · rw [children_push hchildren, parent?_push hparent]
    exact h.links parent child
  · rw [children_push hchildren]
    exact h.nodup id
  · rw [parent?_push hparent] at hp
    exact h.acyclic hp (hwithin hw)

/-- A new node may be put below any node that is there. -/
theorem Linked.allowed_pushBelow (h : f.Linked) (hparent : f.content? parent = some m)
    (hfresh : n.IsFresh) :
    (Move.attach parent f.nextId).Allowed (f.push n) := by
  have hne := ne_nextId_of_content? hparent
  refine ⟨?_, ?_, fun hwithin => ?_⟩
  · rw [contains_iff_content?]
    exact ⟨m, by rw [content?_push, if_neg hne, hparent]⟩
  · rw [contains_iff_content?]
    exact ⟨n.unlinked, by rw [content?_push, if_pos rfl]⟩
  · obtain ⟨c, hc, -⟩ := hwithin.child hne
    rw [parent?_push hfresh.parent] at hc
    obtain ⟨k, hk⟩ := exists_content_of_mem_children ((h.links f.nextId c).mpr hc)
    exact ne_nextId_of_content? hk rfl

/-- Pushing a fresh node below one that is there keeps a forest linked. The parent need not be a
container. -/
theorem Linked.pushBelow (h : f.Linked) (hparent : f.content? parent = some m)
    (hfresh : n.IsFresh) :
    (f.pushBelow parent n).Linked := by
  have hallowed := h.allowed_pushBelow hparent hfresh
  exact (hallowed.moved (h.push hfresh.parent hfresh.children)).linked hallowed.free
    (h.push hfresh.parent hfresh.children)

/-- Nodes with one parent move below a sibling one after the other, and stand there in their
order. -/
theorem Linked.attachAll (h : f.Linked) (hnodup : members.Nodup)
    (hmembers : ∀ c ∈ members, f.parent? c = some scope) (htarget : f.parent? target = some scope)
    (hnot : target ∉ members) :
    (members.foldl (·.attach target ·) f).Linked ∧
      (∀ id, (members.foldl (·.attach target ·) f).content? id = f.content? id) ∧
      ∀ id, (members.foldl (·.attach target ·) f).children id =
        (f.children id).filter (· ∉ members) ++ if id = target then members else [] := by
  induction members generalizing f with
  | nil => exact ⟨h, fun _ => rfl, fun id => by simp⟩
  | cons c rest ih =>
    obtain ⟨hc, hrest⟩ := List.nodup_cons.mp hnodup
    obtain ⟨hne, hnotRest⟩ := not_or.mp (List.mem_cons.not.mp hnot)
    have hparent := hmembers c List.mem_cons_self
    have hlive : ∀ {id}, f.parent? id = some scope → f.contains id = true := fun hid =>
      (f.contains_iff_content? _).mpr (exists_content_of_parent? hid)
    have hallowed : (Move.attach target c).Allowed f :=
      ⟨hlive htarget, hlive hparent, fun hwithin => h.acyclic hparent (hwithin.above hne htarget)⟩
    have hmoved : f.Moved c (some target) (f.attach target c) := hallowed.moved h
    obtain ⟨hlinked, hcontents, hchildren⟩ :=
      ih (f := f.attach target c) (hmoved.linked hallowed.free h) hrest
      (fun d hd => by
        have hdc : d ≠ c := fun heq => hc (heq ▸ hd)
        exact (hmoved.parent?_of_ne hdc).trans (hmembers d (List.mem_cons_of_mem c hd)))
      ((hmoved.parent?_of_ne hne).trans htarget) hnotRest
    refine ⟨hlinked, fun id => (hcontents id).trans (hmoved.contents id),
      fun id => (hchildren id).trans ?_⟩
    have hfilter : ((f.children id).filter (· != c)).filter (· ∉ rest) =
        (f.children id).filter (· ∉ c :: rest) := by
      rw [List.filter_filter]
      refine List.filter_congr fun d _ => ?_
      by_cases hd : d = c
      · simp [hd]
      · simp [hd]
    rw [hmoved.children, List.filter_append, hfilter, List.append_assoc]
    congr 1
    by_cases hid : id = target
    · simp [hid, hc]
    · simp [hid, Ne.symm hid]

end Forest

namespace Globals

variable {w w' : Workspace} {scope home id : NodeId} {m n : Node}

/-- The members of a scope that move. -/
def globalsOf (w : Workspace) (scope : NodeId) : List NodeId :=
  (w.forest.children scope).filter fun c => isGlobal (w.node c)

/-- The class that a scope gets for its globals if it has none. -/
def homeNode (w : Workspace) (scope : NodeId) : Node :=
  { kind := .classType, name := className, symbol := Symbol.qualify (w.node scope).symbol className
    flags := { isStatic := true } }

/-- Whether a scope has given its globals to a class. -/
structure Gathered (w : Workspace) (scope home : NodeId) (w' : Workspace) : Prop where
  linked : w'.forest.Linked
  origin : existing? w scope = some home ∧ (∀ id, w'.forest.content? id = w.forest.content? id) ∨
    existing? w scope = none ∧ home = w.forest.nextId ∧ ∀ id, w'.forest.content? id =
      if id = w.forest.nextId then some (homeNode w scope) else w.forest.content? id
  children_scope : w'.forest.children scope = (w.forest.children scope).filter
    (fun c => !isGlobal (w.node c)) ++ if (existing? w scope).isNone then [home] else []
  children_home : w'.forest.children home = w.forest.children home ++ globalsOf w scope
  children_other : ∀ id, id ≠ scope → id ≠ home → w'.forest.children id = w.forest.children id

/-- The class that is found for globals is a child of the scope with the right kind and name. -/
theorem existing?_eq_some (h : existing? w scope = some home) :
    home ∈ w.forest.children scope ∧ (w.node home).kind = .classType ∧
      (w.node home).name = className := by
  have hclass := List.find?_some h
  rw [Bool.and_eq_true, beq_iff_eq, beq_iff_eq] at hclass
  exact ⟨List.mem_of_find?_eq_some h, hclass⟩

theorem isGlobal_of_class (h : n.kind = .classType) : isGlobal n = false := by
  rw [isGlobal, h]
  rfl

/-- Where there is nothing to gather, nothing changes, and no class is made. -/
theorem gather_of_nil (h : globalsOf w scope = []) : gather w scope = w := by
  rw [globalsOf] at h
  simp only [gather, h]

theorem gather_of_ne_nil (h : globalsOf w scope ≠ []) :
    gather w scope = { (ensure w scope).2 with
      forest := (globalsOf w scope).foldl (·.attach (ensure w scope).1 ·)
          (ensure w scope).2.forest } := by
  unfold gather
  split
  · rename_i hnil
    exact absurd hnil h
  · rename_i hglobals
    simp only [globalsOf]

/-- A class for globals stands in its scope, behind what was there if it is new. -/
theorem ensure_spec (hf : w.forest.Linked) (hm : w.forest.content? scope = some m) :
    (ensure w scope).2.forest.Linked ∧
    (existing? w scope = some (ensure w scope).1 ∧
        (∀ id, (ensure w scope).2.forest.content? id = w.forest.content? id) ∨
      existing? w scope = none ∧ (ensure w scope).1 = w.forest.nextId ∧ ∀ id,
        (ensure w scope).2.forest.content? id =
          if id = w.forest.nextId then some (homeNode w scope) else w.forest.content? id) ∧
    ∀ id, (ensure w scope).2.forest.children id = w.forest.children id ++
      if id = scope ∧ (existing? w scope).isNone then [(ensure w scope).1] else [] := by
  unfold ensure
  cases hexisting : existing? w scope with
  | some home => exact ⟨hf, .inl ⟨rfl, fun _ => rfl⟩, fun id => by simp⟩
  | none =>
    have hfresh : (homeNode w scope).IsFresh := isFresh_home _
    refine ⟨hf.pushBelow hm hfresh,
      .inr ⟨rfl, rfl, fun id => Workspace.content?_grow hfresh w scope id _⟩, fun id => ?_⟩
    refine (hf.paired.children_pushBelow hm hfresh id).trans ?_
    simp

/-- All globals of a scope come to stand in one class of the scope, behind what was in it and in
their order. -/
theorem gather_spec (hf : w.forest.Linked) (hm : w.forest.content? scope = some m)
    (hglobals : globalsOf w scope ≠ []) :
    ∃ home, Gathered w scope home (gather w scope) := by
  obtain ⟨hlinked, horigin, hchildren⟩ := ensure_spec hf hm
  rw [gather_of_ne_nil hglobals]
  generalize hhome : (ensure w scope).1 = home at horigin hchildren ⊢
  generalize hw' : (ensure w scope).2 = w' at hlinked horigin hchildren ⊢
  have hmem : ∀ {c}, c ∈ globalsOf w scope ↔ c ∈ w.forest.children scope ∧
    isGlobal (w.node c) = true := List.mem_filter
  have hold : ∀ {c}, c ∈ w.forest.children scope → c ≠ w.forest.nextId := by
    rintro c hc rfl
    obtain ⟨k, hk⟩ := Forest.exists_content_of_parent? ((hf.links scope _).mp hc)
    exact Forest.ne_nextId_of_content? hk rfl
  have hbeside : home ∈ w'.forest.children scope ∧ home ∉ globalsOf w scope ∧ home ≠ scope := by
    rw [hchildren]
    rcases horigin with ⟨hexisting, -⟩ | ⟨hnone, rfl, -⟩
    · obtain ⟨hin, hkind, -⟩ := existing?_eq_some hexisting
      refine ⟨List.mem_append_left _ hin, fun hglobal => ?_, fun heq => ?_⟩
      · have hfalse := (hmem.mp hglobal).2
        rw [isGlobal_of_class hkind] at hfalse
        cases hfalse
      · exact hf.acyclic ((hf.links scope home).mp hin) (heq ▸ .self)
    · refine ⟨?_, fun hglobal => hold (hmem.mp hglobal).1 rfl,
        (Forest.ne_nextId_of_content? hm).symm⟩
      simp [hnone]
  obtain ⟨hin, hnot, hne⟩ := hbeside
  have hparents : ∀ c ∈ globalsOf w scope, w'.forest.parent? c = some scope := by
    intro c hc
    rw [← hlinked.links, hchildren]
    exact List.mem_append_left _ (hmem.mp hc).1
  have hnodup : (globalsOf w scope).Nodup := (hf.nodup scope).filter _
  obtain ⟨hlinked', hcontents, hchildren'⟩ := hlinked.attachAll hnodup hparents
    ((hlinked.links scope home).mp hin) hnot
  have hother : ∀ {id}, id ≠ scope →
      (w.forest.children id).filter (· ∉ globalsOf w scope) = w.forest.children id := by
    intro id hid
    refine List.filter_eq_self.mpr fun c hc => decide_eq_true fun hglobal => hid ?_
    exact Option.some.inj
      (((hf.links id c).mp hc).symm.trans ((hf.links scope c).mp (hmem.mp hglobal).1))
  refine ⟨home, hlinked', ?_, ?_, ?_, fun id hscope hid => ?_⟩
  · exact horigin.imp (fun ⟨h, hsame⟩ => ⟨h, fun id => (hcontents id).trans (hsame id)⟩)
      fun ⟨h, hnew, hsame⟩ => ⟨h, hnew, fun id => (hcontents id).trans (hsame id)⟩
  · refine (hchildren' scope).trans ?_
    have hfilter : (w.forest.children scope).filter (· ∉ globalsOf w scope) =
        (w.forest.children scope).filter fun c => !isGlobal (w.node c) := by
      refine List.filter_congr fun c hc => ?_
      simp [hmem, hc]
    rw [if_neg hne.symm, List.append_nil, hchildren, List.filter_append, hfilter]
    congr 1
    by_cases hnone : (existing? w scope).isNone = true
    · simp [hnone, hnot]
    · simp [hnone]
  · refine (hchildren' home).trans ?_
    rw [hchildren, if_neg (fun h => hne h.1), List.append_nil, if_pos rfl, hother hne]
  · refine (hchildren' id).trans ?_
    rw [hchildren, if_neg (fun h => hscope h.1), List.append_nil, if_neg hid, List.append_nil,
      hother hscope]

end Globals
end Interop.Overlay
