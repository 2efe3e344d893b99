import Interop.Proofs.Overlay.Reshaping

namespace Interop.Overlay.Globals

variable {w w' : Workspace} {root scope id c : NodeId} {home : NodeId → NodeId} {n : Node}

/-- What the pass has made of a workspace when it is through. -/
abbrev Finished (w : Workspace) (root : NodeId) (home : NodeId → NodeId) (w' : Workspace) : Prop :=
  Underway w root (Reach w root) (fun id => Reach w root id ∧ Hollow w id) home w'

/-- The pass goes everywhere it has to. The forest has to be linked, and the root to be one of a
tree. -/
theorem move_finished (hf : w.forest.Linked) (hroot : w.forest.IsTree root) :
    ∃ home, Finished w root home (move w root) := by
  have hstart := Underway.start hf root
  rw [move_eq]
  cases hscope : isScope (w.node root) with
  | true =>
    have hbound : w.forest.size < w.forest.depthBound + ([] : List NodeId).length := by
      rw [Forest.depthBound]
      omega
    obtain ⟨home, -, h⟩ := hstart.walk hf hroot ⟨hscope, .self⟩ .root hbound fun _ _ => ⟨id, id⟩
    exact ⟨home, h.congr (fun s => by simp [Reach, hscope]) fun s => by simp [Reach, hscope]⟩
  | false =>
    rw [moved_of_not_scope (isProxy_of_within hroot .self) hscope]
    exact ⟨fun s => s, hstart.congr (fun s => by simp [Reach, hscope]) fun s =>
      by simp [Reach, hscope]⟩

/-- Where all scopes are cleared and hold something, the pass changes nothing. -/
theorem moved_of_settled (hroot : w.forest.IsTree root)
    (hsettled : ∀ id, Reach w root id → Cleared w id ∧
      (id ≠ root → (w.node id).kind = .nameSpace → w.forest.children id ≠ [])) (bound :
        Nat) (hreach : Reach w root id) :
    moved bound id w = w := by
  induction bound generalizing id with
  | zero => rfl
  | succ bound ih =>
    obtain ⟨hcleared, hholds⟩ := hsettled id hreach
    have hcontent := content?_of_isScope hreach.isScope
    obtain ⟨n, hn, -⟩ := Option.map_eq_some_iff.mp hcontent
    have hnode := Workspace.node_of_node? hn
    have hplain : (w.node id).unlinked.isProxy = false := isProxy_of_within hroot hreach.within
    have hinner : ∀ cs : List NodeId, (∀ c ∈ cs, c ∈ w.forest.children id) →
        cs.foldl (fun w c => moved bound c w) w = w := by
      intro cs hcs
      induction cs with
      | nil => rfl
      | cons c rest ihRest =>
        have hparent := hroot.links id c hreach.within (hcs c List.mem_cons_self)
        have hchild : moved bound c w = w := by
          cases hscope : isScope (w.node c) with
          | true => exact ih ⟨hreach.1, .inner hparent (content?_of_isScope hscope) hscope hreach.2⟩
          | false =>
            exact moved_of_not_scope (isProxy_of_within hroot (.step hparent hreach.within))
              hscope bound
        rw [List.foldl_cons, hchild]
        exact ihRest fun d hd => hcs d (List.mem_cons_of_mem c hd)
    rw [moved_of_scope hplain hcontent hreach.isScope rfl, gather_of_cleared hcleared,
      hinner _ fun _ hc => hc, if_pos hreach.isScope, dropEmpty]
    split
    · rename_i hempty
      rw [Bool.and_eq_true, beq_iff_eq, List.isEmpty_iff,
        hnode, ← Forest.children_of_node? hn, ← hnode] at hempty
      by_cases htop : id = root
      · rw [Forest.detach, htop, hroot.top]
      · exact absurd hempty.2 (hholds htop hempty.1)
    · rfl

namespace Finished

variable {parent key : NodeId} (h : Finished w root home w')
include h

/-- What the pass leaves below a node was there, is a new class for globals, or has moved into
one. -/
theorem mem_children_cases (hc : c ∈ w'.forest.children key) :
    c ∈ w.forest.children key ∧ ¬(Reach w root c ∧ Hollow w c) ∧
      (Reach w root key → isGlobal (w.node c) = false) ∨
    (Reach w root key ∧ globalsOf w key ≠ [] ∧ existing? w key = none ∧ c = home key) ∨
    ∃ s, Reach w root s ∧ globalsOf w s ≠ [] ∧ key = home s ∧ c ∈ globalsOf w s := by
  by_cases hdone : Reach w root key
  · rw [h.children_done hdone, List.mem_append, List.mem_filter] at hc
    rcases hc with ⟨hmem, hstays⟩ | hnew
    · rw [Bool.and_eq_true, Bool.not_eq_true', decide_eq_false_iff_not, Bool.not_eq_true'] at hstays
      exact .inl ⟨hmem, hstays.1, fun _ => hstays.2⟩
    · split at hnew
      · rename_i hboth
        exact .inr (.inl ⟨hdone, hboth.1, hboth.2, List.mem_singleton.mp hnew⟩)
      · cases hnew
  · by_cases hhome : ∃ s, Reach w root s ∧ globalsOf w s ≠ [] ∧ key = home s
    · obtain ⟨s, hs, hne, rfl⟩ := hhome
      rw [h.children_home hs hne, List.mem_append, List.mem_filter] at hc
      rcases hc with ⟨hmem, hstays⟩ | hglobal
      · rw [Bool.not_eq_true', decide_eq_false_iff_not] at hstays
        exact .inl ⟨hmem, hstays, fun hreach => absurd hreach hdone⟩
      · exact .inr (.inr ⟨s, hs, hne, rfl, hglobal⟩)
    · rw [h.children_other hdone fun s hs hne heq => hhome ⟨s, hs, hne, heq⟩, List.mem_filter] at hc
      obtain ⟨hmem, hstays⟩ := hc
      rw [Bool.not_eq_true', decide_eq_false_iff_not] at hstays
      exact .inl ⟨hmem, hstays, fun hreach => absurd hreach hdone⟩

/-- A node that is neither moved nor removed keeps its parent. -/
theorem mem_children (hc : c ∈ w.forest.children key) (hstays : ¬(Reach w root c ∧ Hollow w c))
    (hunmoved : Reach w root key → isGlobal (w.node c) = false) : c ∈ w'.forest.children key := by
  by_cases hdone : Reach w root key
  · rw [h.children_done hdone, List.mem_append, List.mem_filter]
    exact .inl ⟨hc, by simp [hstays, hunmoved hdone]⟩
  · by_cases hhome : ∃ s, Reach w root s ∧ globalsOf w s ≠ [] ∧ key = home s
    · obtain ⟨s, hs, hne, rfl⟩ := hhome
      rw [h.children_home hs hne, List.mem_append, List.mem_filter]
      exact .inl ⟨hc, by simp [hstays]⟩
    · rw [h.children_other hdone fun s hs hne heq => hhome ⟨s, hs, hne, heq⟩, List.mem_filter]
      exact ⟨hc, by simp [hstays]⟩

/-- The class for the globals of a scope that is reached stands in that scope. -/
theorem parent?_home (hdone : Reach w root scope) (hglobals : globalsOf w scope ≠ []) :
    w'.forest.parent? (home scope) = some scope :=
  (h.linked.links scope _).mp (h.mem_children_home hdone hglobals)

/-- Globals of a scope that is reached stand in the class for its globals. -/
theorem parent?_of_mem_globalsOf (hdone : Reach w root scope) (hc : c ∈ w.forest.children scope)
    (hglobal : isGlobal (w.node c) = true) : w'.forest.parent? c = some (home scope) := by
  have hmem : c ∈ globalsOf w scope := List.mem_filter.mpr ⟨hc, hglobal⟩
  rw [← h.linked.links, h.children_home hdone (List.ne_nil_of_mem hmem)]
  exact List.mem_append_right _ hmem

/-- A removed namespace is on its own, with nothing in it. -/
theorem removed (hf : w.forest.Linked) (hreach : Reach w root id) (hhollow : Hollow w id) :
    w'.forest.parent? id = none ∧ w'.forest.children id = [] := by
  constructor
  · rw [Option.eq_none_iff_forall_not_mem]
    intro parent hparent
    rcases h.mem_children_cases ((h.linked.links parent id).mpr hparent) with
      ⟨-, hstays, -⟩ | ⟨hdone, hne, -, heq⟩ | ⟨s, -, -, -, hglobal⟩
    · exact hstays ⟨hreach, hhollow⟩
    · exact h.ne_home_of_isScope hreach.isScope hdone hne heq
    · have hglobal := (List.mem_filter.mp hglobal).2
      rw [isGlobal_of_isScope hreach.isScope] at hglobal
      cases hglobal
  · refine (h.children_eq_nil_iff hreach hhollow.kind fun c hc hchild => ⟨?_, hchild⟩).mpr hhollow
    exact hreach.child hf hc (isScope_of_nameSpace hchild.kind)

/-- Whatever is not removed stays in the tree. -/
theorem within (hf : w.forest.Linked) (htop : w.forest.parent? root = none)
    (hwithin : w.forest.Within root id) (hstays : id ≠ root → ¬(Reach w root id ∧ Hollow w id)) :
    w'.forest.Within root id := by
  induction hwithin with
  | self => exact .self
  | @step id parent hparent hup ih =>
    have hc := (hf.links parent id).mpr hparent
    have hne : id ≠ root := by
      rintro rfl
      cases htop.symm.trans hparent
    have hwithin : w'.forest.Within root parent := by
      refine ih fun _ ⟨hreach, hhollow⟩ => hstays hne ⟨?_, hhollow.child hc⟩
      exact hreach.child hf hc (isScope_of_nameSpace (hhollow.child hc).kind)
    by_cases hmoved : Reach w root parent ∧ isGlobal (w.node id) = true
    · have hglobals : globalsOf w parent ≠ [] :=
        List.ne_nil_of_mem (List.mem_filter.mpr ⟨hc, hmoved.2⟩)
      exact .step (h.parent?_of_mem_globalsOf hmoved.1 hc hmoved.2)
        (.step (h.parent?_home hmoved.1 hglobals) hwithin)
    · have hmem := h.mem_children hc (hstays hne) fun hreach => by simpa [hreach] using hmoved
      exact .step ((h.linked.links parent id).mp hmem) hwithin

/-- What is in the tree in the end was in it, or is a new class for globals. -/
theorem within_cases (hf : w.forest.Linked) (hwithin : w'.forest.Within root id) :
    w.forest.Within root id ∨ ∃ s, Reach w root s ∧ globalsOf w s ≠ [] ∧ existing? w s = none ∧
      id = home s := by
  induction hwithin with
  | self => exact .inl .self
  | @step id parent hparent hup ih =>
    rcases h.mem_children_cases ((h.linked.links parent id).mpr hparent) with
      ⟨hold, -, -⟩ | ⟨hdone, hne, hnone, heq⟩ | ⟨s, hs, -, -, hglobal⟩
    · refine ih.imp (fun hin => .step ((hf.links parent id).mp hold) hin) fun ⟨s, hs, hne, hnone,
        heq⟩ => ?_
      -- What is new had no children before.
      rcases h.homes hs hne with hexisting | ⟨-, hfresh, -⟩
      · rw [hnone] at hexisting
        cases hexisting
      · obtain ⟨n, hn⟩ := Forest.exists_content_of_mem_children hold
        rw [heq, hfresh] at hn
        cases hn
    · exact .inr ⟨parent, hdone, hne, hnone, heq⟩
    · exact .inl (.step ((hf.links s id).mp (List.mem_filter.mp hglobal).1) hs.within)

/-- The scopes that can be reached in the end are those that could be and are not removed. -/
theorem reach_of (hf : w.forest.Linked) (hreach : Reach w' root id) :
    Reach w root id ∧ (id ≠ root → ¬Hollow w id) := by
  have hold : ∀ {id n}, w'.forest.content? id = some n → isScope n = true →
      w.forest.content? id = some n := by
    intro id n hn hscope
    rcases h.added hn with hold | ⟨s, -, -, -, -, rfl⟩
    · exact hold
    · cases hscope
  have hscope := (isScope_congr (node_kind (hold (content?_of_isScope hreach.1) hreach.1))).trans
    hreach.1
  obtain ⟨-, hspaces⟩ := hreach
  induction hspaces with
  | self => exact ⟨⟨hscope, .self⟩, fun hne => absurd rfl hne⟩
  | @inner id parent n hparent hn hnscope hup ih =>
    have hcontent := hold hn hnscope
    have hnode := (isScope_congr (node_kind hcontent)).trans hnscope
    rcases h.mem_children_cases ((h.linked.links parent id).mpr hparent) with
      ⟨hmem, hstays, -⟩ | ⟨hdone, hne, -, heq⟩ | ⟨s, -, -, -, hglobal⟩
    · have hreach : Reach w root id :=
        ⟨hscope, .inner ((hf.links parent id).mp hmem) hcontent hnscope ih.1.2⟩
      exact ⟨hreach, fun _ hhollow => hstays ⟨hreach, hhollow⟩⟩
    · exact absurd heq (h.ne_home_of_isScope hnode hdone hne)
    · have hglobal := (List.mem_filter.mp hglobal).2
      rw [isGlobal_of_isScope hnode] at hglobal
      cases hglobal

/-- In the end no scope holds globals, and no namespace is empty. -/
theorem settled (hf : w.forest.Linked) (hreach : Reach w' root id) :
    Cleared w' id ∧ (id ≠ root → (w'.node id).kind = .nameSpace → w'.forest.children id ≠ []) := by
  obtain ⟨hold, hkeeps⟩ := h.reach_of hf hreach
  refine ⟨fun c hc n hn => ?_, fun hne hkind hempty => ?_⟩
  · rcases h.mem_children_cases hc with ⟨hmem, -, hglobal⟩ | ⟨hdone, hne, -, rfl⟩ | ⟨s, hs, hne,
      heq, -⟩
    · obtain ⟨k, hk⟩ := Forest.exists_content_of_parent? ((hf.links id c).mp hmem)
      obtain rfl := Option.some.inj ((h.kept hk).symm.trans hn)
      exact (isGlobal_congr (node_kind hk)).symm.trans (hglobal hold)
    · exact (isGlobal_congr (node_kind hn)).symm.trans (isGlobal_of_class (h.kind_home hdone hne))
    · exact absurd heq (h.ne_home_of_isScope hold.isScope hs hne)
  · rw [h.kind_eq (content?_of_isScope hold.isScope)] at hkind
    refine hkeeps hne ((h.children_eq_nil_iff hold hkind fun c hc hchild => ⟨?_, hchild⟩).mp hempty)
    exact hold.child hf hc (isScope_of_nameSpace hchild.kind)

/-- The root stays the root of a tree. -/
theorem isTree (hf : w.forest.Linked) (hroot : w.forest.IsTree root) : w'.forest.IsTree root := by
  refine ⟨?_, fun id child _ hchild => (h.linked.links id child).mp hchild,
    fun id n hwithin hn => ?_⟩
  · rw [Option.eq_none_iff_forall_not_mem]
    intro parent hparent
    have hold : ∀ {key}, root ∉ w.forest.children key := fun hmem => by
      cases hroot.top.symm.trans ((hf.links _ root).mp hmem)
    rcases h.mem_children_cases ((h.linked.links parent root).mpr hparent) with
      ⟨hmem, -, -⟩ | ⟨hdone, hne, -, heq⟩ | ⟨s, -, -, -, hglobal⟩
    · exact hold hmem
    · exact h.ne_home_of_isScope hdone.1 hdone hne heq
    · exact hold (List.mem_filter.mp hglobal).1
  · have hcontent := Forest.content?_of_node? hn
    rcases h.within_cases hf hwithin with hold | ⟨s, hs, hne, -, rfl⟩
    · rcases h.added hcontent with hkept | ⟨s, -, -, -, -, hnew⟩
      · obtain ⟨k, hk, hsame⟩ := Option.map_eq_some_iff.mp hkept
        have hplain := hroot.plain id k hold hk
        exact (congrArg Node.isProxy hsame).symm.trans hplain
      · exact congrArg Node.isProxy hnew
    · rw [← Workspace.node_of_node? hn]
      exact h.isProxy_home hroot hs hne

/-- Before the members of a scope that have moved, a class for globals holds what it did. -/
theorem children_home_eq (hf : w.forest.Linked) (htop : w.forest.parent? root = none)
    (hdone : Reach w root scope) (hglobals : globalsOf w scope ≠ []) :
    w'.forest.children (home scope) = w.forest.children (home scope) ++ globalsOf w scope := by
  rw [h.children_home hdone hglobals]
  congr 1
  refine List.filter_eq_self.mpr fun c hc => ?_
  have hstays : ¬(Reach w root c ∧ Hollow w c) := by
    rintro ⟨hreach, -⟩
    have hup := hreach.parent htop ((hf.links _ c).mp hc)
    exact h.ne_home_of_isScope hup.isScope hdone hglobals rfl
  simp [hstays]

/-- The class for globals has the name it is to have. -/
theorem name_home (hdone : Reach w root scope) (hglobals : globalsOf w scope ≠ []) :
    (w'.node (home scope)).name = className := by
  rcases h.homes hdone hglobals with hexisting | ⟨-, -, hnew⟩
  · obtain ⟨-, hkind, hname⟩ := existing?_eq_some hexisting
    have hcontent : w.forest.content? (home scope) = some (w.node (home scope)).unlinked :=
      Workspace.content?_of_kind (by rw [hkind]; exact nofun)
    exact (node_name (h.kept hcontent)).trans hname
  · exact node_name hnew

end Finished

/-- Whether a node leaves the tree: it is a namespace below the root in which there is nothing but
such namespaces. -/
def Removed (w : Workspace) (root id : NodeId) : Prop :=
  id ≠ root ∧ Reach w root id ∧ Hollow w id

/-- Whether a tree is one of which the globals have found a home. Those of a scope `s` stand in the
class `home s`. -/
structure Reshaped (w : Workspace) (root : NodeId) (home : NodeId → NodeId) (w' : Workspace) :
    Prop where
  linked : w'.forest.Linked
  /-- No scope holds a function or variable, and no namespace is empty. -/
  complete : ∀ id, Reach w' root id → (∀ c ∈ w'.forest.children id, isGlobal (w'.node c) = false) ∧
    (id ≠ root → (w'.node id).kind = .nameSpace → w'.forest.children id ≠ [])
  /-- Apart from links, every node is what it was. -/
  contents : ∀ id n, w.forest.content? id = some n → w'.forest.content? id = some n
  /-- Only empty namespaces have left the tree. -/
  stays : ∀ id, w.forest.Within root id → (w'.forest.Within root id ↔ ¬Removed w root id)
  removed : ∀ id, Removed w root id → w'.forest.children id = []
  /-- Every node in the tree is there once. -/
  once : ∀ id, w'.forest.Within root id → id ≠ root → ∃ parent, w'.forest.Within root parent ∧
    ∀ key, (w'.forest.children key).count id = if key = parent then 1 else 0
  /-- What is new is the class for globals of a scope that had globals and no such class. -/
  fresh : ∀ id n, w'.forest.content? id = some n → w.forest.content? id = none →
    ∃ s, Reach w root s ∧ globalsOf w s ≠ [] ∧ existing? w s = none ∧ id = home s ∧ n = homeNode w s
  /-- The globals of a scope stand at the end of its class for globals, in the order they had. -/
  moved : ∀ s, Reach w root s → globalsOf w s ≠ [] → w'.forest.parent? (home s) = some s ∧
    (w'.node (home s)).kind = .classType ∧ (w'.node (home s)).name = className ∧
    w'.forest.children (home s) = w.forest.children (home s) ++ globalsOf w s
  /-- Everything else has stayed where it was. -/
  rest : ∀ id parent, w.forest.parent? id = some parent → ¬Removed w root id →
    ¬(Reach w root parent ∧ isGlobal (w.node id) = true) → w'.forest.parent? id = some parent

/-- A pass that has been everywhere has reshaped the tree. -/
theorem Finished.reshaped (h : Finished w root home w') (hf : w.forest.Linked)
    (hroot : w.forest.IsTree root) :
    Reshaped w root home w' := by
  have hremoved : ∀ {id}, Removed w root id → w'.forest.parent? id = none ∧
      w'.forest.children id = [] :=
    fun hid => h.removed hf hid.2.1 hid.2.2
  refine ⟨h.linked, fun id hreach => ?_, fun id n hn => h.kept hn, fun id hwithin => ?_,
    fun id hid => (hremoved hid).2, fun id hwithin hne => ?_, fun id n hn hnone => ?_,
      fun s hs hne => ?_, fun id parent hparent hstays hunmoved => ?_⟩
  · obtain ⟨hcleared, hholds⟩ := h.settled hf hreach
    refine ⟨fun c hc => ?_, hholds⟩
    obtain ⟨n, hn⟩ := Forest.exists_content_of_parent? ((h.linked.links id c).mp hc)
    exact (isGlobal_congr (node_kind hn)).trans (hcleared c hc n hn)
  · constructor
    · intro hin hid
      exact hid.1 (hin.eq_of_root (hremoved hid).1)
    · intro hid
      exact h.within hf hroot.top hwithin fun hne hboth => hid ⟨hne, hboth⟩
  · cases hwithin with
    | self => exact absurd rfl hne
    | @step _ parent hparent hup =>
      refine ⟨parent, hup, fun key => ?_⟩
      have hmem := h.linked.links key id
      rw [hparent, Option.some.injEq] at hmem
      split
      · rename_i heq
        exact List.count_eq_one_of_mem (h.linked.nodup key) (hmem.mpr heq.symm)
      · rename_i hother
        exact List.count_eq_zero.mpr fun hin => hother (hmem.mp hin).symm
  · rcases h.added hn with hold | hnew
    · rw [hnone] at hold
      cases hold
    · exact hnew
  · exact ⟨h.parent?_home hs hne, h.kind_home hs hne, h.name_home hs hne,
      h.children_home_eq hf hroot.top hs hne⟩
  · have hne : id ≠ root := by
      rintro rfl
      cases hroot.top.symm.trans hparent
    rw [← h.linked.links]
    refine h.mem_children ((hf.links parent id).mpr hparent) (fun hboth =>
      hstays ⟨hne, hboth⟩) fun hreach => ?_
    rw [← Bool.not_eq_true]
    exact fun hglobal => hunmoved ⟨hreach, hglobal⟩

/-- The globals of every scope of a tree move into one class of the scope, in their order, and
namespaces that hold nothing leave the tree. Nothing else is changed, and when the globals are moved
again, nothing is. -/
theorem move_reshapes (hf : w.forest.Linked) (hroot : w.forest.IsTree root) :
    (∃ home, Reshaped w root home (move w root)) ∧ move (move w root) root = move w root := by
  obtain ⟨home, h⟩ := move_finished hf hroot
  refine ⟨⟨home, h.reshaped hf hroot⟩, ?_⟩
  have hroot' := h.isTree hf hroot
  rw [move_eq (move w root)]
  cases hscope : isScope ((move w root).node root) with
  | true => exact moved_of_settled hroot' (fun id hid => h.settled hf hid) _ ⟨hscope, .self⟩
  | false => exact moved_of_not_scope (isProxy_of_within hroot' .self) hscope _

/-- A function of the file, a namespace with a class for globals, and namespaces in which there is
nothing. -/
def scattered : Workspace :=
  let fresh (kind : Kind) (name symbol : String) : Node := { kind, name, symbol }
  let f := Forest.empty.push Node.root
  let f := f.pushBelow ⟨0⟩ (fresh .freeFunction "f" "f")
  let f := f.pushBelow ⟨0⟩ (fresh .nameSpace "N" "N")
  let f := f.pushBelow ⟨2⟩ (fresh .freeFunction "g" "N::g")
  let f := f.pushBelow ⟨2⟩ (fresh .classType "Globals" "N::Globals")
  let f := f.pushBelow ⟨4⟩ (fresh .memberFunction "own" "N::Globals::own")
  let f := f.pushBelow ⟨2⟩ (fresh .freeVariable "v" "N::v")
  let f := f.pushBelow ⟨0⟩ (fresh .nameSpace "A" "A")
  { forest := f.pushBelow ⟨7⟩ (fresh .nameSpace "B" "A::B") }

/-- The function of the file gets a new class, those of the namespace join the one that is there
behind what it holds, and the empty namespaces are gone. -/
theorem move_reshapes_scattered :
    let w := scattered
    let w' := move w ⟨0⟩
    w.forest.Linked ∧ w.forest.IsTree ⟨0⟩ ∧ (∃ home, Reshaped w ⟨0⟩ home w') ∧ move w' ⟨0⟩ = w' ∧
      w'.forest.children ⟨0⟩ = [⟨2⟩, ⟨9⟩] ∧ w'.forest.children ⟨9⟩ = [⟨1⟩] ∧
        w'.forest.children ⟨2⟩ = [⟨4⟩] ∧
      w'.forest.children ⟨4⟩ = [⟨5⟩, ⟨3⟩, ⟨6⟩] := by
  intro w w'
  have hf : w.forest.WellFormed := by
    iterate 8 refine Forest.WellFormed.pushBelow ?_ rfl ⟨rfl, rfl, rfl⟩ rfl
    exact Forest.wellFormed_empty.push rfl rfl rfl
  have hroot : w.forest.IsTree ⟨0⟩ := hf.isTree (by decide)
  obtain ⟨hreshaped, hagain⟩ := move_reshapes hf.linked hroot
  exact ⟨hf.linked, hroot, hreshaped, hagain, by decide, by decide, by decide, by decide⟩

end Interop.Overlay.Globals
