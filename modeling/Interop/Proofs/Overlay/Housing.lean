import Interop.Proofs.Overlay.Globals
import Interop.Proofs.Overlay.Walk

namespace Interop.Overlay.Globals

variable {root scope target id : NodeId} {w w' : Workspace} {m n t : Node}

theorem node_kind (hn : w.forest.content? id = some n) : (w.node id).kind = n.kind := by
  rw [← Workspace.node_unlinked hn]
  rfl

theorem node_name (hn : w.forest.content? id = some n) : (w.node id).name = n.name := by
  rw [← Workspace.node_unlinked hn]
  rfl

theorem node_isProxy (hn : w.forest.content? id = some n) : (w.node id).isProxy = n.isProxy := by
  rw [← Workspace.node_unlinked hn]
  rfl

namespace Steps

/-- Any number of changes leave what a node holds, whatever else they add. -/
theorem content?_of_some (h : Steps root w w') (hn : w.forest.content? id = some n) :
    w'.forest.content? id = some n := by
  induction h with
  | refl => exact hn
  | tail _ hstep ih => exact hstep.content?_of_some ih

/-- Any number of changes keep a forest well-formed. -/
theorem wellFormed (h : Steps root w w') (hf : w.forest.WellFormed) : w'.forest.WellFormed := by
  induction h with
  | refl => exact hf
  | tail _ hstep ih => exact hstep.wellFormed ih

/-- A file that is the root of a tree stays one. -/
theorem top (h : Steps root w w') (hf : w.forest.WellFormed) (hn : w.forest.content? id = some n)
    (hfile : n.kind = .file) (htop : w.forest.parent? id = none) : w'.forest.parent? id = none := by
  induction h with
  | refl => exact htop
  | tail hsteps hstep ih =>
    exact hstep.top (wellFormed hsteps hf) (content?_of_some hsteps hn) hfile ih

/-- Only classes are new. -/
theorem content?_of_ne_class (h : Steps root w w') (hf : w.forest.WellFormed)
    (hn : w'.forest.content? id = some n) (hkind : n.kind ≠ .classType) :
    w.forest.content? id = some n := by
  induction h with
  | refl => exact hn
  | tail hsteps hstep ih =>
    rcases hstep.content?_cases (wellFormed hsteps hf) hn with hold | ⟨hclass, _⟩
    · exact ih hold
    · exact absurd hclass hkind

/-- A class of the tree is one for globals, or was in the tree before. -/
theorem class_cases (h : Steps root w w') (hf : w.forest.WellFormed)
    (hn : w'.forest.content? id = some n) (hkind : n.kind = .classType)
    (hwithin : w'.forest.Within root id) :
    n.name = className ∨ w.forest.content? id = some n ∧ w.forest.Within root id := by
  induction h with
  | refl => exact .inr ⟨hn, hwithin⟩
  | tail hsteps hstep ih =>
    have hforest := wellFormed hsteps hf
    rcases hstep.content?_cases hforest hn with hold | ⟨-, hname, -⟩
    · exact ih hold (hstep.within_of hforest hwithin hold (by rw [hkind]; rfl))
    · exact .inl hname

/-- A scope with nothing left to move stays so, since the changes put globals into classes only. -/
theorem cleared (h : Steps root w w') (hf : w.forest.WellFormed)
    (hm : w.forest.content? scope = some m) (hkind : isScope m = true)
    (hcleared : Cleared w scope) : Cleared w' scope := by
  have hclass : m.kind ≠ .classType :=
    by rcases isScope_iff.mp hkind with hk | hk <;> rw [hk] <;> exact nofun
  induction h with
  | refl => exact hcleared
  | tail hsteps hstep ih =>
    exact hstep.cleared (wellFormed hsteps hf) (content?_of_some hsteps hm) hclass ih

/-- A scope with no globals and no scopes below it stays so. No change adds a scope anywhere. -/
theorem spent (h : Steps root w w') (hf : w.forest.WellFormed)
    (hm : w.forest.content? scope = some m) (hkind : isScope m = true) (hspent : Spent w scope) :
    Spent w' scope := by
  have hclass : m.kind ≠ .classType :=
    by rcases isScope_iff.mp hkind with hk | hk <;> rw [hk] <;> exact nofun
  induction h with
  | refl => exact hspent
  | tail hsteps hstep ih =>
    exact hstep.spent (wellFormed hsteps hf) (content?_of_some hsteps hm) hclass ih

/-- A scope inside of another one stays inside, or has nothing left in it. -/
theorem spaces (h : Steps root w w') (hf : w.forest.WellFormed) (hn : w.forest.content? id = some n)
    (hscope : isScope n = true) (hspaces : Spaces w scope id) :
    Spaces w' scope id ∨ Spent w' id := by
  induction h with
  | refl => exact .inl hspaces
  | tail hsteps hstep ih =>
    rcases ih with hinner | hspent
    · exact hstep.spaces (wellFormed hsteps hf) hinner
    · exact .inr (spent (.single hstep) (wellFormed hsteps hf)
        (content?_of_some hsteps hn) hscope hspent)

/-- Scopes that lie in a scope after some changes did so before. -/
theorem spaces_of (h : Steps root w w') (hf : w.forest.WellFormed) (hspaces : Spaces w' scope id) :
    Spaces w scope id := by
  induction h with
  | refl => exact hspaces
  | tail hsteps hstep ih => exact ih (hstep.spaces_of (wellFormed hsteps hf) hspaces)

end Steps

/-- Globals move into a class next to them one after the other, each from below the scope. -/
theorem attachAll_steps (root : NodeId) (hf : w.forest.WellFormed)
    (hscope : w.forest.content? scope = some m) (hkind : isScope m = true) {globals : List NodeId}
    (hnodup : globals.Nodup) (hglobals : ∀ g ∈ globals, w.forest.parent? g = some scope ∧
      ∃ n, w.forest.content? g = some n ∧ isGlobal n = true)
    (htarget : w.forest.content? target = some t) (hclass : t.kind = .classType)
    (hname : t.name = className) (hbeside : w.forest.parent? target = some scope) :
    Steps root w { w with forest := globals.foldl (·.attach target ·) w.forest } ∧
      ∀ c, (globals.foldl (·.attach target ·) w.forest).parent? c =
        if c ∈ globals then some target else w.forest.parent? c := by
  induction globals generalizing w with
  | nil => exact ⟨.refl, fun c => by simp⟩
  | cons g rest ih =>
    obtain ⟨hg, hrest⟩ := List.nodup_cons.mp hnodup
    obtain ⟨hparent, n, hn, hglobal⟩ := hglobals g List.mem_cons_self
    have hstep : Step root w { w with forest := w.forest.attach target g } :=
      .move hscope hkind hn hglobal hparent htarget hclass hname hbeside
    have hne : target ≠ g := by
      rintro rfl
      obtain rfl := Option.some.inj (hn.symm.trans htarget)
      rw [isGlobal, hclass] at hglobal
      cases hglobal
    have hparents := hf.parent?_attach hne hn
    obtain ⟨hsteps, hall⟩ :=
      ih (w := { w with forest := w.forest.attach target g }) (hstep.wellFormed hf)
      ((Forest.content?_attach ..).trans hscope) hrest
      (fun g' hg' => by
        obtain ⟨hparent', n', hn', hglobal'⟩ := hglobals g' (List.mem_cons_of_mem g hg')
        have hne' : g' ≠ g := by
          rintro rfl
          exact hg hg'
        exact ⟨(hparents g').trans (by rw [if_neg hne', hparent']), n',
          (Forest.content?_attach ..).trans hn', hglobal'⟩)
      ((Forest.content?_attach ..).trans htarget)
        ((hparents target).trans (by rw [if_neg hne, hbeside]))
    refine ⟨.head hstep hsteps, fun c => (hall c).trans ?_⟩
    by_cases hc : c ∈ rest
    · rw [if_pos hc, if_pos (List.mem_cons_of_mem g hc)]
    · rw [if_neg hc]
      refine (hparents c).trans ?_
      by_cases hcg : c = g
      · rw [if_pos hcg, if_pos (hcg ▸ List.mem_cons_self)]
      · rw [if_neg hcg, if_neg (by simp [hcg, hc])]

/-- A scope has a class for globals, or gets one; what else is below it stays there. -/
theorem ensure_steps (hf : w.forest.WellFormed) (hscope : w.forest.content? scope = some m)
    (hkind : isScope m = true) (hwithin : w.forest.Within root scope) :
    Steps root w (ensure w scope).2 ∧
      (∃ t, (ensure w scope).2.forest.content? (ensure w scope).1 = some t ∧ t.kind = .classType ∧
        t.name = className ∧ (ensure w scope).2.forest.parent? (ensure w scope).1 = some scope) ∧
      ∀ c n, w.forest.content? c = some n →
        (ensure w scope).2.forest.parent? c = w.forest.parent? c := by
  unfold ensure
  cases hexisting : existing? w scope with
  | some id =>
    have hmem := List.mem_of_find?_eq_some hexisting
    have hclass := List.find?_some hexisting
    rw [Bool.and_eq_true, beq_iff_eq, beq_iff_eq] at hclass
    have hid : w.forest.content? id = some (w.node id).unlinked :=
      Workspace.content?_of_kind (by rw [hclass.1]; exact nofun)
    exact ⟨.refl, ⟨_, hid, hclass.1, hclass.2, (hf.links scope id).mp hmem⟩, fun _ _ _ => rfl⟩
  | none =>
    have hsymbol : (w.node scope).symbol = m.symbol := by
      rw [← Workspace.node_unlinked hscope]
      rfl
    simp only [hsymbol]
    have hparents := hf.parent?_pushBelow hscope (isFresh_home (Symbol.qualify m.symbol className))
    have hnew := (Workspace.content?_grow (isFresh_home (Symbol.qualify m.symbol className)) w scope
      w.forest.nextId [Symbol.qualify m.symbol className]).trans (if_pos rfl)
    exact ⟨.single (.house hscope hkind hwithin),
      ⟨_, hnew, rfl, rfl, (hparents _).trans (if_pos rfl)⟩,
      fun c n hn => (hparents c).trans (if_neg (Forest.ne_nextId_of_content? hn))⟩

/-- All globals of a scope move. -/
theorem gather_steps (hf : w.forest.WellFormed) (hscope : w.forest.content? scope = some m)
    (hkind : isScope m = true) (hwithin : w.forest.Within root scope) :
    Steps root w (gather w scope) ∧ Cleared (gather w scope) scope := by
  have hmem : ∀ {c}, c ∈ (w.forest.children scope).filter (fun c => isGlobal (w.node c)) ↔
      w.forest.parent? c = some scope ∧ isGlobal (w.node c) = true := by
    intro c
    rw [List.mem_filter, hf.links]
  have hnode : ∀ {c n}, w.forest.content? c = some n → isGlobal (w.node c) = isGlobal n :=
    fun hn => isGlobal_congr (node_kind hn)
  unfold gather
  split
  · rename_i hnone
    refine ⟨.refl, fun c hc n hn => ?_⟩
    rw [← Bool.not_eq_true]
    intro hglobal
    have hin := hmem.mpr ⟨(hf.links scope c).mp hc, (hnode hn).trans hglobal⟩
    rw [hnone] at hin
    cases hin
  · rename_i globals hnonempty
    obtain ⟨hensure, ⟨t, htarget, hclass, hname, hbeside⟩, hparents⟩ :=
      ensure_steps hf hscope hkind hwithin
    have hf' := hensure.wellFormed hf
    have hglobals : ∀ g ∈ (w.forest.children scope).filter (fun c => isGlobal (w.node c)),
        (ensure w scope).2.forest.parent? g = some scope ∧
          ∃ n, (ensure w scope).2.forest.content? g = some n ∧ isGlobal n = true := by
      intro g hg
      obtain ⟨hparent, hglobal⟩ := hmem.mp hg
      obtain ⟨n, hn⟩ := Forest.exists_content_of_parent? hparent
      exact ⟨(hparents g n hn).trans hparent, n, hensure.content?_of_some hn, (hnode hn) ▸ hglobal⟩
    obtain ⟨hsteps, hall⟩ := attachAll_steps root hf' (hensure.content?_of_some hscope) hkind
      ((hf.nodup scope).filter _) hglobals htarget hclass hname hbeside
    refine ⟨hensure.trans hsteps, fun c hc n hn => ?_⟩
    rw [← Bool.not_eq_true]
    intro hglobal
    have hold : w.forest.content? c = some n := by
      refine Steps.content?_of_ne_class (hensure.trans hsteps) hf hn ?_
      rintro hkind
      rw [isGlobal, hkind] at hglobal
      cases hglobal
    have hparent := ((hsteps.wellFormed hf').links scope c).mp hc
    rw [hall] at hparent
    split at hparent
    · exact hf'.parent_ne hbeside (Option.some.inj hparent).symm
    · rename_i hstays
      rw [hparents c n hold] at hparent
      exact hstays (hmem.mpr ⟨hparent, (hnode hold).trans hglobal⟩)

/-- A namespace leaves the tree, or stays as it is. -/
theorem dropEmpty_steps (w : Workspace) (id : NodeId) : Steps root w (dropEmpty w id) := by
  simp only [dropEmpty]
  split
  · rename_i hempty
    rw [Bool.and_eq_true, beq_iff_eq, List.isEmpty_iff] at hempty
    have hid : w.forest.content? id = some (w.node id).unlinked :=
      Workspace.content?_of_kind (by rw [hempty.1]; exact nofun)
    refine .single (.drop hid hempty.1 ?_)
    obtain ⟨n, hn, _⟩ := Option.map_eq_some_iff.mp hid
    rw [Forest.children_of_node? hn, ← Workspace.node_of_node? hn]
    exact hempty.2
  · exact .refl

/-- The workspace that the walk from a node leaves. -/
def moved (bound : Nat) (id : NodeId) (w : Workspace) : Workspace :=
  Forest.walked Workspace.forest (fun event id access => (visit event id access).run) bound id w

/-- The pass is the walk over the tree, run to its end. -/
theorem move_eq (w : Workspace) (root : NodeId) :
    move w root = moved w.forest.depthBound root w := by
  have hrun : (Forest.walkWithin (return (← get).forest) visit w.forest.depthBound root).run w =
      ((), moved w.forest.depthBound root w) :=
    Forest.run_walkWithin (.state Workspace) (fun _ => rfl)
      (fun _ _ _ _ => rfl) w.forest.depthBound root w
  exact congrArg Prod.snd hrun

/-- The walk passes over whatever is no scope. -/
theorem moved_of_not_scope (hplain : (w.node id).isProxy = false)
    (hscope : isScope (w.node id) = false) (bound : Nat) :
    moved bound id w = w := by
  cases bound with
  | zero => rfl
  | succ bound =>
    rw [moved, Forest.walked]
    cases hn : w.forest.node? id with
    | none => rfl
    | some n =>
      have hvisit : ∀ event access, (visit event id access).run w = (false, w) := by
        intro event access
        change (if isScope (w.node id) then _ else pure false : StateM Workspace Bool).run w = _
        rw [if_neg (by rw [hscope]; exact Bool.false_ne_true)]
        rfl
      rw [Workspace.node_of_node? hn] at hplain
      simp only [hvisit]
      rw [if_neg (by rw [hplain]; exact Bool.false_ne_true)]
      simp

/-- The walk gathers the globals of a scope, goes on below it, and takes it out of the tree if
nothing is left. -/
theorem moved_of_scope (hplain : m.isProxy = false) (hm : w.forest.content? id = some m)
    (hscope : isScope m = true) {bound : Nat} {inner : Workspace}
    (hinner : ((gather w id).forest.children id).foldl (fun w c => moved bound c w) (gather w id) =
      inner) :
    moved (bound + 1) id w = if isScope (inner.node id) then dropEmpty inner id else inner := by
  obtain ⟨n, hn, rfl⟩ := Option.map_eq_some_iff.mp hm
  have hplain : n.isProxy = false := hplain
  have hcontainer : n.kind.isContainer = true := isContainer_of_isScope hscope
  have henter : ∀ access, (visit .enter id access).run w = (true, gather w id) := by
    intro access
    change (if isScope (w.node id) then _ else _ : StateM Workspace Bool).run w = _
    rw [if_pos ((isScope_congr (node_kind hm)).trans hscope)]
    rfl
  have hexit : ∀ access, ((visit .exit id access).run inner).2 =
      if isScope (inner.node id) then dropEmpty inner id else inner := by
    intro access
    change ((if isScope (inner.node id) then _ else _ : StateM Workspace Bool).run inner).2 = _
    split
    · rfl
    · rfl
  rw [moved, Forest.walked, hn]
  simp only [hplain, hcontainer, henter, if_true, Bool.false_eq_true, if_false]
  rw [← hexit n.access, ← hinner]
  rfl

/-- Where nothing has to be moved, nothing is. -/
theorem gather_of_cleared (h : Cleared w id) : gather w id = w := by
  unfold gather
  split
  · rfl
  · rename_i hnonempty
    refine absurd (List.filter_eq_nil_iff.mpr fun c hc => ?_) hnonempty
    intro hglobal
    have hcontent : w.forest.content? c = some (w.node c).unlinked := Workspace.content?_of_kind (by
      intro hkind
      rw [isGlobal, hkind] at hglobal
      cases hglobal)
    rw [show isGlobal (w.node c) = false from h c hc (w.node c).unlinked hcontent] at hglobal
    cases hglobal

theorem Spaces.exists_scope (h : Spaces w scope id) (hm : w.forest.content? scope = some m)
    (hscope : isScope m = true) : ∃ n, w.forest.content? id = some n ∧ isScope n = true := by
  cases h with
  | self => exact ⟨m, hm, hscope⟩
  | inner _ hn hkind _ => exact ⟨_, hn, hkind⟩

/-- What the walk over one scope needs to know of the workspace. -/
structure Ready (root : NodeId) (limit : Nat) (w : Workspace) : Prop where
  wellFormed : w.forest.WellFormed
  limit : ∀ id n, w.forest.content? id = some n → isScope n = true → id.index < limit

/-- Changes leave a workspace ready for the walk over a scope, as they add no scopes. -/
theorem Ready.steps {limit : Nat} (h : Ready root limit w) (hsteps : Steps root w w') :
    Ready root limit w' where
  wellFormed := hsteps.wellFormed h.wellFormed
  limit id n hn hscope := by
    refine h.limit id n (hsteps.content?_of_ne_class h.wellFormed hn ?_) hscope
    rcases isScope_iff.mp hscope with hk | hk <;> rw [hk] <;> exact nofun

/-- The walk over the children of a scope, from a workspace `w₁` on, provided that the walk from
each of them clears what is inside. -/
theorem moved_children {limit bound : Nat} {w₁ : Workspace} (hready : Ready root limit w₁)
    (hmoved : ∀ c n w, Steps root w₁ w → c ∈ w₁.forest.children id → w₁.forest.content? c = some n →
      isScope n = true → Steps root w (moved bound c w) ∧ ∀ key, Spaces w c key →
        Cleared (moved bound c w) key)
    (cs : List NodeId) (hcs : ∀ c ∈ cs, c ∈ w₁.forest.children id) (hw : Steps root w₁ w) :
    Steps root w (cs.foldl (fun w c => moved bound c w) w) ∧
      ∀ c ∈ cs, ∀ n, w₁.forest.content? c = some n → isScope n = true → ∀ key, Spaces w₁ c key →
        Cleared (cs.foldl (fun w c => moved bound c w) w) key := by
  induction cs generalizing w with
  | nil => exact ⟨.refl, fun _ hc => absurd hc List.not_mem_nil⟩
  | cons c rest ih =>
    have hwReady := hready.steps hw
    have hmem := hcs c List.mem_cons_self
    obtain ⟨n, hn⟩ := Forest.exists_content_of_parent? ((hready.wellFormed.links id c).mp hmem)
    have hhead : Steps root w (moved bound c w) ∧ (isScope n = true → ∀ key, Spaces w₁ c key →
        Cleared (moved bound c w) key) := by
      cases hscope : isScope n with
      | false =>
        have hnode : isScope (w.node c) = false :=
          (isScope_congr (node_kind (Steps.content?_of_some hw hn))).trans hscope
        have hplain : (w.node c).isProxy = false :=
          (node_isProxy (Steps.content?_of_some hw hn)).trans (hready.wellFormed.plain c n hn)
        rw [moved_of_not_scope hplain hnode]
        exact ⟨.refl, nofun⟩
      | true =>
        obtain ⟨hsteps, hcleared⟩ := hmoved c n w hw hmem hn hscope
        refine ⟨hsteps, fun _ key hkey => ?_⟩
        obtain ⟨k, hk, hkScope⟩ := hkey.exists_scope hn hscope
        rcases Steps.spaces hw hready.wellFormed hk hkScope hkey with hinner | hspent
        · exact hcleared key hinner
        · exact Steps.cleared hsteps hwReady.wellFormed (Steps.content?_of_some hw hk) hkScope
            hspent.cleared
    obtain ⟨hsteps, hrest⟩ :=
      ih (fun c' hc' => hcs c' (List.mem_cons_of_mem c hc')) (hw.trans hhead.1)
    refine ⟨hhead.1.trans hsteps, fun c' hc' n' hn' hscope' key hkey => ?_⟩
    rcases List.mem_cons.mp hc' with rfl | hc'
    · obtain rfl := Option.some.inj (hn.symm.trans hn')
      obtain ⟨k, hk, hkScope⟩ := hkey.exists_scope hn hscope'
      have hk' := Steps.content?_of_some hhead.1 (Steps.content?_of_some hw hk)
      exact Steps.cleared hsteps (hwReady.steps hhead.1).wellFormed hk' hkScope
        (hhead.2 hscope' key hkey)
    · exact hrest c' hc' n' hn' hscope' key hkey

/-- The walk from a scope of the tree makes changes and clears all scopes inside. Every scope lies
behind its parent and before `limit`, so the bound is reached at no scope. A scope that has left the
tree has nothing in it that the walk could change. -/
theorem moved_steps {limit bound : Nat} (hready : Ready root limit w)
    (hm : w.forest.content? id = some m) (hscope : isScope m = true)
    (hbound : limit - id.index < bound) (hspaces : Spaces w root id ∨ Spent w id) :
    Steps root w (moved bound id w) ∧ ∀ key, Spaces w id key → Cleared (moved bound id w) key := by
  induction bound generalizing w id m with
  | zero => omega
  | succ bound ih =>
    have hf := hready.wellFormed
    have hgather : Steps root w (gather w id) ∧ Cleared (gather w id) id := by
      rcases hspaces with hinner | hspent
      · exact gather_steps hf hm hscope hinner.within
      · rw [gather_of_cleared hspent.cleared]
        exact ⟨.refl, hspent.cleared⟩
    generalize hw₁ : gather w id = w₁ at hgather
    obtain ⟨hsteps₁, hcleared₁⟩ := hgather
    have hready₁ := hready.steps hsteps₁
    have hm₁ := Steps.content?_of_some hsteps₁ hm
    have hspaces₁ : Spaces w₁ root id ∨ Spent w₁ id := by
      rcases hspaces with hinner | hspent
      · exact Steps.spaces hsteps₁ hf hm hscope hinner
      · exact .inr (Steps.spent hsteps₁ hf hm hscope hspent)
    have hchild : ∀ c n w', Steps root w₁ w' → c ∈ w₁.forest.children id →
        w₁.forest.content? c = some n → isScope n = true → Steps root w' (moved bound c w') ∧
          ∀ key, Spaces w' c key → Cleared (moved bound c w') key := by
      intro c n w' hw' hmem hn hnScope
      have hparent := (hready₁.wellFormed.links id c).mp hmem
      have hdeeper := hready₁.wellFormed.deeper c n id hn (isContainer_of_isScope hnScope) hparent
      have hlimit := hready₁.limit c n hn hnScope
      apply ih (hready₁.steps hw') (Steps.content?_of_some hw' hn) hnScope
      · omega
      · rcases hspaces₁ with hinner | hspent
        · exact Steps.spaces hw' hready₁.wellFormed hn hnScope (.inner hparent hn hnScope hinner)
        · rw [(hspent c hmem n hn).2] at hnScope
          cases hnScope
    obtain ⟨hsteps₂, hcleared₂⟩ :=
      moved_children hready₁ hchild (w₁.forest.children id) (fun _ hc => hc) .refl
    generalize hinner : (w₁.forest.children id).foldl (fun w c => moved bound c w) w₁ = inner
      at hsteps₂ hcleared₂
    have hlast : Steps root inner (moved (bound + 1) id w) := by
      rw [moved_of_scope (hf.plain id m hm) hm hscope (hw₁ ▸ hinner)]
      split
      · exact dropEmpty_steps inner id
      · exact .refl
    refine ⟨(hsteps₁.trans hsteps₂).trans hlast, fun key hkey => ?_⟩
    obtain ⟨k, hk, hkScope⟩ := hkey.exists_scope hm hscope
    have hk₁ := Steps.content?_of_some hsteps₁ hk
    have hfinish : ∀ {w'}, Steps root w₁ w' → Steps root w' (moved (bound + 1) id w) →
        Cleared w' key → Cleared (moved (bound + 1) id w) key := fun hw' hrest hcleared =>
      Steps.cleared hrest (hready₁.steps hw').wellFormed (Steps.content?_of_some hw' hk₁) hkScope
        hcleared
    rcases Steps.spaces hsteps₁ hf hk hkScope hkey with hkey₁ | hspent
    · by_cases hself : key = id
      · exact hfinish .refl (hsteps₂.trans hlast) (hself ▸ hcleared₁)
      · obtain ⟨c, n, hc, hn, hnScope, hckey⟩ := hkey₁.exists_child hself
        have hmem := (hready₁.wellFormed.links id c).mpr hc
        exact hfinish hsteps₂ hlast (hcleared₂ c hmem n hn hnScope key hckey)
    · exact hfinish .refl (hsteps₂.trans hlast) hspent.cleared

/-- Moving the globals of a tree makes changes and clears its scopes. -/
theorem move_steps (hf : w.forest.WellFormed) (hm : w.forest.content? root = some m)
    (hscope : isScope m = true) :
    Steps root w (move w root) ∧ ∀ key, Spaces w root key → Cleared (move w root) key := by
  have hready : Ready root w.forest.size w := by
    refine ⟨hf, fun id n hn _ => ?_⟩
    obtain ⟨k, hk, _⟩ := Option.map_eq_some_iff.mp hn
    exact Forest.lt_size hk
  have hbound : w.forest.size - root.index < w.forest.depthBound := by
    unfold Forest.depthBound
    omega
  rw [move_eq]
  exact moved_steps hready hm hscope hbound (.inl .self)

end Interop.Overlay.Globals

namespace Interop.Overlay

open Globals

variable {s : Surroundings} {w w' : Workspace} {id : NodeId} {n : Node}

/-- A tree in which functions and variables stand in classes only. -/
def HousedTree (s : Surroundings) (w : Workspace) : Prop :=
  Built (fun m n => n.Placed (s.mapper w m.symbol) m ∧
    (isGlobal n = true → m.kind = .classType)) s w

/-- A tree of members stays one under any number of changes. -/
theorem MemberTree.steps (h : MemberTree s w) (hsteps : Steps s.root w w') : MemberTree s w' := by
  induction hsteps with
  | refl => exact h
  | tail _ hstep ih => exact hstep.memberTree ih

/-- Classes and enums stay in their trees under any number of changes. -/
theorem TypesHeld.steps (h : TypesHeld s w) (hf : w.forest.WellFormed)
    (hsteps : Steps s.root w w') :
    TypesHeld s w' := by
  induction hsteps with
  | refl => exact h
  | tail hsteps hstep ih => exact hstep.typesHeld (Steps.wellFormed hsteps hf) ih

/-- In a tree that is in order, all that is around a scope is scopes. -/
theorem MemberTree.spaces (h : MemberTree s w) (hwithin : w.forest.Within s.root id)
    (hn : w.forest.content? id = some n) (hscope : isScope n = true) : Spaces w s.root id := by
  induction hwithin generalizing n with
  | self => exact .self
  | @step id parent hparent hwithin ih =>
    have hne : id ≠ s.root := by
      rintro rfl
      rw [h.top] at hparent
      cases hparent
    obtain ⟨p, m, hp, hm, hplaced⟩ := h.nodes id n (.step hparent hwithin) hne hn
    obtain rfl := Option.some.inj (hp.symm.trans hparent)
    refine .inner hparent hn hscope (ih hm ?_)
    have hfits := hplaced.fits
    rcases isScope_iff.mp hscope with hkind | hkind
    · rw [hkind] at hfits
      cases hfits
    · rw [hkind, Kind.fitsIn, Bool.or_eq_true, beq_iff_eq, beq_iff_eq] at hfits
      exact isScope_iff.mpr hfits

/-- Moving globals makes changes, after which all functions and variables of the tree stand in
classes. -/
theorem MemberTree.move (h : MemberTree s w) :
    Steps s.root w (move w s.root) ∧ HousedTree s (move w s.root) := by
  obtain ⟨r, hr, hfile⟩ := h.root
  obtain ⟨hsteps, hcleared⟩ := move_steps h.wellFormed hr (isScope_iff.mpr (.inl hfile))
  have htree := h.steps hsteps
  refine ⟨hsteps, htree.wellFormed, htree.root, htree.top, fun id n hid hne hn => ?_⟩
  obtain ⟨parent, m, hparent, hm, hplaced⟩ := htree.nodes id n hid hne hn
  refine ⟨parent, m, hparent, hm, hplaced, fun hglobal => ?_⟩
  -- A scope around the node would have been cleared.
  have hscope : ¬isScope m = true := by
    intro hscope
    have hwithin : (Globals.move w s.root).forest.Within s.root parent := by
      cases hid with
      | self => exact absurd rfl hne
      | step hp hwithin =>
        obtain rfl := Option.some.inj (hp.symm.trans hparent)
        exact hwithin
    have hspaces := Steps.spaces_of hsteps h.wellFormed (htree.spaces hwithin hm hscope)
    have hmem := (htree.wellFormed.links parent id).mpr hparent
    rw [hcleared parent hspaces id hmem n hn] at hglobal
    cases hglobal
  have hfits := hplaced.fits
  rw [isScope_iff, not_or] at hscope
  rw [isGlobal] at hglobal
  cases hkind : n.kind
  case freeFunction => rw [hkind] at hfits; simpa [Kind.fitsIn, hscope] using hfits
  case freeVariable => rw [hkind] at hfits; simpa [Kind.fitsIn, hscope] using hfits
  case memberVariable => rw [hkind] at hfits; simpa [Kind.fitsIn, hscope] using hfits
  case bitField => rw [hkind] at hfits; simpa [Kind.fitsIn, hscope] using hfits
  all_goals
    rw [hkind] at hglobal
    cases hglobal

/-- Letting go of everything that is not held changes nothing about the tree. -/
theorem HousedTree.release (h : HousedTree s w) (hheld : TypesHeld s w) :
    HousedTree s (w.release (s.root :: s.kept)) := by
  have hf := h.wellFormed
  have hroot : w.forest.HeldBy (s.root :: s.kept) s.root := Forest.heldBy_of_mem List.mem_cons_self
  have hkept : ∀ {id}, w.forest.Within s.root id → w.forest.HeldBy (s.root :: s.kept) id :=
    fun hwithin => ⟨s.root, List.mem_cons_self, hwithin⟩
  have hbelow : ∀ scope,
      (s.mapper w scope).Below (s.mapper (w.release (s.root :: s.kept)) scope) := by
    refine fun scope => Workspace.mapper_below (fun symbol htype => ?_) fun _ _ hmem => hmem
    obtain ⟨id, n, hget, hn, hkind⟩ := htype
    exact ⟨id, n, hget, hf.content?_release.mpr ⟨hn, hheld id n hn hkind⟩, hkind⟩
  obtain ⟨r, hr, hfile⟩ := h.root
  refine ⟨hf.release _, ⟨r, hf.content?_release.mpr ⟨hr, hroot⟩, hfile⟩, ?_,
    fun id n hid hne hn => ?_⟩
  · cases hparent : (w.release (s.root :: s.kept)).forest.parent? s.root with
    | none => rfl
    | some parent =>
      have hold := (hf.parent?_release.mp hparent).1
      rw [h.top] at hold
      cases hold
  · have hwithin := (hf.within_release hroot).mp hid
    obtain ⟨parent, m, hparent, hm, hplaced, hclass⟩ :=
      h.nodes id n hwithin hne (hf.content?_release.mp hn).1
    have hparentHeld : w.forest.HeldBy (s.root :: s.kept) parent :=
      hkept (hwithin.above hne hparent)
    exact ⟨parent, m, hf.parent?_release.mpr ⟨hparent, hparentHeld⟩,
      hf.content?_release.mpr ⟨hm, hparentHeld⟩,
      ⟨hplaced.fits, hplaced.symbol, hplaced.crosses.mono (hbelow m.symbol)⟩, hclass⟩

end Interop.Overlay
