import Mathlib.Data.List.Find
import Interop.Proofs.Overlay.Branches
import Interop.Proofs.Overlay.Gathering

namespace Interop.Overlay.Globals

variable {w w' : Workspace} {root scope id c : NodeId} {done gone : NodeId → Prop}
    {home : NodeId → NodeId} {n : Node}

/-- Whether a scope can be reached from a root through scopes only. -/
def Reach (w : Workspace) (root id : NodeId) : Prop :=
  isScope (w.node root) = true ∧ Spaces w root id

/-- Whether a namespace holds nothing but namespaces that hold nothing. -/
inductive Hollow (w : Workspace) : NodeId → Prop
  | intro {id : NodeId} (hkind : (w.node id).kind = .nameSpace)
    (hchildren : ∀ c ∈ w.forest.children id, Hollow w c) :
    Hollow w id

/-- Only namespaces are hollow. -/
theorem Hollow.kind (h : Hollow w id) : (w.node id).kind = .nameSpace := by
  cases h with
  | intro hkind => exact hkind

/-- What lies in a hollow namespace is hollow as well. -/
theorem Hollow.child (h : Hollow w id) (hc : c ∈ w.forest.children id) : Hollow w c := by
  cases h with
  | intro _ hchildren => exact hchildren c hc

theorem content?_of_isScope (h : isScope (w.node id) = true) :
    w.forest.content? id = some (w.node id).unlinked := by
  refine Workspace.content?_of_kind fun hkind => ?_
  rw [isScope, hkind] at h
  cases h

theorem isScope_of_nameSpace (h : (w.node id).kind = .nameSpace) : isScope (w.node id) = true :=
  isScope_iff.mpr (.inr h)

/-- Only scopes are reached. -/
theorem Reach.isScope (h : Reach w root id) : isScope (w.node id) = true := by
  obtain ⟨hroot, hspaces⟩ := h
  obtain ⟨n, hn, hscope⟩ := hspaces.exists_scope (content?_of_isScope hroot) hroot
  exact (isScope_congr (node_kind hn)).trans hscope

/-- From a scope that is reached, the scopes in it are reached. -/
theorem Reach.child (h : Reach w root scope) (hf : w.forest.Linked)
    (hc : c ∈ w.forest.children scope) (hscope : Globals.isScope (w.node c) = true) :
    Reach w root c :=
  ⟨h.1, .inner ((hf.links scope c).mp hc) (content?_of_isScope hscope) hscope h.2⟩

/-- The scope of a reached node that is not the root is reached. -/
theorem Reach.parent {parent : NodeId} (h : Reach w root id) (htop : w.forest.parent? root = none)
    (hparent : w.forest.parent? id = some parent) : Reach w root parent := by
  obtain ⟨hroot, hspaces⟩ := h
  cases hspaces with
  | self => cases htop.symm.trans hparent
  | inner hup _ _ hspaces =>
    obtain rfl := Option.some.inj (hup.symm.trans hparent)
    exact ⟨hroot, hspaces⟩

theorem not_isScope_of_class (h : (w.node id).kind = .classType) : isScope (w.node id) = false := by
  rw [isScope, h]
  rfl

/-- The nodes of a tree are no proxies. -/
theorem isProxy_of_within (hroot : w.forest.IsTree root) (hwithin : w.forest.Within root id) :
    (w.node id).isProxy = false := by
  rw [Workspace.node]
  cases hn : w.forest.node? id with
  | none => rfl
  | some n => exact hroot.plain id n hwithin hn

/-- What is reached lies in the tree. -/
theorem Reach.within (h : Reach w root id) : w.forest.Within root id :=
  h.2.within

/-- A node lies in one child of a scope only. The forest has to be linked, or two children could
share it. -/
theorem Spaces.eq_of_sibling {d key : NodeId} (hf : w.forest.Linked) (hc : c ∈ w.forest.children id)
    (hd : d ∈ w.forest.children id) (hkey : Spaces w c key) (hkey' : Spaces w d key) : c = d := by
  have hparent := (hf.links id c).mp hc
  have hparent' := (hf.links id d).mp hd
  rcases hkey.within.total hkey'.within with hwithin | hwithin
  · exact hf.eq_of_within_sibling hparent hparent' hwithin
  · exact (hf.eq_of_within_sibling hparent' hparent hwithin).symm

/-- The scopes inside of a scope are those inside of the scopes below it, and itself. -/
theorem spaces_iff_child {s : NodeId} (hf : w.forest.Linked) :
    Spaces w id s ↔ s = id ∨ ∃ c ∈ w.forest.children id, isScope (w.node c) = true ∧
      Spaces w c s := by
  constructor
  · intro hs
    by_cases hself : s = id
    · exact .inl hself
    · obtain ⟨c, n, hparent, hn, hscope, hcs⟩ := hs.exists_child hself
      exact .inr ⟨c, (hf.links id c).mpr hparent, (isScope_congr (node_kind hn)).trans hscope, hcs⟩
  · rintro (rfl | ⟨c, hc, hscope, hcs⟩)
    · exact .self
    · exact Spaces.trans (.inner ((hf.links id c).mp hc)
        (content?_of_isScope hscope) hscope .self) hcs

theorem isGlobal_of_isScope (h : isScope n = true) : isGlobal n = false := by
  rcases isScope_iff.mp h with hkind | hkind
  · rw [isGlobal, hkind]
    rfl
  · rw [isGlobal, hkind]
    rfl

open Classical in
/-- What the pass has made of a workspace when it has been to the scopes in `done` and has taken the
namespaces in `gone` out of the tree. The globals of a scope `s` stand in the class `home s`. -/
structure Underway (w : Workspace) (root : NodeId) (done gone : NodeId → Prop)
    (home : NodeId → NodeId) (w' : Workspace) : Prop where
  linked : w'.forest.Linked
  kept : ∀ {id n}, w.forest.content? id = some n → w'.forest.content? id = some n
  added : ∀ {id n}, w'.forest.content? id = some n → w.forest.content? id = some n ∨
    ∃ s, done s ∧ globalsOf w s ≠ [] ∧ existing? w s = none ∧ id = home s ∧ n = homeNode w s
  reached : ∀ {s}, done s → Reach w root s
  hollow : ∀ {id}, gone id → Reach w root id ∧ Hollow w id
  homes : ∀ {s}, done s → globalsOf w s ≠ [] → existing? w s = some (home s) ∨
    existing? w s = none ∧ w.forest.content? (home s) = none ∧
      w'.forest.content? (home s) = some (homeNode w s)
  children_done : ∀ {s}, done s → w'.forest.children s =
    (w.forest.children s).filter (fun c => !decide (gone c) && !isGlobal (w.node c)) ++
      if globalsOf w s ≠ [] ∧ existing? w s = none then [home s] else []
  children_home : ∀ {s}, done s → globalsOf w s ≠ [] → w'.forest.children (home s) =
    (w.forest.children (home s)).filter (fun c => !decide (gone c)) ++ globalsOf w s
  children_other : ∀ {id}, ¬done id → (∀ s, done s → globalsOf w s ≠ [] → id ≠ home s) →
    w'.forest.children id = (w.forest.children id).filter fun c => !decide (gone c)

namespace Underway

/-- Before the pass starts it has been nowhere, and nothing is gone. -/
theorem start (hf : w.forest.Linked) (root : NodeId) :
    Underway w root (fun _ => False) (fun _ => False) (fun s => s) w where
  linked := hf
  kept := fun h => h
  added := .inl
  reached := False.elim
  hollow := False.elim
  homes := fun h => h.elim
  children_done := False.elim
  children_home := fun h => h.elim
  children_other := fun _ _ => by simp

variable (h : Underway w root done gone home w')
include h

/-- A node that was there holds what it held, whatever has been done. -/
theorem node_unlinked (hn : w.forest.content? id = some n) :
    (w'.node id).unlinked = (w.node id).unlinked :=
  (Workspace.node_unlinked (h.kept hn)).trans (Workspace.node_unlinked hn).symm

/-- Nodes keep their kinds. -/
theorem kind_eq (hn : w.forest.content? id = some n) : (w'.node id).kind = (w.node id).kind :=
  (node_kind (h.kept hn)).trans (node_kind hn).symm

/-- Only namespaces go. -/
theorem nameSpace_of_gone (hgone : gone c) : (w.node c).kind = .nameSpace :=
  (h.hollow hgone).2.kind

/-- Globals do not go. -/
theorem not_gone_of_isGlobal (hglobal : isGlobal (w.node c) = true) : ¬gone c := by
  intro hgone
  rw [isGlobal, h.nameSpace_of_gone hgone] at hglobal
  cases hglobal

/-- Classes do not go. -/
theorem not_gone_of_class (hclass : (w.node c).kind = .classType) : ¬gone c := by
  intro hgone
  rw [h.nameSpace_of_gone hgone] at hclass
  cases hclass

/-- A class for globals is a class afterwards, and no scope. -/
theorem kind_home (hdone : done scope) (hglobals : globalsOf w scope ≠ []) :
    (w'.node (home scope)).kind = .classType := by
  rcases h.homes hdone hglobals with hexisting | ⟨-, -, hnew⟩
  · obtain ⟨-, hkind, -⟩ := existing?_eq_some hexisting
    rw [h.kind_eq (Workspace.content?_of_kind (by rw [hkind]; exact nofun)), hkind]
  · exact node_kind hnew

/-- No scope is a class for globals. -/
theorem ne_home_of_isScope (hscope : isScope (w.node id) = true) (hdone : done scope)
    (hglobals : globalsOf w scope ≠ []) :
    id ≠ home scope := by
  rintro rfl
  have hkind := h.kind_home hdone hglobals
  rw [h.kind_eq (content?_of_isScope hscope)] at hkind
  rw [not_isScope_of_class hkind] at hscope
  cases hscope

/-- The class for the globals of a scope that is done stands in that scope. -/
theorem mem_children_home (hdone : done scope) (hglobals : globalsOf w scope ≠ []) :
    home scope ∈ w'.forest.children scope := by
  rw [h.children_done hdone, List.mem_append]
  rcases h.homes hdone hglobals with hexisting | ⟨hnone, -, -⟩
  · obtain ⟨hmem, hkind, -⟩ := existing?_eq_some hexisting
    refine .inl (List.mem_filter.mpr ⟨hmem, ?_⟩)
    simp [h.not_gone_of_class hkind, isGlobal_of_class hkind]
  · exact .inr (by simp [hnone, hglobals])

section Scope

variable (hreach : Reach w root scope) (hnew : ¬done scope)
include hreach hnew

/-- A scope in which the pass has not been yet has its old children, without the namespaces that are
gone. -/
theorem children_scope : w'.forest.children scope =
    open Classical in (w.forest.children scope).filter fun c => !decide (gone c) :=
  h.children_other hnew fun _ hdone hglobals => h.ne_home_of_isScope hreach.isScope hdone hglobals

/-- A scope in which the pass has not been yet has its old globals. -/
theorem globalsOf_eq (hf : w.forest.Linked) : globalsOf w' scope = globalsOf w scope := by
  rw [globalsOf, h.children_scope hreach hnew, List.filter_filter, globalsOf]
  refine List.filter_congr fun c hc => ?_
  obtain ⟨n, hn⟩ := Forest.exists_content_of_parent? ((hf.links scope c).mp hc)
  rw [isGlobal_congr (h.kind_eq hn)]
  cases hglobal : isGlobal (w.node c) with
  | false => rfl
  | true => simp [h.not_gone_of_isGlobal hglobal]

/-- A scope in which the pass has not been yet has its old class for globals, if it had one. -/
theorem existing?_eq (hf : w.forest.Linked) : existing? w' scope = existing? w scope := by
  rw [existing?, h.children_scope hreach hnew, List.find?_filter, existing?]
  refine List.find?_congr fun c hc => ?_
  obtain ⟨n, hn⟩ := Forest.exists_content_of_parent? ((hf.links scope c).mp hc)
  have hname : (w'.node c).name = (w.node c).name :=
    (node_name (h.kept hn)).trans (node_name hn).symm
  simp only [h.kind_eq hn, hname]
  by_cases hclass : (w.node c).kind = .classType
  · simp [hclass, h.not_gone_of_class hclass, beq_eq_decide]
  · simp [hclass]

omit hnew in
/-- The class for globals would be made alike at any point of the pass. -/
theorem homeNode_eq : homeNode w' scope = homeNode w scope := by
  have hsymbol := congrArg Node.symbol (h.node_unlinked (content?_of_isScope hreach.isScope))
  rw [Node.unlinked_symbol, Node.unlinked_symbol] at hsymbol
  rw [homeNode, hsymbol, homeNode]

/-- A scope without globals is left as it is. -/
theorem gather_of_nil (hglobals : globalsOf w scope = []) :
    Underway w root (fun s => done s ∨ s = scope) gone home w' := by
  refine ⟨h.linked, h.kept, fun hn => ?_, fun hs => ?_, h.hollow, fun hs hne => ?_,
    fun {s} hs => ?_, fun hs hne => ?_, fun {id} hid hhome => ?_⟩
  · rcases h.added hn with hbefore | ⟨s, hs, hrest⟩
    · exact .inl hbefore
    · exact .inr ⟨s, .inl hs, hrest⟩
  · rcases hs with hs | rfl
    · exact h.reached hs
    · exact hreach
  · rcases hs with hs | rfl
    · exact h.homes hs hne
    · exact absurd hglobals hne
  · rcases hs with hs | rfl
    · exact h.children_done hs
    · rw [h.children_scope hreach hnew, if_neg (fun hboth => hboth.1 hglobals), List.append_nil]
      refine List.filter_congr fun c hc => ?_
      have hstays : isGlobal (w.node c) = false := by
        rw [globalsOf, List.filter_eq_nil_iff] at hglobals
        exact Bool.not_eq_true _ ▸ hglobals c hc
      simp [hstays]
  · rcases hs with hs | rfl
    · exact h.children_home hs hne
    · exact absurd hglobals hne
  · exact h.children_other (fun hs => hid (.inl hs)) fun s hs => hhome s (.inl hs)

section Target

/- The globals of the scope have been gathered in the class `target`. -/
variable {target : NodeId} {w'' : Workspace} (hf : w.forest.Linked)
    (hgathered : Gathered w' scope target w'')
include hf hgathered

/-- The class to gather into is the one that was there, or the one new node. -/
theorem origin_target :
    existing? w scope = some target ∧ (∀ id, w''.forest.content? id = w'.forest.content? id) ∨
    existing? w scope = none ∧ target = w'.forest.nextId ∧ ∀ id, w''.forest.content? id =
      if id = w'.forest.nextId then some (homeNode w scope) else w'.forest.content? id := by
  have horigin := hgathered.origin
  rwa [h.existing?_eq hreach hnew hf, h.homeNode_eq hreach] at horigin

/-- The target is a class of this scope, or new: it is the home of no other scope. -/
theorem home_ne_target {s : NodeId} (hs : done s) (hne : globalsOf w s ≠ []) : home s ≠ target := by
  rintro rfl
  have hmem := h.mem_children_home hs hne
  rcases h.origin_target hreach hnew hf hgathered with ⟨hexisting, -⟩ | ⟨-, hfresh, -⟩
  · obtain ⟨hin, -, -⟩ := existing?_eq_some ((h.existing?_eq hreach hnew hf).trans hexisting)
    have hparent := (h.linked.links scope _).mp hin
    obtain rfl := Option.some.inj (hparent.symm.trans ((h.linked.links s _).mp hmem))
    exact hnew hs
  · obtain ⟨k, hk⟩ := Forest.exists_content_of_parent? ((h.linked.links s _).mp hmem)
    exact Forest.ne_nextId_of_content? hk hfresh

/-- The class to gather into is no scope. -/
theorem ne_target_of_isScope (hid : isScope (w.node id) = true) : id ≠ target := by
  rintro rfl
  rcases h.origin_target hreach hnew hf hgathered with ⟨hexisting, -⟩ | ⟨-, hfresh, -⟩
  · rw [not_isScope_of_class (existing?_eq_some hexisting).2.1] at hid
    cases hid
  · exact Forest.ne_nextId_of_content? (h.kept (content?_of_isScope hid)) hfresh

/-- Gathering leaves what the nodes hold. -/
theorem content?_gathered (hn : w'.forest.content? id = some n) :
    w''.forest.content? id = some n := by
  rcases h.origin_target hreach hnew hf hgathered with ⟨-, hsame⟩ | ⟨-, -, hsame⟩
  · rw [hsame, hn]
  · rw [hsame, if_neg (Forest.ne_nextId_of_content? hn), hn]

/-- The target is the home of the globals of the scope. -/
theorem gather_of_gathered (hglobals : globalsOf w scope ≠ []) :
    Underway w root (fun s => done s ∨ s = scope) gone (Function.update home scope target) w'' := by
  have horigin := h.origin_target hreach hnew hf hgathered
  have hold : ∀ s, done s → Function.update home scope target s = home s := by
    intro s hs
    exact Function.update_of_ne (by rintro rfl; exact hnew hs) ..
  have hself : Function.update home scope target scope = target := Function.update_self ..
  refine ⟨hgathered.linked, fun hn => h.content?_gathered hreach hnew hf hgathered (h.kept hn),
    fun {id n} hn => ?_, fun {s} hs => ?_, h.hollow, fun {s} hs hne => ?_, fun {s} hs => ?_,
      fun {s} hs hne => ?_, fun {id} hid hhome => ?_⟩
  · have hbefore : w'.forest.content? id = some n → w.forest.content? id = some n ∨
        ∃ s, (done s ∨ s = scope) ∧ globalsOf w s ≠ [] ∧ existing? w s = none ∧
            id = Function.update home scope target s ∧ n = homeNode w s := by
      intro hn
      rcases h.added hn with hbefore | ⟨s, hs, hne, hnone, hid, hrest⟩
      · exact .inl hbefore
      · exact .inr ⟨s, .inl hs, hne, hnone, hid.trans (hold s hs).symm, hrest⟩
    rcases horigin with ⟨-, hsame⟩ | ⟨hnone, hfresh, hsame⟩
    · exact hbefore ((hsame id).symm.trans hn)
    · rw [hsame] at hn
      split at hn
      · rename_i hid
        exact .inr ⟨scope, .inr rfl, hglobals, hnone, by rw [hself, hid, hfresh],
          (Option.some.inj hn).symm⟩
      · exact hbefore hn
  · rcases hs with hs | rfl
    · exact h.reached hs
    · exact hreach
  · rcases hs with hs | rfl
    · rw [hold s hs]
      exact (h.homes hs hne).imp_right fun hmade =>
        ⟨hmade.1, hmade.2.1, h.content?_gathered hreach hnew hf hgathered hmade.2.2⟩
    · rw [hself]
      rcases horigin with ⟨hexisting, -⟩ | ⟨hnone, hfresh, hsame⟩
      · exact .inl hexisting
      · refine .inr ⟨hnone, ?_, (hsame target).trans (if_pos hfresh)⟩
        cases hcontent : w.forest.content? target with
        | none => rfl
        | some k => exact absurd hfresh (Forest.ne_nextId_of_content? (h.kept hcontent))
  · rcases hs with hs | rfl
    · rw [hgathered.children_other s (fun heq => hnew (heq ▸ hs))
        (h.ne_target_of_isScope hreach hnew hf hgathered (h.reached hs).isScope),
          h.children_done hs, hold s hs]
    · rw [hgathered.children_scope, h.children_scope hreach hnew, List.filter_filter, hself,
        h.existing?_eq hreach hnew hf]
      congr 1
      · refine List.filter_congr fun c hc => ?_
        obtain ⟨k, hk⟩ := Forest.exists_content_of_parent? ((hf.links s c).mp hc)
        rw [isGlobal_congr (h.kind_eq hk), Bool.and_comm]
      · simp [hglobals]
  · rcases hs with hs | rfl
    · have hhomeScope : home s ≠ scope := (h.ne_home_of_isScope hreach.isScope hs hne).symm
      rw [hold s hs, hgathered.children_other _ hhomeScope
        (h.home_ne_target hreach hnew hf hgathered hs hne),
        h.children_home hs hne]
    · have hother := h.children_other
        (fun hs => h.ne_target_of_isScope hreach hnew hf hgathered (h.reached hs).isScope rfl)
        fun s hs hne => (h.home_ne_target hreach hnew hf hgathered hs hne).symm
      rw [hself, hgathered.children_home, hother, h.globalsOf_eq hreach hnew hf]
  · have hidTarget : id ≠ target := by
      have := hhome scope (.inr rfl) hglobals
      rwa [hself] at this
    rw [hgathered.children_other id (fun heq => hid (.inr heq)) hidTarget]
    refine h.children_other (fun hs => hid (.inl hs)) fun s hs hne => ?_
    rw [← hold s hs]
    exact hhome s (.inl hs) hne

end Target

/-- The pass deals with one more scope. -/
theorem gather (hf : w.forest.Linked) : ∃ home', (∀ s, done s → home' s = home s) ∧
    Underway w root (fun s => done s ∨ s = scope) gone home' (Globals.gather w' scope) := by
  have hglobalsEq := h.globalsOf_eq hreach hnew hf
  by_cases hglobals : globalsOf w scope = []
  · rw [Globals.gather_of_nil (hglobalsEq.trans hglobals)]
    exact ⟨home, fun _ _ => rfl, h.gather_of_nil hreach hnew hglobals⟩
  · obtain ⟨target, hgathered⟩ :=
      gather_spec h.linked (h.kept (content?_of_isScope hreach.isScope)) (hglobalsEq ▸ hglobals)
    refine ⟨Function.update home scope target, fun s hs => ?_,
      h.gather_of_gathered hreach hnew hf hgathered hglobals⟩
    exact Function.update_of_ne (by rintro rfl; exact hnew hs) ..

end Scope

/-- The pass takes a namespace without children out of the tree. -/
theorem drop (hreach : Reach w root id) (hhollow : Hollow w id) :
    Underway w root done (fun c => gone c ∨
      c = id) home { w' with forest := w'.forest.detach id } := by
  have hcontent := h.kept (content?_of_isScope hreach.isScope)
  have hallowed : (Forest.Move.detach id).Allowed w'.forest :=
    (w'.forest.contains_iff_content? id).mpr ⟨_, hcontent⟩
  have hmoved : w'.forest.Moved id none (w'.forest.detach id) := hallowed.moved h.linked
  have hchildren : ∀ key,
      (w'.forest.detach id).children key = (w'.forest.children key).filter (· != id) := fun key =>
    (hmoved.children key).trans (List.append_nil _)
  have hkept : ∀ {c}, ((w.node c).kind ≠ .nameSpace) → (c != id) = true := by
    rintro c hc
    rw [bne_iff_ne]
    rintro rfl
    exact hc hhollow.kind
  refine ⟨hmoved.linked hallowed.free h.linked, fun hn => (hmoved.contents _).trans (h.kept hn),
    fun hn => h.added ((hmoved.contents _).symm.trans hn), h.reached, fun hc => ?_,
      fun hs hne => ?_, fun {s} hs => ?_,
    fun {s} hs hne => ?_, fun {key} hkey hhome => ?_⟩
  · rcases hc with hc | rfl
    · exact h.hollow hc
    · exact ⟨hreach, hhollow⟩
  · exact (h.homes hs hne).imp_right fun hmade => ⟨hmade.1, hmade.2.1,
      (hmoved.contents _).trans hmade.2.2⟩
  · rw [hchildren, h.children_done hs, List.filter_append, List.filter_filter]
    congr 1
    · exact List.filter_congr fun c _ => by grind
    · split
      · rename_i hboth
        have hne := h.ne_home_of_isScope hreach.isScope hs hboth.1
        simp [hne.symm]
      · rfl
  · rw [hchildren, h.children_home hs hne, List.filter_append, List.filter_filter]
    congr 1
    · exact List.filter_congr fun c _ => by grind
    · refine List.filter_eq_self.mpr fun c hc => hkept fun hkind => ?_
      have hglobal := (List.mem_filter.mp hc).2
      rw [isGlobal, hkind] at hglobal
      cases hglobal
  · rw [hchildren, h.children_other hkey hhome, List.filter_filter]
    exact List.filter_congr fun c _ => by grind

end Underway

namespace Underway

/-- Only which scopes are done and which namespaces are gone matters, not how this is said. -/
theorem congr {done' gone' : NodeId → Prop} (h : Underway w root done gone home w')
    (hdone : ∀ s, done s ↔ done' s) (hgone : ∀ s, gone s ↔ gone' s) :
    Underway w root done' gone' home w' := by
  obtain rfl : done = done' := funext fun s => propext (hdone s)
  obtain rfl : gone = gone' := funext fun s => propext (hgone s)
  exact h

/-- A class that holds globals of a scope was a plain node, or is a new one. -/
theorem isProxy_home (h : Underway w root done gone home w') (hroot : w.forest.IsTree root)
    (hdone : done scope) (hglobals : globalsOf w scope ≠ []) :
    (w'.node (home scope)).isProxy = false := by
  rcases h.homes hdone hglobals with hexisting | ⟨-, -, hnew⟩
  · obtain ⟨hmem, hkind, -⟩ := existing?_eq_some hexisting
    have hparent := hroot.links scope _ (h.reached hdone).within hmem
    obtain ⟨n, hn⟩ := Forest.exists_content_of_parent? hparent
    rw [node_isProxy (h.kept hn), ← node_isProxy hn]
    exact isProxy_of_within hroot (.step hparent (h.reached hdone).within)
  · exact node_isProxy hnew

/-- The walk passes over what a scope that it has been to holds besides scopes. -/
theorem moved_member (h : Underway w root done gone home w') (hroot : w.forest.IsTree root)
    (hdone : done id) (hc : c ∈ w'.forest.children id) (hnot : isScope (w.node c) = false)
    (bound : Nat) : moved bound c w' = w' := by
  rw [h.children_done hdone, List.mem_append] at hc
  rcases hc with hold | hnew
  · have hparent := hroot.links id c (h.reached hdone).within (List.mem_filter.mp hold).1
    obtain ⟨n, hn⟩ := Forest.exists_content_of_parent? hparent
    refine moved_of_not_scope ?_ ((isScope_congr (h.kind_eq hn)).trans hnot) bound
    rw [node_isProxy (h.kept hn), ← node_isProxy hn]
    exact isProxy_of_within hroot (.step hparent (h.reached hdone).within)
  · split at hnew
    · rename_i hboth
      rw [List.mem_singleton.mp hnew]
      exact moved_of_not_scope (h.isProxy_home hroot hdone hboth.1)
        (not_isScope_of_class (h.kind_home hdone hboth.1)) bound
    · cases hnew

/-- What is no scope stays where it is when the walk goes on. -/
theorem mem_children_later {done' gone' : NodeId → Prop} {home' : NodeId → NodeId} {w'' : Workspace}
    (h : Underway w root done gone home w') (h' : Underway w root done' gone' home' w'')
    (hdone : done id) (hdone' : done' id) (hhome : home' id = home id)
    (hc : c ∈ w'.forest.children id) (hnot : isScope (w.node c) = false) :
    c ∈ w''.forest.children id := by
  have hstays : ¬gone' c := by
    intro hgone
    rw [(h'.hollow hgone).1.isScope] at hnot
    cases hnot
  rw [h.children_done hdone, List.mem_append, List.mem_filter] at hc
  rw [h'.children_done hdone', hhome, List.mem_append, List.mem_filter]
  refine hc.imp_left fun hkept => ⟨hkept.1, ?_⟩
  have hkeeps := hkept.2
  simp only [Bool.and_eq_true] at hkeeps
  simp [hstays, hkeeps.2]

/-- The scopes that a scope holds when the walk has been to it are those that it held and that have
not gone. -/
theorem mem_children_iff_of_isScope (h : Underway w root done gone home w') (hdone : done id)
    (hscope : isScope (w.node c) = true) :
    c ∈ w'.forest.children id ↔ c ∈ w.forest.children id ∧ ¬gone c := by
  rw [h.children_done hdone, List.mem_append, List.mem_filter]
  constructor
  · rintro (⟨hc, hkeeps⟩ | hnew)
    · exact ⟨hc, by simpa [isGlobal_of_isScope hscope] using hkeeps⟩
    · split at hnew
      · rename_i hboth
        exact absurd (List.mem_singleton.mp hnew) (h.ne_home_of_isScope hscope hdone hboth.1)
      · cases hnew
  · rintro ⟨hc, hstays⟩
    exact .inl ⟨hc, by simp [hstays, isGlobal_of_isScope hscope]⟩

/-- After the walk over what is inside, a namespace is empty if it was hollow. -/
theorem children_eq_nil_iff (h : Underway w root done gone home w') (hdone : done id)
    (hkind : (w.node id).kind = .nameSpace)
    (hinner : ∀ c ∈ w.forest.children id, Hollow w c → gone c) :
    w'.forest.children id = [] ↔ Hollow w id := by
  rw [h.children_done hdone, List.append_eq_nil_iff, List.filter_eq_nil_iff]
  constructor
  · rintro ⟨hold, hnew⟩
    have hglobals : globalsOf w id = [] := by
      by_contra hne
      rcases h.homes hdone hne with hexisting | ⟨hnone, -, -⟩
      · -- A class that was there already does not go.
        obtain ⟨hmem, hclass, -⟩ := existing?_eq_some hexisting
        refine hold _ hmem ?_
        simp [h.not_gone_of_class hclass, isGlobal_of_class hclass]
      · rw [if_pos ⟨hne, hnone⟩] at hnew
        cases hnew
    rw [globalsOf, List.filter_eq_nil_iff] at hglobals
    refine .intro hkind fun c hc => ?_
    have hgone : gone c := by
      by_contra hstays
      refine hold c hc ?_
      simp [hstays, hglobals c hc]
    exact (h.hollow hgone).2
  · intro hhollow
    have hnone : globalsOf w id = [] := by
      rw [globalsOf, List.filter_eq_nil_iff]
      intro c hc hglobal
      rw [isGlobal, (hhollow.child hc).kind] at hglobal
      cases hglobal
    refine ⟨fun c hc => ?_, if_neg fun hboth => hboth.1 hnone⟩
    simp [hinner c hc (hhollow.child hc)]

/-- The pass leaves a scope after the walk over what is inside. -/
theorem leave (h : Underway w root done gone home w') (hreach : Reach w root id) (hdone : done id)
    (hinner : ∀ c ∈ w.forest.children id, Hollow w c → gone c) :
    Underway w root done (fun c => gone c ∨ c = id ∧ Hollow w id) home (dropEmpty w' id) := by
  have hcontent := content?_of_isScope hreach.isScope
  obtain ⟨n, hn, -⟩ := Option.map_eq_some_iff.mp (h.kept hcontent)
  have hchildren : (w'.node id).children = w'.forest.children id := by
    rw [Workspace.node_of_node? hn, Forest.children_of_node? hn]
  by_cases hhollow : Hollow w id
  · have hempty := (h.children_eq_nil_iff hdone hhollow.kind hinner).mpr hhollow
    have hdrop : dropEmpty w' id = { w' with forest := w'.forest.detach id } := by
      rw [dropEmpty]
      simp [h.kind_eq hcontent, hhollow.kind, hchildren, hempty]
    rw [hdrop]
    exact (h.drop hreach hhollow).congr (fun _ => Iff.rfl) fun c => by simp [hhollow]
  · have hstays : dropEmpty w' id = w' := by
      rw [dropEmpty]
      by_cases hkind : (w.node id).kind = .nameSpace
      · simp [hchildren, mt (h.children_eq_nil_iff hdone hkind hinner).mp hhollow]
      · simp [h.kind_eq hcontent, hkind]
    rw [hstays]
    exact h.congr (fun _ => Iff.rfl) fun c => by simp [hhollow]

/-- The walk over children of a scope, provided that the walk from each of them deals with what is
inside. -/
theorem walk_children (hf : w.forest.Linked) {bound : Nat}
    (hwalk : ∀ {c done gone home w'}, c ∈ w.forest.children id → isScope (w.node c) = true →
      Underway w root done gone home w' → (∀ s, Spaces w c s → ¬done s ∧ ¬gone s) →
      ∃ home', (∀ s, done s → home' s = home s) ∧ Underway w root (fun s => done s ∨ Spaces w c s)
        (fun s => gone s ∨ Spaces w c s ∧ Hollow w s) home' (moved bound c w'))
    {cs : List NodeId} (hnodup : cs.Nodup)
    (hmem : ∀ c ∈ cs, isScope (w.node c) = true → c ∈ w.forest.children id)
    (h : Underway w root done gone home w')
    (hpass : ∀ {done' gone' home' w''}, Underway w root done' gone' home' w'' →
      (∀ s, done s → done' s ∧ home' s = home s) → ∀ c ∈ cs, isScope (w.node c) = false →
        moved bound c w'' = w'')
    (hnew : ∀ c ∈ cs, isScope (w.node c) = true → ∀ s, Spaces w c s → ¬done s ∧ ¬gone s) :
    ∃ home', (∀ s, done s → home' s = home s) ∧
      Underway w root (fun s => done s ∨ ∃ c ∈ cs, isScope (w.node c) = true ∧ Spaces w c s)
        (fun s => gone s ∨ (∃ c ∈ cs, isScope (w.node c) = true ∧ Spaces w c s) ∧ Hollow w s) home'
        (cs.foldl (fun w c => moved bound c w) w') := by
  induction cs generalizing done gone home w' with
  | nil => exact ⟨home, fun _ _ => rfl, h.congr (by simp) (by simp)⟩
  | cons c rest ih =>
    obtain ⟨hc, hrest⟩ := List.nodup_cons.mp hnodup
    cases hscope : isScope (w.node c) with
    | false =>
      obtain ⟨home', hhome, hfinal⟩ := ih hrest (fun d hd => hmem d (List.mem_cons_of_mem c hd)) h
        (fun h' hsub d hd => hpass h' hsub d (List.mem_cons_of_mem c hd)) fun d hd =>
          hnew d (List.mem_cons_of_mem c hd)
      rw [List.foldl_cons, hpass h (fun s hs => ⟨hs, rfl⟩) c List.mem_cons_self hscope]
      exact ⟨home', hhome, hfinal.congr (by simp [hscope]) (by simp [hscope])⟩
    | true =>
      have hcmem := hmem c List.mem_cons_self hscope
      obtain ⟨home₁, hhome₁, h₁⟩ := hwalk hcmem hscope h (hnew c List.mem_cons_self hscope)
      have hfree : ∀ d ∈ rest, isScope (w.node d) = true → ∀ s, Spaces w d s →
          ¬(done s ∨ Spaces w c s) ∧ ¬(gone s ∨ Spaces w c s ∧ Hollow w s) := by
        intro d hd hdScope s hs
        obtain ⟨hdone, hgone⟩ := hnew d (List.mem_cons_of_mem c hd) hdScope s hs
        have hcs : ¬Spaces w c s := fun hin =>
          hc (Spaces.eq_of_sibling hf hcmem (hmem d (List.mem_cons_of_mem c hd) hdScope) hin
            hs ▸ hd)
        exact ⟨not_or.mpr ⟨hdone, hcs⟩, not_or.mpr ⟨hgone, fun hboth => hcs hboth.1⟩⟩
      obtain ⟨home', hhome, hfinal⟩ := ih hrest (fun d hd => hmem d (List.mem_cons_of_mem c hd)) h₁
        (fun h' hsub d hd =>
          hpass h' (fun s hs => ⟨(hsub s (.inl hs)).1, (hsub s (.inl hs)).2.trans (hhome₁ s hs)⟩) d
          (List.mem_cons_of_mem c hd)) hfree
      refine ⟨home', fun s hs => (hhome s (.inl hs)).trans (hhome₁ s hs),
        hfinal.congr (fun s => ?_) fun s => ?_⟩
      · simp [hscope, or_assoc]
      · simp only [List.mem_cons, exists_eq_or_imp, hscope, true_and]
        rw [or_and_right, or_assoc]

/-- The walk from a scope deals with all scopes inside, and takes those out of the tree that are
hollow. -/
theorem walk (hf : w.forest.Linked) (hroot : w.forest.IsTree root) {bound : Nat} {up : List NodeId}
    (h : Underway w root done gone home w') (hreach : Reach w root id)
    (hbranch : w.forest.Branch root (id :: up)) (hbound : w.forest.size < bound + up.length)
    (hnew : ∀ s, Spaces w id s → ¬done s ∧ ¬gone s) :
    ∃ home', (∀ s, done s → home' s = home s) ∧ Underway w root (fun s => done s ∨ Spaces w id s)
      (fun s => gone s ∨ Spaces w id s ∧ Hollow w s) home' (moved bound id w') := by
  induction bound generalizing id up done gone home w' with
  | zero =>
    have hlength := hbranch.length_le hroot.top
    rw [List.length_cons] at hlength
    omega
  | succ bound ih =>
    have hcontent := content?_of_isScope hreach.isScope
    have hplain : (w.node id).unlinked.isProxy = false := isProxy_of_within hroot hreach.within
    obtain ⟨home₁, hhome₁, h₁⟩ := h.gather hreach (hnew id .self).1 hf
    generalize hw₁ : Globals.gather w' id = w₁ at h₁
    have hdone : done id ∨ id = id := .inr rfl
    have hmem : ∀ c ∈ w₁.forest.children id, isScope (w.node c) = true →
        c ∈ w.forest.children id := fun c hc hscope =>
      ((h₁.mem_children_iff_of_isScope hdone hscope).mp hc).1
    have hpass : ∀ {done' gone' home' w''}, Underway w root done' gone' home' w'' →
        (∀ s, done s ∨ s = id → done' s ∧ home' s = home₁ s) → ∀ c ∈ w₁.forest.children id,
        isScope (w.node c) = false → moved bound c w'' = w'' := by
      intro done' gone' home' w'' h' hsub c hc hnot
      obtain ⟨hdone', hhome'⟩ := hsub id hdone
      exact h'.moved_member hroot hdone' (h₁.mem_children_later h' hdone hdone' hhome' hc hnot)
        hnot bound
    have hfree : ∀ c ∈ w₁.forest.children id, isScope (w.node c) = true → ∀ s, Spaces w c s →
        ¬(done s ∨ s = id) ∧ ¬gone s := by
      intro c hc hscope s hs
      obtain ⟨hdoneS, hgoneS⟩ :=
        hnew s ((spaces_iff_child hf).mpr (.inr ⟨c, hmem c hc hscope, hscope, hs⟩))
      refine ⟨not_or.mpr ⟨hdoneS, ?_⟩, hgoneS⟩
      rintro rfl
      exact hf.acyclic ((hf.links s c).mp (hmem c hc hscope)) hs.within
    obtain ⟨home₂, hhome₂, h₂⟩ := walk_children hf (fun {c _ _ _ _} hc hscope h' hnew' =>
        ih h' (hreach.child hf hc hscope) (.child ((hf.links id c).mp hc) hbranch)
          (by rw [List.length_cons]; omega) hnew')
      (h₁.linked.nodup id) hmem h₁ hpass hfree
    have hscopes : ∀ c ∈ w.forest.children id, isScope (w.node c) = true →
        c ∈ w₁.forest.children id := by
      intro c hc hscope
      have hspaces : Spaces w id c := (spaces_iff_child hf).mpr (.inr ⟨c, hc, hscope, .self⟩)
      exact (h₁.mem_children_iff_of_isScope hdone hscope).mpr ⟨hc, (hnew c hspaces).2⟩
    have hinside : ∀ s, Spaces w id s ↔
        s = id ∨ ∃ c ∈ w₁.forest.children id, isScope (w.node c) = true ∧ Spaces w c s := by
      intro s
      refine (spaces_iff_child hf).trans (or_congr_right (exists_congr fun c => ?_))
      exact and_congr_left fun hrest => ⟨fun hc => hscopes c hc hrest.1,
        fun hc => hmem c hc hrest.1⟩
    have hleft := h₂.leave hreach (.inl hdone) fun c hc hhollow => by
      have hscope := isScope_of_nameSpace hhollow.kind
      exact .inr ⟨⟨c, hscopes c hc hscope, hscope, .self⟩, hhollow⟩
    have hscope := (isScope_congr (h₂.kind_eq hcontent)).trans hreach.isScope
    rw [moved_of_scope hplain (h.kept hcontent) hreach.isScope rfl, hw₁, if_pos hscope]
    refine ⟨home₂, fun s hs => (hhome₂ s (.inl hs)).trans (hhome₁ s hs),
      hleft.congr (fun s => ?_) fun s => ?_⟩
    · rw [hinside, or_assoc]
    · rw [hinside]
      by_cases hself : s = id
      · simp only [hself, true_or, true_and]
        rw [or_assoc, or_iff_right_of_imp And.right]
      · simp [hself]

end Underway

end Interop.Overlay.Globals
