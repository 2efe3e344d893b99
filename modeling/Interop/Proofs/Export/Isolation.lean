import Interop.Proofs.Export.Admission
import Interop.Proofs.Export.Sites
import Interop.Proofs.Overlay.Spared

namespace Interop

open Overlay Export Emit

/-- Whether a container bears the qualified name of a node of its kind in a set of nodes. -/
def Site.Meets (kept : NodeId → Prop) (w : Workspace) (x : Site) : Prop :=
  ∃ id n, kept id ∧ w.symbols.entries.get? x.symbol = some id ∧ w.forest.content? id = some n ∧
    n.kind = x.declaration.kind

theorem Site.isSpace_iff {x : Site} :
    x.isSpace = true ↔ x.isOpen = true ∧ x.declaration.kind = .nameSpace ∧
      x.declaration.name.isEmpty = false := by
  simp [isSpace, and_assoc]

/-- Whether a name is registered for a node outside of a set. -/
def Overlay.Workspace.Outside (w : Workspace) (kept : NodeId → Prop) (name : String) : Prop :=
  ∃ id, w.symbols.entries.get? name = some id ∧ ¬kept id

namespace Export

variable {kept : NodeId → Prop} {w₀ w₁ w w' w'' : Workspace} {xs xs' : List Site} {scope : String}
    {top id : NodeId}
  {m n : Node} {names : List String} {x : Site} {s : Surroundings} {header? : Option Path}
    {d : Declaration}
  {units : List HeaderUnit}

/-- Whether nothing has been done to whole trees on the way from `w₀` to `w`. Outside of these
trees, containers are registered under their symbols only, and namespaces are registered and bear
the symbols of their names below what is around them. -/
structure Isolated (kept : NodeId → Prop) (w₀ w : Workspace) : Prop where
  spares : Forest.Spares kept w₀.forest w.forest
  whole : w.forest.Whole kept
  live : ∀ name id, w.symbols.entries.get? name = some id → ∃ n, w.forest.content? id = some n
  named : ∀ name id, w.symbols.entries.get? name = some id → kept id →
    w₀.symbols.entries.get? name = some id
  titled : ∀ name id n, w.symbols.entries.get? name = some id → ¬kept id →
    w.forest.content? id = some n → n.kind.isHolder = true → n.kind = .file ∨ n.symbol = name
  spaces : ∀ id n, ¬kept id → w.forest.content? id = some n → n.kind = .nameSpace →
    w.Outside kept n.symbol
  below : ∀ id n parent m, ¬kept id → w.forest.content? id = some n → n.kind = .nameSpace →
    w.forest.parent? id = some parent → w.forest.content? parent = some m →
      n.symbol = Symbol.qualify m.symbol n.name

/-- What a raw pass keeps on its way from `w` to `w'`, over containers of which the namespaces are
registered outside of whole trees afterwards. -/
structure Extends (kept : NodeId → Prop) (w₀ : Workspace) (xs : List Site) (w w' : Workspace) :
    Prop where
  isolated : Isolated kept w₀ w'
  content : ∀ id n, w.forest.content? id = some n → w'.forest.content? id = some n
  outside : ∀ name, w.Outside kept name → w'.Outside kept name
  spaces : ∀ x ∈ xs, x.isSpace = true → w'.Outside kept x.symbol

/-- Whether a node with the given symbol, outside of whole trees to which nothing has been done, may
get others below it. -/
structure Stands (kept : NodeId → Prop) (w₀ : Workspace) (scope : String) (id : NodeId)
    (w : Workspace) : Prop where
  isolated : Isolated kept w₀ w
  outside : ¬kept id
  node : ∃ m, w.forest.content? id = some m ∧ m.kind.isHolder = true ∧ m.symbol = scope

namespace Extends

/-- A workspace that is isolated extends itself. -/
theorem refl (h : Isolated kept w₀ w) : Extends kept w₀ [] w w :=
  ⟨h, fun _ _ hn => hn, fun _ hname => hname, nofun⟩

/-- Extensions may be chained, with the containers that have been entered in both. -/
theorem trans (h : Extends kept w₀ xs w w') (h' : Extends kept w₀ xs' w' w'') :
    Extends kept w₀ (xs ++ xs') w w'' where
  isolated := h'.isolated
  content id n hn := h'.content id n (h.content id n hn)
  outside name hname := h'.outside name (h.outside name hname)
  spaces x hx hspace := by
    rcases List.mem_append.mp hx with hx | hx
    · exact h'.outside x.symbol (h.spaces x hx hspace)
    · exact h'.spaces x hx hspace

/-- The namespaces that are registered count for any containers. -/
theorem onto (h : Extends kept w₀ xs w w')
    (hspaces : ∀ x ∈ xs', x.isSpace = true → w'.Outside kept x.symbol) :
    Extends kept w₀ xs' w w' :=
  { h with spaces := hspaces }

/-- A place outside of the kept trees stays outside while the rest is extended. -/
theorem stands (h : Extends kept w₀ xs w w') (hid : Stands kept w₀ scope id w) :
    Stands kept w₀ scope id w' := by
  obtain ⟨m, hm, hholder⟩ := hid.node
  exact ⟨h.isolated, hid.outside, m, h.content id m hm, hholder⟩

end Extends

/-- A new node below one that stands outside of whole trees does nothing to these. -/
theorem Isolated.grow (h : Isolated kept w₀ w) (htop : ¬kept top)
    (hm : w.forest.content? top = some m) (hcontainer : m.kind.isContainer = true)
    (hfresh : n.IsFresh) (hnames : n.kind.isHolder = true → names = [n.symbol])
    (hspace : n.kind = .nameSpace → n.symbol = Symbol.qualify m.symbol n.name) :
    Extends kept w₀ [] w (w.grow top n names) := by
  have hf := h.spares.wellFormed
  have hcontent : ∀ key, (w.grow top n names).forest.content? key =
      if key = w.forest.nextId then some n else w.forest.content? key :=
    fun key => Workspace.content?_grow hfresh w top key names
  have hget : ∀ name, (w.grow top n names).symbols.entries.get? name =
      if name ∈ names then some w.forest.nextId else w.symbols.entries.get? name :=
    Workspace.get?_grow w top n names
  have hparents : ∀ key, (w.grow top n names).forest.parent? key =
      if key = w.forest.nextId then some top else w.forest.parent? key :=
        hf.parent?_pushBelow hm hfresh
  have hstep : Forest.Spares kept w.forest (w.grow top n names).forest :=
    ⟨hf.pushBelow hm hfresh hcontainer,
      fun key hkey => h.whole.node?_pushBelow hfresh.parent htop hkey⟩
  have hnew := h.whole.not_nextId
  have hstays : ∀ key k, w.forest.content? key = some k →
      (w.grow top n names).forest.content? key = some k :=
    fun _ _ => Workspace.content?_grow_of_some hfresh
  have houtside : ∀ name, w.Outside kept name → (w.grow top n names).Outside kept name := by
    rintro name ⟨key, hkey, hkept⟩
    by_cases hname : name ∈ names
    · exact ⟨w.forest.nextId, by rw [hget, if_pos hname], hnew⟩
    · exact ⟨key, by rw [hget, if_neg hname, hkey], hkept⟩
  refine ⟨⟨h.spares.trans hstep, hstep.whole hf h.whole, ?live, ?named, ?titled, ?spaces, ?below⟩,
    hstays, houtside, nofun⟩
  case live =>
    intro name key hkey
    rw [hget] at hkey
    split at hkey
    · cases hkey
      exact ⟨n, by rw [hcontent, if_pos rfl]⟩
    · obtain ⟨k, hk⟩ := h.live name key hkey
      exact ⟨k, hstays key k hk⟩
  case named =>
    intro name key hkey hkept
    rw [hget] at hkey
    split at hkey
    · cases hkey
      exact absurd hkept hnew
    · exact h.named name key hkey hkept
  case titled =>
    intro name key k hkey hkept hk hholder
    rw [hget] at hkey
    split at hkey
    · rename_i hname
      cases hkey
      rw [hcontent, if_pos rfl] at hk
      obtain rfl := Option.some.inj hk
      rw [hnames hholder] at hname
      exact .inr (List.mem_singleton.mp hname).symm
    · obtain ⟨k', hk'⟩ := h.live name key hkey
      obtain rfl := Option.some.inj ((hstays key k' hk').symm.trans hk)
      exact h.titled name key k' hkey hkept hk' hholder
  case spaces =>
    intro key k hkept hk hkind
    rw [hcontent] at hk
    split at hk
    · obtain rfl := Option.some.inj hk
      refine ⟨w.forest.nextId, ?_, hnew⟩
      rw [hget, hnames (by rw [hkind]; rfl), if_pos (List.mem_singleton.mpr rfl)]
    · exact houtside _ (h.spaces key k hkept hk hkind)
  case below =>
    intro key k parent p hkept hk hkind hparent hp
    rw [hparents] at hparent
    rw [hcontent] at hk
    split at hk
    · rename_i hkey
      rw [if_pos hkey] at hparent
      obtain rfl := Option.some.inj hk
      obtain rfl := Option.some.inj hparent
      obtain rfl := Option.some.inj ((hstays top m hm).symm.trans hp)
      exact hspace hkind
    · rename_i hkey
      rw [if_neg hkey] at hparent
      obtain ⟨p', hp', -⟩ := hf.exists_parent hparent
      obtain rfl := Option.some.inj ((hstays parent p' hp').symm.trans hp)
      exact h.below key k parent p' hkept hk hkind hparent hp'

/-- What is registered under the name of a container, with its kind, stands outside of whole trees
unless the container meets a node in them. -/
theorem Isolated.found (h : Isolated kept w₀ w) (hx : ¬x.Meets kept w₀ ∨ w.Outside kept x.symbol)
    (hget : w.symbol? x.symbol = some id) (hkind : (w.node id).kind = x.declaration.kind)
    (hholder : x.declaration.kind.isHolder = true) (hfile : x.declaration.kind ≠ .file) :
    Stands kept w₀ x.symbol id w := by
  obtain ⟨hget, hlive⟩ := Option.filter_eq_some_iff.mp hget
  obtain ⟨n, hn⟩ := (Forest.contains_iff_content? _ _).mp hlive
  rw [Globals.node_kind hn] at hkind
  have hid : ¬kept id := by
    intro hkept
    rcases hx with hx | ⟨other, hother, houtside⟩
    · refine hx ⟨id, n, hkept, h.named _ id hget hkept, ?_, hkind⟩
      rw [← hn, Forest.content?, Forest.content?, h.spares.same id hkept]
    · exact houtside (Option.some.inj (hget.symm.trans hother) ▸ hkept)
  refine ⟨h, hid, n, hn, hkind ▸ hholder, ?_⟩
  exact (h.titled _ id n hget hid hn (hkind ▸ hholder)).resolve_left (hkind ▸ hfile)

namespace Stands

theorem symbol_eq (h : Stands kept w₀ scope id w) : (w.node id).symbol = scope := by
  obtain ⟨m, hm, -, hsymbol⟩ := h.node
  rw [← hsymbol, ← Workspace.node_unlinked hm]
  rfl

/-- A new container stands below the one around it. -/
theorem grow (h : Stands kept w₀ scope top w) (hfresh : n.IsFresh)
    (hholder : n.kind.isHolder = true)
    (hspace : n.kind = .nameSpace → n.symbol = Symbol.qualify scope n.name) :
    Extends kept w₀ [] w (w.grow top n [n.symbol]) ∧
      Stands kept w₀ n.symbol w.forest.nextId (w.grow top n [n.symbol]) := by
  obtain ⟨m, hm, hcontainer, rfl⟩ := h.node
  have hgrow := h.isolated.grow h.outside hm (Kind.isContainer_of_isHolder hcontainer) hfresh
    (fun _ => rfl) hspace
  exact ⟨hgrow, hgrow.isolated, h.isolated.whole.not_nextId, n,
    by rw [Workspace.content?_grow hfresh, if_pos rfl], hholder, rfl⟩

/-- A new node that holds nothing may have any names. -/
theorem add (h : Stands kept w₀ scope top w) (hfresh : n.IsFresh)
    (hholder : n.kind.isHolder = false) :
    Extends kept w₀ [] w (w.grow top n names) := by
  obtain ⟨m, hm, hcontainer, rfl⟩ := h.node
  refine h.isolated.grow h.outside hm (Kind.isContainer_of_isHolder hcontainer) hfresh
    (fun htrue => ?_) fun hkind => ?_
  · rw [hholder] at htrue
    cases htrue
  · rw [hkind] at hholder
    cases hholder

end Stands

namespace Containers

/-- A namespace with a name is always entered. -/
theorem enteredNamespace_isSome (hname : d.name.isEmpty = false) :
    (enteredNamespace top d w).1.isSome = true := by
  simp only [enteredNamespace]
  rw [if_neg (by rw [hname]; exact Bool.false_ne_true)]
  split <;> rfl

/-- A namespace is entered in the tree of what is around it. -/
theorem enteredNamespace_extends (h : Stands kept w₀ x.scope top w) :
    Extends kept w₀ [x] w (enteredNamespace top x.declaration w).2 ∧
      ∀ inner, (enteredNamespace top x.declaration w).1 = some inner →
        Stands kept w₀ x.symbol inner (enteredNamespace top x.declaration w).2 := by
  have hsymbol : Symbol.qualify (w.node top).symbol x.declaration.name = x.symbol :=
    by rw [h.symbol_eq]; rfl
  simp only [enteredNamespace, hsymbol]
  split
  · rename_i hname
    refine ⟨(Extends.refl h.isolated).onto fun y hy hspace => ?_, fun _ hinner => by cases hinner⟩
    rw [List.mem_singleton.mp hy, Site.isSpace_iff, hname] at hspace
    cases hspace.2.2
  · split
    · rename_i existing hfind
      have hfound := List.find?_some hfind
      obtain ⟨k, hk, hspace⟩ := (Option.any_eq_true _ _).mp hfound
      rw [Bool.and_eq_true, beq_iff_eq, beq_iff_eq] at hspace
      have hcontent := Forest.content?_of_node? hk
      have hparent : w.forest.parent? existing = some top :=
        (h.isolated.spares.wellFormed.links top existing).mp (List.mem_of_find?_eq_some hfind)
      have houtside : ¬kept existing := fun hkept =>
        h.outside ((h.isolated.whole.links existing top hparent).mp hkept)
      obtain ⟨m, hm, -, hscope⟩ := h.node
      have hk' : k.unlinked.symbol = x.symbol := by
        rw [h.isolated.below existing k.unlinked top m houtside hcontent hspace.1 hparent hm,
          hscope, Node.unlinked_name, hspace.2]
        rfl
      refine ⟨(Extends.refl h.isolated).onto fun y hy _ => ?_, fun inner hinner => ?_⟩
      · rw [List.mem_singleton.mp hy, ← hk']
        exact h.isolated.spaces existing k.unlinked houtside hcontent hspace.1
      · cases hinner
        exact ⟨h.isolated, houtside, k.unlinked, hcontent,
          by rw [Node.unlinked_kind, hspace.1]; rfl, hk'⟩
    · obtain ⟨hgrow, hstands⟩ :=
        h.grow (n := { kind := .nameSpace, name := x.declaration.name, symbol := x.symbol })
        ⟨rfl, rfl, rfl⟩ rfl fun _ => rfl
      refine ⟨hgrow.onto fun y hy _ => ?_, fun inner hinner => ?_⟩
      · obtain ⟨k, hk, -, hk'⟩ := hstands.node
        rw [Workspace.content?_grow ⟨rfl, rfl, rfl⟩, if_pos rfl] at hk
        obtain rfl := Option.some.inj hk
        rw [List.mem_singleton.mp hy]
        exact ⟨w.forest.nextId, by rw [Workspace.get?_grow, if_pos (List.mem_singleton.mpr rfl)],
          hstands.outside⟩
      · cases hinner
        exact hstands

/-- A class or enum that meets nothing is found or made outside of whole trees. -/
theorem enteredType_extends (h : Stands kept w₀ x.scope top w) (hx : ¬x.Meets kept w₀)
    (hkind : x.declaration.kind = .classType ∨ x.declaration.kind = .enumeration) :
    Extends kept w₀ [] w (enteredType s header? top x.declaration x.symbol w).2 ∧
      ∀ inner, (enteredType s header? top x.declaration x.symbol w).1 = some inner →
        Stands kept w₀ x.symbol inner (enteredType s header? top x.declaration x.symbol w).2 := by
  have hholder : x.declaration.kind.isHolder = true ∧ x.declaration.kind ≠ .file ∧
      x.declaration.kind ≠ .nameSpace := by
    rcases hkind with hkind | hkind <;> simp [hkind, Kind.isHolder]
  simp only [enteredType]
  split
  · exact ⟨.refl h.isolated, fun _ hinner => by cases hinner⟩
  · split
    · rename_i existing hexisting
      obtain ⟨hget, hsame⟩ := Option.filter_eq_some_iff.mp hexisting
      refine ⟨.refl h.isolated, fun inner hinner => ?_⟩
      simp only at hinner
      split at hinner
      · cases hinner
        exact h.isolated.found (.inl hx) hget (by simpa using hsame) hholder.1 hholder.2.1
      · cases hinner
    · split
      · obtain ⟨hgrow, hstands⟩ :=
          h.grow (n := typeNode x.declaration x.symbol header?) ⟨rfl, rfl, rfl⟩ hholder.1
          fun hspace => absurd hspace hholder.2.2
        refine ⟨hgrow, fun inner hinner => ?_⟩
        cases hinner
        exact hstands
      · exact ⟨.refl h.isolated, fun _ hinner => by cases hinner⟩

/-- The first pass does nothing to whole trees if no class or enum meets one of their nodes. -/
theorem frames (kept : NodeId → Prop) (w₀ : Workspace) (s : Surroundings) (header? : Option Path) :
    (builder s header?).Frames (fun x => x.declaration.kind ≠ .nameSpace → ¬x.Meets kept w₀)
    (Extends kept w₀)
      (Stands kept w₀) where
  refl h := .refl h.isolated
  trans := .trans
  mono := Extends.stands
  linkage hkind := by simp only [builder, entered, hkind]
  enter {x top w} hx h hlinkage := by
    have hsymbol : Symbol.qualify (w.node top).symbol x.declaration.name = x.symbol :=
      by rw [h.symbol_eq]; rfl
    have hclosed : x.declaration.kind ≠ .nameSpace → ∀ y ∈ [x], ¬y.isSpace = true := by
      intro hkind y hy hspace
      rw [List.mem_singleton.mp hy, Site.isSpace_iff] at hspace
      exact hkind hspace.2.1
    simp only [builder, entered, hsymbol]
    split
    · rename_i hkind
      exact absurd hkind hlinkage
    · rename_i hkind
      exact enteredNamespace_extends h
    · rename_i hkind
      obtain ⟨hextends, hinner⟩ :=
        @enteredType_extends kept w₀ w top x s header? h (hx (by simp [hkind])) (.inl hkind)
      exact ⟨hextends.onto fun y hy hspace => absurd hspace (hclosed (by simp [hkind]) y hy),
        hinner⟩
    · rename_i hkind
      obtain ⟨hextends, hinner⟩ :=
        @enteredType_extends kept w₀ w top x s header? h (hx (by simp [hkind])) (.inr hkind)
      exact ⟨hextends.onto fun y hy hspace => absurd hspace (hclosed (by simp [hkind]) y hy),
        hinner⟩
    · rename_i hkind _ _
      exact ⟨(Extends.refl h.isolated).onto fun y hy hspace => absurd hspace (hclosed hkind y hy),
        nofun⟩
  pass {x top w w' xs} hnone hextends hopen := by
    refine (Extends.refl hextends.isolated).onto fun y hy hspace => ?_
    obtain ⟨-, hkind, hname⟩ := Site.isSpace_iff.mp (hopen y hy (Site.isSpace_iff.mp hspace).1)
    have hsome : (enteredNamespace top x.declaration w).1.isSome = true :=
      enteredNamespace_isSome hname
    simp only [builder, entered, hkind] at hnone
    rw [hnone] at hsome
    cases hsome
  leaf {scope top d w} h := by
    simp only [builder, added]
    split
    · exact h.add ⟨rfl, rfl, rfl⟩ rfl
    · exact .refl h.isolated

end Containers

namespace Members

/-- Whether a node may get members, in a workspace that a second pass leads to from `w₁`. -/
structure Takes (kept : NodeId → Prop) (w₀ w₁ : Workspace) (scope : String) (id : NodeId)
    (w : Workspace) : Prop where
  stands : Stands kept w₀ scope id w
  since : Extends kept w₀ [] w₁ w
  kind : (w.node id).kind ≠ .enumeration

theorem Takes.mono (h : Takes kept w₀ w₁ scope id w) (hextends : Extends kept w₀ [] w w') :
    Takes kept w₀ w₁ scope id w' := by
  obtain ⟨m, hm, -⟩ := h.stands.node
  refine ⟨hextends.stands h.stands, h.since.trans hextends, ?_⟩
  rw [Globals.node_kind (hextends.content id m hm), ← Globals.node_kind hm]
  exact h.kind

/-- A new member does nothing to whole trees. -/
theorem added_extends (h : Takes kept w₀ w₁ scope top w) :
    Extends kept w₀ [] w (added s header? top d w) := by
  obtain ⟨m, hm, hholder, -⟩ := h.stands.node
  have hkind := h.kind
  rw [Globals.node_kind hm] at hkind
  have haround : m.kind = .file ∨ m.kind = .nameSpace ∨ m.kind = .classType := by
    revert hholder hkind
    cases m.kind <;> simp [Kind.isHolder]
  simp only [added]
  split
  · split
    · exact .refl h.stands.isolated
    · rename_i n hn
      obtain ⟨hfresh, hplaced⟩ := placed_of_memberNode? hm haround hn
      refine h.stands.add hfresh ?_
      rcases memberNode?_cases hn with ⟨hcallable, -⟩ | ⟨hvariable, -⟩ | ⟨hbase, -⟩
      · rcases isCallable_iff.mp hcallable with hkind | hkind | hkind <;> rw [hkind] <;> rfl
      · rcases isVariable_iff.mp hvariable with hkind | hkind | hkind <;> rw [hkind] <;> rfl
      · rw [hbase]
        rfl
  · exact .refl h.stands.isolated

/-- The second pass does nothing to whole trees if each container meets none of their nodes, or is
registered outside of them. -/
theorem frames (kept : NodeId → Prop) (w₀ w₁ : Workspace) (s : Surroundings)
    (header? : Option Path) :
    (builder s header?).Frames (fun x => ¬x.Meets kept w₀ ∨ w₁.Outside kept x.symbol)
      (fun _ => Extends kept w₀ []) (Takes kept w₀ w₁) where
  refl h := .refl h.stands.isolated
  trans := .trans
  mono hextends h := h.mono hextends
  linkage hkind := by simp only [builder, entered, hkind]
  enter {x top w} hx h hlinkage := by
    have hsymbol : Symbol.qualify (w.node top).symbol x.declaration.name = x.symbol :=
      by rw [h.stands.symbol_eq]; rfl
    refine ⟨.refl h.stands.isolated, fun inner hinner => ?_⟩
    have hregistered : ¬x.Meets kept w₀ ∨ w.Outside kept x.symbol :=
      hx.imp_right (h.since.outside x.symbol)
    simp only [builder, entered, hsymbol] at hinner ⊢
    split at hinner
    · rename_i hkind
      exact absurd hkind hlinkage
    · rename_i hkind
      obtain ⟨hget, hsame⟩ := Option.filter_eq_some_iff.mp hinner
      rw [Bool.and_eq_true, beq_iff_eq] at hsame
      exact ⟨h.stands.isolated.found hregistered hget hsame.2 (by rw [hkind]; rfl)
        (by simp [hkind]), h.since, by simp [hsame.2, hkind]⟩
    · rename_i hkind
      obtain ⟨hget, hsame⟩ := Option.filter_eq_some_iff.mp hinner
      rw [Bool.and_eq_true, beq_iff_eq] at hsame
      exact ⟨h.stands.isolated.found hregistered hget hsame.2 (by rw [hkind]; rfl)
        (by simp [hkind]), h.since, by simp [hsame.2, hkind]⟩
    · cases hinner
  pass _ hextends _ := .refl hextends.isolated
  leaf := added_extends

end Members

end Export

namespace RawPass

variable {kept : NodeId → Prop} {w : Workspace} {s : Surroundings} {units : List HeaderUnit}

/-- Both raw passes together do nothing to whole trees if no container meets one of their nodes.
Namespaces that only namespaces are around may do so: the first pass registers them anew. -/
theorem members_containers_isolated (h : Stands kept w "" s.root w)
    (hroot : (w.node s.root).kind ≠ .enumeration)
    (hsites : ∀ u ∈ units, ∀ x ∈ u.sites, x.isSpace = false → ¬x.Meets kept w) :
    Isolated kept w (members.apply s units (containers.apply s units w)) := by
  have hfirst : Extends kept w (units.flatMap HeaderUnit.sites) w (containers.apply s units w) := by
    rw [apply_eq]
    refine Builder.Frames.foldl (fun u => Containers.frames kept w s (some u.path))
      (fun u hu x hx hkind => ?_) h
    refine hsites u hu x hx (Bool.eq_false_iff.mpr fun hspace => ?_)
    exact hkind (Site.isSpace_iff.mp hspace).2.1
  have hsecond : Extends kept w [] (containers.apply s units w)
      (members.apply s units (containers.apply s units w)) := by
    rw [apply_eq s units _ members]
    refine Builder.Frames.foldl (fun u => Members.frames kept w (containers.apply s units w) s
      (some u.path))
      (fun u hu x hx => ?_) ⟨hfirst.stands h, .refl hfirst.isolated, ?_⟩
    · cases hspace : x.isSpace with
      | true => exact .inr (hfirst.spaces x (List.mem_flatMap.mpr ⟨u, hu, hx⟩) hspace)
      | false => exact .inl (hsites u hu x hx hspace)
    · obtain ⟨m, hm, -⟩ := h.node
      rw [Globals.node_kind (hfirst.content s.root m hm), ← Globals.node_kind hm]
      exact hroot
  exact hsecond.isolated

end RawPass

end Interop
