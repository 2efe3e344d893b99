import Interop.Proofs.Export.Arrangement
import Interop.Proofs.Export.Signed

namespace Interop

open Overlay Export

/-- Whether the second pass enters containers of a kind. -/
def Kind.holdsMembers (kind : Kind) : Bool :=
  kind == .nameSpace || kind == .classType

theorem Kind.holdsMembers_iff {kind : Kind} :
    kind.holdsMembers = true ↔ kind = .nameSpace ∨ kind = .classType := by
  simp [holdsMembers]

theorem Kind.qualifies_of_holdsMembers {kind : Kind} (h : kind.holdsMembers = true) :
    kind.qualifies = true :=
  qualifies_iff.mpr ((holdsMembers_iff.mp h).imp_right .inl)

namespace Declaration

/-- Whether a declaration stands for itself, and so does everything that a raw pass can come to
inside of it. The names of the namespaces among it hold no colons. -/
inductive Shown : Declaration → Prop
  | intro {d : Declaration} (hproxy : d.isProxy = false) (hname : d.kind = .nameSpace →
      Header.Simple d.name)
      (h : d.kind = .file ∨ d.kind = .linkage ∨ d.kind.qualifies = true → ∀ c ∈ d.children,
        Shown c) : Shown d

variable {inClass : Option String} {d : Declaration}

theorem Shown.isProxy (h : d.Shown) : d.isProxy = false := by
  cases h with
  | intro hproxy => exact hproxy

theorem Shown.simple (h : d.Shown) (hkind : d.kind = .nameSpace) : Header.Simple d.name := by
  cases h with
  | intro _ hname => exact hname hkind

/-- What is shown in a container, a file or a linkage block is shown itself. -/
theorem Shown.children (h : d.Shown)
    (hkind : d.kind = .file ∨ d.kind = .linkage ∨ d.kind.qualifies = true) :
    ∀ c ∈ d.children, c.Shown := by
  cases h with
  | intro _ _ hchildren => exact hchildren hkind

/-- What a header declares is shown, unless it stands for its children only. -/
theorem Form.shown (h : d.Form inClass) (hproxy : d.isProxy = false) : d.Shown := by
  induction h with
  | bare hkind hbare =>
    refine .intro hproxy (fun heq => ?_) (by simp [hbare])
    rw [heq] at hkind
    cases hkind
  | enumeration hkind h =>
    refine .intro hproxy (by simp [hkind]) fun _ c hc => ?_
    obtain ⟨hc, hbare, hcproxy⟩ := h c hc
    exact .intro hcproxy (by simp [hc]) (by simp [hbare])
  | nameSpace _ hname hproxies _ ih =>
    exact .intro hproxy (fun _ => hname) fun _ c hc => ih c hc (hproxies c hc)
  | group hkind hproxies _ ih =>
    refine .intro hproxy (fun heq => ?_) fun _ c hc => ih c hc (hproxies c hc)
    rcases hkind with hkind | hkind <;> simp [hkind] at heq
  | wrapper hkind =>
    refine .intro hproxy (fun heq => ?_) fun hentered => ?_
    · rcases hkind with hkind | hkind | hkind <;> simp [hkind] at heq
    · rcases hkind with hkind | hkind | hkind <;> simp [hkind, Kind.qualifies] at hentered
  | classType hkind _ hproxies _ ih =>
    refine .intro hproxy (fun heq => ?_) fun _ c hc => ih c hc (hproxies c hc)
    rcases hkind with hkind | hkind <;> simp [hkind] at heq

end Declaration

namespace Export

/-- Whether all that was there in `w` is there in `w'`, and symbols tell where nodes stand. -/
structure Grown (w w' : Workspace) : Prop where
  signed : Signed w'
  kept : ∀ id n, w.forest.content? id = some n → w'.forest.content? id = some n

variable {w w' : Workspace} {top : NodeId} {m n : Node} {names : List String} {opens : Kind → Bool}
  {s : Surroundings} {header? : Option Path} {d : Declaration}

theorem Grown.refl (h : Signed w) : Grown w w :=
  ⟨h, fun _ _ hn => hn⟩

/-- Growth may be chained. -/
theorem Grown.trans {w'' : Workspace} (h : Grown w w') (h' : Grown w' w'') : Grown w w'' :=
  ⟨h'.signed, fun id n hn => h'.kept id n (h.kept id n hn)⟩

/-- Adding a node lets a workspace grow, provided that the new names agree with the nodes. -/
theorem Grown.grow (h : Signed (w.grow top n names)) (hfresh : n.IsFresh) :
    Grown w (w.grow top n names) where
  signed := h
  kept _ _ := Workspace.content?_grow_of_some hfresh

/-- Whether a declaration has been entered at a node that bears the symbol of its name below `m`. -/
structure Enters (opens : Kind → Bool) (m : Node) (d : Declaration) (inner : NodeId)
    (w : Workspace) : Prop where
  opens : opens d.kind = true
  named : d.kind = .nameSpace → d.name ≠ ""
  node : ∃ n, w.forest.content? inner = some n ∧ n.kind = d.kind ∧
    n.symbol = Symbol.qualify m.symbol d.name

/-- Whether a pass enters declarations of the kinds that `opens` tells, and no others, at the nodes
of their symbols. -/
structure Builder.Follows (b : Builder) (opens : Kind → Bool) : Prop where
  qualifies : ∀ {kind : Kind}, opens kind = true → kind.qualifies = true
  enter : ∀ {top : NodeId} {d : Declaration} {w : Workspace} {m : Node}, Signed w →
    w.forest.content? top = some m → m.kind = .file ∨ opens m.kind = true → d.Shown →
    Grown w (b.enter top d w).2 ∧ ∀ inner, (b.enter top d w).1 = some inner →
      d.kind = .linkage ∧ inner = top ∨ Enters opens m d inner (b.enter top d w).2
  leaf : ∀ {top : NodeId} {d : Declaration} {w : Workspace} {m : Node}, Signed w →
    w.forest.content? top = some m → m.kind = .file ∨ opens m.kind = true → Grown w (b.leaf top d w)

/-- Whatever a pass opens can hold something. -/
theorem isContainer_of_opens {kind : Kind} (hopens : opens kind = true → kind.qualifies = true)
    (h : kind = .file ∨ opens kind = true) : kind.isContainer = true := by
  rcases h with rfl | h
  · rfl
  · rcases Kind.qualifies_iff.mp (hopens h) with hk | hk | hk <;> rw [hk] <;> rfl

theorem symbol_node (hm : w.forest.content? top = some m) : (w.node top).symbol = m.symbol := by
  rw [← Workspace.node_unlinked hm]
  rfl

namespace Containers

/-- Entering a namespace opens a node that bears its name. Its name has to be simple, or else the
symbol would have more parts than the declaration has names around it. -/
theorem enteredNamespace_follows (h : Signed w) (hm : w.forest.content? top = some m)
    (hcontainer : m.kind.isContainer = true) (hkind : d.kind = .nameSpace)
    (hsimple : Header.Simple d.name) :
    Grown w (enteredNamespace top d w).2 ∧ ∀ inner, (enteredNamespace top d w).1 = some inner →
      Enters Kind.qualifies m d inner (enteredNamespace top d w).2 := by
  have hopens : d.kind.qualifies = true := by rw [hkind]; rfl
  simp only [enteredNamespace]
  split
  · exact ⟨.refl h, fun _ hinner => by cases hinner⟩
  · rename_i hname
    have hne : d.name ≠ "" := fun hempty => hname (String.isEmpty_iff.mpr hempty)
    split
    · rename_i existing hfind
      refine ⟨.refl h, fun inner hinner => ?_⟩
      cases hinner
      have hfound := List.find?_some hfind
      obtain ⟨k, hk, hspace⟩ := (Option.any_eq_true _ _).mp hfound
      rw [Bool.and_eq_true, beq_iff_eq, beq_iff_eq] at hspace
      have hparent := (h.wellFormed.links top existing).mp (List.mem_of_find?_eq_some hfind)
      have hcontent := Forest.content?_of_node? hk
      have hsymbol := h.stands existing top k.unlinked m hcontent
        (Kind.qualifies_iff.mpr (.inl hspace.1)) hparent hm
      exact ⟨hopens, fun _ => hne, k.unlinked, hcontent, hspace.1.trans hkind.symm,
        hspace.2 ▸ hsymbol⟩
    · rw [symbol_node hm]
      generalize hnode : ({ kind := .nameSpace, name := d.name,
                            symbol := Symbol.qualify m.symbol d.name } : Node) = x
      have hfresh : x.IsFresh := by rw [← hnode]; exact ⟨rfl, rfl, rfl⟩
      have hx : x.kind = .nameSpace ∧ x.name = d.name ∧
          x.symbol = Symbol.qualify m.symbol d.name := by
        rw [← hnode]; exact ⟨rfl, rfl, rfl⟩
      have htitled : Titled (w.grow top x [Symbol.qualify m.symbol d.name]) :=
        h.toTitled.grow hm hcontainer hfresh (fun _ => hx.2.2 ▸ Symbol.qualify_ne_empty hne)
          (fun _ name hmem => hx.2.2.trans (List.mem_singleton.mp hmem).symm) fun _ =>
            hx.2.1 ▸ hx.2.2
      have hgrown := h.grow hfresh htitled fun _ => hx.2.2 ▸ Symbol.closed_qualify hne hsimple
      refine ⟨.grow hgrown hfresh, fun inner hinner => ?_⟩
      cases hinner
      have hcontent := (Workspace.content?_grow hfresh w top
        _ [Symbol.qualify m.symbol d.name]).trans (if_pos rfl)
      exact ⟨hopens, fun _ => hne, x, hcontent, hx.1.trans hkind.symm, hx.2.2⟩

/-- Entering a class or an enum opens a node of its kind that bears its qualified name, if there is
one. -/
theorem enteredType_follows (h : Signed w) (hm : w.forest.content? top = some m)
    (hcontainer : m.kind.isContainer = true) (hkind : d.kind = .classType ∨ d.kind = .enumeration) :
    Grown w (enteredType s header? top d (Symbol.qualify m.symbol d.name) w).2 ∧
      ∀ inner, (enteredType s header? top d (Symbol.qualify m.symbol d.name) w).1 = some inner →
        Enters Kind.qualifies m d inner (enteredType s header? top d
            (Symbol.qualify m.symbol d.name) w).2 := by
  have hopens : d.kind.qualifies = true := Kind.qualifies_iff.mpr (.inr hkind)
  have hnamed : d.kind = .nameSpace → d.name ≠ "" := by
    intro heq
    rcases hkind with hkind | hkind <;> simp [heq] at hkind
  simp only [enteredType]
  split
  · exact ⟨.refl h, fun _ hinner => by cases hinner⟩
  · rename_i hgate
    simp only [Bool.or_eq_true, not_or, Bool.not_eq_true] at hgate
    have hne : d.name ≠ "" := fun hempty => by simp [hempty] at hgate
    split
    · rename_i existing hexisting
      refine ⟨.refl h, fun inner hinner => ?_⟩
      simp only at hinner
      split at hinner
      · cases hinner
        obtain ⟨hget, hsame⟩ := Option.filter_eq_some_iff.mp hexisting
        obtain ⟨-, k, hk, hsame⟩ : IsContainer d.kind existing w :=
          .of_kind (by rcases hkind with hkind | hkind <;> rw [hkind] <;> rfl)
            (by simpa using hsame)
        exact ⟨hopens, hnamed, k, hk, hsame, h.symbol_eq hget hk (hsame ▸ hopens)⟩
      · cases hinner
    · split
      · generalize hnode : typeNode d (Symbol.qualify m.symbol d.name) header? = x
        have hfresh : x.IsFresh := by rw [← hnode]; exact ⟨rfl, rfl, rfl⟩
        have hx : x.kind = d.kind ∧ x.symbol = Symbol.qualify m.symbol d.name := by
          rw [← hnode]; exact ⟨rfl, rfl⟩
        have hspace : x.kind ≠ .nameSpace :=
          by rcases hkind with hkind | hkind <;> simp [hx.1, hkind]
        have htitled : Titled (w.grow top x [Symbol.qualify m.symbol d.name]) :=
          h.toTitled.grow hm hcontainer hfresh (fun _ => hx.2 ▸ Symbol.qualify_ne_empty hne)
            (fun _ name hmem => hx.2.trans (List.mem_singleton.mp hmem).symm) fun _ => by
              rw [← hnode]
              rfl
        have hgrown := h.grow hfresh htitled fun heq => absurd heq hspace
        refine ⟨.grow hgrown hfresh, fun inner hinner => ?_⟩
        cases hinner
        exact ⟨hopens, hnamed, x, by rw [Workspace.content?_grow hfresh, if_pos rfl], hx⟩
      · exact ⟨.refl h, fun _ hinner => by cases hinner⟩

theorem added_grown (h : Signed w) (hm : w.forest.content? top = some m)
    (hcontainer : m.kind.isContainer = true) :
    Grown w (added top d w) := by
  simp only [added]
  split
  · refine .grow (h.grow ⟨rfl, rfl, rfl⟩ (h.toTitled.add hm hcontainer ⟨rfl, rfl, rfl⟩ rfl) ?_)
      ⟨rfl, rfl, rfl⟩
    exact fun hspace => by cases hspace
  · exact .refl h

/-- The first pass opens what its declarations say: namespaces, classes and enums. -/
theorem follows (s : Surroundings) (header? : Option Path) :
    (builder s header?).Follows Kind.qualifies where
  qualifies h := h
  enter {top d w m} h hm hkind hshown := by
    have hcontainer := isContainer_of_opens (fun h => h) hkind
    simp only [builder, entered]
    split
    · rename_i hlinkage
      exact ⟨.refl h, fun inner hinner => .inl ⟨hlinkage, (Option.some.inj hinner).symm⟩⟩
    · rename_i hspace
      obtain ⟨hgrown, henters⟩ :=
        enteredNamespace_follows h hm hcontainer hspace (hshown.simple hspace)
      exact ⟨hgrown, fun inner hinner => .inr (henters inner hinner)⟩
    · rename_i hclass
      obtain ⟨hgrown, henters⟩ :=
        @enteredType_follows _ _ _ s header? d h hm hcontainer (.inl hclass)
      rw [symbol_node hm]
      exact ⟨hgrown, fun inner hinner => .inr (henters inner hinner)⟩
    · rename_i henum
      obtain ⟨hgrown, henters⟩ :=
        @enteredType_follows _ _ _ s header? d h hm hcontainer (.inr henum)
      rw [symbol_node hm]
      exact ⟨hgrown, fun inner hinner => .inr (henters inner hinner)⟩
    · exact ⟨.refl h, fun _ hinner => by cases hinner⟩
  leaf h hm hkind := added_grown h hm (isContainer_of_opens (fun h => h) hkind)

end Containers

namespace Members

/-- The second pass enters what is registered; no namespace is registered under a symbol that ends
in colons. -/
theorem entered_enters (h : Signed w) (hm : w.forest.content? top = some m) {inner : NodeId}
    (hinner : entered s header? top d w = some inner) :
    d.kind = .linkage ∧ inner = top ∨ Enters Kind.holdsMembers m d inner w := by
  have hfound : ∀ {owned : Bool}, (d.kind = .nameSpace ∨ d.kind = .classType) →
      ((w.symbol? (Symbol.qualify (w.node top).symbol d.name)).filter fun id =>
        owned && (w.node id).kind == d.kind) = some inner →
            Enters Kind.holdsMembers m d inner w := by
    intro owned hkind hfilter
    rw [symbol_node hm] at hfilter
    obtain ⟨hget, hsame⟩ := Option.filter_eq_some_iff.mp hfilter
    rw [Bool.and_eq_true, beq_iff_eq] at hsame
    have hopens := Kind.holdsMembers_iff.mpr hkind
    have hthere : (w.node inner).kind ≠ .unexposed :=
      by rcases hkind with hk | hk <;> simp [hsame.2, hk]
    have hcontent := Workspace.content?_of_kind hthere
    have hsymbol : (w.node inner).unlinked.symbol = Symbol.qualify m.symbol d.name :=
      h.symbol_eq hget hcontent (Kind.qualifies_of_holdsMembers (hsame.2 ▸ hopens))
    refine ⟨hopens, fun hspace hempty => ?_, (w.node inner).unlinked, hcontent, hsame.2, hsymbol⟩
    have hclosed := h.closed inner _ hcontent (hsame.2.trans hspace)
    rw [hsymbol, hempty] at hclosed
    exact Symbol.not_closed_qualify_empty hclosed
  simp only [entered] at hinner
  split at hinner
  · rename_i hlinkage
    exact .inl ⟨hlinkage, (Option.some.inj hinner).symm⟩
  · rename_i hspace
    exact .inr (hfound (.inl hspace) hinner)
  · rename_i hclass
    exact .inr (hfound (.inr hclass) hinner)
  · cases hinner

theorem added_grown (h : Signed w) (hm : w.forest.content? top = some m)
    (haround : m.kind = .file ∨ m.kind = .nameSpace ∨ m.kind = .classType) :
    Grown w (added s header? top d w) := by
  simp only [added]
  split
  · split
    · exact .refl h
    · rename_i n hn
      obtain ⟨hfresh, -⟩ := placed_of_memberNode? hm haround hn
      have hkind : n.kind.qualifies = false :=
        Kind.qualifies_of_not_isHolder (isHolder_of_memberNode? hn)
      have hcontainer : m.kind.isContainer = true :=
        by rcases haround with hk | hk | hk <;> rw [hk] <;> rfl
      refine .grow (h.grow hfresh (h.toTitled.add hm hcontainer hfresh hkind) fun hspace =>
        ?_) hfresh
      rw [hspace] at hkind
      cases hkind
  · exact .refl h

/-- The second pass opens what holds members: namespaces and classes. -/
theorem follows (s : Surroundings) (header? : Option Path) :
    (builder s header?).Follows Kind.holdsMembers where
  qualifies := Kind.qualifies_of_holdsMembers
  enter h hm _ _ := ⟨.refl h, fun _ hinner => entered_enters h hm hinner⟩
  leaf h hm hkind := added_grown h hm (hkind.imp_right Kind.holdsMembers_iff.mp)

end Members

end Export

/-- The kinds of the containers that a raw pass enters. -/
def RawPass.opens : RawPass → Kind → Bool
  | containers => Kind.qualifies
  | members => Kind.holdsMembers

/-- Each raw pass opens what its declarations say. -/
theorem RawPass.follows (s : Surroundings) (header? : Option Path) (pass : RawPass) :
    (pass.builder s header?).Follows pass.opens := by
  cases pass with
  | containers => exact Containers.follows s header?
  | members => exact Members.follows s header?

end Interop
