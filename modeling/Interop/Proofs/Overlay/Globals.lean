import Interop.Overlay.Globals
import Interop.Proofs.Export.Placement

namespace Interop.Overlay.Globals

/-- One change that the pass makes. -/
inductive Step (root : NodeId) (w : Workspace) : Workspace → Prop
  /-- A scope gets a class for its globals. -/
  | house {scope : NodeId} {m : Node} (hscope : w.forest.content? scope = some m)
      (hkind : isScope m = true)
      (hwithin : w.forest.Within root scope) :
      Step root w
        (w.grow scope
          { kind := .classType, name := className, symbol := Symbol.qualify m.symbol className
            flags := { isStatic := true } }
          [Symbol.qualify m.symbol className])
  /-- A global moves into the class for globals next to it. -/
  | move {scope target child : NodeId} {m n t : Node} (hscope : w.forest.content? scope = some m)
      (hkind : isScope m = true) (hchild : w.forest.content? child = some n)
      (hglobal : isGlobal n = true)
      (hparent : w.forest.parent? child = some scope) (htarget : w.forest.content? target = some t)
      (hclass : t.kind = .classType) (hname : t.name = className)
      (hbeside : w.forest.parent? target = some scope) :
      Step root w { w with forest := w.forest.attach target child }
  /-- A namespace without children leaves the tree. -/
  | drop {id : NodeId} {n : Node} (hid : w.forest.content? id = some n)
      (hkind : n.kind = .nameSpace)
      (hempty : w.forest.children id = []) :
      Step root w { w with forest := w.forest.detach id }

/-- Any number of changes. -/
abbrev Steps (root : NodeId) : Workspace → Workspace → Prop :=
  Relation.ReflTransGen (Step root)

variable {root scope target child id key : NodeId} {w w' : Workspace} {m n t : Node}

/-- Being a global is a matter of the kind alone. -/
theorem isGlobal_congr (h : m.kind = n.kind) : isGlobal m = isGlobal n := by
  rw [isGlobal, isGlobal, h]

/-- Being a scope is a matter of the kind alone. -/
theorem isScope_congr (h : m.kind = n.kind) : isScope m = isScope n := by
  rw [isScope, isScope, h]

/-- The scopes are files and namespaces. -/
theorem isScope_iff : isScope m = true ↔ m.kind = .file ∨ m.kind = .nameSpace := by
  simp [isScope]

theorem isContainer_of_isScope (h : isScope m = true) : m.kind.isContainer = true := by
  rcases isScope_iff.mp h with hkind | hkind <;> rw [hkind] <;> rfl

theorem not_isContainer_of_isGlobal (h : isGlobal n = true) : n.kind.isContainer = false := by
  rw [isGlobal] at h
  cases hkind : n.kind
  case freeFunction => rfl
  case freeVariable => rfl
  case memberVariable => rfl
  case bitField => rfl
  all_goals
    rw [hkind] at h
    cases h

/-- The new class of a scope is linked to nothing. -/
theorem isFresh_home (symbol : String) :
    Node.IsFresh { kind := .classType, name := className, symbol, flags := { isStatic := true } } :=
  ⟨rfl, rfl, rfl⟩

namespace Step

/-- A change keeps what nodes are there, apart from their links. -/
theorem content?_of_some (h : Step root w w') (hn : w.forest.content? id = some n) :
    w'.forest.content? id = some n := by
  cases h with
  | house hscope hkind hwithin => exact Workspace.content?_grow_of_some (isFresh_home _) hn
  | move => rw [Forest.content?_attach, hn]
  | drop => rw [Forest.content?_detach, hn]

/-- What is there after a change was there before, or is a class for globals in the tree. -/
theorem content?_cases (h : Step root w w') (hf : w.forest.WellFormed)
    (hn : w'.forest.content? id = some n) :
    w.forest.content? id = some n ∨ n.kind = .classType ∧ n.name = className ∧
      w'.forest.Within root id := by
  cases h with
  | @house scope m hscope hkind hwithin =>
    rw [Workspace.content?_grow (isFresh_home _)] at hn
    split at hn
    · rename_i hid
      cases hn
      have hparent := (hf.parent?_pushBelow hscope
        (isFresh_home (Symbol.qualify m.symbol className)) id).trans
        (if_pos hid)
      refine .inr ⟨rfl, rfl, .step hparent ?_⟩
      exact (hf.within_pushBelow hscope (isFresh_home _) (Forest.ne_nextId_of_content? hscope)).mpr
        hwithin
    · exact .inl hn
  | move =>
    rw [Forest.content?_attach] at hn
    exact .inl hn
  | drop =>
    rw [Forest.content?_detach] at hn
    exact .inl hn

/-- Each change keeps a forest well-formed. -/
theorem wellFormed (h : Step root w w') (hf : w.forest.WellFormed) : w'.forest.WellFormed := by
  cases h with
  | house hscope hkind hwithin =>
    exact hf.pushBelow hscope (isFresh_home _) (isContainer_of_isScope hkind)
  | move hscope hkind hchild hglobal hparent htarget hclass hname hbeside =>
    have hleaf := not_isContainer_of_isGlobal hglobal
    refine hf.attach htarget ?_ hchild (by rw [hclass]; rfl) fun hcontainer => ?_
    · rintro rfl
      obtain rfl := Option.some.inj (hchild.symm.trans htarget)
      rw [hclass] at hleaf
      cases hleaf
    · rw [hleaf] at hcontainer
      cases hcontainer
  | drop hid hkind hempty => exact hf.detach _

/-- The parents of containers stay, but for the namespace that leaves the tree. -/
theorem parent?_cases (h : Step root w w') (hf : w.forest.WellFormed)
    (hn : w.forest.content? id = some n) (hcontainer : n.kind.isContainer = true) :
    w'.forest.parent? id = w.forest.parent? id ∨
      n.kind = .nameSpace ∧ w'.forest.parent? id = none ∧ w'.forest.children id = [] := by
  cases h with
  | house hscope hkind hwithin =>
    refine .inl ((hf.parent?_pushBelow hscope (isFresh_home _) id).trans ?_)
    rw [if_neg (Forest.ne_nextId_of_content? hn)]
  | @move scope target child _ k t _ _ hchild hglobal hparent htarget hclass hname hbeside =>
    have hleaf := not_isContainer_of_isGlobal hglobal
    have hne : ∀ {other k'}, w.forest.content? other = some k' → k'.kind.isContainer = true →
        other ≠ child := by
      rintro other k' hk' hc rfl
      obtain rfl := Option.some.inj (hchild.symm.trans hk')
      rw [hleaf] at hc
      cases hc
    refine .inl ((hf.parent?_attach (hne htarget (by rw [hclass]; rfl)) hchild id).trans ?_)
    rw [if_neg (hne hn hcontainer)]
  | @drop dropped k hid hkind hempty =>
    by_cases hdropped : id = dropped
    · subst hdropped
      obtain rfl := Option.some.inj (hid.symm.trans hn)
      refine .inr ⟨hkind, (hf.parent?_detach id id).trans (if_pos rfl), ?_⟩
      rw [hf.children_detach, hempty]
      rfl
    · exact .inl ((hf.parent?_detach dropped id).trans (if_neg hdropped))

/-- The file at the top of a tree stays at the top. -/
theorem top (h : Step root w w') (hf : w.forest.WellFormed) (hn : w.forest.content? id = some n)
    (hfile : n.kind = .file) (htop : w.forest.parent? id = none) : w'.forest.parent? id = none := by
  rcases h.parent?_cases hf hn (by rw [hfile]; rfl) with hkept | ⟨_, hnone, _⟩
  · rw [hkept, htop]
  · exact hnone

/-- Whatever has a type keeps one: a class for globals may only take the symbol of another type. -/
theorem hasType (h : Step root w w') {symbol : String} (htype : w.HasType symbol) :
    w'.HasType symbol := by
  cases h with
  | house hscope hkind hwithin => exact htype.grow (isFresh_home _) (.inl (.inl rfl))
  | move =>
    obtain ⟨id, n, hget, hn, hkind⟩ := htype
    exact ⟨id, n, hget, by rw [Forest.content?_attach, hn], hkind⟩
  | drop =>
    obtain ⟨id, n, hget, hn, hkind⟩ := htype
    exact ⟨id, n, hget, by rw [Forest.content?_detach, hn], hkind⟩

end Step

/-- Whether nothing in a scope has to be moved. -/
def Cleared (w : Workspace) (id : NodeId) : Prop :=
  ∀ c ∈ w.forest.children id, ∀ n, w.forest.content? c = some n → isGlobal n = false

/-- Whether in a scope there is nothing to move and no further scope. -/
def Spent (w : Workspace) (id : NodeId) : Prop :=
  ∀ c ∈ w.forest.children id, ∀ n, w.forest.content? c = some n → isGlobal n = false ∧
    isScope n = false

theorem Spent.cleared (h : Spent w id) : Cleared w id :=
  fun c hc n hn => (h c hc n hn).1

/-- Scopes inside of scopes. -/
inductive Spaces (w : Workspace) (top : NodeId) : NodeId → Prop
  | self : Spaces w top top
  | inner {id parent : NodeId} {n : Node} (hparent : w.forest.parent? id = some parent)
      (hn : w.forest.content? id = some n) (hscope : isScope n = true) (h : Spaces w top parent) :
      Spaces w top id

/-- A scope inside of another one lies in its tree. -/
theorem Spaces.within (h : Spaces w scope id) : w.forest.Within scope id := by
  induction h with
  | self => exact .self
  | inner hparent _ _ _ ih => exact .step hparent ih

/-- Scopes inside of scopes may be put together. -/
theorem Spaces.trans (h : Spaces w root scope) (hid : Spaces w scope id) : Spaces w root id := by
  induction hid with
  | self => exact h
  | inner hparent hn hscope _ ih => exact .inner hparent hn hscope ih

/-- A scope further inside is inside of a scope right below. -/
theorem Spaces.exists_child (h : Spaces w scope id) (hne : id ≠ scope) :
    ∃ c n, w.forest.parent? c = some scope ∧ w.forest.content? c = some n ∧ isScope n = true ∧
      Spaces w c id := by
  induction h with
  | self => exact absurd rfl hne
  | @inner id parent n hparent hn hscope h ih =>
    by_cases htop : parent = scope
    · subst htop
      exact ⟨id, n, hparent, hn, hscope, .self⟩
    · obtain ⟨c, k, hc, hk, hkscope, hspaces⟩ := ih htop
      exact ⟨c, k, hc, hk, hkscope, .inner hparent hn hscope hspaces⟩

namespace Step

/-- A change puts no global and no scope anywhere but below a class. -/
theorem mem_children_cases (h : Step root w w') (hf : w.forest.WellFormed)
    (hscope : w.forest.content? scope = some m) (hm : m.kind ≠ .classType)
    (hc : child ∈ w'.forest.children scope) :
    child ∈ w.forest.children scope ∨ ∃ n, w'.forest.content? child = some n ∧
      n.kind = .classType := by
  cases h with
  | house hhome hkind hwithin =>
    rw [Workspace.grow, hf.children_pushBelow hhome (isFresh_home _), List.mem_append] at hc
    refine hc.imp_right fun hnew => ?_
    split at hnew
    · rw [List.mem_singleton.mp hnew]
      exact ⟨_, by rw [Workspace.content?_grow (isFresh_home _), if_pos rfl], rfl⟩
    · cases hnew
  | @move _ target moved _ _ t _ _ hchild hglobal hparent htarget hclass hname hbeside =>
    have hne : target ≠ moved := by
      rintro rfl
      obtain rfl := Option.some.inj (hchild.symm.trans htarget)
      rw [isGlobal, hclass] at hglobal
      cases hglobal
    rw [hf.children_attach htarget hne, List.mem_append, List.mem_filter] at hc
    rcases hc with hold | hnew
    · exact .inl hold.1
    · split at hnew
      · rename_i heq
        rw [heq, htarget] at hscope
        cases hscope
        exact absurd hclass hm
      · cases hnew
  | drop hid hkind hempty =>
    rw [hf.children_detach, List.mem_filter] at hc
    exact .inl hc.1

/-- What is there in a scope after a change was there before, or is a class. -/
theorem content?_of_mem_children (h : Step root w w') (hf : w.forest.WellFormed)
    (hscope : w.forest.content? scope = some m) (hm : m.kind ≠ .classType)
    (hc : child ∈ w'.forest.children scope) (hn : w'.forest.content? child = some n) :
    child ∈ w.forest.children scope ∧ w.forest.content? child = some n ∨ n.kind = .classType := by
  rcases h.mem_children_cases hf hscope hm hc with hold | ⟨k, hk, hclass⟩
  · exact (h.content?_cases hf hn).imp (fun hcontent => ⟨hold, hcontent⟩) And.left
  · obtain rfl := Option.some.inj (hk.symm.trans hn)
    exact .inr hclass

/-- One change keeps a scope cleared, as globals come into classes only. -/
theorem cleared (h : Step root w w') (hf : w.forest.WellFormed)
    (hscope : w.forest.content? scope = some m) (hm : m.kind ≠ .classType)
    (hcleared : Cleared w scope) : Cleared w' scope := by
  intro c hc n hn
  rcases h.content?_of_mem_children hf hscope hm hc hn with ⟨hold, hcontent⟩ | hclass
  · exact hcleared c hold n hcontent
  · rw [isGlobal, hclass]
    rfl

/-- One change keeps a scope spent, as no change adds a scope. -/
theorem spent (h : Step root w w') (hf : w.forest.WellFormed)
    (hscope : w.forest.content? scope = some m) (hm : m.kind ≠ .classType)
    (hspent : Spent w scope) : Spent w' scope := by
  intro c hc n hn
  rcases h.content?_of_mem_children hf hscope hm hc hn with ⟨hold, hcontent⟩ | hclass
  · exact hspent c hold n hcontent
  · rw [isGlobal, isScope, hclass]
    exact ⟨rfl, rfl⟩

/-- A scope inside of another one stays inside, or has nothing left in it. -/
theorem spaces (h : Step root w w') (hf : w.forest.WellFormed) (hspaces : Spaces w scope id) :
    Spaces w' scope id ∨ Spent w' id := by
  induction hspaces with
  | self => exact .inl .self
  | @inner id parent n hparent hn hscope _ ih =>
    rcases h.parent?_cases hf hn (isContainer_of_isScope hscope) with hkept | ⟨_, _, hempty⟩
    · rw [hparent] at hkept
      rcases ih with hinner | hspent
      · exact .inl (.inner hkept (h.content?_of_some hn) hscope hinner)
      · have hmem := ((h.wellFormed hf).links parent id).mpr hkept
        rw [(hspent id hmem n (h.content?_of_some hn)).2] at hscope
        cases hscope
    · refine .inr fun c hc => ?_
      rw [hempty] at hc
      cases hc

/-- A scope that is inside of another one was there before. -/
theorem spaces_of (h : Step root w w') (hf : w.forest.WellFormed) (hspaces : Spaces w' scope id) :
    Spaces w scope id := by
  induction hspaces with
  | self => exact .self
  | @inner id parent n hparent hn hscope _ ih =>
    rcases h.content?_cases hf hn with hold | ⟨hclass, _⟩
    · refine .inner ?_ hold hscope ih
      rcases h.parent?_cases hf hold (isContainer_of_isScope hscope) with hkept | ⟨_, hnone, _⟩
      · rw [← hkept, hparent]
      · rw [hnone] at hparent
        cases hparent
    · rw [isScope, hclass] at hscope
      cases hscope

/-- A container stays within what it is within, unless it is a namespace that leaves the tree. -/
theorem within (h : Step root w w') (hf : w.forest.WellFormed) {top : NodeId}
    (hwithin : w.forest.Within top id) (hn : w.forest.content? id = some n)
    (hcontainer : n.kind.isContainer = true) :
    w'.forest.Within top id ∨ n.kind = .nameSpace ∧ w'.forest.children id = [] := by
  induction hwithin generalizing n with
  | self => exact .inl .self
  | @step id parent hparent _ ih =>
    rcases h.parent?_cases hf hn hcontainer with hkept | ⟨hkind, _, hempty⟩
    · rw [hparent] at hkept
      obtain ⟨m, hm, hmContainer⟩ := hf.exists_parent hparent
      rcases ih hm hmContainer with hwithin | ⟨_, hempty⟩
      · exact .inl (.step hkept hwithin)
      · have hmem := ((h.wellFormed hf).links parent id).mpr hkept
        rw [hempty] at hmem
        cases hmem
    · exact .inr ⟨hkind, hempty⟩

/-- A container was within what it is within. -/
theorem within_of (h : Step root w w') (hf : w.forest.WellFormed) {top : NodeId}
    (hwithin : w'.forest.Within top id) (hn : w.forest.content? id = some n)
    (hcontainer : n.kind.isContainer = true) : w.forest.Within top id := by
  induction hwithin generalizing n with
  | self => exact .self
  | @step id parent hparent _ ih =>
    rcases h.parent?_cases hf hn hcontainer with hkept | ⟨-, hnone, -⟩
    · rw [hparent] at hkept
      obtain ⟨m, hm, hmContainer⟩ := hf.exists_parent hkept.symm
      exact .step hkept.symm (ih hm hmContainer)
    · rw [hparent] at hnone
      cases hnone

/-- What is no container stays below its parent, or moves from a scope into a class for globals
there. -/
theorem parent?_of_leaf {parent : NodeId} (h : Step root w w') (hf : w.forest.WellFormed)
    (hn : w.forest.content? id = some n) (hleaf : n.kind.isContainer = false)
    (hparent : w'.forest.parent? id = some parent) :
    w.forest.parent? id = some parent ∨
      isGlobal n = true ∧ ∃ scope m, w.forest.parent? id = some scope ∧
        w.forest.content? scope = some m ∧ isScope m = true ∧
        w.forest.parent? parent = some scope ∧
        ∃ t, w.forest.content? parent = some t ∧ t.kind = .classType ∧ t.name = className := by
  cases h with
  | @house scope m hscope =>
    have hparents := hf.parent?_pushBelow hscope
      (isFresh_home (Symbol.qualify m.symbol className)) id
    rw [if_neg (Forest.ne_nextId_of_content? hn)] at hparents
    exact .inl (hparents.symm.trans hparent)
  | @move scope target child m k t hscope hkind hchild hglobal hup htarget hclass hname hbeside =>
    have hne : target ≠ child := by
      rintro rfl
      obtain rfl := Option.some.inj (hchild.symm.trans htarget)
      rw [isGlobal, hclass] at hglobal
      cases hglobal
    have hparents := hf.parent?_attach hne hchild id
    by_cases hid : id = child
    · subst hid
      obtain rfl := Option.some.inj (hchild.symm.trans hn)
      rw [if_pos rfl] at hparents
      obtain rfl := Option.some.inj (hparents.symm.trans hparent)
      exact .inr ⟨hglobal, scope, m, hup, hscope, hkind, hbeside, t, htarget, hclass, hname⟩
    · rw [if_neg hid] at hparents
      exact .inl (hparents.symm.trans hparent)
  | @drop dropped =>
    have hparents := hf.parent?_detach dropped id
    split at hparents
    · cases hparents.symm.trans hparent
    · exact .inl (hparents.symm.trans hparent)

/-- Whatever is in a tree after a change was there before. -/
theorem within_of_content? {r : Node} (h : Step root w w') (hf : w.forest.WellFormed)
    (hr : w.forest.content? root = some r) (hfile : r.kind = .file)
    (hn : w.forest.content? id = some n) (hwithin : w'.forest.Within root id) :
    w.forest.Within root id := by
  cases hcontainer : n.kind.isContainer with
  | true => exact h.within_of hf hwithin hn hcontainer
  | false =>
    cases hwithin with
    | self => exact .self
    | step hparent hwithin =>
      rcases h.parent?_of_leaf hf hn hcontainer hparent with
        hkept | ⟨-, scope, m, hscope, -, -, hbeside, t, ht, hclass, -⟩
      · obtain ⟨m, hm, hmContainer⟩ := hf.exists_parent hkept
        exact .step hkept (h.within_of hf hwithin hm hmContainer)
      · have hinside := h.within_of hf hwithin ht (by rw [hclass]; rfl)
        cases hinside with
        | self =>
          obtain rfl := Option.some.inj (hr.symm.trans ht)
          rw [hfile] at hclass
          cases hclass
        | step hup hinside => exact .step (hscope.trans (hbeside.symm.trans hup)) hinside

end Step

/-- Whether all classes and enums lie in the tree of the namespace or in one that is kept. -/
def TypesHeld (s : Surroundings) (w : Workspace) : Prop :=
  ∀ id n, w.forest.content? id = some n → n.kind = .classType ∨ n.kind = .enumeration →
    w.forest.HeldBy (s.root :: s.kept) id

section Tree

variable {s : Surroundings}

/-- One change leaves classes and enums in trees that are kept. -/
theorem Step.typesHeld (h : Step s.root w w') (hf : w.forest.WellFormed) (hheld : TypesHeld s w) :
    TypesHeld s w' := by
  intro id n hn hkind
  rcases h.content?_cases hf hn with hold | ⟨_, _, hwithin⟩
  · obtain ⟨top, htop, hwithin⟩ := hheld id n hold hkind
    have hcontainer : n.kind.isContainer = true := by rcases hkind with hk | hk <;> rw [hk] <;> rfl
    rcases h.within hf hwithin hold hcontainer with hwithin | ⟨hspace, _⟩
    · exact ⟨top, htop, hwithin⟩
    · rcases hkind with hk | hk <;> rw [hk] at hspace <;> cases hspace
  · exact ⟨s.root, List.mem_cons_self, hwithin⟩

/-- The mapper of a scope gives way to that of a scope further inside, whatever a change does. -/
theorem Step.below (h : Step s.root w w') {scope scope' : String}
    (hscope : ∀ name symbol, symbol ∈ Symbol.candidates scope name →
      symbol ∈ Symbol.candidates scope' name) :
    (s.mapper w scope).Below (s.mapper w' scope') :=
  Workspace.mapper_below (fun _ => h.hasType) hscope

theorem className_ne : ':' ∉ className.toList ∧ className.isEmpty = false := by decide

/-- A global that moves stands rightly below the class next to it, where it sees all types it has
seen. -/
theorem placed_of_move {mapper mapper' : Mapper} (hn : n.Placed mapper m)
    (hglobal : isGlobal n = true) (hclass : t.kind = .classType) (hbelow : mapper.Below mapper') :
    n.Placed mapper' t := by
  refine ⟨?_, fun hkind => ?_, hn.crosses.mono hbelow⟩
  · rw [isGlobal] at hglobal
    cases hkind : n.kind
    case freeFunction => rw [hclass]; rfl
    case freeVariable => rw [hclass]; rfl
    case memberVariable => rw [hclass]; rfl
    case bitField => rw [hclass]; rfl
    all_goals
      rw [hkind] at hglobal
      cases hglobal
  · rw [isGlobal, hkind] at hglobal
    cases hglobal

/-- Whatever lies in a tree after a node was moved below one next to it was in the tree before. -/
theorem within_of_attach {root : NodeId} (hf : w.forest.WellFormed) (hne : target ≠ child)
    (hchild : w.forest.content? child = some n) (hparent : w.forest.parent? child = some scope)
    (hbeside : w.forest.parent? target = some scope) (htarget : target ≠ root)
    (hwithin : (w.forest.attach target child).Within root id) : w.forest.Within root id := by
  have hparents := hf.parent?_attach hne hchild
  induction hwithin with
  | self => exact .self
  | @step id p hp _ ih =>
    rw [hparents] at hp
    split at hp
    · rename_i hid
      cases hp
      exact .step (hid ▸ hparent) (ih.above htarget hbeside)
    · exact .step hp ih

/-- A tree of members stays one when a global is moved into the class beside it. -/
theorem memberTree_move (htree : MemberTree s w) (hscope : w.forest.content? scope = some m)
    (hkind : isScope m = true) (hchild : w.forest.content? child = some n)
    (hglobal : isGlobal n = true) (hparent : w.forest.parent? child = some scope)
    (htarget : w.forest.content? target = some t) (hclass : t.kind = .classType)
    (hname : t.name = className) (hbeside : w.forest.parent? target = some scope) :
    MemberTree s { w with forest := w.forest.attach target child } := by
  have hf := htree.wellFormed
  have hstep : Step s.root w { w with forest := w.forest.attach target child } :=
    .move hscope hkind hchild hglobal hparent htarget hclass hname hbeside
  have hne : target ≠ child := by
    rintro rfl
    obtain rfl := Option.some.inj (hchild.symm.trans htarget)
    rw [isGlobal, hclass] at hglobal
    cases hglobal
  have hparents := hf.parent?_attach hne hchild
  have hrootNe : s.root ≠ child := by
    rintro heq
    rw [← heq, htree.top] at hparent
    cases hparent
  have htargetNe : target ≠ s.root := by
    rintro rfl
    rw [htree.top] at hbeside
    cases hbeside
  obtain ⟨r, hr, hfile⟩ := htree.root
  refine ⟨hstep.wellFormed hf, ⟨r, (Forest.content?_attach ..).trans hr, hfile⟩,
    (hparents s.root).trans (by rw [if_neg hrootNe, htree.top]), fun id k hid hidNe hk => ?_⟩
  rw [Forest.content?_attach] at hk
  have hwithin := within_of_attach hf hne hchild hparent hbeside htargetNe hid
  obtain ⟨p, m, hp, hm, hplaced⟩ := htree.nodes id k hwithin hidNe hk
  by_cases hidChild : id = child
  · subst hidChild
    obtain rfl := Option.some.inj (hchild.symm.trans hk)
    obtain rfl := Option.some.inj (hp.symm.trans hparent)
    refine ⟨target, t, (hparents id).trans (if_pos rfl),
      (Forest.content?_attach ..).trans htarget, ?_⟩
    obtain ⟨p', m', hp', hm', htargetPlaced⟩ :=
      htree.nodes target t (.step hbeside (hwithin.above hidNe hp)) htargetNe htarget
    obtain rfl := Option.some.inj (hp'.symm.trans hbeside)
    obtain rfl := Option.some.inj (hm'.symm.trans hm)
    have hsymbol := htargetPlaced.symbol hclass
    rw [hname] at hsymbol
    refine placed_of_move hplaced hglobal hclass (hstep.below fun name symbol hmem => ?_)
    rw [hsymbol]
    exact Symbol.mem_candidates_qualify className_ne.1 className_ne.2 hmem
  · refine ⟨p, m, (hparents id).trans (by rw [if_neg hidChild, hp]),
      (Forest.content?_attach ..).trans hm, hplaced.fits, hplaced.symbol, ?_⟩
    exact hplaced.crosses.mono (hstep.below fun _ _ hmem => hmem)

/-- A tree of members stays one when an empty namespace is dropped. -/
theorem memberTree_drop (htree : MemberTree s w) (hid : w.forest.content? id = some n)
    (hkind : n.kind = .nameSpace) (hempty : w.forest.children id = []) :
    MemberTree s { w with forest := w.forest.detach id } := by
  have hf := htree.wellFormed
  have hstep : Step s.root w { w with forest := w.forest.detach id } := .drop hid hkind hempty
  have hparents := hf.parent?_detach id
  obtain ⟨r, hr, hfile⟩ := htree.root
  have hrootNe : s.root ≠ id := by
    rintro rfl
    obtain rfl := Option.some.inj (hid.symm.trans hr)
    rw [hfile] at hkind
    cases hkind
  have hwithin : ∀ {key}, (w.forest.detach id).Within s.root key → w.forest.Within s.root key := by
    intro key hwithin
    induction hwithin with
    | self => exact .self
    | step hp _ ih =>
      rw [hparents] at hp
      split at hp
      · cases hp
      · exact .step hp ih
  refine ⟨hstep.wellFormed hf, ⟨r, (Forest.content?_detach ..).trans hr, hfile⟩,
    (hparents s.root).trans (by rw [if_neg hrootNe, htree.top]), fun key k hkey hkeyNe hk => ?_⟩
  rw [Forest.content?_detach] at hk
  have hkeyId : key ≠ id := by
    rintro rfl
    cases hkey with
    | self => exact absurd rfl hkeyNe
    | step hp _ =>
      rw [hparents, if_pos rfl] at hp
      cases hp
  obtain ⟨p, m, hp, hm, hplaced⟩ := htree.nodes key k (hwithin hkey) hkeyNe hk
  refine ⟨p, m, (hparents key).trans (by rw [if_neg hkeyId, hp]),
    (Forest.content?_detach ..).trans hm, hplaced.fits, hplaced.symbol, ?_⟩
  exact hplaced.crosses.mono (hstep.below fun _ _ hmem => hmem)

/-- A change keeps the tree in order. -/
theorem Step.memberTree (h : Step s.root w w') (htree : MemberTree s w) : MemberTree s w' := by
  have hbelow : ∀ scope, (s.mapper w scope).Below (s.mapper w' scope) :=
    fun scope => h.below fun _ _ hmem => hmem
  cases h with
  | @house scope m hscope hkind hwithin =>
    refine Built.mono (Built.grow htree hscope (isFresh_home _) (isContainer_of_isScope hkind) ⟨?_,
      fun _ => rfl, ⟨fun _ hp => absurd hp List.not_mem_nil, nofun, nofun⟩⟩) fun m n hplaced =>
        ⟨hplaced.fits, hplaced.symbol, hplaced.crosses.mono (hbelow m.symbol)⟩
    rcases isScope_iff.mp hkind with hm | hm <;> rw [hm] <;> rfl
  | move hscope hkind hchild hglobal hparent htarget hclass hname hbeside =>
    exact memberTree_move htree hscope hkind hchild hglobal hparent htarget hclass hname hbeside
  | drop hid hkind hempty => exact memberTree_drop htree hid hkind hempty

end Tree

end Interop.Overlay.Globals
