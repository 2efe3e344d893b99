import Interop.Proofs.Export.Walk

namespace Interop

/-- A container that a header declares. -/
structure Site where
  /-- The qualified name of what is around it. -/
  scope : String
  /-- Whether there is nothing around it but namespaces with names. -/
  isOpen : Bool
  declaration : Declaration

namespace Site

/-- The qualified name of the container. -/
def symbol (x : Site) : String :=
  Symbol.qualify x.scope x.declaration.name

/-- Whether the container is a namespace with a name, and nothing else is around it. -/
def isSpace (x : Site) : Bool :=
  x.isOpen && x.declaration.kind == .nameSpace && !x.declaration.name.isEmpty

end Site

namespace Declaration

mutual

/-- The containers in a declaration. Files, language linkages and what templates and friends wrap do
not count. -/
def sites (scope : String) (isOpen : Bool) : Declaration → List Site
  | { kind, name, access, isTemplated, isFriended, flags, type?, returnType?, parameters,
      value?, line, children } =>
    let x : Site :=
      { scope, isOpen
        declaration :=
          { kind, name, access, isTemplated, isFriended, flags, type?, returnType?, parameters,
            value?, line, children } }
    if kind == .file || x.declaration.isProxy || kind == .linkage then sitesAll scope isOpen
      children
    else if kind.isContainer then x :: sitesAll x.symbol x.isSpace children
    else []

/-- The containers in several declarations. -/
def sitesAll (scope : String) (isOpen : Bool) : List Declaration → List Site
  | [] => []
  | d :: rest => sites scope isOpen d ++ sitesAll scope isOpen rest

end

theorem sites_eq (scope : String) (isOpen : Bool) (d : Declaration) :
    d.sites scope isOpen =
      if d.kind == .file || d.isProxy || d.kind == .linkage then sitesAll scope isOpen d.children
      else if d.kind.isContainer then
        ⟨scope, isOpen, d⟩ :: sitesAll (Site.symbol ⟨scope, isOpen, d⟩)
          (Site.isSpace ⟨scope, isOpen, d⟩) d.children
      else [] := by
  cases d
  rw [sites]

mutual

/-- What is in something closed is not open. -/
theorem isOpen_of_mem_sites {isOpen : Bool} {y : Site} :
    (d : Declaration) → (scope : String) → (inner : Bool) →
    (inner = true → isOpen = true) → y ∈ d.sites scope inner → y.isOpen = true → isOpen = true
  | { kind, name, access, isTemplated, isFriended, flags, type?, returnType?, parameters,
      value?, line, children }, scope, inner, hinner, hy, hopen => by
    obtain ⟨d, hd⟩ : ∃ d : Declaration,
      Declaration.mk kind name access isTemplated isFriended flags type?
      returnType? parameters value? line children = d := ⟨_, rfl⟩
    have hchildren : d.children = children := by rw [← hd]
    rw [hd, sites_eq, hchildren] at hy
    split at hy
    · exact isOpen_of_mem_sitesAll children scope inner hinner hy hopen
    · split at hy
      · rcases List.mem_cons.mp hy with rfl | hy
        · exact hinner hopen
        · refine isOpen_of_mem_sitesAll children _ _ (fun hspace => hinner ?_) hy hopen
          simp only [Site.isSpace, Bool.and_eq_true] at hspace
          exact hspace.1.1
      · cases hy

theorem isOpen_of_mem_sitesAll {isOpen : Bool} {y : Site} :
    (ds : List Declaration) → (scope : String) → (inner : Bool) → (inner = true → isOpen = true) →
      y ∈ sitesAll scope inner ds → y.isOpen = true → isOpen = true
  | [], _, _, _, hy, _ => by simp [sitesAll] at hy
  | d :: rest, scope, inner, hinner, hy, hopen => by
    rw [sitesAll, List.mem_append] at hy
    rcases hy with hy | hy
    · exact isOpen_of_mem_sites d scope inner hinner hy hopen
    · exact isOpen_of_mem_sitesAll rest scope inner hinner hy hopen

end

end Declaration

namespace Export.Builder

open Overlay

/-- What the steps of a pass have in common: they lead from a workspace to one that `R` relates to
it for the containers that they are made for, and the node of a container is one for which `Ok`
holds, whatever happens later. -/
structure Frames (b : Builder) (P : Site → Prop) (R : List Site → Workspace → Workspace → Prop)
    (Ok : String → NodeId → Workspace → Prop) : Prop where
  refl : ∀ {scope id w}, Ok scope id w → R [] w w
  trans : ∀ {xs xs' w w' w''}, R xs w w' → R xs' w' w'' → R (xs ++ xs') w w''
  mono : ∀ {xs w w' scope id}, R xs w w' → Ok scope id w → Ok scope id w'
  linkage : ∀ {top d w}, d.kind = .linkage → b.enter top d w = (some top, w)
  enter : ∀ {x top w}, P x → Ok x.scope top w → x.declaration.kind ≠ .linkage →
    R [x] w (b.enter top x.declaration w).2 ∧ ∀ inner, (b.enter top x.declaration w).1 =
      some inner → Ok x.symbol inner (b.enter top x.declaration w).2
  /-- Where a container is not entered, nothing is done for what is in it. -/
  pass : ∀ {x top w w' xs}, b.enter top x.declaration w = (none, w') → R [x] w w' →
    (∀ y ∈ xs, y.isOpen = true → x.isSpace = true) → R xs w' w'
  leaf : ∀ {scope top d w}, Ok scope top w → R [] w (b.leaf top d w)

namespace Frames

variable {b : Builder} {P : Site → Prop} {R : List Site → Workspace → Workspace → Prop}
  {Ok : String → NodeId → Workspace → Prop}

mutual

/-- What the steps have in common holds of the pass over a declaration. -/
theorem build (h : b.Frames P R Ok) :
    (d : Declaration) → (scope : String) → (isOpen : Bool) → (top : NodeId) →
    (w : Workspace) → (∀ x ∈ d.sites scope isOpen, P x) → Ok scope top w →
    R (d.sites scope isOpen) w (b.build top d w)
  | { kind, name, access, isTemplated, isFriended, flags, type?, returnType?, parameters,
      value?, line, children }, scope, isOpen, top, w, hp, hok => by
    obtain ⟨d, hd⟩ : ∃ d : Declaration,
      Declaration.mk kind name access isTemplated isFriended flags type?
      returnType? parameters value? line children = d := ⟨_, rfl⟩
    have hchildren : d.children = children := by rw [← hd]
    rw [hd] at hp ⊢
    rw [Declaration.sites_eq, hchildren] at hp ⊢
    rw [build_eq, hchildren]
    by_cases hproxy : (d.kind == .file || d.isProxy) = true
    · rw [hproxy, Bool.true_or, if_pos rfl] at hp
      rw [hproxy, Bool.true_or, if_pos rfl, if_pos rfl]
      exact h.buildAll children scope isOpen top w hp hok
    · rw [Bool.not_eq_true] at hproxy
      by_cases hlinkage : d.kind = .linkage
      · rw [hproxy, Bool.false_or, hlinkage, if_pos (beq_self_eq_true _)] at hp
        have hcontainer : d.kind.isContainer = true := by rw [hlinkage]; rfl
        rw [hproxy, Bool.false_or, if_pos (by rw [hlinkage]; rfl), if_neg Bool.false_ne_true,
          if_pos hcontainer, h.linkage hlinkage]
        exact h.buildAll children scope isOpen top w hp hok
      · rw [hproxy, Bool.false_or, if_neg (by simpa using hlinkage)] at hp
        rw [hproxy, Bool.false_or, if_neg (by simpa using hlinkage), if_neg Bool.false_ne_true]
        by_cases hcontainer : d.kind.isContainer = true
        · rw [if_pos hcontainer] at hp
          rw [if_pos hcontainer, if_pos hcontainer]
          have hself := hp _ List.mem_cons_self
          obtain ⟨hrel, hinner⟩ := h.enter hself hok hlinkage
          simp only at hrel hinner
          rw [← List.singleton_append]
          cases hentered : b.enter top d w with
          | mk entered w' =>
            rw [hentered] at hrel hinner
            cases entered with
            | none =>
              refine h.trans hrel (h.pass (x := ⟨scope, isOpen, d⟩) hentered hrel
                fun y hy hopen => ?_)
              exact Declaration.isOpen_of_mem_sitesAll children _ _ id hy hopen
            | some node =>
              exact h.trans hrel (h.buildAll children _ _ node w'
                (fun x hx => hp x (List.mem_cons_of_mem _ hx))
                (hinner node rfl))
        · rw [if_neg hcontainer, if_neg hcontainer]
          exact h.leaf hok

/-- The same for several declarations. -/
theorem buildAll (h : b.Frames P R Ok) :
    (ds : List Declaration) → (scope : String) → (isOpen : Bool) →
    (top : NodeId) → (w : Workspace) → (∀ x ∈ Declaration.sitesAll scope isOpen ds, P x) →
      Ok scope top w →
    R (Declaration.sitesAll scope isOpen ds) w (b.buildAll top ds w)
  | [], _, _, _, _, _, hok => h.refl hok
  | d :: rest, scope, isOpen, top, w, hp, hok => by
    rw [Declaration.sitesAll] at hp ⊢
    have hfirst := h.build d scope isOpen top w (fun x hx => hp x (List.mem_append_left _ hx)) hok
    exact h.trans hfirst
      (h.buildAll rest scope isOpen top _ (fun x hx => hp x (List.mem_append_right _ hx))
      (h.mono hfirst hok))

end

end Frames

end Export.Builder

/-- The containers that a unit declares. -/
def HeaderUnit.sites (u : HeaderUnit) : List Site :=
  u.root.sites "" true

/-- What the steps over each unit have in common holds of a pass over all units. -/
theorem Export.Builder.Frames.foldl {b : HeaderUnit → Builder} {P : Site → Prop}
    {R : List Site → Overlay.Workspace → Overlay.Workspace → Prop}
    {Ok : String → Overlay.NodeId → Overlay.Workspace → Prop}
    {units : List HeaderUnit} {top : Overlay.NodeId} {w : Overlay.Workspace}
    (h : ∀ u, (b u).Frames P R Ok) (hp : ∀ u ∈ units, ∀ x ∈ u.sites, P x) (hok : Ok "" top w) :
    R (units.flatMap HeaderUnit.sites) w (units.foldl (fun w u => (b u).build top u.root w) w) := by
  induction units generalizing w with
  | nil => exact (h (HeaderUnit.ofDeclarations ⟨""⟩ [])).refl hok
  | cons u rest ih =>
    have hfirst := (h u).build u.root "" true top w (hp u List.mem_cons_self) hok
    have hrest := ih (fun v hv => hp v (List.mem_cons_of_mem u hv)) ((h u).mono hfirst hok)
    rw [List.flatMap_cons]
    exact (h u).trans hfirst hrest

end Interop
