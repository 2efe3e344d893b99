import Interop.Pass

namespace Interop.Export

open Overlay

/-- What a raw pass makes of scopes and a workspace. -/
theorem Pass.run_bind {α β : Type} (x : Pass α) (next : α → Pass β) (s : Scopes) (w : Workspace) :
    ((x >>= next).run s).run w =
      ((next ((x.run s).run w).1.1).run ((x.run s).run w).1.2).run ((x.run s).run w).2 := rfl

theorem Pass.run_discard {α : Type} (x : Pass α) (s : Scopes) (w : Workspace) :
    ((discard x).run s).run w = (((), ((x.run s).run w).1.2), ((x.run s).run w).2) := rfl

/-- What a raw pass does below the node of the innermost container: how it enters a container and
what it makes of a leaf. -/
structure Builder where
  enter : NodeId → Declaration → Workspace → Option NodeId × Workspace
  leaf : NodeId → Declaration → Workspace → Workspace

namespace Builder

mutual

/-- What a pass makes of a declaration below `top`. -/
def build (b : Builder) (top : NodeId) : Declaration → Workspace → Workspace
  | { kind, name, access, isTemplated, isFriended, flags, type?, returnType?, parameters,
      value?, line, children }, w =>
    let d : Declaration :=
      { kind, name, access, isTemplated, isFriended, flags, type?, returnType?, parameters,
        value?, line, children }
    if kind == .file || d.isProxy then buildAll b top children w
    else if kind.isContainer then
      match b.enter top d w with
      | (some inner, w) => buildAll b inner children w
      | (none, w) => w
    else b.leaf top d w

/-- What a pass makes of declarations below `top`, one after the other. -/
def buildAll (b : Builder) (top : NodeId) : List Declaration → Workspace → Workspace
  | [], w => w
  | d :: rest, w => buildAll b top rest (build b top d w)

end

/-- What a builder makes of a declaration, by whether it is passed through, entered or a leaf. -/
theorem build_eq (b : Builder) (top : NodeId) (d : Declaration) (w : Workspace) :
    b.build top d w =
      if d.kind == .file || d.isProxy then b.buildAll top d.children w
      else if d.kind.isContainer then
        match b.enter top d w with
        | (some inner, w) => b.buildAll inner d.children w
        | (none, w) => w
      else b.leaf top d w := by
  cases d
  rw [build]

/-- The scopes inside of a container with node `top`. -/
def scopes (top : NodeId) (outer : List (Option NodeId)) (header? : Option Path) : Scopes :=
  { frames := some top :: outer, header? }

/-- What is done with the innermost container, if it is exported. -/
theorem run_top_bind {α : Type} (next : Option NodeId → Pass α) (top : NodeId)
    (outer : List (Option NodeId)) (header? : Option Path) (w : Workspace) :
    ((Pass.top? >>= next).run (scopes top outer header?)).run w =
      ((next (some top)).run (scopes top outer header?)).run w :=
  rfl

theorem run_workspace_bind {α : Type} (next : Workspace → Pass α) (s : Scopes) (w : Workspace) :
    ((getThe Workspace >>= next).run s).run w = ((next w).run s).run w :=
  rfl

/-- What is done with the symbol of a name below a node. -/
theorem run_symbolBelow_bind {α : Type} (next : String → Pass α) (parent : NodeId) (name : String)
    (s : Scopes) (w : Workspace) :
    ((Pass.symbolBelow parent name >>= next).run s).run w =
      ((next (Symbol.qualify (w.node parent).symbol name)).run s).run w :=
  rfl

/-- Whether a visitor does what a builder says, and keeps the frames. -/
structure Describes (b : Builder) (header? : Option Path)
    (visit : WalkEvent → Declaration → Pass Bool) : Prop where
  enter : ∀ top outer d w, ((visit .enter d).run (scopes top outer header?)).run w =
    (((b.enter top d w).1.isSome,
      { frames := (b.enter top d w).1 :: some top :: outer, header? }), (b.enter top d w).2)
  leaf : ∀ top outer d w, ∃ answer, ((visit .leaf d).run (scopes top outer header?)).run w =
    ((answer, scopes top outer header?), b.leaf top d w)
  exit : ∀ d s w, ∃ answer, ((visit .exit d).run s).run w =
    ((answer, { s with frames := s.frames.tail }), w)

namespace Describes

variable {b : Builder} {header? : Option Path} {visit : WalkEvent → Declaration → Pass Bool}

mutual

/-- Walking a declaration does what the builder says and keeps the frames. -/
theorem walk_run (h : Describes b header? visit) (top : NodeId) (outer : List (Option NodeId)) :
    (d : Declaration) → (w : Workspace) →
      ((d.walk visit).run (scopes top outer header?)).run w =
        (((), scopes top outer header?), b.build top d w)
  | { kind, name, access, isTemplated, isFriended, flags, type?, returnType?, parameters,
      value?, line, children }, w => by
    rw [Declaration.walk, build]
    split
    · exact walkAll_run h top outer children w
    · split
      · obtain ⟨d, hd⟩ : ∃ d : Declaration,
            Declaration.mk kind name access isTemplated isFriended flags type?
            returnType? parameters value? line children = d := ⟨_, rfl⟩
        rw [hd, Pass.run_bind, h.enter top outer d w]
        cases hframe : b.enter top d w with
        | mk frame w' =>
          cases frame with
          | none =>
            obtain ⟨answer, hexit⟩ := h.exit d { frames := none :: some top :: outer, header? } w'
            exact (Pass.run_discard _ _ _).trans (by rw [hexit]; rfl)
          | some inner =>
            obtain ⟨answer, hexit⟩ := h.exit d (scopes inner (some top :: outer) header?)
              (b.buildAll inner children w')
            have hinner := walkAll_run h inner (some top :: outer) children w'
            refine (Pass.run_bind (Declaration.walkAll visit children)
              (fun _ => discard (visit .exit d))
              (scopes inner (some top :: outer) header?) w').trans ?_
            rw [hinner, Pass.run_discard, hexit]
            rfl
      · obtain ⟨answer, hleaf⟩ :=
          h.leaf top outer (.mk kind name access isTemplated isFriended flags type?
          returnType? parameters value? line children) w
        exact (Pass.run_discard _ _ _).trans (by rw [hleaf])

/-- The same for several declarations. -/
theorem walkAll_run (h : Describes b header? visit) (top : NodeId) (outer : List (Option NodeId)) :
    (ds : List Declaration) → (w : Workspace) →
      ((Declaration.walkAll visit ds).run (scopes top outer header?)).run w =
        (((), scopes top outer header?), b.buildAll top ds w)
  | [], w => rfl
  | d :: rest, w => by
    rw [Declaration.walkAll, buildAll, Pass.run_bind, walk_run h top outer d w]
    exact walkAll_run h top outer rest _

end

end Describes

end Builder

namespace Containers

/-- How the first pass enters a namespace below `top`. -/
def enteredNamespace (top : NodeId) (d : Declaration) (w : Workspace) : Option NodeId × Workspace :=
  let symbol := Symbol.qualify (w.node top).symbol d.name
  if d.name.isEmpty then (none, w)
  else
    match (w.forest.children top).find? (w.forest.isNamespace · d.name) with
    | some existing => (some existing, w)
    | none =>
      (some w.forest.nextId, w.grow top { kind := .nameSpace, name := d.name, symbol } [symbol])

/-- How the first pass enters a class or enum with the given symbol below `top`. -/
def enteredType (s : Surroundings) (header? : Option Path) (top : NodeId) (d : Declaration)
    (symbol : String) (w : Workspace) : Option NodeId × Workspace :=
  if d.name.isEmpty || d.access != .exposed || !d.flags.isDefinition ||
      !s.rules.symbols.selects symbol then (none, w)
  else
    let owned := header?.all (s.ownsDefinition symbol ·)
    match (w.symbol? symbol).filter fun id => (w.node id).kind == d.kind with
    | some existing => (if owned then some existing else none, w)
    | none =>
      if owned then (some w.forest.nextId, w.grow top (typeNode d symbol header?) [symbol])
        else (none, w)

/-- How the first pass enters a container below `top`. -/
def entered (s : Surroundings) (header? : Option Path) (top : NodeId) (d : Declaration)
    (w : Workspace) :
    Option NodeId × Workspace :=
  match d.kind with
  | .linkage => (some top, w)
  | .nameSpace => enteredNamespace top d w
  | .classType | .enumeration =>
    enteredType s header? top d (Symbol.qualify (w.node top).symbol d.name) w
  | _ => (none, w)

/-- The names under which an enumerator of `parent` is registered. -/
def enumeratorNames (w : Workspace) (parent : Node) (name : String) : List String :=
  let outer :=
    match parent.parent? with
    | some around => if parent.flags.isScoped then []
      else [Symbol.qualify (w.node around).symbol name]
    | none => []
  Symbol.qualify parent.symbol name :: outer

/-- What the first pass makes of a leaf below `top`. -/
def added (top : NodeId) (d : Declaration) (w : Workspace) : Workspace :=
  let parent := w.node top
  if d.kind == .enumerator && parent.kind == .enumeration then
    w.grow top
      { kind := .enumerator, name := d.name, symbol := Symbol.qualify parent.symbol d.name
        nativeValue? := d.value?, isConstant := true }
      (enumeratorNames w parent d.name)
  else w

/-- The first pass over a header. -/
def builder (s : Surroundings) (header? : Option Path) : Builder where
  enter := entered s header?
  leaf := added

/-- Entering a namespace as the pass does it is entering it as described, with its node as the
innermost frame. -/
theorem enterNamespace_run (top : NodeId) (outer : List (Option NodeId)) (header? : Option Path)
    (d : Declaration) (w : Workspace) :
    ((enterNamespace d).run (Builder.scopes top outer header?)).run w =
      (((enteredNamespace top d w).1.isSome,
        { frames := (enteredNamespace top d w).1 :: some top :: outer, header? }),
        (enteredNamespace top d w).2) := by
  simp only [enteredNamespace]
  by_cases hname : d.name.isEmpty = true
  · rw [if_pos hname]
    change ((if d.name.isEmpty then Pass.enter none else _ : Pass Bool).run _).run w = _
    rw [if_pos hname]
    rfl
  · rw [if_neg hname]
    change ((if d.name.isEmpty then Pass.enter none else _ : Pass Bool).run _).run w = _
    rw [if_neg hname]
    change ((match (w.forest.children top).find? (w.forest.isNamespace · d.name) with
      | some existing => _
      | none => _ : Pass Bool).run _).run w = _
    cases (w.forest.children top).find? (w.forest.isNamespace · d.name) with
    | some existing => rfl
    | none => rfl

/-- Entering a class or an enum as the pass does it is entering it as described, if the symbol is
that of the declaration in the open node. -/
theorem enterType_run (top : NodeId) (outer : List (Option NodeId)) (header? : Option Path)
    (d : Declaration) (w : Workspace) (s : Surroundings) (symbol : String)
    (hsymbol : Symbol.qualify (w.node top).symbol d.name = symbol) :
    ((enterType s d).run (Builder.scopes top outer header?)).run w =
      (((enteredType s header? top d symbol w).1.isSome,
        { frames := (enteredType s header? top d symbol w).1 :: some top :: outer, header? }),
        (enteredType s header? top d symbol w).2) := by
  simp only [enteredType]
  rw [enterType, Builder.run_top_bind]
  dsimp only
  rw [Builder.run_symbolBelow_bind, hsymbol]
  split
  · rfl
  · change ((match (w.symbol? symbol).filter fun id => (w.node id).kind == d.kind with
      | some existing =>
        Pass.enter (if header?.all (s.ownsDefinition symbol ·) then some existing else none)
      | none => if header?.all (s.ownsDefinition symbol ·) then _ else Pass.enter none :
        Pass Bool).run
        _).run w = _
    cases (w.symbol? symbol).filter fun id => (w.node id).kind == d.kind with
    | some existing => rfl
    | none =>
      simp only
      split
      · rfl
      · rfl

/-- Adding an enumerator as the pass does it is adding it as described. Nothing else is added by the
first pass. -/
theorem addEnumerator_run (top : NodeId) (outer : List (Option NodeId)) (header? : Option Path)
    (d : Declaration) (w : Workspace) (hkind : d.kind = .enumerator) :
    ((addEnumerator d).run (Builder.scopes top outer header?)).run w =
      (((), Builder.scopes top outer header?), added top d w) := by
  simp only [added, hkind, beq_self_eq_true, Bool.true_and]
  rw [addEnumerator, Builder.run_top_bind]
  dsimp only
  rw [Builder.run_workspace_bind]
  split
  · rw [Builder.run_symbolBelow_bind, enumeratorNames]
    cases (w.node top).parent? with
    | none => rfl
    | some around =>
      simp only
      split
      · rfl
      · rfl
  · rfl

/-- The description of the first pass is right. -/
theorem describes (s : Surroundings) (header? : Option Path) :
    (builder s header?).Describes header? (visit s) where
  enter top outer d w := by
    simp only [visit, builder]
    cases hkind : d.kind
    case nameSpace => simp only [entered, hkind]; exact enterNamespace_run top outer header? d w
    case classType => simp only [entered, hkind]; exact enterType_run top outer header? d w s _ rfl
    case enumeration =>
      simp only [entered, hkind]; exact enterType_run top outer header? d w s _ rfl
    all_goals simp only [entered, hkind]; rfl
  leaf top outer d w := by
    simp only [visit, builder]
    by_cases hkind : d.kind = .enumerator
    · refine ⟨true, ?_⟩
      simp only [hkind, beq_self_eq_true, if_true]
      rw [Pass.run_bind, addEnumerator_run top outer header? d w hkind]
      rfl
    · refine ⟨true, ?_⟩
      have hadded : added top d w = w := by simp [added, hkind]
      rw [if_neg (by simpa using hkind), hadded]
      rfl
  exit d s w := ⟨true, rfl⟩

end Containers

namespace Members

/-- How the second pass enters a container below `top`. -/
def entered (s : Surroundings) (header? : Option Path) (top : NodeId) (d : Declaration)
    (w : Workspace) :
    Option NodeId :=
  let symbol := Symbol.qualify (w.node top).symbol d.name
  match d.kind with
  | .linkage => some top
  | .nameSpace | .classType =>
    let owned := d.kind != .classType || header?.all (s.ownsDefinition symbol ·)
    (w.symbol? symbol).filter fun id => owned && (w.node id).kind == d.kind
  | _ => none

/-- What the second pass makes of a leaf below `top`. -/
def added (s : Surroundings) (header? : Option Path) (top : NodeId) (d : Declaration)
    (w : Workspace) :
    Workspace :=
  if d.access == .exposed && s.rules.symbols.selects (Symbol.qualify
      (w.node top).symbol d.name) then
    match memberNode? s w header? top d with
    | none => w
    | some n => w.grow top n ((symbolKeys n).filter fun name => !(w.symbol? name).isSome)
  else w

/-- The second pass over a header. -/
def builder (s : Surroundings) (header? : Option Path) : Builder where
  enter top d w := (entered s header? top d w, w)
  leaf := added s header?

/-- Adding a member as the pass does it is adding it as described. -/
theorem addMember_run (top : NodeId) (outer : List (Option NodeId)) (header? : Option Path)
    (d : Declaration) (w : Workspace) (s : Surroundings) :
    ((addMember s d).run (Builder.scopes top outer header?)).run w =
      (((), Builder.scopes top outer header?), added s header? top d w) := by
  simp only [added]
  rw [addMember, Builder.run_top_bind]
  dsimp only
  rw [Builder.run_symbolBelow_bind]
  split
  · change ((match memberNode? s w header? top d with
      | none => pure ()
      | some n => _ : Pass Unit).run _).run w = _
    cases memberNode? s w header? top d with
    | none => rfl
    | some n => rfl
  · rfl

/-- The description of the second pass is right. -/
theorem describes (s : Surroundings) (header? : Option Path) :
    (builder s header?).Describes header? (visit s) where
  enter top outer d w := by
    simp only [visit, builder]
    cases hkind : d.kind
    case nameSpace => simp only [entered, enterContainer, hkind]; rfl
    case classType => simp only [entered, enterContainer, hkind]; rfl
    all_goals simp only [entered, hkind]; rfl
  leaf top outer d w := by
    refine ⟨true, ?_⟩
    simp only [visit, builder]
    rw [Pass.run_bind, addMember_run top outer header? d w s]
    rfl
  exit d s w := ⟨true, rfl⟩

end Members

end Interop.Export

namespace Interop.RawPass

open Export Overlay

/-- What a raw pass does with a header, without its stack. -/
def builder (s : Surroundings) (header? : Option Path) : RawPass → Builder
  | containers => Containers.builder s header?
  | members => Members.builder s header?

theorem describes (s : Surroundings) (header? : Option Path) (pass : RawPass) :
    (pass.builder s header?).Describes header? (pass.visit s) := by
  cases pass with
  | containers => exact Containers.describes s header?
  | members => exact Members.describes s header?

/-- A raw pass goes over a header from the root, whatever the frames were, and comes back to the
root. -/
theorem header_run (s : Surroundings) (u : HeaderUnit) (scopes : Scopes) (w : Workspace)
    (pass : RawPass) :
    ((Pass.header (pass.visit s) s.root u).run scopes).run w =
      (((), { frames := [some s.root] }),
          (pass.builder s (some u.path)).build s.root u.root w) := by
  have hwalk := (pass.describes s (some u.path)).walk_run s.root [] u.root w
  change (((u.root.walk (pass.visit s) >>= fun _ => modifyThe Scopes fun s =>
    { s with header? := none } : Pass Unit).run (Builder.scopes s.root [] (some u.path))).run w) = _
  rw [Pass.run_bind, hwalk]
  rfl

/-- A raw pass goes over the units one after the other, each from the root. -/
theorem apply_eq (s : Surroundings) (units : List HeaderUnit) (w : Workspace) (pass : RawPass) :
    pass.apply s units w =
      units.foldl (fun w u => (pass.builder s (some u.path)).build s.root u.root w) w := by
  have hall : ∀ (units : List HeaderUnit) (scopes : Scopes) (w : Workspace), ∃ scopes',
      ((units.forM (Pass.header (pass.visit s) s.root)).run scopes).run w =
        (((), scopes'), units.foldl
            (fun w u => (pass.builder s (some u.path)).build s.root u.root w) w) := by
    intro units
    induction units with
    | nil => exact fun scopes w => ⟨scopes, rfl⟩
    | cons u rest ih =>
      intro scopes w
      obtain ⟨scopes', hrest⟩ :=
        ih { frames := [some s.root] } ((pass.builder s (some u.path)).build s.root u.root w)
      refine ⟨scopes', ?_⟩
      refine (Pass.run_bind (Pass.header (pass.visit s) s.root u)
        (fun _ => rest.forM (Pass.header (pass.visit s) s.root)) scopes w).trans ?_
      rw [header_run]
      exact hrest
  obtain ⟨scopes', hrun⟩ := hall units {} w
  rw [apply, hrun]

end Interop.RawPass
