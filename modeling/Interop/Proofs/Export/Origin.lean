import Interop.Proofs.Generator.Titled

namespace Interop

/-- Where additions come from: a declaration of a unit, with the names of the namespaces and types
around it, the outermost first. -/
structure Origin where
  unit : HeaderUnit
  around : List String
  declaration : Declaration

namespace Origin

/-- The symbol of what is around the declaration. -/
def scope (o : Origin) : String :=
  "::".intercalate o.around

/-- The symbol that the name of the declaration has where it stands. -/
def symbol (o : Origin) : String :=
  "::".intercalate (o.around ++ [o.declaration.name])

end Origin

namespace Declaration

mutual

/-- A declaration and the declarations inside it, in the order in which walks meet them. -/
def subtree : Declaration → List Declaration
  | { kind, name, access, isTemplated, isFriended, flags, type?, returnType?, parameters,
      value?, line, children } =>
    { kind, name, access, isTemplated, isFriended, flags, type?, returnType?, parameters,
      value?, line, children } :: subtreeAll children

/-- Several declarations and the declarations inside them. -/
def subtreeAll : List Declaration → List Declaration
  | [] => []
  | d :: rest => subtree d ++ subtreeAll rest

end

theorem subtree_eq (d : Declaration) : d.subtree = d :: subtreeAll d.children := by
  cases d
  rw [subtree]

/-- The name that a declaration puts in front of those inside of it, if it is a namespace or a type.
Files, language linkages and what templates and friends wrap put none. -/
def opened (d : Declaration) : List String :=
  if d.kind.qualifies && !d.isProxy then [d.name] else []

/-- A namespace, a class or an enum puts its name around what is in it. -/
theorem opened_of_qualifies {d : Declaration} (h : d.kind.qualifies = true)
    (hproxy : d.isProxy = false) :
    d.opened = [d.name] := by
  rw [opened, h, hproxy]
  rfl

/-- What is no scope, or stands for its children only, puts no name around them. -/
theorem opened_of_passed {d : Declaration} (h : d.kind.qualifies = false ∨ d.isProxy = true) :
    d.opened = [] := by
  rcases h with h | h <;> simp [opened, h]

mutual

/-- The declarations in the subtree of a declaration, each with the names around it. -/
def origins (u : HeaderUnit) (around : List String) : Declaration → List Origin
  | { kind, name, access, isTemplated, isFriended, flags, type?, returnType?, parameters,
      value?, line, children } =>
    let d : Declaration :=
      { kind, name, access, isTemplated, isFriended, flags, type?, returnType?, parameters,
        value?, line, children }
    ⟨u, around, d⟩ :: originsAll u (around ++ d.opened) children

/-- The declarations in the subtrees of several declarations, each with the names around it. -/
def originsAll (u : HeaderUnit) (around : List String) : List Declaration → List Origin
  | [] => []
  | d :: rest => origins u around d ++ originsAll u around rest

end

theorem origins_eq (u : HeaderUnit) (around : List String) (d : Declaration) :
    d.origins u around = ⟨u, around, d⟩ :: originsAll u (around ++ d.opened) d.children := by
  cases d
  rw [origins]

mutual

/-- The origins in a declaration are those of its subtree, in the same order. So nothing in a header
is without an origin. -/
theorem map_declaration_origins (u : HeaderUnit) : (d : Declaration) → (around : List String) →
    (d.origins u around).map (·.declaration) = d.subtree
  | { kind, name, access, isTemplated, isFriended, flags, type?, returnType?, parameters,
      value?, line, children }, around => by
    rw [origins, subtree, List.map_cons, map_declaration_originsAll u children]

theorem map_declaration_originsAll (u : HeaderUnit) :
    (ds : List Declaration) → (around : List String) →
    (originsAll u around ds).map (·.declaration) = subtreeAll ds
  | [], _ => rfl
  | d :: rest, around => by
    rw [originsAll, subtreeAll, List.map_append, map_declaration_origins u d,
      map_declaration_originsAll u rest]

end

end Declaration

/-- The declarations of a unit, each with the names around it. -/
def HeaderUnit.origins (u : HeaderUnit) : List Origin :=
  u.root.origins u []

/-- The declarations of several units, each with the names around it. -/
def originsIn (units : List HeaderUnit) : List Origin :=
  units.flatMap HeaderUnit.origins

/-- Where a declaration comes from is in the subtree of one of the units. -/
theorem exists_unit_of_mem_originsIn {units : List HeaderUnit} {o : Origin}
    (h : o ∈ originsIn units) :
    ∃ u ∈ units, o.declaration ∈ u.root.subtree := by
  obtain ⟨u, hu, ho⟩ := List.mem_flatMap.mp h
  refine ⟨u, hu, ?_⟩
  rw [← Declaration.map_declaration_origins u u.root []]
  exact List.mem_map_of_mem ho

namespace Export

open Overlay

/-- Steps between workspaces, one after the other, with what each of them is made for. -/
inductive Run {α : Type} (Step : α → Workspace → Workspace → Prop) (w : Workspace) :
    List α → Workspace → Prop
  | refl : Run Step w [] w
  | tail {log : List α} {a : α} {w' w'' : Workspace} (hrun : Run Step w log w')
      (hstep : Step a w' w'') :
      Run Step w (log ++ [a]) w''

namespace Run

variable {α : Type} {Step : α → Workspace → Workspace → Prop} {w w' w'' : Workspace}
    {log log' : List α} {a : α}

theorem single (h : Step a w w') : Run Step w [a] w' :=
  .tail .refl h

/-- Runs may be chained, and so are their logs. -/
theorem trans (h : Run Step w log w') (h' : Run Step w' log' w'') :
    Run Step w (log ++ log') w'' := by
  induction h' with
  | refl => rwa [List.append_nil]
  | tail _ hstep ih => exact List.append_assoc log _ _ ▸ ih.tail hstep

/-- What each step keeps, a run keeps. -/
theorem induction {P : Workspace → Prop} (hstep : ∀ {a w w'}, a ∈ log → Step a w w' → P w → P w')
    (h : Run Step w log w') (hw : P w) : P w' := by
  induction h with
  | refl => exact hw
  | tail _ hlast ih =>
    exact hstep (by simp) hlast (ih fun ha => hstep (List.mem_append_left _ ha))

end Run

namespace Builder

/-- What the steps of a pass over a unit have in common: each is a step for the declaration it is
made for, and the node of a container is one for which `Ok` holds with the names around what is
inside, whatever happens later. Containers of the kinds `closed` are not looked into. -/
structure Logs (b : Builder) (u : HeaderUnit) (P : Declaration → Prop) (closed : Kind → Bool)
    (Step : Origin → Workspace → Workspace → Prop) (Ok : List String → NodeId → Workspace → Prop) :
    Prop where
  mono : ∀ {o w w' around id}, Step o w w' → Ok around id w → Ok around id w'
  whole : ∀ {around d top w}, P d → d.isProxy = false → closed d.kind = true → Ok around top w →
    Step ⟨u, around, d⟩ w (b.build top d w)
  enter : ∀ {around d top w}, P d → d.isProxy = false → closed d.kind = false →
    d.kind.isContainer = true → Ok around top w → Step ⟨u, around, d⟩ w (b.enter top d w).2 ∧
      ∀ inner, (b.enter top d w).1 = some inner → Ok (around ++ d.opened) inner (b.enter top d w).2
  leaf : ∀ {around d top w}, P d → d.kind.isContainer = false → Ok around top w →
    Step ⟨u, around, d⟩ w (b.leaf top d w)

namespace Logs

variable {b : Builder} {u : HeaderUnit} {P : Declaration → Prop} {closed : Kind → Bool}
  {Step : Origin → Workspace → Workspace → Prop} {Ok : List String → NodeId → Workspace → Prop}

/-- What each step keeps, a run keeps. -/
theorem ok_of_run (h : b.Logs u P closed Step Ok) {log : List Origin} {w w' : Workspace}
    {around : List String} {id : NodeId} (hrun : Run Step w log w') (hok : Ok around id w) :
    Ok around id w' :=
  hrun.induction (fun _ hstep hok => h.mono hstep hok) hok

mutual

/-- The pass over a declaration is a run over declarations inside it. -/
theorem build (h : b.Logs u P closed Step Ok) :
    (d : Declaration) → (around : List String) → (top : NodeId) →
    (w : Workspace) → (∀ inner ∈ d.subtree, P inner) → Ok around top w →
    ∃ log : List Origin, log.Sublist (d.origins u around) ∧ Run Step w log (b.build top d w)
  | { kind, name, access, isTemplated, isFriended, flags, type?, returnType?, parameters,
      value?, line, children }, around, top, w, hp, hok => by
    obtain ⟨d, hd⟩ : ∃ d : Declaration,
      Declaration.mk kind name access isTemplated isFriended flags type?
      returnType? parameters value? line children = d := ⟨_, rfl⟩
    have hkind : d.kind = kind := by rw [← hd]
    have hchildren : d.children = children := by rw [← hd]
    rw [hd] at hp ⊢
    rw [Declaration.subtree_eq, hchildren] at hp
    rw [Declaration.origins_eq, hchildren]
    have hself := hp d List.mem_cons_self
    have hbelow : ∀ inner ∈ Declaration.subtreeAll children, P inner := fun inner hinner =>
      hp inner (List.mem_cons_of_mem d hinner)
    by_cases hproxy : d.kind = .file ∨ d.isProxy = true
    · have hopened : d.opened = [] :=
        Declaration.opened_of_passed (hproxy.imp_left fun hfile => by rw [hfile]; rfl)
      obtain ⟨log, hlog, hrun⟩ := h.buildAll children around top w hbelow hok
      refine ⟨log, ?_, ?_⟩
      · rw [hopened, List.append_nil]
        exact hlog.cons _
      · rwa [build_eq, if_pos (by simpa using hproxy), hchildren]
    · rw [not_or, Bool.not_eq_true] at hproxy
      by_cases hwhole : closed d.kind = true
      · exact ⟨[⟨u, around, d⟩], by simp, .single (h.whole hself hproxy.2 hwhole hok)⟩
      · rw [build_eq, if_neg (by simpa using hproxy), hchildren]
        by_cases hcontainer : d.kind.isContainer = true
        · rw [if_pos hcontainer]
          obtain ⟨hstep, hinner⟩ := h.enter hself hproxy.2 (by simpa using hwhole) hcontainer hok
          cases hentered : b.enter top d w with
          | mk entered w' =>
            rw [hentered] at hstep hinner
            cases entered with
            | none => exact ⟨[⟨u, around, d⟩], by simp, .single hstep⟩
            | some node =>
              obtain ⟨log, hlog, hrun⟩ :=
                h.buildAll children (around ++ d.opened) node w' hbelow (hinner node rfl)
              exact ⟨⟨u, around, d⟩ :: log, hlog.cons_cons _, (Run.single hstep).trans hrun⟩
        · rw [if_neg hcontainer]
          exact ⟨[⟨u, around, d⟩], by simp, .single (h.leaf hself (by simpa using hcontainer) hok)⟩

/-- The same for several declarations. -/
theorem buildAll (h : b.Logs u P closed Step Ok) :
    (ds : List Declaration) → (around : List String) →
    (top : NodeId) → (w : Workspace) → (∀ inner ∈ Declaration.subtreeAll ds, P inner) →
      Ok around top w →
    ∃ log : List Origin, log.Sublist (Declaration.originsAll u around ds) ∧
      Run Step w log (b.buildAll top ds w)
  | [], _, _, w, _, _ => ⟨[], .slnil, .refl⟩
  | d :: rest, around, top, w, hp, hok => by
    rw [Declaration.subtreeAll] at hp
    rw [Declaration.originsAll]
    obtain ⟨log, hlog, hrun⟩ :=
      h.build d around top w (fun inner hinner => hp inner (List.mem_append_left _ hinner)) hok
    obtain ⟨log', hlog', hrun'⟩ := h.buildAll rest around top _
      (fun inner hinner => hp inner (List.mem_append_right _ hinner)) (h.ok_of_run hrun hok)
    exact ⟨log ++ log', hlog.append hlog', hrun.trans hrun'⟩

end

/-- A pass over units is a run over their declarations. -/
theorem foldl {b : HeaderUnit → Builder} {Ok : HeaderUnit → List String → NodeId → Workspace → Prop}
    {units : List HeaderUnit} {top : NodeId} (Top : Workspace → Prop)
    (h : ∀ u ∈ units, (b u).Logs u P closed Step (Ok u))
    (hp : ∀ u ∈ units, ∀ d ∈ u.root.subtree, P d) (htop : ∀ u ∈ units, ∀ w, Top w → Ok u [] top w)
    (hkeeps : ∀ {o w w'}, Step o w w' → Top w → Top w') {w : Workspace} (hw : Top w) :
    ∃ log : List Origin, log.Sublist (originsIn units) ∧
      Run Step w log (units.foldl (fun w u => (b u).build top u.root w) w) := by
  induction units generalizing w with
  | nil => exact ⟨[], .slnil, .refl⟩
  | cons u rest ih =>
    obtain ⟨log, hlog, hrun⟩ :=
      (h u List.mem_cons_self).build u.root [] top w (hp u List.mem_cons_self)
      (htop u List.mem_cons_self w hw)
    obtain ⟨log', hlog', hrun'⟩ := ih (fun v hv => h v (List.mem_cons_of_mem u hv))
      (fun v hv => hp v (List.mem_cons_of_mem u hv))
        (fun v hv => htop v (List.mem_cons_of_mem u hv))
      (hrun.induction (fun _ => hkeeps) hw)
    refine ⟨log ++ log', ?_, hrun.trans hrun'⟩
    rw [originsIn, List.flatMap_cons]
    exact hlog.append hlog'

end Logs

end Builder

namespace Members

variable {s : Surroundings} {o : Origin} {u : HeaderUnit} {around : List String} {d : Declaration}
    {w w' : Workspace}
  {id parent : NodeId} {m n : Node}

/-- Whether a node that bears the given names is one that members are added to from a unit: a scope,
or a class that the unit supplies. -/
structure IsOpen (s : Surroundings) (u : HeaderUnit) (around : List String) (id : NodeId)
    (w : Workspace) : Prop where
  titled : Titled w
  node : ∃ m, w.forest.content? id = some m ∧ m.Joins around ∧
    (m.kind = .file ∨ m.kind = .nameSpace ∨ m.kind = .classType ∧
      s.ownsDefinition m.symbol u.path = true)

/-- The names among several that are not in use. -/
def unused (w : Workspace) (names : List String) : List String :=
  names.filter fun name => !(w.symbol? name).isSome

/-- A name that is unused stands for nothing. -/
theorem symbol?_of_mem_unused {names : List String} {name : String} (h : name ∈ unused w names) :
    w.symbol? name = none := by
  simpa using (List.mem_filter.mp h).2

/-- What the second pass does for a declaration: nothing, or it adds the node of a public
declaration that the rules select, below the node that bears the names around the declaration. -/
inductive Step (s : Surroundings) (o : Origin) (w : Workspace) : Workspace → Prop
  | stay : Step s o w w
  | add {parent : NodeId} {n : Node} (hopen : IsOpen s o.unit o.around parent w)
      (haccess : o.declaration.access = .exposed)
      (hselected : s.rules.symbols.selects
        (Symbol.qualify (w.node parent).symbol o.declaration.name) = true)
      (hn : memberNode? s w (some o.unit.path) parent o.declaration = some n) :
      Step s o w (w.grow parent n (unused w (symbolKeys n)))

/-- An open place is a node that bears the names around it, and is the root, a namespace or a
class. -/
theorem IsOpen.exists_scope (h : IsOpen s u around id w) :
    ∃ m, w.forest.content? id = some m ∧ m.Joins around ∧
    (m.kind = .file ∨ m.kind = .nameSpace ∨ m.kind = .classType) := by
  obtain ⟨m, hm, hjoins, hkind | hkind | ⟨hkind, -⟩⟩ := h.node
  · exact ⟨m, hm, hjoins, .inl hkind⟩
  · exact ⟨m, hm, hjoins, .inr (.inl hkind)⟩
  · exact ⟨m, hm, hjoins, .inr (.inr hkind)⟩

/-- An added node stands rightly below a node that is there. -/
theorem added_placed (hopen : IsOpen s u around parent w)
    (hn : memberNode? s w (some u.path) parent d = some n) :
    ∃ m, w.forest.content? parent = some m ∧ m.kind.isContainer = true ∧ n.IsFresh ∧
      n.Placed (s.mapper w m.symbol) m := by
  obtain ⟨m, hm, -, hscope⟩ := hopen.exists_scope
  refine ⟨m, hm, ?_, placed_of_memberNode? hm hscope hn⟩
  rcases hscope with hkind | hkind | hkind <;> rw [hkind] <;> rfl

/-- A name of a node that is there keeps it when unused names are taken. -/
theorem get?_grow_unused {name : String} {names : List String} {key : NodeId}
    (hget : w.symbols.entries.get? name = some key) (hkey : ∃ k, w.forest.content? key = some k) :
    (w.grow parent n (unused w names)).symbols.entries.get? name = some key := by
  have hused : name ∉ unused w names := by
    intro hmem
    have hnone := symbol?_of_mem_unused hmem
    rw [Workspace.symbol?, Symbols.get?, hget, Option.filter_some,
      if_pos ((Forest.contains_iff_content? _ _).mpr hkey)] at hnone
    cases hnone
  rw [Workspace.get?_grow, if_neg hused, hget]

/-- A step keeps what is there. -/
theorem Step.content? (h : Step s o w w') {k : Node} (hk : w.forest.content? id = some k) :
    w'.forest.content? id = some k := by
  cases h with
  | stay => exact hk
  | add hopen _ _ hn =>
    obtain ⟨m, -, -, hfresh, -⟩ := added_placed hopen hn
    exact Workspace.content?_grow_of_some hfresh hk

/-- A step keeps names and nodes in agreement. -/
theorem Step.titled (h : Step s o w w') (htitled : Titled w) : Titled w' := by
  cases h with
  | stay => exact htitled
  | add hopen _ _ hn =>
    obtain ⟨m, hm, hcontainer, hfresh, -⟩ := added_placed hopen hn
    exact htitled.add hm hcontainer hfresh
      (Kind.qualifies_of_not_isHolder (isHolder_of_memberNode? hn))

/-- A place that is open stays open while more is added. -/
theorem Step.isOpen (h : Step s o w w') (hopen : IsOpen s u around id w) :
    IsOpen s u around id w' := by
  obtain ⟨m, hm, hnode⟩ := hopen.node
  exact ⟨h.titled hopen.titled, m, h.content? hm, hnode⟩

/-- What is registered under the symbol of a name below a node bears the name behind those of the
node. -/
theorem joins_of_symbol? (h : Titled w) (hm : m.Joins around) {name : String}
    (hget : w.symbol? (Symbol.qualify m.symbol name) = some id) (hn : w.forest.content? id = some n)
    (hkind : n.kind.qualifies = true) : n.Joins (around ++ [name]) :=
  hm.below (h.symbol_eq hget hn hkind) (h.nonempty id n hn hkind)

/-- The second pass enters scopes, and classes that the unit supplies. -/
theorem isOpen_of_entered {top inner : NodeId} (hproxy : d.isProxy = false)
    (hopen : IsOpen s u around top w) (h : entered s (some u.path) top d w = some inner) :
    IsOpen s u (around ++ d.opened) inner w := by
  obtain ⟨m, hm, hjoins, -⟩ := hopen.node
  have hsymbol : (w.node top).symbol = m.symbol := by rw [← Workspace.node_unlinked hm]; rfl
  have hfound : ∀ {owned : Bool}, d.kind.qualifies = true →
      ((w.symbol? (Symbol.qualify (w.node top).symbol d.name)).filter fun id =>
        owned && (w.node id).kind == d.kind) = some inner →
      owned = true ∧ ∃ n, w.forest.content? inner = some n ∧ n.kind = d.kind ∧
        n.symbol = Symbol.qualify (w.node top).symbol d.name ∧ n.Joins (around ++ d.opened) := by
    intro owned hkind hfilter
    obtain ⟨hget, hsame⟩ := Option.filter_eq_some_iff.mp hfilter
    rw [Bool.and_eq_true, beq_iff_eq] at hsame
    have hcontent := Workspace.content?_of_kind fun hnone => by
      rw [← hsame.2, hnone] at hkind
      cases hkind
    have hqualifies : (w.node inner).unlinked.kind.qualifies = true :=
      by rw [Node.unlinked_kind, hsame.2, hkind]
    refine ⟨hsame.1, _, hcontent, hsame.2, hopen.titled.symbol_eq hget hcontent hqualifies, ?_⟩
    rw [Declaration.opened_of_qualifies hkind hproxy]
    exact joins_of_symbol? hopen.titled hjoins (hsymbol ▸ hget) hcontent hqualifies
  simp only [entered] at h
  split at h
  · rename_i hkind
    rw [Declaration.opened_of_passed (.inl (by rw [hkind]; rfl)), List.append_nil]
    exact Option.some.inj h ▸ hopen
  · rename_i hkind
    obtain ⟨-, n, hn, hsame, -, hjoined⟩ := hfound (by rw [hkind]; rfl) h
    exact ⟨hopen.titled, n, hn, hjoined, .inr (.inl (hsame.trans hkind))⟩
  · rename_i hkind
    obtain ⟨howns, n, hn, hsame, hqualified, hjoined⟩ := hfound (by rw [hkind]; rfl) h
    refine ⟨hopen.titled, n, hn, hjoined, .inr (.inr ⟨hsame.trans hkind, ?_⟩)⟩
    rw [hqualified]
    simpa [hkind] using howns
  · cases h

/-- The second pass over a unit is a run of its steps. -/
theorem logs (s : Surroundings) (u : HeaderUnit) :
    (builder s (some u.path)).Logs u (fun _ => True) (fun _ => false) (Step s) (IsOpen s u) where
  mono := Step.isOpen
  whole _ _ hclosed := nomatch hclosed
  enter _ hproxy _ _ hopen := ⟨.stay, fun _ hinner => isOpen_of_entered hproxy hopen hinner⟩
  leaf {around d top w} _ _ hopen := by
    simp only [builder, added]
    split
    · rename_i hgate
      rw [Bool.and_eq_true, beq_iff_eq] at hgate
      cases hn : memberNode? s w (some u.path) top d with
      | none => exact .stay
      | some n => exact .add (o := ⟨u, around, d⟩) hopen hgate.1 hgate.2 hn
    · exact .stay

/-- The second pass is a run of its steps over the declarations of the units. -/
theorem run_apply {units : List HeaderUnit} (h : Titled w)
    (hroot : w.forest.content? s.root = some Node.root) :
    ∃ log : List Origin, log.Sublist (originsIn units) ∧
      Run (Step s) w log (RawPass.members.apply s units w) := by
  rw [RawPass.apply_eq]
  exact Builder.Logs.foldl (fun w => Titled w ∧ w.forest.content? s.root = some Node.root)
    (fun u _ => logs s u) (fun _ _ _ _ => trivial) (fun u _ w hw => ⟨hw.1, Node.root, hw.2, .root,
      .inl rfl⟩)
    (fun hstep hw => ⟨hstep.titled hw.1, hstep.content? hw.2⟩) ⟨h, hroot⟩

end Members

end Export

end Interop
