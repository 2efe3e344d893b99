import Interop.Proofs.Export.Admission
import Interop.Proofs.Overlay.TypeLookup

namespace Interop

open Overlay Export Emit

namespace Declaration

mutual

/-- The enumerators that a walk meets in a declaration inside of an enum. -/
def enumerated : Declaration → List Declaration
  | { kind, name, access, isTemplated, isFriended, flags, type?, returnType?, parameters,
      value?, line, children } =>
    let d : Declaration :=
      { kind, name, access, isTemplated, isFriended, flags, type?, returnType?, parameters,
        value?, line, children }
    if kind == .file || d.isProxy || kind == .linkage then enumeratedAll children
    else if kind == .enumerator then [d]
    else []

/-- The enumerators that a walk meets in several declarations inside of an enum. -/
def enumeratedAll : List Declaration → List Declaration
  | [] => []
  | d :: rest => enumerated d ++ enumeratedAll rest

end

/-- The enumerators of an enum. -/
def enumerators (d : Declaration) : List Declaration :=
  enumeratedAll d.children

theorem enumerated_eq (d : Declaration) :
    d.enumerated =
      if d.kind == .file || d.isProxy || d.kind == .linkage then enumeratedAll d.children
      else if d.kind == .enumerator then [d]
      else [] := by
  cases d
  rw [enumerated]

mutual

/-- Only enumerators count as enumerated. -/
theorem kind_of_mem_enumerated : (d : Declaration) → ∀ x ∈ d.enumerated, x.kind = .enumerator
  | { kind, name, access, isTemplated, isFriended, flags, type?, returnType?, parameters,
      value?, line, children }, x, hx => by
    rw [enumerated_eq] at hx
    split at hx
    · exact kind_of_mem_enumeratedAll children x hx
    · split at hx
      · rename_i hkind
        rw [List.mem_singleton.mp hx]
        simpa using hkind
      · cases hx

theorem kind_of_mem_enumeratedAll :
    (ds : List Declaration) → ∀ x ∈ enumeratedAll ds, x.kind = .enumerator
  | [], x, hx => by simp [enumeratedAll] at hx
  | d :: rest, x, hx => by
    rw [enumeratedAll, List.mem_append] at hx
    rcases hx with hx | hx
    · exact kind_of_mem_enumerated d x hx
    · exact kind_of_mem_enumeratedAll rest x hx

end

theorem kind_of_mem_enumerators (d : Declaration) {x : Declaration} (h : x ∈ d.enumerators) :
    x.kind = .enumerator :=
  kind_of_mem_enumeratedAll d.children x h

/-- Whether all that an enum holds are enumerators. -/
def Lists (d : Declaration) : Prop :=
  d.kind = .enumeration → d.isProxy = false → NestedAll Kind.Listed .enumeration d.children

mutual

/-- In a regular declaration every enum holds enumerators only. -/
theorem lists_of_nested : (d : Declaration) → (around : Kind) → d.Nested Kind.Listed around →
    ∀ inner ∈ d.subtree, inner.Lists
  | { kind, name, access, isTemplated, isFriended, flags, type?, returnType?, parameters,
      value?, line, children }, around, h => by
    obtain ⟨d, hd⟩ : ∃ d : Declaration,
      Declaration.mk kind name access isTemplated isFriended flags type?
      returnType? parameters value? line children = d := ⟨_, rfl⟩
    have hchildren : d.children = children := by rw [← hd]
    rw [hd, nested_eq, hchildren] at h
    rw [hd, subtree_eq, hchildren]
    intro inner hinner
    rcases List.mem_cons.mp hinner with rfl | hinner
    · intro hkind hproxy
      rw [if_neg (by simp [hkind, hproxy]), hkind] at h
      rw [hchildren]
      exact h.2
    · split at h
      · exact listsAll_of_nested children around h inner hinner
      · exact listsAll_of_nested children d.kind h.2 inner hinner

theorem listsAll_of_nested :
    (ds : List Declaration) → (around : Kind) → NestedAll Kind.Listed around ds →
    ∀ inner ∈ subtreeAll ds, inner.Lists
  | [], _, _, _, hinner => by simp [subtreeAll] at hinner
  | d :: rest, around, h, inner, hinner => by
    rw [subtreeAll, List.mem_append] at hinner
    rcases hinner with hinner | hinner
    · exact lists_of_nested d around h.1 inner hinner
    · exact listsAll_of_nested rest around h.2 inner hinner

end

end Declaration

namespace Export.Containers

variable {s : Surroundings} {header? : Option Path} {u : HeaderUnit} {d : Declaration}
    {w w' : Workspace}
  {id parent e : NodeId} {m n : Node}

/-- What the first pass makes of the enumerators of a definition. -/
def filled (e : NodeId) (d : Declaration) (w : Workspace) : Workspace :=
  d.enumerators.foldl (fun w x => added e x w) w

mutual

/-- Inside of an enum the first pass adds one enumerator after the other. -/
theorem build_enumerated : (d : Declaration) → d.Nested Kind.Listed .enumeration → (w : Workspace) →
    (builder s header?).build e d w = d.enumerated.foldl (fun w x => added e x w) w
  | { kind, name, access, isTemplated, isFriended, flags, type?, returnType?, parameters,
      value?, line, children }, h, w => by
    obtain ⟨d, hd⟩ : ∃ d : Declaration,
      Declaration.mk kind name access isTemplated isFriended flags type?
      returnType? parameters value? line children = d := ⟨_, rfl⟩
    have hchildren : d.children = children := by rw [← hd]
    rw [hd, Declaration.nested_eq, hchildren] at h
    rw [hd, Builder.build_eq, Declaration.enumerated_eq, hchildren]
    by_cases hproxy : (d.kind == .file || d.isProxy) = true
    · rw [if_pos (by rw [hproxy]; rfl)] at h
      rw [if_pos hproxy, if_pos (by rw [hproxy]; rfl)]
      exact buildAll_enumerated children h w
    · rw [if_neg hproxy]
      rw [Bool.not_eq_true] at hproxy
      by_cases hlinkage : d.kind = .linkage
      · have hentered : (builder s header?).enter e d w = (some e, w) :=
          by simp only [builder, entered, hlinkage]
        rw [if_pos (by simp [hlinkage])] at h
        rw [if_pos (by rw [hlinkage]; rfl), hentered, if_pos (by simp [hlinkage])]
        exact buildAll_enumerated children h w
      · have hpassed : ¬(d.kind == .file || d.isProxy || d.kind == .linkage) = true := by
          rw [hproxy]
          simpa using hlinkage
        rw [if_neg hpassed] at h
        have hkind : d.kind = .enumerator := h.1 rfl
        rw [if_neg (by rw [hkind]; simp [Kind.isContainer]), if_neg hpassed,
          if_pos (by simp [hkind])]
        rfl

/-- The same for several declarations. -/
theorem buildAll_enumerated :
    (ds : List Declaration) → Declaration.NestedAll Kind.Listed .enumeration ds →
    (w : Workspace) →
    (builder s header?).buildAll e ds w = (Declaration.enumeratedAll ds).foldl
    (fun w x => added e x w) w
  | [], _, _ => rfl
  | d :: rest, h, w => by
    rw [Builder.buildAll, Declaration.enumeratedAll, List.foldl_append, build_enumerated d h.1 w]
    exact buildAll_enumerated rest h.2 _

end

/-- The names of the children of a node. -/
def childNames (w : Workspace) (id : NodeId) : List String :=
  (w.forest.children id).map fun c => (w.node c).name

/-- A node that is added has its name appended to those of its parent's children, and nowhere
else. -/
theorem childNames_grow {names : List String} (hf : w.forest.WellFormed)
    (hparent : w.forest.content? parent = some m) (hfresh : n.IsFresh) (id : NodeId) :
    childNames (w.grow parent n names) id = childNames w id ++ if id = parent then [n.name]
      else [] := by
  have hold : (w.forest.children id).map (fun c => ((w.grow parent n names).node c).name) =
      childNames w id := by
    refine List.map_congr_left fun c hc => ?_
    obtain ⟨k, hk⟩ := Forest.exists_content_of_parent? ((hf.links id c).mp hc)
    rw [Globals.node_name (Workspace.content?_grow_of_some hfresh hk), Globals.node_name hk]
  have hnew : ((w.grow parent n names).node w.forest.nextId).name = n.name :=
    Globals.node_name ((Workspace.content?_grow hfresh w parent _ names).trans (if_pos rfl))
  have hchildren : (w.grow parent n names).forest.children id =
      w.forest.children id ++ if id = parent then [w.forest.nextId] else [] :=
    hf.children_pushBelow hparent hfresh id
  rw [childNames, hchildren, List.map_append, hold]
  split
  · rw [List.map_singleton, hnew]
  · rfl

/-- Whether `w'` is `w` with enumerators of the given names added to the enum `e`. -/
structure Fills (e : NodeId) (names : List String) (w w' : Workspace) : Prop where
  titled : Titled w'
  kept : ∀ id k, w.forest.content? id = some k → w'.forest.content? id = some k
  added : ∀ id k, w'.forest.content? id = some k → w.forest.content? id = some k ∨
    k.kind = .enumerator
  children : ∀ id, childNames w' id = childNames w id ++ if id = e then names else []

theorem Fills.refl (h : Titled w) : Fills e [] w w where
  titled := h
  kept _ _ h := h
  added _ _ h := .inl h
  children id := by simp

/-- Two runs of enumerators, one behind the other, fill an enum with both. -/
theorem Fills.trans {names names' : List String} {w'' : Workspace} (h : Fills e names w w')
    (h' : Fills e names' w' w'') : Fills e (names ++ names') w w'' where
  titled := h'.titled
  kept id k hk := h'.kept id k (h.kept id k hk)
  added id k hk := by
    rcases h'.added id k hk with hk' | hkind
    · exact h.added id k hk'
    · exact .inr hkind
  children id := by
    rw [h'.children, h.children, List.append_assoc]
    split <;> simp

/-- An enumerator is added to an enum that is there. -/
theorem fills_added (h : Titled w) (he : w.forest.content? e = some n)
    (hkind : n.kind = .enumeration) (hd : d.kind = .enumerator) :
    Fills e [d.name] w (added e d w) := by
  have hparent : (w.node e).kind = .enumeration :=
    by rw [← hkind, ← Workspace.node_unlinked he]; rfl
  have hadded : added e d w = w.grow e
      { kind := .enumerator, name := d.name, symbol := Symbol.qualify (w.node e).symbol d.name
        nativeValue? := d.value?, isConstant := true }
      (enumeratorNames w (w.node e) d.name) := by
    simp only [added, hd, hparent, beq_self_eq_true, Bool.and_self, if_true]
  rw [hadded]
  generalize hnode : ({ kind := .enumerator, name := d.name,
                        symbol := Symbol.qualify (w.node e).symbol d.name
                        nativeValue? := d.value?, isConstant := true } : Node) = x
  have hfresh : x.IsFresh := by rw [← hnode]; exact ⟨rfl, rfl, rfl⟩
  have hxkind : x.kind = .enumerator := by rw [← hnode]
  have hxname : x.name = d.name := by rw [← hnode]
  have hcontent : ∀ key, (w.grow e x (enumeratorNames w (w.node e) d.name)).forest.content? key =
      if key = w.forest.nextId then some x else w.forest.content? key :=
    fun key => Workspace.content?_grow hfresh w e key _
  constructor
  · exact h.add he (by rw [hkind]; rfl) hfresh (by rw [hxkind]; rfl)
  · exact fun _ _ => Workspace.content?_grow_of_some hfresh
  · intro id k hk
    rw [hcontent] at hk
    split at hk
    · exact .inr (Option.some.inj hk ▸ hxkind)
    · exact .inl hk
  · intro id
    rw [childNames_grow h.wellFormed he hfresh, hxname]

/-- The enumerators of a definition are added one after the other. -/
theorem fills_filled (h : Titled w) (he : w.forest.content? e = some n)
    (hkind : n.kind = .enumeration) (d : Declaration) : Fills e (d.enumerators.map (·.name)) w
    (filled e d w) := by
  have hall : ∀ xs : List Declaration, (∀ x ∈ xs, x.kind = .enumerator) →
      ∀ w : Workspace, Titled w → w.forest.content? e = some n →
          Fills e (xs.map (·.name)) w (xs.foldl (fun w x => added e x w) w) := by
    intro xs
    induction xs with
    | nil => exact fun _ w h _ => .refl h
    | cons x rest ih =>
      intro hxs w h he
      have hfirst := fills_added h he hkind (hxs x List.mem_cons_self)
      exact hfirst.trans
        (ih (fun y hy => hxs y (List.mem_cons_of_mem x hy)) _ hfirst.titled (hfirst.kept e n he))
  exact hall d.enumerators (fun x hx => d.kind_of_mem_enumerators hx) w h he

/-- Whether a declaration is an exported definition of an enum that has the given symbol where it
stands, in a unit that supplies the enum. -/
structure Defines (s : Surroundings) (symbol : String) (o : Origin) : Prop where
  kind : o.declaration.kind = .enumeration
  isDefinition : o.declaration.flags.isDefinition = true
  access : o.declaration.access = .exposed
  named : o.symbol = symbol
  owned : s.ownsDefinition symbol o.unit.path = true

/-- Whether a node that bears the given names is one that namespaces and types are added to. -/
structure IsOpen (around : List String) (id : NodeId) (w : Workspace) : Prop where
  titled : Titled w
  node : ∃ m, w.forest.content? id = some m ∧ m.Joins around ∧ m.kind.isHolder = true ∧
    m.kind ≠ .enumeration

/-- Whether `id` is the node of a symbol in `w₁`: it was registered under the symbol before, or it
has been added. -/
inductive Made (w : Workspace) (symbol : String) : NodeId → Node → Workspace → Prop
  | found {id : NodeId} {n : Node} (hn : w.forest.content? id = some n) (hget : w.symbol? symbol =
      some id) :
      Made w symbol id n w
  | grown {parent : NodeId} {m n : Node} (hm : w.forest.content? parent = some m)
      (hkind : m.kind ≠ .enumeration)
      (hadds : Adds (fun _ _ => True) w m n [symbol]) (hsymbol : n.symbol = symbol) :
      Made w symbol w.forest.nextId n (w.grow parent n [symbol])

/-- What the first pass does for a declaration: nothing, or it makes a namespace or class, or it
goes through the definition of an enum. What is new has the kind and the name of the declaration. -/
inductive Step (s : Surroundings) (o : Origin) (w : Workspace) : Workspace → Prop
  | stay : Step s o w w
  | make {w₁ : Workspace} {symbol : String} {id : NodeId} {n : Node} (hmade : Made w symbol id n w₁)
      (hkind : n.kind = .nameSpace ∨ n.kind = .classType)
      (hnew : w.forest.content? id = none → n.kind = o.declaration.kind ∧
        n.name = o.declaration.name) :
      Step s o w w₁
  | define {w₁ : Workspace} {symbol : String} {e : NodeId} {n : Node} (hmade : Made w symbol e n w₁)
      (hkind : n.kind = .enumeration) (hdefines : Defines s symbol o) :
        Step s o w (filled e o.declaration w₁)

namespace Made

variable {symbol : String} {w₁ : Workspace}

theorem titled (h : Made w symbol id n w₁) (htitled : Titled w) : Titled w₁ := by
  cases h with
  | found => exact htitled
  | grown hm hkind hadds hsymbol =>
    obtain ⟨hfresh, hcontainer, hqualifies⟩ := hadds.titled
    refine htitled.grow hm hcontainer hfresh (fun hq => ?_) (fun hq =>
      (hqualifies hq).2.2) fun _ => hadds.symbol
    obtain ⟨hname, heq, -⟩ := hqualifies hq
    exact heq ▸ Symbol.qualify_ne_empty hname

theorem content?_self (h : Made w symbol id n w₁) : w₁.forest.content? id = some n := by
  cases h with
  | found hn => exact hn
  | grown hm hkind hadds => rw [Workspace.content?_grow hadds.fresh, if_pos rfl]

/-- What was there before a definition is made is still there. -/
theorem content?_of_some (h : Made w symbol id n w₁) {key : NodeId} {k : Node}
    (hk : w.forest.content? key = some k) : w₁.forest.content? key = some k := by
  cases h with
  | found => exact hk
  | grown hm hkind hadds => exact Workspace.content?_grow_of_some hadds.fresh hk

/-- Nothing else is made. -/
theorem content?_of_ne (h : Made w symbol id n w₁) {key : NodeId} (hne : key ≠ id) :
    w₁.forest.content? key = w.forest.content? key := by
  cases h with
  | found => rfl
  | grown hm hkind hadds => rw [Workspace.content?_grow hadds.fresh, if_neg hne]

/-- Making a definition changes the children of no enum that is there already. A new enum is not one
of these. -/
theorem childNames_of_ne (h : Made w symbol id n w₁) (htitled : Titled w) {key : NodeId} {k : Node}
    (hk : w.forest.content? key = some k) (hkind : k.kind = .enumeration) :
    childNames w₁ key = childNames w key := by
  cases h with
  | found => rfl
  | grown hm hopen hadds =>
    rw [childNames_grow htitled.wellFormed hm hadds.fresh, if_neg, List.append_nil]
    rintro rfl
    exact hopen (Option.some.inj (hm.symm.trans hk) ▸ hkind)

/-- Where symbols tell where nodes stand, the node of a symbol bears it. -/
theorem symbol_eq (h : Made w symbol id n w₁) (htitled : Titled w)
    (hkind : n.kind.qualifies = true) :
    n.symbol = symbol := by
  cases h with
  | found hn hget => exact htitled.symbol_eq hget hn hkind
  | grown _ _ _ hsymbol => exact hsymbol

/-- The node that is made for a name below `m` bears the name behind those of `m`. -/
theorem joins {around : List String} {name : String}
    (h : Made w (Symbol.qualify m.symbol name) id n w₁) (htitled : Titled w) (hm : m.Joins around)
    (hkind : n.kind.qualifies = true) : n.Joins (around ++ [name]) :=
  hm.below (h.symbol_eq htitled hkind) ((h.titled htitled).nonempty id n h.content?_self hkind)

end Made

/-- Whether a list of names consists of the enumerators of definitions from a log. -/
def Listing (s : Surroundings) (log : List Origin) (symbol : String) (names : List String) : Prop :=
  ∃ entries : List Origin, entries.Sublist log ∧ entries ≠ [] ∧
    (∀ o ∈ entries, Defines s symbol o) ∧
      names = entries.flatMap fun o => o.declaration.enumerators.map (·.name)

/-- What the first pass has kept up on its way from `w₀` to `w`. -/
structure Kept (s : Surroundings) (w₀ : Workspace) (log : List Origin) (w : Workspace) : Prop where
  titled : Titled w
  listed : ∀ e n, w₀.forest.content? e = none → w.forest.content? e = some n →
    n.kind = .enumeration → Listing s log n.symbol (childNames w e)

/-- A listing stays one as the log grows. -/
theorem Listing.snoc {log : List Origin} {symbol : String} {names : List String}
    (h : Listing s log symbol names) (o : Origin) : Listing s (log ++ [o]) symbol names := by
  obtain ⟨entries, hsub, hne, hdefines, hnames⟩ := h
  exact ⟨entries, hsub.trans (List.sublist_append_left log [o]), hne, hdefines, hnames⟩

/-- A definition adds its enumerators to those of its enum, and to no other. -/
theorem Kept.step {w₀ : Workspace} {log : List Origin} {o : Origin} (h : Kept s w₀ log w)
    (hstep : Step s o w w') :
    Kept s w₀ (log ++ [o]) w' := by
  cases hstep with
  | stay => exact ⟨h.titled, fun e n hnone hn hkind => (h.listed e n hnone hn hkind).snoc o⟩
  | make hmade hm hnew =>
    rename_i symbol id m
    refine ⟨hmade.titled h.titled, fun e n hnone hn hkind => ?_⟩
    have hne : e ≠ id := by
      rintro rfl
      obtain rfl := Option.some.inj (hmade.content?_self.symm.trans hn)
      simp [hkind] at hm
    rw [hmade.content?_of_ne hne] at hn
    rw [hmade.childNames_of_ne h.titled hn hkind]
    exact (h.listed e n hnone hn hkind).snoc o
  | define hmade hm hdefines =>
    rename_i w₁ symbol e m
    have hfills := fills_filled (hmade.titled h.titled) hmade.content?_self hm o.declaration
    refine ⟨hfills.titled, fun key n hnone hn hkind => ?_⟩
    have hn₁ : w₁.forest.content? key = some n := by
      rcases hfills.added key n hn with hn₁ | henum
      · exact hn₁
      · rw [hkind] at henum
        cases henum
    rw [hfills.children]
    by_cases hkey : key = e
    · subst hkey
      obtain rfl := Option.some.inj (hmade.content?_self.symm.trans hn₁)
      rw [if_pos rfl]
      obtain rfl := hmade.symbol_eq h.titled (by rw [hkind]; rfl)
      cases hmade with
      | found hold =>
        obtain ⟨entries, hsub, hne, hall, hnames⟩ := h.listed key m hnone hold hkind
        refine ⟨entries ++ [o], hsub.append_right [o], by simp, fun b hb => ?_, ?_⟩
        · rcases List.mem_append.mp hb with hb | hb
          · exact hall b hb
          · exact List.mem_singleton.mp hb ▸ hdefines
        · rw [hnames, List.flatMap_append, List.flatMap_singleton]
      | grown hp hopen hadds hsymbol =>
        rename_i parent p
        have hempty : childNames (w.grow parent m [m.symbol]) w.forest.nextId = [] := by
          rw [childNames_grow h.titled.wellFormed hp hadds.fresh,
            if_neg (Forest.ne_nextId_of_content? hp).symm, childNames, Forest.children,
              Forest.node?_nextId]
          rfl
        refine ⟨[o], List.sublist_append_right log [o], by simp, fun b hb => ?_, ?_⟩
        · exact List.mem_singleton.mp hb ▸ hdefines
        · rw [hempty, List.flatMap_singleton, List.nil_append]
    · rw [hmade.content?_of_ne hkey] at hn₁
      rw [if_neg hkey, List.append_nil, hmade.childNames_of_ne h.titled hn₁ hkind]
      exact (h.listed key n hnone hn₁ hkind).snoc o

/-- Before the first pass only symbols have to tell where nodes stand. -/
theorem Kept.start (h : Titled w) : Kept s w [] w where
  titled := h
  listed e n hnone hn := by simp [hnone] at hn

/-- A run keeps up what each of its steps does. -/
theorem Kept.run {w₀ : Workspace} {log log' : List Origin} (h : Kept s w₀ log w)
    (hrun : Run (Step s) w log' w') : Kept s w₀ (log ++ log') w' := by
  induction hrun with
  | refl => rwa [List.append_nil]
  | tail _ hstep ih => exact List.append_assoc log _ _ ▸ ih.step hstep

/-- A type is entered by the units that supply it, at the node of its symbol. -/
theorem enteredType_cases {top : NodeId} (hm : w.forest.content? top = some m)
    (hcontainer : m.kind.isHolder = true) (hopen : m.kind ≠ .enumeration)
    (hd : d.kind = .classType ∨ d.kind = .enumeration) {symbol : String}
    (hsymbol : Symbol.qualify m.symbol d.name = symbol) :
    enteredType s (some u.path) top d symbol w = (none, w) ∨
      ∃ inner n w₁, enteredType s (some u.path) top d symbol w = (some inner, w₁) ∧
        Made w symbol inner n w₁ ∧ n.kind = d.kind ∧
          (w.forest.content? inner = none → n.name = d.name) ∧ d.access = .exposed ∧
        d.flags.isDefinition = true ∧ s.ownsDefinition symbol u.path = true := by
  simp only [enteredType, Option.all_some]
  split
  · exact .inl rfl
  · rename_i hgate
    simp only [Bool.or_eq_true, bne_iff_ne, Bool.not_eq_true', not_or, Bool.not_eq_false,
      Bool.not_eq_true, not_not] at hgate
    obtain ⟨⟨⟨hname, haccess⟩, hdefinition⟩, -⟩ := hgate
    by_cases howns : s.ownsDefinition symbol u.path = true
    · right
      split
      · rename_i existing hexisting
        obtain ⟨hget, hkind⟩ := Option.filter_eq_some_iff.mp hexisting
        obtain ⟨n, hn⟩ := (Forest.contains_iff_content? _ _).mp
          (Option.filter_eq_some_iff.mp hget).2
        rw [beq_iff_eq, Globals.node_kind hn] at hkind
        have hold : w.forest.content? existing = none → n.name = d.name :=
          fun hnone => by simp [hnone] at hn
        exact ⟨existing, n, w, by rw [if_pos howns], .found hn hget, hkind, hold, haccess,
          hdefinition, howns⟩
      · have hnew : Made w symbol w.forest.nextId (typeNode d symbol (some u.path)) _ :=
          .grown hm hopen (hsymbol ▸ adds_type hcontainer hd trivial hname) rfl
        exact ⟨_, _, _, if_pos howns, hnew, rfl, fun _ => rfl, haccess, hdefinition, howns⟩
    · left
      split
      · rw [if_neg howns]
      · rw [if_neg howns]

theorem content?_enumerator_added {e : NodeId} {k : Node} (x : Declaration)
    (hk : w.forest.content? id = some k) :
    (added e x w).forest.content? id = some k := by
  rw [added]
  split
  · exact Workspace.content?_grow_of_some ⟨rfl, rfl, rfl⟩ hk
  · exact hk

theorem content?_filled {e : NodeId} {k : Node} (d : Declaration)
    (hk : w.forest.content? id = some k) :
    (filled e d w).forest.content? id = some k := by
  unfold filled
  induction d.enumerators generalizing w with
  | nil => exact hk
  | cons x rest ih => exact ih (content?_enumerator_added x hk)

/-- A step keeps what is there. -/
theorem Step.content? {o : Origin} (h : Step s o w w') {k : Node}
    (hk : w.forest.content? id = some k) : w'.forest.content? id = some k := by
  cases h with
  | stay => exact hk
  | make hmade => exact hmade.content?_of_some hk
  | define hmade => exact content?_filled _ (hmade.content?_of_some hk)

/-- A step keeps names and nodes in agreement. -/
theorem Step.titled {o : Origin} (h : Step s o w w') (htitled : Titled w) : Titled w' := by
  cases h with
  | stay => exact htitled
  | make hmade => exact hmade.titled htitled
  | define hmade hkind =>
    exact (fills_filled (hmade.titled htitled) hmade.content?_self hkind _).titled

/-- A place that is open stays open while more is added. -/
theorem Step.isOpen {o : Origin} {around : List String} (h : Step s o w w')
    (hopen : IsOpen around id w) :
    IsOpen around id w' := by
  obtain ⟨m, hm, hnode⟩ := hopen.node
  exact ⟨h.titled hopen.titled, m, h.content? hm, hnode⟩

/-- A namespace or class that is made bears its name behind those of the node it is made below. -/
theorem Made.isOpen {around : List String} {name : String} {w₁ : Workspace}
    (h : Made w (Symbol.qualify m.symbol name) id n w₁) (htitled : Titled w) (hm : m.Joins around)
    (hkind : n.kind = .nameSpace ∨ n.kind = .classType) : IsOpen (around ++ [name]) id w₁ := by
  have hqualifies : n.kind.qualifies = true :=
    by rcases hkind with hkind | hkind <;> simp [hkind, Kind.qualifies]
  refine ⟨h.titled htitled, n, h.content?_self, h.joins htitled hm hqualifies, ?_⟩
  rcases hkind with hkind | hkind <;> simp [hkind, Kind.isHolder]

variable {around : List String} {top : NodeId}

/-- A namespace is entered where its parent has one of its name, and made otherwise. -/
theorem step_enteredNamespace (hkind : d.kind = .nameSpace) (hopen : IsOpen around top w) :
    Step s ⟨u, around, d⟩ w (enteredNamespace top d w).2 ∧
      ∀ inner, (enteredNamespace top d w).1 = some inner →
      IsOpen (around ++ [d.name]) inner (enteredNamespace top d w).2 := by
  obtain ⟨m, hm, hjoins, hcontainer, hscope⟩ := hopen.node
  have hsymbol : (w.node top).symbol = m.symbol := by rw [← Workspace.node_unlinked hm]; rfl
  rw [enteredNamespace, hsymbol]
  split
  · exact ⟨.stay, fun _ hinner => by cases hinner⟩
  · rename_i hname
    split
    · rename_i existing hfind
      refine ⟨.stay, fun inner hinner => ?_⟩
      obtain rfl := Option.some.inj hinner
      have hfound := List.find?_some hfind
      obtain ⟨n, hn, hspace⟩ := (Option.any_eq_true _ _).mp hfound
      rw [Bool.and_eq_true, beq_iff_eq, beq_iff_eq] at hspace
      have hcontent := Forest.content?_of_node? hn
      have hparent := (hopen.titled.wellFormed.links top _).mp (List.mem_of_find?_eq_some hfind)
      have hqualified : n.unlinked.symbol = Symbol.qualify m.symbol n.unlinked.name :=
        hopen.titled.stands _ _ _ m hcontent (Kind.qualifies_iff.mpr (.inl hspace.1)) hparent hm
      have hnonempty : n.unlinked.symbol ≠ "" :=
        hopen.titled.nonempty _ _ hcontent (by rw [Node.unlinked_kind, hspace.1]; rfl)
      refine ⟨hopen.titled, n.unlinked, hcontent, hspace.2 ▸ hjoins.below hqualified hnonempty, ?_⟩
      rw [Node.unlinked_kind, hspace.1]
      exact ⟨rfl, by decide⟩
    · have hmade : Made w (Symbol.qualify m.symbol d.name) w.forest.nextId _ (w.grow top
          { kind := .nameSpace, name := d.name, symbol := Symbol.qualify m.symbol d.name }
          [Symbol.qualify m.symbol d.name]) :=
        .grown hm hscope (adds_space hcontainer trivial (Bool.not_eq_true _ ▸ hname)) rfl
      exact ⟨.make hmade (.inl rfl) fun _ => ⟨hkind.symm, rfl⟩,
        fun inner hinner => Option.some.inj hinner ▸ hmade.isOpen hopen.titled hjoins (.inl rfl)⟩

/-- Entering anything but an enum is a step, which leads to where more can be added. -/
theorem step_entered (hproxy : d.isProxy = false) (hclosed : d.kind ≠ .enumeration)
    (hopen : IsOpen around top w) :
    Step s ⟨u, around, d⟩ w ((builder s (some u.path)).enter top d w).2 ∧
      ∀ inner, ((builder s (some u.path)).enter top d w).1 = some inner →
        IsOpen (around ++ d.opened) inner ((builder s (some u.path)).enter top d w).2 := by
  obtain ⟨m, hm, hjoins, hcontainer, hscope⟩ := hopen.node
  have hsymbol : (w.node top).symbol = m.symbol := by rw [← Workspace.node_unlinked hm]; rfl
  simp only [builder, entered]
  split
  · rename_i hkind
    rw [Declaration.opened_of_passed (.inl (by rw [hkind]; rfl)), List.append_nil]
    exact ⟨.stay, fun inner hinner => Option.some.inj hinner ▸ hopen⟩
  · rename_i hkind
    rw [Declaration.opened_of_qualifies (by rw [hkind]; rfl) hproxy]
    exact step_enteredNamespace hkind hopen
  · rename_i hkind
    rw [Declaration.opened_of_qualifies (by rw [hkind]; rfl) hproxy, hsymbol]
    rcases @enteredType_cases s u d w m top hm hcontainer hscope (.inl hkind) _ rfl with
      hnone | ⟨inner, n, w₁, hentered, hmade, hsame, hnamed, -⟩
    · rw [hnone]
      exact ⟨.stay, fun _ hinner => by cases hinner⟩
    · rw [hentered]
      have hclass : n.kind = .nameSpace ∨ n.kind = .classType := .inr (hsame.trans hkind)
      exact ⟨.make hmade hclass fun hnone => ⟨hsame, hnamed hnone⟩,
        fun key hkey => Option.some.inj hkey ▸ hmade.isOpen hopen.titled hjoins hclass⟩
  · rename_i hkind
    exact absurd hkind hclosed
  · exact ⟨.stay, fun _ hinner => by cases hinner⟩

/-- The first pass over a unit is a run of its steps. -/
theorem logs (s : Surroundings) (u : HeaderUnit) :
    (builder s (some u.path)).Logs u Declaration.Lists (· == .enumeration) (Step s) IsOpen where
  mono := Step.isOpen
  whole {around d top w} hlists hproxy hclosed hopen := by
    rw [beq_iff_eq] at hclosed
    obtain ⟨m, hm, hjoins, hcontainer, hscope⟩ := hopen.node
    have hsymbol : (w.node top).symbol = m.symbol := by rw [← Workspace.node_unlinked hm]; rfl
    have henter : (builder s (some u.path)).enter top d w =
        enteredType s (some u.path) top d (Symbol.qualify m.symbol d.name) w := by
      simp only [builder, entered, hclosed, hsymbol]
    rw [Builder.build_eq, if_neg (by simp [hclosed, hproxy]), if_pos (by rw [hclosed]; rfl), henter]
    rcases @enteredType_cases s u d w m top hm hcontainer hscope (.inr hclosed) _ rfl with
      hnone | ⟨inner, n, w₁, hentered, hmade, hkind, -, haccess, hdefinition, howns⟩
    · rw [hnone]
      exact .stay
    · rw [hentered]
      have hfilled : (builder s (some u.path)).buildAll inner d.children w₁ = filled inner d w₁ :=
        buildAll_enumerated d.children (hlists hclosed hproxy) w₁
      simp only [hfilled]
      have hdefines : Defines s (Symbol.qualify m.symbol d.name) ⟨u, around, d⟩ :=
        ⟨hclosed, hdefinition, haccess, (hjoins.qualify d.name).symm, howns⟩
      exact .define (o := ⟨u, around, d⟩) hmade (hkind.trans hclosed) hdefines
  enter _ hproxy hclosed _ hopen := step_entered hproxy (by simpa using hclosed) hopen
  leaf {around d top w} _ _ hopen := by
    obtain ⟨m, hm, -, -, hkind⟩ := hopen.node
    have hleaf : (builder s (some u.path)).leaf top d w = w := by
      simp only [builder, added, Globals.node_kind hm]
      rw [if_neg (by simp [hkind])]
    rw [hleaf]
    exact .stay

/-- The first pass is a run of its steps over the declarations of the units. -/
theorem run_apply {units : List HeaderUnit} (h : Titled w)
    (hroot : w.forest.content? s.root = some Node.root) (hregular : ∀ u ∈ units, u.root.Regular) :
    ∃ log : List Origin, log.Sublist (originsIn units) ∧
      Run (Step s) w log (RawPass.containers.apply s units w) := by
  rw [RawPass.apply_eq]
  exact Builder.Logs.foldl (fun w => Titled w ∧ w.forest.content? s.root = some Node.root)
    (fun u _ => logs s u) (fun u hu d hd => Declaration.lists_of_nested u.root .file
      (hregular u hu) d hd)
    (fun u _ w hw => ⟨hw.1, Node.root, hw.2, .root, rfl, by decide⟩)
    (fun hstep hw => ⟨hstep.titled hw.1, hstep.content? hw.2⟩) ⟨h, hroot⟩

end Export.Containers

/-- A class or enum is registered if it is there, whatever it is linked to. -/
theorem Overlay.Symbols.hasTypeAt_iff_content? {s : Symbols} {f : Forest} {symbol : String}
    {id : NodeId} :
    s.HasTypeAt f symbol id ↔ s.entries.get? symbol = some id ∧
      ∃ n, f.content? id = some n ∧ (n.kind = .classType ∨ n.kind = .enumeration) := by
  refine and_congr_right fun _ => ⟨?_, ?_⟩
  · rintro ⟨n, hn, hkind⟩
    exact ⟨n.unlinked, Forest.content?_of_node? hn, hkind⟩
  · rintro ⟨k, hk, hkind⟩
    obtain ⟨n, hn, rfl⟩ := Option.map_eq_some_iff.mp hk
    exact ⟨n, hn, hkind⟩

/-- Whether the node `k` of a base class stands for a base clause of the class `m`: it is called
like the class that the clause refers to from inside of `m`. -/
structure Origin.Inherits (s : Surroundings) (w : Workspace) (m : Node) (o : Origin) (k : Node) :
    Prop where
  kind : o.declaration.kind = .baseClass
  base : ∃ type id base, o.declaration.type? = some type ∧
    (s.mapper w m.symbol).typeNamed? type.typeName = some id ∧
    w.forest.content? id = some base ∧ base.kind = .classType ∧
    k.unlinked = { kind := .baseClass, name := base.name, symbol := base.symbol,
                   access := o.declaration.access }

/-- Whether the node `k` below the class `m` is what a public declaration in the definition of the
class stands for. -/
structure Origin.Supplies (s : Surroundings) (w : Workspace) (m : Node) (o : Origin) (k : Node) :
    Prop where
  scope : m.symbol = o.scope
  access : o.declaration.access = .exposed
  member : k.isMember = true → k.unlinked = o.exported m
  base : k.kind = .baseClass → o.Inherits s w m k

namespace Export.Members

open Export.Containers

variable {s : Surroundings} {units : List HeaderUnit} {w₁ w w' : Workspace} {o : Origin}
    {u : HeaderUnit}
  {around : List String} {d : Declaration} {parent : NodeId} {m n : Node}

/-- What the second pass adds is no class and no enum. -/
theorem kind_ne_of_memberNode? (h : memberNode? s w (some u.path) parent d = some n) :
    ¬(n.kind = .classType ∨ n.kind = .enumeration) := by
  have hleaf := isHolder_of_memberNode? h
  rintro (hkind | hkind)
  all_goals
    rw [hkind] at hleaf
    cases hleaf

/-- What the second pass adds below a class is what its declaration stands for. -/
theorem supplies_of_memberNode? (hm : w.forest.content? parent = some m)
    (hscope : m.symbol = o.scope) (haccess : o.declaration.access = .exposed)
    (h : memberNode? s w (some o.unit.path) parent o.declaration = some n) :
    o.Supplies s w m n := by
  obtain rfl := (Workspace.node_unlinked hm).symm
  refine ⟨hscope, haccess, fun hmember => ?_, fun hkind => ?_⟩
  · rw [(eq_of_memberNode? hm h hmember).1, Declaration.exported_unlinked, hscope]
    rfl
  · rcases memberNode?_cases h with ⟨hcallable, -⟩ | ⟨hvariable, -⟩ | ⟨-, hbase, hn⟩
    · simp [isCallable, hkind] at hcallable
    · simp [hkind, Kind.isVariable] at hvariable
    · refine ⟨hbase, ?_⟩
      simp only [baseNode?, Option.bind_eq_bind] at hn
      split at hn
      · cases hn
      · obtain ⟨type, htype, hn⟩ := Option.bind_eq_some_iff.mp hn
        obtain ⟨id, hid, hn⟩ := Option.bind_eq_some_iff.mp hn
        obtain ⟨base, hbase, hn⟩ := Option.bind_eq_some_iff.mp hn
        split at hn
        · cases hn
        · rename_i hclass
          cases hn
          exact ⟨type, id, base.unlinked, htype, hid, Forest.content?_of_node? hbase,
            by simpa using hclass, rfl⟩

/-- What the second pass over `units` keeps up on its way from `w₁` to `w`. -/
structure Traced (s : Surroundings) (units : List HeaderUnit) (w₁ w : Workspace) : Prop where
  titled : Titled w
  kept : ∀ id k, w₁.forest.content? id = some k → w.forest.content? id = some k
  supplied : ∀ c k p m, w₁.forest.content? c = none → w.forest.content? c = some k →
    w.forest.parent? c = some p → w.forest.content? p = some m → m.kind = .classType →
    ∃ o ∈ originsIn units, s.ownsDefinition m.symbol o.unit.path = true ∧ o.Supplies s w m k
  types : ∀ id n, w.forest.content? id = some n → n.kind = .classType ∨ n.kind = .enumeration →
    w₁.forest.content? id = some n
  listed : ∀ e n, w₁.forest.content? e = some n → n.kind = .enumeration →
    childNames w e = childNames w₁ e

theorem Traced.refl (h : Titled w) : Traced s units w w where
  titled := h
  kept _ _ hk := hk
  supplied c k p m hnone hk := by simp [hnone] at hk
  types _ _ hn _ := hn
  listed _ _ _ _ := rfl

section Addition

/- A member of `d` is added below `parent`. -/
variable (hopen : IsOpen s u around parent w) (hn : memberNode? s w (some u.path) parent d = some n)
include hopen hn

/-- Members take no name from a type, so a name refers to the type that it referred to before. -/
theorem typeNamed?_added (scope name : String) :
    (s.mapper (w.grow parent n (unused w (symbolKeys n))) scope).typeNamed? name =
      (s.mapper w scope).typeNamed? name := by
  refine Symbols.typeNamed?_congr (fun symbol id => ?_) scope name
  change (w.grow parent n (unused w (symbolKeys n))).symbols.HasTypeAt
    (w.grow parent n (unused w (symbolKeys n))).forest symbol id ↔
      w.symbols.HasTypeAt w.forest symbol id
  rw [Symbols.hasTypeAt_iff_content?, Symbols.hasTypeAt_iff_content?]
  constructor
  · rintro ⟨hget, k, hk, hkind⟩
    have hold : id ≠ w.forest.nextId := by
      rintro rfl
      rw [content?_added hopen hn, if_pos rfl] at hk
      exact kind_ne_of_memberNode? hn (Option.some.inj hk ▸ hkind)
    rw [content?_added hopen hn, if_neg hold] at hk
    rw [Workspace.get?_grow] at hget
    split at hget
    · exact absurd (Option.some.inj hget).symm hold
    · exact ⟨hget, k, hk, hkind⟩
  · rintro ⟨hget, k, hk, hkind⟩
    exact ⟨get?_grow_unused hget ⟨k, hk⟩, k, content?_added_of_some hopen hn hk, hkind⟩

/-- A declaration that supplies a node goes on supplying it when others are added. -/
theorem supplies_added {k : Node} (h : o.Supplies s w m k) :
    o.Supplies s (w.grow parent n (unused w (symbolKeys n))) m k := by
  refine ⟨h.scope, h.access, h.member, fun hkind => ?_⟩
  obtain ⟨hdeclared, type, id, base, htype, hid, hbase, hclass, heq⟩ := h.base hkind
  refine ⟨hdeclared, type, id, base, htype, ?_, content?_added_of_some hopen hn hbase, hclass, heq⟩
  rw [typeNamed?_added hopen hn, hid]

end Addition

section Origin

/- A member is added for an origin. -/
variable (hopen : IsOpen s o.unit o.around parent w) (ho : o ∈ originsIn units)
  (haccess : o.declaration.access = .exposed)
  (hn : memberNode? s w (some o.unit.path) parent o.declaration = some n)
include hopen ho haccess hn

/-- What is added below a class comes from a unit that supplies the class. -/
theorem Traced.supplied_added (h : Traced s units w₁ w) {c p : NodeId} {k m : Node}
    (hnone : w₁.forest.content? c = none)
    (hk : (w.grow parent n (unused w (symbolKeys n))).forest.content? c = some k)
    (hp : (w.grow parent n (unused w (symbolKeys n))).forest.parent? c = some p)
    (hm : (w.grow parent n (unused w (symbolKeys n))).forest.content? p = some m)
    (hclass : m.kind = .classType) :
    ∃ o ∈ originsIn units, s.ownsDefinition m.symbol o.unit.path = true ∧
      o.Supplies s (w.grow parent n (unused w (symbolKeys n))) m k := by
  have hf := h.titled.wellFormed
  rw [content?_added hopen hn] at hk
  rw [parent?_added hopen hn hf] at hp
  by_cases hc : c = w.forest.nextId
  · rw [if_pos hc] at hk hp
    obtain rfl := Option.some.inj hk
    obtain rfl := Option.some.inj hp
    obtain ⟨m', hm', hjoins, hscope⟩ := hopen.node
    obtain rfl := Option.some.inj ((content?_added_of_some hopen hn hm').symm.trans hm)
    rcases hscope with hkind | hkind | ⟨-, howns⟩
    · simp [hkind] at hclass
    · simp [hkind] at hclass
    · exact ⟨o, ho, howns,
        supplies_added hopen hn (supplies_of_memberNode? hm' hjoins.symbol haccess hn)⟩
  · rw [if_neg hc] at hk hp
    obtain ⟨m', hm', -⟩ := hf.exists_parent hp
    obtain rfl := Option.some.inj ((content?_added_of_some hopen hn hm').symm.trans hm)
    obtain ⟨o', ho', howns, hsupplies⟩ := h.supplied c k p m' hnone hk hp hm' hclass
    exact ⟨o', ho', howns, supplies_added hopen hn hsupplies⟩

/-- What is traced stays traced when a node is added, if the new one is traced itself. -/
theorem Traced.add (h : Traced s units w₁ w) :
    Traced s units w₁ (w.grow parent n (unused w (symbolKeys n))) := by
  obtain ⟨m, hm, hcontainer, hfresh, -⟩ := added_placed hopen hn
  refine ⟨h.titled.add hm hcontainer hfresh
    (Kind.qualifies_of_not_isHolder (isHolder_of_memberNode? hn)),
    fun id k hk => content?_added_of_some hopen hn (h.kept id k hk),
    fun _ _ _ _ => h.supplied_added hopen ho haccess hn, fun id k hk hkind => ?_,
      fun e k hk hkind => ?_⟩
  · rw [content?_added hopen hn] at hk
    split at hk
    · obtain rfl := Option.some.inj hk
      exact absurd hkind (kind_ne_of_memberNode? hn)
    · exact h.types id k hk hkind
  · have hne : e ≠ parent := by
      rintro rfl
      obtain ⟨m', hm', -, hscope⟩ := hopen.node
      obtain rfl := Option.some.inj (hm'.symm.trans (h.kept e k hk))
      simp [hkind] at hscope
    rw [childNames_grow h.titled.wellFormed hm hfresh, if_neg hne, List.append_nil]
    exact h.listed e k hk hkind

end Origin

/-- The second pass keeps every node traced, whatever headers it goes over. -/
theorem Traced.run {log : List Origin} (h : Titled w₁) (hlog : log.Sublist (originsIn units))
    (hrun : Run (Step s) w₁ log w) : Traced s units w₁ w := by
  refine hrun.induction (fun ho hstep htraced => ?_) (.refl h)
  cases hstep with
  | stay => exact htraced
  | add hopen haccess _ hn => exact htraced.add hopen (hlog.subset ho) haccess hn

end Export.Members

section Owner

variable {s : Surroundings} {units : List HeaderUnit} {owner : Path} {symbol : String}

end Owner

end Interop
