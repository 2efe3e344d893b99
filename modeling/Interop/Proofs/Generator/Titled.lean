import Interop.Proofs.Generator.Start

namespace Interop

/-- Whether the names of nodes of a kind become part of the symbols inside of them. -/
def Kind.qualifies : Kind → Bool
  | .nameSpace | .classType | .enumeration => true
  | _ => false

/-- It is namespaces, classes and enums that put their names in front of those inside of them. -/
theorem Kind.qualifies_iff {kind : Kind} :
    kind.qualifies = true ↔ kind = .nameSpace ∨ kind = .classType ∨ kind = .enumeration := by
  cases kind <;> simp [qualifies]

theorem Kind.isHolder_of_qualifies {kind : Kind} (h : kind.qualifies = true) :
    kind.isHolder = true := by
  rcases qualifies_iff.mp h with rfl | rfl | rfl <;> rfl

theorem Kind.qualifies_of_not_isHolder {kind : Kind} (h : kind.isHolder = false) :
    kind.qualifies = false := by
  rw [← Bool.not_eq_true] at h ⊢
  exact mt isHolder_of_qualifies h

/-- A qualified name is never empty if the name is not. -/
theorem Symbol.qualify_ne_empty {scope name : String} (hname : name ≠ "") :
    qualify scope name ≠ "" := by
  unfold qualify
  split
  · exact hname
  · exact fun hempty => hname (String.append_eq_empty_iff.mp hempty).2

namespace Overlay

variable {w w' : Workspace} {parent : NodeId} {m n : Node} {names : List String}

/-- Whether all names are registered for identifiers that have been given out. -/
def Workspace.Issued (w : Workspace) : Prop :=
  ∀ e ∈ w.symbols.entries.entries, e.2.index < w.forest.size

/-- Registering names for a node adds entries for these names only. -/
theorem mem_foldl_insert {id : NodeId} {e : String × NodeId} {names : List String} {s : Symbols}
    (h : e ∈ (names.foldl (·.insert · id) s).entries.entries) :
    e ∈ s.entries.entries ∨ e.1 ∈ names ∧ e.2 = id := by
  induction names generalizing s with
  | nil => exact .inl h
  | cons name rest ih =>
    rcases ih h with hinserted | ⟨hname, hid⟩
    · rcases Table.mem_put hinserted with hold | rfl
      · exact .inl hold
      · exact .inr ⟨List.mem_cons_self, rfl⟩
    · exact .inr ⟨List.mem_cons_of_mem name hname, hid⟩

namespace Workspace.Issued

/-- Names lead to places that have been given out, also when there are more of these. -/
theorem mono (h : w.Issued) (hsymbols : w'.symbols = w.symbols)
    (hsize : w.forest.size ≤ w'.forest.size) :
    w'.Issued :=
  fun e he => Nat.lt_of_lt_of_le (h e (hsymbols ▸ he)) hsize

/-- A node that is added is registered for its own place only. -/
theorem grow (h : w.Issued) (parent : NodeId) (n : Node) (names : List String) :
    (w.grow parent n names).Issued := by
  have hsize : (w.grow parent n names).forest.size = w.forest.size + 1 :=
    (Forest.size_attach ..).trans (Forest.size_push ..)
  intro e he
  rw [hsize]
  rcases mem_foldl_insert he with hold | ⟨-, heq⟩
  · exact Nat.lt_succ_of_lt (h e hold)
  · rw [heq]
    exact Nat.lt_succ_self _

/-- Dropping trees keeps the others titled. -/
theorem release (h : w.Issued) (held : List NodeId) : (w.release held).Issued :=
  h.mono rfl (Nat.le_of_eq (Forest.size_release w.forest held).symm)

/-- Dropping names keeps the others titled. -/
theorem prune (h : w.Issued) : Issued { w with symbols := w.symbols.prune w.forest } :=
  fun e he => h e (List.mem_filter.mp he).1

end Workspace.Issued

/-- Moving a global registers no name. -/
theorem Globals.Step.issued {root : NodeId} (hstep : Globals.Step root w w') (h : w.Issued) :
    w'.Issued := by
  cases hstep with
  | house => exact h.grow _ _ _
  | move => exact h.mono rfl (Nat.le_of_eq (Forest.size_attach ..).symm)
  | drop => exact h.mono rfl (Nat.le_of_eq (Forest.size_detach ..).symm)

/-- Whether a node bears the joined names of the namespaces and types around what it holds, the
outermost first. Only a node at the top bears no name at all. -/
structure Node.Joins (n : Node) (names : List String) : Prop where
  symbol : n.symbol = "::".intercalate names
  top : n.symbol = "" → names = []

theorem Node.Joins.root : Node.root.Joins [] :=
  ⟨rfl, fun _ => rfl⟩

/-- A name below a node comes behind the names that the node bears. -/
theorem Node.Joins.qualify (h : m.Joins names) (name : String) :
    Symbol.qualify m.symbol name = "::".intercalate (names ++ [name]) := by
  rw [Symbol.qualify]
  split
  · rename_i htop
    rw [h.top (String.isEmpty_iff.mp htop), List.nil_append, String.intercalate_singleton]
  · rename_i hbelow
    have hne : names ≠ [] := by
      rintro rfl
      exact hbelow (by rw [h.symbol]; rfl)
    rw [String.intercalate_append_of_ne_nil hne (List.cons_ne_nil _ _),
      String.intercalate_singleton, h.symbol]

/-- A node whose symbol is qualified by its parent's joins the parent's names and its own. -/
theorem Node.Joins.below {name : String} (h : m.Joins names)
    (hsymbol : n.symbol = Symbol.qualify m.symbol name) (hne : n.symbol ≠ "") :
    n.Joins (names ++ [name]) :=
  ⟨hsymbol.trans (h.qualify name), fun hempty => absurd hempty hne⟩

/-- Whether symbols tell where namespaces and types stand: each bears the symbol that it is
registered under, which is that of its name below its parent. -/
structure Titled (w : Workspace) : Prop where
  wellFormed : w.forest.WellFormed
  issued : w.Issued
  nonempty : ∀ id n, w.forest.content? id = some n → n.kind.qualifies = true → n.symbol ≠ ""
  titles : ∀ e ∈ w.symbols.entries.entries, ∀ n, w.forest.content? e.2 = some n →
    n.kind.qualifies = true → n.symbol = e.1
  stands : ∀ id parent n m, w.forest.content? id = some n → n.kind.qualifies = true →
    w.forest.parent? id = some parent → w.forest.content? parent = some m →
      n.symbol = Symbol.qualify m.symbol n.name

namespace Titled

theorem empty : Titled {} where
  wellFormed := Forest.wellFormed_empty
  issued _ he := nomatch he
  nonempty _ _ hn := by cases hn
  titles _ he := nomatch he
  stands _ _ _ _ hn := by cases hn

/-- A name that leads to a namespace, a class or an enum is the symbol of that node. -/
theorem symbol_eq (h : Titled w) {symbol : String} {id : NodeId} (hget : w.symbol? symbol = some id)
    (hn : w.forest.content? id = some n) (hkind : n.kind.qualifies = true) : n.symbol = symbol := by
  obtain ⟨hget, -⟩ := Option.filter_eq_some_iff.mp hget
  obtain ⟨before, after, hentries, -⟩ := List.lookup_eq_some_iff.mp hget
  exact h.titles (symbol, id) (hentries ▸ List.mem_append_right before List.mem_cons_self) n
    hn hkind

/-- Symbols tell where nodes stand after a node has been added whose symbol does. -/
theorem grow (h : Titled w) (hparent : w.forest.content? parent = some m)
    (hcontainer : m.kind.isContainer = true) (hfresh : n.IsFresh)
    (hnonempty : n.kind.qualifies = true → n.symbol ≠ "")
    (hnames : n.kind.qualifies = true → ∀ name ∈ names, n.symbol = name)
    (hstands : n.kind.qualifies = true → n.symbol = Symbol.qualify m.symbol n.name) :
    Titled (w.grow parent n names) := by
  have hcontent := Workspace.content?_grow (n := n) hfresh w parent
  have hparents := h.wellFormed.parent?_pushBelow hparent hfresh
  have hold : ∀ {id k}, id ≠ w.forest.nextId → (w.grow parent n names).forest.content? id = some k →
      w.forest.content? id = some k := by
    intro id k hid hk
    rwa [hcontent, if_neg hid] at hk
  have hnew : ∀ {k}, (w.grow parent n names).forest.content? w.forest.nextId = some k → k = n := by
    intro k hk
    rw [hcontent, if_pos rfl] at hk
    exact (Option.some.inj hk).symm
  refine ⟨h.wellFormed.pushBelow hparent hfresh hcontainer, h.issued.grow parent n names,
    fun id k hk => ?_, fun e he k hk hkind => ?_, fun id p k j hk hkind hp hj => ?_⟩
  · by_cases hid : id = w.forest.nextId
    · exact hnew (hid ▸ hk) ▸ hnonempty
    · exact h.nonempty id k (hold hid hk)
  · rcases mem_foldl_insert he with he | ⟨hname, hid⟩
    · have hid : e.2 ≠ w.forest.nextId :=
        fun heq => absurd (h.issued e he) (by rw [heq]; exact Nat.lt_irrefl _)
      exact h.titles e he k (hold hid hk) hkind
    · obtain rfl := hnew (hid ▸ hk)
      exact hnames hkind e.1 hname
  · by_cases hid : id = w.forest.nextId
    · subst hid
      obtain rfl := hnew hk
      obtain rfl : parent = p := Option.some.inj (((hparents _).trans (if_pos rfl)).symm.trans hp)
      obtain rfl := Option.some.inj
        (hparent.symm.trans (hold (Forest.ne_nextId_of_content? hparent) hj))
      exact hstands hkind
    · have hp' : w.forest.parent? id = some p := ((hparents id).trans (if_neg hid)).symm.trans hp
      obtain ⟨j', hj', -⟩ := h.wellFormed.exists_parent hp'
      exact h.stands id p k j (hold hid hk) hkind hp' (hold (Forest.ne_nextId_of_content? hj') hj)

/-- Symbols tell where nodes stand after anything has been added that stands for no namespace and no
type. -/
theorem add (h : Titled w) (hparent : w.forest.content? parent = some m)
    (hcontainer : m.kind.isContainer = true) (hfresh : n.IsFresh)
    (hkind : n.kind.qualifies = false) : Titled (w.grow parent n names) := by
  have hno : ¬n.kind.qualifies = true := Bool.not_eq_true _ ▸ hkind
  exact h.grow hparent hcontainer hfresh (fun hq => absurd hq hno) (fun hq => absurd hq hno)
    fun hq => absurd hq hno

theorem release (h : Titled w) (held : List NodeId) : Titled (w.release held) where
  wellFormed := h.wellFormed.release held
  issued := h.issued.release held
  nonempty id n hn := h.nonempty id n (h.wellFormed.content?_release.mp hn).1
  titles e he n hn := h.titles e he n (h.wellFormed.content?_release.mp hn).1
  stands id parent n m hn hkind hparent hm :=
    h.stands id parent n m (h.wellFormed.content?_release.mp hn).1 hkind
      (h.wellFormed.parent?_release.mp hparent).1
      (h.wellFormed.content?_release.mp hm).1

theorem prune (h : Titled w) : Titled { w with symbols := w.symbols.prune w.forest } where
  wellFormed := h.wellFormed
  issued := h.issued.prune
  nonempty := h.nonempty
  titles e he := h.titles e (List.mem_filter.mp he).1
  stands := h.stands

/-- A new root bears no name. -/
theorem plant (h : Titled w) : Titled (Generator.plant w).2 := by
  have hcontent : ∀ id, (Generator.plant w).2.forest.content? id =
      if id = w.forest.nextId then some Node.root else w.forest.content? id :=
    fun id => Forest.content?_push w.forest Node.root id
  have hold : ∀ {id n}, (Generator.plant w).2.forest.content? id = some n →
      n.kind = .file ∨ w.forest.content? id = some n := by
    intro id n hn
    rw [hcontent] at hn
    split at hn
    · exact .inl (Option.some.inj hn ▸ rfl)
    · exact .inr hn
  have hsize : w.forest.size ≤ (Generator.plant w).2.forest.size := by
    rw [show (Generator.plant w).2.forest.size = w.forest.size + 1 from Forest.size_push ..]
    exact Nat.le_succ _
  refine ⟨Generator.plant_wellFormed h.wellFormed, h.issued.mono rfl hsize, fun id n hn hkind => ?_,
    fun e he n hn hkind => ?_, fun id parent n m hn hkind hparent hm => ?_⟩
  · rcases hold hn with hfile | hn
    · rw [hfile] at hkind
      cases hkind
    · exact h.nonempty id n hn hkind
  · rcases hold hn with hfile | hn
    · rw [hfile] at hkind
      cases hkind
    · exact h.titles e he n hn hkind
  · have hparent' : w.forest.parent? id = some parent :=
      (Forest.parent?_push rfl id).symm.trans hparent
    obtain ⟨m', hm', -⟩ := h.wellFormed.exists_parent hparent'
    obtain rfl : m' = m := by
      rw [hcontent, if_neg (Forest.ne_nextId_of_content? hm'), hm'] at hm
      exact Option.some.inj hm
    rcases hold hn with hfile | hn
    · rw [hfile] at hkind
      cases hkind
    · exact h.stands id parent n m' hn hkind hparent' hm'

/-- The classes for globals are new, and what moves is no namespace. -/
theorem step {root : NodeId} (h : Titled w) (hstep : Globals.Step root w w') : Titled w' := by
  have hlinks : (∀ id, w'.forest.content? id = w.forest.content? id) → w'.symbols = w.symbols →
      Titled w' := by
    intro hcontent hsymbols
    refine ⟨hstep.wellFormed h.wellFormed, hstep.issued h.issued,
      fun id n hn => h.nonempty id n (hcontent id ▸ hn),
      fun e he n hn => h.titles e (hsymbols ▸ he) n (hcontent e.2 ▸ hn),
        fun id parent n m hn hkind hparent hm => ?_⟩
    rw [hcontent] at hn hm
    have hcontainer := Kind.isContainer_of_isHolder (Kind.isHolder_of_qualifies hkind)
    rcases hstep.parent?_cases h.wellFormed hn hcontainer with hsame | ⟨-, hnone, -⟩
    · exact h.stands id parent n m hn hkind (hsame ▸ hparent) hm
    · rw [hnone] at hparent
      cases hparent
  cases hstep with
  | house hscope hkind hwithin =>
    refine h.grow hscope (Globals.isContainer_of_isScope hkind) (Globals.isFresh_home _)
      (fun _ => ?_)
      (fun _ name hname => (List.mem_singleton.mp hname).symm) fun _ => rfl
    exact Symbol.qualify_ne_empty (by decide)
  | move => exact hlinks (fun id => Forest.content?_attach ..) rfl
  | drop => exact hlinks (fun id => Forest.content?_detach ..) rfl

/-- Moving globals keeps names and nodes in agreement. -/
theorem steps {root : NodeId} (h : Titled w) (hsteps : Globals.Steps root w w') : Titled w' := by
  induction hsteps with
  | refl => exact h
  | tail _ hstep ih => exact ih.step hstep

/-- Naming keeps kinds, names and symbols. -/
theorem reshaped (h : Titled w) (hshapes : w.Reshaped w') : Titled w' := by
  have hkept : ∀ {n n' : Node}, n'.shape = n.shape → n'.kind = n.kind ∧ n'.name = n.name ∧
      n'.symbol = n.symbol :=
    fun hshape => ⟨Node.kind_eq_of_shape hshape, Node.eq_of_shape Node.name (fun _ => rfl) hshape,
      Node.eq_of_shape Node.symbol (fun _ => rfl) hshape⟩
  refine ⟨hshapes.wellFormed h.wellFormed,
    h.issued.mono hshapes.symbols (Nat.le_of_eq hshapes.size.symm), fun id n' hn' => ?_,
    fun e he n' hn' => ?_, fun id parent n' m' hn' hkind hparent hm' => ?_⟩
  · obtain ⟨n, hn, hshape⟩ := hshapes.exists_content hn'
    obtain ⟨hkind, -, hsymbol⟩ := hkept hshape
    exact hkind ▸ hsymbol ▸ h.nonempty id n hn
  · obtain ⟨n, hn, hshape⟩ := hshapes.exists_content hn'
    obtain ⟨hkind, -, hsymbol⟩ := hkept hshape
    exact hkind ▸ hsymbol ▸ h.titles e (hshapes.symbols ▸ he) n hn
  · obtain ⟨n, hn, hshape⟩ := hshapes.exists_content hn'
    obtain ⟨m, hm, hshape'⟩ := hshapes.exists_content hm'
    obtain ⟨hsame, hname, hsymbol⟩ := hkept hshape
    rw [hsymbol, hname, (hkept hshape').2.2]
    exact h.stands id parent n m hn (hsame ▸ hkind)
      ((hshapes.parent?_eq id).symm.trans hparent) hm

/-- What a raw pass adds one by one bears symbols that tell where it stands. -/
theorem grows {adds : Workspace → Node → Node → List String → Prop} (h : Titled w)
    (hadds : ∀ {w m n names}, adds w m n names → n.IsFresh ∧ m.kind.isContainer = true ∧
      (n.kind.qualifies = true →
        n.name ≠ "" ∧ n.symbol = Symbol.qualify m.symbol n.name ∧ ∀ name ∈ names, n.symbol = name))
    (hgrows : Relation.ReflTransGen (Export.Grows adds) w w') : Titled w' := by
  induction hgrows with
  | refl => exact h
  | tail _ hstep ih =>
    cases hstep with
    | grow hparent hnew =>
      obtain ⟨hfresh, hcontainer, hsymbol⟩ := hadds hnew
      refine ih.grow hparent hcontainer hfresh (fun hkind => ?_) (fun hkind => (hsymbol hkind).2.2)
        fun hkind => (hsymbol hkind).2.1
      obtain ⟨hname, heq, -⟩ := hsymbol hkind
      exact heq ▸ Symbol.qualify_ne_empty hname

end Titled

end Overlay

open Overlay Export

variable {s : Surroundings} {w : Workspace} {units : List HeaderUnit}

/-- The first pass registers what it adds under the symbol it gives it. -/
theorem Export.Containers.Adds.titled {fits : Kind → Kind → Prop} {m n : Node} {names : List String}
    (h : Containers.Adds fits w m n names) : n.IsFresh ∧ m.kind.isContainer = true ∧
      (n.kind.qualifies = true →
        n.name ≠ "" ∧ n.symbol = Symbol.qualify m.symbol n.name ∧
            ∀ name ∈ names, n.symbol = name) := by
  refine ⟨h.fresh, Kind.isContainer_of_isHolder h.container, fun hkind => ?_⟩
  have hholder := Kind.isHolder_of_qualifies hkind
  refine ⟨fun hempty => ?_, h.symbol, fun name hname => ?_⟩
  · have hnamed := h.named hholder
    rw [hempty] at hnamed
    cases hnamed
  · rw [h.keyed hholder] at hname
    exact (List.mem_singleton.mp hname).symm

/-- The second pass adds nothing that puts its name around others. -/
theorem Export.Members.Adds.titled {m n : Node} {names : List String}
    (h : Members.Adds s w m n names) :
    n.IsFresh ∧ m.kind.isContainer = true ∧
      (n.kind.qualifies = true →
        n.name ≠ "" ∧ n.symbol = Symbol.qualify m.symbol n.name ∧
            ∀ name ∈ names, n.symbol = name) :=
  ⟨h.fresh, (Interop.Members.Adds.holds h).2, fun hkind => by
    rw [Kind.qualifies_of_not_isHolder h.leaf] at hkind
    cases hkind⟩

/-- A raw pass keeps names and nodes in agreement. -/
theorem RawPass.apply_titled (hrooted : Rooted s w) (h : Titled w) (pass : RawPass) :
    Titled (pass.apply s units w) := by
  cases pass with
  | containers =>
    have hunits : ∀ u ∈ units, u.root.Nested (fun _ _ => True) .file :=
      fun u _ => Declaration.nested_of_forall (fun _ _ => trivial) u.root .file
    exact h.grows Containers.Adds.titled (containers_grows hrooted hunits)
  | members => exact h.grows Members.Adds.titled (members_grows hrooted)

/-- So do several raw passes, one behind the other. -/
theorem RawPass.applyAll_titled (hrooted : Rooted s w) (h : Titled w) (passes : List RawPass) :
    Rooted s (passes.foldl (RawPass.apply s units) w) ∧
      Titled (passes.foldl (RawPass.apply s units) w) := by
  induction passes generalizing w with
  | nil => exact ⟨hrooted, h⟩
  | cons pass rest ih => exact ih (apply_rooted hrooted pass) (apply_titled hrooted h pass)

/-- An overlay pass keeps names and nodes in agreement. -/
theorem OverlayPass.apply_titled (hrooted : Rooted s w) (h : Titled w) (pass : OverlayPass) :
    Titled (pass.apply s w).1 := by
  cases pass with
  | globals =>
    obtain ⟨r, hr, hfile⟩ := hrooted.root
    obtain ⟨hsteps, -⟩ :=
      Globals.move_steps hrooted.wellFormed hr (Globals.isScope_iff.mpr (.inl hfile))
    exact (h.steps hsteps).release (s.root :: s.kept)
  | naming => exact h.reshaped (Naming.nameAll_reshaped s.settings w s.root)
  | bridge => exact h
  | managed => exact h

/-- So do several overlay passes, one behind the other. -/
theorem OverlayPass.applyAll_titled (hrooted : Rooted s w) (h : Titled w)
    (passes : List OverlayPass) :
    Titled (applyAll s w passes).1 := by
  induction passes generalizing w with
  | nil => exact h
  | cons pass rest ih => exact ih (apply_rooted hrooted pass) (apply_titled hrooted h pass)

/-- Passes over any headers leave symbols that tell where namespaces and types stand. -/
theorem Passes.apply_titled (hrooted : Rooted s w) (h : Titled w) (p : Passes) :
    Titled (p.apply s units w).1 := by
  obtain ⟨hraw, htitled⟩ := @RawPass.applyAll_titled s w units hrooted h p.raw
  exact OverlayPass.applyAll_titled hraw htitled p.overlay

namespace Generator

variable {g : Generator}

theorem plantAll_titled (h : Titled w) (rules : List ExportRules) :
    Titled (plantAll w rules).2 := by
  induction rules generalizing w with
  | nil => exact h
  | cons first rest ih => exact ih h.plant

/-- A namespace starts with names and nodes in agreement. -/
theorem restart_titled (h : Titled g.workspace) (others : List NodeId) :
    Titled (g.restart others).2 :=
  (h.plant.release _).prune

/-- Whatever has been loaded and generated, symbols tell where namespaces and types stand. -/
theorem Reached.titled (h : Reached w) : Titled w := by
  induction h with
  | start => exact .empty
  | load rules _ ih => exact (plantAll_titled ih rules.namespaces).release _
  | @run g others rules _ ih =>
    have htree : BareTree (g.surroundings others rules) (g.restart others).2 :=
      restart_bareTree ih.wellFormed rfl
    rw [generateOne_workspace]
    exact Passes.apply_titled htree.rooted (restart_titled ih others) g.passes

/-- In everything that is reached no name leads to a place that has not been given out yet. -/
theorem Reached.issued (h : Reached w) : w.Issued :=
  h.titled.issued

end Generator

end Interop
