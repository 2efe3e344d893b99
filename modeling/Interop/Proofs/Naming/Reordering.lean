import Interop.Proofs.Generator.Settled
import Interop.Proofs.Naming.Constants

namespace Interop

open Overlay Emit

namespace Overlay.Workspace

/-- Whether a workspace has the nodes of another one, in whatever order they stand below their
parents and whatever naming has made of them. -/
structure Rearranged (w w' : Workspace) : Prop where
  shapes : ∀ id, (w'.forest.node? id).map (·.childless.shape) =
    (w.forest.node? id).map (·.childless.shape)
  size : w'.forest.size = w.forest.size
  symbols : w'.symbols = w.symbols

/-- Workspaces of one shape have the same nodes. -/
theorem Reshaped.rearranged {w w' : Workspace} (h : w.Reshaped w') : w.Rearranged w' := by
  refine ⟨fun id => ?_, h.size, h.symbols⟩
  have hshape := congrArg (Option.map Node.childless) (h.shapes id)
  rwa [Option.map_map, Option.map_map] at hshape

/-- Workspaces whose forests differ in the order of children have the same nodes, if their tables
agree. -/
theorem Rearranged.of_reordered {w w' : Workspace} (h : w.forest.Reordered w'.forest)
    (hsymbols : w'.symbols = w.symbols) : w.Rearranged w' := by
  refine ⟨fun id => ?_, h.size, hsymbols⟩
  have hnode := congrArg (Option.map Node.shape) (h.nodes id)
  rwa [Option.map_map, Option.map_map] at hnode

namespace Rearranged

variable {w w' w'' : Workspace}

theorem symm (h : w.Rearranged w') : w'.Rearranged w :=
  ⟨fun id => (h.shapes id).symm, h.size.symm, h.symbols.symm⟩

theorem trans (h : w.Rearranged w') (h' : w'.Rearranged w'') : w.Rearranged w'' :=
  ⟨fun id => (h'.shapes id).trans (h.shapes id), h'.size.trans h.size, h'.symbols.trans h.symbols⟩

variable (h : w.Rearranged w')
include h

/-- What depends neither on children nor on names is the same for a node in both workspaces. -/
theorem map_node? {α : Type} (g : Node → α) (hg : ∀ n : Node, g n.childless.shape = g n)
    (id : NodeId) :
    (w'.forest.node? id).map g = (w.forest.node? id).map g := by
  have hshape := congrArg (Option.map g) (h.shapes id)
  rwa [Option.map_map, Option.map_map, show g ∘ (fun n : Node => n.childless.shape) =
    g from funext hg] at hshape

theorem elim_node? {α : Type} (b : α) (g : Node → α) (hg : ∀ n : Node, g n.childless.shape = g n)
    (id : NodeId) :
    (w'.forest.node? id).elim b g = (w.forest.node? id).elim b g := by
  have hmap := congrArg (·.elim b fun a => a) (h.map_node? g hg id)
  simp only [Option.elim_map] at hmap
  exact hmap

/-- What depends neither on children nor on names is the same for a node, also if there is none. -/
theorem node_eq {α : Type} (g : Node → α) (hg : ∀ n : Node, g n.childless.shape = g n)
    (id : NodeId) :
    g (w'.node id) = g (w.node id) := by
  have hmap := h.map_node? g hg id
  rw [Workspace.node_eq, Workspace.node_eq]
  cases hn : w.forest.node? id with
  | none =>
    rw [hn, Option.map_none, Option.map_eq_none_iff] at hmap
    rw [hmap]
  | some n =>
    rw [hn, Option.map_some] at hmap
    obtain ⟨n', hn', hsame⟩ := Option.map_eq_some_iff.mp hmap
    rw [hn']
    exact hsame

theorem contains_eq : w'.forest.contains = w.forest.contains := by
  funext id
  have hmap := congrArg Option.isSome (h.map_node? (fun _ => ()) (fun _ => rfl) id)
  rwa [Option.isSome_map, Option.isSome_map] at hmap

/-- The way up from a node is the same. -/
theorem lineage_eq : w'.forest.lineage = w.forest.lineage := by
  have hparent : ∀ id, w'.forest.parent? id = w.forest.parent? id := by
    intro id
    have hmap := congrArg (·.bind fun parent? => parent?)
      (h.map_node? Node.parent? (fun _ => rfl) id)
    simp only [Option.bind_map] at hmap
    exact hmap
  have hwithin : ∀ bound id,
      w'.forest.lineageWithin bound id = w.forest.lineageWithin bound id := by
    intro bound
    induction bound with
    | zero => exact fun _ => rfl
    | succ bound ih =>
      intro id
      simp only [Forest.lineageWithin, hparent, ih]
  funext id
  rw [Forest.lineage, Forest.lineage, h.size, hwithin]

theorem namesOf_eq (p : Kind → Bool) : w'.forest.namesOf p = w.forest.namesOf p := by
  funext ids
  have hname : ∀ id, (w'.forest.node? id).bind (fun n => if p n.kind then some n.name else none) =
      (w.forest.node? id).bind fun n => if p n.kind then some n.name else none := by
    intro id
    have hmap := congrArg (·.bind fun name? => name?)
      (h.map_node? (fun n => if p n.kind then some n.name else none) (fun _ => rfl) id)
    simp only [Option.bind_map] at hmap
    exact hmap
  simp only [Forest.namesOf, List.filterMap_filterMap, hname]

/-- Managed paths do not depend on the order of children. -/
theorem managedPath_eq (id : NodeId) : w'.forest.managedPath id = w.forest.managedPath id := by
  simp only [Forest.managedPath, Forest.ancestors, h.lineage_eq, h.namesOf_eq,
    h.elim_node? "" Node.name fun _ => rfl]

/-- What an expression stands for is told by names and symbols, and by what is around the user. -/
theorem denoted?_eq (settings : Settings) (user : NodeId) (expression : String) :
    Naming.denoted? settings w' user expression = Naming.denoted? settings w user expression := by
  have hconstant : ∀ symbol, w'.symbols.constantAt? w'.forest settings.replacements symbol =
      w.symbols.constantAt? w.forest settings.replacements symbol := by
    intro symbol
    rw [Symbols.constantAt?, Symbols.get?, h.symbols, h.contains_eq]
    rfl
  simp only [Naming.denoted?, Symbols.constant?, Symbols.constantCandidates, h.lineage_eq,
    h.elim_node? "" Node.symbol fun _ => rfl, funext hconstant]

end Rearranged

end Overlay.Workspace

namespace Naming

section Values

/-- The managed values that the pass gives to a node: the defaults of its parameters, and its own
value. -/
def managedValues (n : Node) : List (Option String) × Option String :=
  (n.parameters.map (·.managedDefault?), n.managedValue?)

theorem managedValues_core (n : Node) : managedValues (core n) = managedValues n :=
  rfl

theorem hasValues_core (n : Node) : hasValues (core n) = hasValues n :=
  rfl

/-- Whether a text is kept where there is one. -/
def Extends (text? text'? : Option String) : Prop :=
  ∀ text, text? = some text → text'? = some text

/-- A text between two others is one of them. -/
theorem Extends.squeezed {a b c : Option String} (hab : Extends a b) (hbc : Extends b c) :
    b = a ∨ b = c := by
  cases b with
  | some text => exact .inr (hbc text rfl).symm
  | none =>
    cases a with
    | none => exact .inl rfl
    | some text => cases hab text rfl

/-- Trailing defaults that end as they began were the same all the time. -/
theorem trailing_squeezed {α : Type} (items : List α) {f g h : α → Option String}
    (hfg : ∀ a, Extends (f a) (g a)) (hgh : ∀ a, Extends (g a) (h a))
    (heq : trailing (items.map h) = trailing (items.map f)) :
    trailing (items.map g) = trailing (items.map f) := by
  have hmono : ∀ {f g : α → Option String}, (∀ a, Extends (f a) (g a)) → ∀ items : List α,
      (items.map f).all (·.isSome) = true → (items.map g).all (·.isSome) = true := by
    intro f g hfg items hall
    simp only [List.all_map, List.all_eq_true, Function.comp_apply] at hall ⊢
    intro a ha
    obtain ⟨text, htext⟩ := Option.isSome_iff_exists.mp (hall a ha)
    rw [hfg a text htext]
    rfl
  induction items with
  | nil => rfl
  | cons a rest ih =>
    simp only [List.map_cons, trailing, List.cons.injEq] at heq ⊢
    refine ⟨?_, ih heq.2⟩
    by_cases hall : (rest.map f).all (·.isSome) = true
    · rw [if_pos (hmono hgh rest (hmono hfg rest hall)), if_pos hall] at heq
      rw [if_pos (hmono hfg rest hall), if_pos hall]
      exact ((hfg a).squeezed (hgh a)).elim id (·.trans heq.1)
    · rw [if_neg hall] at heq ⊢
      split
      · rename_i hlater
        rw [if_pos (hmono hgh rest hlater)] at heq
        cases hvalue : g a with
        | none => rfl
        | some text => cases heq.1.symm.trans (hgh a text hvalue)
      · rfl

variable {settings : Settings} {w t final : Workspace} {user id key : NodeId} {n : Node}
    {expression : String}

/-- The values of a function are the defaults of its parameters, of which only those at the end are
kept. -/
theorem managedValues_function (hcallable : isCallable n = true) :
    managedValues (valued settings w id n) =
      (trailing (n.parameters.map fun p => p.nativeDefault?.bind (managedDefault? settings w id)),
          n.managedValue?) := by
  have hdefaults : ∀ (parameters : List NodeParameter) (defaults : List (Option String)),
      defaults.length = parameters.length →
      (parameters.zipWith (fun p d => { p with managedDefault? := d }) defaults).map
          (·.managedDefault?) = defaults := by
    intro parameters
    induction parameters with
    | nil => exact fun defaults hlength => (List.length_eq_zero_iff.mp hlength).symm
    | cons p rest ih =>
      intro defaults hlength
      cases defaults with
      | nil => cases hlength
      | cons d ds => exact congrArg (d :: ·) (ih ds (Nat.succ_inj.mp hlength))
  rw [valued_function hcallable]
  exact congrArg (·, n.managedValue?)
    (hdefaults n.parameters _ (by rw [length_trailing, List.length_map]))

/-- Whether naming has gone further in one workspace than in another: it has the same nodes, and all
constants that were found are there. -/
structure Further (settings : Settings) (w w' : Workspace) : Prop where
  rearranged : w.Rearranged w'
  nameable : ∀ id, isNameable settings (w.node id) = true → isNameable settings (w'.node id) = true

/-- Naming may go further several times. -/
theorem Further.trans (h : Further settings w t) (h' : Further settings t final) :
    Further settings w final :=
  ⟨h.rearranged.trans h'.rearranged, fun id hid => h'.nameable id (h.nameable id hid)⟩

/-- An expression has the same text when what it stands for can be named as before. -/
theorem managedDefault?_congr (h : w.Rearranged t)
    (hname : ∀ id, denoted? settings w user expression = some (.node id) →
      isNameable settings (t.node id) = isNameable settings (w.node id)) :
    managedDefault? settings t user expression = managedDefault? settings w user expression := by
  rw [managedDefault?_eq, managedDefault?_eq, h.denoted?_eq]
  cases hdenoted : denoted? settings w user expression with
  | none => rfl
  | some constant =>
    cases constant with
    | replacement text => rfl
    | node id => simp only [Option.bind_some, constantText?, hname id hdenoted, h.managedPath_eq]

/-- A text that an expression has is kept when naming goes on. -/
theorem Further.extends (h : Further settings w t) (user : NodeId) (native? : Option String) :
    Extends (native?.bind (managedDefault? settings w user)) (native?.bind
      (managedDefault? settings t user)) := by
  intro text htext
  obtain ⟨expression, hnative, htext⟩ := Option.bind_eq_some_iff.mp htext
  rw [hnative, Option.bind_some, ← htext]
  refine managedDefault?_congr h.rearranged fun id hdenoted => ?_
  rw [managedDefault?_of_node hdenoted] at htext
  split at htext
  · rename_i hnameable
    rw [h.nameable id hnameable, hnameable]
  · cases htext

/-- A node that gets the same values before and after some naming gets them in between, too. -/
theorem managedValues_squeezed (hfirst : Further settings w t) (hlast : Further settings t final)
    (h : managedValues (valued settings final id n) = managedValues (valued settings w id n)) :
    managedValues (valued settings t id n) = managedValues (valued settings w id n) := by
  have hvalue := (hfirst.extends id n.nativeValue?).squeezed (hlast.extends id n.nativeValue?)
  by_cases hvalues : hasValues n = true
  · simp only [hasValues, Bool.or_eq_true, beq_iff_eq] at hvalues
    rcases hvalues with (hcallable | hvariable) | henumerator
    · rw [managedValues_function hcallable, managedValues_function hcallable, Prod.mk.injEq] at h ⊢
      exact ⟨trailing_squeezed n.parameters (fun p => hfirst.extends id p.nativeDefault?)
        (fun p => hlast.extends id p.nativeDefault?) h.1, rfl⟩
    · rw [valued_variable hvariable, valued_variable hvariable] at h ⊢
      rcases hvalue with hvalue | hvalue
      · rw [hvalue]
      · rw [hvalue, h]
    · rw [valued_enumerator henumerator, valued_enumerator henumerator] at h ⊢
      rcases hvalue with hvalue | hvalue
      · rw [hvalue]
      · rw [hvalue, h]
  · rw [valued_of_not_hasValues (Bool.not_eq_true _ ▸ hvalues),
      valued_of_not_hasValues (Bool.not_eq_true _ ▸ hvalues)]

end Values

section Steps

variable {settings : Settings} {w t final : Workspace} {id key : NodeId} {n : Node}
    {s : Used × Workspace}
  {ids before after : List NodeId}

/-- Naming a node loses no constants. -/
theorem entry_further (settings : Settings) (id : NodeId) (s : Used × Workspace) :
    Further settings s.2 (entry settings id s).2 := by
  have hshapes := entry_reshaped settings id s
  refine ⟨hshapes.rearranged, fun key hkey => ?_⟩
  rw [isNameable, Bool.or_eq_true] at hkey ⊢
  rw [Node.kind_eq_of_shape (hshapes.node_shape key)]
  exact hkey.imp_right isManagedConstant_entry

/-- Naming any nodes loses no constants. -/
theorem entries_further (settings : Settings) (ids : List NodeId) (s : Used × Workspace) :
    Further settings s.2 (entries settings ids s).2 := by
  induction ids generalizing s with
  | nil => exact ⟨(Workspace.Reshaped.refl s.2).rearranged, fun _ h => h⟩
  | cons id rest ih => exact (entry_further settings id s).trans (ih _)

/-- Whether every variable with a managed value is constant. -/
def ValuesConstant (w : Workspace) : Prop :=
  ∀ id, (w.node id).kind.isVariable = true → (w.node id).managedValue?.isSome = true →
    (w.node id).isConstant = true

/-- Whether a node can be named as a constant, as its value tells. -/
def isNameableBy (n : Node) (value? : Option String) : Bool :=
  n.kind == .enumerator || n.kind.isVariable && n.type?.any isSimpleType && value?.isSome

theorem isNameableBy_core (n : Node) : isNameableBy (core n) = isNameableBy n :=
  rfl

/-- When its value has been worked out, the value tells whether a node can be named. -/
theorem isNameable_valued
    (hconstant : n.kind.isVariable = true → n.managedValue?.isSome = true → n.isConstant = true) :
    isNameable settings (valued settings w id n) =
      isNameableBy n (valued settings w id n).managedValue? := by
  have hshape := valued_shape settings w id n
  have hkind : (valued settings w id n).kind = n.kind := Node.kind_eq_of_shape hshape
  have htype : (valued settings w id n).type? = n.type? :=
    Node.eq_of_shape Node.type? (fun _ => rfl) hshape
  by_cases hvariable : n.kind.isVariable = true
  · have hne : (n.kind == .enumerator) = false := by
      rcases isVariable_iff.mp hvariable with hkind | hkind | hkind <;> rw [hkind] <;> rfl
    rw [Bool.eq_iff_iff,
      isNameable_iff_of_variable (n := valued settings w id n) (hkind ▸ hvariable), isNameableBy,
      hne, hvariable, Bool.false_or, Bool.true_and, Bool.and_eq_true]
    constructor
    · intro hmanaged
      exact ⟨htype ▸ (isManagedConstant_iff.mp hmanaged).2.2.1,
        isSome_managedValue?_valued hmanaged hvariable⟩
    · rintro ⟨hsimple, hvalue⟩
      refine isManagedConstant_iff.mpr ⟨hkind ▸ hvariable, ?_, htype ▸ hsimple, .inl hvalue⟩
      rw [valued_variable hvariable] at hvalue ⊢
      cases hnative : n.nativeValue?.bind (managedDefault? settings w id) with
      | none =>
        rw [hnative] at hvalue
        exact hconstant hvariable hvalue
      | some value =>
        -- only a constant takes the value, and what had one before is constant
        rw [hnative, Option.elim_some, withValue_eq] at hvalue
        rw [Option.elim_some, withValue_eq]
        by_contra hnot
        change ¬(n.isConstant || settings.isForced value) = true at hnot
        change (if (n.isConstant || settings.isForced value) &&
          _ then _ else n.managedValue?).isSome = true at hvalue
        rw [eq_false_of_ne_true hnot, Bool.false_and, if_neg Bool.false_ne_true] at hvalue
        rw [hconstant hvariable hvalue, Bool.true_or] at hnot
        exact hnot rfl
  · rw [isNameable, isManagedConstant, isNameableBy, hkind, eq_false_of_ne_true hvariable]
    simp

/-- The values that a node of a workspace has in another one. -/
def valuesIn (settings : Settings) (w t : Workspace) (id : NodeId) :
    List (Option String) × Option String :=
  managedValues (valued settings t id (core (w.node id)))

/-- A node gets the values that its expressions have when the pass comes to it. -/
theorem managedValues_entry (hnode : core (s.2.node id) = core (w.node id)) :
    managedValues ((entry settings id s).2.node id) = valuesIn settings w s.2 id := by
  rw [← managedValues_core, core_entry, hnode]
  rfl

/-- After the pass has come to a node, its value tells whether it can be named. Variables that had a
value before have to be constant. -/
theorem isNameable_entry (hconstant : ValuesConstant w)
    (hnode : core (s.2.node id) = core (w.node id)) :
    isNameable settings ((entry settings id s).2.node id) =
      isNameableBy (w.node id) (valuesIn settings w s.2 id).2 := by
  rw [← isNameable_core, core_entry, hnode]
  exact isNameable_valued (n := core (w.node id)) (hconstant id)

/-- If the nodes that are still to be named get the same values in what there was at first and in
what there may be at most, then these are the values that they get. -/
theorem managedValues_entries (hconstant : ValuesConstant w) (hnodup : ids.Nodup)
    (hnodes : ∀ key ∈ ids, core (s.2.node key) = core (w.node key))
    (hfirst : Further settings w s.2) (hlast : Further settings s.2 final)
    (hstable : ∀ key ∈ ids, valuesIn settings w final key = valuesIn settings w w key)
    (hfinal : ∀ key ∈ ids,
      isNameable settings (final.node key) =
        isNameableBy (w.node key) (valuesIn settings w w key).2) :
    ∀ key ∈ ids, managedValues ((entries settings ids s).2.node key) =
      valuesIn settings w w key := by
  induction ids generalizing s with
  | nil => exact nofun
  | cons id rest ih =>
    have hid := hnodes id List.mem_cons_self
    have hstep := entry_further settings id s
    have hsqueezed : valuesIn settings w s.2 id = valuesIn settings w w id :=
      managedValues_squeezed hfirst hlast (hstable id List.mem_cons_self)
    have hrest := (List.nodup_cons.mp hnodup).1
    have hlast' : Further settings (entry settings id s).2 final := by
      refine ⟨hstep.rearranged.symm.trans hlast.rearranged, fun key hkey => ?_⟩
      by_cases hne : key = id
      · subst hne
        rwa [isNameable_entry hconstant hid, hsqueezed, ← hfinal key List.mem_cons_self] at hkey
      · rw [entry_node hne] at hkey
        exact hlast.nameable key hkey
    intro key hkey
    rw [entries_cons]
    rcases List.mem_cons.mp hkey with rfl | hkey
    · rw [entries_node hrest, managedValues_entry hid, hsqueezed]
    · refine ih (List.nodup_cons.mp hnodup).2 (fun key hkey => ?_) (hfirst.trans hstep) hlast'
        (fun key hkey => hstable key (List.mem_cons_of_mem _ hkey))
        (fun key hkey => hfinal key (List.mem_cons_of_mem _ hkey)) key hkey
      rw [entry_node fun heq : key = id => hrest (heq ▸ hkey)]
      exact hnodes key (List.mem_cons_of_mem _ hkey)

end Steps

section Order

variable {settings : Settings} {w w' : Workspace} {root id : NodeId}

/-- The nodes that the pass comes to. -/
def visits (w : Workspace) (root : NodeId) : List NodeId :=
  w.forest.visits w.forest.depthBound root

/-- The pass names the nodes that it visits, one after the other. -/
theorem nameAll_eq_entries (settings : Settings) (w : Workspace) (root : NodeId) :
    nameAll settings w root = (entries settings (visits w root) ({}, w)).2 :=
  (nameAll_eq settings w root).trans (congrArg Prod.snd (named_visits settings _ root ({}, w)))

/-- The pass loses no constants. -/
theorem nameAll_further (settings : Settings) (w : Workspace) (root : NodeId) :
    Further settings w (nameAll settings w root) := by
  rw [nameAll_eq_entries]
  exact entries_further settings (visits w root) ({}, w)

/-- When children are reordered the pass comes to the same nodes in another order. -/
theorem visits_perm (h : w.forest.Reordered w'.forest) (root : NodeId) :
    (visits w' root).Perm (visits w root) := by
  rw [visits, visits, Forest.depthBound, h.size]
  exact h.visits_perm

/-- Reordering leaves nodes but for their children. -/
theorem core_node_of_reordered (h : w.forest.Reordered w'.forest) (id : NodeId) :
    core (w'.node id) = core (w.node id) := by
  rw [Workspace.node_eq, Workspace.node_eq]
  cases hn : w.forest.node? id with
  | none => rw [h.node?_eq_none hn]
  | some n =>
    obtain ⟨n', hn', hsame⟩ := h.symm.exists_node hn
    rw [hn']
    exact (Node.eq_of_childless core (fun _ => rfl) hsame).symm

/-- Reordering does not change what can be named. -/
theorem isNameable_of_reordered (h : w.forest.Reordered w'.forest) (id : NodeId) :
    isNameable settings (w'.node id) = isNameable settings (w.node id) := by
  rw [← isNameable_core, core_node_of_reordered h, isNameable_core]

/-- What a node that is visited is in the end. -/
theorem exists_core_nameAll (settings : Settings) (hf : w.forest.Linked)
    (hid : id ∈ visits w root) :
    ∃ t, Further settings w t ∧ Further settings t (nameAll settings w root) ∧
      t.node id = w.node id ∧
          core ((nameAll settings w root).node id) = valued settings t id (core (w.node id)) := by
  have hnodup : (visits w root).Nodup := hf.visits_nodup
  rw [nameAll_eq_entries]
  obtain ⟨before, after, heq⟩ := List.append_of_mem hid
  rw [heq] at hnodup ⊢
  have hbefore : id ∉ before :=
    fun h => (List.nodup_append.mp hnodup).2.2 id h id List.mem_cons_self rfl
  refine ⟨(entries settings before ({}, w)).2, entries_further settings before ({}, w), ?_,
    entries_node (s := ({}, w)) hbefore, core_entries hnodup⟩
  rw [entries_append]
  exact entries_further settings (id :: after) _

/-- A node that the pass does not come to stays as it is. -/
theorem nameAll_node_of_not_mem (hid : id ∉ visits w root) :
    (nameAll settings w root).node id = w.node id := by
  rw [nameAll_eq_entries, entries_node hid]

/-- In the end, values tell what can be named among the nodes the pass comes to. No node may be
visited twice, so the forest has to be linked. -/
theorem isNameable_nameAll (hf : w.forest.Linked) (hconstant : ValuesConstant w)
    (hid : id ∈ visits w root) :
    isNameable settings ((nameAll settings w root).node id) =
      isNameableBy (w.node id) (managedValues ((nameAll settings w root).node id)).2 := by
  obtain ⟨t, -, -, -, hcore⟩ := exists_core_nameAll settings hf hid
  rw [← isNameable_core, ← managedValues_core, hcore]
  exact isNameable_valued (n := core (w.node id)) (hconstant id)

theorem ValuesConstant.reordered (h : ValuesConstant w) (hforest : w.forest.Reordered w'.forest) :
    ValuesConstant w' := by
  intro id
  change (core (w'.node id)).kind.isVariable = true → (core (w'.node id)).managedValue?.isSome =
    true → (core (w'.node id)).isConstant = true
  rw [core_node_of_reordered hforest]
  exact h id

/-- If all orders give the same values, the same nodes can be named in the end. -/
theorem isNameable_nameAll_of_reordered (hf : w.forest.Linked) (hconstant : ValuesConstant w)
    (hforest : w.forest.Reordered w'.forest)
    (hsame : managedValues ((nameAll settings w' root).node id) =
      managedValues ((nameAll settings w root).node id)) :
    isNameable settings ((nameAll settings w' root).node id) =
      isNameable settings ((nameAll settings w root).node id) := by
  have hcore := core_node_of_reordered hforest id
  by_cases hid : id ∈ visits w root
  · have hid' : id ∈ visits w' root := (visits_perm hforest root).mem_iff.mpr hid
    rw [isNameable_nameAll (hforest.linked hf) (hconstant.reordered hforest) hid',
      isNameable_nameAll hf hconstant hid, hsame]
    rw [← isNameableBy_core (w'.node id), hcore, isNameableBy_core]
  · have hid' : id ∉ visits w' root := fun h => hid ((visits_perm hforest root).mem_iff.mp h)
    rw [nameAll_node_of_not_mem hid', nameAll_node_of_not_mem hid]
    exact isNameable_of_reordered hforest id

/-- Visits of nodes without values change no values. -/
theorem core_entries_of_not_hasValues {ids : List NodeId} {s : Used × Workspace}
    (h : ∀ b ∈ ids, hasValues (s.2.node b) = false) (key : NodeId) :
    core ((entries settings ids s).2.node key) = core (s.2.node key) := by
  induction ids generalizing s with
  | nil => rfl
  | cons b rest ih =>
    have hb : ∀ key, core ((entry settings b s).2.node key) = core (s.2.node key) := by
      intro key
      by_cases hkey : key = b
      · subst hkey
        rw [core_entry, valued_of_not_hasValues (n := core (s.2.node key))
          (h key List.mem_cons_self)]
      · rw [entry_node hkey]
    rw [entries_cons, ih fun c hc => ?_, hb]
    rw [← hasValues_core, hb, hasValues_core]
    exact h c (List.mem_cons_of_mem b hc)

/-- Containers have no values. -/
theorem hasValues_of_isContainer {n : Node} (h : n.kind.isContainer = true) :
    hasValues n = false := by
  unfold hasValues isCallable
  generalize n.kind = kind at h ⊢
  cases kind <;> first | rfl | cases h

/-- A node that is named before all others gets the values that it has in what there was at
first. -/
theorem exists_named_first (settings : Settings) (hf : w.forest.Linked) (hid : id ∈ visits w root) :
    ∃ w', w.forest.Reordered w'.forest ∧ w'.symbols = w.symbols ∧
      managedValues ((nameAll settings w' root).node id) = valuesIn settings w w id := by
  obtain ⟨f', hforest, before, after, hvisits, hcontainers⟩ := hf.exists_visited_first hid
  let w' : Workspace := ⟨f', w.symbols⟩
  have horder : visits w' root = before ++ id :: after := by
    rw [visits, Forest.depthBound, hforest.size]
    exact hvisits
  have hnodup : (before ++ id :: after).Nodup := horder ▸ (hforest.linked hf).visits_nodup
  refine ⟨w', hforest, rfl, ?_⟩
  have hsame : ∀ key, core (w'.node key) = core (w.node key) := core_node_of_reordered hforest
  rw [nameAll_eq_entries, horder, ← managedValues_core, core_entries hnodup, hsame]
  have hcore : ∀ key, core ((entries settings before ({}, w')).2.node key) = core (w.node key) := by
    intro key
    rw [core_entries_of_not_hasValues (s := ({}, w')) (fun b hb => ?_), hsame]
    obtain ⟨n, hn, hcontainer⟩ := hcontainers b hb
    rw [← hasValues_core, hsame, Workspace.node_of_node? hn]
    exact hasValues_of_isContainer hcontainer
  have hlookup : managedDefault? settings (entries settings before ({}, w')).2 id =
      managedDefault? settings w id := by
    funext expression
    have hrearranged : w.Rearranged w' := .of_reordered hforest rfl
    refine managedDefault?_congr (hrearranged.trans
      (entries_further settings before ({}, w')).rearranged) fun key _ => ?_
    rw [← isNameable_core, hcore, isNameable_core]
  rw [valuesIn, valued, valued, hlookup]

/-- Of what is no variable, just enumerators can be named. -/
theorem isNameable_of_not_isVariable {n : Node} (h : n.kind.isVariable = false) :
    isNameable settings n = (n.kind == .enumerator) := by
  rw [isNameable, isManagedConstant, h, Bool.false_and, Bool.false_and, Bool.false_and,
    Bool.or_false]

/-- A variable whose value is its own name is no constant unless it was one at first. -/
theorem isNameable_nameAll_of_self (hf : w.forest.Linked) (hid : id ∈ visits w root)
    {expression : String} (hkind : (w.node id).kind.isVariable = true)
    (hnative : (w.node id).nativeValue? = some expression)
    (hdenoted : denoted? settings w id expression = some (.node id)) :
    isNameable settings ((nameAll settings w root).node id) = isNameable settings (w.node id) := by
  cases hnameable : isNameable settings (w.node id) with
  | true => exact (nameAll_further settings w root).nameable id hnameable
  | false =>
    obtain ⟨t, hfurther, -, hnode, hcore⟩ := exists_core_nameAll settings hf hid
    have hnone : managedDefault? settings t id expression = none := by
      rw [managedDefault?_of_node
        ((hfurther.rearranged.denoted?_eq settings id expression).trans hdenoted), hnode,
        hnameable]
      rfl
    have hvalued : valued settings t id (core (w.node id)) = core (w.node id) := by
      rw [valued_variable (n := core (w.node id)) hkind,
        show (core (w.node id)).nativeValue? = some expression from hnative,
        Option.bind_some, hnone]
      rfl
    rw [← isNameable_core, hcore, hvalued]
    exact hnameable

/-- A node has the same values in two workspaces if they can name the same other nodes, and the node
itself where its value is its own name. -/
theorem valuesIn_congr {t final : Workspace} (hfirst : w.Rearranged t) (hlast : w.Rearranged final)
    (hothers : ∀ key ≠ id, isNameable settings (t.node key) = isNameable settings (final.node key))
    (hself : ∀ expression, (w.node id).kind.isVariable = true →
      (w.node id).nativeValue? = some expression →
        denoted? settings w id expression = some (.node id) →
      isNameable settings (t.node id) = isNameable settings (final.node id)) :
    valuesIn settings w t id = valuesIn settings w final id := by
  have hlookup : ∀ expression, (denoted? settings w id expression = some (.node id) →
      isNameable settings (t.node id) = isNameable settings (final.node id)) →
      managedDefault? settings t id expression = managedDefault? settings final id expression := by
    intro expression hself
    refine managedDefault?_congr (hlast.symm.trans hfirst) fun key hdenoted => ?_
    rw [hlast.denoted?_eq] at hdenoted
    by_cases hne : key = id
    · subst hne
      exact hself hdenoted
    · exact hothers key hne
  by_cases hkind : (w.node id).kind.isVariable = true
  · rw [valuesIn, valuesIn, valued_variable (n := core (w.node id)) hkind,
      valued_variable (n := core (w.node id)) hkind]
    cases hnative : (core (w.node id)).nativeValue? with
    | none => rw [Option.bind_none, Option.bind_none]
    | some expression => rw [Option.bind_some, Option.bind_some,
      hlookup expression (hself expression hkind hnative)]
  · have hkind := eq_false_of_ne_true hkind
    have hall : managedDefault? settings t id = managedDefault? settings final id := by
      funext expression
      refine hlookup expression fun _ => ?_
      have hkind' : (t.node id).kind = (w.node id).kind :=
        hfirst.node_eq Node.kind (fun _ => rfl) id
      have hkind'' : (final.node id).kind = (w.node id).kind :=
        hlast.node_eq Node.kind (fun _ => rfl) id
      rw [isNameable_of_not_isVariable (hkind' ▸ hkind),
        isNameable_of_not_isVariable (hkind'' ▸ hkind), hkind', hkind'']
    rw [valuesIn, valuesIn, valued, valued, hall]

/-- A leaf that is named after all others gets the values that it has in what there is in the end,
if no order makes a difference to what there is. -/
theorem exists_named_last (hf : w.forest.Linked) (hconstant : ValuesConstant w)
    (hid : id ∈ visits w root) (hvalues : hasValues (w.node id) = true)
    (hsame : ∀ w' : Workspace, w.forest.Reordered w'.forest → w'.symbols = w.symbols → ∀ key,
      managedValues ((nameAll settings w' root).node key) =
        managedValues ((nameAll settings w root).node key)) :
    ∃ w' : Workspace, w.forest.Reordered w'.forest ∧ w'.symbols = w.symbols ∧
      managedValues ((nameAll settings w' root).node id) =
          valuesIn settings w (nameAll settings w root) id := by
  have hleaf : ∀ n, w.forest.node? id = some n → n.kind.isContainer = false := by
    intro n hn
    rw [Workspace.node_of_node? hn] at hvalues
    by_contra hcontainer
    rw [hasValues_of_isContainer (eq_true_of_ne_false hcontainer)] at hvalues
    cases hvalues
  obtain ⟨f', hforest, before, hvisits⟩ := hf.exists_visited_last hid hleaf
  obtain ⟨w', rfl, hsymbols⟩ : ∃ w' : Workspace, w'.forest = f' ∧ w'.symbols = w.symbols :=
    ⟨⟨f', w.symbols⟩, rfl, rfl⟩
  have horder : visits w' root = before ++ [id] := by
    rw [visits, Forest.depthBound, hforest.size]
    exact hvisits
  have hnodup : (before ++ [id]).Nodup := horder ▸ (hforest.linked hf).visits_nodup
  have hbefore : id ∉ before :=
    fun h => (List.nodup_append.mp hnodup).2.2 id h id List.mem_cons_self rfl
  have hmade : (nameAll settings w' root).node =
      (entry settings id (entries settings before ({}, w'))).2.node := by
    rw [nameAll_eq_entries, horder, entries_append]
    rfl
  have hfirst : w.Rearranged (entries settings before ({}, w')).2 :=
    (Workspace.Rearranged.of_reordered hforest hsymbols).trans
      (entries_further settings before ({}, w')).rearranged
  have hnode : (entries settings before ({}, w')).2.node id = w'.node id := entries_node hbefore
  generalize entries settings before ({}, w') = s at hmade hfirst hnode
  refine ⟨w', hforest, hsymbols, ?_⟩
  rw [hmade, managedValues_entry ((congrArg core hnode).trans (core_node_of_reordered hforest id))]
  refine valuesIn_congr hfirst (nameAll_reshaped settings w root).rearranged (fun key hne => ?_)
    fun expression hkind hnative hdenoted => ?_
  · rw [← isNameable_nameAll_of_reordered hf hconstant hforest (hsame w' hforest hsymbols key),
      hmade, entry_node hne]
  · rw [isNameable_nameAll_of_self hf hid hkind hnative hdenoted, hnode]
    exact isNameable_of_reordered hforest id

/-- In whatever order the children of each node stand, the pass gives the same managed values, if
and only if every node of the tree has the same values in what there is before the pass as in what
there is after it. -/
theorem nameAll_reordered_iff (hf : w.forest.Linked) (hconstant : ValuesConstant w)
    (settings : Settings) (root : NodeId) :
    (∀ w' : Workspace, w.forest.Reordered w'.forest → w'.symbols = w.symbols → ∀ id,
      managedValues ((nameAll settings w' root).node id) =
        managedValues ((nameAll settings w root).node id)) ↔
    ∀ id ∈ visits w root,
      valuesIn settings w (nameAll settings w root) id = valuesIn settings w w id := by
  constructor
  · intro hsame id hid
    by_cases hvalues : hasValues (w.node id) = true
    · obtain ⟨first, hforest, hsymbols, hfirst⟩ := exists_named_first settings hf hid
      obtain ⟨last, hforest', hsymbols', hlast⟩ := exists_named_last hf hconstant hid hvalues hsame
      rw [← hlast, ← hfirst, hsame last hforest' hsymbols', hsame first hforest hsymbols]
    · have hnone : hasValues (core (w.node id)) = false := eq_false_of_ne_true hvalues
      rw [valuesIn, valuesIn, valued_of_not_hasValues hnone, valued_of_not_hasValues hnone]
  · intro hstable w' hforest hsymbols id
    have hwhole := nameAll_further settings w root
    have hown : ∀ id ∈ visits w root,
        managedValues ((nameAll settings w root).node id) = valuesIn settings w w id := by
      intro id hid
      obtain ⟨t, hfirst, hlast, -, hcore⟩ := exists_core_nameAll settings hf hid
      rw [← managedValues_core, hcore]
      exact managedValues_squeezed hfirst hlast (hstable id hid)
    have hcore := core_node_of_reordered hforest
    have hbegin : ∀ id, isNameable settings (w'.node id) = isNameable settings (w.node id) :=
      isNameable_of_reordered hforest
    have hrearranged : w.Rearranged w' := .of_reordered hforest hsymbols
    have hfirst : Further settings w w' := ⟨hrearranged, fun key hkey => (hbegin key).trans hkey⟩
    have hlast : Further settings w' (nameAll settings w root) := by
      refine ⟨hrearranged.symm.trans hwhole.rearranged, fun key hkey => hwhole.nameable key ?_⟩
      rwa [← hbegin]
    by_cases hid : id ∈ visits w root
    · rw [nameAll_eq_entries settings w', hown id hid]
      refine managedValues_entries hconstant (hforest.linked hf).visits_nodup
        (fun key _ => hcore key) hfirst hlast
        (fun key hkey => hstable key ((visits_perm hforest root).mem_iff.mp hkey))
          (fun key hkey => ?_) id
        ((visits_perm hforest root).mem_iff.mpr hid)
      have hkey := (visits_perm hforest root).mem_iff.mp hkey
      rw [isNameable_nameAll hf hconstant hkey, hown key hkey]
    · have hid' : id ∉ visits w' root := fun h => hid ((visits_perm hforest root).mem_iff.mp h)
      rw [nameAll_node_of_not_mem hid', nameAll_node_of_not_mem hid]
      rw [← managedValues_core, hcore, managedValues_core]

/-- Where all nodes are settled the variables with values are constant. -/
theorem ValuesConstant.of_settled (h : AllSettled w) : ValuesConstant w := by
  intro id hkind hvalue
  cases hn : w.forest.node? id with
  | none =>
    rw [Workspace.node_eq, hn] at hkind
    cases hkind
  | some n =>
    rw [Workspace.node_of_node? hn] at hkind hvalue ⊢
    exact (h.node? hn).value hkind hvalue

/-- A default that names a constant with a literal, which all orders of the nodes agree on. -/
theorem nameAll_reordered_iff_literal :
    let int : NativeType := .builtin .int
    let f : Declaration :=
      { kind := .memberFunction, name := "f", line := 1, returnType? := some int
        parameters := [{ name := "x", type := int, default? := some "a" }] }
    let class_ : Declaration :=
      { kind := .classType, name := "A", line := 1, flags := { isDefinition := true },
        children := [f] }
    let a : Declaration :=
      { kind := .freeVariable, name := "a", line := 1, type? := some (.qualified int true false),
        value? := some "1" }
    let u := HeaderUnit.ofDeclarations ⟨"A.h"⟩ [class_, a]
    let g := Generator.ofDirectories ⟨""⟩ ⟨"/o"⟩
    let s : Surroundings :=
      { settings := g.settings, rules := { name := "M" }, root := (g.restart []).1 }
    let w := (Passes.apply ⟨[.containers, .members], [.globals]⟩ s [u] (g.restart []).2).1
    managedValues ((nameAll g.settings w s.root).node ⟨2⟩) = ([some "Globals.a"], none) ∧
      ∀ w' : Workspace, w.forest.Reordered w'.forest → w'.symbols = w.symbols → ∀ id,
        managedValues ((nameAll g.settings w' s.root).node id) =
          managedValues ((nameAll g.settings w s.root).node id) := by
  intro int f class_ a u g s w
  have hbare : BareTree s (g.restart []).2 :=
    Generator.restart_bareTree Generator.Reached.start.wellFormed rfl
  have hf : w.forest.WellFormed := (Passes.apply_rooted hbare.rooted _).wellFormed
  have hsettled : AllSettled w :=
    Passes.apply_settled hbare.rooted
      (Generator.restart_settled Generator.Reached.start.wellFormed
        Generator.Reached.start.settled []) _
  exact ⟨by decide +kernel,
    (nameAll_reordered_iff hf.linked (.of_settled hsettled) g.settings s.root).mpr
      (by decide +kernel)⟩

/-- A constant that is another constant is named as a default if and only if it is visited
before. -/
theorem nameAll_order_matters :
    let int : NativeType := .builtin .int
    let f : Declaration :=
      { kind := .memberFunction, name := "f", line := 1, returnType? := some int
        parameters := [{ name := "x", type := int, default? := some "b" }] }
    let class_ : Declaration :=
      { kind := .classType, name := "A", line := 1, flags := { isDefinition := true },
        children := [f] }
    let constant (name value : String) : Declaration :=
      { kind := .freeVariable, name, line := 1, type? := some (.qualified int true false),
        value? := some value }
    let u := HeaderUnit.ofDeclarations ⟨"A.h"⟩ [class_, constant "a" "1", constant "b" "a"]
    let g := Generator.ofDirectories ⟨""⟩ ⟨"/o"⟩
    let s : Surroundings :=
      { settings := g.settings, rules := { name := "M" }, root := (g.restart []).1 }
    let w := (Passes.apply ⟨[.containers, .members], [.globals]⟩ s [u] (g.restart []).2).1
    ∃ w' : Workspace, w.forest.Reordered w'.forest ∧ w'.symbols = w.symbols ∧
      managedValues ((nameAll g.settings w s.root).node ⟨2⟩) = ([none], none) ∧
      managedValues ((nameAll g.settings w' s.root).node ⟨2⟩) = ([some "Globals.b"], none) := by
  intro int f class_ constant u g s w
  have hreversed : ∀ w : Workspace, ∃ w' : Workspace, w.forest.Reordered w'.forest ∧
      w'.symbols = w.symbols ∧ w' = ⟨w.forest.rearranged List.reverse, w.symbols⟩ :=
    fun w => ⟨⟨w.forest.rearranged List.reverse, w.symbols⟩,
      w.forest.reordered_rearranged List.reverse_perm, rfl, rfl⟩
  obtain ⟨w', hforest, hsymbols, hw'⟩ := hreversed w
  refine ⟨w', hforest, hsymbols, by decide +kernel, ?_⟩
  rw [hw']
  decide +kernel

end Order

end Naming

end Interop
