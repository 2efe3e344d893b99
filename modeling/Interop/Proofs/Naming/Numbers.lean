import Interop.Proofs.Emit.Coverage
import Interop.Proofs.Overlay.Trees
import Mathlib.Data.List.Basic

namespace Interop

open Overlay Emit

/-- Nodes are reached in the same order, whatever they are called. -/
theorem Overlay.Workspace.Reshaped.preorder_eq {w w' : Workspace} (h : w.Reshaped w')
    (stops : Kind → Bool) (bound : Nat) (id : NodeId) :
    w'.forest.preorder stops bound id = w.forest.preorder stops bound id := by
  induction bound generalizing id with
  | zero => rfl
  | succ bound ih =>
    have hshape := h.shapes id
    unfold Forest.preorder
    cases hn : w.forest.node? id with
    | none =>
      rw [hn, Option.map_none, Option.map_eq_none_iff] at hshape
      rw [hshape]
    | some n =>
      rw [hn] at hshape
      obtain ⟨n', hn', hsame⟩ := Option.map_eq_some_iff.mp hshape
      simp only [hn', Node.kind_eq_of_shape hsame, h.children_eq, funext ih]

/-- The same nodes are visited, whatever they are called. -/
theorem Overlay.Workspace.Reshaped.visits_eq {w w' : Workspace} (h : w.Reshaped w') (bound : Nat)
    (id : NodeId) :
    w'.forest.visits bound id = w.forest.visits bound id := by
  induction bound generalizing id with
  | zero => rfl
  | succ bound ih =>
    cases hn : w'.forest.node? id with
    | none =>
      have hshape := h.shapes id
      rw [hn, Option.map_none, eq_comm, Option.map_eq_none_iff] at hshape
      rw [Forest.visits_of_none hn, Forest.visits_of_none hshape]
    | some n' =>
      obtain ⟨n, hnode, hsame⟩ := h.exists_node hn
      have hproxy : n'.isProxy = n.isProxy := Node.eq_of_shape Node.isProxy (fun _ => rfl) hsame
      rw [Forest.visits_of_node? hn, Forest.visits_of_node? hnode, hproxy,
        Node.kind_eq_of_shape hsame, h.children_eq, funext ih]

theorem Overlay.Workspace.Reshaped.node_shape {w w' : Workspace} (h : w.Reshaped w') (id : NodeId) :
    (w'.node id).shape = (w.node id).shape := by
  have hshape := h.shapes id
  rw [Workspace.node_eq, Workspace.node_eq]
  cases hn : w.forest.node? id with
  | none =>
    rw [hn, Option.map_none, Option.map_eq_none_iff] at hshape
    rw [hshape]
  | some n =>
    rw [hn] at hshape
    obtain ⟨n', hn', hsame⟩ := Option.map_eq_some_iff.mp hshape
    rw [hn']
    exact hsame

theorem Overlay.Workspace.node_modify_of_ne {id key : NodeId} (hne : key ≠ id) (w : Workspace)
    (change : Node → Node) :
    (w.modify id change).node key = w.node key := by
  rw [node_eq, node_eq, Workspace.modify, Forest.node?_modify, if_neg hne]

theorem Overlay.Workspace.node_modify_self {w : Workspace} {id : NodeId} {n : Node}
    (h : w.forest.node? id = some n) (change : Node → Node) :
    (w.modify id change).node id = change n := by
  rw [node_eq, Workspace.modify, Forest.node?_modify, if_pos rfl, h]
  rfl

namespace Naming

/-- A flat name with the number of functions that had it before; the first one has the name
itself. -/
def numbered (name : String) (count : Nat) : String :=
  if count = 0 then name else name ++ "_" ++ toString count

/-- The second function of a flat name and all further ones have a number behind it. -/
theorem toList_numbered {name : String} {count : Nat} (h : count ≠ 0) :
    (numbered name count).toList = name.toList ++ '_' :: Nat.toDigits 10 count := by
  simp [numbered, h]

/-- A number behind an underscore can be told from what comes before it. -/
theorem numbered_inj {name name' : String} {count count' : Nat} (hcount : count ≠ 0)
    (hcount' : count' ≠ 0) :
    numbered name count = numbered name' count' ↔ name = name' ∧ count = count' := by
  constructor
  · intro h
    have hlist := congrArg (fun text => text.toList.reverse) h
    simp only [toList_numbered hcount, toList_numbered hcount', List.reverse_append,
      List.reverse_cons, List.append_assoc, List.singleton_append] at hlist
    have hdigits : ∀ n rest, ((Nat.toDigits 10 n).reverse ++ '_' :: rest).takeWhile (· != '_') =
        (Nat.toDigits 10 n).reverse := by
      intro n rest
      have hkept : ∀ c ∈ (Nat.toDigits 10 n).reverse, (c != '_') = true := by
        rintro c hc
        rw [bne_iff_ne]
        rintro rfl
        exact Nat.underscore_not_in_toDigits (List.mem_reverse.mp hc)
      rw [List.takeWhile_append_of_pos hkept]
      simp
    have hnumber : (Nat.toDigits 10 count).reverse = (Nat.toDigits 10 count').reverse := by
      rw [← hdigits count name.toList.reverse, hlist, hdigits]
    rw [hnumber, List.append_cancel_left_eq, List.cons.injEq, List.reverse_inj] at hlist
    have hvalue := congrArg (Nat.ofDigitChars 10 · 0) (List.reverse_inj.mp hnumber)
    exact ⟨String.toList_inj.mp hlist.2, by simpa using hvalue⟩
  · rintro ⟨rfl, rfl⟩
    rfl

/-- A name is given out with the number of those before it, which goes up by one. -/
theorem uniqueName_eq (used : Used) (symbol : String) :
    uniqueName used symbol =
      (numbered (Symbol.flat symbol) ((used.get? (Symbol.flat symbol)).getD 0),
        used.insert (Symbol.flat symbol) ((used.get? (Symbol.flat symbol)).getD 0 + 1)) :=
  rfl

section Walk

variable {settings : Settings} {id key : NodeId} {s : Used × Workspace}

/-- What the pass does where the walk reports a node first. -/
def entry (settings : Settings) (id : NodeId) (s : Used × Workspace) : Used × Workspace :=
  match (s.2.node id).kind with
  | .classType => (s.1, s.2.modify id fun n => { n with bridgeName := Symbol.flat n.symbol })
  | .constructor | .memberFunction | .freeFunction =>
    let r := ((nameFunction settings id).run s.1).run s.2
    (r.1.2, r.2)
  | .freeVariable | .memberVariable | .bitField =>
    (s.1, (((nameVariable settings id).run s.1).run s.2).2)
  | .enumerator => (s.1, (((valueEnumerator settings id).run s.1).run s.2).2)
  | _ => s

/-- Nothing is done when a node is left. -/
theorem visited_exit (access : Access) : visited settings .exit id access s = (true, s) :=
  rfl

/-- A node is named when the walk comes to it first. -/
theorem visited_entry {event : WalkEvent} (hevent : event ≠ .exit) (access : Access) :
    visited settings event id access s = (true, entry settings id s) := by
  have hvisit : visited settings .enter id access s = (true, entry settings id s) := by
    obtain ⟨used, w⟩ := s
    change (fun r : (Bool × Used) × Workspace => (r.1.1, r.1.2, r.2)) (((match (w.node id).kind with
      | .classType => do
        set (w.modify id fun n => { n with bridgeName := Symbol.flat n.symbol })
        return true
      | .constructor | .memberFunction | .freeFunction => do
        nameFunction settings id
        return true
      | .freeVariable | .memberVariable | .bitField => do
        nameVariable settings id
        return true
      | .enumerator => do
        valueEnumerator settings id
        return true
      | _ => return true : Pass Bool).run used).run w) = _
    unfold entry
    dsimp only
    generalize (w.node id).kind = kind
    cases kind <;> rfl
  cases event with
  | enter => exact hvisit
  | leaf => exact hvisit
  | exit => exact absurd rfl hevent

/-- Coming to a node makes one of the changes of naming. -/
theorem entry_renamed (settings : Settings) (id : NodeId) (s : Used × Workspace) :
    Renamed settings id s.2 (entry settings id s).2 := by
  have h := @visited_renamed settings .enter id default s
  rwa [visited_entry (by simp)] at h

/-- Coming to a node keeps all shapes. -/
theorem entry_reshaped (settings : Settings) (id : NodeId) (s : Used × Workspace) :
    s.2.Reshaped (entry settings id s).2 :=
  (entry_renamed settings id s).reshaped

/-- The nodes below a node in the order in which the pass names them. -/
def order (w : Workspace) (bound : Nat) (id : NodeId) : List NodeId :=
  w.forest.preorder (fun _ => false) bound id

/-- What the pass does with several nodes, one after the other. -/
def entries (settings : Settings) (ids : List NodeId) (s : Used × Workspace) : Used × Workspace :=
  ids.foldl (fun s id => entry settings id s) s

theorem entries_cons (id : NodeId) (ids : List NodeId) :
    entries settings (id :: ids) s = entries settings ids (entry settings id s) :=
  rfl

theorem entries_append (before after : List NodeId) :
    entries settings (before ++ after) s = entries settings after (entries settings before s) :=
  List.foldl_append

/-- Coming to any nodes keeps all shapes. -/
theorem entries_reshaped (settings : Settings) (ids : List NodeId) (s : Used × Workspace) :
    s.2.Reshaped (entries settings ids s).2 := by
  induction ids generalizing s with
  | nil => exact .refl s.2
  | cons id rest ih => exact (entry_reshaped settings id s).trans (ih _)

/-- The walk from a node names the nodes that it comes to, one after the other. -/
theorem named_visits (settings : Settings) (bound : Nat) (id : NodeId) (s : Used × Workspace) :
    named settings bound id s = entries settings (s.2.forest.visits bound id) s := by
  induction bound generalizing id s with
  | zero => rfl
  | succ bound ih =>
    have hall : ∀ (cs : List NodeId) (s' : Used × Workspace), s.2.Reshaped s'.2 →
        cs.foldl (fun s c => named settings bound c s) s' =
          entries settings (cs.flatMap (s.2.forest.visits bound)) s' := by
      intro cs
      induction cs with
      | nil => exact fun _ _ => rfl
      | cons c rest ihs =>
        intro s' hs'
        rw [List.foldl_cons, List.flatMap_cons, entries_append, ih, hs'.visits_eq]
        exact ihs _ (hs'.trans (entries_reshaped settings _ s'))
    unfold named Forest.walked
    cases hn : s.2.forest.node? id with
    | none =>
      rw [Forest.visits_of_none hn]
      rfl
    | some n =>
      rw [Forest.visits_of_node? hn]
      have hentered := entry_reshaped settings id s
      simp only [@visited_entry settings id s .enter (by simp),
        @visited_entry settings id s .leaf (by simp), visited_exit, if_true, hentered.children_eq]
      by_cases hproxy : n.isProxy = true
      · simp only [hproxy, if_true, Bool.true_or, List.nil_append]
        rw [← Forest.children_of_node? hn]
        exact hall _ s (.refl s.2)
      · by_cases hcontainer : n.kind.isContainer = true
        · simp only [hproxy, hcontainer, if_true, Bool.or_true]
          exact hall _ _ hentered
        · simp only [hproxy, hcontainer]
          rfl

/-- The walk from a node names the nodes below it in preorder. -/
theorem named_eq (hf : s.2.forest.WellFormed) (bound : Nat) (id : NodeId) :
    named settings bound id s = entries settings (order s.2 bound id) s := by
  rw [named_visits, hf.visits_eq_preorder, order]

end Walk

section Names

variable {settings : Settings} {id key : NodeId} {ids : List NodeId} {s : Used × Workspace}
    {n : Node}

/-- A visit changes the node only that is visited. -/
theorem entry_node (hne : key ≠ id) : (entry settings id s).2.node key = s.2.node key := by
  have hmodify := Workspace.node_modify_of_ne hne s.2
  unfold entry
  split
  · exact hmodify _
  · exact hmodify _
  · exact hmodify _
  · exact hmodify _
  · exact hmodify _
  · exact hmodify _
  · exact hmodify _
  · exact hmodify _
  · rfl

/-- A node stays as it is until the pass comes to it. -/
theorem entries_node (h : key ∉ ids) : (entries settings ids s).2.node key = s.2.node key := by
  induction ids generalizing s with
  | nil => rfl
  | cons id rest ih =>
    rw [List.mem_cons, not_or] at h
    rw [entries_cons, ih h.2, entry_node h.1]

/-- Whether a node is a function of the given flat name. -/
def hasFlatName (w : Workspace) (name : String) (id : NodeId) : Bool :=
  isCallable (w.node id) && Symbol.flat (w.node id).symbol == name

/-- Flat names do not depend on what naming does. -/
theorem hasFlatName_reshaped {w w' : Workspace} (h : w.Reshaped w') :
    hasFlatName w' = hasFlatName w := by
  funext name id
  have hshape := h.node_shape id
  have hcallable : isCallable (w'.node id) = isCallable (w.node id) :=
    Node.eq_of_shape isCallable (fun _ => rfl) hshape
  have hsymbol : (w'.node id).symbol = (w.node id).symbol :=
    Node.eq_of_shape Node.symbol (fun _ => rfl) hshape
  rw [hasFlatName, hasFlatName, hcallable, hsymbol]

/-- A visit counts the name of a function and no other name. -/
theorem entry_used (name : String) :
    ((entry settings id s).1.get? name).getD 0 =
      (s.1.get? name).getD 0 + if hasFlatName s.2 name id then 1 else 0 := by
  have hcounted : (((uniqueName s.1 (s.2.node id).symbol).2).get? name).getD 0 =
      (s.1.get? name).getD 0 + if Symbol.flat (s.2.node id).symbol == name then 1 else 0 := by
    rw [uniqueName_eq, Table.get?_insert]
    by_cases hname : name = Symbol.flat (s.2.node id).symbol
    · simp [hname]
    · simp [hname, Ne.symm hname]
  have hrun : (((nameFunction settings id).run s.1).run s.2).1.2 =
    (uniqueName s.1 (s.2.node id).symbol).2 := rfl
  unfold entry hasFlatName isCallable
  cases hkind : (s.2.node id).kind
  case constructor => simpa [hrun] using hcounted
  case memberFunction => simpa [hrun] using hcounted
  case freeFunction => simpa [hrun] using hcounted
  all_goals simp

/-- The count of a flat name is the number of functions that have had it. -/
theorem entries_used (name : String) :
    ((entries settings ids s).1.get? name).getD 0 = (s.1.get? name).getD 0 + ids.countP
    (hasFlatName s.2 name) := by
  induction ids generalizing s with
  | nil => rfl
  | cons id rest ih =>
    rw [entries_cons, ih, entry_used, hasFlatName_reshaped (entry_reshaped settings id s),
      List.countP_cons, Nat.add_assoc, Nat.add_comm (rest.countP _)]

/-- How many functions before a node have its flat name. -/
def namesakes (w : Workspace) (ids : List NodeId) (id : NodeId) : Nat :=
  (ids.takeWhile (· != id)).countP (hasFlatName w (Symbol.flat (w.node id).symbol))

/-- Whether a node has the name that its symbol and its place among the nodes `ids` give it. -/
structure NamedAmong (w : Workspace) (ids : List NodeId) (id : NodeId) : Prop where
  callable : isCallable (w.node id) = true →
    (w.node id).bridgeName = numbered (Symbol.flat (w.node id).symbol) (namesakes w ids id)
  type : (w.node id).kind = .classType → (w.node id).bridgeName = Symbol.flat (w.node id).symbol
  accessor : (w.node id).kind.isVariable = true →
    (w.node id).bridgeName = accessorStem w (w.node id)

/-- A function gets its flat name with the number of those before it. -/
theorem entry_function (hn : s.2.forest.node? id = some n) (hcallable : isCallable n = true) :
    ((entry settings id s).2.node id).bridgeName =
      numbered (Symbol.flat n.symbol) ((s.1.get? (Symbol.flat n.symbol)).getD 0) := by
  have hnode := Workspace.node_of_node? hn
  have hname : ((((nameFunction settings id).run s.1).run s.2).2.node id).bridgeName =
      (uniqueName s.1 (s.2.node id).symbol).1 :=
    congrArg Node.bridgeName (Workspace.node_modify_self hn _)
  rw [hnode, uniqueName_eq] at hname
  unfold entry
  rw [hnode]
  rcases isCallable_iff.mp hcallable with hkind | hkind | hkind
  · simpa [hkind] using hname
  · simpa [hkind] using hname
  · simpa [hkind] using hname

/-- A class gets its flat name without a number. -/
theorem entry_type (hn : s.2.forest.node? id = some n) (hkind : n.kind = .classType) :
    ((entry settings id s).2.node id).bridgeName = Symbol.flat n.symbol := by
  have hnode := Workspace.node_of_node? hn
  unfold entry
  simp only [hnode, hkind]
  exact congrArg Node.bridgeName (Workspace.node_modify_self hn _)

theorem bridgeName_withValue (settings : Settings) (n : Node) (value : String) :
    (withValue settings n value).bridgeName = n.bridgeName := by
  unfold withValue
  dsimp only
  split
  · rfl
  · rfl

/-- A variable gets the stem of its accessors, with no number either. -/
theorem entry_variable (hn : s.2.forest.node? id = some n) (hkind : n.kind.isVariable = true) :
    ((entry settings id s).2.node id).bridgeName = accessorStem s.2 n := by
  have hnode := Workspace.node_of_node? hn
  have hname : ((((nameVariable settings id).run s.1).run s.2).2.node id).bridgeName =
      accessorStem s.2 (s.2.node id) := by
    refine (congrArg Node.bridgeName (Workspace.node_modify_self hn _)).trans ?_
    cases (s.2.node id).nativeValue?.bind (managedDefault? settings s.2 id) with
    | none => rfl
    | some value => exact bridgeName_withValue settings _ value
  rw [hnode] at hname
  unfold entry
  rw [hnode]
  rcases isVariable_iff.mp hkind with hkind | hkind | hkind
  · simpa [hkind] using hname
  · simpa [hkind] using hname
  · simpa [hkind] using hname

/-- The stem of accessors does not depend on what naming does. -/
theorem accessorStem_reshaped {w w' : Workspace} (h : w.Reshaped w') {n' : Node}
    (hshape : n'.shape = n.shape) :
    accessorStem w' n' = accessorStem w n := by
  have hparent : n'.parent? = n.parent? := Node.eq_of_shape Node.parent? (fun _ => rfl) hshape
  have hname : n'.name = n.name := Node.eq_of_shape Node.name (fun _ => rfl) hshape
  have hsymbol : ∀ id, (w'.node id).symbol = (w.node id).symbol := fun id =>
    Node.eq_of_shape Node.symbol (fun _ => rfl) (h.node_shape id)
  unfold accessorStem
  rw [hparent, hname]
  simp only [hsymbol]

theorem namesakes_reshaped {w w' : Workspace} (h : w.Reshaped w') : namesakes w' = namesakes w := by
  funext ids id
  have hsymbol : (w'.node id).symbol = (w.node id).symbol :=
    Node.eq_of_shape Node.symbol (fun _ => rfl) (h.node_shape id)
  rw [namesakes, namesakes, hasFlatName_reshaped h, hsymbol]

/-- When no name has been given out, each of several nodes gets the name that its place gives it. -/
theorem entries_named {w : Workspace} (hnodup : ids.Nodup) (hmem : id ∈ ids)
    (hn : w.forest.node? id = some n) :
    NamedAmong (entries settings ids ({}, w)).2 ids id := by
  obtain ⟨before, after, rfl⟩ := List.append_of_mem hmem
  have hbefore : id ∉ before := fun h =>
    (List.disjoint_of_nodup_append hnodup h) List.mem_cons_self
  have hafter : id ∉ after := (List.nodup_cons.mp (List.nodup_append.mp hnodup).2.1).1
  have hshapes := entries_reshaped settings before ({}, w)
  have hall := entries_reshaped settings (before ++ id :: after) ({}, w)
  obtain ⟨n', hn', hshape'⟩ := hshapes.symm.exists_node hn
  have hplaced : namesakes w (before ++ id :: after) id = before.countP (hasFlatName w
      (Symbol.flat n'.symbol)) := by
    have hne : ∀ other ∈ before, (other != id) = true := fun other hother =>
      bne_iff_ne.mpr fun heq => hbefore (heq ▸ hother)
    have hsymbol : (w.node id).symbol = n'.symbol := by
      rw [Workspace.node_of_node? hn]
      exact Node.eq_of_shape Node.symbol (fun _ => rfl) hshape'
    rw [namesakes, List.takeWhile_append_of_pos hne, hsymbol]
    simp
  have hused : ((entries settings before ({}, w)).1.get? (Symbol.flat n'.symbol)).getD 0 =
      before.countP (hasFlatName w (Symbol.flat n'.symbol)) :=
    (entries_used _).trans (Nat.zero_add _)
  have hshape := hall.node_shape id
  rw [Workspace.node_of_node? hn, hshape'] at hshape
  have hkind := Node.kind_eq_of_shape hshape
  have hsymbol : ((entries settings (before ++ id :: after) ({}, w)).2.node id).symbol =
      n'.symbol :=
    Node.eq_of_shape Node.symbol (fun _ => rfl) hshape
  have hname : ((entries settings (before ++ id :: after) ({}, w)).2.node id).bridgeName =
      ((entry settings id (entries settings before ({}, w))).2.node id).bridgeName := by
    rw [entries_append, entries_cons, entries_node hafter]
  constructor
  · intro hcallable
    have hcallable' : isCallable n' = true :=
      (Node.eq_of_shape isCallable (fun _ => rfl) hshape) ▸ hcallable
    rw [hname, entry_function hn' hcallable', hused, hsymbol, namesakes_reshaped hall, hplaced]
  · intro hclass
    rw [hname, entry_type hn' (hkind ▸ hclass), hsymbol]
  · intro hvariable
    rw [hname, entry_variable hn' (hkind ▸ hvariable),
      accessorStem_reshaped (hshapes.symm.trans hall) hshape]

/-- After the pass every node of the tree has the name that its symbol and its place in the tree
give it. -/
theorem nameAll_named {w : Workspace} (hf : w.forest.WellFormed) (settings : Settings)
    (root : NodeId) :
    let w' := nameAll settings w root
    ∀ id ∈ order w' w'.forest.depthBound root,
      NamedAmong w' (order w' w'.forest.depthBound root) id := by
  intro w' id hid
  have hshapes : w.Reshaped w' := nameAll_reshaped settings w root
  have horder : order w' w'.forest.depthBound root = order w w.forest.depthBound root := by
    rw [order, hshapes.preorder_eq, Forest.depthBound, hshapes.size, ← Forest.depthBound, order]
  rw [horder] at hid ⊢
  obtain ⟨n, hn⟩ := (Forest.within_of_mem_preorder hf hid).2
  obtain ⟨k, hk, -⟩ := Option.map_eq_some_iff.mp hn
  have hw' : w' = (entries settings (order w w.forest.depthBound root) ({}, w)).2 :=
    (nameAll_eq settings w root).trans (congrArg Prod.snd (@named_eq settings ({}, w) hf _ root))
  rw [hw']
  exact entries_named (Forest.preorder_nodup hf) hid hk

end Names

end Naming

end Interop
