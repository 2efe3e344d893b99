import Interop.Proofs.Naming.Numbers
import Mathlib.Data.List.Pairwise

namespace Interop.Emit

open Overlay Naming

variable {s : Surroundings} {w : Workspace} {id other : NodeId} {ids : List NodeId}

/-- The nodes of the tree of a namespace in the order in which they are named. -/
def treeOrder (s : Surroundings) (w : Workspace) : List NodeId :=
  order w w.forest.depthBound s.root

/-- The nodes that the bridge file has functions of. -/
def exporters (s : Surroundings) (w : Workspace) : List NodeId :=
  (w.forest.preorder isClosed w.forest.depthBound s.root).filter fun id =>
    !(exported s w id).isEmpty

/-- The flat name of a node's symbol. -/
def flatName (w : Workspace) (id : NodeId) : String :=
  Symbol.flat (w.node id).symbol

/-- How many functions of the same flat name come before a function of the tree. -/
def overload (s : Surroundings) (w : Workspace) (id : NodeId) : Nat :=
  namesakes w (treeOrder s w) id

/-- The stem of the names of a variable's accessors. -/
def stem (w : Workspace) (id : NodeId) : String :=
  accessorStem w (w.node id)

/-- The names of the bridge functions of a node, told by its symbol and its place in the tree. -/
def names (s : Surroundings) (w : Workspace) (id : NodeId) : List String :=
  let n := w.node id
  if n.kind = .classType then [flatName w id ++ "_destructor"]
  else if isCallable n then [numbered (flatName w id) (overload s w id)]
  else if n.isConstant then ["get_" ++ stem w id]
  else ["get_" ++ stem w id, "set_" ++ stem w id]

/-- Whether no two bridge functions of a tree meet in their names. -/
structure Unambiguous (s : Surroundings) (w : Workspace) : Prop where
  /-- No function's flat name is the flat name of another function with that function's number
  behind it. -/
  functions : ∀ id ∈ exporters s w, ∀ other ∈ exporters s w, isCallable (w.node id) = true →
    isCallable (w.node other) = true → overload s w id = 0 → overload s w other ≠ 0 →
    flatName w id ≠ numbered (flatName w other) (overload s w other)
  types : ∀ id ∈ exporters s w, ∀ other ∈ exporters s w, (w.node id).kind = .classType →
    (w.node other).kind = .classType → flatName w id = flatName w other → id = other
  accessors : ∀ id ∈ exporters s w, ∀ other ∈ exporters s w, (w.node id).kind.isVariable = true →
    (w.node other).kind.isVariable = true → stem w id = stem w other → id = other
  functionTypes : ∀ id ∈ exporters s w, ∀ other ∈ exporters s w, isCallable (w.node id) = true →
    (w.node other).kind = .classType →
    numbered (flatName w id) (overload s w id) ≠ flatName w other ++ "_destructor"
  functionAccessors : ∀ id ∈ exporters s w, ∀ other ∈ exporters s w, isCallable (w.node id) = true →
    (w.node other).kind.isVariable = true → numbered (flatName w id) (overload s w id) ∉
      names s w other
  accessorTypes : ∀ id ∈ exporters s w, ∀ other ∈ exporters s w, (w.node id).kind.isVariable =
    true → (w.node other).kind = .classType → flatName w other ++ "_destructor" ∉ names s w id

/-- A class has the function that destroys its objects. -/
theorem names_of_type (h : (w.node id).kind = .classType) :
    names s w id = [flatName w id ++ "_destructor"] := by
  simp [names, h]

/-- A function is named after its symbol, with a number that tells overloads apart. -/
theorem names_of_callable (h : isCallable (w.node id) = true) :
    names s w id = [numbered (flatName w id) (overload s w id)] := by
  have hkind : (w.node id).kind ≠ .classType := by
    rcases isCallable_iff.mp h with hkind | hkind | hkind <;> simp [hkind]
  simp [names, hkind, h]

/-- A variable has a getter, and a setter unless it is constant. -/
theorem names_of_variable (h : (w.node id).kind.isVariable = true) :
    names s w id =
      if (w.node id).isConstant then ["get_" ++ stem w id] else ["get_" ++ stem w id,
          "set_" ++ stem w id] := by
  unfold names isCallable
  rcases isVariable_iff.mp h with hkind | hkind | hkind <;> simp [hkind]

theorem mem_names_of_variable {name : String} (h : (w.node id).kind.isVariable = true)
    (hname : name ∈ names s w id) :
    name = "get_" ++ stem w id ∨ name = "set_" ++ stem w id := by
  rw [names_of_variable h] at hname
  split at hname
  · exact .inl (List.mem_singleton.mp hname)
  · simpa using hname

/-- Only classes, functions and variables have bridge functions. -/
theorem kind_of_exported (h : exported s w id ≠ []) :
    (w.node id).kind = .classType ∨ isCallable
    (w.node id) = true ∨ (w.node id).kind.isVariable = true := by
  by_contra hnot
  rw [isCallable_iff, isVariable_iff] at hnot
  push Not at hnot
  apply h
  unfold exported memberFunctions
  split
  · rfl
  · cases hkind : (w.node id).kind <;> simp_all

/-- A function that can be called from managed code is exported under the name that the naming pass
has given it. -/
theorem name_of_callable? {m : Mapper} {class_ n : Node} {f : BridgeFunction}
    (h : callable? m class_ n = some f) :
    f.name = n.bridgeName := by
  simp only [callable?, Option.bind_eq_bind] at h
  obtain ⟨arguments, -, h⟩ := Option.bind_eq_some_iff.mp h
  obtain ⟨result?, -, h⟩ := Option.bind_eq_some_iff.mp h
  rw [← Option.some.inj h]

/-- The accessors of a variable whose type resolves are named after its stem. -/
theorem map_name_accessors {m : Mapper} {class_ n : Node} (h : accessors m class_ n ≠ []) :
    (accessors m class_ n).map BridgeFunction.name =
      if n.isConstant then ["get_" ++ n.bridgeName] else ["get_" ++ n.bridgeName,
          "set_" ++ n.bridgeName] := by
  unfold accessors at h ⊢
  split
  · rename_i hvalue
    simp [hvalue] at h
  · split
    · rename_i hvalue _ htype
      simp [hvalue, htype] at h
    · cases n.isConstant <;> rfl

/-- Where names are given as the naming pass gives them, the functions of a node have the names that
the node's symbol and place tell. -/
theorem map_name_exported (hnamed : NamedAmong w (treeOrder s w) id) (h : exported s w id ≠ []) :
    (exported s w id).map BridgeFunction.name = names s w id := by
  have hkinds := kind_of_exported h
  unfold exported at h ⊢
  cases howner : owner? w id with
  | none => simp [howner] at h
  | some class_ =>
    simp only [howner] at h ⊢
    rcases hkinds with hkind | hcallable | hvariable
    · rw [names_of_type hkind, if_pos hkind] at *
      split at h
      · simp at h
      · rename_i hstatic
        simp [hstatic, destructor, hnamed.type hkind, flatName]
    · have hkind : (w.node id).kind ≠ .classType := by
        rcases isCallable_iff.mp hcallable with hkind | hkind | hkind <;> simp [hkind]
      have hmember : memberFunctions (s.mapper w (w.node class_).symbol) (w.node class_)
          (w.node id) = (callable? (s.mapper w (w.node class_).symbol) (w.node class_)
              (w.node id)).toList := by
        unfold memberFunctions
        rcases isCallable_iff.mp hcallable with hkind | hkind | hkind <;> rw [hkind]
      rw [if_neg hkind, hmember] at h ⊢
      rw [names_of_callable hcallable]
      cases hfunction : callable? (s.mapper w (w.node class_).symbol) (w.node class_)
          (w.node id) with
      | none => simp [hfunction] at h
      | some f =>
        simp [name_of_callable? hfunction, hnamed.callable hcallable, flatName, overload]
    · have hkind : (w.node id).kind ≠ .classType := by
        rcases isVariable_iff.mp hvariable with hkind | hkind | hkind <;> simp [hkind]
      have hmember : memberFunctions (s.mapper w (w.node class_).symbol) (w.node class_)
          (w.node id) = accessors (s.mapper w (w.node class_).symbol) (w.node class_)
              (w.node id) := by
        unfold memberFunctions
        rcases isVariable_iff.mp hvariable with hkind | hkind | hkind <;> rw [hkind]
      rw [if_neg hkind, hmember] at h ⊢
      rw [names_of_variable hvariable, map_name_accessors h, hnamed.accessor hvariable, stem]

/-- Of two functions of one flat name the later one has the greater number. -/
theorem namesakes_lt {before after : List NodeId} (hnodup : (before ++ id :: after).Nodup)
    (hother : other ∈ after) (hcallable : isCallable (w.node id) = true)
    (hname : flatName w id = flatName w other) :
    namesakes w (before ++ id :: after) id < namesakes w (before ++ id :: after) other := by
  have hbefore : ∀ key ∈ before, (key != id) = true ∧ (key != other) = true := by
    intro key hkey
    have hdisjoint := List.disjoint_of_nodup_append hnodup hkey
    rw [bne_iff_ne, bne_iff_ne]
    constructor
    · rintro rfl
      exact hdisjoint List.mem_cons_self
    · rintro rfl
      exact hdisjoint (List.mem_cons_of_mem _ hother)
  have hne : (id != other) = true := by
    rw [bne_iff_ne]
    rintro rfl
    exact (List.nodup_cons.mp (List.nodup_append.mp hnodup).2.1).1 hother
  have hself : hasFlatName w (flatName w other) id = true := by
    rw [← hname]
    simp [hasFlatName, hcallable, flatName]
  have hid : namesakes w (before ++ id :: after) id = before.countP (hasFlatName w
      (flatName w other)) := by
    rw [namesakes, List.takeWhile_append_of_pos fun key hkey => (hbefore key hkey).1, ← hname,
      flatName]
    simp
  have hlater : namesakes w (before ++ id :: after) other =
      before.countP (hasFlatName w (flatName w other)) +
        ((after.takeWhile (· != other)).countP (hasFlatName w (flatName w other)) + 1) := by
    rw [namesakes, List.takeWhile_append_of_pos fun key hkey => (hbefore key hkey).2,
      @List.takeWhile_cons_of_pos _ (· != other) _ _ hne,
      ← flatName, List.countP_append, List.countP_cons_of_pos hself]
  omega

/-- Functions of one flat name are counted in the order they are named in, so no two have as many
namesakes in front of them. The order must not repeat any. -/
theorem namesakes_ne (hnodup : ids.Nodup) (hid : id ∈ ids) (hother : other ∈ ids) (hne : id ≠ other)
    (hcallable : isCallable (w.node id) = true) (hcallable' : isCallable (w.node other) = true)
    (hname : flatName w id = flatName w other) : namesakes w ids id ≠ namesakes w ids other := by
  obtain ⟨before, after, rfl⟩ := List.append_of_mem hid
  rcases List.mem_append.mp hother with hbefore | hafter
  · obtain ⟨first, rest, rfl⟩ := List.append_of_mem hbefore
    rw [List.append_assoc, List.cons_append] at hnodup ⊢
    exact Nat.ne_of_gt (namesakes_lt hnodup (by simp) hcallable' hname.symm)
  · have hmem : other ∈ after := (List.mem_cons.mp hafter).resolve_left (Ne.symm hne)
    exact Nat.ne_of_lt (namesakes_lt hnodup hmem hcallable hname)

/-- Two functions meet in their names only if the flat name of one is the numbered name of the
other. -/
theorem Unambiguous.functions_ne (h : Unambiguous s w) (hnodup : (treeOrder s w).Nodup)
    (htree : ∀ id ∈ exporters s w, id ∈ treeOrder s w) (hid : id ∈ exporters s w)
    (hother : other ∈ exporters s w) (hne : id ≠ other) (hcallable : isCallable (w.node id) = true)
    (hcallable' : isCallable (w.node other) = true) :
    numbered (flatName w id) (overload s w id) ≠
      numbered (flatName w other) (overload s w other) := by
  have hnumbers : flatName w id = flatName w other → overload s w id ≠ overload s w other :=
    namesakes_ne hnodup (htree id hid) (htree other hother) hne hcallable hcallable'
  intro hsame
  by_cases hzero : overload s w id = 0
  · by_cases hzero' : overload s w other = 0
    · rw [hzero, hzero'] at hsame
      exact hnumbers hsame (hzero.trans hzero'.symm)
    · rw [hzero] at hsame
      exact h.functions id hid other hother hcallable hcallable' hzero hzero' hsame
  · by_cases hzero' : overload s w other = 0
    · rw [hzero'] at hsame
      exact h.functions other hother id hid hcallable' hcallable hzero' hzero hsame.symm
    · obtain ⟨hname, hcount⟩ := (numbered_inj hzero hzero').mp hsame
      exact hnumbers hname hcount

/-- A getter is never named like a setter. -/
theorem get_ne_set (a b : String) : "get_" ++ a ≠ "set_" ++ b := by
  intro h
  have hlist := congrArg String.toList h
  simp at hlist

/-- In a tree without ways to meet, no two nodes share a name. -/
theorem Unambiguous.disjoint (h : Unambiguous s w) (hnodup : (treeOrder s w).Nodup)
    (htree : ∀ id ∈ exporters s w, id ∈ treeOrder s w) (hid : id ∈ exporters s w)
    (hother : other ∈ exporters s w) (hne : id ≠ other) :
    List.Disjoint (names s w id) (names s w other) := by
  have hkinds : ∀ key ∈ exporters s w, _ := fun key hkey =>
    kind_of_exported (by simpa using (List.mem_filter.mp hkey).2)
  intro name hname hname'
  rcases hkinds id hid with htype | hcallable | hvariable <;>
    rcases hkinds other hother with htype' | hcallable' | hvariable'
  · rw [names_of_type htype, List.mem_singleton] at hname
    rw [names_of_type htype', List.mem_singleton, hname, String.append_left_inj] at hname'
    exact hne (h.types id hid other hother htype htype' hname')
  · rw [names_of_type htype, List.mem_singleton] at hname
    rw [names_of_callable hcallable', List.mem_singleton, hname] at hname'
    exact h.functionTypes other hother id hid hcallable' htype hname'.symm
  · rw [names_of_type htype, List.mem_singleton] at hname
    exact h.accessorTypes other hother id hid hvariable' htype (hname ▸ hname')
  · rw [names_of_callable hcallable, List.mem_singleton] at hname
    rw [names_of_type htype', List.mem_singleton, hname] at hname'
    exact h.functionTypes id hid other hother hcallable htype' hname'
  · rw [names_of_callable hcallable, List.mem_singleton] at hname
    rw [names_of_callable hcallable', List.mem_singleton, hname] at hname'
    exact h.functions_ne hnodup htree hid hother hne hcallable hcallable' hname'
  · rw [names_of_callable hcallable, List.mem_singleton] at hname
    exact h.functionAccessors id hid other hother hcallable hvariable' (hname ▸ hname')
  · rw [names_of_type htype', List.mem_singleton] at hname'
    exact h.accessorTypes id hid other hother hvariable htype' (hname' ▸ hname)
  · rw [names_of_callable hcallable', List.mem_singleton] at hname'
    exact h.functionAccessors other hother id hid hcallable' hvariable (hname' ▸ hname)
  · have hstem : stem w id ≠ stem w other := fun heq =>
      hne (h.accessors id hid other hother hvariable hvariable' heq)
    rcases mem_names_of_variable hvariable hname with rfl | rfl <;>
      rcases mem_names_of_variable hvariable' hname' with heq | heq
    · exact hstem ((String.append_right_inj _).mp heq)
    · exact get_ne_set _ _ heq
    · exact get_ne_set _ _ heq.symm
    · exact hstem ((String.append_right_inj _).mp heq)

/-- A single node never gives one name twice. -/
theorem nodup_names (s : Surroundings) (w : Workspace) (id : NodeId) : (names s w id).Nodup := by
  unfold names
  dsimp only
  split
  · simp
  · split
    · simp
    · split
      · simp
      · simp

theorem getter_mem_names (h : (w.node id).kind.isVariable = true) :
    "get_" ++ stem w id ∈ names s w id := by
  rw [names_of_variable h]
  split <;> simp

/-- Where the nodes of a tree share no name, there is no way to meet. -/
theorem unambiguous_of_disjoint
    (h : ∀ id ∈ exporters s w, ∀ other ∈ exporters s w, id ≠ other →
      List.Disjoint (names s w id) (names s w other)) :
    Unambiguous s w := by
  constructor
  · intro id hid other hother hcallable hcallable' hzero hzero' heq
    have hne : id ≠ other := fun heq => hzero' (heq ▸ hzero)
    have hname : flatName w id ∈ names s w id := by
      rw [names_of_callable hcallable, hzero]
      exact List.mem_singleton_self _
    have hname' : flatName w id ∈ names s w other := by
      rw [names_of_callable hcallable', heq]
      exact List.mem_singleton_self _
    exact h id hid other hother hne hname hname'
  · intro id hid other hother htype htype' heq
    by_contra hne
    have hname : flatName w id ++ "_destructor" ∈ names s w id := by simp [names_of_type htype]
    have hname' : flatName w id ++ "_destructor" ∈ names s w other :=
      by simp [names_of_type htype', heq]
    exact h id hid other hother hne hname hname'
  · intro id hid other hother hvariable hvariable' heq
    by_contra hne
    have hname' : "get_" ++ stem w id ∈ names s w other := heq ▸ getter_mem_names hvariable'
    exact h id hid other hother hne (getter_mem_names hvariable) hname'
  · intro id hid other hother hcallable htype heq
    have hne : id ≠ other := by
      rintro rfl
      rcases isCallable_iff.mp hcallable with hkind | hkind | hkind <;> simp [hkind] at htype
    have hname : flatName w other ++ "_destructor" ∈ names s w id :=
      by simp [names_of_callable hcallable, heq]
    exact h id hid other hother hne hname (by simp [names_of_type htype])
  · intro id hid other hother hcallable hvariable hname'
    have hne : id ≠ other := by
      rintro rfl
      rcases isCallable_iff.mp hcallable with hkind | hkind | hkind <;> simp [hkind,
        Kind.isVariable] at hvariable
    exact h id hid other hother hne (by simp [names_of_callable hcallable]) hname'
  · intro id hid other hother hvariable htype hname
    have hne : id ≠ other := by
      rintro rfl
      simp [htype, Kind.isVariable] at hvariable
    exact h id hid other hother hne hname (by simp [names_of_type htype])

/-- The names of a bridge file are those of the exporting nodes, one after the other. -/
theorem map_name_functions (hf : w.forest.WellFormed)
    (hnamed : ∀ id ∈ treeOrder s w, NamedAmong w (treeOrder s w) id)
    (htree : ∀ id ∈ exporters s w, id ∈ treeOrder s w) :
    (BridgeFile.ofTree s w s.root).functions.map BridgeFunction.name = (exporters s w).flatMap
    (names s w) := by
  have hfunctions : (BridgeFile.ofTree s w s.root).functions =
      (w.forest.preorder isClosed w.forest.depthBound s.root).flatMap (exported s w) := by
    rw [ofTree_eq]
    exact (collected_eq hf w.forest.depthBound s.root {}).1
  have hkept : ∀ ids : List NodeId, ids.flatMap (exported s w) =
      (ids.filter fun id => !(exported s w id).isEmpty).flatMap (exported s w) := by
    intro ids
    induction ids with
    | nil => rfl
    | cons id rest ih =>
      by_cases hempty : exported s w id = []
      · simp [hempty, ih]
      · simp [hempty, ih]
  rw [hfunctions, hkept, List.map_flatMap]
  refine List.flatMap_congr fun id hid => map_name_exported (hnamed id (htree id hid)) ?_
  simpa using (List.mem_filter.mp hid).2

/-- A bridge file has no name twice exactly if there is no way for names to meet. -/
theorem nodup_functions_iff (hf : w.forest.WellFormed)
    (hnamed : ∀ id ∈ treeOrder s w, NamedAmong w (treeOrder s w) id) :
    ((BridgeFile.ofTree s w s.root).functions.map BridgeFunction.name).Nodup ↔ Unambiguous s w := by
  have htree : ∀ id ∈ exporters s w, id ∈ treeOrder s w := by
    intro id hid
    obtain ⟨hwithin, hcontent⟩ := Forest.within_of_mem_preorder hf (List.mem_filter.mp hid).1
    refine Forest.mem_preorder hf ?_ hwithin hcontent (by simp)
    unfold Forest.depthBound
    omega
  have hnodup : (exporters s w).Nodup := (Forest.preorder_nodup hf).filter _
  rw [map_name_functions hf hnamed htree, List.nodup_flatMap]
  constructor
  · rintro ⟨-, hpairs⟩
    have : Std.Symm (Function.onFun List.Disjoint (names s w)) :=
      ⟨fun _ _ h _ hname hname' => h hname' hname⟩
    exact unambiguous_of_disjoint fun id hid other hother hne => hpairs.forall hid hother hne
  · intro h
    refine ⟨fun id _ => nodup_names s w id,
      hnodup.pairwise_of_forall_ne fun id hid other hother hne => ?_⟩
    exact h.disjoint (Forest.preorder_nodup hf) htree hid hother hne

end Interop.Emit

namespace Interop

open Overlay Emit

variable {g : Generator} {others : List NodeId} {s : Surroundings}

/-- With the bridge pass at the end of the overlay passes, the bridge file is the only artifact. -/
theorem Passes.bridge_artifacts (s : Surroundings) (units : List HeaderUnit) (w : Workspace) :
    let made := Passes.apply ⟨[.containers, .members], [.globals, .naming, .bridge]⟩ s units w
    made.2 = [⟨BridgeFile.fileName s.rules, (BridgeFile.ofTree s made.1 s.root).text s⟩] :=
  rfl

/-- The function names of a bridge file are pairwise distinct exactly if no two of them meet,
whatever the headers and the rules are. -/
theorem Passes.bridge_names_nodup_iff (hg : Generator.Reached g.workspace)
    (hroot : s.root = (g.restart others).1) (units : List HeaderUnit) :
    let made := Passes.apply ⟨[.containers, .members], [.globals, .naming, .bridge]⟩ s units
      (g.restart others).2
    let b := BridgeFile.ofTree s made.1 s.root
    made.2 = [⟨BridgeFile.fileName s.rules, b.text s⟩] ∧
      ((b.functions.map BridgeFunction.name).Nodup ↔ Unambiguous s made.1) := by
  intro made b
  refine ⟨bridge_artifacts s units _, ?_⟩
  have hbare := Generator.restart_bareTree hg.wellFormed hroot
  have hrooted : Rooted s (OverlayPass.applyAll s
      ([RawPass.containers, RawPass.members].foldl (RawPass.apply s units) (g.restart others).2)
          [.globals]).1 :=
    Passes.apply_rooted (p := ⟨[.containers, .members], [.globals]⟩) hbare.rooted
  have hnamed := Naming.nameAll_named hrooted.wellFormed s.settings s.root
  exact nodup_functions_iff
    ((Naming.nameAll_reshaped s.settings _ s.root).wellFormed hrooted.wellFormed) hnamed

/-- Two overloaded constructors and a variable, whose functions have different names. -/
theorem Passes.bridge_names_nodup_iff_overloads :
    ∃ u : HeaderUnit,
      (Header.FrontEnd.builtin {} ⟨"A.h"⟩
        (.text "class A { public: A(); A(int x); int y; };")).result = .ok u ∧
      let g := Generator.ofDirectories ⟨""⟩ ⟨"/o"⟩
      let s : Surroundings :=
        { settings := g.settings, rules := { name := "M" }, root := (g.restart []).1 }
      let made := Passes.apply ⟨[.containers, .members], [.globals, .naming, .bridge]⟩ s [u]
        (g.restart []).2
      let b := BridgeFile.ofTree s made.1 s.root
      (made.1.forest.children ⟨1⟩).map
          (fun id => ((made.1.node id).kind, (made.1.node id).symbol)) =
          [(.constructor, "A::A"), (.constructor, "A::A"), (.memberVariable, "A::y")] ∧
        made.2 = [⟨BridgeFile.fileName s.rules, b.text s⟩] ∧
        ((b.functions.map BridgeFunction.name).Nodup ↔ Unambiguous s made.1) := by
  refine exists_ok_of_decide (fun u =>
    let g := Generator.ofDirectories ⟨""⟩ ⟨"/o"⟩
    let s : Surroundings :=
      { settings := g.settings, rules := { name := "M" }, root := (g.restart []).1 }
    let made := Passes.apply ⟨[.containers, .members], [.globals, .naming, .bridge]⟩ s [u]
      (g.restart []).2
    (made.1.forest.children ⟨1⟩).map (fun id => ((made.1.node id).kind, (made.1.node id).symbol)) =
      [(.constructor, "A::A"), (.constructor, "A::A"),
        (.memberVariable, "A::y")]) (by decide +kernel) fun u _ hnodes => ?_
  exact ⟨hnodes, Passes.bridge_names_nodup_iff (Generator.Reached.ofDirectories ⟨""⟩ ⟨"/o"⟩)
    rfl [u]⟩

/-- The number of an overload may give it the name of another function: of `void f(int a)`, `void
f(float a)` and `void f_1(int a)` the last two meet. -/
theorem Passes.bridge_names_meet :
    let function (name : String) (type : Builtin) : Declaration :=
      { kind := .freeFunction, name, returnType? := some (.builtin .void), line := 1
        parameters := [{ name := "a", type := .builtin type }] }
    let u := HeaderUnit.ofDeclarations ⟨"G.h"⟩ [function "f" .int, function "f" .float,
      function "f_1" .int]
    let g := Generator.ofDirectories ⟨""⟩ ⟨"/o"⟩
    let s : Surroundings :=
      { settings := g.settings, rules := { name := "M" }, root := (g.restart []).1 }
    let made := Passes.apply ⟨[.containers, .members], [.globals, .naming, .bridge]⟩ s [u]
      (g.restart []).2
    let b := BridgeFile.ofTree s made.1 s.root
    made.2 = [⟨BridgeFile.fileName s.rules, b.text s⟩] ∧
        ¬(b.functions.map BridgeFunction.name).Nodup := by
  intro function u g s made b
  have hnames : b.functions.map BridgeFunction.name = ["f", "f_1", "f_1"] := by decide +kernel
  refine ⟨Passes.bridge_artifacts s [u] _, ?_⟩
  rw [hnames]
  decide

end Interop
