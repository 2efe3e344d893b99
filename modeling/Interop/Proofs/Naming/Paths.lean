import Interop.Proofs.Header.Steady
import Interop.Proofs.Naming.Reordering

namespace Interop

open Overlay

namespace Overlay.Forest

variable {f : Forest} {v v' : NodeId}

/-- The names that a path is made of: those of the classes and enums around a node, from the
outermost in, and its own. -/
def pathNames (f : Forest) (id : NodeId) : List String :=
  f.namesOf (fun k => k == .classType || k == .enumeration) (f.ancestors id) ++
    [(f.node? id).elim "" Node.name]

/-- The managed path is its names, with dots between them. -/
theorem managedPath_eq_intercalate (f : Forest) (id : NodeId) :
    f.managedPath id = ".".intercalate (f.pathNames id) :=
  rfl

/-- Names without dots can be read off a path. -/
theorem splitOn_managedPath (h : ∀ name ∈ f.pathNames v, Header.Undotted name) :
    (f.managedPath v).toList.splitOn '.' = (f.pathNames v).map String.toList := by
  rw [managedPath_eq_intercalate, String.toList_intercalate]
  refine List.splitOn_intercalate '.' (fun cs hcs => ?_) (by simp [pathNames])
  obtain ⟨name, hname, rfl⟩ := List.mem_map.mp hcs
  exact h name hname

/-- Managed paths are the same exactly if their names are, as long as no name has a dot. -/
theorem managedPath_eq_iff (hv : ∀ name ∈ f.pathNames v, Header.Undotted name)
    (hv' : ∀ name ∈ f.pathNames v', Header.Undotted name) :
    f.managedPath v = f.managedPath v' ↔ f.pathNames v = f.pathNames v' := by
  constructor
  · intro h
    have hsplit := congrArg (fun path : String => path.toList.splitOn '.') h
    simp only [splitOn_managedPath hv, splitOn_managedPath hv'] at hsplit
    exact List.map_injective_iff.mpr (fun _ _ hsame => String.toList_injective hsame) hsplit
  · intro h
    rw [managedPath_eq_intercalate, h, managedPath_eq_intercalate]

end Overlay.Forest

namespace Naming

variable {settings : Settings} {w : Workspace} {root user v : NodeId} {expression text : String}

/-- The text of a default that names a node is the node's path in the tree that is named. -/
theorem eq_managedPath_of_node
    (hdenoted : denoted? settings (namedUntil settings w root user) user expression =
      some (.node v))
    (htext : managedDefault? settings (namedUntil settings w root user) user expression =
      some text) :
    text = w.forest.managedPath v := by
  rw [managedDefault?_of_node hdenoted] at htext
  split at htext
  · rw [← Option.some.inj htext,
      (namedUntil_reshaped settings w root user).rearranged.managedPath_eq]
  · cases htext

/-- Wherever and whenever the pass takes two expressions for the names of nodes, it gives them one
text if and only if the nodes, and the classes and enums around them from the outermost in, have the
same names. The namespaces do not count. -/
theorem texts_eq_iff_pathNames {user' v' : NodeId} {expression' text' : String}
    (hdenoted : denoted? settings (namedUntil settings w root user) user expression =
      some (.node v))
    (hdenoted' : denoted? settings (namedUntil settings w root user') user' expression' =
      some (.node v'))
    (htext : managedDefault? settings (namedUntil settings w root user) user expression = some text)
    (htext' : managedDefault? settings (namedUntil settings w root user') user' expression' =
      some text')
    (hv : ∀ name ∈ w.forest.pathNames v, Header.Undotted name)
    (hv' : ∀ name ∈ w.forest.pathNames v', Header.Undotted name) :
    text = text' ↔ w.forest.pathNames v = w.forest.pathNames v' := by
  rw [eq_managedPath_of_node hdenoted htext, eq_managedPath_of_node hdenoted' htext']
  exact Forest.managedPath_eq_iff hv hv'

/-- The tree of two namespaces `A` and `B` with an enum of one enumerator `x` each, and of a class
with a function that has the enumerators for its defaults. -/
def spacedEnums (first second : String) : Workspace :=
  let enum (space name : String) : Declaration :=
    { kind := .nameSpace, name := space, line := 1
      children := [{ kind := .enumeration, name, line := 1, flags := { isDefinition := true }
                     children := [{ kind := .enumerator, name := "x", line := 1 }] }] }
  let f : Declaration :=
    { kind := .memberFunction, name := "f", line := 1, returnType? := some (.builtin .void)
      parameters := [{ name := "a", type := .builtin .int,
                       default? := some ("A::" ++ first ++ "::x") },
                     { name := "b", type := .builtin .int,
                       default? := some ("B::" ++ second ++ "::x") }] }
  let class_ : Declaration :=
    { kind := .classType, name := "C", line := 1, flags := { isDefinition := true },
      children := [f] }
  let g := Generator.ofDirectories ⟨""⟩ ⟨"/o"⟩
  let s : Surroundings :=
    { settings := g.settings, rules := { name := "M" }, root := (g.restart []).1 }
  let p : Passes := ⟨[.containers, .members], [.globals]⟩
  (p.apply s [HeaderUnit.ofDeclarations ⟨"A.h"⟩ [enum "A" first, enum "B" second, class_]]
    (g.restart []).2).1

/-- Enumerators of enums with different names have different texts. -/
theorem texts_eq_iff_pathNames_apart :
    let w := spacedEnums "E" "F"
    let current := namedUntil {} w ⟨0⟩ ⟨8⟩
    denoted? {} current ⟨8⟩ "A::E::x" = some (.node ⟨3⟩) ∧
      denoted? {} current ⟨8⟩ "B::F::x" = some (.node ⟨6⟩) ∧
      w.forest.pathNames ⟨3⟩ = ["E", "x"] ∧ w.forest.pathNames ⟨6⟩ = ["F", "x"] ∧
      ∀ text text', managedDefault? {} current ⟨8⟩ "A::E::x" = some text →
        managedDefault? {} current ⟨8⟩ "B::F::x" = some text' → text ≠ text' := by
  intro w current
  have hfirst : denoted? {} current ⟨8⟩ "A::E::x" = some (.node ⟨3⟩) := by decide +kernel
  have hsecond : denoted? {} current ⟨8⟩ "B::F::x" = some (.node ⟨6⟩) := by decide +kernel
  have hnames : w.forest.pathNames ⟨3⟩ = ["E", "x"] := by decide +kernel
  have hnames' : w.forest.pathNames ⟨6⟩ = ["F", "x"] := by decide +kernel
  refine ⟨hfirst, hsecond, hnames, hnames', fun text text' htext htext' heq => ?_⟩
  have hpaths := (texts_eq_iff_pathNames hfirst hsecond htext htext'
    (by rw [hnames]; simp [Header.Undotted])
    (by rw [hnames']; simp [Header.Undotted])).mp heq
  rw [hnames, hnames'] at hpaths
  exact absurd hpaths (by decide)

/-- Two enumerators whose enums have the same name in different namespaces are both called `E.x`. -/
theorem texts_meet :
    let w := spacedEnums "E" "E"
    let current := namedUntil {} w ⟨0⟩ ⟨8⟩
    denoted? {} current ⟨8⟩ "A::E::x" = some (.node ⟨3⟩) ∧
      denoted? {} current ⟨8⟩ "B::E::x" = some (.node ⟨6⟩) ∧
      (w.node ⟨3⟩).symbol = "A::E::x" ∧ (w.node ⟨6⟩).symbol = "B::E::x" ∧
      managedDefault? {} current ⟨8⟩ "A::E::x" = some "E.x" ∧
        managedDefault? {} current ⟨8⟩ "B::E::x" = some "E.x" ∧
      ((nameAll {} w ⟨0⟩).node ⟨8⟩).parameters.map (·.managedDefault?) = [some "E.x",
          some "E.x"] := by
  decide +kernel

end Naming

end Interop
