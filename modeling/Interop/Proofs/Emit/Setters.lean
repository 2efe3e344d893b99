import Interop.Proofs.Emit.Distinct
import Interop.Proofs.Export.Provenance
import Interop.Proofs.Generator.Settled
import Interop.Proofs.Naming.Constants
import Interop.Proofs.Rules.Forced

namespace Interop

open Overlay Export Emit

namespace NativeType

/-- Whether a type is const-qualified when its aliases are resolved. -/
def isConstQualified : NativeType → Bool
  | qualified inner isConst _ => isConst || inner.isConstQualified
  | synonym _ target => target.isConstQualified
  | _ => false

/-- Whether a variable of a type cannot be assigned to: the type is const-qualified when its aliases
are resolved and one reference or array is looked through. -/
def isFrozen : NativeType → Bool
  | qualified inner isConst _ => isConst || inner.isFrozen
  | synonym _ target => target.isFrozen
  | reference referee _ => referee.isConstQualified
  | array element _ => element.isConstQualified
  | _ => false

/-- Whether a type shows at once that it is const-qualified, if it is. -/
def IsPlain (type : NativeType) : Prop :=
  type.isFrozen = true → Members.isConstType type = true

/-- On a type that shows its constness, the check of the second pass is right. -/
theorem IsPlain.isConstType_eq {type : NativeType} (h : type.IsPlain) :
    Members.isConstType type = type.isFrozen := by
  cases hconst : Members.isConstType type with
  | false =>
    cases hfrozen : type.isFrozen with
    | false => rfl
    | true => exact hconst.symm.trans (h hfrozen)
  | true =>
    cases type with
    | qualified inner isConst isVolatile =>
      rw [isFrozen, show isConst = true from hconst]
      rfl
    | _ => cases hconst

end NativeType

namespace Declaration

/-- Whether native code may assign to a variable. -/
def isAssignable (d : Declaration) : Bool :=
  !d.flags.isConstexpr && !d.type?.any NativeType.isFrozen

/-- A declaration is exported as constant exactly if it cannot be assigned to, provided that its
type shows its constness. -/
theorem isConstant_eq {d : Declaration} (h : ∀ type, d.type? = some type → type.IsPlain) :
    d.isConstant = !d.isAssignable := by
  rw [isConstant, isAssignable]
  cases htype : d.type? with
  | none => simp
  | some type => simp [(h type htype).isConstType_eq, Bool.or_comm]

end Declaration

/-- Naming makes a variable constant if its managed value forces it to, and takes back nothing. -/
theorem Naming.isConstant_nameAll {settings : Settings} {w : Workspace} {root id : NodeId}
    (hf : w.forest.WellFormed) (hwithin : w.forest.Within root id)
    (hvariable : (w.node id).kind.isVariable = true) :
    ((nameAll settings w root).node id).isConstant = ((w.node id).isConstant ||
      ((w.node id).nativeValue?.bind
        (managedDefault? settings (namedUntil settings w root id) id)).any
        settings.isForced) := by
  have hid := mem_order hf hwithin (by rintro heq; rw [heq] at hvariable; cases hvariable)
  have hcore := congrArg Node.isConstant (@core_nameAll settings _ _ hf _ hid)
  rw [valued_variable (n := core (w.node id)) hvariable] at hcore
  refine hcore.trans ?_
  rw [show (core (w.node id)).nativeValue? = (w.node id).nativeValue? from rfl]
  cases (w.node id).nativeValue?.bind
      (managedDefault? settings (namedUntil settings w root id) id) with
  | none => exact (Bool.or_false _).symm
  | some value =>
    rw [Option.elim_some, withValue_eq]
    rfl

/-- A variable has a setter exactly if it is not constant. -/
theorem Emit.BridgeFile.Covers.setter_iff {s : Surroundings} {w : Workspace} {b : BridgeFile}
    (h : b.Covers s w) (hsettled : AllSettled w) {id : NodeId} {n : Node}
    (hn : w.forest.node? id = some n) (hwithin : w.forest.Within s.root id)
    (hvariable : n.kind.isVariable = true) :
    (∃ f ∈ exported s w id, f.name = "set_" ++ n.bridgeName) ↔ n.isConstant = false := by
  have haccessors := h.accessors id n hn hwithin hvariable
  split at haccessors
  · rename_i hvalue
    have hconstant := (hsettled.node? hn).value hvariable hvalue
    simp [haccessors.1, hconstant]
  · obtain ⟨getter, setter, -, -, hgetter, hsetter, hexported, -⟩ := haccessors
    have hne : getter.name ≠ "set_" ++ n.bridgeName := hgetter ▸ get_ne_set _ _
    rw [hexported]
    cases n.isConstant with
    | false => simp [hsetter]
    | true => simp [hne]

/-- What is exported for a variable of the tree is in the bridge file. -/
theorem Emit.BridgeFile.Covers.mem_functions {s : Surroundings} {w : Workspace} {b : BridgeFile}
    (h : b.Covers s w) {id : NodeId} {n : Node} (hn : w.forest.node? id = some n)
    (hwithin : w.forest.Within s.root id) (hvariable : n.kind.isVariable = true)
    {f : BridgeFunction} (hf : f ∈ exported s w id) : f ∈ b.functions := by
  obtain ⟨ids, -, hids, hfunctions, -⟩ := h.nodes
  have hkind : n.kind ≠ .enumerator := by
    rintro heq
    rw [heq] at hvariable
    cases hvariable
  rw [hfunctions]
  exact List.mem_flatMap.mpr ⟨id, (hids id n hn hkind).mpr hwithin, hf⟩

section Standard

variable {g : Generator} {others : List NodeId} {s : Surroundings} {units : List HeaderUnit}

/-- When the naming pass begins, every variable is what a public declaration is exported as, and
constant if the declaration is. -/
theorem AllPublished.of_globals (hg : Generator.Reached g.workspace)
    (hroot : s.root = (g.restart others).1) (units : List HeaderUnit) :
    AllFrom (fun o m n => o.Published m n ∧
      (n.kind.isVariable = true → n.isConstant = o.declaration.isConstant)) s units
      (Passes.apply ⟨[.containers, .members], [.globals]⟩ s units (g.restart others).2).1 := by
  refine AllFrom.of_globals hg hroot (fun mapper o m n h => ⟨.of_admitted h, fun hvariable => ?_⟩)
    (fun _ _ _ _ h hglobal hhouses => ⟨h.1.moved hglobal hhouses, h.2⟩) units
  have hkind : n.kind = o.declaration.kind := (Origin.Published.of_admitted h).kind
  have hconstant : n.unlinked.isConstant = (o.exported m).isConstant :=
    congrArg Node.isConstant h.node
  refine hconstant.trans ?_
  exact (Declaration.exported_of_isVariable _ _ _ (hkind ▸ hvariable)).2.2

/-- When it is named, a variable is what a public declaration is exported as, and is constant if the
declaration is or its managed value forces it to be. -/
theorem exists_published_of_naming (hg : Generator.Reached g.workspace)
    (hroot : s.root = (g.restart others).1) (units : List HeaderUnit) :
    let before := (Passes.apply ⟨[.containers, .members], [.globals]⟩ s units
      (g.restart others).2).1
    let named := Naming.nameAll s.settings before s.root
    ∀ id n, named.forest.node? id = some n → named.forest.Within s.root id →
      n.kind.isVariable = true → ∃ parent, named.forest.parent? id = some parent ∧
        ∃ o ∈ originsIn units, o.Published (named.node parent) n ∧
        n.isConstant = (o.declaration.isConstant ||
          (o.declaration.value?.bind (Naming.managedDefault? s.settings
          (Naming.namedUntil s.settings before s.root id) id)).any s.settings.isForced) := by
  intro before named id n hn hwithin hvariable
  have hrooted : Rooted s before :=
    Passes.apply_rooted (Generator.restart_bareTree hg.wellFormed hroot).rooted _
  have hreshaped : before.Reshaped named := Naming.nameAll_reshaped s.settings before s.root
  obtain ⟨k, hk, hshape⟩ := hreshaped.exists_content (Forest.content?_of_node? hn)
  have hkind : k.kind.isVariable = true := (Node.kind_eq_of_shape hshape).symm ▸ hvariable
  have hinside := hreshaped.within_iff.mp hwithin
  have hmember : k.isMember = true := by
    rw [Node.isMember, Bool.or_eq_true]
    exact .inr hkind
  obtain ⟨parent, m, hparent, hm, o, ho, hpublished, hconstant⟩ :=
    (AllPublished.of_globals hg hroot units).exists_origin hrooted hinside hk hmember
  obtain ⟨m', hm', hshape'⟩ := hreshaped.symm.exists_content hm
  have hfinal := @Naming.isConstant_nameAll s.settings before s.root id hrooted.wellFormed hinside
    (by rw [Globals.node_kind hk, hkind])
  rw [show (before.node id).isConstant = k.isConstant by rw [← Workspace.node_unlinked hk]; rfl,
    hconstant hkind, show (before.node id).nativeValue? =
      k.nativeValue? by rw [← Workspace.node_unlinked hk]; rfl,
    hpublished.initializer hkind] at hfinal
  refine ⟨parent, (hreshaped.parent?_eq id).trans hparent, o, ho, ?_, ?_⟩
  · obtain rfl := (Workspace.node_unlinked hm').symm
    exact (hpublished.of_shape hshape'.symm hshape).linked
  · rw [← hfinal]
    exact congrArg Node.isConstant (Workspace.node_of_node? hn).symm

variable {document : Json} {source : Path} {rules : Rules}

/-- A variable has a setter in the bridge file if and only if native code may assign to its
declaration, and the managed value that its own initializer has when it is named is none that the
rules document forces constants by. The type has to show its constness, if it is const-qualified. -/
theorem Passes.setters_iff (hg : Generator.Reached g.workspace)
    (hroot : s.root = (g.restart others).1) (hkept : s.kept = others)
    (hread : ∀ u ∈ units, ∃ configuration path content,
      (Header.FrontEnd.builtin configuration path content).result = .ok u)
    (hspaced : ∀ u ∈ units, u.root.Nested Kind.Spaced .file)
    (hrules : Rules.ofJson document source = .ok rules)
    (hforced : s.settings.forced = rules.settings.forced) :
    let before := (Passes.apply ⟨[.containers, .members], [.globals]⟩ s units
      (g.restart others).2).1
    let made := Passes.apply ⟨[.containers, .members], [.globals, .naming, .bridge]⟩ s units
      (g.restart others).2
    let b := BridgeFile.ofTree s made.1 s.root
    made.2 = [⟨BridgeFile.fileName s.rules, b.text s⟩] ∧
      ∀ id n, made.1.forest.node? id = some n → made.1.forest.Within s.root id →
        n.kind.isVariable = true → (∀ f ∈ exported s made.1 id, f ∈ b.functions) ∧
        ∃ parent, made.1.forest.parent? id = some parent ∧
          ∃ o ∈ originsIn units, o.Published (made.1.node parent) n ∧
          ((∀ type, o.declaration.type? = some type → type.IsPlain) →
            ((∃ f ∈ exported s made.1 id, f.name = "set_" ++ n.bridgeName) ↔
              o.declaration.isAssignable = true ∧ ∀ initializer value, o.declaration.value? =
                some initializer → Naming.managedDefault? s.settings
                  (Naming.namedUntil s.settings before s.root id) id initializer =
                  some value → ¬document.Forces value)) := by
  intro before made b
  have hcovers : b.Covers s made.1 := (housedTree_of_passes hg hroot hkept hread hspaced).covers
  have hsettled : AllSettled made.1 :=
    Passes.apply_settled (Generator.restart_bareTree hg.wellFormed hroot).rooted
      (Generator.restart_settled hg.wellFormed hg.settled others) _
  have hforces : ∀ value, s.settings.isForced value = true ↔
      document.Forces value := fun value => by
    rw [← Rules.isForced_iff hrules value, Settings.isForced, Settings.isForced, hforced]
  refine ⟨rfl, fun id n hn hwithin hvariable =>
    ⟨fun f hf => hcovers.mem_functions hn hwithin hvariable hf, ?_⟩⟩
  obtain ⟨parent, hparent, o, ho, hpublished, hconstant⟩ :=
    exists_published_of_naming hg hroot units id n hn hwithin hvariable
  refine ⟨parent, hparent, o, ho, hpublished, fun hplain => ?_⟩
  rw [hcovers.setter_iff hsettled hn hwithin hvariable, hconstant, Declaration.isConstant_eq hplain,
    Bool.or_eq_false_iff, Bool.not_eq_false']
  refine and_congr_right fun _ => ?_
  rw [← Bool.not_eq_true, Option.any_eq_true]
  constructor
  · intro h initializer value hinitializer hvalue hmarked
    exact h ⟨value, Option.bind_eq_some_iff.mpr ⟨initializer, hinitializer, hvalue⟩,
      (hforces value).mpr hmarked⟩
  · rintro h ⟨value, hvalue, hmarked⟩
    obtain ⟨initializer, hinitializer, hvalue⟩ := Option.bind_eq_some_iff.mp hvalue
    exact h initializer value hinitializer hvalue ((hforces value).mp hmarked)

/-- A variable whose initializer names a default value that is marked has no setter, and one without
an initializer has one. -/
theorem Passes.setters_iff_marked :
    let document : Json :=
      .object [("default-values",
        .object [("K", .object [("const", .bool true), ("value", .string "42")])])]
    ∃ u : HeaderUnit,
      (Header.FrontEnd.builtin
        {} ⟨"A.h"⟩ (.text "class A { public: static int x = K; int y; };")).result = .ok u ∧
      ∃ rules : Rules, Rules.ofJson document ⟨""⟩ = .ok rules ∧
        let g := Generator.ofDirectories ⟨""⟩ ⟨"/o"⟩
        let s : Surroundings :=
          { settings := rules.settings, rules := { name := "M" }, root := (g.restart []).1 }
        let before := (Passes.apply ⟨[.containers, .members], [.globals]⟩ s [u] (g.restart []).2).1
        let made := Passes.apply ⟨[.containers, .members], [.globals, .naming, .bridge]⟩ s [u]
          (g.restart []).2
        let b := BridgeFile.ofTree s made.1 s.root
        (made.1.forest.children ⟨1⟩).map
            (fun id => ((made.1.node id).symbol, (made.1.node id).isConstant)) =
            [("A::x", true), ("A::y", false)] ∧
          made.2 = [⟨BridgeFile.fileName s.rules, b.text s⟩] ∧
          ∀ id n, made.1.forest.node? id = some n → made.1.forest.Within s.root id →
            n.kind.isVariable = true → (∀ f ∈ exported s made.1 id, f ∈ b.functions) ∧
            ∃ parent, made.1.forest.parent? id = some parent ∧
              ∃ o ∈ originsIn [u], o.Published (made.1.node parent) n ∧
              ((∀ type, o.declaration.type? = some type → type.IsPlain) →
                ((∃ f ∈ exported s made.1 id, f.name = "set_" ++ n.bridgeName) ↔
                  o.declaration.isAssignable = true ∧ ∀ initializer value, o.declaration.value? =
                    some initializer → Naming.managedDefault? s.settings
                      (Naming.namedUntil s.settings before s.root id) id initializer =
                      some value → ¬document.Forces value)) := by
  intro document
  let inClass (u : HeaderUnit) (rules : Rules) : List (String × Bool) :=
    let g := Generator.ofDirectories ⟨""⟩ ⟨"/o"⟩
    let s : Surroundings :=
      { settings := rules.settings, rules := { name := "M" }, root := (g.restart []).1 }
    let made := Passes.apply ⟨[.containers, .members], [.globals, .naming, .bridge]⟩ s [u]
      (g.restart []).2
    (made.1.forest.children ⟨1⟩).map fun id => ((made.1.node id).symbol,
      (made.1.node id).isConstant)
  refine exists_ok_of_decide (fun u => u.root.Nested Kind.Spaced .file ∧
    ((Rules.ofJson document ⟨""⟩).toOption.any
    fun rules => decide (inClass u rules = [("A::x", true), ("A::y", false)])) = true)
    (by decide +kernel) fun u hu ⟨hspaced, hvariables⟩ => ?_
  refine exists_ok_of_decide (fun rules => inClass u rules = [("A::x", true), ("A::y", false)])
    hvariables
    fun rules hrules hvariables => ?_
  intro g s before made b
  exact ⟨hvariables, Passes.setters_iff (Generator.Reached.ofDirectories ⟨""⟩ ⟨"/o"⟩) rfl rfl
    (List.forall_mem_singleton.mpr ⟨_, _, _, hu⟩) (List.forall_mem_singleton.mpr hspaced)
      hrules rfl⟩

/-- A variable that native code may assign to has no setter, though its initializer is no name: it
has the value of a default value that is marked. One that is constant under an alias has a setter.
One in a namespace of a class, where globals are not looked for, has none. -/
theorem Passes.setters_ne_assignable :
    let document : Json :=
      .object [("default-values",
        .object [("K", .object [("const", .bool true), ("value", .string "42")])])]
    let header := "class A \x7b public: typedef const int C; static C y; static int x = 42; " ++
      "namespace N { int z; } \x7d;"
    ∃ u : HeaderUnit, (Header.FrontEnd.builtin {} ⟨"A.h"⟩ (.text header)).result = .ok u ∧
      ∃ rules : Rules, Rules.ofJson document ⟨""⟩ = .ok rules ∧
        (∃ d ∈ u.root.subtree, d.name = "x" ∧ d.isAssignable = true ∧ d.value? = some "42") ∧
        (∃ d ∈ u.root.subtree, d.name = "y" ∧ d.isAssignable = false) ∧
        (∃ d ∈ u.root.subtree, d.name = "z" ∧ d.isAssignable = true ∧ d.value? = .none) ∧
        let g := Generator.ofDirectories ⟨""⟩ ⟨"/o"⟩
        let s : Surroundings :=
          { settings := rules.settings, rules := { name := "M" }, root := (g.restart []).1 }
        let made := Passes.apply ⟨[.containers, .members], [.globals, .naming, .bridge]⟩ s [u]
          (g.restart []).2
        let b := BridgeFile.ofTree s made.1 s.root
        made.2 = [⟨BridgeFile.fileName s.rules, b.text s⟩] ∧
          (∀ name ∈ ["x", "y", "z"], ∃ id, made.1.forest.Within s.root id ∧
            (made.1.node id).kind.isVariable = true ∧ (made.1.node id).name = name) ∧
          b.functions.map (·.name) = ["A_destructor", "get_A_y", "set_A_y"] := by
  intro document header
  let root := ((Generator.ofDirectories ⟨""⟩ ⟨"/o"⟩).restart []).1
  let made (u : HeaderUnit) (rules : Rules) : Workspace × List Artifact :=
    Passes.apply ⟨[.containers, .members], [.globals, .naming, .bridge]⟩
      { settings := rules.settings, rules := { name := "M" }, root } [u]
      ((Generator.ofDirectories ⟨""⟩ ⟨"/o"⟩).restart []).2
  let Good (u : HeaderUnit) (rules : Rules) : Prop :=
    let w := (made u rules).1
    (w.forest.parent? ⟨1⟩ = some root ∧ w.forest.parent? ⟨2⟩ = some ⟨1⟩ ∧
      w.forest.parent? ⟨3⟩ = some ⟨1⟩ ∧ w.forest.parent? ⟨4⟩ = some ⟨1⟩ ∧
        w.forest.parent? ⟨5⟩ = some ⟨2⟩) ∧
    (∀ p ∈ [(NodeId.mk 4, "x"), (⟨3⟩, "y"), (⟨5⟩, "z")],
      (w.node p.1).kind.isVariable = true ∧ (w.node p.1).name = p.2) ∧
    (BridgeFile.ofTree { settings := rules.settings, rules := { name := "M" },
                         root } w root).functions.map (·.name) =
      ["A_destructor", "get_A_y", "set_A_y"]
  refine exists_ok_of_decide (fun u => (∃ d ∈ u.root.subtree, d.name = "x" ∧
    d.isAssignable = true ∧ d.value? = some "42") ∧ (∃ d ∈ u.root.subtree, d.name = "y" ∧
      d.isAssignable = false) ∧
    (∃ d ∈ u.root.subtree, d.name = "z" ∧ d.isAssignable = true ∧ d.value? = .none) ∧
    ((Rules.ofJson document ⟨""⟩).toOption.any fun rules => decide (Good u rules)) = true)
    (by decide +kernel) fun u _ ⟨hx, hy, hz, hgood⟩ => ?_
  refine exists_ok_of_decide (Good u) hgood fun rules _ ⟨⟨hclass, hspace, hyUp, hxUp, hzUp⟩,
    hnodes, hfunctions⟩ => ?_
  refine ⟨hx, hy, hz, Passes.bridge_artifacts _ _ _, ?_, hfunctions⟩
  simp only [List.forall_mem_cons, List.not_mem_nil, false_implies, implies_true,
    and_true] at hnodes ⊢
  exact ⟨⟨⟨4⟩, .step hxUp (.step hclass .self), hnodes.1⟩,
    ⟨⟨3⟩, .step hyUp (.step hclass .self), hnodes.2.1⟩,
    ⟨⟨5⟩, .step hzUp (.step hspace (.step hclass .self)), hnodes.2.2⟩⟩

end Standard

end Interop
