import Interop.Proofs.Emit.Exports
import Interop.Proofs.Generator.Start
import Interop.Proofs.Header.Regular

namespace Interop.Emit

open Overlay

variable {s : Surroundings} {w : Workspace} {id : NodeId} {n : Node} {m : Mapper}

/-- Whether a node stands for something that is called. -/
def isCallable (n : Node) : Bool :=
  n.kind == .constructor || n.kind == .memberFunction || n.kind == .freeFunction

theorem isCallable_iff :
    isCallable n = true ↔ n.kind = .constructor ∨ n.kind = .memberFunction ∨
      n.kind = .freeFunction := by
  unfold isCallable
  simp only [Bool.or_eq_true, beq_iff_eq, or_assoc]

theorem isVariable_iff :
    n.kind.isVariable = true ↔ n.kind = .freeVariable ∨ n.kind = .memberVariable ∨
      n.kind = .bitField := by
  cases n.kind <;> simp [Kind.isVariable]

/-- The arguments of parameters whose types can be described. -/
theorem exists_arguments {parameters : List NodeParameter}
    (h : ∀ p ∈ parameters, ∃ type, p.type? = some type ∧ (m.resolve? type).isSome = true) :
    ∃ arguments, BridgeArgument.ofParameters? m parameters = some arguments := by
  induction parameters with
  | nil => exact ⟨[], rfl⟩
  | cons p rest ih =>
    obtain ⟨type, htype, hsome⟩ := h p List.mem_cons_self
    obtain ⟨info, hinfo⟩ := Option.isSome_iff_exists.mp hsome
    obtain ⟨arguments, harguments⟩ := ih fun q hq => h q (List.mem_cons_of_mem _ hq)
    unfold BridgeArgument.ofParameters? at harguments ⊢
    rw [List.mapM_cons, harguments, htype]
    simp only [Option.bind_eq_bind, Option.bind_some, hinfo, pure]
    exact ⟨_, rfl⟩

/-- A result that resolves has a way back to managed code, and so has a missing one. -/
theorem exists_resultMarshalling
    (h : ∀ type, n.returnType? = some type → (m.resolve? type).isSome = true) :
    ∃ result?, resultMarshalling? m n.returnType? = some result? := by
  unfold resultMarshalling?
  cases htype : n.returnType? with
  | none => exact ⟨none, rfl⟩
  | some type =>
    obtain ⟨info, hinfo⟩ := Option.isSome_iff_exists.mp (h type htype)
    simp only [hinfo, Option.map_some]
    split
    · exact ⟨none, rfl⟩
    · exact ⟨some info, rfl⟩

/-- A function whose types can be described has a bridge function, under its bridge name. -/
theorem memberFunctions_of_callable (class_ : Node) (hcallable : isCallable n = true)
    (h : n.Crosses m) :
    ∃ f, memberFunctions m class_ n = [f] ∧ f.name = n.bridgeName := by
  obtain ⟨arguments, harguments⟩ := exists_arguments h.parameters
  obtain ⟨result?, hresult⟩ := exists_resultMarshalling h.result
  have hsome : ∃ f, callable? m class_ n = some f ∧ f.name = n.bridgeName := by
    unfold callable?
    simp only [harguments, hresult, Option.bind_eq_bind, Option.bind_some, pure]
    exact ⟨_, rfl, rfl⟩
  obtain ⟨f, hf, hname⟩ := hsome
  refine ⟨f, ?_, hname⟩
  unfold memberFunctions
  rcases isCallable_iff.mp hcallable with hkind | hkind | hkind <;> rw [hkind, hf] <;> rfl

/-- A variable whose type can be described has a getter and, unless it is constant, a setter; it has
neither if its value is known. -/
theorem memberFunctions_of_variable (class_ : Node) (hvariable : n.kind.isVariable = true)
    (h : n.Crosses m) :
    if n.managedValue?.isSome then memberFunctions m class_ n = []
    else
      ∃ getter setter, getter.name = "get_" ++ n.bridgeName ∧ setter.name = "set_" ++ n.bridgeName ∧
        memberFunctions m class_ n = if n.isConstant then [getter] else [getter, setter] := by
  obtain ⟨type, htype, hsome⟩ := h.value hvariable
  obtain ⟨info, hinfo⟩ := Option.isSome_iff_exists.mp hsome
  have haccessors : memberFunctions m class_ n = accessors m class_ n := by
    unfold memberFunctions
    rcases isVariable_iff.mp hvariable with hkind | hkind | hkind <;> rw [hkind]
  rw [haccessors]
  unfold accessors
  cases hvalue : n.managedValue?.isSome with
  | true => simp only [if_true]
  | false =>
    simp only [Bool.false_eq_true, if_false, htype, Option.bind_some, hinfo]
    exact ⟨_, _, rfl, rfl, rfl⟩

/-- Whether a bridge file has what every node of a tree needs: the nodes' functions and
registrations one after the other, one function for each that is called, and accessors for each
variable without a known value. -/
structure BridgeFile.Covers (s : Surroundings) (w : Workspace) (b : BridgeFile) : Prop where
  nodes : ∃ ids : List NodeId, ids.Nodup ∧
    (∀ id n, w.forest.node? id = some n → n.kind ≠ .enumerator →
      (id ∈ ids ↔ w.forest.Within s.root id)) ∧
    b.functions = ids.flatMap (exported s w) ∧ b.registrations = ids.flatMap (registered s w)
  callable : ∀ id n, w.forest.node? id = some n → w.forest.Within s.root id → isCallable n = true →
    ∃ f path, f.name = n.bridgeName ∧ exported s w id = [f] ∧ registered s w id = [⟨path, f.name⟩]
  accessors : ∀ id n, w.forest.node? id = some n → w.forest.Within s.root id →
    n.kind.isVariable = true → if n.managedValue?.isSome then exported s w id = [] ∧
      registered s w id = []
    else
      ∃ getter setter path path', getter.name = "get_" ++ n.bridgeName ∧
        setter.name = "set_" ++ n.bridgeName ∧
          exported s w id = (if n.isConstant then [getter] else [getter, setter]) ∧
        registered s w id =
          if n.isConstant then [⟨path, getter.name⟩] else [⟨path, getter.name⟩,
            ⟨path', setter.name⟩]

end Interop.Emit

namespace Interop.Overlay

open Emit

variable {s : Surroundings} {w : Workspace} {id : NodeId} {n : Node}

/-- In a tree in which functions and variables stand in classes, the functions of each are those of
a member. -/
theorem HousedTree.exported_eq (h : HousedTree s w) (hwithin : w.forest.Within s.root id)
    (hn : w.forest.content? id = some n)
    (hmember : isCallable n = true ∨ n.kind.isVariable = true) :
    ∃ class_ m, owner? w id = some class_ ∧ w.forest.content? class_ = some m ∧
      m.kind = .classType ∧ n.Crosses (s.mapper w m.symbol) ∧
      exported s w id = memberFunctions (s.mapper w m.symbol) (w.node class_) (w.node id) := by
  have hne : id ≠ s.root := by
    rintro rfl
    obtain ⟨r, hr, hfile⟩ := h.root
    obtain rfl := Option.some.inj (hr.symm.trans hn)
    rw [isCallable_iff, isVariable_iff, hfile] at hmember
    rcases hmember with (hkind | hkind | hkind) | (hkind | hkind | hkind) <;> cases hkind
  obtain ⟨parent, m, hparent, hm, hplaced, hhoused⟩ := h.nodes id n hwithin hne hn
  have hnode := Workspace.node_unlinked hn
  have hkind : (w.node id).kind = n.kind := by rw [← hnode]; rfl
  have hclass : m.kind = .classType := by
    have hfits := hplaced.fits
    rw [isCallable_iff, isVariable_iff] at hmember
    rcases hmember with (hk | hk | hk) | (hk | hk | hk)
    · rw [hk] at hfits
      exact beq_iff_eq.mp hfits
    · rw [hk] at hfits
      exact beq_iff_eq.mp hfits
    all_goals exact hhoused (by rw [Globals.isGlobal, hk]; rfl)
  have hnot : (w.node id).kind ≠ .classType := by
    rw [hkind]
    intro hfalse
    rw [isCallable_iff, isVariable_iff, hfalse] at hmember
    rcases hmember with (hk | hk | hk) | (hk | hk | hk) <;> cases hk
  have hsymbol : (w.node parent).symbol = m.symbol := by rw [← Workspace.node_unlinked hm]; rfl
  have hparentClass : (w.node parent).kind = .classType :=
    by rw [← hclass, ← Workspace.node_unlinked hm]; rfl
  have hnodeParent : (w.node id).parent? = some parent := by
    obtain ⟨k, hk, _⟩ := Option.map_eq_some_iff.mp hn
    rw [Workspace.node_of_node? hk, ← Forest.parent?_of_node? hk, hparent]
  refine ⟨parent, m, owner?_of_member hnot hnodeParent hparentClass, hm, hclass,
    hplaced.crosses, ?_⟩
  rw [exported_of_member hnot hnodeParent hparentClass, hsymbol]

/-- Below an enum of a tree that is in order there are enumerators only, and they have nothing below
them. -/
theorem HousedTree.kind_of_within_enumeration (h : HousedTree s w) {outer : NodeId} {e : Node}
    (houter : w.forest.Within s.root outer) (he : w.forest.content? outer = some e)
    (hkind : e.kind = .enumeration) (hn : w.forest.content? id = some n)
    (hwithin : w.forest.Within outer id) (hne : id ≠ outer) :
    n.kind = .enumerator := by
  obtain ⟨c, hparent, hbelow⟩ := hwithin.child hne
  obtain ⟨k, hk⟩ := Forest.exists_content_of_parent? hparent
  have hc : k.kind = .enumerator := by
    have hcne : c ≠ s.root := by
      rintro rfl
      rw [h.top] at hparent
      cases hparent
    obtain ⟨p, m, hp, hm, hplaced, -⟩ := h.nodes c k (.step hparent houter) hcne hk
    obtain rfl := Option.some.inj (hp.symm.trans hparent)
    obtain rfl := Option.some.inj (hm.symm.trans he)
    have hfits := hplaced.fits
    rw [hkind] at hfits
    cases hck : k.kind <;> rw [hck] at hfits <;> first | rfl | cases hfits
  by_cases heq : id = c
  · subst heq
    obtain rfl := Option.some.inj (hk.symm.trans hn)
    exact hc
  · obtain ⟨d, hd, -⟩ := hbelow.child heq
    have hmem := (h.wellFormed.links c d).mpr hd
    rw [h.wellFormed.bare c k hk (by rw [hc]; rfl)] at hmem
    cases hmem

/-- The bridge file of a tree whose globals have been housed covers it. Without that, a variable
outside of classes would have no class that names its functions. -/
theorem HousedTree.covers (h : HousedTree s w) : (BridgeFile.ofTree s w s.root).Covers s w := by
  have hf := h.wellFormed
  constructor
  · refine ⟨w.forest.preorder isClosed w.forest.depthBound s.root, Forest.preorder_nodup hf, ?_, ?_⟩
    · intro id n hn hkind
      constructor
      · intro hmem
        exact (Forest.within_of_mem_preorder hf hmem).1
      · intro hwithin
        have hcontent := Forest.content?_of_node? hn
        have hbound : w.forest.size - w.forest.rank s.root < w.forest.depthBound := by
          unfold Forest.depthBound
          omega
        apply Forest.mem_preorder hf hbound hwithin ⟨_, hcontent⟩
        intro outer e he hclosed hbelow
        by_contra hne
        have houter : w.forest.Within s.root outer := by
          rcases hwithin.total hbelow with houter | hroot
          · exact houter
          · rw [hroot.eq_of_root h.top]
            exact .self
        have hfalse :=
          h.kind_of_within_enumeration houter he (beq_iff_eq.mp hclosed) hcontent hbelow
            (Ne.symm hne)
        exact hkind hfalse
    · rw [ofTree_eq]
      exact collected_eq hf w.forest.depthBound s.root {}
  · intro id n hn hwithin hcallable
    have hcontent := Forest.content?_of_node? hn
    obtain ⟨class_, m, howner, -, -, hcrosses, hexported⟩ :=
      h.exported_eq hwithin hcontent (.inl hcallable)
    rw [Workspace.node_of_node? hn] at hexported
    obtain ⟨f, hf, hname⟩ := memberFunctions_of_callable (w.node class_) hcallable
      (m := s.mapper w m.symbol) (n := n) ⟨hcrosses.parameters, hcrosses.result, hcrosses.value⟩
    refine ⟨f, BridgeFile.registrationPath s w.forest class_ f.name, hname, hexported.trans hf, ?_⟩
    rw [registered_of_owner howner, hexported, hf]
    rfl
  · intro id n hn hwithin hvariable
    have hcontent := Forest.content?_of_node? hn
    obtain ⟨class_, m, howner, -, -, hcrosses, hexported⟩ :=
      h.exported_eq hwithin hcontent (.inr hvariable)
    rw [Workspace.node_of_node? hn] at hexported
    have haccessors := memberFunctions_of_variable (w.node class_) hvariable
      (m := s.mapper w m.symbol) (n := n) ⟨hcrosses.parameters, hcrosses.result, hcrosses.value⟩
    split
    · rename_i hvalue
      rw [if_pos hvalue] at haccessors
      rw [registered_of_owner howner, hexported, haccessors]
      exact ⟨rfl, rfl⟩
    · rename_i hvalue
      rw [if_neg hvalue] at haccessors
      obtain ⟨getter, setter, hgetter, hsetter, haccessors⟩ := haccessors
      refine ⟨getter, setter, BridgeFile.registrationPath s w.forest class_ getter.name,
        BridgeFile.registrationPath s w.forest class_ setter.name, hgetter, hsetter,
          hexported.trans haccessors, ?_⟩
      rw [registered_of_owner howner, hexported, haccessors]
      cases n.isConstant <;> rfl

end Interop.Overlay

namespace Interop

open Overlay Export Emit

variable {g : Generator} {others : List NodeId} {s : Surroundings} {units : List HeaderUnit}

/-- Whether a kind may stand in a container of kind `around`, where namespaces belong to files and
namespaces. -/
def Kind.Spaced (kind around : Kind) : Prop :=
  kind = .nameSpace → around = .file ∨ around = .nameSpace

instance (kind around : Kind) : Decidable (kind.Spaced around) :=
  decidable_of_iff (kind = .nameSpace → around = .file ∨ around = .nameSpace) .rfl

/-- A container that headers may declare at a place is one that the overlay holds there. -/
theorem Kind.fitsIn_of_spaced {kind around : Kind}
    (hkind : kind = .nameSpace ∨ kind = .classType ∨ kind = .enumeration)
    (haround : around.isHolder = true) (h : kind.Spaced around ∧ kind.Listed around) :
    kind.fitsIn around = true := by
  rcases hkind with rfl | rfl | rfl
  · rcases h.1 rfl with rfl | rfl <;> rfl
  all_goals
    cases around
    case enumeration => exact absurd (h.2 rfl) nofun
    all_goals first | rfl | cases haround

section Standard

variable (hg : Generator.Reached g.workspace) (hroot : s.root = (g.restart others).1)
    (hkept : s.kept = others)
  (hread : ∀ u ∈ units, ∃ configuration path content,
    (Header.FrontEnd.builtin configuration path content).result = .ok u)
  (hspaced : ∀ u ∈ units, u.root.Nested Kind.Spaced .file)
include hg hroot hkept hread hspaced

/-- After the raw passes, the globals pass and the naming pass the tree of a namespace is in
order. -/
theorem housedTree_of_passes :
    HousedTree s (OverlayPass.applyAll s
      ([RawPass.containers, RawPass.members].foldl (RawPass.apply s units) (g.restart others).2)
      [.globals, .naming]).1 := by
  have hnested : ∀ u ∈ units,
      u.root.Nested (fun kind around => kind.Spaced around ∧ kind.Listed around) .file := by
    intro u hu
    obtain ⟨configuration, path, content, hresult⟩ := hread u hu
    exact Declaration.Nested.and u.root .file (hspaced u hu)
      (Header.FrontEnd.builtin_regular hresult)
  have hbare := Generator.restart_bareTree hg.wellFormed hroot
  have hheld := Generator.restart_held hg.wellFormed hroot hkept
  have hcontainers := RawPass.containers_grows hbare.rooted hnested
  have hbare₁ := hbare.grows (fun _ _ => Kind.fitsIn_of_spaced) hcontainers
  have hheld₁ := hheld.grows Containers.Adds.holds hcontainers hbare.wellFormed
  have hmembers := @RawPass.members_grows s _ units hbare₁.rooted
  have hmember := hbare₁.memberTree.grows hmembers
  have hheld₂ := hheld₁.grows Members.Adds.holds hmembers hbare₁.wellFormed
  obtain ⟨hsteps, hhoused⟩ := hmember.move
  have htypes := TypesHeld.steps (fun id n hn _ => hheld₂ id n hn) hmember.wellFormed hsteps
  have hreleased := hhoused.release htypes
  exact hreleased.reshaped (Naming.nameAll_reshaped s.settings _ s.root)

/-- No exported declaration is lost on the way to the bridge file. Whatever the headers, the type
maps and the filters are, the bridge file has what every node of the tree needs. -/
theorem Passes.bridge_covers :
    let made : Workspace × List Artifact :=
      Passes.apply ⟨[.containers, .members], [.globals, .naming, .bridge]⟩ s units
        (g.restart others).2
    let b := BridgeFile.ofTree s made.1 s.root
    made.2 = [⟨BridgeFile.fileName s.rules, b.text s⟩] ∧ b.Covers s made.1 := by
  refine ⟨rfl, ?_⟩
  exact (housedTree_of_passes hg hroot hkept hread hspaced).covers

end Standard

/-- The functions of a namespace with a class in it, whose destructor comes along. -/
theorem Passes.bridge_covers_namespace :
    ∃ u : HeaderUnit,
      (Header.FrontEnd.builtin {} ⟨"A.h"⟩
        (.text "namespace N { struct A { int x; }; int f(A a); }")).result = .ok u ∧
      let g := Generator.ofDirectories ⟨""⟩ ⟨"/o"⟩
      let s : Surroundings :=
        { settings := g.settings, rules := { name := "M" }, root := (g.restart []).1 }
      let made := Passes.apply ⟨[.containers, .members], [.globals, .naming, .bridge]⟩ s [u]
        (g.restart []).2
      let b := BridgeFile.ofTree s made.1 s.root
      made.2 = [⟨BridgeFile.fileName s.rules, b.text s⟩] ∧ b.Covers s made.1 := by
  refine exists_ok_of_decide (fun u => u.root.Nested Kind.Spaced .file) (by decide +kernel)
    fun u hu hspaced => ?_
  exact Passes.bridge_covers .start rfl rfl (List.forall_mem_singleton.mpr ⟨_, _, _, hu⟩)
    (List.forall_mem_singleton.mpr hspaced)

end Interop
