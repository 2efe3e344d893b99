import Interop.Proofs.Marshal.Shift
import Interop.Proofs.Passes

namespace Interop

open Overlay Export

variable {s : Surroundings} {w : Workspace} {k : Nat} {header? : Option Path} {top : NodeId}
    {d : Declaration}

namespace Export.Builder

/-- Whether one pass does to a shifted workspace what another one does to the workspace. -/
structure Shifts (b b' : Builder) (k : Nat) (Ok : Kind → NodeId → Workspace → Prop) : Prop where
  enter : ∀ {kind top d w}, Ok kind top w →
    b'.enter (top.shift k) d (w.shift k) = ((b.enter top d w).1.map (·.shift k),
      (b.enter top d w).2.shift k)
  leaf : ∀ {kind top d w}, Ok kind top w →
    b'.leaf (top.shift k) d (w.shift k) = (b.leaf top d w).shift k

namespace Shifts

variable {b b' : Builder} {fits : Kind → Kind → Prop} {R : Workspace → Workspace → Prop}
  {Ok : Kind → NodeId → Workspace → Prop}

mutual

/-- A builder does the same in a shifted workspace, step by step. The steps have to keep what each
of them needs. -/
theorem build (h : b.Shifts b' k Ok) (hsteps : b.Steps fits R Ok) :
    (d : Declaration) → (kind : Kind) → (top : NodeId) → (w : Workspace) → d.Nested fits kind →
      Ok kind top w → b'.build (top.shift k) d (w.shift k) = (b.build top d w).shift k
  | { kind := inner, name, access, isTemplated, isFriended, flags, type?, returnType?, parameters,
      value?, line, children }, kind, top, w, hnested, hok => by
    rw [Declaration.Nested] at hnested
    rw [Builder.build, Builder.build]
    obtain ⟨d, hd⟩ : ∃ d : Declaration,
      Declaration.mk inner name access isTemplated isFriended flags type?
      returnType? parameters value? line children = d := ⟨_, rfl⟩
    have hkind : d.kind = inner := by rw [← hd]
    rw [hd] at hnested ⊢
    split
    · rename_i hwrapper
      rw [if_pos (by rw [hwrapper]; rfl)] at hnested
      exact h.buildAll hsteps children kind top w hnested hok
    · rename_i hwrapper
      split
      · rw [h.enter hok]
        by_cases hlinkage : inner = .linkage
        · rw [if_pos (by rw [hlinkage]; simp)] at hnested
          rw [hsteps.linkage (hkind.trans hlinkage)]
          exact h.buildAll hsteps children kind top w hnested hok
        · rw [if_neg (by simpa [hlinkage] using hwrapper)] at hnested
          have hfits : fits d.kind kind := hkind ▸ hnested.1
          have hinner := (hsteps.enter hok (hkind ▸ hlinkage) hfits).2
          cases henter : b.enter top d w with
          | mk entered w' =>
            rw [henter] at hinner
            cases entered with
            | none => rfl
            | some node =>
              exact h.buildAll hsteps children inner node w' hnested.2 (hkind ▸ hinner node rfl)
      · exact h.leaf hok

/-- The same for several declarations. -/
theorem buildAll (h : b.Shifts b' k Ok) (hsteps : b.Steps fits R Ok) :
    (ds : List Declaration) → (kind : Kind) → (top : NodeId) → (w : Workspace) →
      Declaration.NestedAll fits kind ds → Ok kind top w →
      b'.buildAll (top.shift k) ds (w.shift k) = (b.buildAll top ds w).shift k
  | [], _, _, _, _, _ => by
    rw [Builder.buildAll, Builder.buildAll]
  | d :: rest, kind, top, w, hnested, hok => by
    rw [Builder.buildAll, Builder.buildAll, h.build hsteps d kind top w hnested.1 hok]
    exact h.buildAll hsteps rest kind top _ hnested.2
      (hsteps.mono (hsteps.build d kind top w hnested.1 hok) hok)

end

end Shifts

/-- What steps keep may be asked of the workspace wherever they start. -/
theorem Steps.keeping {b : Builder} {fits : Kind → Kind → Prop} {R : Workspace → Workspace → Prop}
    {Ok : Kind → NodeId → Workspace → Prop} {P : Workspace → Prop} (h : b.Steps fits R Ok)
    (hkeeps : ∀ {w w'}, R w w' → P w → P w') :
    b.Steps fits R (fun kind id w => Ok kind id w ∧ P w) where
  refl := h.refl
  trans := h.trans
  mono hrel hok := ⟨h.mono hrel hok.1, hkeeps hrel hok.2⟩
  linkage := h.linkage
  enter hok hlinkage hfits := by
    obtain ⟨hrel, hinner⟩ := h.enter hok.1 hlinkage hfits
    exact ⟨hrel, fun inner heq => ⟨hinner inner heq, hkeeps hrel hok.2⟩⟩
  leaf hok hfits := h.leaf hok.1 hfits

end Export.Builder

namespace Export.Containers

/-- A namespace is entered alike wherever nodes lie. -/
theorem enteredNamespace_shift :
    enteredNamespace (top.shift k) d (w.shift k) =
      ((enteredNamespace top d w).1.map (·.shift k), (enteredNamespace top d w).2.shift k) := by
  have hname : (fun c => (w.forest.shift k).isNamespace c d.name) ∘ (·.shift k) =
      (w.forest.isNamespace · d.name) :=
    funext fun c => w.forest.isNamespace_shift k c d.name
  simp only [enteredNamespace]
  split
  · rfl
  · rw [show (w.shift k).forest = w.forest.shift k from rfl, Forest.children_shift, List.find?_map,
      hname]
    cases (w.forest.children top).find? (w.forest.isNamespace · d.name) with
    | some existing => rfl
    | none =>
      simp only [Option.map_none, Option.map_some, Workspace.symbol_shift, Forest.nextId_shift]
      rw [Workspace.grow_fresh_shift ⟨rfl, rfl, rfl⟩]

/-- A class or an enum is entered alike wherever nodes lie, for it is looked up by name. -/
theorem enteredType_shift (symbol : String) :
    enteredType (s.shift k) header? (top.shift k) d symbol (w.shift k) =
      ((enteredType s header? top d symbol w).1.map (·.shift k),
          (enteredType s header? top d symbol w).2.shift k) := by
  have hkind : (fun id => ((w.shift k).node id).kind == d.kind) ∘ (·.shift k) = fun id =>
      (w.node id).kind == d.kind :=
    funext fun id => congrArg (· == d.kind) (w.kind_shift k id)
  have howned : header?.all ((s.shift k).ownsDefinition symbol ·) =
    header?.all (s.ownsDefinition symbol ·) := rfl
  simp only [enteredType, show (s.shift k).rules = s.rules from rfl, howned]
  split
  · rfl
  · rw [Workspace.symbol?_shift, Option.filter_map, hkind]
    cases (w.symbol? symbol).filter fun id => (w.node id).kind == d.kind with
    | some existing =>
      simp only [Option.map_some]
      split <;> rfl
    | none =>
      simp only [Option.map_none]
      split
      · rw [Workspace.grow_fresh_shift ⟨rfl, rfl, rfl⟩]
        exact congrArg (fun id => (some id, _)) (w.forest.nextId_shift k)
      · rfl

theorem added_shift : added (top.shift k) d (w.shift k) = (added top d w).shift k := by
  have hnames : enumeratorNames (w.shift k) ((w.node top).shift k) d.name =
      enumeratorNames w (w.node top) d.name := by
    unfold enumeratorNames
    cases hparent : (w.node top).parent? with
    | none => simp only [Node.shift, hparent, Option.map_none]
    | some around =>
      simp only [Node.shift, hparent, Option.map_some]
      rw [Workspace.symbol_shift]
  simp only [added, Workspace.node_shift, hnames]
  rw [show ((w.node top).shift k).kind = (w.node top).kind from rfl,
    show ((w.node top).shift k).symbol = (w.node top).symbol from rfl]
  split
  · rw [Workspace.grow_fresh_shift ⟨rfl, rfl, rfl⟩]
  · rfl

theorem shifts (s : Surroundings) (header? : Option Path) (k : Nat)
    (Ok : Kind → NodeId → Workspace → Prop) :
    (builder s header?).Shifts (builder (s.shift k) header?) k Ok where
  enter {_ top d w} _ := by
    simp only [builder, entered, Workspace.symbol_shift]
    split
    · rfl
    · exact enteredNamespace_shift
    · exact enteredType_shift _
    · exact enteredType_shift _
    · rfl
  leaf _ := added_shift

end Export.Containers

namespace Export.Members

theorem entered_shift :
    entered (s.shift k) header? (top.shift k) d (w.shift k) = (entered s header? top d w).map
      (·.shift k) := by
  have hkind : ∀ owned : Bool, (fun id => owned && ((w.shift k).node id).kind == d.kind) ∘
      (·.shift k) = fun id => owned && (w.node id).kind == d.kind :=
    fun owned => funext fun id => congrArg (fun kind => owned && kind == d.kind) (w.kind_shift k id)
  have howned : ∀ symbol, header?.all ((s.shift k).ownsDefinition symbol ·) =
      header?.all (s.ownsDefinition symbol ·) :=
    fun _ => rfl
  simp only [entered, Workspace.symbol_shift, howned]
  split
  · rfl
  · rw [Workspace.symbol?_shift, Option.filter_map, hkind]
  · rw [Workspace.symbol?_shift, Option.filter_map, hkind]
  · rfl

section Nodes

variable {m : Mapper} (h : m.forest.WellFormed)
include h

theorem parametersFrom?_shift (position : Nat) (ps : List Parameter) :
    parametersFrom? (m.shift k) position ps = parametersFrom? m position ps := by
  induction ps generalizing position with
  | nil => rfl
  | cons p rest ih =>
    unfold parametersFrom?
    rw [Mapper.isExportable_shift h, ih]

/-- A function is taken alike wherever nodes lie. -/
theorem functionNode?_shift (parent : Node) :
    functionNode? (m.shift k) (parent.shift k) d header? = functionNode? m parent d header? := by
  have hresult : resultType? (m.shift k) d = resultType? m d := by
    unfold resultType?
    rw [Mapper.isExportable_shift h]
  unfold functionNode?
  rw [parametersFrom?_shift h, hresult]
  rfl

/-- A variable is taken alike wherever nodes lie. -/
theorem variableNode?_shift (parent : Node) :
    variableNode? (m.shift k) (parent.shift k) d header? = variableNode? m parent d header? := by
  unfold variableNode?
  rw [Mapper.isExportable_shift h]
  rfl

omit h in
theorem baseNode?_shift (parent : Node) :
    baseNode? (m.shift k) (parent.shift k) d = baseNode? m parent d := by
  unfold baseNode?
  rw [show (parent.shift k).kind = parent.kind from rfl]
  cases d.type? with
  | none => rfl
  | some type =>
    simp only [Option.bind_eq_bind, Option.bind_some, Mapper.typeNamed?_shift]
    cases m.typeNamed? type.typeName with
    | none => rfl
    | some id =>
      simp only [Option.map_some, Option.bind_some,
        show (m.shift k).forest = m.forest.shift k from rfl,
        Forest.node?_shift]
      cases m.forest.node? id with
      | none => rfl
      | some base => rfl

end Nodes

section Workspace

variable (h : w.forest.WellFormed)
include h

/-- A member is taken alike wherever nodes lie. -/
theorem memberNode?_shift :
    memberNode? (s.shift k) (w.shift k) header? (top.shift k) d =
      memberNode? s w header? top d := by
  have hmapper : (s.shift k).mapper (w.shift k) ((w.node top).shift k).symbol =
      (s.mapper w (w.node top).symbol).shift k := rfl
  have hsame : ∀ n : Node, ((w.node top).shift k).children.any
      (fun c => isSameFunction n ((w.shift k).node c)) =
      (w.node top).children.any fun c => isSameFunction n (w.node c) := by
    intro n
    rw [show ((w.node top).shift k).children = (w.node top).children.map (·.shift k) from rfl,
      List.any_map]
    congr 1
    funext c
    rw [Function.comp_apply, Workspace.node_shift]
    rfl
  have hvariable : ∀ n :
      Node, ((w.shift k).symbol? n.symbol).isSome = (w.symbol? n.symbol).isSome := by
    intro n
    rw [Workspace.symbol?_shift, Option.isSome_map]
  have hf : (s.mapper w (w.node top).symbol).forest.WellFormed := h
  simp only [memberNode?, Workspace.node_shift, hmapper, functionNode?_shift hf,
    variableNode?_shift hf, baseNode?_shift, hsame, hvariable]

/-- A member is added alike wherever nodes lie. The node that is open has to be there. -/
theorem added_shift {m : Node} (hm : w.forest.content? top = some m)
    (haround : m.kind = .file ∨ m.kind = .nameSpace ∨ m.kind = .classType) :
    added (s.shift k) header? (top.shift k) d (w.shift k) = (added s header? top d w).shift k := by
  have hnames : (fun name => !((w.shift k).symbol? name).isSome) = fun name =>
      !(w.symbol? name).isSome := by
    funext name
    rw [Workspace.symbol?_shift, Option.isSome_map]
  simp only [added, Workspace.symbol_shift, show (s.shift k).rules = s.rules from rfl,
    memberNode?_shift h, hnames]
  split
  · split
    · rfl
    · rename_i n hn
      rw [Workspace.grow_fresh_shift (placed_of_memberNode? hm haround hn).1]
  · rfl

end Workspace

theorem shifts (s : Surroundings) (header? : Option Path) (k : Nat) :
    (builder s header?).Shifts (builder (s.shift k) header?) k
      (fun kind id w => IsScope kind id w ∧ w.forest.WellFormed) where
  enter _ := Prod.ext entered_shift rfl
  leaf := by
    rintro _ top d w ⟨⟨haround, -, m, hm, rfl⟩, hf⟩
    exact added_shift hf hm haround

end Export.Members

namespace RawPass

variable {units : List HeaderUnit}

/-- A raw pass does to a shifted workspace what it does to the workspace. -/
theorem apply_shift (h : Rooted s w) (k : Nat) (pass : RawPass) :
    pass.apply (s.shift k) units (w.shift k) = (pass.apply s units w).shift k := by
  have hall : ∀ {b b' : HeaderUnit → Builder} {R : Workspace → Workspace → Prop}
      {Ok : Kind → NodeId → Workspace → Prop}, (∀ u, (b u).Steps (fun _ _ => True) R Ok) →
      (∀ u, (b u).Shifts (b' u) k Ok) → ∀ w, Ok .file s.root w →
        units.foldl (fun w u => (b' u).build (s.root.shift k) u.root w) (w.shift k) =
          (units.foldl (fun w u => (b u).build s.root u.root w) w).shift k := by
    intro b b' R Ok hsteps hshifts
    induction units with
    | nil => exact fun _ _ => rfl
    | cons u rest ih =>
      intro w hok
      have hnested : u.root.Nested (fun _ _ => True) .file :=
        Declaration.nested_of_forall (fun _ _ => trivial) u.root .file
      rw [List.foldl_cons, List.foldl_cons,
        (hshifts u).build (hsteps u) u.root .file s.root w hnested hok]
      exact ih _ ((hsteps u).mono ((hsteps u).build u.root .file s.root w hnested hok) hok)
  rw [apply_eq, apply_eq]
  cases pass with
  | containers =>
    exact hall (fun u => Containers.steps (fun _ _ => True) s (some u.path))
      (fun u => Containers.shifts s (some u.path) k IsContainer) w h.isContainer
  | members =>
    have hkeeps : ∀ {w w'}, Relation.ReflTransGen (Grows (Members.Adds s)) w w' →
        w.forest.WellFormed → w'.forest.WellFormed :=
          fun hgrows hf => hf.grows Members.Adds.holds hgrows
    exact hall (fun u => (Members.steps s (some u.path)).keeping hkeeps)
      (fun u => Members.shifts s (some u.path) k) w ⟨h.isScope, h.wellFormed⟩

end RawPass

end Interop
