import Interop.Proofs.Export.Entering
import Mathlib.Data.List.Chain

namespace Interop

/-- Whether declarations descend from `d` inwards, each held by the one before. -/
def Declaration.Descends (d : Declaration) (path : List Declaration) : Prop :=
  path.head? = some d ∧ path.IsChain fun outer inner => inner ∈ outer.children

/-- A descent may go on to a child. -/
theorem Declaration.Descends.snoc {root d c : Declaration} {path : List Declaration}
    (h : root.Descends (path ++ [d])) (hc : c ∈ d.children) :
    root.Descends (path ++ [d] ++ [c]) := by
  obtain ⟨hstart, hchain⟩ := h
  refine ⟨by rw [List.head?_append_of_ne_nil _ (by simp), hstart], hchain.append (by simp) ?_⟩
  intro outer houter inner hinner
  rw [List.getLast?_concat, Option.mem_some_iff] at houter
  rw [List.head?_singleton, Option.mem_some_iff] at hinner
  exact houter ▸ hinner ▸ hc

/-- Whether a container is never exported, as templates and namespaces without a name are not. -/
def Declaration.Withheld (d : Declaration) : Prop :=
  d.kind = .functionTemplate ∨ d.kind = .classTemplate ∨ d.kind = .nameSpace ∧ d.name = ""

namespace Export

open Overlay

/-- What is seen of a pass when it has entered a container or comes to a leaf: the containers
around, the innermost first, each with the frame that was pushed for it, and the frames and nodes
that there are. -/
structure Sight where
  around : List (Declaration × Option NodeId)
  /-- The leaf that the pass has come to, if it has not entered a container. -/
  leaf? : Option Declaration
  frames : List (Option NodeId)
  workspace : Workspace

namespace Sight

/-- The frame of the innermost container, if it has one. -/
def top? (v : Sight) : Option NodeId :=
  v.frames.head?.join

end Sight

/-- What a watch has seen of a pass, and the containers that are open. -/
structure Watch where
  around : List (Declaration × Option NodeId) := []
  sights : List Sight := []

/-- A pass that is watched. -/
abbrev Watched := StateT Watch Pass

namespace Watched

/-- Writes down what there is to see. -/
def look (leaf? : Option Declaration) : Watched Unit := do
  let frames := (← getThe Scopes).frames
  let workspace ← getThe Workspace
  modifyThe Watch fun o => { o with sights := o.sights ++ [⟨o.around, leaf?, frames, workspace⟩] }

/-- What a watched pass does at each step of a walk. -/
def visit (pass : WalkEvent → Declaration → Pass Bool) (event : WalkEvent) (d : Declaration) :
    Watched Bool := do
  match event with
  | .enter =>
    let answer ← pass .enter d
    let frame? ← Pass.top?
    modifyThe Watch fun o => { o with around := (d, frame?) :: o.around }
    look none
    return answer
  | .leaf =>
    look (some d)
    pass .leaf d
  | .exit =>
    modifyThe Watch fun o => { o with around := o.around.tail }
    pass .exit d

/-- Walks one header with a pass that is watched. -/
def header (pass : WalkEvent → Declaration → Pass Bool) (root : NodeId) (unit : HeaderUnit) :
    Watched Unit := do
  Pass.restart root (some unit.path)
  unit.root.walk (visit pass)
  modifyThe Scopes fun s => { s with header? := none }

variable {pass : WalkEvent → Declaration → Pass Bool} {o : Watch} {s s' : Scopes}
    {w w' : Workspace} {d : Declaration}
  {answer : Bool}

theorem run_bind {α β : Type} (x : Watched α) (next : α → Watched β) (o : Watch) (s : Scopes)
    (w : Workspace) :
    (((x >>= next).run o).run s).run w =
      (((next (((x.run o).run s).run w).1.1.1).run (((x.run o).run s).run w).1.1.2).run
        (((x.run o).run s).run w).1.2).run (((x.run o).run s).run w).2 := rfl

theorem run_discard {α : Type} (x : Watched α) (o : Watch) (s : Scopes) (w : Workspace) :
    (((discard x).run o).run s).run w =
      ((((), (((x.run o).run s).run w).1.1.2), (((x.run o).run s).run w).1.2),
        (((x.run o).run s).run w).2) := rfl

/-- What a pass does is done alike when it is watched. -/
theorem run_lift {α : Type} (x : Pass α) (o : Watch) (s : Scopes) (w : Workspace) :
    (((liftM x : Watched α).run o).run s).run w =
      (((((x.run s).run w).1.1, o), ((x.run s).run w).1.2), ((x.run s).run w).2) := rfl

theorem visit_enter (h : ((pass .enter d).run s).run w = ((answer, s'), w')) :
    (((visit pass .enter d).run o).run s).run w =
      (((answer, ⟨(d, s'.frames.head?.join) :: o.around,
        o.sights ++ [⟨(d, s'.frames.head?.join) :: o.around, none, s'.frames, w'⟩]⟩), s'), w') := by
  refine (run_bind (liftM (pass .enter d)) _ o s w).trans ?_
  rw [run_lift, h]
  rfl

theorem visit_leaf (h : ((pass .leaf d).run s).run w = ((answer, s'), w')) :
    (((visit pass .leaf d).run o).run s).run w =
      (((answer, { o with sights := o.sights ++ [⟨o.around, some d, s.frames, w⟩] }), s'), w') := by
  refine (run_bind (look (some d)) (fun _ => liftM (pass .leaf d)) o s w).trans ?_
  refine (run_lift (pass .leaf d) _ s w).trans ?_
  rw [h]
  rfl

theorem visit_exit (h : ((pass .exit d).run s).run w = ((answer, s'), w')) :
    (((visit pass .exit d).run o).run s).run w = (((answer, { o with around := o.around.tail }),
      s'), w') := by
  refine (run_lift (pass .exit d) { o with around := o.around.tail } s w).trans ?_
  rw [h]

end Watched

/-- The names of those of several declarations that are of some kinds. -/
def namesOf (opens : Kind → Bool) (path : List Declaration) : List String :=
  (path.filter (opens ·.kind)).map (·.name)

/-- Whether the frames at a sight follow the containers around it, inside of the declaration `root`
of a header. There is one frame for each of them, on top of that of the namespace's root `base`; the
innermost is missing just if that of some container around is, as those of withheld containers are,
and otherwise it is a node that bears the joined names of the containers around. No leaf is come to
where it is missing. -/
structure Sight.Follows (opens : Kind → Bool) (root : Declaration) (base : NodeId) (v : Sight) :
    Prop where
  frames : v.frames = v.around.map (·.2) ++ [some base]
  absent : v.top? = none ↔ ∃ c ∈ v.around, c.2 = none
  withheld : ∀ c ∈ v.around, c.1.Withheld → c.2 = none
  leaf : v.leaf?.isSome = true → v.top?.isSome = true
  nested : ∃ path, root.Descends (path ++ v.leaf?.toList) ∧
    path.filter (·.kind != .file) = (v.around.map (·.1)).reverse ∧
    ∀ top, v.top? = some top →
      ∃ n, v.workspace.forest.content? top = some n ∧
        n.symbol = "::".intercalate (namesOf opens path)

section Inside

variable {opens : Kind → Bool} {root d : Declaration} {base top inner : NodeId}
    {path : List Declaration}
  {around : List (Declaration × Option NodeId)} {outer : List (Option NodeId)} {w w' : Workspace}
    {m : Node}

/-- Whether a pass is inside of containers that have been entered, `top` being the node of the
innermost. -/
structure Inside (opens : Kind → Bool) (base : NodeId) (path : List Declaration)
    (around : List (Declaration × Option NodeId)) (top : NodeId) (outer : List (Option NodeId))
    (w : Workspace) :
    Prop where
  listed : path.filter (·.kind != .file) = (around.map (·.1)).reverse
  frames : some top :: outer = around.map (·.2) ++ [some base]
  entered : ∀ c ∈ around, c.2 ≠ none ∧ ¬c.1.Withheld
  node : ∃ m, w.forest.content? top = some m ∧ (m.kind = .file ∨ opens m.kind = true) ∧
    m.Joins (namesOf opens path)

/-- Being inside of the open containers outlasts growth. -/
theorem Inside.mono (h : Inside opens base path around top outer w) (hgrown : Grown w w') :
    Inside opens base path around top outer w' := by
  obtain ⟨m, hm, hnode⟩ := h.node
  exact ⟨h.listed, h.frames, h.entered, m, hgrown.kept top m hm, hnode⟩

/-- What is not opened adds no name to those around. -/
theorem namesOf_of_closed (hclosed : opens d.kind = false) :
    namesOf opens (path ++ [d]) = namesOf opens path := by
  simp [namesOf, hclosed]

/-- What is opened adds its name to those around. -/
theorem namesOf_of_open (hopen : opens d.kind = true) :
    namesOf opens (path ++ [d]) = namesOf opens path ++ [d.name] := by
  simp [namesOf, hopen]

/-- A file has no frame. -/
theorem Inside.file (h : Inside opens base path around top outer w) (hfile : d.kind = .file)
    (hclosed : opens .file = false) : Inside opens base (path ++ [d]) around top outer w := by
  obtain ⟨m, hm, hkind, hjoins⟩ := h.node
  refine ⟨?_, h.frames, h.entered, m, hm, hkind, ?_⟩
  · rw [List.filter_append, h.listed]
    simp [hfile]
  · rw [namesOf_of_closed (hfile ▸ hclosed)]
    exact hjoins

/-- A linkage block has the frame that there is already. -/
theorem Inside.linkage (h : Inside opens base path around top outer w) (hkind : d.kind = .linkage)
    (hclosed : opens .linkage = false) :
    Inside opens base (path ++ [d]) ((d, some top) :: around) top (some top :: outer) w := by
  obtain ⟨m, hm, hopen, hjoins⟩ := h.node
  refine ⟨?_, ?_, ?_, m, hm, hopen, ?_⟩
  · rw [List.filter_append, h.listed]
    simp [hkind]
  · rw [List.map_cons, List.cons_append, ← h.frames]
  · refine List.forall_mem_cons.mpr ⟨⟨nofun, ?_⟩, h.entered⟩
    simp [Declaration.Withheld, hkind]
  · rw [namesOf_of_closed (hkind ▸ hclosed)]
    exact hjoins

/-- A namespace or type has the frame of the node that it is entered at. -/
theorem Inside.enter (h : Inside opens base path around top outer w)
    (hm : w.forest.content? top = some m)
    (hopens : ∀ {kind : Kind}, opens kind = true → kind.qualifies = true)
    (henters : Enters opens m d inner w') (hsigned : Signed w') :
    Inside opens base (path ++ [d]) ((d, some inner) :: around) inner (some top :: outer) w' := by
  obtain ⟨m', hm', -, hjoins⟩ := h.node
  obtain rfl := Option.some.inj (hm.symm.trans hm')
  obtain ⟨hopen, hnamed, n, hn, hkind, hqualified⟩ := henters
  have hqualifies := hopens hopen
  have hfile : d.kind ≠ .file := fun heq => by simp [heq, Kind.qualifies] at hqualifies
  have hinner : n.Joins (namesOf opens (path ++ [d])) := by
    rw [namesOf_of_open hopen]
    exact hjoins.below hqualified (hsigned.nonempty inner n hn (hkind ▸ hqualifies))
  refine ⟨?_, ?_, ?_, n, hn, .inr (hkind ▸ hopen), hinner⟩
  · rw [List.filter_append, h.listed]
    simp [hfile]
  · rw [List.map_cons, List.cons_append, ← h.frames]
  · refine List.forall_mem_cons.mpr ⟨⟨Option.some_ne_none _, ?_⟩, h.entered⟩
    rintro (heq | heq | ⟨heq, hname⟩)
    · rw [show d.kind = _ from heq] at hqualifies
      cases hqualifies
    · rw [show d.kind = _ from heq] at hqualifies
      cases hqualifies
    · exact hnamed heq hname

/-- Where all containers around have been entered, the frames follow them. -/
theorem Inside.follows (h : Inside opens base path around top outer w) {leaf? : Option Declaration}
    (hdown : root.Descends (path ++ leaf?.toList)) :
    Sight.Follows opens root base ⟨around, leaf?, some top :: outer, w⟩ where
  frames := h.frames
  absent := ⟨nofun, fun ⟨c, hc, hnone⟩ => absurd hnone (h.entered c hc).1⟩
  withheld c hc hwithheld := absurd hwithheld (h.entered c hc).2
  leaf _ := rfl
  nested := by
    obtain ⟨m, hm, -, hjoins⟩ := h.node
    refine ⟨path, hdown, h.listed, fun top' htop => ?_⟩
    obtain rfl : top = top' := Option.some.inj htop
    exact ⟨m, hm, hjoins.symbol⟩

/-- A container that has not been entered has no frame. -/
theorem Inside.follows_shut (h : Inside opens base path around top outer w) (hfile : d.kind ≠ .file)
    (hdown : root.Descends (path ++ [d])) :
    Sight.Follows opens root base ⟨(d, none) :: around, none, none :: some top :: outer, w'⟩ where
  frames := by rw [List.map_cons, List.cons_append, ← h.frames]
  absent := ⟨fun _ => ⟨(d, none), List.mem_cons_self, rfl⟩, fun _ => rfl⟩
  withheld := List.forall_mem_cons.mpr ⟨fun _ => rfl,
    fun c hc hwithheld => absurd hwithheld (h.entered c hc).2⟩
  leaf := nofun
  nested := by
    refine ⟨path ++ [d], by simpa using hdown, ?_, nofun⟩
    rw [List.filter_append, h.listed]
    simp [hfile]

end Inside

namespace Builder.Describes

variable {b : Builder} {header? : Option Path} {pass : WalkEvent → Declaration → Pass Bool}
    {opens : Kind → Bool}
  {root : Declaration} {base : NodeId}

mutual

/-- A watch sees frames follow the containers all through a declaration, and changes nothing of what
the pass does. -/
theorem walk_watched (h : Describes b header? pass) (hb : b.Follows opens) : (d : Declaration) →
    ∀ {path : List Declaration} {top : NodeId} {outer : List (Option NodeId)} {o : Watch}
      {w : Workspace}, d.Shown → root.Descends (path ++ [d]) →
        Inside opens base path o.around top outer w → Signed w →
      ∃ sights, (((d.walk (Watched.visit pass)).run o).run (scopes top outer header?)).run w =
          ((((), { o with sights := o.sights ++ sights }), scopes top outer header?),
            b.build top d w) ∧
        Grown w (b.build top d w) ∧ ∀ v ∈ sights, v.Follows opens root base
  | { kind, name, access, isTemplated, isFriended, flags, type?, returnType?, parameters,
      value?, line, children }, path, top, outer, o, w => by
    obtain ⟨d, hd⟩ : ∃ d : Declaration,
      Declaration.mk kind name access isTemplated isFriended flags type?
      returnType? parameters value? line children = d := ⟨_, rfl⟩
    have hkind : d.kind = kind := by rw [← hd]
    have hchildren : d.children = children := by rw [← hd]
    intro hshown hdown hinside hsigned
    rw [Declaration.walk, build_eq]
    rw [hd] at hshown hdown ⊢
    rw [hkind, hchildren]
    have hbelow : d.kind = .file ∨ d.kind = .linkage ∨ d.kind.qualifies = true →
        ∀ c ∈ children, c.Shown ∧ root.Descends (path ++ [d] ++ [c]) := fun hentered c hc =>
      ⟨hshown.children hentered c (hchildren ▸ hc), hdown.snoc (hchildren ▸ hc)⟩
    by_cases hfile : kind = .file
    · have hclosed : opens .file = false :=
        Bool.eq_false_iff.mpr fun hopen => nomatch hb.qualifies hopen
      rw [if_pos (by rw [hfile]; rfl), if_pos (by rw [hfile]; rfl)]
      exact walkAll_watched h hb children (hbelow (.inl (hkind.trans hfile)))
        (hinside.file (hkind.trans hfile) hclosed) hsigned
    · have hpassed : ¬(kind == .file || d.isProxy) = true := by simp [hfile, hshown.isProxy]
      rw [if_neg hpassed, if_neg hpassed]
      by_cases hcontainer : kind.isContainer = true
      · rw [if_pos hcontainer, if_pos hcontainer]
        obtain ⟨m, hm, hopen, -⟩ := hinside.node
        obtain ⟨hgrown, hentered⟩ := hb.enter hsigned hm hopen hshown
        have henter := h.enter top outer d w
        rw [Watched.run_bind, Watched.visit_enter henter]
        cases hframe : b.enter top d w with
        | mk frame w' =>
          rw [hframe] at hgrown hentered
          cases frame with
          | none =>
            obtain ⟨answer, hexit⟩ := h.exit d { frames := none :: some top :: outer, header? } w'
            refine ⟨[⟨(d, none) :: o.around, none, none :: some top :: outer, w'⟩], ?_, hgrown,
              List.forall_mem_singleton.mpr
                (hinside.follows_shut (by rw [hkind]; exact hfile) hdown)⟩
            refine (Watched.run_discard (Watched.visit pass .exit d) _ _ _).trans ?_
            rw [Watched.visit_exit hexit]
            rfl
          | some inner =>
            have hnext : Inside opens base (path ++ [d]) ((d, some inner) :: o.around) inner
                (some top :: outer) w' ∧ (d.kind = .linkage ∨ d.kind.qualifies = true) := by
              rcases hentered inner rfl with ⟨hlinkage, rfl⟩ | henters
              · have hclosed : opens .linkage = false :=
                  Bool.eq_false_iff.mpr fun hopen => nomatch hb.qualifies hopen
                exact ⟨(hinside.mono hgrown).linkage hlinkage hclosed, .inl hlinkage⟩
              · exact ⟨hinside.enter hm hb.qualifies henters hgrown.signed,
                  .inr (hb.qualifies henters.opens)⟩
            let sight : Sight :=
              ⟨(d, some inner) :: o.around, none, some inner :: some top :: outer, w'⟩
            let opened : Watch := ⟨(d, some inner) :: o.around, o.sights ++ [sight]⟩
            obtain ⟨sights, hwalk, hrest, hfollows⟩ := walkAll_watched h hb children (o := opened)
              (hbelow (.inr hnext.2)) hnext.1 hgrown.signed
            obtain ⟨answer, hexit⟩ :=
              h.exit d (scopes inner (some top :: outer) header?) (b.buildAll inner children w')
            refine ⟨sight :: sights, ?_, hgrown.trans hrest,
              List.forall_mem_cons.mpr ⟨hnext.1.follows (by simpa using hdown), hfollows⟩⟩
            refine (Watched.run_bind (Declaration.walkAll (Watched.visit pass) children)
              (fun _ => discard (Watched.visit pass .exit d)) opened
                (scopes inner (some top :: outer) header?) w').trans ?_
            rw [hwalk, Watched.run_discard, Watched.visit_exit hexit, List.append_assoc]
            rfl
      · rw [if_neg hcontainer, if_neg hcontainer]
        obtain ⟨answer, hleaf⟩ := h.leaf top outer d w
        obtain ⟨m, hm, hopen, -⟩ := hinside.node
        refine ⟨[⟨o.around, some d, some top :: outer, w⟩], ?_, hb.leaf hsigned hm hopen,
          List.forall_mem_singleton.mpr (hinside.follows hdown)⟩
        refine (Watched.run_discard (Watched.visit pass .leaf d) _ _ _).trans ?_
        rw [Watched.visit_leaf hleaf]
        rfl

/-- The same for several declarations. -/
theorem walkAll_watched (h : Describes b header? pass) (hb : b.Follows opens) :
    (ds : List Declaration) →
      ∀ {path : List Declaration} {top : NodeId} {outer : List (Option NodeId)} {o : Watch}
      {w : Workspace}, (∀ d ∈ ds, d.Shown ∧ root.Descends (path ++ [d])) →
        Inside opens base path o.around top outer w →
      Signed w →
      ∃ sights, (((Declaration.walkAll (Watched.visit pass) ds).run o).run
          (scopes top outer header?)).run w = ((((), { o with sights := o.sights ++ sights }),
            scopes top outer header?), b.buildAll top ds w) ∧
        Grown w (b.buildAll top ds w) ∧ ∀ v ∈ sights, v.Follows opens root base
  | [], _, _, _, _, _ => fun _ _ hsigned => ⟨[], by simp [Declaration.walkAll, buildAll]; rfl,
    .refl hsigned, nofun⟩
  | d :: rest, path, top, outer, o, w => by
    intro hds hinside hsigned
    obtain ⟨⟨hshown, hdown⟩, hrest⟩ := List.forall_mem_cons.mp hds
    obtain ⟨sights, hwalk, hgrown, hfollows⟩ := walk_watched h hb d hshown hdown hinside hsigned
    obtain ⟨more, hwalkAll, hgrownAll, hfollowsAll⟩ := walkAll_watched h hb rest
      (o := { o with sights := o.sights ++ sights }) hrest (hinside.mono hgrown) hgrown.signed
    refine ⟨sights ++ more, ?_, hgrown.trans hgrownAll,
      List.forall_mem_append.mpr ⟨hfollows, hfollowsAll⟩⟩
    rw [Declaration.walkAll, Watched.run_bind, hwalk]
    refine hwalkAll.trans ?_
    rw [List.append_assoc]
    rfl

end

end Builder.Describes

end Export

end Interop
