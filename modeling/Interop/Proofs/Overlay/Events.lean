import Interop.Proofs.Native.Events
import Interop.Proofs.Overlay.Reworking
import Interop.Proofs.Overlay.Walk

namespace Interop

namespace Overlay.Forest

/-- What a visitor is told, its answer, and the forests that it found and left. -/
structure Visit where
  event : WalkEvent
  id : NodeId
  answer : Bool
  found : Forest
  left : Forest

/-- What a visit is among the brackets of a walk. A container whose entry is declined is not
left. -/
def Visit.role (v : Visit) : BracketRole :=
  match v.event, v.answer with
  | .enter, false => .alone
  | event, _ => event.role

/-- Whether visits are those of a walk through nodes, which finds the first forest and leaves the
last one. A proxy is replaced by the children that it has when the walk comes to it, and inside a
container stands what is reported of the children that it has once it is entered. -/
inductive Reports : Forest → List NodeId → List Visit → Forest → Prop
  | nil {f : Forest} : Reports f [] [] f
  | proxy {f g : Forest} {id : NodeId} {n : Node} {rest : List NodeId} {visits : List Visit}
      (hn : f.node? id = some n)
      (hproxy : n.isProxy = true) (hchildren : Reports f (n.children ++ rest) visits g) :
        Reports f (id :: rest) visits g
  | leaf {f g h : Forest} {id : NodeId} {n : Node} {answer : Bool} {rest : List NodeId}
      {visits : List Visit}
      (hn : f.node? id = some n) (hproxy : n.isProxy = false) (hkind : n.kind.isContainer = false)
      (hrest : Reports g rest visits h) :
        Reports f (id :: rest) (⟨.leaf, id, answer, f, g⟩ :: visits) h
  | declined {f g h : Forest} {id : NodeId} {n : Node} {rest : List NodeId} {visits : List Visit}
      (hn : f.node? id = some n) (hproxy : n.isProxy = false) (hkind : n.kind.isContainer = true)
      (hrest : Reports g rest visits h) :
        Reports f (id :: rest) (⟨.enter, id, false, f, g⟩ :: visits) h
  | entered {f g h k l : Forest} {id : NodeId} {n m : Node} {last : Bool} {rest : List NodeId}
      {inside visits : List Visit}
      (hn : f.node? id = some n) (hproxy : n.isProxy = false) (hkind : n.kind.isContainer = true)
      (hinside : Reports g (g.children id) inside h) (hm : h.node? id = some m)
        (hleft : m.isProxy = false)
      (hrest : Reports k rest visits l) :
      Reports f (id :: rest)
        (⟨.enter, id, true, f, g⟩ :: (inside ++ ⟨.exit, id, last, h, k⟩ :: visits)) l

/-- Whether an exit is that of the entered container, and what is visited between the two is what is
reported of the children that the container has once it is entered. -/
def Visit.Encloses (enter : Visit) (inside : List Visit) (exit : Visit) : Prop :=
  exit.id = enter.id ∧ Reports enter.left (enter.left.children enter.id) inside exit.found

namespace Reports

variable {f g h : Forest} {ids rest : List NodeId} {visits more : List Visit}

/-- Reports over some nodes and over further ones put together. -/
theorem append (hids : Reports f ids visits g) (hrest : Reports g rest more h) :
    Reports f (ids ++ rest) (visits ++ more) h := by
  induction hids with
  | nil => exact hrest
  | proxy hn hproxy _ ih =>
    have hchildren := ih hrest
    rw [List.append_assoc] at hchildren
    exact .proxy hn hproxy hchildren
  | leaf hn hproxy hkind _ ih => exact .leaf hn hproxy hkind (ih hrest)
  | declined hn hproxy hkind _ ih => exact .declined hn hproxy hkind (ih hrest)
  | entered hn hproxy hkind hinside hm hleft _ _ ih =>
    rw [List.cons_append, List.cons_append, List.append_assoc]
    exact .entered hn hproxy hkind hinside hm hleft (ih hrest)

/-- What is reported is well bracketed. -/
theorem bracketed (hids : Reports f ids visits g) :
    WellBracketed Visit.role Visit.Encloses visits := by
  induction hids with
  | nil => exact .nil
  | proxy _ _ _ ih => exact ih
  | leaf _ _ _ _ ih => exact .alone rfl ih
  | declined _ _ _ _ ih => exact .alone rfl ih
  | entered _ _ _ hinside _ _ _ ihinside ih => exact .pair rfl rfl ⟨rfl, hinside⟩ ihinside ih

/-- What is visited is no proxy. -/
theorem not_proxy (hids : Reports f ids visits g) :
    ∀ v ∈ visits, ∃ n, v.found.node? v.id = some n ∧ n.isProxy = false := by
  induction hids with
  | nil => exact List.forall_mem_nil _
  | proxy _ _ _ ih => exact ih
  | leaf hn hproxy _ _ ih => exact List.forall_mem_cons.mpr ⟨⟨_, hn, hproxy⟩, ih⟩
  | declined hn hproxy _ _ ih => exact List.forall_mem_cons.mpr ⟨⟨_, hn, hproxy⟩, ih⟩
  | entered hn hproxy _ _ hm hleft _ ihinside ih =>
    exact List.forall_mem_cons.mpr ⟨⟨_, hn, hproxy⟩,
      List.forall_mem_append.mpr ⟨ihinside, List.forall_mem_cons.mpr ⟨⟨_, hm, hleft⟩, ih⟩⟩⟩

end Reports

/-- What visits do alike, walks do alike. -/
theorem walked_map {σ τ : Type} {forest : σ → Forest}
    {visit : WalkEvent → NodeId → Access → σ → Bool × σ} {forest' : τ → Forest}
    {visit' : WalkEvent → NodeId → Access → τ → Bool × τ} (φ : τ → σ)
    (hforest : ∀ t, forest (φ t) = forest' t)
    (hvisit : ∀ event id access t, visit event id access (φ t) = ((visit' event id access t).1,
      φ (visit' event id access t).2))
    (bound : Nat) (id : NodeId) (t : τ) :
    φ (walked forest' visit' bound id t) = walked forest visit bound id (φ t) := by
  induction bound generalizing id t with
  | zero => rfl
  | succ bound ih =>
    have hall : ∀ (cs : List NodeId) (t : τ),
        φ (cs.foldl (fun t c => walked forest' visit' bound c t) t) =
        cs.foldl (fun s c => walked forest visit bound c s) (φ t) := by
      intro cs
      induction cs with
      | nil => exact fun _ => rfl
      | cons c rest ihrest =>
        intro t
        rw [List.foldl_cons, List.foldl_cons, ihrest, ih]
    rw [walked, walked, hforest]
    cases (forest' t).node? id with
    | none => rfl
    | some n =>
      simp only
      split
      · exact hall n.children t
      · split
        · rw [hvisit]
          cases visit' .enter id n.access t with
          | mk deeper t' =>
            simp only
            split
            · rw [hforest, ← hall, hvisit]
            · rfl
        · rw [hvisit]

section Tours

variable {σ : Type} (forest : σ → Forest) (visit : WalkEvent → NodeId → Access → StateM σ Bool)

/-- A visitor that keeps a record of its visits, the last one behind. -/
def recorded (event : WalkEvent) (id : NodeId) (access : Access) :
    StateM (List Visit × σ) Bool := fun (visits, s) =>
  let (answer, s') := (visit event id access).run s
  (answer, visits ++ [⟨event, id, answer, forest s, forest s'⟩], s')

/-- Whether a visit is a call of the visitor. -/
def Visit.IsCall (v : Visit) : Prop :=
  ∃ access s s', (visit v.event v.id access).run s = (v.answer, s') ∧ v.found = forest s ∧
    v.left = forest s'

/-- The state that a walk leaves, if it comes to its end before it is as deep as the bound. -/
def ended? : (bound : Nat) → NodeId → σ → Option σ
  | 0, _, _ => none
  | bound + 1, id, s =>
    match (forest s).node? id with
    | none => some s
    | some n =>
      if n.isProxy then n.children.foldlM (fun s c => ended? bound c s) s
      else if n.kind.isContainer then
        let (deeper, s) := (visit .enter id n.access).run s
        if deeper then
          (((forest s).children id).foldlM (fun s c => ended? bound c s) s).map fun s =>
            ((visit .exit id n.access).run s).2
        else some s
      else some ((visit .leaf id n.access).run s).2

/-- The record and the state that a recorded walk leaves. -/
def toured (bound : Nat) (id : NodeId) (p : List Visit × σ) : List Visit × σ :=
  walked (fun p : List Visit × σ => forest p.2) (fun event id access p =>
    (recorded forest visit event id access).run p)
    bound id p

/-- Whether a walk through nodes makes these visits, however deep it may go beyond the bound. Each
of them is a call of the visitor, and they are reports if they rework the trees that they find. -/
structure Tours (bound : Nat) (ids : List NodeId) (s : σ) (visits : List Visit) (s' : σ) :
    Prop where
  runs : ∀ deep, bound ≤ deep → ∀ before,
    ids.foldl (fun p id => toured forest visit deep id p) (before, s) = (before ++ visits, s')
  calls : ∀ v ∈ visits, v.IsCall forest visit
  reports : (forest s).Linked → (∀ id ∈ ids, (forest s).contains id = true) →
    (∀ v ∈ visits, v.found.Linked → v.found.Reworked v.left) →
    (forest s).Retains (forest s') ∧ Reports (forest s) ids visits (forest s')

variable {forest visit} {bound : Nat} {id : NodeId} {ids rest : List NodeId}
    {visits more : List Visit} {s s' s'' : σ}
  {n : Node}

/-- A visitor that keeps a record answers as it did and writes down the one visit. -/
theorem recorded_run {event : WalkEvent} {access : Access} {answer : Bool}
    (h : (visit event id access).run s = (answer, s')) (visits : List Visit) :
    (recorded forest visit event id access).run (visits, s) =
      (answer, visits ++ [⟨event, id, answer, forest s, forest s'⟩], s') := by
  show (((visit event id access).run s).1,
    visits ++ [⟨event, id, ((visit event id access).run s).1, forest s,
    forest ((visit event id access).run s).2⟩], ((visit event id access).run s).2) = _
  rw [h]

/-- A visitor that reworks whatever trees it finds reworks those of each visit. -/
theorem Visit.IsCall.reworked {v : Visit} (h : v.IsCall forest visit)
    (hvisit : ∀ event id access s, (forest s).Linked →
    (forest s).Reworked (forest ((visit event id access).run s).2)) (hfound : v.found.Linked) :
    v.found.Reworked v.left := by
  obtain ⟨access, s, s', hrun, hs, hs'⟩ := h
  have hreworked := hvisit v.event v.id access s (hs ▸ hfound)
  rwa [hrun, ← hs, ← hs'] at hreworked

variable (forest visit) in
/-- The record changes nothing of what the visitor does. -/
theorem toured_state (bound : Nat) (id : NodeId) (p : List Visit × σ) :
    (toured forest visit bound id p).2 = walked forest
    (fun event id access s => (visit event id access).run s) bound id p.2 :=
  walked_map Prod.snd (fun _ => rfl) (fun _ _ _ _ => rfl) bound id p

/-- A tour of no nodes sees nothing. -/
theorem Tours.nil (bound : Nat) (s : σ) : Tours forest visit bound [] s [] s where
  runs _ _ before := by rw [List.foldl_nil, List.append_nil]
  calls := List.forall_mem_nil _
  reports hlinked _ _ := ⟨.refl hlinked, .nil⟩

/-- Tours put together. -/
theorem Tours.append (hids : Tours forest visit bound ids s visits s')
    (hrest : Tours forest visit bound rest s' more s'') :
    Tours forest visit bound (ids ++ rest) s (visits ++ more) s'' where
  runs deep hdeep before := by
    rw [List.foldl_append, hids.runs deep hdeep, hrest.runs deep hdeep, List.append_assoc]
  calls := List.forall_mem_append.mpr ⟨hids.calls, hrest.calls⟩
  reports hlinked hthere hreworked := by
    obtain ⟨hthereIds, hthereRest⟩ := List.forall_mem_append.mp hthere
    obtain ⟨hreworkedIds, hreworkedRest⟩ := List.forall_mem_append.mp hreworked
    obtain ⟨hretains, hreports⟩ := hids.reports hlinked hthereIds hreworkedIds
    obtain ⟨hretainsRest, hreportsRest⟩ := hrest.reports hretains.linked
      (fun id hid => hretains.contains (hthereRest id hid)) hreworkedRest
    exact ⟨hretains.trans hretainsRest, hreports.append hreportsRest⟩

/-- A walk through one node is the walk of its next level. -/
theorem Tours.of_level (hruns : ∀ deep, bound ≤ deep → ∀ before,
      toured forest visit (deep + 1) id (before, s) = (before ++ visits, s'))
    (hcalls : ∀ v ∈ visits, v.IsCall forest visit)
    (hreports : (forest s).Linked → (forest s).contains id = true →
      (∀ v ∈ visits, v.found.Linked → v.found.Reworked v.left) →
        (forest s).Retains (forest s') ∧ Reports (forest s) [id] visits (forest s')) :
    Tours forest visit (bound + 1) [id] s visits s' where
  runs deep hdeep before := by
    obtain ⟨deep, rfl⟩ := Nat.exists_eq_add_of_le' (Nat.le_of_add_left_le hdeep)
    exact hruns deep (Nat.le_of_succ_le_succ hdeep) before
  calls := hcalls
  reports hlinked hthere := hreports hlinked (hthere id List.mem_cons_self)

/-- A node that is not there is passed over. -/
theorem Tours.gone (hn : (forest s).node? id = none) :
    Tours forest visit (bound + 1) [id] s [] s := by
  refine .of_level (fun deep _ before => ?_) (List.forall_mem_nil _) fun _ hthere _ => ?_
  · rw [toured, walked]
    simp only [hn, List.append_nil]
  · rw [contains, hn] at hthere
    cases hthere

/-- A proxy is passed over, and its children are toured. -/
theorem Tours.proxy (hn : (forest s).node? id = some n) (hproxy : n.isProxy = true)
    (hchildren : Tours forest visit bound n.children s visits s') :
    Tours forest visit (bound + 1) [id] s visits s' := by
  refine .of_level (fun deep hdeep before => ?_) hchildren.calls fun hlinked _ hreworked => ?_
  · rw [toured, walked]
    simp only [hn, hproxy, if_true]
    exact hchildren.runs deep hdeep before
  · obtain ⟨hretains, hreports⟩ := hchildren.reports hlinked
      (fun c hc => hlinked.contains_child (children_of_node? hn ▸ hc)) hreworked
    exact ⟨hretains, .proxy hn hproxy (by rwa [List.append_nil])⟩

/-- A node that is no container is seen once, whatever the visitor answers. -/
theorem Tours.leaf {answer : Bool} (hn : (forest s).node? id = some n) (hproxy : n.isProxy = false)
    (hkind : n.kind.isContainer = false) (hvisit : (visit .leaf id n.access).run s = (answer, s')) :
    Tours forest visit (bound + 1) [id] s [⟨.leaf, id, answer, forest s, forest s'⟩] s' := by
  refine .of_level (fun deep _ before => ?_) (List.forall_mem_singleton.mpr ⟨n.access, s, s',
    hvisit, rfl, rfl⟩)
    fun hlinked _ hreworked => ?_
  · rw [toured, walked]
    simp only [hn, hproxy, hkind, Bool.false_eq_true, if_false, recorded_run hvisit]
  · exact ⟨(hreworked _ List.mem_cons_self hlinked).retains hlinked, .leaf hn hproxy hkind .nil⟩

/-- A container that the visitor does not enter is seen once, and nothing below it is. -/
theorem Tours.declined (hn : (forest s).node? id = some n) (hproxy : n.isProxy = false)
    (hkind : n.kind.isContainer = true) (hvisit : (visit .enter id n.access).run s = (false, s')) :
    Tours forest visit (bound + 1) [id] s [⟨.enter, id, false, forest s, forest s'⟩] s' := by
  refine .of_level (fun deep _ before => ?_) (List.forall_mem_singleton.mpr ⟨n.access, s, s',
    hvisit, rfl, rfl⟩)
    fun hlinked _ hreworked => ?_
  · rw [toured, walked]
    simp only [hn, hproxy, hkind, Bool.false_eq_true, if_false, if_true, recorded_run hvisit]
  · exact ⟨(hreworked _ List.mem_cons_self hlinked).retains hlinked, .declined hn hproxy hkind .nil⟩

/-- A container that the visitor enters is seen twice, and in between the children it has after the
first time. -/
theorem Tours.entered {last : Bool} {entered left : σ} (hn : (forest s).node? id = some n)
    (hproxy : n.isProxy = false) (hkind : n.kind.isContainer = true)
    (henter : (visit .enter id n.access).run s = (true, entered))
    (hchildren : Tours forest visit bound ((forest entered).children id) entered visits left)
    (hexit : (visit .exit id n.access).run left = (last, s')) :
    Tours forest visit (bound + 1) [id] s
      (⟨.enter, id, true, forest s, forest entered⟩ ::
          (visits ++ [⟨.exit, id, last, forest left, forest s'⟩])) s' := by
  have hexited : Visit.IsCall forest visit ⟨.exit, id, last, forest left, forest s'⟩ :=
    ⟨n.access, left, s', hexit, rfl, rfl⟩
  refine .of_level (fun deep hdeep before => ?_)
    (List.forall_mem_cons.mpr ⟨⟨n.access, s, entered, henter, rfl, rfl⟩,
      List.forall_mem_append.mpr ⟨hchildren.calls,
        List.forall_mem_singleton.mpr hexited⟩⟩) fun hlinked _ hreworked => ?_
  · have hinside := hchildren.runs deep hdeep
      (before ++ [⟨.enter, id, true, forest s, forest entered⟩])
    simp only [toured] at hinside
    rw [toured, walked]
    simp only [hn, hproxy, hkind, Bool.false_eq_true, if_false, if_true, recorded_run henter]
    rw [hinside, recorded_run hexit]
    simp only [List.append_assoc, List.cons_append, List.nil_append]
  · obtain ⟨hreworkedEnter, hreworked⟩ := List.forall_mem_cons.mp hreworked
    obtain ⟨hreworkedInside, hreworkedExit⟩ := List.forall_mem_append.mp hreworked
    have hretainsEnter := (hreworkedEnter hlinked).retains hlinked
    obtain ⟨hretainsInside, hinside⟩ := hchildren.reports hretainsEnter.linked
      (fun c hc => hretainsEnter.linked.contains_child hc) hreworkedInside
    have hretainsLeft := hretainsEnter.trans hretainsInside
    have hretainsExit :=
      (hreworkedExit _ List.mem_cons_self hretainsLeft.linked).retains hretainsLeft.linked
    -- the node that is left is the one that was entered, wherever it stands now
    obtain ⟨m, hm, -, hplain⟩ := hretainsLeft.nodes hn
    exact ⟨hretainsLeft.trans hretainsExit,
      .entered hn hproxy hkind hinside hm (hplain.trans hproxy) .nil⟩

/-- What goes through each node goes through all of them. -/
theorem exists_tours_all (hnode : ∀ {id s s'}, ended? forest visit bound id s = some s' →
      ∃ visits, Tours forest visit bound [id] s visits s') (ids : List NodeId) {s s' : σ}
    (hended : ids.foldlM (fun s c => ended? forest visit bound c s) s = some s') :
    ∃ visits, Tours forest visit bound ids s visits s' := by
  induction ids generalizing s with
  | nil =>
    obtain rfl := Option.some.inj hended
    exact ⟨[], .nil bound s⟩
  | cons id rest ih =>
    rw [List.foldlM_cons] at hended
    obtain ⟨t, hid, hrest⟩ := Option.bind_eq_some_iff.mp hended
    obtain ⟨visits, htours⟩ := hnode hid
    obtain ⟨more, hmore⟩ := ih hrest
    exact ⟨visits ++ more, htours.append hmore⟩

/-- A walk that comes to its end makes the visits of a walk through its node. -/
theorem exists_tours (hended : ended? forest visit bound id s = some s') :
    ∃ visits, Tours forest visit bound [id] s visits s' := by
  induction bound generalizing id s s' with
  | zero => cases hended
  | succ bound ih =>
    have hall : ∀ ids {s s'}, List.foldlM (fun s c => ended? forest visit bound c s) s ids =
        some s' → ∃ visits, Tours forest visit bound ids s visits s' :=
          fun ids _ _ h => exists_tours_all ih ids h
    rw [ended?] at hended
    cases hn : (forest s).node? id with
    | none =>
      simp only [hn] at hended
      obtain rfl := Option.some.inj hended
      exact ⟨[], .gone hn⟩
    | some n =>
      simp only [hn] at hended
      cases hproxy : n.isProxy with
      | true =>
        rw [hproxy, if_pos rfl] at hended
        obtain ⟨visits, hchildren⟩ := hall _ hended
        exact ⟨visits, .proxy hn hproxy hchildren⟩
      | false =>
        rw [hproxy, if_neg Bool.false_ne_true] at hended
        cases hkind : n.kind.isContainer with
        | false =>
          rw [hkind, if_neg Bool.false_ne_true] at hended
          obtain rfl := Option.some.inj hended
          exact ⟨_, .leaf hn hproxy hkind rfl⟩
        | true =>
          rw [hkind, if_pos rfl] at hended
          cases henter : (visit .enter id n.access).run s with
          | mk deeper entered =>
            simp only [henter] at hended
            cases deeper with
            | false =>
              rw [if_neg Bool.false_ne_true] at hended
              obtain rfl := Option.some.inj hended
              exact ⟨_, .declined hn hproxy hkind henter⟩
            | true =>
              rw [if_pos rfl] at hended
              obtain ⟨left, hbelow, rfl⟩ := Option.map_eq_some_iff.mp hended
              obtain ⟨visits, hchildren⟩ := hall _ hbelow
              exact ⟨_, .entered hn hproxy hkind henter hchildren rfl⟩

section Run

variable (h : Tours forest visit bound [id] s visits s') {deep : Nat} (hdeep : bound ≤ deep)
include h hdeep

/-- The record that a walk leaves is that of its visits. -/
theorem Tours.run_recorded :
    (walkWithin (do return forest (← get).2) (recorded forest visit) deep id).run ([], s) =
    ((), visits, s') := by
  have htoured : toured forest visit deep id ([], s) = (visits, s') := h.runs deep hdeep []
  rw [← htoured]
  exact run_walkWithin (.state (List Visit × σ)) (fun _ => rfl) (fun _ _ _ _ => rfl) deep id ([], s)

/-- A walk makes a tour and leaves the state that the tour ends in. -/
theorem Tours.run_walk :
    (walkWithin (do return forest (← get)) visit deep id).run s = ((), s') := by
  have htoured : toured forest visit deep id ([], s) = (visits, s') := h.runs deep hdeep []
  have hstate : s' = walked forest (fun event id access s =>
      (visit event id access).run s) deep id s := by
    rw [← toured_state forest visit deep id ([], s), htoured]
  rw [hstate]
  exact run_walkWithin (.state σ) (fun _ => rfl) (fun _ _ _ _ => rfl) deep id s

end Run

end Tours

end Overlay.Forest

open Overlay

/-- Walks over declarations and over overlay trees are nested, whatever the visitor answers. Each
entered container is left exactly once, a declined container of an overlay tree is not left, and
between entering and leaving a container stands what is reported of its children. A visitor may
rework the forest that is walked: children are those that a container has once it is entered, and a
proxy is replaced by the children that it has when the walk comes to it. No file of a translation
unit is visited, and no proxy. -/
theorem walks_nested :
    (∀ {σ : Type} (visit : WalkEvent → Declaration → StateM σ Bool) (d : Declaration) (s : σ),
      ∃ visits, (d.walk (Declaration.recorded visit)).run ([], s) =
        ((), visits, ((d.walk visit).run s).2) ∧
      Declaration.Reports [d] visits ∧
        WellBracketed (·.event.role) Declaration.Visit.Encloses visits ∧
      Matched (·.event.role) Declaration.Visit.Encloses visits ∧
      ∀ v ∈ visits, v.declaration.kind ≠ .file ∧ v.declaration.isProxy = false) ∧
    ∀ {σ : Type} (forest : σ → Forest) (visit : WalkEvent → NodeId → Access →
      StateM σ Bool) (bound : Nat) (root : NodeId)
      (s s' : σ), (forest s).Linked → (forest s).contains root = true →
        Forest.ended? forest visit bound root s = some s' →
      ∃ visits, (∀ deep, bound ≤ deep →
          (Forest.walkWithin (do return forest (← get)) visit deep root).run s = ((), s') ∧
          (Forest.walkWithin (do return forest (← get).2)
            (Forest.recorded forest visit) deep root).run ([], s) =
            ((), visits, s')) ∧
        (∀ v ∈ visits, v.IsCall forest visit) ∧
        ((∀ v ∈ visits, v.found.Linked → v.found.Reworked v.left) →
          Forest.Reports (forest s) [root] visits (forest s') ∧
            WellBracketed Forest.Visit.role Forest.Visit.Encloses visits ∧
          Matched Forest.Visit.role Forest.Visit.Encloses visits ∧
          ∀ v ∈ visits, ∃ n, v.found.node? v.id = some n ∧ n.isProxy = false) := by
  refine ⟨fun visit d s => ?_, fun {σ} forest visit bound root s s' hlinked hroot hended => ?_⟩
  · obtain ⟨visits, hwalk, hreports⟩ := Declaration.walk_recorded visit d [] s
    exact ⟨visits, hwalk, hreports, hreports.bracketed, hreports.bracketed.matched,
      hreports.not_passedOver⟩
  · obtain ⟨visits, htours⟩ := Forest.exists_tours hended
    refine ⟨visits, fun deep hdeep => ?_, htours.calls, fun hreworked => ?_⟩
    · exact ⟨htours.run_walk hdeep, htours.run_recorded hdeep⟩
    · obtain ⟨-, hreports⟩ := htours.reports hlinked (List.forall_mem_singleton.mpr hroot) hreworked
      exact ⟨hreports, hreports.bracketed, hreports.bracketed.matched, hreports.not_proxy⟩

/-- A function moves out of a proxy into a class when it is visited, so it is visited once more
there. The class grows while it is walked and is taken out when it is left, and the entry of the
class behind it is declined. -/
theorem walks_nested_reworking :
    let nodes := ((((Forest.empty.push { kind := .nameSpace, name := "A", symbol := "A" }).push
      { kind := .unexposed, name := "", symbol := "A", isProxy := true }).push
      { kind := .freeFunction, name := "f", symbol := "A::f" }).push
      { kind := .classType, name := "B", symbol := "A::B" }).push
      { kind := .classType, name := "C", symbol := "A::C" }
    let moves : List Forest.Move :=
      [.attach ⟨0⟩ ⟨1⟩, .attach ⟨0⟩ ⟨3⟩, .attach ⟨0⟩ ⟨4⟩, .attach ⟨1⟩ ⟨2⟩]
    let f := Forest.Move.applyAll nodes moves
    let g : Node := { kind := .memberFunction, name := "g", symbol := "A::B::g" }
    let visit : WalkEvent → NodeId → Access → StateM Forest Bool := fun event id _ f =>
      match event with
      | .enter => (id != ⟨4⟩, f)
      | .leaf =>
        (true, if f.parent? ⟨2⟩ = some ⟨1⟩ ∧ f.parent? ⟨3⟩ = some ⟨0⟩ ∧
          f.parent? ⟨0⟩ = none then f.attach ⟨3⟩ ⟨2⟩
          else if f.contains ⟨3⟩ then f.pushBelow ⟨3⟩ g else f)
      | .exit => (true, if id = ⟨3⟩ ∧ f.contains id then f.detach id else f)
    ∃ visits f', f.Linked ∧ Forest.ended? (fun f => f) visit 3 ⟨0⟩ f = some f' ∧
      (Forest.walkWithin (do return (← get).2) (Forest.recorded (fun f => f) visit) 3 ⟨0⟩).run ([],
        f) = ((), visits, f') ∧
      visits.map (fun v => (v.event, v.id.index)) =
        [(.enter, 0), (.leaf, 2), (.enter, 3), (.leaf, 2), (.exit, 3), (.enter, 4), (.exit, 0)] ∧
      (∀ v ∈ visits, v.found.Linked → v.found.Reworked v.left) ∧ Forest.Reports f [⟨0⟩] visits f' ∧
      Matched Forest.Visit.role Forest.Visit.Encloses visits := by
  intro nodes moves f g visit
  have hscattered : nodes.Scattered :=
    ((((Forest.scattered_empty.push rfl rfl).push rfl rfl).push rfl rfl).push rfl rfl).push rfl rfl
  have hfree : ¬(Forest.Move.applyAll nodes (moves.take 3)).Within ⟨2⟩ ⟨1⟩ := by
    have hparent : (Forest.Move.applyAll nodes (moves.take 3)).parent? ⟨1⟩ = some ⟨0⟩ := by decide
    exact Forest.not_within_of_parent hparent (by decide)
      (Forest.not_within_of_root (by decide) (by decide))
  have hmoves : Forest.Move.AllAllowed nodes moves :=
    ⟨⟨by decide, by decide, Forest.not_within_of_root (by decide) (by decide)⟩,
      ⟨by decide, by decide, Forest.not_within_of_root (by decide) (by decide)⟩,
      ⟨by decide, by decide, Forest.not_within_of_root (by decide) (by decide)⟩,
        ⟨by decide, by decide, hfree⟩, trivial⟩
  have hlinked : f.Linked := hmoves.linked hscattered.linked
  have hvisit : ∀ (event : WalkEvent) (id : NodeId) (access : Access) (f : Forest), f.Linked →
      f.Reworked ((visit event id access).run f).2 := by
    intro event id access f hf
    cases event with
    | enter => exact .refl
    | leaf =>
      show f.Reworked (if _ then _ else if _ then _ else _)
      split
      · rename_i hparents
        obtain ⟨hfunction, hclass, hroot⟩ := hparents
        refine .attach .refl
          ⟨hf.contains_child ((hf.links _ _).mpr hclass),
            hf.contains_child ((hf.links _ _).mpr hfunction), ?_⟩
        exact Forest.not_within_of_parent hclass (by decide)
          (Forest.not_within_of_root hroot (by decide))
      · split
        · rename_i hthere
          exact hf.reworked_pushBelow hthere ⟨rfl, rfl, rfl⟩
        · exact .refl
    | exit =>
      show f.Reworked (if _ then _ else _)
      split
      · rename_i hthere
        exact .detach .refl hthere.2
      · exact .refl
  have hends : (Forest.ended? (fun f => f) visit 3 ⟨0⟩ f).isSome = true := by decide +kernel
  obtain ⟨f', hended⟩ := Option.isSome_iff_exists.mp hends
  have hevents : ((Forest.walkWithin (do return (← get).2) (Forest.recorded (fun f => f) visit) 3
      ⟨0⟩).run ([], f)).2.1.map
      (fun v => (v.event, v.id.index)) =
        [(.enter, 0), (.leaf, 2), (.enter, 3), (.leaf, 2), (.exit, 3), (.enter, 4), (.exit, 0)] :=
          by decide +kernel
  have hthere : f.contains ⟨0⟩ = true := by decide
  obtain ⟨visits, hruns, hcalls, hnested⟩ :=
    walks_nested.2 (fun f => f) visit 3 ⟨0⟩ f f' hlinked hthere hended
  have hwalk := (hruns 3 (Nat.le_refl 3)).2
  have hreworked : ∀ v ∈ visits, v.found.Linked → v.found.Reworked v.left :=
    fun v hv => (hcalls v hv).reworked hvisit
  obtain ⟨hreports, -, hmatched, -⟩ := hnested hreworked
  rw [hwalk] at hevents
  exact ⟨visits, f', hlinked, hended, hwalk, hevents, hreworked, hreports, hmatched⟩

end Interop
