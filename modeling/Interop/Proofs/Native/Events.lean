import Interop.Native.Walk
import Mathlib.Logic.ExistsUnique

namespace Interop

/-- What a letter is among the brackets of a word. -/
inductive BracketRole where
  | opens
  | closes
  /-- It stands for itself. -/
  | alone
deriving DecidableEq, Repr

/-- Whether a word is bracketed: each opening bracket is closed, and `encloses` holds of the two and
of what stands between them. -/
inductive WellBracketed {α : Type} (role : α → BracketRole) (encloses : α → List α → α → Prop) :
    List α → Prop
  | nil : WellBracketed role encloses []
  | alone {a : α} {rest : List α} (ha : role a = .alone)
      (hrest : WellBracketed role encloses rest) :
      WellBracketed role encloses (a :: rest)
  | pair {a b : α} {inside rest : List α} (ha : role a = .opens) (hb : role b = .closes)
      (hencloses : encloses a inside b)
      (hinside : WellBracketed role encloses inside) (hrest : WellBracketed role encloses rest) :
      WellBracketed role encloses (a :: (inside ++ b :: rest))

namespace WellBracketed

variable {α : Type} {role : α → BracketRole} {encloses : α → List α → α → Prop} {a b b' : α}
  {word front tail inside inside' rest rest' : List α}

/-- A bracketed word does not begin with a bracket that closes. -/
theorem not_closes (h : WellBracketed role encloses (b :: rest)) : role b ≠ .closes := by
  cases h with
  | alone ha => simp [ha]
  | pair ha => simp [ha]

/-- What stands in front of the bracket that closes cannot be read in two ways. -/
theorem inside_unique (h : WellBracketed role encloses inside)
    (h' : WellBracketed role encloses inside') (hb : role b = .closes) (hb' : role b' = .closes)
    (heq : inside ++ b :: rest = inside' ++ b' :: rest') :
    inside = inside' ∧ b = b' ∧ rest = rest' := by
  induction h generalizing inside' b b' rest rest' with
  | nil =>
    cases inside' with
    | nil => exact ⟨rfl, List.cons.inj heq⟩
    | cons c more =>
      obtain ⟨rfl, -⟩ := List.cons.inj heq
      exact absurd hb h'.not_closes
  | @alone c word hc _ ih =>
    cases h' with
    | nil =>
      obtain ⟨rfl, -⟩ := List.cons.inj heq
      simp [hc] at hb'
    | alone _ hrest' =>
      obtain ⟨rfl, htail⟩ := List.cons.inj heq
      obtain ⟨rfl, hrest⟩ := ih hrest' hb hb' htail
      exact ⟨rfl, hrest⟩
    | pair hc' =>
      obtain ⟨rfl, -⟩ := List.cons.inj heq
      simp [hc] at hc'
  | @pair c d word more hc hd _ _ _ ihinside ihrest =>
    cases h' with
    | nil =>
      obtain ⟨rfl, -⟩ := List.cons.inj heq
      simp [hc] at hb'
    | alone hc' =>
      obtain ⟨rfl, -⟩ := List.cons.inj heq
      simp [hc] at hc'
    | pair _ hd' _ hinside' hrest' =>
      obtain ⟨rfl, htail⟩ := List.cons.inj heq
      simp only [List.append_eq, List.append_assoc, List.cons_append] at htail
      obtain ⟨rfl, rfl, hbehind⟩ := ihinside hinside' hd hd' htail
      obtain ⟨rfl, hrest⟩ := ihrest hrest' hb hb' hbehind
      exact ⟨rfl, hrest⟩

/-- Wherever a bracket opens, it is closed. -/
theorem exists_inside (h : WellBracketed role encloses word) (hword : word = front ++ a :: tail)
    (ha : role a = .opens) :
    ∃ inside b behind, tail = inside ++ b :: behind ∧ role b = .closes ∧
      WellBracketed role encloses inside ∧ encloses a inside b := by
  induction h generalizing front tail with
  | nil => cases front <;> cases hword
  | @alone c word hc _ ih =>
    cases front with
    | nil =>
      obtain ⟨rfl, -⟩ := List.cons.inj hword
      simp [hc] at ha
    | cons c' front => exact ih (List.cons.inj hword).2
  | @pair c d word more hc hd hencloses hinside _ ihinside ihrest =>
    cases front with
    | nil =>
      obtain ⟨rfl, rfl⟩ := List.cons.inj hword
      exact ⟨word, d, more, rfl, hd, hinside, hencloses⟩
    | cons c' front =>
      -- the bracket opens inside the first pair or behind it, since the pair's own end does not
      -- open
      rcases List.append_eq_append_iff.mp (List.cons.inj hword).2 with ⟨between, rfl,
        htail⟩ | ⟨between, rfl, htail⟩
      · cases between with
        | nil =>
          obtain ⟨rfl, -⟩ := List.cons.inj htail
          simp [hd] at ha
        | cons d' between => exact ihrest (List.cons.inj htail).2
      · cases between with
        | nil =>
          obtain ⟨rfl, -⟩ := List.cons.inj htail
          simp [hd] at ha
        | cons a' between =>
          obtain ⟨rfl, rfl⟩ := List.cons.inj htail
          obtain ⟨inside, b, behind, rfl, hb, hrest⟩ := ihinside rfl
          exact ⟨inside, b, behind ++ d :: more, by simp, hb, hrest⟩

/-- Wherever a bracket closes, it has been opened. -/
theorem exists_opening (h : WellBracketed role encloses word) (hword : word = front ++ b :: tail)
    (hb : role b = .closes) :
    ∃ before a inside, front = before ++ a :: inside ∧ role a = .opens ∧
      WellBracketed role encloses inside ∧ encloses a inside b := by
  induction h generalizing front tail with
  | nil => cases front <;> cases hword
  | @alone c word hc _ ih =>
    cases front with
    | nil =>
      obtain ⟨rfl, -⟩ := List.cons.inj hword
      simp [hc] at hb
    | cons c' front =>
      obtain ⟨rfl, hrest⟩ := List.cons.inj hword
      obtain ⟨before, a, inside, rfl, ha⟩ := ih hrest
      exact ⟨c :: before, a, inside, rfl, ha⟩
  | @pair c d word more hc hd hencloses hinside _ ihinside ihrest =>
    cases front with
    | nil =>
      obtain ⟨rfl, -⟩ := List.cons.inj hword
      simp [hc] at hb
    | cons c' front =>
      obtain ⟨rfl, hrest⟩ := List.cons.inj hword
      -- the bracket is the end of the first pair, or it closes inside the pair or behind it
      rcases List.append_eq_append_iff.mp hrest with ⟨between, rfl, htail⟩ | ⟨between, rfl, htail⟩
      · cases between with
        | nil =>
          obtain ⟨rfl, rfl⟩ := List.cons.inj htail
          exact ⟨[], c, word, by simp, hc, hinside, hencloses⟩
        | cons d' between =>
          obtain ⟨rfl, hbehind⟩ := List.cons.inj htail
          obtain ⟨before, a, inside, rfl, ha⟩ := ihrest hbehind
          exact ⟨c :: (word ++ d :: before), a, inside, by simp, ha⟩
      · cases between with
        | nil =>
          obtain ⟨rfl, rfl⟩ := List.cons.inj htail
          rw [List.append_nil] at hinside hencloses
          exact ⟨[], c, front, rfl, hc, hinside, hencloses⟩
        | cons b' between =>
          obtain ⟨rfl, rfl⟩ := List.cons.inj htail
          obtain ⟨before, a, inside, rfl, ha⟩ := ihinside rfl
          exact ⟨c :: before, a, inside, rfl, ha⟩

end WellBracketed

/-- Whether each opening bracket of a word is closed by exactly one bracket, and each closing
bracket closes one. -/
structure Matched {α : Type} (role : α → BracketRole) (encloses : α → List α → α → Prop)
    (word : List α) : Prop where
  closed : ∀ front a tail, word = front ++ a :: tail → role a = .opens →
    ∃! inside, ∃ b behind, tail = inside ++ b :: behind ∧ role b = .closes ∧
      WellBracketed role encloses inside ∧ encloses a inside b
  opened : ∀ front b behind, word = front ++ b :: behind → role b = .closes →
    ∃ before a inside, front = before ++ a :: inside ∧ role a = .opens ∧
      WellBracketed role encloses inside ∧ encloses a inside b

/-- In a well-bracketed word each opening has its closing and each closing its opening. -/
theorem WellBracketed.matched {α : Type} {role : α → BracketRole}
    {encloses : α → List α → α → Prop} {word : List α} (h : WellBracketed role encloses word) :
    Matched role encloses word where
  closed front a tail hword ha := by
    obtain ⟨inside, b, behind, htail, hb, hinside, hencloses⟩ := h.exists_inside hword ha
    refine ⟨inside, ⟨b, behind, htail, hb, hinside, hencloses⟩, ?_⟩
    rintro other ⟨b', behind', htail', hb', hother, -⟩
    exact (hother.inside_unique hinside hb' hb (htail'.symm.trans htail)).1
  opened _ _ _ hword hb := h.exists_opening hword hb

/-- What an event is among the brackets of a walk: a container is entered and left. -/
def WalkEvent.role : WalkEvent → BracketRole
  | enter => .opens
  | exit => .closes
  | leaf => .alone

namespace Declaration

/-- What a visitor is told, and its answer. -/
structure Visit where
  event : WalkEvent
  declaration : Declaration
  answer : Bool

/-- A visitor that keeps a record of its visits, the last one behind. -/
def recorded {σ : Type} (visit : WalkEvent → Declaration → StateM σ Bool) (event : WalkEvent)
    (d : Declaration) :
    StateM (List Visit × σ) Bool := fun (visits, s) =>
  let (answer, s) := (visit event d).run s
  (answer, visits ++ [⟨event, d, answer⟩], s)

/-- Whether visits are those of a walk through declarations. The file and what templates and friends
wrap are replaced by what they hold, and of a container whose entry is declined nothing is visited
inside. -/
inductive Reports : List Declaration → List Visit → Prop
  | nil : Reports [] []
  | through {d : Declaration} {rest : List Declaration} {visits : List Visit}
      (hd : d.kind = .file ∨ d.isProxy = true)
      (h : Reports (d.children ++ rest) visits) : Reports (d :: rest) visits
  | leaf {d : Declaration} {answer : Bool} {rest : List Declaration} {visits : List Visit}
      (hfile : d.kind ≠ .file)
      (hproxy : d.isProxy = false) (hkind : d.kind.isContainer = false) (h : Reports rest visits) :
      Reports (d :: rest) (⟨.leaf, d, answer⟩ :: visits)
  | container {d : Declaration} {answer last : Bool} {rest : List Declaration}
      {inside visits : List Visit}
      (hfile : d.kind ≠ .file) (hproxy : d.isProxy = false) (hkind : d.kind.isContainer = true)
      (hinside : Reports (if answer then d.children else []) inside) (h : Reports rest visits) :
      Reports (d :: rest) (⟨.enter, d, answer⟩ :: (inside ++ ⟨.exit, d, last⟩ :: visits))

/-- Whether an exit is that of the entered container, and what is visited between the two is what
the container holds, if the entry was not declined. -/
def Visit.Encloses (enter : Visit) (inside : List Visit) (exit : Visit) : Prop :=
  exit.declaration = enter.declaration ∧
    Reports (if enter.answer then enter.declaration.children else []) inside

namespace Reports

variable {ds rest : List Declaration} {visits more : List Visit}

/-- Reports over some declarations and over further ones put together. -/
theorem append (h : Reports ds visits) (hrest : Reports rest more) :
    Reports (ds ++ rest) (visits ++ more) := by
  induction h with
  | nil => exact hrest
  | through hd _ ih => exact .through hd (by rwa [List.append_assoc] at ih)
  | leaf hfile hproxy hkind _ ih => exact .leaf hfile hproxy hkind ih
  | container hfile hproxy hkind hinside _ _ ih =>
    rw [List.cons_append, List.cons_append, List.append_assoc]
    exact .container hfile hproxy hkind hinside ih

/-- What is reported is well bracketed. -/
theorem bracketed (h : Reports ds visits) : WellBracketed (·.event.role) Visit.Encloses visits := by
  induction h with
  | nil => exact .nil
  | through _ _ ih => exact ih
  | leaf _ _ _ _ ih => exact .alone rfl ih
  | container _ _ _ hinside _ ihinside ih => exact .pair rfl rfl ⟨rfl, hinside⟩ ihinside ih

/-- Neither the file nor what a template or friend wraps is visited. -/
theorem not_passedOver (h : Reports ds visits) :
    ∀ v ∈ visits, v.declaration.kind ≠ .file ∧ v.declaration.isProxy = false := by
  induction h with
  | nil => exact List.forall_mem_nil _
  | through _ _ ih => exact ih
  | leaf hfile hproxy _ _ ih => exact List.forall_mem_cons.mpr ⟨⟨hfile, hproxy⟩, ih⟩
  | container hfile hproxy _ _ _ ihinside ih =>
    exact List.forall_mem_cons.mpr ⟨⟨hfile, hproxy⟩,
      List.forall_mem_append.mpr ⟨ihinside, List.forall_mem_cons.mpr ⟨⟨hfile, hproxy⟩, ih⟩⟩⟩

end Reports

section Recorded

variable {σ : Type} (visit : WalkEvent → Declaration → StateM σ Bool)

private theorem run_bind {α β : Type} (x : StateM σ α) (next : α → StateM σ β) (s : σ) :
    (x >>= next).run s = (next (x.run s).1).run (x.run s).2 := rfl

variable {visit} in
/-- A visitor that keeps a record answers as it did and writes down the one visit. -/
theorem recorded_run {event : WalkEvent} {d : Declaration} {answer : Bool} {s s' : σ}
    (h : (visit event d).run s = (answer, s')) (visits : List Visit) :
    (recorded visit event d).run (visits, s) = (answer, visits ++ [⟨event, d, answer⟩], s') := by
  show (((visit event d).run s).1, visits ++ [⟨event, d, ((visit event d).run s).1⟩],
    ((visit event d).run s).2) = _
  rw [h]

theorem recorded_discard (event : WalkEvent) (d : Declaration) (visits : List Visit) (s : σ) :
    (discard (recorded visit event d)).run (visits, s) =
      ((), visits ++ [⟨event, d, ((visit event d).run s).1⟩],
        ((discard (visit event d)).run s).2) := rfl

mutual

/-- The visits of a recorded walk are those of a walk through the declaration, and the record
changes nothing of what the visitor does. -/
theorem walk_recorded : (d : Declaration) → ∀ (visits : List Visit) (s : σ), ∃ more,
    (d.walk (recorded visit)).run
    (visits, s) = ((), visits ++ more, ((d.walk visit).run s).2) ∧ Reports [d] more
  | { kind, name, access, isTemplated, isFriended, flags, type?, returnType?, parameters,
      value?, line, children } => by
    obtain ⟨d, hd⟩ : ∃ d : Declaration,
      Declaration.mk kind name access isTemplated isFriended flags type?
      returnType? parameters value? line children = d := ⟨_, rfl⟩
    have hkind : d.kind = kind := by rw [← hd]
    have hchildren : d.children = children := by rw [← hd]
    intro visits s
    rw [walk, walk]
    rw [hd]
    by_cases hpassed : (kind == .file || d.isProxy) = true
    · rw [if_pos hpassed, if_pos hpassed]
      obtain ⟨more, hwalk, hreports⟩ := walkAll_recorded children visits s
      rw [Bool.or_eq_true, beq_iff_eq, ← hkind] at hpassed
      exact ⟨more, hwalk, .through hpassed (by rwa [hchildren, List.append_nil])⟩
    · rw [if_neg hpassed, if_neg hpassed]
      rw [Bool.or_eq_true, beq_iff_eq, ← hkind, not_or, Bool.not_eq_true] at hpassed
      obtain ⟨hfile, hproxy⟩ := hpassed
      by_cases hcontainer : kind.isContainer = true
      · rw [if_pos hcontainer, if_pos hcontainer]
        rw [← hkind] at hcontainer
        cases hentered : (visit .enter d).run s with
        | mk answer s' =>
          rw [run_bind, recorded_run hentered, run_bind, hentered]
          cases answer with
          | false =>
            rw [if_neg Bool.false_ne_true, if_neg Bool.false_ne_true, recorded_discard,
              List.append_assoc]
            exact ⟨_, rfl, .container hfile hproxy hcontainer .nil .nil⟩
          | true =>
            rw [if_pos rfl, if_pos rfl, run_bind, run_bind]
            obtain ⟨more, hwalk, hreports⟩ :=
              walkAll_recorded children (visits ++ [⟨.enter, d, true⟩]) s'
            rw [hwalk, recorded_discard, List.append_assoc, List.append_assoc]
            exact ⟨_, rfl, .container hfile hproxy hcontainer (by rwa [if_pos rfl, hchildren]) .nil⟩
      · rw [if_neg hcontainer, if_neg hcontainer]
        rw [Bool.not_eq_true, ← hkind] at hcontainer
        exact ⟨_, recorded_discard visit .leaf d visits s, .leaf hfile hproxy hcontainer .nil⟩

/-- A walk that keeps a record goes as the walk does, and its record is a report. -/
theorem walkAll_recorded : (ds : List Declaration) → ∀ (visits : List Visit) (s : σ), ∃ more,
    (walkAll (recorded visit) ds).run
    (visits, s) = ((), visits ++ more, ((walkAll visit ds).run s).2) ∧ Reports ds more
  | [], visits, s => ⟨[], by rw [walkAll, walkAll, List.append_nil]; rfl, .nil⟩
  | d :: rest, visits, s => by
    obtain ⟨more, hwalk, hreports⟩ := walk_recorded d visits s
    obtain ⟨others, hwalkAll, hreportsAll⟩ :=
      walkAll_recorded rest (visits ++ more) ((d.walk visit).run s).2
    refine ⟨more ++ others, ?_, hreports.append hreportsAll⟩
    rw [walkAll, walkAll, ← List.append_assoc]
    rw [run_bind, run_bind, hwalk]
    exact hwalkAll

end

end Recorded

end Declaration

end Interop
