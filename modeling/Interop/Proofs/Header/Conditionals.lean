import Interop.Proofs.Header.Regions
import Mathlib.Logic.Basic

namespace Interop.Header

namespace Selection

variable (config : Configuration) (parts : List LinePart) (selected : Nat → Prop)

/-- The role of a line. -/
def roleAt (i : Nat) : DirectiveRole :=
  match parts[i]? with
  | some (.directive d) => d.role
  | _ => .other

/-- How many conditionals are open in line `i` inside of the one that line `o` opens, if that one is
open. -/
def depth? (o : Nat) : Nat → Option Nat
  | 0 => none
  | i + 1 =>
    if i = o then if roleAt parts i = .opens then some 0 else none
    else
      match roleAt parts i, depth? o i with
      | .opens, some n => some (n + 1)
      | .closes, some n => if n = 0 then none else some (n - 1)
      | _, depth => depth

/-- Whether a branch of the conditional that line `o` opens begins in line `b`. -/
def Branch (o b : Nat) : Prop :=
  b = o ∧ roleAt parts o = .opens ∨ depth? parts o b = some 0 ∧ roleAt parts b = .branches

/-- Whether line `i` lies in the branch that begins in line `b`. -/
def InBranch (o b i : Nat) : Prop :=
  (depth? parts o i).isSome = true ∧ Branch parts o b ∧ b < i ∧ ∀ b', Branch parts o b' → b' < i →
    b' ≤ b

/-- Whether a selected line defines a macro. -/
def Defines (i : Nat) (name : String) : Prop :=
  selected i ∧ ∃ d value?, parts[i]? = some (.directive d) ∧ d.word = "define" ∧
    Directive.definition? d.body = some (name, value?)

/-- Whether a selected line withdraws the definition of a macro. -/
def Undefines (i : Nat) (name : String) : Prop :=
  selected i ∧ ∃ d, parts[i]? = some (.directive d) ∧ d.word = "undef" ∧ String.ofList d.body = name

/-- Whether a macro is defined in a line: by the configuration, or by a line before it, and not
withdrawn between. -/
def IsDefined (i : Nat) (name : String) : Prop :=
  (config.replacement? name).isSome = true ∨
    ∃ j < i, Defines parts selected j name ∧ ∀ k, j < k → k < i → ¬Undefines parts selected k name

open Classical in
/-- Whether the condition of the branch that begins in a line holds where it is reached. -/
def Holds (b : Nat) : Prop :=
  ∃ d, parts[b]? = some (.directive d) ∧
    d.condition (fun name => decide (IsDefined config parts selected b name)) = true

/-- Whether a conditional selects the branch that begins in line `b`. -/
def Chosen (o b : Nat) : Prop :=
  selected o ∧ Branch parts o b ∧ Holds config parts selected b ∧
    ∀ b' < b, Branch parts o b' → ¬Holds config parts selected b'

/-- Whether just those lines are selected in which every open conditional is in the branch that it
selects. -/
def Selects : Prop :=
  ∀ i, selected i ↔ ∀ o, (depth? parts o i).isSome = true →
    ∃ b, InBranch parts o b i ∧ Chosen config parts selected o b

end Selection

open Header.Selection

namespace Selection

variable {config : Configuration} {parts : List LinePart} {selected selected' : Nat → Prop}
    {o b i n : Nat}

/-- Lines up to a conditional are not in it. -/
theorem depth?_of_le (h : i ≤ o) : depth? parts o i = none := by
  induction i with
  | zero => rfl
  | succ i ih => rw [depth?, if_neg (by omega), ih (by omega)]; split <;> simp_all

/-- Behind an opening directive the depth is one more, and starts for its own conditional. -/
theorem depth?_opens (h : roleAt parts i = .opens) :
    depth? parts o (i + 1) = if i = o then some 0 else (depth? parts o i).map (· + 1) := by
  rw [depth?, h]
  cases depth? parts o i <;> simp

/-- Behind a closing directive the depth is one less. -/
theorem depth?_closes (h : roleAt parts i = .closes) :
    depth? parts o (i + 1) = some n ↔ depth? parts o i = some (n + 1) := by
  rw [depth?, h]
  by_cases ho : i = o
  · subst ho
    simp [depth?_of_le]
  · cases hdepth : depth? parts o i with
    | none => simp [ho]
    | some m =>
      simp only [ho, if_false, Option.some.injEq]
      cases m with
      | zero => simp
      | succ m => simp

/-- Other directives leave the depth. -/
theorem depth?_stays (h : roleAt parts i ≠ .opens) (h' : roleAt parts i ≠ .closes) :
    depth? parts o (i + 1) = depth? parts o i := by
  rw [depth?]
  by_cases ho : i = o
  · subst ho
    simp [h, depth?_of_le]
  · rw [if_neg ho]
    split <;> simp_all

/-- What is in a conditional stands behind its opening. -/
theorem lt_of_depth? (h : (depth? parts o i).isSome = true) : o < i := by
  refine Nat.lt_of_not_le fun hle => ?_
  rw [depth?_of_le hle] at h
  cases h

/-- A line is in one branch of a conditional only. -/
theorem InBranch.eq {b' : Nat} (h : InBranch parts o b i) (h' : InBranch parts o b' i) : b = b' :=
  Nat.le_antisymm (h'.2.2.2 b h.2.1 h.2.2.1) (h.2.2.2 b' h'.2.1 h'.2.2.1)

/-- One branch of a conditional is chosen only. -/
theorem Chosen.eq {b' : Nat} (h : Chosen config parts selected o b)
    (h' : Chosen config parts selected o b') : b = b' := by
  rcases Nat.lt_trichotomy b b' with hlt | heq | hlt
  · exact absurd h.2.2.1 (h'.2.2.2 b hlt h.2.1)
  · exact heq
  · exact absurd h'.2.2.1 (h.2.2.2 b' hlt h'.2.1)

/-- A line that begins no branch changes nothing about the branches of a conditional that stays
open. -/
theorem inBranch_succ (hnot : ¬Branch parts o i) (hi : (depth? parts o i).isSome = true)
    (hi' : (depth? parts o (i + 1)).isSome = true) :
    InBranch parts o b (i + 1) ↔ InBranch parts o b i := by
  constructor
  · rintro ⟨-, hbranch, hlt, hlast⟩
    have hne : b ≠ i := fun heq => hnot (heq ▸ hbranch)
    exact ⟨hi, hbranch, by omega, fun b' hb' hlt' => hlast b' hb' (by omega)⟩
  · rintro ⟨-, hbranch, hlt, hlast⟩
    refine ⟨hi', hbranch, by omega, fun b' hb' hlt' => ?_⟩
    have hne : b' ≠ i := fun heq => hnot (heq ▸ hb')
    exact hlast b' hb' (by omega)

/-- A line that begins a branch lies before the lines of that branch. -/
theorem inBranch_succ_of_branch (hbranch : Branch parts o i)
    (hi' : (depth? parts o (i + 1)).isSome = true) :
    InBranch parts o b (i + 1) ↔ b = i := by
  constructor
  · rintro ⟨-, -, hlt, hlast⟩
    have hle := hlast i hbranch (Nat.lt_succ_self i)
    omega
  · rintro rfl
    exact ⟨hi', hbranch, Nat.lt_succ_self b, fun b' _ hlt => Nat.lt_succ_iff.mp hlt⟩

/-- What is defined at a line depends on the selection of the lines before it only. -/
theorem isDefined_congr {name : String} (h : ∀ j < i, selected j ↔ selected' j) :
    IsDefined config parts selected i name ↔ IsDefined config parts selected' i name := by
  refine or_congr_right (exists_congr fun j => and_congr_right fun hj => ?_)
  refine and_congr (and_congr_left fun _ => h j hj) ?_
  refine forall_congr' fun k => forall_congr' fun _ => forall_congr' fun hk => not_congr ?_
  exact and_congr_left fun _ => h k hk

/-- Whether a condition holds depends on the selection of the lines before it only. -/
theorem holds_congr (h : ∀ j < i, selected j ↔ selected' j) :
    Holds config parts selected i ↔ Holds config parts selected' i := by
  have hdefined : IsDefined config parts selected i = IsDefined config parts selected' i :=
    funext fun name => propext (isDefined_congr h)
  rw [Holds, Holds, hdefined]

/-- Which branch is chosen depends on the selection of the lines before it only. -/
theorem chosen_congr (ho : o < i) (hb : b < i) (h : ∀ j < i, selected j ↔ selected' j) :
    Chosen config parts selected o b ↔ Chosen config parts selected' o b := by
  have hholds : ∀ b' ≤ b, (Holds config parts selected b' ↔ Holds config parts selected' b') :=
    fun b' hb' => holds_congr fun j hj => h j (by omega)
  refine and_congr (h o ho) (and_congr_right fun _ => and_congr (hholds b (Nat.le_refl b)) ?_)
  refine forall_congr' fun b' => forall_congr' fun hb' => ?_
  rw [hholds b' (Nat.le_of_lt hb')]

/-- There is one selection only, by induction on the lines. -/
theorem Selects.eq (h : Selects config parts selected) (h' : Selects config parts selected') :
    selected = selected' := by
  funext i
  apply propext
  induction i using Nat.strongRecOn with
  | ind i ih =>
    rw [h i, h' i]
    refine forall_congr' fun o => forall_congr' fun ho => exists_congr fun b =>
      and_congr_right fun hb => ?_
    exact chosen_congr (lt_of_depth? ho) hb.2.2.1 ih

/-- Whether the state before a line is in a selected region. -/
def active (config : Configuration) (parts : List LinePart) (i : Nat) : Prop :=
  (RegionState.before config parts i).isActive = true

/-- What has been done before a line and not been undone, was done in the line before it, or before
that line, which does not undo it. -/
theorem exists_last_succ {p q : Nat → Prop} :
    (∃ j < i + 1, p j ∧ ∀ k, j < k → k < i + 1 → ¬q k) ↔
      p i ∨ (∃ j < i, p j ∧ ∀ k, j < k → k < i → ¬q k) ∧ ¬q i := by
  constructor
  · rintro ⟨j, hj, hp, hq⟩
    by_cases heq : j = i
    · exact .inl (heq ▸ hp)
    · exact .inr ⟨⟨j, by omega, hp, fun k hk hki => hq k hk (by omega)⟩, hq i (by omega) (by omega)⟩
  · rintro (hp | ⟨⟨j, hj, hp, hq⟩, hqi⟩)
    · exact ⟨i, Nat.lt_succ_self i, hp, fun k hk hki => by omega⟩
    · refine ⟨j, by omega, hp, fun k hk hki => ?_⟩
      by_cases heq : k = i
      · exact heq ▸ hqi
      · exact hq k hk (by omega)

/-- The macros that a state knows are those that lines before it define. -/
theorem mem_defined_before {name : String} :
    name ∈ (RegionState.before config parts i).defined ↔
      ∃ j < i, Defines parts (active config parts) j name ∧
        ∀ k, j < k → k < i → ¬Undefines parts (active config parts) k name := by
  induction i with
  | zero => simp [RegionState.before, RegionState.through]
  | succ i ih =>
    rw [exists_last_succ (p := fun j => Defines parts (active config parts) j name)
      (q := fun k => Undefines parts (active config parts) k name), ← ih]
    cases hpart : parts[i]? with
    | none => simp [RegionState.before_succ_of_none hpart, Defines, Undefines, hpart]
    | some part =>
      rw [RegionState.before_succ hpart]
      cases part with
      | directive d =>
        rw [RegionState.pass, RegionState.mem_defined_apply]
        simp [Defines, Undefines, hpart, active]
      | text | continuation => simp [RegionState.pass, Defines, Undefines, hpart]

/-- The state knows the names that are defined. -/
theorem isDefined_before (name : String) :
    (RegionState.before config parts i).isDefined config name = true ↔
      IsDefined config parts (active config parts) i name := by
  rw [RegionState.isDefined, Bool.or_eq_true, List.contains_iff_mem, mem_defined_before, or_comm]
  rfl

open Classical in
/-- A condition holds if it does in the state in front of it. -/
theorem holds_iff {d : Directive} (h : parts[i]? = some (.directive d)) :
    Holds config parts (active config parts) i ↔
      d.condition ((RegionState.before config parts i).isDefined config) = true := by
  have hdefined : (RegionState.before config parts i).isDefined config =
      fun name => decide (IsDefined config parts (active config parts) i name) := by
    funext name
    rw [Bool.eq_iff_iff, isDefined_before, decide_eq_true_iff]
  rw [Holds, hdefined]
  constructor
  · rintro ⟨d', hd', hcondition⟩
    obtain rfl : d = d' := by simpa [h] using hd'
    exact hcondition
  · exact fun hcondition => ⟨d, h, hcondition⟩

/-- What the state before a line knows of a conditional that is open there. -/
structure Tracks (config : Configuration) (parts : List LinePart) (i o : Nat) (c : Conditional) :
    Prop where
  reached : c.isReached = true ↔ active config parts o
  taken : active config parts o →
    (c.isTaken = true ↔ ∃ b < i, Branch parts o b ∧ Holds config parts (active config parts) b)
  current : c.isActive = true ↔ ∃ b, InBranch parts o b i ∧
    Chosen config parts (active config parts) o b

/-- Whether the outermost conditional is opened in a selected region, and each other one where the
current branch of the next one is selected. -/
def Chained : List Conditional → Prop
  | [] => True
  | c :: outer => c.isReached = RegionState.isActive { conditionals := outer } ∧ Chained outer

/-- Whether the conditionals of the state before a line are those that are open there. -/
structure Tracked (config : Configuration) (parts : List LinePart) (i : Nat) (opened : List Nat)
    (conditionals : List Conditional) : Prop where
  length : opened.length = conditionals.length
  openers : ∀ o n, depth? parts o i = some n ↔ opened[n]? = some o
  tracks : ∀ (n o : Nat) (c : Conditional), opened[n]? = some o → conditionals[n]? = some c →
    Tracks config parts i o c
  chained : Chained conditionals

section Step

variable {opened : List Nat} {conditionals : List Conditional} {c : Conditional}

theorem Tracks.isReached (h : Tracks config parts i o c) (hactive : c.isActive = true) :
    c.isReached = true := by
  obtain ⟨b, -, hchosen⟩ := h.current.mp hactive
  exact h.reached.mpr hchosen.1

/-- A conditional is tracked further over a line that begins none of its branches and leaves it
open. -/
theorem Tracks.later (h : Tracks config parts i o c) (hnot : ¬Branch parts o i)
    (hi : (depth? parts o i).isSome = true) (hi' : (depth? parts o (i + 1)).isSome = true) :
    Tracks config parts (i + 1) o c where
  reached := h.reached
  taken hactive := by
    rw [h.taken hactive]
    constructor
    · rintro ⟨b, hb, hbranch⟩
      exact ⟨b, by omega, hbranch⟩
    · rintro ⟨b, hb, hbranch, hholds⟩
      have hne : b ≠ i := fun heq => hnot (heq ▸ hbranch)
      exact ⟨b, by omega, hbranch, hholds⟩
  current := by
    rw [h.current]
    exact exists_congr fun b => and_congr_left fun _ => (inBranch_succ hnot hi hi').symm

/-- Where the current branch of the innermost conditional is selected, all current branches are. -/
theorem all_active (hchained : Chained conditionals)
    (hreached : ∀ c ∈ conditionals, c.isActive = true → c.isReached = true)
    (h : RegionState.isActive { conditionals } = true) : ∀ c ∈ conditionals, c.isActive = true := by
  induction conditionals with
  | nil => exact nofun
  | cons first outer ih =>
    intro c hc
    rcases List.mem_cons.mp hc with rfl | hc
    · exact h
    · have hfirst := hreached first List.mem_cons_self h
      exact ih hchained.2 (fun c hc => hreached c (List.mem_cons_of_mem _ hc))
        (hchained.1 ▸ hfirst) c hc

/-- The state before a line is in a selected region just where every open conditional is in the
branch it selects. -/
theorem Tracked.isActive_iff (h : Tracked config parts i opened conditionals) :
    RegionState.isActive { conditionals } = true ↔ ∀ o, (depth? parts o i).isSome = true →
      ∃ b, InBranch parts o b i ∧ Chosen config parts (active config parts) o b := by
  have htracks : ∀ c ∈ conditionals, ∃ o, (depth? parts o i).isSome = true ∧
      Tracks config parts i o c := by
    intro c hc
    obtain ⟨n, hn⟩ := List.mem_iff_getElem?.mp hc
    have hlt : n < opened.length := h.length ▸ (List.getElem?_eq_some_iff.mp hn).1
    have ho : opened[n]? = some opened[n] := List.getElem?_eq_getElem hlt
    exact ⟨opened[n], by rw [(h.openers _ n).mpr ho]; rfl, h.tracks n _ c ho hn⟩
  constructor
  · intro hactive o ho
    obtain ⟨n, hn⟩ := Option.isSome_iff_exists.mp ho
    have hopened := (h.openers o n).mp hn
    have hlt : n < conditionals.length := h.length ▸ (List.getElem?_eq_some_iff.mp hopened).1
    have hall := all_active h.chained (fun c hc => (htracks c hc).choose_spec.2.isReached) hactive
    have hc := List.getElem?_eq_getElem hlt
    exact (h.tracks n o _ hopened hc).current.mp (hall _ (List.mem_of_getElem? hc))
  · intro hall
    cases conditionals with
    | nil => rfl
    | cons c outer =>
      obtain ⟨o, ho, htracks⟩ := htracks c List.mem_cons_self
      exact htracks.current.mpr (hall o ho)

/-- Only an opening or branching directive begins a branch. -/
theorem not_branch (hopens : roleAt parts i ≠ .opens) (hbranches : roleAt parts i ≠ .branches) :
    ¬Branch parts o i := by
  rintro (⟨rfl, h⟩ | ⟨-, h⟩)
  · exact hopens h
  · exact hbranches h

theorem Tracked.other (h : Tracked config parts i opened conditionals)
    (hrole : roleAt parts i = .other) :
    Tracked config parts (i + 1) opened conditionals := by
  have hdepth : ∀ o, depth? parts o (i + 1) = depth? parts o i :=
    fun o => depth?_stays (by rw [hrole]; exact nofun) (by rw [hrole]; exact nofun)
  refine ⟨h.length, fun o n => by rw [hdepth]; exact h.openers o n, fun n o c ho hc => ?_,
    h.chained⟩
  have hi : (depth? parts o i).isSome = true := by rw [(h.openers o n).mpr ho]; rfl
  have hnot : ¬Branch parts o i :=
    not_branch (by rw [hrole]; exact nofun) (by rw [hrole]; exact nofun)
  exact (h.tracks n o c ho hc).later hnot hi (by rwa [hdepth])

/-- A conditional that is closed was opened last. -/
theorem Tracked.closes (h : Tracked config parts i opened conditionals)
    (hrole : roleAt parts i = .closes) :
    Tracked config parts (i + 1) opened.tail conditionals.tail := by
  have hopeners : ∀ o n, depth? parts o (i + 1) = some n ↔ opened.tail[n]? = some o := by
    intro o n
    rw [depth?_closes hrole, h.openers, List.getElem?_tail]
  refine ⟨by rw [List.length_tail, List.length_tail, h.length], hopeners, fun n o c ho hc => ?_, ?_⟩
  · have hi' : (depth? parts o (i + 1)).isSome = true := by rw [(hopeners o n).mpr ho]; rfl
    rw [List.getElem?_tail] at ho hc
    have hi : (depth? parts o i).isSome = true := by rw [(h.openers o _).mpr ho]; rfl
    have hnot : ¬Branch parts o i :=
      not_branch (by rw [hrole]; exact nofun) (by rw [hrole]; exact nofun)
    exact (h.tracks _ o c ho hc).later hnot hi hi'
  · cases conditionals with
    | nil => exact trivial
    | cons c outer => exact h.chained.2

/-- The first branch of a conditional begins in its line. -/
theorem not_branch_of_lt {b : Nat} (hb : b < i) : ¬Branch parts i b := by
  rintro (⟨rfl, -⟩ | ⟨hdepth, -⟩)
  · exact Nat.lt_irrefl _ hb
  · rw [depth?_of_le (Nat.le_of_lt hb)] at hdepth
    cases hdepth

/-- The first branch of a conditional is selected if the conditional is reached and the condition
holds. -/
theorem Tracks.opens (hrole : roleAt parts i = .opens) {condition isActive : Bool}
    (hactive : isActive = true ↔ active config parts i)
    (hholds : Holds config parts (active config parts) i ↔ condition = true) :
    Tracks config parts (i + 1) i ⟨isActive && condition, isActive && condition, isActive⟩ := by
  have hself : Branch parts i i := .inl ⟨rfl, hrole⟩
  have hin : ∀ b, InBranch parts i b (i + 1) ↔ b = i := fun b =>
    inBranch_succ_of_branch hself (by simp [depth?_opens hrole])
  have hchosen : Chosen config parts (active config parts) i i ↔ active config parts i ∧
      condition = true := by
    rw [Chosen, hholds]
    exact ⟨fun h => ⟨h.1, h.2.2.1⟩,
      fun h => ⟨h.1, hself, h.2, fun b hb hbranch => absurd hbranch (not_branch_of_lt hb)⟩⟩
  refine ⟨hactive, fun hi => ?_, ?_⟩
  · rw [hactive.mpr hi, Bool.true_and, ← hholds]
    constructor
    · exact fun hholds => ⟨i, Nat.lt_succ_self i, hself, hholds⟩
    · rintro ⟨b, hb, hbranch, hholds⟩
      have heq : b = i := Nat.le_antisymm (Nat.lt_succ_iff.mp hb) (Nat.not_lt.mp fun hlt =>
        not_branch_of_lt hlt hbranch)
      exact heq ▸ hholds
  · simp only [hin, exists_eq_left]
    rw [Bool.and_eq_true, hactive, hchosen]

/-- A conditional that is opened is the innermost one. -/
theorem Tracked.openers_opens (h : Tracked config parts i opened conditionals)
    (hrole : roleAt parts i = .opens) (o n : Nat) :
    depth? parts o (i + 1) = some n ↔ (i :: opened)[n]? = some o := by
  rw [depth?_opens hrole]
  by_cases ho : i = o
  · subst ho
    cases n with
    | zero => simp
    | succ n => simp [← h.openers, depth?_of_le]
  · cases n with
    | zero => simp [ho]
    | succ n => simp [ho, ← h.openers]

/-- A conditional that is opened is the innermost one, and its first branch begins in its line. -/
theorem Tracked.opens (h : Tracked config parts i opened conditionals)
    (hrole : roleAt parts i = .opens) {condition : Bool}
    (hbefore : (RegionState.before config parts i).conditionals = conditionals)
    (hholds : Holds config parts (active config parts) i ↔ condition = true) :
    Tracked config parts (i + 1) (i :: opened)
      ((RegionState.before config parts i).enter condition).conditionals := by
  refine ⟨?_, h.openers_opens hrole, fun n o c ho hc => ?_, ?_⟩
  · rw [RegionState.enter, hbefore, List.length_cons, List.length_cons, h.length]
  · cases n with
    | zero =>
      obtain rfl : i = o := by simpa using ho
      obtain rfl : _ = c := by simpa [RegionState.enter] using hc
      exact .opens hrole Iff.rfl hholds
    | succ n =>
      rw [List.getElem?_cons_succ] at ho
      rw [RegionState.enter, hbefore, List.getElem?_cons_succ] at hc
      have hopen := (h.openers o n).mpr ho
      have hne : i ≠ o := by
        rintro rfl
        rw [depth?_of_le (Nat.le_refl i)] at hopen
        cases hopen
      have hnot : ¬Branch parts o i := by
        rintro (⟨heq, -⟩ | ⟨-, hbranches⟩)
        · exact hne heq
        · rw [hrole] at hbranches
          cases hbranches
      exact (h.tracks n o c ho hc).later hnot (by rw [hopen]; rfl)
        (by rw [depth?_opens hrole, if_neg hne, hopen]; rfl)
  · rw [RegionState.enter, hbefore]
    refine ⟨?_, h.chained⟩
    rw [RegionState.isActive, hbefore]
    rfl

/-- A further branch belongs to the innermost conditional. -/
theorem Tracked.branches {outer : List Conditional} {c' : Conditional} {condition : Bool}
    (h : Tracked config parts i opened (c :: outer)) (hrole : roleAt parts i = .branches)
    (hholds : Holds config parts (active config parts) i ↔ condition = true)
    (hreached : c'.isReached = c.isReached)
    (hcurrent : c'.isActive = (c.isReached && !c.isTaken && condition))
    (htaken : c.isReached = true → c'.isTaken = (c.isTaken || condition)) :
    Tracked config parts (i + 1) opened (c' :: outer) := by
  have hdepth : ∀ o, depth? parts o (i + 1) = depth? parts o i :=
    fun o => depth?_stays (by rw [hrole]; exact nofun) (by rw [hrole]; exact nofun)
  refine ⟨h.length, fun o n => by rw [hdepth]; exact h.openers o n, fun n o k ho hk => ?_,
    hreached ▸ h.chained.1, h.chained.2⟩
  have hopen := (h.openers o n).mpr ho
  have hi : (depth? parts o i).isSome = true := by rw [hopen]; rfl
  have hne : i ≠ o := by
    rintro rfl
    rw [depth?_of_le (Nat.le_refl i)] at hopen
    cases hopen
  cases n with
  | zero =>
    obtain rfl : c' = k := by simpa using hk
    have hc : Tracks config parts i o c := h.tracks 0 o c ho rfl
    have hbranch : Branch parts o i := .inr ⟨hopen, hrole⟩
    refine ⟨hreached ▸ hc.reached, fun hactive => ?_, ?_⟩
    · rw [htaken (hc.reached.mpr hactive), Bool.or_eq_true, hc.taken hactive, ← hholds]
      constructor
      · rintro (⟨b, hb, hbranch, hbholds⟩ | hi)
        · exact ⟨b, by omega, hbranch, hbholds⟩
        · exact ⟨i, Nat.lt_succ_self i, hbranch, hi⟩
      · rintro ⟨b, hb, hbranch, hbholds⟩
        by_cases heq : b = i
        · exact .inr (heq ▸ hbholds)
        · exact .inl ⟨b, by omega, hbranch, hbholds⟩
    · have hin : ∀ b, InBranch parts o b (i + 1) ↔ b = i :=
        fun b => inBranch_succ_of_branch hbranch (by rwa [hdepth])
      simp only [hin, exists_eq_left, hcurrent, Bool.and_eq_true, Bool.not_eq_true', ← hholds,
        Chosen]
      rw [hc.reached, and_assoc]
      refine and_congr_right fun hactive => ?_
      rw [← Bool.not_eq_true, hc.taken hactive]
      constructor
      · exact fun ⟨hnone, hi⟩ =>
          ⟨hbranch, hi, fun b hb hbranch hbholds => hnone ⟨b, hb, hbranch, hbholds⟩⟩
      · exact fun ⟨_, hi, hnone⟩ =>
          ⟨fun ⟨b, hb, hbranch, hbholds⟩ => hnone b hb hbranch hbholds, hi⟩
  | succ n =>
    have hnot : ¬Branch parts o i := by
      rintro (⟨heq, -⟩ | ⟨hzero, -⟩)
      · exact hne heq
      · rw [hopen] at hzero
        cases hzero
    exact (h.tracks _ o k ho hk).later hnot hi (by rwa [hdepth])

end Step

/-- The conditionals of the state before a line are those that are open there. -/
theorem tracked_before (config : Configuration) (parts : List LinePart) (i : Nat) :
    ∃ opened, Tracked config parts i opened (RegionState.before config parts i).conditionals := by
  induction i with
  | zero =>
    refine ⟨[], rfl, fun o n => ?_, (fun _ _ _ hopened => by cases hopened), trivial⟩
    simp [depth?]
  | succ i ih =>
    obtain ⟨opened, h⟩ := ih
    cases hpart : parts[i]? with
    | none =>
      rw [RegionState.before_succ_of_none hpart]
      exact ⟨opened, h.other (by rw [roleAt, hpart])⟩
    | some part =>
      rw [RegionState.before_succ hpart]
      cases part with
      | text | continuation => exact ⟨opened, h.other (by rw [roleAt, hpart])⟩
      | directive d =>
        have hrole : roleAt parts i = d.role := by rw [roleAt, hpart]
        have hholds : Holds config parts (active config parts) i ↔ _ := holds_iff hpart
        rw [RegionState.pass]
        cases hd : d.role with
        | opens =>
          rw [RegionState.apply_of_opens hd]
          exact ⟨_, h.opens (hrole.trans hd) rfl hholds⟩
        | closes =>
          rw [RegionState.apply_of_closes hd]
          exact ⟨_, h.closes (hrole.trans hd)⟩
        | other =>
          rw [RegionState.apply_of_other hd]
          exact ⟨_, h.other (hrole.trans hd)⟩
        | branches =>
          cases hconditionals : (RegionState.before config parts i).conditionals with
          | nil =>
            rw [RegionState.apply_of_branches_nil hd hconditionals]
            rw [hconditionals] at h
            obtain rfl := List.length_eq_zero_iff.mp h.length
            have hdepth : ∀ o, depth? parts o (i + 1) = depth? parts o i :=
              fun o => depth?_stays (by rw [hrole, hd]; decide) (by rw [hrole, hd]; decide)
            exact ⟨[], rfl, fun o n => by rw [hdepth]; exact h.openers o n,
              (fun _ _ _ hopened => by cases hopened), trivial⟩
          | cons c outer =>
            rw [hconditionals] at h
            obtain ⟨c', happly, hreached, hcurrent, htaken⟩ :=
              @RegionState.apply_of_branches config (i + 1) _ d hd _ outer hconditionals
            rw [happly]
            exact ⟨opened, h.branches (hrole.trans hd) hholds hreached hcurrent htaken⟩

/-- The lines that the states before them select are a selection. -/
theorem selects_active (config : Configuration) (parts : List LinePart) :
    Selects config parts (active config parts) := by
  intro i
  obtain ⟨opened, h⟩ := tracked_before config parts i
  exact h.isActive_iff

end Selection

/-- Lines among which the one that a directive begins in is empty, with those that the directive
goes on in. -/
def withoutDirective (lines : List (List Char)) (parts : List LinePart) (i : Nat) :
    List (List Char) :=
  lines.take i ++ List.replicate (LinePart.extent parts i + 1) [] ++ lines.drop
    (i + 1 + LinePart.extent parts i)

variable {config : Configuration} {lines : List (List Char)} {i : Nat} {d : Directive}

/-- Preprocessing keeps the lines that are active and reports what the regions have found. -/
theorem preprocess_eq (config : Configuration) (source : String) :
    preprocess config source =
      ((RegionState.keep config 1 {} (Text.lines source.toList)
          (LinePart.ofLines false (Text.lines source.toList))).flatMap
          (· ++ ['\n']),
        (RegionState.through config 1 {}
            (LinePart.ofLines false (Text.lines source.toList))).found.reverse) := by
  have hselected := @RegionState.selectLines_eq config false 1 {} (Text.lines source.toList)
  rw [LinePart.continuations_false] at hselected
  rw [preprocess, hselected]

/-- What is kept are the selected lines of text. -/
theorem keep_eq (config : Configuration) (lines : List (List Char))
    [DecidablePred (active config (LinePart.ofLines false lines))] :
    RegionState.keep config 1 {} lines (LinePart.ofLines false lines) =
      lines.mapIdx fun i line => if (LinePart.ofLines false lines)[i]? = some .text ∧
        active config (LinePart.ofLines false lines) i then line else [] := by
  apply List.ext_getElem?
  intro i
  rw [RegionState.getElem?_keep (LinePart.length_ofLines false lines).symm, List.getElem?_mapIdx]
  congr 1
  funext line
  congr 1

section Emptied

variable {s : RegionState} {ps qs : List LinePart} {line : Nat} {texts texts' : List (List Char)}
    {text : List Char}
  {count : Nat}

/-- A directive without effect, with the lines that it goes on in, leaves empty lines and the state
as it was. -/
theorem keep_directive (h : d.word ∈ ["define", "undef", "include"]) (hs : s.isActive = false)
    (hcount : texts.length = count) :
    RegionState.keep config line s (text :: (texts ++ texts'))
      (.directive d :: (List.replicate count LinePart.continuation ++ ps)) =
        List.replicate (count + 1) [] ++ RegionState.keep config (line + 1 + count) s texts' ps ∧
      RegionState.through config line s
        (.directive d :: (List.replicate count LinePart.continuation ++ ps)) =
        RegionState.through config (line + 1 + count) s ps := by
  have hpass : s.pass config line (.directive d) = s := RegionState.apply_of_inactive h hs
  have hplain : ∀ d, LinePart.continuation ≠ .directive d := fun d hd => by cases hd
  have hthrough := @RegionState.through_replicate config _ hplain count (line + 1) s
  have hkept := @RegionState.keep_replicate config texts _ hplain (fun h => by cases h) (line + 1) s
  rw [hcount] at hkept
  constructor
  · rw [RegionState.keep, hpass, RegionState.keep_append (by simp [hcount]), hkept, hthrough,
      List.length_replicate, List.replicate_succ, List.cons_append, if_neg (fun h => by cases h.1)]
  · rw [RegionState.through, hpass, RegionState.through_append, hthrough, List.length_replicate]

theorem keep_blank (count line : Nat) (s : RegionState) (texts : List (List Char))
    (ps : List LinePart) :
    RegionState.keep config line s (List.replicate (count + 1) [] ++ texts)
      (List.replicate (count + 1) LinePart.text ++ ps) =
        List.replicate (count + 1) [] ++ RegionState.keep config (line + 1 + count) s texts ps ∧
      RegionState.through config line s (List.replicate (count + 1) LinePart.text ++ ps) =
        RegionState.through config (line + 1 + count) s ps := by
  have hplain : ∀ d, LinePart.text ≠ .directive d := fun d => nofun
  have hthrough := @RegionState.through_replicate config _ hplain (count + 1) line s
  have hkept := @RegionState.keep_replicate config (List.replicate (count + 1) []) _ hplain
    (fun _ text htext => List.eq_of_mem_replicate htext) line s
  rw [List.length_replicate] at hkept
  have hline : line + (count + 1) = line + 1 + count := by omega
  constructor
  · rw [RegionState.keep_append (by simp), hkept, hthrough, List.length_replicate, hline]
  · rw [RegionState.through_append, hthrough, List.length_replicate, hline]

end Emptied

/-- Emptying a definition, its withdrawal or an include of an unselected region changes nothing. -/
theorem keep_withoutDirective (hpart : (LinePart.ofLines false lines)[i]? = some (.directive d))
    (hword : d.word ∈ ["define", "undef", "include"])
    (hactive : ¬active config (LinePart.ofLines false lines) i) :
    RegionState.keep config 1 {} (withoutDirective lines (LinePart.ofLines false lines) i)
          (LinePart.ofLines false (withoutDirective lines (LinePart.ofLines false lines) i)) =
        RegionState.keep config 1 {} lines (LinePart.ofLines false lines) ∧
      RegionState.through config 1 {}
        (LinePart.ofLines false (withoutDirective lines (LinePart.ofLines false lines) i)) =
        RegionState.through config 1 {} (LinePart.ofLines false lines) := by
  have hlt : i < lines.length :=
    LinePart.length_ofLines false lines ▸ (List.getElem?_eq_some_iff.mp hpart).1
  have hsplit : lines.take i ++ lines[i] :: lines.drop (i + 1) = lines := by
    rw [List.getElem_cons_drop, List.take_append_drop]
  have hlength : (lines.take i).length = i := by
    rw [List.length_take]
    omega
  obtain ⟨parts, parts', hparts, hle, heq, hemptied⟩ :=
    @LinePart.ofLines_emptied false lines[i] (lines.take i) (lines.drop (i + 1)) d
      (LinePart.extent (LinePart.ofLines false lines) i) (by rw [hsplit, hlength]; exact hpart)
      (by rw [hsplit, hlength])
  rw [hlength] at hparts
  rw [hsplit] at heq
  rw [List.drop_drop] at hemptied
  have hinactive : (RegionState.through config 1 {} parts).isActive = false := by
    rw [active, RegionState.before, heq, List.take_left' hparts] at hactive
    exact Bool.eq_false_iff.mpr hactive
  rw [withoutDirective]
  generalize LinePart.extent (LinePart.ofLines false lines) i = count at *
  rw [hemptied, heq]
  have htake : ((lines.drop (i + 1)).take count).length = count := by
    rw [List.length_take]
    omega
  have hlines : lines = lines.take i ++ lines[i] :: ((lines.drop (i + 1)).take count ++ lines.drop
      (i + 1 + count)) := by
    rw [← List.drop_drop (i := count) (j := i + 1), List.take_append_drop, hsplit]
  obtain ⟨hkept, hthrough⟩ :=
    @keep_directive config _ _ parts' (1 + parts.length) _ (lines.drop (i + 1 + count)) lines[i]
      _ hword hinactive htake
  obtain ⟨hkept', hthrough'⟩ :=
    @keep_blank config count (1 + parts.length) (RegionState.through config 1 {} parts)
    (lines.drop (i + 1 + count)) parts'
  constructor
  · rw [List.append_assoc, RegionState.keep_append (hlength.trans hparts.symm), hkept', ← hkept,
      ← RegionState.keep_append (hlength.trans hparts.symm), ← hlines]
  · rw [RegionState.through_append, hthrough', ← hthrough, ← RegionState.through_append]

open Classical in
/-- There is one selection of lines in which just those lines are selected in which every open
conditional is in the first of its branches whose condition holds, if it is opened in a selected
line. The text that is left of a header has as many lines as the header: the selected ones that are
no directives or parts of them, and otherwise empty ones. Of a conditional only lines of one branch
are selected, and definitions, their withdrawals and includes that are not selected might as well
not be there. -/
theorem preprocess_selects (config : Configuration) (source : String) :
    let lines := Text.lines source.toList
    let parts := LinePart.ofLines false lines
    ∃ selected, (∀ other, Selects config parts other ↔ other = selected) ∧
      Text.pieces '\n' (preprocess config source).1 =
        (lines.mapIdx fun i line => if parts[i]? = some .text ∧ selected i then line else []) ++
          [[]] ∧
      (Text.lines (preprocess config source).1).length = lines.length ∧
      (∀ o b b' i i', selected i → selected i' → InBranch parts o b i → InBranch parts o b' i' →
        b = b') ∧
      ∀ i d source', parts[i]? = some (.directive d) → d.word ∈ ["define", "undef", "include"] →
        ¬selected i → Text.lines source'.toList = withoutDirective lines parts i →
            preprocess config source' = preprocess config source := by
  intro lines parts
  have hselects := selects_active config parts
  have hfeed : ∀ row ∈ RegionState.keep config 1 {} lines parts, '\n' ∉ row := by
    intro row hrow
    rw [keep_eq] at hrow
    obtain ⟨i, hi, rfl⟩ := List.mem_mapIdx.mp hrow
    split
    · exact Text.lineFeed_notMem_of_mem_lines (List.getElem_mem hi)
    · exact List.not_mem_nil
  refine ⟨active config parts, fun other => ?_, ?_, ?_, fun o b b' i i' hi hi' hin hin' => ?_,
    fun i d source' hpart hword hi hlines => ?_⟩
  · constructor
    · exact fun hother => hother.eq hselects
    · rintro rfl
      exact hselects
  · rw [preprocess_eq, Text.pieces_flatMap hfeed, keep_eq]
  · rw [preprocess_eq, Text.lines_flatMap hfeed, List.length_map,
      RegionState.length_keep (LinePart.length_ofLines false lines).symm]
  · obtain ⟨c, hc, hchosen⟩ := (hselects i).mp hi o hin.1
    obtain ⟨c', hc', hchosen'⟩ := (hselects i').mp hi' o hin'.1
    rw [hin.eq hc, hin'.eq hc', hchosen.eq hchosen']
  · obtain ⟨hkept, hthrough⟩ := keep_withoutDirective hpart hword hi
    rw [preprocess_eq, preprocess_eq, hlines, hkept, hthrough]

end Interop.Header
