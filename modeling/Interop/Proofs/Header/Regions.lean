import Interop.Proofs.Header.LineParts

namespace Interop.Header

/-- What a directive does to the conditionals that are open. -/
inductive DirectiveRole where
  | opens
  | branches
  | closes
  | other
deriving DecidableEq, Repr

/-- The role of a directive. -/
def Directive.role (d : Directive) : DirectiveRole :=
  match d.word with
  | "if" | "ifdef" | "ifndef" => .opens
  | "elif" | "else" => .branches
  | "endif" => .closes
  | _ => .other

/-- The condition of a branch. The branch for all that no other branch covers has none. -/
def Directive.condition (isDefined : String → Bool) (d : Directive) : Bool :=
  match d.word with
  | "ifdef" => isDefined (String.ofList d.body)
  | "ifndef" => !isDefined (String.ofList d.body)
  | "else" => true
  | _ => Directive.holds isDefined d.body

namespace RegionState

variable {config : Configuration} {line : Nat} {s : RegionState} {d : Directive}
    {ps qs : List LinePart}
  {texts texts' : List (List Char)}

/-- The state behind a line. -/
def pass (config : Configuration) (line : Nat) (s : RegionState) : LinePart → RegionState
  | .directive d => s.apply config line d
  | _ => s

/-- The state behind several lines. -/
def through (config : Configuration) : (line : Nat) → RegionState → List LinePart → RegionState
  | _, s, [] => s
  | line, s, part :: rest => through config (line + 1) (s.pass config line part) rest

/-- What is kept of several lines. -/
def keep (config : Configuration) :
    (line : Nat) → RegionState → List (List Char) → List LinePart → List (List Char)
  | line, s, text :: texts, part :: parts =>
    (if part = .text ∧ s.isActive = true then text else []) ::
      keep config (line + 1) (s.pass config line part) texts parts
  | _, _, _, _ => []

/-- The selection goes through the lines by what they are. -/
theorem selectLines_eq (b : Bool) (line : Nat) (s : RegionState) (texts : List (List Char)) :
    selectLines config (LinePart.continuations b texts) line s texts =
      (keep config line s texts (LinePart.ofLines b texts),
          through config line s (LinePart.ofLines b texts)) := by
  induction texts generalizing b line s with
  | nil => cases b <;> rfl
  | cons text rest ih =>
    cases b with
    | true =>
      rw [LinePart.continuations, selectLines, ih, LinePart.ofLines]
      rfl
    | false =>
      rw [LinePart.continuations_false, selectLines, Directive.ofLines?, LinePart.ofLines]
      cases hhead : Directive.head? text with
      | none =>
        have hrest := ih false (line + 1) s
        rw [LinePart.continuations_false] at hrest
        simp only [Option.map_none, hrest, keep, through, pass, true_and]
      | some head =>
        obtain ⟨word, start⟩ := head
        simp only [Option.map_some, LinePart.continued_snd, ih]
        rfl

/-- Going through parts may be done in two goes, with the lines counted on. -/
theorem through_append (line : Nat) (s : RegionState) (ps qs : List LinePart) :
    through config line s (ps ++ qs) = through config (line +
      ps.length) (through config line s ps) qs := by
  induction ps generalizing line s with
  | nil => rfl
  | cons part rest ih =>
    rw [List.cons_append, through, ih, through, List.length_cons, Nat.add_right_comm, Nat.add_assoc]

/-- Lines may be kept in two goes, with the second one in the state that the first one leaves. -/
theorem keep_append (h : texts.length = ps.length) (line : Nat) (s : RegionState) :
    keep config line s (texts ++ texts') (ps ++ qs) =
      keep config line s texts ps ++ keep config (line +
          ps.length) (through config line s ps) texts' qs := by
  induction ps generalizing line s texts with
  | nil =>
    obtain rfl := List.length_eq_zero_iff.mp h
    rfl
  | cons part rest ih =>
    cases texts with
    | nil => cases h
    | cons text texts =>
      rw [List.cons_append, List.cons_append, keep, ih (Nat.succ.inj h), keep, through,
        List.length_cons, Nat.add_right_comm, Nat.add_assoc, List.cons_append]

/-- The state before a line. -/
def before (config : Configuration) (parts : List LinePart) (i : Nat) : RegionState :=
  through config 1 {} (parts.take i)

/-- In front of a line the state is that in front of the line before, with that line passed. -/
theorem before_succ {parts : List LinePart} {i : Nat} {part : LinePart}
    (h : parts[i]? = some part) :
    before config parts (i + 1) = (before config parts i).pass config (i + 1) part := by
  have hlt := (List.getElem?_eq_some_iff.mp h).1
  have hline : 1 + (parts.take i).length = i + 1 := by
    rw [List.length_take]
    omega
  rw [before, List.take_add_one, h, through_append, hline]
  rfl

theorem before_succ_of_none {parts : List LinePart} {i : Nat} (h : parts[i]? = none) :
    before config parts (i + 1) = before config parts i := by
  rw [before, List.take_add_one, h, Option.toList_none, List.append_nil, before]

/-- A line is kept or left empty, as the state in front of it says. -/
theorem getElem?_keep (h : texts.length = ps.length) (i : Nat) :
    (keep config line s texts ps)[i]? = (texts[i]?).map fun text =>
      if ps[i]? = some .text ∧
          (through config line s (ps.take i)).isActive = true then text else [] := by
  induction ps generalizing line s texts i with
  | nil =>
    obtain rfl := List.length_eq_zero_iff.mp h
    rfl
  | cons part rest ih =>
    cases texts with
    | nil => cases h
    | cons text texts =>
      cases i with
      | zero => simp [keep, through]
      | succ i =>
        rw [keep, List.getElem?_cons_succ, ih (Nat.succ.inj h)]
        rfl

/-- As many lines are kept as there are. -/
theorem length_keep (h : texts.length = ps.length) :
    (keep config line s texts ps).length = texts.length := by
  induction ps generalizing line s texts with
  | nil =>
    obtain rfl := List.length_eq_zero_iff.mp h
    rfl
  | cons part rest ih =>
    cases texts with
    | nil => cases h
    | cons text texts => rw [keep, List.length_cons, ih (Nat.succ.inj h), List.length_cons]

/-- Lines that are no directives leave the state alone. -/
theorem pass_of_ne {part : LinePart} (hpart : ∀ d, part ≠ .directive d) :
    s.pass config line part = s := by
  cases part with
  | directive d => exact absurd rfl (hpart d)
  | text | continuation => rfl

theorem through_replicate {part : LinePart} (hpart : ∀ d, part ≠ .directive d) (count line : Nat)
    (s : RegionState) :
    through config line s (List.replicate count part) = s := by
  induction count generalizing line with
  | zero => rfl
  | succ count ih => rw [List.replicate_succ, through, pass_of_ne hpart, ih]

/-- Of the lines in which a directive goes on, and of empty lines, nothing is kept. -/
theorem keep_replicate {part : LinePart} (hpart : ∀ d, part ≠ .directive d)
    (hempty : part = .text → ∀ text ∈ texts, text = []) (line : Nat) (s : RegionState) :
    keep config line s texts (List.replicate texts.length part) =
      List.replicate texts.length [] := by
  induction texts generalizing line with
  | nil => rfl
  | cons text rest ih =>
    rw [List.length_cons, List.replicate_succ, keep, pass_of_ne hpart, List.replicate_succ,
      ih (fun hpart text htext => hempty hpart text (List.mem_cons_of_mem _ htext))]
    split
    · rename_i hkept
      rw [hempty hkept.1 text List.mem_cons_self]
    · rfl

/-- A directive that opens a conditional enters it. -/
theorem apply_of_opens (h : d.role = .opens) :
    s.apply config line d = s.enter (d.condition (s.isDefined config)) := by
  unfold Directive.role at h
  split at h
  case h_1 hword | h_2 hword | h_3 hword => simp [apply, Directive.condition, hword]
  all_goals cases h

/-- A directive that closes a conditional leaves it. -/
theorem apply_of_closes (h : d.role = .closes) : s.apply config line d = s.leave := by
  unfold Directive.role at h
  split at h
  case h_6 hword => simp [apply, hword]
  all_goals cases h

/-- A further branch of a conditional is selected if its condition holds and no branch before it
is. -/
theorem apply_of_branches (h : d.role = .branches) {c : Conditional} {outer : List Conditional}
    (hs : s.conditionals = c :: outer) :
    ∃ c', (s.apply config line d).conditionals = c' :: outer ∧ c'.isReached = c.isReached ∧
      c'.isActive = (c.isReached && !c.isTaken && d.condition (s.isDefined config)) ∧
      (c.isReached = true → c'.isTaken = (c.isTaken || d.condition (s.isDefined config))) := by
  unfold Directive.role at h
  split at h
  case h_4 hword =>
    let value := c.isReached && !c.isTaken && d.condition (s.isDefined config)
    have hcondition : d.condition (s.isDefined config) =
        Directive.holds (s.isDefined config) d.body := by
      simp [Directive.condition, hword]
    refine ⟨{ c with isActive := value, isTaken := c.isTaken || value }, ?_, rfl, rfl,
      fun hreached => ?_⟩
    · simp only [apply, hword, branch, hs, value, hcondition]
    · simp only [hreached, value]
      cases c.isTaken <;> simp
  case h_5 hword =>
    refine ⟨{ c with isActive := c.isReached && !c.isTaken, isTaken := true }, ?_, rfl, ?_,
      fun _ => ?_⟩
    · simp only [apply, hword, otherwise, hs]
    · simp [Directive.condition, hword]
    · simp [Directive.condition, hword]
  all_goals cases h

/-- Outside of conditionals a further branch opens none. -/
theorem apply_of_branches_nil (h : d.role = .branches) (hs : s.conditionals = []) :
    (s.apply config line d).conditionals = [] := by
  unfold Directive.role at h
  split at h
  case h_4 hword => simp [apply, hword, branch, hs]
  case h_5 hword => simp [apply, hword, otherwise, hs]
  all_goals cases h

theorem conditionals_define (line : Nat) (body : List Char) :
    (s.define line body).conditionals = s.conditionals := by
  unfold define
  split <;> rfl

/-- Directives of other roles leave the conditionals. -/
theorem apply_of_other (h : d.role = .other) :
    (s.apply config line d).conditionals = s.conditionals := by
  unfold Directive.role at h
  split at h
  case h_7 =>
    unfold apply
    split
    case h_7 =>
      split
      · exact conditionals_define _ _
      · rfl
    case h_8 | h_9 => split <;> rfl
    case h_10 => rfl
    all_goals exact absurd ‹d.word = _› (by assumption)
  all_goals cases h

/-- Which macros are defined changes in selected lines only, by definitions and their withdrawal. -/
theorem mem_defined_apply {name : String} :
    name ∈ (s.apply config line d).defined ↔
      (s.isActive = true ∧ d.word = "define" ∧ ∃ value?,
        Directive.definition? d.body = some (name, value?)) ∨
        name ∈ s.defined ∧ (s.isActive = true → d.word = "undef" →
            String.ofList d.body ≠ name) := by
  have hbranch : ∀ condition, (s.branch condition).defined = s.defined := by
    intro condition
    unfold branch
    split <;> rfl
  have hotherwise : s.otherwise.defined = s.defined := by
    unfold otherwise
    split <;> rfl
  unfold apply
  split
  case h_7 hword =>
    cases hactive : s.isActive with
    | false => simp
    | true =>
      rw [if_pos rfl, define]
      cases hdefinition : Directive.definition? d.body with
      | none => simp [hword]
      | some definition =>
        obtain ⟨other, value?⟩ := definition
        simp [hword, eq_comm]
  case h_8 hword =>
    cases hactive : s.isActive with
    | false => simp
    | true =>
      simp only [if_true, undefine, List.mem_filter, hword, bne_iff_ne]
      simp [ne_comm]
  case h_9 hword => cases s.isActive <;> simp [hword, including]
  case h_1 hword | h_2 hword | h_3 hword => simp [hword, enter]
  case h_4 hword => simp [hword, hbranch]
  case h_5 hword => simp [hword, hotherwise]
  case h_6 hword => simp [hword, leave]
  case h_10 hdefine hundef _ => simp [show ¬d.word = "define" from hdefine,
    show ¬d.word = "undef" from hundef]

/-- Definitions, their withdrawals and includes have no effect in unselected regions. -/
theorem apply_of_inactive (h : d.word ∈ ["define", "undef", "include"]) (hs : s.isActive = false) :
    s.apply config line d = s := by
  simp only [List.mem_cons, List.not_mem_nil, or_false] at h
  rcases h with hword | hword | hword <;> simp [apply, hword, hs]

end RegionState

end Interop.Header
