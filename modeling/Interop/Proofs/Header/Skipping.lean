import Interop.Proofs.Header.Outcome

namespace Interop.Header

namespace Token

variable {t close : Token} {run before after tokens rest : List Token} {depth brackets braces : Nat}

/-- How many opening braces there are among several tokens. -/
def openings (run : List Token) : Nat :=
  run.countP (·.text == "\x7b")

/-- How many closing braces there are among several tokens. -/
def closings (run : List Token) : Nat :=
  run.countP (·.text == "\x7d")

/-- Whether several tokens close exactly the braces that they open and `depth` braces that are open
in front of them, and nowhere more than that. -/
structure Balances (depth : Nat) (run : List Token) : Prop where
  inside : ∀ before, before <+: run → closings before ≤ depth + openings before
  whole : closings run = depth + openings run

/-- How many round and square brackets are open behind several tokens, if `brackets` of them and
`braces` braces are open in front. What stands in braces does not count, nor does a bracket that
closes nothing. -/
def bracketsBehind : (brackets braces : Nat) → List Token → Nat
  | brackets, _, [] => brackets
  | brackets, 0, t :: rest =>
    if t.text = "(" ∨ t.text = "[" then bracketsBehind (brackets + 1) 0 rest
    else if t.text = ")" ∨ t.text = "]" then bracketsBehind (brackets - 1) 0 rest
    else if t.text = "\x7b" then bracketsBehind brackets 1 rest
    else bracketsBehind brackets 0 rest
  | brackets, braces + 1, t :: rest =>
    if t.text = "\x7b" then bracketsBehind brackets (braces + 2) rest
    else if t.text = "\x7d" then bracketsBehind brackets braces rest
    else bracketsBehind brackets (braces + 1) rest

/-- Whether no brace closes the scope around several tokens from inside of a round or square
bracket. -/
def ClosesOutside (brackets braces : Nat) (run : List Token) : Prop :=
  ∀ before close, before ++ [close] <+: run → close.text = "\x7d" → Balances braces before →
    bracketsBehind brackets braces before = 0

section Balances

theorem openings_cons : openings (t :: run) = openings run + if t.text = "\x7b" then 1 else 0 := by
  simp [openings, List.countP_cons]

theorem closings_cons : closings (t :: run) = closings run + if t.text = "\x7d" then 1 else 0 := by
  simp [closings, List.countP_cons]

theorem balances_nil : Balances depth [] ↔ depth = 0 := by
  refine ⟨fun h => h.whole.symm, fun h => ⟨fun before hbefore => ?_, h.symm⟩⟩
  rw [List.prefix_nil.mp hbefore]
  exact Nat.zero_le _

/-- A token changes the number of open braces by what it is worth, as long as it closes none that is
not open. -/
theorem balances_cons {depth' : Nat}
    (h : depth' + (if t.text = "\x7d" then 1 else 0) = depth + if t.text = "\x7b" then 1 else 0)
    (_ : t.text = "\x7d" → 0 < depth) : Balances depth (t :: run) ↔ Balances depth' run := by
  have hsplit : ∀ before, closings (t :: before) ≤ depth + openings (t :: before) ↔
      closings before ≤ depth' + openings before := by
    intro before
    rw [closings_cons, openings_cons]
    omega
  constructor
  · intro hrun
    refine ⟨fun before hbefore =>
      (hsplit before).mp (hrun.inside _ (List.cons_prefix_cons.mpr ⟨rfl, hbefore⟩)), ?_⟩
    have hwhole := hrun.whole
    rw [closings_cons, openings_cons] at hwhole
    omega
  · intro hrun
    refine ⟨fun before hbefore => ?_, ?_⟩
    · rcases List.prefix_cons_iff.mp hbefore with rfl | ⟨tail, rfl, htail⟩
      · exact Nat.zero_le _
      · exact (hsplit tail).mpr (hrun.inside tail htail)
    · have hwhole := hrun.whole
      rw [closings_cons, openings_cons]
      omega

theorem balances_open (h : t.text = "\x7b") :
    Balances depth (t :: run) ↔ Balances (depth + 1) run :=
  balances_cons (by simp [h]) (by simp [h])

theorem balances_close (h : t.text = "\x7d") :
    Balances (depth + 1) (t :: run) ↔ Balances depth run :=
  balances_cons (by simp [h]) (by simp)

theorem balances_other (h : t.text ≠ "\x7b") (h' : t.text ≠ "\x7d") :
    Balances depth (t :: run) ↔ Balances depth run :=
  balances_cons (by simp [h, h']) (by simp [h'])

/-- Behind balanced tokens no brace is left that could be closed. -/
theorem Balances.not_close (h : Balances depth run) (hbefore : Balances depth before)
    (hclose : close.text = "\x7d") :
    ¬before ++ [close] <+: run := by
  intro hprefix
  have hinside := h.inside _ hprefix
  have hwhole := hbefore.whole
  have hone : closings [close] = 1 := by simp [closings, hclose]
  have hnone : openings [close] = 0 := by simp [openings, hclose]
  rw [closings, List.countP_append, ← closings, ← closings, openings,
    List.countP_append, ← openings, ← openings, hone, hnone] at hinside
  omega

end Balances

/-- A token that leads from one state of passing over to another is balanced if what follows it
is. -/
theorem balances_of_step {brackets' braces' : Nat}
    (hbalances : ∀ before, Balances braces (t :: before) ↔ Balances braces' before)
    (hbrackets : ∀ before, bracketsBehind brackets braces (t :: before) =
      bracketsBehind brackets' braces' before)
    (h : ∃ run, tokens = run ++ rest ∧
      (ClosesOutside brackets' braces' run → Balances braces' run)) :
    ∃ run, t :: tokens = run ++ rest ∧
      (ClosesOutside brackets braces run → Balances braces run) := by
  obtain ⟨run, rfl, hrun⟩ := h
  refine ⟨t :: run, rfl,
    fun hcloses => (hbalances run).mpr (hrun fun before close hprefix hclose hbefore => ?_)⟩
  rw [← hbrackets]
  exact hcloses (t :: before) close (List.cons_prefix_cons.mpr ⟨rfl, hprefix⟩) hclose
    ((hbalances before).mpr hbefore)

/-- A semicolon that is passed over opens and closes nothing. -/
theorem exists_pastOptional (tokens : List Token) :
    ∃ run, tokens = run ++ pastOptional ";" tokens ∧ Balances 0 run := by
  cases tokens with
  | nil => exact ⟨[], rfl, balances_nil.mpr rfl⟩
  | cons t tail =>
    by_cases hsemicolon : t.text = ";"
    · refine ⟨[t], by rw [pastOptional, if_pos hsemicolon]; rfl, ?_⟩
      exact (balances_other (by simp [hsemicolon]) (by simp [hsemicolon])).mpr
        (balances_nil.mpr rfl)
    · exact ⟨[], by rw [pastOptional, if_neg hsemicolon]; rfl, balances_nil.mpr rfl⟩

/-- What is passed over is balanced token by token, each in the state that the one before it
leaves. -/
theorem balances_of_pastDeclaration (h : pastDeclaration brackets braces tokens = some rest) :
    ∃ run, tokens = run ++ rest ∧ (ClosesOutside brackets braces run → Balances braces run) := by
  fun_induction pastDeclaration brackets braces tokens with
  | case1 => exact ⟨[], by simpa using h, fun _ => balances_nil.mpr rfl⟩
  | case2 => cases h
  | case3 brackets t tail hopen ih =>
    refine balances_of_step (fun _ => balances_other ?_ ?_)
      (fun _ => by rw [bracketsBehind, if_pos hopen]) (ih h)
    all_goals rcases hopen with hopen | hopen <;> simp [hopen]
  | case4 brackets t tail hopen hclose ih =>
    refine balances_of_step (fun _ => balances_other ?_ ?_)
      (fun _ => by rw [bracketsBehind, if_neg hopen, if_pos hclose]) (ih h)
    all_goals rcases hclose with hclose | hclose <;> simp [hclose]
  | case5 brackets t tail hopen hclose hbrace ih =>
    exact balances_of_step (fun _ => balances_open hbrace)
      (fun _ => by rw [bracketsBehind, if_neg hopen, if_neg hclose, if_pos hbrace]) (ih h)
  | case6 brackets t tail => exact ⟨[], by simpa using h, fun _ => balances_nil.mpr rfl⟩
  | case7 brackets t tail hopen hclose hbrace hscope hsemicolon =>
    refine ⟨[t], by simpa using h, fun _ => (balances_other hbrace ?_).mpr (balances_nil.mpr rfl)⟩
    simp [hsemicolon.1]
  | case8 brackets t tail hopen hclose hbrace hscope hsemicolon ih =>
    by_cases hend : t.text = "\x7d"
    · -- the brace of the scope around is passed over inside of a bracket
      obtain ⟨run, rfl, -⟩ := ih h
      refine ⟨t :: run, rfl, fun hcloses => absurd ?_ fun hbrackets => hscope ⟨hend, hbrackets⟩⟩
      exact hcloses [] t (List.prefix_append [t] run) hend (balances_nil.mpr rfl)
    · exact balances_of_step (fun _ => balances_other hbrace hend)
        (fun _ => by rw [bracketsBehind, if_neg hopen, if_neg hclose, if_neg hbrace]) (ih h)
  | case9 brackets braces t tail hbrace ih =>
    exact balances_of_step (fun _ => balances_open hbrace)
      (fun _ => by rw [bracketsBehind, if_pos hbrace]) (ih h)
  | case10 brackets braces t tail hbrace hclose hlast =>
    obtain ⟨rfl, rfl⟩ := hlast
    obtain ⟨run, htail, hrun⟩ := exists_pastOptional tail
    cases h
    exact ⟨t :: run, congrArg (t :: ·) htail, fun _ => (balances_close hclose).mpr hrun⟩
  | case11 brackets braces t tail hbrace hclose hlast ih =>
    exact balances_of_step (fun _ => balances_close hclose)
      (fun _ => by rw [bracketsBehind, if_neg hbrace, if_pos hclose]) (ih h)
  | case12 brackets braces t tail hbrace hclose ih =>
    exact balances_of_step (fun _ => balances_other hbrace hclose)
      (fun _ => by rw [bracketsBehind, if_neg hbrace, if_neg hclose]) (ih h)

/-- Tokens that are passed over in a balanced way lie in front of the brace that closes the scope
around them. -/
theorem Balances.suffix_of_close {inside outside : List Token} (h : Balances 0 run)
    (htokens : run ++ rest = inside ++ close :: outside) (hclose : close.text = "\x7d")
    (hinside : Balances 0 inside) :
    close :: outside <:+ rest := by
  rcases List.append_eq_append_iff.mp htokens with ⟨more, rfl, hrest⟩ | ⟨more, rfl, hmore⟩
  · exact ⟨more, hrest.symm⟩
  · cases more with
    | nil => exact ⟨[], hmore⟩
    | cons first more =>
      obtain ⟨rfl, -⟩ := List.cons.inj hmore
      exact absurd ⟨more, by simp⟩ (h.not_close hinside hclose)

end Token

namespace Parser

open Token

variable {line : Nat} {tokens rest : List Token} {memory memory' : Memory}

/-- Skipping a declaration succeeds exactly if it comes to an end. -/
theorem outcome_skipDeclaration :
    skipDeclaration.outcome line tokens memory =
      match pastDeclaration 0 0 tokens with
      | some rest => (.ok ((), rest), memory)
      | none => (.error ⟨line, .unexpectedEnd⟩, memory) := by
  cases hpast : pastDeclaration 0 0 tokens with
  | some rest => exact outcome_takeRun (by rw [hpast]; rfl)
  | none =>
    simp only [skipDeclaration, takeRun, outcome_bind, outcome_get, hpast, Option.map_none]
    rfl

/-- What is passed over is balanced in braces exactly if no brace closes the scope around it from
inside of a round or square bracket; and then that scope keeps its closing brace and all that stands
behind it. -/
theorem skipDeclaration_balances_iff
    (h : skipDeclaration.outcome line tokens memory = (.ok ((), rest), memory')) :
    ∃ run, tokens = run ++ rest ∧ (Balances 0 run ↔ ClosesOutside 0 0 run) ∧
      (ClosesOutside 0 0 run → ∀ inside close outside, tokens = inside ++ close :: outside →
        close.text = "\x7d" → Balances 0 inside → close :: outside <:+ rest) := by
  rw [outcome_skipDeclaration] at h
  cases hpast : pastDeclaration 0 0 tokens with
  | none =>
    rw [hpast] at h
    cases h
  | some rest' =>
    rw [hpast] at h
    cases h
    obtain ⟨run, rfl, hrun⟩ := balances_of_pastDeclaration hpast
    refine ⟨run, rfl, ⟨fun hbalances before close hprefix hclose hbefore => ?_, hrun⟩,
      fun hcloses => ?_⟩
    · exact absurd hprefix (hbalances.not_close hbefore hclose)
    · intro inside close outside htokens hclose hinside
      exact (hrun hcloses).suffix_of_close htokens hclose hinside

/-- A declaration with a closed bracket and a body: the scope around it ends where it did. -/
theorem skipDeclaration_balances_iff_body :
    let scopeEnd := [mark "\x7d", word "int", word "after", mark ";"]
    let body := [word "f", mark "(", word "x", mark ")", mark "\x7b", mark "\x7b", mark "\x7d",
      mark "\x7d", mark ";"]
    skipDeclaration.outcome 1 (body ++ scopeEnd) {} = (.ok ((), scopeEnd), {}) ∧
      ∃ run, body ++ scopeEnd = run ++ scopeEnd ∧ (Balances 0 run ↔ ClosesOutside 0 0 run) ∧
        (ClosesOutside 0 0 run → ∀ inside close outside,
          body ++ scopeEnd = inside ++ close :: outside → close.text = "\x7d" → Balances 0 inside →
              close :: outside <:+ scopeEnd) := by
  have hskip : skipDeclaration.outcome 1 ([word "f", mark "(", word "x", mark ")", mark "\x7b",
      mark "\x7b", mark "\x7d", mark "\x7d", mark ";"] ++ [mark "\x7d", word "int", word "after",
        mark ";"]) {} =
      (.ok ((), [mark "\x7d", word "int", word "after", mark ";"]), {}) := by
    rw [outcome_skipDeclaration]
    rfl
  exact ⟨hskip, skipDeclaration_balances_iff hskip⟩

/-- A parameter list without its end: the brace of the scope around and what stands outside of it
are passed over. -/
theorem skipDeclaration_unbalanced :
    let tokens := [word "void", word "f", mark "(", word "int", word "a", mark ";", mark "\x7d",
      word "int", word "after", mark ";"]
    skipDeclaration.outcome 1 tokens {} = (.ok ((), []), {}) ∧ ¬Balances 0 tokens := by
  refine ⟨by rw [outcome_skipDeclaration]; rfl, fun h => ?_⟩
  have hwhole := h.whole
  revert hwhole
  decide

end Parser

end Interop.Header
