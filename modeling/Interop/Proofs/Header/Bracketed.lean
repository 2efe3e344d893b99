import Interop.Header.Bracket

namespace Interop.Header.Token

variable {P Q : Token → Prop} {stops : List String} {opening closing : String} {depth : Nat}
    {t : Token}
  {run inner before rest : List Token}

/-- Whether a mark opens a bracket that the other one closes. -/
def Encloses (opening closing : String) : Prop :=
  (opening, closing) ∈ [("(", ")"), ("[", "]"), ("\x7b", "\x7d")]

instance (opening closing : String) : Decidable (Encloses opening closing) :=
  inferInstanceAs (Decidable ((opening, closing) ∈ _))

/-- Whether a token is no bracket. -/
def Plain (t : Token) : Prop :=
  isOpening t.text = false ∧ isClosing t.text = false

instance (t : Token) : Decidable t.Plain :=
  inferInstanceAs (Decidable (isOpening t.text = false ∧ isClosing t.text = false))

/-- Whether the brackets of a run match, and a condition holds of what stands outside of them and of
those that are opened there. -/
inductive Bracketed : (Token → Prop) → List Token → Prop
  | nil {P : Token → Prop} : Bracketed P []
  | plain {P : Token → Prop} {t : Token} {rest : List Token} (ht : t.Plain) (hP : P t)
      (h : Bracketed P rest) :
      Bracketed P (t :: rest)
  | group {P : Token → Prop} {opening closing : Token} {inner rest : List Token}
      (henclose : Encloses opening.text closing.text) (hP : P opening)
        (hinner : Bracketed (fun _ => True) inner)
      (h : Bracketed P rest) : Bracketed P (opening :: (inner ++ closing :: rest))

theorem Encloses.isOpening (h : Encloses opening closing) :
    isOpening opening = true ∧ isClosing opening = false := by
  simp only [Encloses, List.mem_cons, List.not_mem_nil, or_false, Prod.mk.injEq] at h
  rcases h with ⟨rfl, rfl⟩ | ⟨rfl, rfl⟩ | ⟨rfl, rfl⟩ <;> decide

theorem Encloses.isClosing (h : Encloses opening closing) :
    Token.isClosing closing = true ∧ Token.isOpening closing = false := by
  simp only [Encloses, List.mem_cons, List.not_mem_nil, or_false, Prod.mk.injEq] at h
  rcases h with ⟨rfl, rfl⟩ | ⟨rfl, rfl⟩ | ⟨rfl, rfl⟩ <;> decide

theorem Encloses.eq_of_round (h : Encloses "(" closing) : closing = ")" := by
  simpa [Encloses] using h

/-- Two kinds of brackets are the same or have no mark in common. -/
theorem Encloses.eq_or_ne {opening' closing' : String} (h : Encloses opening closing)
    (h' : Encloses opening' closing') :
    opening' = opening ∧ closing' = closing ∨
      (opening' ≠ opening ∧ closing' ≠ closing) ∧ closing' ≠ opening ∧ opening' ≠ closing := by
  simp only [Encloses, List.mem_cons, List.not_mem_nil, or_false, Prod.mk.injEq] at h h'
  rcases h with ⟨rfl, rfl⟩ | ⟨rfl, rfl⟩ | ⟨rfl, rfl⟩ <;> rcases h' with ⟨rfl, rfl⟩ | ⟨rfl,
    rfl⟩ | ⟨rfl, rfl⟩ <;> decide

namespace Bracketed

/-- A weaker condition holds of what stands outside of the brackets as well. -/
theorem mono (h : Bracketed P run) (hPQ : ∀ t, P t → Q t) : Bracketed Q run := by
  induction h with
  | nil => exact .nil
  | plain ht hP _ ih => exact .plain ht (hPQ _ hP) (ih hPQ)
  | group henclose hP hinner _ _ ih => exact .group henclose (hPQ _ hP) hinner (ih hPQ)

/-- A run without brackets matches if the condition holds of each token. -/
theorem of_plain (h : ∀ t ∈ run, t.Plain ∧ P t) : Bracketed P run := by
  induction run with
  | nil => exact .nil
  | cons t run ih =>
    obtain ⟨ht, hP⟩ := h t List.mem_cons_self
    exact .plain ht hP (ih fun t ht => h t (List.mem_cons_of_mem _ ht))

/-- The rest behind a token that is no opening bracket. -/
theorem tail (h : Bracketed P (t :: rest)) (ht : isOpening t.text = false) : Bracketed P rest := by
  cases h with
  | plain _ _ h => exact h
  | group henclose =>
    rw [henclose.isOpening.1] at ht
    cases ht

/-- An opening bracket begins a group. -/
theorem group_of_opening (h : Bracketed P (t :: rest)) (ht : isOpening t.text = true) :
    ∃ closing inner behind, rest = inner ++ closing :: behind ∧ Encloses t.text closing.text ∧
      Bracketed (fun _ => True) inner ∧ Bracketed P behind := by
  cases h with
  | plain hplain =>
    rw [hplain.1] at ht
    cases ht
  | group henclose _ hinner h => exact ⟨_, _, _, rfl, henclose, hinner, h⟩

/-- What stands in front of a token that is no bracket is bracketed, if no bracket is closed behind
the token. -/
theorem front (h : Bracketed P (before ++ t :: rest)) (ht : t.Plain)
    (hrest : ∀ u ∈ rest, isClosing u.text = false) :
    Bracketed P before := by
  generalize hrun : before ++ t :: rest = run at h
  induction h generalizing before with
  | nil => simp at hrun
  | @plain P first tail hfirst hP _ ih =>
    cases before with
    | nil => exact .nil
    | cons u before =>
      obtain ⟨rfl, htail⟩ := List.cons.inj hrun
      exact .plain hfirst hP (ih htail)
  | @group P opening closing inner tail henclose hP hinner _ _ ih =>
    cases before with
    | nil =>
      obtain ⟨rfl, -⟩ := List.cons.inj hrun
      rw [Plain, henclose.isOpening.1] at ht
      cases ht.1
    | cons u before =>
      obtain ⟨rfl, htail⟩ := List.cons.inj hrun
      rcases List.append_eq_append_iff.mp htail with ⟨between, rfl, hclosing⟩ | ⟨between, rfl,
        hclosing⟩
      · -- The token stands inside of the group, so the group is closed behind it.
        cases between with
        | nil =>
          obtain ⟨rfl, -⟩ := List.cons.inj hclosing
          rw [Plain, henclose.isClosing.1] at ht
          cases ht.2
        | cons first between =>
          obtain ⟨rfl, rfl⟩ := List.cons.inj hclosing
          have hclosed := hrest closing (by simp)
          rw [henclose.isClosing.1] at hclosed
          cases hclosed
      · cases between with
        | nil =>
          obtain ⟨rfl, -⟩ := List.cons.inj hclosing
          rw [Plain, henclose.isClosing.1] at ht
          cases ht.2
        | cons first between =>
          obtain ⟨rfl, -⟩ := List.cons.inj hclosing
          exact .group henclose hP hinner (ih (List.cons.inj hclosing).2.symm)

end Bracketed

/-- A run and the run behind it, as one. -/
def prepend (run : List Token) (read : Option (List Token × List Token)) :
    Option (List Token × List Token) :=
  read.map fun (behind, rest) => (run ++ behind, rest)

@[simp]
theorem prepend_nil (read : Option (List Token × List Token)) : prepend [] read = read := by
  cases read <;> rfl

@[simp]
theorem prepend_append (read : Option (List Token × List Token)) :
    prepend (run ++ inner) read = prepend run (prepend inner read) := by
  cases read <;> simp [prepend]

theorem map_cons_eq_prepend (t : Token) (read : Option (List Token × List Token)) :
    read.map (fun (behind, rest) => (t :: behind, rest)) = prepend [t] read :=
  rfl

/-- A run ends at a stop outside of brackets. -/
theorem runUntil_stop (ht : t.text ∈ stops) :
    runUntil stops 0 (t :: rest) = some ([], t :: rest) := by
  rw [runUntil, if_pos ⟨rfl, ht⟩]

/-- A token that is no stop is part of the run. -/
theorem runUntil_plain (ht : t.Plain) (hstop : depth = 0 → t.text ∉ stops) :
    runUntil stops depth (t :: rest) = prepend [t] (runUntil stops depth rest) := by
  rw [runUntil.eq_def]
  simp only [ht.1, ht.2, if_neg fun h : depth = 0 ∧ t.text ∈ stops => hstop h.1 h.2,
    Bool.false_eq_true, if_false]
  rfl

/-- Behind an opening bracket the run goes on one level deeper. -/
theorem runUntil_opening (ht : isOpening t.text = true) (hstop : depth = 0 → t.text ∉ stops) :
    runUntil stops depth (t :: rest) = prepend [t] (runUntil stops (depth + 1) rest) := by
  rw [runUntil.eq_def]
  simp only [if_neg fun h : depth = 0 ∧ t.text ∈ stops => hstop h.1 h.2, if_pos ht]
  rfl

/-- Behind a closing bracket the run goes on one level higher. -/
theorem runUntil_closing (ht : isClosing t.text = true ∧ isOpening t.text = false) :
    runUntil stops (depth + 1) (t :: rest) = prepend [t] (runUntil stops depth rest) := by
  rw [runUntil, if_neg (by simp), ht.1, ht.2]
  rfl

/-- A bracketed run is passed over as a whole: inside of brackets in any case, and outside of them
if there is no stop. -/
theorem runUntil_bracketed (h : Bracketed P run) (hstops : depth = 0 → ∀ t, P t → t.text ∉ stops) :
    runUntil stops depth (run ++ rest) = prepend run (runUntil stops depth rest) := by
  induction h generalizing depth rest with
  | nil => simp
  | @plain P t tail ht hP _ ih =>
    rw [List.cons_append, runUntil_plain ht fun hdepth => hstops hdepth t hP,
      ih hstops, ← prepend_append]
    rfl
  | @group P opening closing inner tail henclose hP _ _ ihInner ih =>
    calc runUntil stops depth (opening :: (inner ++ closing :: tail) ++ rest)
      _ = runUntil stops depth (opening :: (inner ++ closing :: (tail ++ rest))) := by simp
      _ = prepend [opening] (runUntil stops (depth + 1) (inner ++ closing :: (tail ++ rest))) :=
          runUntil_opening henclose.isOpening.1 fun hdepth => hstops hdepth opening hP
      _ = prepend [opening] (prepend inner
          (prepend [closing] (prepend tail (runUntil stops depth rest)))) := by
          rw [ihInner fun hzero => absurd hzero (Nat.succ_ne_zero depth),
            runUntil_closing henclose.isClosing, ih hstops]
      _ = prepend (opening :: (inner ++ closing :: tail)) (runUntil stops depth rest) := by
          simp only [← prepend_append]
          simp

/-- The run before the first stop of a bracketed run that a stop stands behind. -/
theorem exists_runUntil (stops : List String) (h : Bracketed P run)
    (hstops : ∀ stop ∈ stops, isOpening stop = false) (ht : t.text ∈ stops) :
    ∃ before behind, Bracketed (fun _ => True) behind ∧ behind <:+ run ∧
      (∀ u ∈ behind.head?, u.text ∈ stops) ∧
          ∀ rest, runUntil stops 0 (run ++ t :: rest) = some (before, behind ++ t :: rest) := by
  induction h with
  | nil => exact ⟨[], [], .nil, List.suffix_rfl, nofun, fun rest => runUntil_stop ht⟩
  | @plain P u tail hu _ h ih =>
    by_cases hstop : u.text ∈ stops
    · exact ⟨[], u :: tail, .plain hu trivial (h.mono fun _ _ => trivial), List.suffix_rfl,
        fun v hv => Option.some.inj hv ▸ hstop, fun rest => runUntil_stop hstop⟩
    · obtain ⟨before, behind, hbehind, hsuffix, hhead, hrun⟩ := ih
      refine ⟨u :: before, behind, hbehind, hsuffix.trans (List.suffix_cons u tail), hhead,
        fun rest => ?_⟩
      rw [List.cons_append, runUntil_plain hu fun _ => hstop, hrun]
      rfl
  | @group P opening closing inner tail henclose _ hinner _ _ ih =>
    obtain ⟨before, behind, hbehind, hsuffix, hhead, hrun⟩ := ih
    have hopening : opening.text ∉ stops := fun hmem => by
      have hnot := hstops _ hmem
      rw [henclose.isOpening.1] at hnot
      cases hnot
    have hgroup : Bracketed (fun t => t.text ∉ stops) (opening :: (inner ++ [closing])) :=
      .group henclose hopening hinner .nil
    have htail : tail <:+ opening :: (inner ++ closing :: tail) :=
      ⟨opening :: (inner ++ [closing]), by simp⟩
    refine ⟨opening :: (inner ++ closing :: before), behind, hbehind, hsuffix.trans htail, hhead,
      fun rest => ?_⟩
    have hpassed := @runUntil_bracketed _ stops 0 _ (tail ++ t :: rest) hgroup fun _ _ => id
    rw [hrun] at hpassed
    simpa [prepend] using hpassed

theorem balancedRun_other (hopening : t.text ≠ opening) (hclosing : t.text ≠ closing) :
    balancedRun opening closing depth (t :: rest) =
      prepend [t] (balancedRun opening closing depth rest) := by
  rw [balancedRun.eq_def]
  simp only [if_neg hopening, if_neg hclosing]
  rfl

theorem Plain.ne (ht : t.Plain) (h : Encloses opening closing) :
    t.text ≠ opening ∧ t.text ≠ closing := by
  constructor
  · rintro rfl
    rw [Plain, h.isOpening.1] at ht
    cases ht.1
  · rintro rfl
    rw [Plain, h.isClosing.1] at ht
    cases ht.2

/-- Between two brackets a bracketed run is passed over as a whole. -/
theorem balancedRun_bracketed (h : Bracketed P run) (henclose : Encloses opening closing) :
    balancedRun opening closing depth (run ++ rest) =
      prepend run (balancedRun opening closing depth rest) := by
  induction h generalizing depth rest with
  | nil => simp
  | @plain P t tail ht _ _ ih =>
    obtain ⟨hopening, hclosing⟩ := ht.ne henclose
    rw [List.cons_append, balancedRun_other hopening hclosing, ih, ← prepend_append]
    rfl
  | @group P first last inner tail hinside _ _ _ ihInner ih =>
    have hgroup : balancedRun opening closing depth (first :: (inner ++ last :: (tail ++ rest))) =
        prepend [first] (prepend inner
            (prepend [last] (balancedRun opening closing depth (tail ++ rest)))) := by
      rcases henclose.eq_or_ne hinside with ⟨hfirst, hlast⟩ | ⟨⟨hfirst, hlast⟩, hlast', hfirst'⟩
      · have hapart : last.text ≠ opening := by
          rw [hlast]
          rintro heq
          have hopens := henclose.isOpening.1
          rw [← heq, henclose.isClosing.2] at hopens
          cases hopens
        rw [balancedRun.eq_def]
        simp only [if_pos hfirst, map_cons_eq_prepend, ihInner]
        rw [balancedRun, if_neg hapart, if_pos hlast]
        rfl
      · rw [balancedRun_other hfirst hfirst', ihInner, balancedRun_other hlast' hlast]
    calc balancedRun opening closing depth (first :: (inner ++ last :: tail) ++ rest)
      _ = balancedRun opening closing depth (first :: (inner ++ last :: (tail ++ rest))) := by simp
      _ = prepend [first] (prepend inner
          (prepend [last] (prepend tail (balancedRun opening closing depth rest)))) := by
          rw [hgroup, ih]
      _ = prepend (first :: (inner ++ last :: tail)) (balancedRun opening closing depth rest) := by
          simp only [← prepend_append]
          simp

/-- What a bracket encloses is the bracketed run up to the bracket that closes it. -/
theorem balancedRun_closed (h : Bracketed P run) (henclose : Encloses opening closing)
    (ht : t.text = closing) :
    balancedRun opening closing 0 (run ++ t :: rest) = some (run, rest) := by
  have hne : t.text ≠ opening := by
    rintro heq
    have hopens := henclose.isOpening.1
    rw [← heq, ht, henclose.isClosing.2] at hopens
    cases hopens
  rw [balancedRun_bracketed h henclose, balancedRun, if_neg hne, if_pos ht]
  simp [prepend]

end Interop.Header.Token
