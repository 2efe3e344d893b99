import Interop.Proofs.Header.Outcome

namespace Interop.Header.Parser

variable {α β : Type} {p : Parser α} {line : Nat} {tokens rest : List Token}
    {memory memory' : Memory}

/-- Two parsers succeed together exactly if the first one does and the second one does behind it. -/
theorem outcome_bind_eq_ok {f : α → Parser β} {b : β} :
    (p >>= f).outcome line tokens memory = (.ok (b, rest), memory') ↔
      ∃ a behind between, p.outcome line tokens memory = (.ok (a, behind), between) ∧
        (f a).outcome line behind between = (.ok (b, rest), memory') := by
  rw [outcome_bind]
  cases hp : p.outcome line tokens memory with
  | mk result between =>
    cases result with
    | ok taken => exact ⟨fun h => ⟨_, _, _, rfl, h⟩, by rintro ⟨a, behind, between, ⟨⟩, h⟩; exact h⟩
    | error e => exact ⟨nofun, by rintro ⟨a, behind, between, ⟨⟩, -⟩⟩

theorem outcome_discard_eq_ok {nothing : Unit} :
    (discard p).outcome line tokens memory = (.ok (nothing, rest), memory') ↔
      ∃ a, p.outcome line tokens memory = (.ok (a, rest), memory') := by
  rw [outcome_discard]
  cases hp : p.outcome line tokens memory with
  | mk result between =>
    cases result with
    | ok taken => exact ⟨by rintro ⟨⟩; exact ⟨_, rfl⟩, by rintro ⟨a, ⟨⟩⟩; rfl⟩
    | error e => exact ⟨nofun, by rintro ⟨a, ⟨⟩⟩⟩

theorem outcome_line' :
    Parser.line.outcome line tokens memory = (.ok (tokens.head?.elim line Token.line, tokens),
      memory) := by
  cases tokens <;> rfl

/-- A failure changes no memory, whatever it has found. -/
theorem outcome_failFound (cause : Option String → SyntaxCause) :
    ∃ e, (failFound cause : Parser α).outcome line tokens memory = (.error e, memory) := by
  refine ⟨⟨tokens.head?.elim line Token.line, cause (tokens.head?.map Token.text)⟩, ?_⟩
  simp only [failFound, fail, outcome_bind, outcome_peek?, outcome_line']
  rfl

theorem outcome_eat_of_next {t : Token} {expected : String} (h : t.text = expected) :
    (eat expected).outcome line (t :: tokens) memory = (.ok (true, tokens), memory) := by
  simp [h]

theorem outcome_eat_of_not_next {expected : String} (h : ∀ t ∈ tokens.head?, t.text ≠ expected) :
    (eat expected).outcome line tokens memory = (.ok (false, tokens), memory) := by
  cases tokens with
  | nil => simp
  | cons t tail => simp [h t rfl]

theorem outcome_isNext_of_next {t : Token} {expected : String} (h : t.text = expected) :
    (isNext expected).outcome line (t :: tokens) memory = (.ok (true, t :: tokens), memory) := by
  simp [h]

theorem outcome_isNext_of_not_next {expected : String} (h : ∀ t ∈ tokens.head?, t.text ≠ expected) :
    (isNext expected).outcome line tokens memory = (.ok (false, tokens), memory) := by
  cases tokens with
  | nil => rfl
  | cons t tail => simp [h t rfl]

/-- Either a token of the given text is next, or the next token has another text if there is one. -/
theorem exists_next_or (expected : String) (tokens : List Token) :
    (∃ t tail, tokens = t :: tail ∧ t.text = expected) ∨ ∀ t ∈ tokens.head?, t.text ≠ expected := by
  cases tokens with
  | nil => exact .inr nofun
  | cons t tail =>
    by_cases ht : t.text = expected
    · exact .inl ⟨t, tail, rfl, ht⟩
    · exact .inr fun u hu => Option.some.inj hu ▸ ht

/-- Eating always succeeds, and takes the expected token exactly if it is next. -/
theorem outcome_eat_eq_ok {expected : String} {taken : Bool} :
    (eat expected).outcome line tokens memory = (.ok (taken, rest), memory') ↔
      (if taken then ∃ t, t.text = expected ∧ tokens = t :: rest
        else tokens = rest ∧ ∀ t ∈ tokens.head?, t.text ≠ expected) ∧ memory' = memory := by
  rcases exists_next_or expected tokens with ⟨t, tail, rfl, ht⟩ | hnot
  · rw [outcome_eat_of_next ht]
    cases taken <;> simp [ht, eq_comm]
  · rw [outcome_eat_of_not_next hnot]
    cases taken with
    | true =>
      refine ⟨nofun, ?_⟩
      rintro ⟨⟨t, ht, rfl⟩, -⟩
      exact absurd ht (hnot t rfl)
    | false =>
      constructor
      · rintro ⟨⟩
        exact ⟨⟨rfl, hnot⟩, rfl⟩
      · rintro ⟨⟨rfl, -⟩, rfl⟩
        rfl

/-- Expecting a token succeeds exactly if it is next. -/
theorem outcome_expect_eq_ok {expected : String} {nothing : Unit} :
    (expect expected).outcome line tokens memory = (.ok (nothing, rest), memory') ↔
      (∃ t, t.text = expected ∧ tokens = t :: rest) ∧ memory' = memory := by
  obtain ⟨e, he⟩ := @outcome_failFound Unit line tokens memory (.expectedToken expected)
  cases tokens with
  | nil => simp [expect, he]
  | cons t tail =>
    by_cases ht : t.text = expected
    · simp [expect, ht, eq_comm]
    · simp [expect, ht, he]

theorem outcome_expect_of_next {t : Token} {expected : String} (h : t.text = expected) :
    (expect expected).outcome line (t :: tokens) memory = (.ok ((), tokens), memory) := by
  rw [expect, outcome_bind_ok (outcome_eat_of_next h)]
  rfl

theorem outcome_expect_of_not_next {expected : String} (h : ∀ t ∈ tokens.head?, t.text ≠ expected) :
    ∃ e, (expect expected).outcome line tokens memory = (.error e, memory) := by
  rw [expect, outcome_bind_ok (outcome_eat_of_not_next h), if_neg (by decide)]
  exact outcome_failFound _

theorem outcome_identifier?_of_ne (h : ∀ t ∈ tokens.head?, t.kind ≠ .identifier) :
    identifier?.outcome line tokens memory = (.ok (none, tokens), memory) := by
  cases tokens with
  | nil => rfl
  | cons t tail => simp [Option.filter_some, h t rfl]

theorem outcome_identifier?_of_eq {t : Token} (h : t.kind = .identifier) :
    identifier?.outcome line (t :: tokens) memory = (.ok (some t.text, t :: tokens), memory) := by
  simp [Option.filter_some, h]

/-- A name is read exactly if one is next. -/
theorem outcome_identifier_eq_ok {name : String} :
    identifier.outcome line tokens memory = (.ok (name, rest), memory') ↔
      (∃ t, t.kind = .identifier ∧ t.text = name ∧ tokens = t :: rest) ∧ memory' = memory := by
  obtain ⟨e, he⟩ := @outcome_failFound String line tokens memory .expectedIdentifier
  cases tokens with
  | nil => simp [identifier, he]
  | cons t tail =>
    by_cases ht : t.kind = .identifier
    · simp [identifier, Option.filter_some, ht, eq_comm, and_assoc]
    · simp [identifier, Option.filter_some, ht, he]

/-- Taking a run succeeds exactly if there is one. -/
theorem outcome_takeRun_eq_ok {run? : List Token → Option (α × List Token)} {cause : SyntaxCause}
    {a : α} :
    (takeRun run? cause).outcome line tokens memory = (.ok (a, rest), memory') ↔
      run? tokens = some (a, rest) ∧ memory' = memory := by
  rw [takeRun, outcome_bind, outcome_get]
  cases hrun : run? tokens with
  | none =>
    simp only [hrun]
    refine iff_of_false (fun h => ?_) fun h => ?_
    · cases h
    · cases h.1
  | some taken => simp [hrun, Prod.ext_iff, eq_comm]

/-- A balanced run is taken exactly if it starts with its opening mark and is closed. -/
theorem outcome_balanced_eq_ok {opening closing : String} {run : List Token} :
    (balanced opening closing).outcome line tokens memory = (.ok (run, rest), memory') ↔
      (∃ t behind, t.text = opening ∧ tokens = t :: behind ∧
        Token.balancedRun opening closing 0 behind = some (run, rest)) ∧ memory' = memory := by
  simp only [balanced, outcome_bind_eq_ok, outcome_expect_eq_ok, outcome_takeRun_eq_ok]
  grind

section Loop

variable {step : α → Parser (α ⊕ β)} {b : β}

/-- What holds where a loop's last repetition begins, and where any repetition begins if it holds
where the next one does, holds where the loop begins. -/
theorem loopWithin_induction (holds : α → List Token → Memory → Prop)
    (hdone : ∀ {a tokens memory}, (step a).outcome line tokens memory = (.ok (.inr b, rest),
      memory') → holds a tokens memory)
    (hagain : ∀ {a a' tokens behind memory between},
      (step a).outcome line tokens memory = (.ok (.inl a', behind), between) →
        holds a' behind between → holds a tokens memory)
    (bound : Nat) : ∀ {a tokens memory}, (loopWithin step bound a).outcome line tokens memory =
      (.ok (b, rest), memory') → holds a tokens memory := by
  induction bound with
  | zero =>
    intro a tokens memory h
    cases tokens <;> cases h
  | succ bound ih =>
    intro a tokens memory h
    obtain ⟨next, behind, between, hstep, hnext⟩ := outcome_bind_eq_ok.mp h
    cases next with
    | inl a' => exact hagain hstep (ih hnext)
    | inr b' =>
      cases hnext
      exact hdone hstep

/-- What holds in front of the last step of a loop, and of each other step if it does behind it,
holds at its start. -/
theorem loop_induction (holds : α → List Token → Memory → Prop) {start : α}
    (hdone : ∀ {a tokens memory}, (step a).outcome line tokens memory = (.ok (.inr b, rest),
      memory') → holds a tokens memory)
    (hagain : ∀ {a a' tokens behind memory between},
      (step a).outcome line tokens memory = (.ok (.inl a', behind), between) →
        holds a' behind between → holds a tokens memory)
    (h : (loop start step).outcome line tokens memory = (.ok (b, rest), memory')) :
    holds start tokens memory := by
  obtain ⟨counted, behind, between, hget, hloop⟩ := outcome_bind_eq_ok.mp h
  cases hget
  exact loopWithin_induction holds hdone hagain _ hloop

/-- A loop that succeeds has begun with a step that succeeded. -/
theorem exists_step_of_loopWithin {times : Nat} {a : α}
    (h : (loopWithin step times a).outcome line tokens memory = (.ok (b, rest), memory')) :
    (step a).outcome line tokens memory = (.ok (.inr b, rest), memory') ∨
      ∃ a' behind between times', (step a).outcome line tokens memory = (.ok (.inl a', behind),
        between) ∧ (loopWithin step times' a').outcome line behind between = (.ok (b, rest),
            memory') := by
  cases times with
  | zero =>
    have herror : ∃ e, (loopWithin step 0 a).outcome line tokens memory = (.error e, memory) := by
      rw [loopWithin, fail, outcome_bind_ok outcome_line']
      exact ⟨_, rfl⟩
    obtain ⟨e, he⟩ := herror
    cases he.symm.trans h
  | succ times =>
    obtain ⟨next, behind, between, hstep, hnext⟩ := outcome_bind_eq_ok.mp h
    cases next with
    | inl a' => exact .inr ⟨a', behind, between, times, hstep, hnext⟩
    | inr b' =>
      cases hnext
      exact .inl hstep

/-- Where a step cannot be taken, a loop of it does not begin. -/
theorem loopWithin_ne_ok {times : Nat} {a : α}
    (h : ∀ next behind between, (step a).outcome line tokens memory ≠ (.ok (next, behind),
      between)) :
    (loopWithin step times a).outcome line tokens memory ≠ (.ok (b, rest), memory') := by
  intro hloop
  rcases exists_step_of_loopWithin hloop with hdone | ⟨_, _, _, _, hagain, -⟩
  · exact h _ _ _ hdone
  · exact h _ _ _ hagain

end Loop

end Interop.Header.Parser
