import Interop.Proofs.Header.Lexing
import Interop.Proofs.Header.Running

namespace Interop.Header.Parser

variable {α β : Type} {p : Parser α} {line : Nat} {t : Token} {tokens rest : List Token}
    {memory memory' : Memory}

@[simp]
theorem outcome_pure (a : α) :
    Parser.outcome (pure a) line tokens memory = (.ok (a, tokens), memory) :=
  rfl

/-- A parser goes on from the tokens and the memory that the one before it leaves. -/
@[simp]
theorem outcome_bind (f : α → Parser β) :
    (p >>= f).outcome line tokens memory =
      match p.outcome line tokens memory with
      | (.ok (a, rest), memory) => (f a).outcome line rest memory
      | (.error e, memory) => (.error e, memory) := by
  cases hp : p.outcome line tokens memory with
  | mk result memory =>
    cases result with
    | ok taken => exact outcome_bind_ok hp
    | error e => exact outcome_bind_error hp

@[simp]
theorem outcome_map (f : α → β) :
    (f <$> p).outcome line tokens memory =
      match p.outcome line tokens memory with
      | (.ok (a, rest), memory) => (.ok (f a, rest), memory)
      | (.error e, memory) => (.error e, memory) :=
  outcome_bind fun a => pure (f a)

@[simp]
theorem outcome_discard :
    (discard p).outcome line tokens memory =
      match p.outcome line tokens memory with
      | (.ok (_, rest), memory) => (.ok ((), rest), memory)
      | (.error e, memory) => (.error e, memory) :=
  outcome_map fun _ => ()

@[simp]
theorem outcome_ite {c : Prop} [Decidable c] (q : Parser α) :
    (if c then p else q).outcome line tokens memory =
      if c then p.outcome line tokens memory else q.outcome line tokens memory := by
  split <;> rfl

@[simp]
theorem outcome_get : Parser.outcome get line tokens memory = (.ok (tokens, tokens), memory) :=
  rfl

@[simp]
theorem outcome_set (tokens' : List Token) :
    Parser.outcome (set tokens') line tokens memory = (.ok ((), tokens'), memory) :=
  rfl

@[simp]
theorem outcome_peek? : peek?.outcome line tokens memory = (.ok (tokens.head?, tokens), memory) :=
  rfl

@[simp]
theorem outcome_text :
    text.outcome line tokens memory = (.ok (tokens.head?.elim "" Token.text, tokens), memory) := by
  cases tokens <;> rfl

@[simp]
theorem outcome_isNext (expected : String) :
    (isNext expected).outcome line tokens memory =
      (.ok (tokens.head?.any (·.text == expected), tokens), memory) :=
  rfl

@[simp]
theorem outcome_isAt (n : Nat) (expected : String) :
    (isAt n expected).outcome line tokens memory =
      (.ok (tokens[n]?.any (·.text == expected), tokens), memory) :=
  rfl

@[simp]
theorem outcome_identifier? :
    identifier?.outcome line tokens memory =
      (.ok ((tokens.head?.filter (·.kind == .identifier)).map Token.text, tokens), memory) :=
  rfl

/-- The line of the next token is read from it. -/
@[simp]
theorem outcome_line :
    Parser.line.outcome line (t :: tokens) memory = (.ok (t.line, t :: tokens), memory) :=
  rfl

@[simp]
theorem outcome_advance (n : Nat) :
    (advance n).outcome line tokens memory = (.ok ((), tokens.drop n), memory) :=
  rfl

@[simp]
theorem outcome_next : next.outcome line (t :: tokens) memory = (.ok (t, tokens), memory) :=
  rfl

/-- A token is eaten only if it is the expected one. -/
@[simp]
theorem outcome_eat (expected : String) :
    (eat expected).outcome line tokens memory =
      if tokens.head?.any (·.text == expected) then (.ok (true, tokens.drop 1),
          memory) else (.ok (false, tokens), memory) := by
  simp [eat]

@[simp]
theorem outcome_expect (expected : String) :
    (expect expected).outcome line
    (.mark expected :: tokens) memory = (.ok ((), tokens), memory) := by
  simp [expect]

@[simp]
theorem outcome_identifier (name : String) :
    identifier.outcome line (.word name :: tokens) memory = (.ok (name, tokens), memory) := by
  simp [identifier, Option.filter_some]

/-- A run that there is is taken. -/
theorem outcome_takeRun {run? : List Token → Option (α × List Token)} {cause : SyntaxCause} {a : α}
    (h : run? tokens = some (a, rest)) :
    (takeRun run? cause).outcome line tokens memory = (.ok (a, rest), memory) := by
  simp [takeRun, h]

/-- What is attempted and succeeds has been done. -/
theorem outcome_attempt {a : α} (h : p.outcome line tokens memory = (.ok (a, rest), memory')) :
    (attempt p).outcome line tokens memory = (.ok (some a, rest), memory') := by
  simp [attempt, outcome_tryCatch, h]

@[simp]
theorem outcome_leaveScopes (n : Nat) :
    (leaveScopes n).outcome line tokens memory = (.ok ((), tokens),
      { memory with scope := memory.scope.drop n }) :=
  rfl

@[simp]
theorem outcome_enterScopes (names : List String) :
    (enterScopes names).outcome line tokens memory =
      (.ok ((), tokens), { memory with scope := names.reverse ++ memory.scope }) :=
  rfl

@[simp]
theorem outcome_recordDefinition (name : String) :
    (recordDefinition name).outcome line tokens memory =
      (.ok ((), tokens),
        { memory with defined := "::".intercalate (memory.scope.reverse ++ [name]) ::
            memory.defined }) :=
  rfl

/-- Leaving scopes changes the scope only, behind all that was read in them. -/
theorem outcome_thenLeaving {a : α} (n : Nat)
    (h : p.outcome line tokens memory = (.ok (a, rest), memory')) :
    (thenLeaving n p).outcome line tokens memory = (.ok (a, rest),
      { memory' with scope := memory'.scope.drop n }) := by
  simp [thenLeaving, outcome_tryCatch, h]

section Loop

variable {step : α → Parser (α ⊕ β)} {a : α} {b : β}

/-- Whether the repetition of a step comes to an end, each repetition before the last one taking a
token. -/
inductive Loops (step : α → Parser (α ⊕ β)) (line : Nat) (b : β) (rest : List Token)
    (memory' : Memory) :
    α → List Token → Memory → Prop
  | done {a : α} {tokens : List Token} {memory : Memory}
      (h : (step a).outcome line tokens memory = (.ok (.inr b, rest), memory')) :
        Loops step line b rest memory' a tokens memory
  | again {a a' : α} {tokens tokens' : List Token} {memory memory₁ : Memory}
      (h : (step a).outcome line tokens memory = (.ok (.inl a', tokens'), memory₁))
        (hlength : tokens'.length < tokens.length)
      (hnext : Loops step line b rest memory' a' tokens' memory₁) :
        Loops step line b rest memory' a tokens memory

/-- A loop that comes to its end does so under each bound above the number of tokens. -/
theorem Loops.outcome_loopWithin (h : Loops step line b rest memory' a tokens memory) {bound : Nat}
    (hbound : tokens.length < bound) :
    (loopWithin step bound a).outcome line tokens memory = (.ok (b, rest), memory') := by
  induction h generalizing bound with
  | done h =>
    obtain ⟨bound, rfl⟩ := Nat.exists_eq_add_one_of_ne_zero (Nat.ne_zero_of_lt hbound)
    simp [loopWithin, h]
  | again h hlength _ ih =>
    obtain ⟨bound, rfl⟩ := Nat.exists_eq_add_one_of_ne_zero (Nat.ne_zero_of_lt hbound)
    simp [loopWithin, h, ih (show _ < bound by omega)]

/-- A loop that comes to its end has its result. -/
theorem Loops.outcome_loop (h : Loops step line b rest memory' a tokens memory) :
    (loop a step).outcome line tokens memory = (.ok (b, rest), memory') := by
  rw [loop, outcome_bind, outcome_get]
  exact h.outcome_loopWithin (Nat.lt_succ_self _)

end Loop

end Interop.Header.Parser
