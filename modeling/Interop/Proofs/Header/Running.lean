import Interop.Header.Parser

/-- What a fixed text is read as exists, with all that follows from what can be decided of it. -/
theorem Interop.exists_ok_of_decide {ε α : Type} {result : Except ε α} {q : α → Prop}
    (p : α → Prop) [DecidablePred p] (h : result.toOption.any (fun a => decide (p a)) = true)
    (hq : ∀ a, result = .ok a → p a → q a) :
    ∃ a, result = .ok a ∧ q a := by
  cases result with
  | error e => cases h
  | ok a => exact ⟨a, rfl, hq a rfl (of_decide_eq_true h)⟩

namespace Interop.Header.Parser

variable {α β : Type} {p : Parser α} {line : Nat} {tokens rest : List Token}
    {memory memory' : Memory}

/-- What comes of running a parser: what it returns with the tokens that are left, or its error, and
the memory. -/
def outcome (p : Parser α) (line : Nat) (tokens : List Token) (memory : Memory) :
    Except SyntaxError (α × List Token) × Memory :=
  ((p.run line).run tokens).run.run memory

theorem outcome_bind_ok {f : α → Parser β} {a : α}
    (h : p.outcome line tokens memory = (.ok (a, rest), memory')) :
    (p >>= f).outcome line tokens memory = (f a).outcome line rest memory' := by
  simp only [outcome, ReaderT.run_bind, StateT.run_bind, ExceptT.run_bind] at h ⊢
  rw [h]
  rfl

theorem outcome_bind_error {f : α → Parser β} {e : SyntaxError}
    (h : p.outcome line tokens memory = (.error e, memory')) :
    (p >>= f).outcome line tokens memory = (.error e, memory') := by
  simp only [outcome, ReaderT.run_bind, StateT.run_bind, ExceptT.run_bind] at h ⊢
  rw [h]
  rfl

theorem outcome_tryCatch (handle : SyntaxError → Parser α) :
    (tryCatch p handle).outcome line tokens memory =
      match p.outcome line tokens memory with
      | (Except.ok result, memory) => (Except.ok result, memory)
      | (Except.error e, memory) => (handle e).outcome line tokens memory := by
  have hrun : (tryCatch p handle).outcome line tokens memory =
      (ExceptT.tryCatch ((p.run line).run tokens)
      fun e => ((handle e).run line).run tokens).run.run memory := rfl
  rw [hrun]
  unfold ExceptT.tryCatch
  simp only [ExceptT.run_mk, StateT.run_bind]
  change _ = match StateT.run ((p.run line).run tokens) memory with
    | (Except.ok result, memory) => (Except.ok result, memory)
    | (Except.error e, memory) => (handle e).outcome line tokens memory
  generalize StateT.run ((p.run line).run tokens) memory = r
  obtain ⟨result | e, memory⟩ := r
  · rfl
  · rfl

end Interop.Header.Parser
