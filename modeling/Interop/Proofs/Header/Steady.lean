import Interop.Proofs.Header.Running

namespace Interop.Header

/-- Whether a name has no dot in it. -/
def Undotted (name : String) : Prop :=
  '.' ∉ name.toList

/-- Whether a name is made of letters, digits and underscores. -/
def Simple (name : String) : Prop :=
  ∀ c ∈ name.toList, Directive.isNameChar c = true

instance (name : String) : Decidable (Simple name) :=
  List.decidableBAll (fun c => Directive.isNameChar c = true) name.toList

theorem Simple.empty : Simple "" := by
  simp [Simple]

/-- The parts of names in tokens have no dots. -/
theorem Simple.undotted {name : String} (h : Simple name) : Undotted name :=
  fun hdot => absurd (h _ hdot) (by decide)

/-- Whether a token is simple if it is an identifier. -/
def Token.Simple (t : Token) : Prop :=
  t.kind = .identifier → Header.Simple t.text

/-- Whether all identifiers among several tokens are simple. -/
def AllSimple (tokens : List Token) : Prop :=
  ∀ t ∈ tokens, t.Simple

instance (t : Token) : Decidable t.Simple :=
  inferInstanceAs (Decidable (t.kind = .identifier → Header.Simple t.text))

instance (tokens : List Token) : Decidable (AllSimple tokens) :=
  inferInstanceAs (Decidable (∀ t ∈ tokens, t.Simple))

/-- Fewer tokens have simple names if more do. -/
theorem AllSimple.suffix {tokens rest : List Token} (h : AllSimple tokens)
    (hrest : rest <:+ tokens) : AllSimple rest :=
  fun t ht => h t (hrest.subset ht)

namespace Parser

variable {α β : Type}

/-- A parser that is run where `pre` holds either returns something of which `post` holds, or fails
and leaves a memory of which `failed` holds. -/
structure Triple (pre : List Token → Memory → Prop) (p : Parser α)
    (post : α → List Token → Memory → Prop) (failed : Memory → Prop) : Prop where
  of_ok : ∀ {line tokens memory a rest memory'}, pre tokens memory →
    p.outcome line tokens memory = (.ok (a, rest), memory') → post a rest memory'
  of_error : ∀ {line tokens memory e memory'}, pre tokens memory →
    p.outcome line tokens memory = (.error e, memory') → failed memory'

namespace Triple

variable {pre : List Token → Memory → Prop} {p : Parser α} {post : α → List Token → Memory → Prop}
  {post' : β → List Token → Memory → Prop} {failed : Memory → Prop}

theorem pure {a : α} (h : ∀ tokens memory, pre tokens memory → post a tokens memory) :
    Triple pre (Pure.pure a) post failed := by
  constructor
  · intro line tokens memory b rest memory' hpre hrun
    cases hrun
    exact h _ _ hpre
  · intro line tokens memory e memory' _ hrun
    cases hrun

/-- What one parser makes sure of may be used by the next one, and both have to say the same of
failures. -/
theorem bind {f : α → Parser β} (h : Triple pre p post failed)
    (hf : ∀ a, Triple (post a) (f a) post' failed) :
    Triple pre (p >>= f) post' failed := by
  constructor
  · intro line tokens memory b rest memory' hpre hrun
    cases hp : p.outcome line tokens memory with
    | mk result memory₁ =>
      cases result with
      | error e =>
        rw [outcome_bind_error hp] at hrun
        cases hrun
      | ok taken =>
        rw [outcome_bind_ok hp] at hrun
        exact (hf taken.1).of_ok (h.of_ok hpre hp) hrun
  · intro line tokens memory e memory' hpre hrun
    cases hp : p.outcome line tokens memory with
    | mk result memory₁ =>
      cases result with
      | error e =>
        rw [outcome_bind_error hp] at hrun
        cases hrun
        exact h.of_error hpre hp
      | ok taken =>
        rw [outcome_bind_ok hp] at hrun
        exact (hf taken.1).of_error (h.of_ok hpre hp) hrun

/-- A triple may be said more weakly, with more assumed. -/
theorem conseq {pre' : List Token → Memory → Prop} {better : α → List Token → Memory → Prop}
    {failed' : Memory → Prop} (h : Triple pre p post failed)
    (hpre : ∀ tokens memory, pre' tokens memory → pre tokens memory)
    (hpost : ∀ a tokens memory, post a tokens memory → better a tokens memory)
    (hfailed : ∀ memory, failed memory → failed' memory) : Triple pre' p better failed' :=
  ⟨fun hp hrun => hpost _ _ _ (h.of_ok (hpre _ _ hp) hrun),
    fun hp hrun => hfailed _ (h.of_error (hpre _ _ hp) hrun)⟩

/-- A fact that the start does not depend on may be used. -/
theorem of_fact {fact : Prop} (h : fact → Triple pre p post failed) :
    Triple (fun tokens memory => fact ∧ pre tokens memory) p post failed :=
  ⟨fun hp hrun => (h hp.1).of_ok hp.2 hrun, fun hp hrun => (h hp.1).of_error hp.2 hrun⟩

/-- A parser may be looked at for each of the tokens and memories that it can be run on. -/
theorem from_start (h : ∀ start M, pre start M →
      Triple (fun tokens memory => tokens = start ∧ memory = M) p post failed) :
    Triple pre p post failed :=
  ⟨fun hpre hrun => (h _ _ hpre).of_ok ⟨rfl, rfl⟩ hrun,
    fun hpre hrun => (h _ _ hpre).of_error ⟨rfl, rfl⟩ hrun⟩

/-- A parser is run on some tokens and a memory that it can be run on. -/
theorem at_start {start : List Token} {M : Memory} (h : Triple pre p post failed)
    (hstart : pre start M) :
    Triple (fun tokens memory => tokens = start ∧ memory = M) p post failed := by
  refine h.conseq ?_ (fun _ _ _ => id) fun _ => id
  rintro _ _ ⟨rfl, rfl⟩
  exact hstart

theorem pure_at {a : α} {start : List Token} {M : Memory} (h : post a start M) :
    Triple (fun tokens memory => tokens = start ∧ memory = M) (Pure.pure a) post failed := by
  refine pure ?_
  rintro _ _ ⟨rfl, rfl⟩
  exact h

/-- A parser of which the outcome is known is followed by one that is run on what it leaves. -/
theorem step {f : α → Parser β} {a : α} {start rest : List Token} {M M' : Memory}
    (h : ∀ line, p.outcome line start M = (.ok (a, rest), M'))
    (hf : Triple (fun tokens memory => tokens = rest ∧ memory = M') (f a) post' failed) :
    Triple (fun tokens memory => tokens = start ∧ memory = M) (p >>= f) post' failed := by
  constructor
  · rintro line _ _ b rest' memory' ⟨rfl, rfl⟩ hrun
    exact hf.of_ok ⟨rfl, rfl⟩ ((outcome_bind_ok (h line)).symm.trans hrun)
  · rintro line _ _ e memory' ⟨rfl, rfl⟩ hrun
    exact hf.of_error ⟨rfl, rfl⟩ ((outcome_bind_ok (h line)).symm.trans hrun)

/-- What follows a parser that fails is not run. -/
theorem stop {f : α → Parser β} {start : List Token} {M M' : Memory}
    (h : ∀ line, ∃ e, p.outcome line start M = (.error e, M')) (hfailed : failed M') :
    Triple (fun tokens memory => tokens = start ∧ memory = M) (p >>= f) post' failed := by
  constructor
  · rintro line _ _ b rest' memory' ⟨rfl, rfl⟩ hrun
    obtain ⟨e, he⟩ := h line
    cases (outcome_bind_error he).symm.trans hrun
  · rintro line _ _ e memory' ⟨rfl, rfl⟩ hrun
    obtain ⟨e, he⟩ := h line
    cases (outcome_bind_error he).symm.trans hrun
    exact hfailed

/-- What follows the tokens that it is run on may be looked at for each of them. -/
theorem get_bind {f : List Token → Parser β}
    (h : ∀ start M, pre start M →
      Triple (fun tokens memory => tokens = start ∧ memory = M) (f start) post' failed) :
    Triple pre (MonadState.get >>= f) post' failed :=
  from_start fun start M hstart => step (fun _ => rfl) (h start M hstart)

theorem throw (e : SyntaxError) (h : ∀ tokens memory, pre tokens memory → failed memory) :
    Triple pre (MonadExcept.throw e : Parser α) post failed := by
  constructor
  · intro line tokens memory b rest memory' _ hrun
    cases hrun
  · intro line tokens memory e memory' hpre hrun
    cases hrun
    exact h _ _ hpre

/-- A handler is run on the tokens that the failed parser was run on, and on the memory that it
left. -/
theorem tryCatch {handle : SyntaxError → Parser α} {failed' : Memory → Prop}
    {good : List Token → Prop} (hgood : ∀ tokens memory, pre tokens memory → good tokens)
    (h : Triple pre p post failed')
    (hhandle : ∀ e, Triple (fun tokens memory => good tokens ∧
      failed' memory) (handle e) post failed) :
    Triple pre (MonadExcept.tryCatch p handle) post failed := by
  constructor
  · intro line tokens memory a rest memory' hpre hrun
    rw [outcome_tryCatch] at hrun
    split at hrun
    · rename_i hp
      cases hrun
      exact h.of_ok hpre hp
    · rename_i hp
      exact (hhandle _).of_ok ⟨hgood _ _ hpre, h.of_error hpre hp⟩ hrun
  · intro line tokens memory e memory' hpre hrun
    rw [outcome_tryCatch] at hrun
    split at hrun
    · cases hrun
    · rename_i hp
      exact (hhandle _).of_error ⟨hgood _ _ hpre, h.of_error hpre hp⟩ hrun

variable {I : α → List Token → Memory → Prop} {step : α → Parser (α ⊕ β)}

/-- A loop keeps its invariant under each bound, also when the bound is used up. -/
theorem loopWithin (hfailed : ∀ a tokens memory, I a tokens memory → failed memory)
    (hstep : ∀ a, Triple (I a) (step a) (fun next => next.elim I post') failed) (bound : Nat) :
    ∀ a, Triple (I a) (Parser.loopWithin step bound a) post' failed := by
  induction bound with
  | zero =>
    intro a
    constructor
    · intro line tokens memory b rest memory' _ hrun
      cases hrun
    · intro line tokens memory e memory' hpre hrun
      cases hrun
      exact hfailed a tokens memory hpre
  | succ bound ih =>
    intro a
    refine (hstep a).bind fun next => ?_
    cases next with
    | inl a => exact ih a
    | inr b => exact pure fun _ _ => id

/-- A loop keeps what each of its steps keeps. -/
theorem loop {start : α} (hfailed : ∀ a tokens memory, I a tokens memory → failed memory)
    (hstep : ∀ a, Triple (I a) (step a) (fun next => next.elim I post') failed) :
    Triple (I start) (Parser.loop start step) post' failed := by
  refine @bind _ _ _ _ (fun _ => I start) _ _ _ ?_ fun _ => loopWithin hfailed hstep _ start
  refine ⟨fun hpre hrun => ?_, fun hpre hrun => ?_⟩
  · cases hrun
    exact hpre
  · cases hrun

end Triple

/-- Whether a parser takes tokens off the end of `T` that is left, and leaves the memory alone
whether it succeeds or fails. -/
def Consumes (p : Parser α) (T : List Token) (M : Memory) : Prop :=
  Triple (fun tokens memory => tokens <:+ T ∧ memory = M) p (fun _ rest memory => rest <:+ T ∧
    memory = M)
    fun memory => memory = M

namespace Consumes

variable {T : List Token} {M : Memory} {p : Parser α}

theorem pure (a : α) : Consumes (Pure.pure a) T M :=
  Triple.pure fun _ _ => id

/-- What consumes may be followed by what consumes. -/
theorem bind {f : α → Parser β} (h : p.Consumes T M) (hf : ∀ a, (f a).Consumes T M) :
    (p >>= f).Consumes T M :=
  Triple.bind h hf

theorem map (f : α → β) (h : p.Consumes T M) : (f <$> p).Consumes T M := by
  have hbind : (p >>= fun a => Pure.pure (f a)).Consumes T M := h.bind fun a => pure (f a)
  exact hbind

theorem discard (h : p.Consumes T M) : (Functor.discard p).Consumes T M :=
  h.map _

theorem ite {c : Prop} [Decidable c] {q : Parser α} (h : p.Consumes T M) (hq : q.Consumes T M) :
    (if c then p else q).Consumes T M := by
  split
  · exact h
  · exact hq

/-- What follows a condition is read behind whichever side was taken. -/
theorem joined {c : Prop} [Decidable c] {q : Parser α} {f : α → Parser β} (h : p.Consumes T M)
    (hq : q.Consumes T M) (hf : ∀ a, (f a).Consumes T M) :
    (if c then p >>= f else q >>= f).Consumes T M :=
  .ite (h.bind hf) (hq.bind hf)

theorem throw (e : SyntaxError) : Consumes (MonadExcept.throw e : Parser α) T M :=
  Triple.throw e fun _ _ => And.right

theorem attempt (h : p.Consumes T M) : (Parser.attempt p).Consumes T M :=
  @Triple.tryCatch _ _ _ _ _ _ _ (· <:+ T) (fun _ _ => And.left) (h.map some) fun _ => pure none

/-- Tokens that have been left may be returned to. -/
theorem get_bind {f : List Token → Parser β} (h : ∀ start, start <:+ T → (f start).Consumes T M) :
    Consumes (MonadState.get >>= f) T M :=
  Triple.get_bind fun start _ hstart => (h start hstart.1).at_start hstart

/-- Going back to tokens that are still ahead consumes nothing that was not there. -/
theorem set {tokens : List Token} (h : tokens <:+ T) :
    Consumes (MonadState.set tokens : Parser PUnit) T M := by
  refine ⟨fun hstart hrun => ?_, fun hstart hrun => ?_⟩
  · cases hrun
    exact ⟨h, hstart.2⟩
  · cases hrun

theorem read : Consumes (MonadReader.read : Parser Nat) T M := by
  refine ⟨fun hstart hrun => ?_, fun hstart hrun => ?_⟩
  · cases hrun
    exact hstart
  · cases hrun

theorem memory : Consumes (getThe Memory : Parser Memory) T M := by
  refine ⟨fun hstart hrun => ?_, fun hstart hrun => ?_⟩
  · cases hrun
    exact hstart
  · cases hrun

theorem advance (n : Nat) : (Parser.advance n).Consumes T M := by
  refine ⟨fun hstart hrun => ?_, fun hstart hrun => ?_⟩
  · cases hrun
    exact ⟨(List.drop_suffix n _).trans hstart.1, hstart.2⟩
  · cases hrun

theorem peek? : Parser.peek?.Consumes T M :=
  get_bind fun _ _ => pure _

theorem textAt (n : Nat) : (Parser.textAt n).Consumes T M :=
  get_bind fun _ _ => pure _

theorem text : Parser.text.Consumes T M :=
  textAt 0

theorem isNext (expected : String) : (Parser.isNext expected).Consumes T M :=
  get_bind fun _ _ => pure _

theorem isAt (n : Nat) (expected : String) : (Parser.isAt n expected).Consumes T M :=
  get_bind fun _ _ => pure _

theorem identifier? : Parser.identifier?.Consumes T M :=
  get_bind fun _ _ => pure _

theorem line : Parser.line.Consumes T M :=
  get_bind fun _ _ => read.bind fun _ => pure _

theorem fail (cause : SyntaxCause) : Consumes (Parser.fail cause : Parser α) T M :=
  line.bind fun line => throw ⟨line, cause⟩

theorem failFound (cause : Option String → SyntaxCause) :
    Consumes (Parser.failFound cause : Parser α) T M :=
  peek?.bind fun _ => fail _

theorem next : Parser.next.Consumes T M := by
  refine get_bind fun tokens htokens => ?_
  cases tokens with
  | nil => exact fail _
  | cons t rest => exact (set ((List.suffix_cons t rest).trans htokens)).bind fun _ => pure t

theorem eat (expected : String) : (Parser.eat expected).Consumes T M :=
  (isNext expected).bind fun _ => ite ((advance 1).bind fun _ => pure true) (pure false)

theorem expect (expected : String) : (Parser.expect expected).Consumes T M :=
  (eat expected).bind fun _ => ite (pure ()) (failFound _)

theorem identifier : Parser.identifier.Consumes T M := by
  refine identifier?.bind fun name? => ?_
  cases name? with
  | none => exact failFound _
  | some name => exact (advance 1).bind fun _ => pure name

/-- Taking a run leaves some of the tokens. -/
theorem takeRun {run? : List Token → Option (α × List Token)} {cause : SyntaxCause}
    (h : ∀ tokens run rest, run? tokens = some (run, rest) → rest <:+ tokens) :
    (Parser.takeRun run? cause).Consumes T M := by
  refine get_bind fun tokens htokens => ?_
  split
  · rename_i run rest hrun
    exact (set ((h tokens run rest hrun).trans htokens)).bind fun _ => pure run
  · exact read.bind fun _ => throw _

theorem loop {start : α} {step : α → Parser (α ⊕ β)} (h : ∀ a, (step a).Consumes T M) :
    (Parser.loop start step).Consumes T M := by
  refine Triple.loop (I := fun _ tokens memory => tokens <:+ T ∧
    memory = M) (fun _ _ _ => And.right) fun a => ?_
  refine Triple.conseq (h a) (fun _ _ => id) (fun next _ _ hnext => ?_) fun _ => id
  cases next <;> exact hnext

end Consumes

/-- Whether a parser leaves the memory alone, leaves simple identifiers if it is given such, and
then returns something of which `P` holds. -/
def Steady (p : Parser α) (M : Memory) (P : α → Prop := fun _ => True) : Prop :=
  Triple (fun tokens memory => AllSimple tokens ∧ memory = M) p
    (fun a rest memory => P a ∧ AllSimple rest ∧ memory = M) fun memory => memory = M

namespace Steady

variable {M : Memory} {p : Parser α} {P P' : α → Prop} {Q : β → Prop}

/-- What takes tokens leaves simple identifiers among simple ones. -/
theorem of_consumes (h : ∀ {T}, p.Consumes T M) : p.Steady M := by
  constructor
  · intro line tokens memory a rest memory' hpre hrun
    obtain ⟨hrest, hmemory⟩ := h.of_ok ⟨List.suffix_rfl, hpre.2⟩ hrun
    exact ⟨trivial, hpre.1.suffix hrest, hmemory⟩
  · intro line tokens memory e memory' hpre hrun
    exact h.of_error ⟨List.suffix_rfl, hpre.2⟩ hrun

theorem pure {a : α} (h : P a) : Steady (Pure.pure a) M P :=
  Triple.pure fun _ _ hstart => ⟨h, hstart⟩

theorem just (a : α) : Steady (Pure.pure a) M :=
  pure trivial

/-- A parser may use what the one before it has made sure of. -/
theorem bind {f : α → Parser β} (h : p.Steady M P) (hf : ∀ a, P a → (f a).Steady M Q) :
    (p >>= f).Steady M Q :=
  Triple.bind h fun a => .of_fact fun ha => hf a ha

/-- A parser behind a steady one is run on whatever that one returns. -/
theorem seq {f : α → Parser β} (h : p.Steady M P) (hf : ∀ a, (f a).Steady M Q) :
    (p >>= f).Steady M Q :=
  h.bind fun a _ => hf a

/-- What follows a condition is read behind whichever side was taken. -/
theorem joined {c : Prop} [Decidable c] {q : Parser α} {f : α → Parser β} (h : p.Steady M P)
    (hq : q.Steady M P) (hf : ∀ a, P a → (f a).Steady M Q) :
    (if c then p >>= f else q >>= f).Steady M Q := by
  split
  · exact h.bind hf
  · exact hq.bind hf

theorem map {f : α → β} (h : p.Steady M P) (hf : ∀ a, P a → Q (f a)) : (f <$> p).Steady M Q := by
  have hbind : (p >>= fun a => Pure.pure (f a)).Steady M Q := h.bind fun a ha => pure (hf a ha)
  exact hbind

theorem discard (h : p.Steady M P) : (Functor.discard p).Steady M :=
  h.map fun _ _ => trivial

theorem throw (e : SyntaxError) : Steady (MonadExcept.throw e : Parser α) M P :=
  Triple.throw e fun _ _ hstart => hstart.2

theorem tryCatch {handle : SyntaxError → Parser α} (h : p.Steady M P)
    (hhandle : ∀ e, (handle e).Steady M P) :
    Steady (MonadExcept.tryCatch p handle) M P :=
  Triple.tryCatch (fun _ _ hstart => hstart.1) h hhandle

/-- The tokens ahead have simple names. -/
theorem get : Steady MonadState.get M AllSimple := by
  refine ⟨fun hstart hrun => ?_, fun hstart hrun => ?_⟩
  · cases hrun
    exact ⟨hstart.1, hstart⟩
  · cases hrun

theorem set {tokens : List Token} (h : AllSimple tokens) :
    Steady (MonadState.set tokens : Parser PUnit) M := by
  refine ⟨fun hstart hrun => ?_, fun hstart hrun => ?_⟩
  · cases hrun
    exact ⟨trivial, h, hstart.2⟩
  · cases hrun

theorem memory : Steady (getThe Memory : Parser Memory) M (· = M) := by
  refine ⟨fun hstart hrun => ?_, fun hstart hrun => ?_⟩
  · cases hrun
    exact ⟨hstart.2, hstart⟩
  · cases hrun

theorem advance (n : Nat) : (Parser.advance n).Steady M :=
  of_consumes (.advance n)

theorem peek? : Parser.peek?.Steady M :=
  of_consumes .peek?

theorem text : Parser.text.Steady M :=
  of_consumes .text

theorem isNext (expected : String) : (Parser.isNext expected).Steady M :=
  of_consumes (.isNext expected)

theorem isAt (n : Nat) (expected : String) : (Parser.isAt n expected).Steady M :=
  of_consumes (.isAt n expected)

theorem identifier? : Parser.identifier?.Steady M fun name? => ∀ name ∈ name?, Simple name := by
  refine get.bind fun tokens htokens => pure ?_
  intro name hname
  obtain ⟨t, ht, rfl⟩ := Option.map_eq_some_iff.mp hname
  obtain ⟨hhead, hkind⟩ := Option.filter_eq_some_iff.mp ht
  exact htokens t (List.mem_of_mem_head? hhead) (beq_iff_eq.mp hkind)

theorem line : Parser.line.Steady M :=
  of_consumes .line

theorem fail (cause : SyntaxCause) : Steady (Parser.fail cause : Parser α) M P :=
  line.seq fun line => throw ⟨line, cause⟩

theorem failFound (cause : Option String → SyntaxCause) :
    Steady (Parser.failFound cause : Parser α) M P :=
  peek?.seq fun _ => fail _

theorem next : Parser.next.Steady M :=
  of_consumes .next

theorem eat (expected : String) : (Parser.eat expected).Steady M :=
  of_consumes (.eat expected)

theorem expect (expected : String) : (Parser.expect expected).Steady M :=
  of_consumes (.expect expected)

theorem identifier : Parser.identifier.Steady M Simple := by
  refine identifier?.bind fun name? hname => ?_
  cases name? with
  | none => exact failFound _
  | some name => exact (advance 1).seq fun _ => pure (hname name rfl)

theorem takeRun {run? : List Token → Option (α × List Token)} {cause : SyntaxCause}
    (h : ∀ tokens run rest, run? tokens = some (run, rest) → rest <:+ tokens) :
    (Parser.takeRun run? cause).Steady M :=
  of_consumes (.takeRun h)

theorem attempt (h : p.Steady M P) : (Parser.attempt p).Steady M fun a? => ∀ a ∈ a?, P a := by
  refine tryCatch (h.map fun a ha b hb => ?_) fun _ => pure nofun
  cases hb
  exact ha

variable {step : α → Parser (α ⊕ β)}

/-- A loop is steady if each step is, as long as it keeps what the next one needs. -/
theorem loop {start : α} (hstart : P start) (hstep : ∀ a, P a → (step a).Steady M (Sum.elim P Q)) :
    (Parser.loop start step).Steady M Q := by
  have hloop : Triple (fun tokens memory => P start ∧ AllSimple tokens ∧
      memory = M) (Parser.loop start step)
      (fun b rest memory => Q b ∧ AllSimple rest ∧ memory = M) fun memory => memory = M := by
    refine .loop (I := fun a tokens memory => P a ∧ AllSimple tokens ∧
      memory = M) (fun _ _ _ h => h.2.2) fun a => ?_
    refine .of_fact fun ha => Triple.conseq (hstep a ha) (fun _ _ => id) (fun next _ _ =>
      ?_) fun _ => id
    cases next <;> exact id
  exact hloop.conseq (fun _ _ hpre => ⟨hstart, hpre⟩) (fun _ _ _ => id) fun _ => id

theorem again {a : α} (h : P a) : Steady (Parser.again a : Parser (α ⊕ β)) M (Sum.elim P Q) :=
  pure h

theorem done {b : β} (h : Q b) : Steady (Parser.done b : Parser (α ⊕ β)) M (Sum.elim P Q) :=
  pure h

end Steady

end Parser

end Interop.Header
