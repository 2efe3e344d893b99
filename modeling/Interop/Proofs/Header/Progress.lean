import Interop.Proofs.Header.Consuming
import Interop.Proofs.Header.TypeSteps

namespace Interop.Header

/-- Whether some tokens begin with one that does not close the scope around them. -/
def Token.Starts (tokens : List Token) : Prop :=
  ∃ t ∈ tokens.head?, t.text ≠ "\x7d"

namespace Parser

variable {α β : Type}

/-- Whether a result leaves tokens that `left` allows, or is an error that says what was found, and
not that a bound is used up. -/
def Reached (left : α → List Token → Prop) : Except SyntaxError (α × List Token) → Prop
  | .ok (a, rest) => left a rest
  | .error e => e.cause ≠ .nestedTooDeep

/-- What is left by a reading may be said more weakly. -/
theorem Reached.mono {left left' : α → List Token → Prop}
    {result : Except SyntaxError (α × List Token)} (h : Reached left result)
    (hleft : ∀ a rest, left a rest → left' a rest) : Reached left' result := by
  cases result with
  | ok taken => exact hleft taken.1 taken.2 h
  | error e => exact h

/-- Whether two parsers do the same on the ends of `T` that they are ready for, and leave tokens
that `left` allows. -/
def Leads (p q : Parser α) (T : List Token) (left : α → List Token → Prop)
    (ready : List Token → Prop := fun _ => True) : Prop :=
  ∀ line tokens memory, tokens <:+ T → ready tokens →
    p.outcome line tokens memory = q.outcome line tokens memory ∧
      Reached left (p.outcome line tokens memory).1

/-- Whether some tokens end `T`, and are less than all of it if what was returned counts as
moved. -/
def Ahead (T : List Token) (moved : α → Prop) (a : α) (rest : List Token) : Prop :=
  rest <:+ T ∧ (moved a → rest.length < T.length)

/-- Whether two parsers do the same on the ends of `T` that they are ready for, and go on. -/
abbrev Agree (p q : Parser α) (T : List Token) (moved : α → Prop := fun _ => False)
    (ready : List Token → Prop := fun _ => True) : Prop :=
  Leads p q T (Ahead T moved) ready

/-- Whether a parser goes on. -/
abbrev Advances (p : Parser α) (T : List Token) (moved : α → Prop := fun _ => False)
    (ready : List Token → Prop := fun _ => True) : Prop :=
  Agree p p T moved ready

namespace Ahead

variable {T T' rest : List Token} {moved moved' : α → Prop} {a : α}

/-- What is ahead in fewer tokens is ahead in more, and then something has been taken. -/
theorem widen (h : Ahead T' moved a rest) (hT : T' <:+ T)
    (hmoved : moved' a → moved a ∨ T'.length < T.length) :
    Ahead T moved' a rest := by
  refine ⟨h.1.trans hT, fun ha => ?_⟩
  have hrest := h.1.length_le
  have hlength := hT.length_le
  rcases hmoved ha with ha | hshorter
  · have := h.2 ha
    omega
  · omega

end Ahead

namespace Leads

variable {T : List Token} {p q : Parser α} {moved : α → Prop} {left left' : α → List Token → Prop}
  {leftNext : β → List Token → Prop} {ready ready' : List Token → Prop}

theorem conseq (h : Leads p q T left ready) (hleft : ∀ a rest, left a rest → left' a rest)
    (hready : ∀ tokens, ready' tokens → ready tokens) : Leads p q T left' ready' :=
  fun line tokens memory hT htokens => (h line tokens memory hT (hready _ htokens)).imp_right
      fun hreached =>
    hreached.mono hleft

/-- What may be read from anywhere may be read where something is known. -/
theorem anywhere (h : Leads p q T left) : Leads p q T left ready :=
  h.conseq (fun _ _ => id) fun _ _ => trivial

/-- Returning a value takes nothing, so what holds of the tokens left has to hold of all that may be
there. -/
theorem give {a : α} (h : ∀ tokens, tokens <:+ T → ready tokens → left a tokens) :
    Leads (Pure.pure a) (Pure.pure a) T left ready :=
  fun _ _ _ hT htokens => ⟨rfl, h _ hT htokens⟩

/-- What follows a parser is read from where that one has moved to, or from anywhere if it has not
moved. -/
theorem bind_of {f g : α → Parser β} (h : Agree p q T moved ready)
    (hmoved : ∀ a, moved a → ∀ T', T' <:+ T → T'.length < T.length → Leads (f a) (g a) T' leftNext)
    (hstayed : ∀ a, ¬moved a → Leads (f a) (g a) T leftNext) :
    Leads (p >>= f) (q >>= g) T leftNext ready := by
  intro line tokens memory hT htokens
  obtain ⟨hsame, hreached⟩ := h line tokens memory hT htokens
  cases hp : p.outcome line tokens memory with
  | mk result memory₁ =>
    rw [hp] at hsame hreached
    cases result with
    | error e =>
      rw [outcome_bind_error hp, outcome_bind_error hsame.symm]
      exact ⟨rfl, hreached⟩
    | ok taken =>
      obtain ⟨a, rest⟩ := taken
      rw [outcome_bind_ok hp, outcome_bind_ok hsame.symm]
      by_cases ha : moved a
      · exact hmoved a ha rest hreached.1 (hreached.2 ha) line rest memory₁ List.suffix_rfl trivial
      · exact hstayed a ha line rest memory₁ hreached.1 trivial

/-- What follows a parser that need not move. -/
theorem bind {f g : α → Parser β} (h : Agree p q T (fun _ => False) ready)
    (hf : ∀ a, Leads (f a) (g a) T leftNext) :
    Leads (p >>= f) (q >>= g) T leftNext ready :=
  bind_of h (fun _ => False.elim) fun a _ => hf a

/-- What follows a parser that moves. -/
theorem after {f g : α → Parser β} (h : Agree p q T (fun _ => True) ready)
    (hf : ∀ a T', T' <:+ T → T'.length < T.length → Leads (f a) (g a) T' leftNext) :
    Leads (p >>= f) (q >>= g) T leftNext ready :=
  bind_of h (fun a _ => hf a) fun _ ha => absurd trivial ha

theorem ite {c : Prop} [Decidable c] {p' q' : Parser α} (h : c → Leads p q T left ready)
    (hnot : ¬c → Leads p' q' T left ready) :
    Leads (if c then p else p') (if c then q else q') T left ready := by
  split
  · rename_i hc
    exact h hc
  · rename_i hc
    exact hnot hc

/-- What follows a condition is read behind whichever side was taken. -/
theorem joined {c : Prop} [Decidable c] {p' q' : Parser α} {f g : α → Parser β} (h : Agree p q T)
    (h' : Agree p' q' T) (hf : ∀ a, Leads (f a) (g a) T leftNext) :
    Leads (if c then p >>= f else p' >>= f) (if c then q >>= g else q' >>= g) T leftNext ready :=
  .ite (fun _ => (h.bind hf).anywhere) fun _ => (h'.bind hf).anywhere

/-- A failure is as good as progress, unless it is the one of the bound. -/
theorem throw {e : SyntaxError} (h : e.cause ≠ .nestedTooDeep) :
    Leads (MonadExcept.throw e : Parser α) (MonadExcept.throw e) T left ready :=
  fun _ _ _ _ _ => ⟨rfl, h⟩

/-- Tokens that have been left may be returned to. -/
theorem get_bind {f g : List Token → Parser α}
    (h : ∀ start, start <:+ T → Leads (f start) (g start) T left ready) :
    Leads (MonadState.get >>= f) (MonadState.get >>= g) T left ready :=
  fun line tokens memory hT htokens => h tokens hT line tokens memory hT htokens

/-- Going back to tokens that are still ahead keeps what is ahead. -/
theorem set_bind {start T' : List Token} {f g : PUnit → Parser α} (hstart : start <:+ T)
    (h : Leads (f ⟨⟩) (g ⟨⟩) T left (· = start)) :
    Leads (MonadState.set start >>= f) (MonadState.set start >>= g) T' left ready :=
  fun line _ memory _ _ => h line start memory hstart rfl

/-- What follows a look at the tokens is ready for what was seen. -/
theorem observe {look : Parser α} {see : List Token → α} {f g : α → Parser β}
    (hlook : ∀ {line tokens memory}, look.outcome line tokens memory = (.ok (see tokens, tokens),
      memory))
    (h : ∀ a, Leads (f a) (g a) T leftNext fun tokens => ready tokens ∧ see tokens = a) :
    Leads (look >>= f) (look >>= g) T leftNext ready := by
  intro line tokens memory hT htokens
  rw [outcome_bind_ok hlook, outcome_bind_ok hlook]
  exact h _ line tokens memory hT ⟨htokens, rfl⟩

/-- If the expected token is next there is a token. -/
theorem isNext_bind {expected : String} {f g : Bool → Parser α}
    (h : ∀ found, Leads (f found) (g found) T left fun tokens => found = true → tokens ≠ []) :
    Leads (isNext expected >>= f) (isNext expected >>= g) T left ready := by
  refine .observe (outcome_isNext expected) fun found => (h found).conseq (fun _ _ => id) ?_
  rintro tokens ⟨-, rfl⟩ hfound rfl
  cases hfound

theorem isAt_bind {n : Nat} {expected : String} {f g : Bool → Parser α}
    (h : ∀ found, Leads (f found) (g found) T left) :
    Leads (isAt n expected >>= f) (isAt n expected >>= g) T left ready :=
  .observe (outcome_isAt n expected) fun found => (h found).anywhere

/-- If the next text is not empty there is a token. -/
theorem text_bind {f g : String → Parser α}
    (h : ∀ word, Leads (f word) (g word) T left fun tokens => word =
      tokens.head?.elim "" Token.text) :
    Leads (text >>= f) (text >>= g) T left ready :=
  .observe outcome_text fun word => (h word).conseq (fun _ _ => id) fun _ hword => hword.2.symm

/-- If there is a name there is a token. -/
theorem identifier?_bind {f g : Option String → Parser α}
    (h : ∀ name?, Leads (f name?) (g name?) T left fun tokens => name?.isSome = true →
      tokens ≠ []) :
    Leads (identifier? >>= f) (identifier? >>= g) T left ready := by
  refine .observe outcome_identifier? fun name? => (h name?).conseq (fun _ _ => id) ?_
  rintro tokens ⟨-, rfl⟩ hsome rfl
  cases hsome

/-- Loops of parsers that do the same, a repetition moving on whenever it is not the last, do the
same within any bounds that are greater than the number of tokens. -/
theorem loopWithin {step step' : α → Parser (α ⊕ β)}
    (h : ∀ a T', T' <:+ T →
      Leads (step a) (step' a) T' (Sum.elim (fun _ rest => rest <:+ T' ∧
        rest.length < T'.length) leftNext)) {bound : Nat} :
    ∀ {bound' : Nat} {a : α} {T' : List Token}, T' <:+ T → T'.length < bound → T'.length < bound' →
      Leads (Parser.loopWithin step bound a) (Parser.loopWithin step' bound' a) T' leftNext (· =
          T') := by
  induction bound with
  | zero => exact fun _ hbound => absurd hbound (Nat.not_lt_zero _)
  | succ bound ih =>
    intro bound' a T' hT' hbound hbound'
    obtain ⟨bound', rfl⟩ := Nat.exists_eq_add_one_of_ne_zero (Nat.ne_zero_of_lt hbound')
    rintro line _ memory - rfl
    rename_i T'
    obtain ⟨hsame, hreached⟩ := h a T' hT' line T' memory List.suffix_rfl trivial
    rw [Parser.loopWithin, Parser.loopWithin]
    cases hstep : (step a).outcome line T' memory with
    | mk result memory₁ =>
      rw [hstep] at hsame hreached
      cases result with
      | error e =>
        rw [outcome_bind_error hstep, outcome_bind_error hsame.symm]
        exact ⟨rfl, hreached⟩
      | ok taken =>
        obtain ⟨next, rest⟩ := taken
        rw [outcome_bind_ok hstep, outcome_bind_ok hsame.symm]
        cases next with
        | inr b => exact ⟨rfl, hreached⟩
        | inl a' =>
          obtain ⟨hrest, hlength⟩ := hreached
          exact ih (hrest.trans hT') (by omega) (by omega) line rest memory₁ List.suffix_rfl rfl

/-- A loop agrees under all bounds if each of its steps takes a token or ends it. -/
theorem loop_to {start : α} {step step' : α → Parser (α ⊕ β)}
    (h : ∀ a T', T' <:+ T →
      Leads (step a) (step' a) T' (Sum.elim (fun _ rest => rest <:+ T' ∧
        rest.length < T'.length) leftNext)) :
    Leads (Parser.loop start step) (Parser.loop start step') T leftNext ready := by
  intro line tokens memory hT _
  rw [Parser.loop, Parser.loop, outcome_bind_ok outcome_get, outcome_bind_ok outcome_get]
  exact loopWithin h hT (Nat.lt_succ_self _) (Nat.lt_succ_self _) line tokens memory
    List.suffix_rfl rfl

variable {movedNext : β → Prop}

/-- What moves may be read where nothing has to. -/
theorem any (h : Agree p q T moved) : Agree p q T (fun _ => False) ready :=
  h.conseq (fun _ _ hrest => hrest.widen List.suffix_rfl nofun) fun _ _ => trivial

theorem pure {a : α} (h : ¬moved a) : Advances (Pure.pure a) T moved ready :=
  give fun _ hT _ => ⟨hT, fun ha => absurd ha h⟩

/-- What follows a parser need not move if that one has. -/
theorem either {f g : α → Parser β} (h : Agree p q T moved ready)
    (hmoved : ∀ a, moved a → ∀ T', T' <:+ T → T'.length < T.length → Agree (f a) (g a) T')
    (hstayed : ∀ a, ¬moved a → Agree (f a) (g a) T movedNext) :
    Agree (p >>= f) (q >>= g) T movedNext ready :=
  bind_of h (fun a ha T' hT' hlength => (hmoved a ha T' hT' hlength).conseq
    (fun _ _ hrest => hrest.widen hT' fun _ => .inr hlength) fun _ => id) hstayed

/-- What follows a parser that moves need not move. -/
theorem behind {f g : α → Parser β} (h : Agree p q T (fun _ => True) ready)
    (hf : ∀ a T', T' <:+ T → T'.length < T.length → Agree (f a) (g a) T') :
    Agree (p >>= f) (q >>= g) T movedNext ready :=
  either h (fun a _ => hf a) fun _ ha => absurd trivial ha

theorem map (f : α → β) (h : Agree p q T moved ready) (hmoved : ∀ a, movedNext (f a) → moved a) :
    Agree (f <$> p) (f <$> q) T movedNext ready := by
  have hbind : Agree (p >>= fun a => Pure.pure (f a)) (q >>= fun a =>
      Pure.pure (f a)) T movedNext ready := by
    exact either h (fun _ _ _ _ _ => pure not_false) fun a ha => pure (mt (hmoved a) ha)
  exact hbind

/-- A value may be thrown away if its progress is known without it. -/
theorem discard {certain : Prop} (h : Agree p q T (fun _ => certain) ready) :
    Agree (Functor.discard p) (Functor.discard q) T (fun _ => certain) ready :=
  h.map _ fun _ => id

/-- What is read from the tokens that are left may be looked at as if there were no others. -/
theorem restart {f g : List Token → Parser α}
    (h : ∀ start, start <:+ T → ready start → Agree (f start) (g start) start moved (· = start)) :
    Agree (MonadState.get >>= f) (MonadState.get >>= g) T moved ready :=
  fun line tokens memory hT htokens =>
    (h tokens hT htokens line tokens memory List.suffix_rfl rfl).imp_right
    fun hreached => hreached.mono fun _ _ hrest => hrest.widen hT .inl

theorem line : Advances Parser.line T (fun _ => False) ready := by
  intro line tokens memory hT _
  rw [outcome_line']
  exact ⟨rfl, hT, nofun⟩

theorem line_bind {f g : Nat → Parser α} (h : ∀ a, Leads (f a) (g a) T left ready) :
    Leads (Parser.line >>= f) (Parser.line >>= g) T left ready := by
  intro line tokens memory hT htokens
  rw [outcome_bind_ok outcome_line', outcome_bind_ok outcome_line']
  exact h _ line tokens memory hT htokens

theorem peek? : Advances Parser.peek? T (fun _ => False) ready :=
  fun _ _ _ hT _ => ⟨rfl, hT, nofun⟩

theorem read : Advances (MonadReader.read : Parser Nat) T (fun _ => False) ready :=
  fun _ _ _ hT _ => ⟨rfl, hT, nofun⟩

theorem memory : Advances (getThe Memory : Parser Memory) T (fun _ => False) ready :=
  fun _ _ _ hT _ => ⟨rfl, hT, nofun⟩

theorem modifyMemory (change : Memory → Memory) :
    Advances (modifyThe Memory change : Parser PUnit) T (fun _ => False) ready :=
  fun _ _ _ hT _ => ⟨rfl, hT, nofun⟩

theorem advance (n : Nat) : Advances (Parser.advance n) T (fun _ => False) ready :=
  fun _ _ _ hT _ => ⟨rfl, (List.drop_suffix n _).trans hT, nofun⟩

/-- Advancing takes a token where there is one. -/
theorem advance_of_ne {n : Nat} (h : ∀ tokens, ready tokens → tokens ≠ []) :
    Advances (Parser.advance (n + 1)) T (fun _ => True) ready := by
  refine fun line tokens memory hT htokens => ⟨rfl, (List.drop_suffix (n + 1) _).trans hT,
    fun _ => ?_⟩
  have hlength := hT.length_le
  have hpos := List.length_pos_iff.mpr (h tokens htokens)
  rw [List.length_drop]
  omega

/-- A word that is not empty is a token's. -/
theorem advance_of_word {word : String} (h : word ≠ "") :
    Advances (Parser.advance 1) T (fun _ => True) fun tokens => word =
      tokens.head?.elim "" Token.text :=
  advance_of_ne fun _ hword hnil => h (hword.trans (by rw [hnil]; rfl))

theorem fail {cause : SyntaxCause} (h : cause ≠ .nestedTooDeep) :
    Advances (Parser.fail cause : Parser α) T moved ready :=
  line.bind fun _ => throw h

theorem failFound {cause : Option String → SyntaxCause}
    (h : ∀ found, cause found ≠ .nestedTooDeep) :
    Advances (Parser.failFound cause : Parser α) T moved ready :=
  peek?.bind fun _ => fail (h _)

theorem next : Advances Parser.next T (fun _ => True) ready := by
  intro line tokens memory hT _
  cases tokens with
  | nil => exact ⟨rfl, SyntaxCause.noConfusion⟩
  | cons t rest =>
    refine ⟨rfl, (List.suffix_cons t rest).trans hT, fun _ => ?_⟩
    have hlength := hT.length_le
    rw [List.length_cons] at hlength
    omega

theorem eat (expected : String) : Advances (Parser.eat expected) T (· = true) ready := by
  refine isNext_bind fun found => .ite (fun hfound => ?_) fun _ => pure nofun
  exact (advance_of_ne fun _ hne => hne hfound).behind fun _ _ _ _ => pure not_false

/-- A token that is eaten is gone for what follows, and one that is not leaves all as it was. -/
theorem eat_to {expected : String} {p' q' : Parser α}
    (htaken : ∀ T', T' <:+ T → T'.length < T.length → Leads p q T' left)
    (hnot : Leads p' q' T left) :
    Leads (Parser.eat expected >>= fun taken => if taken = true then p else p')
      (Parser.eat expected >>= fun taken => if taken = true then q else q') T left ready := by
  refine (eat expected).bind_of (fun taken htrue T' hT' hlength => ?_) fun taken hfalse => ?_
  · exact .ite (fun _ => htaken T' hT' hlength) fun hfalse => absurd htrue hfalse
  · exact .ite (fun htrue => absurd htrue hfalse) fun _ => hnot

theorem eat_bind {expected : String} {p' q' : Parser α}
    (htaken : ∀ T', T' <:+ T → T'.length < T.length → Agree p q T') (hnot : Agree p' q' T moved) :
    Agree (Parser.eat expected >>= fun taken => if taken = true then p else p')
      (Parser.eat expected >>= fun taken => if taken = true then q else q') T moved ready :=
  eat_to (fun T' hT' hlength =>
    (htaken T' hT' hlength).conseq (fun _ _ hrest => hrest.widen hT' fun _ => .inr hlength)
    fun _ => id) hnot

theorem expect (expected : String) : Advances (Parser.expect expected) T (fun _ => True) ready :=
  eat_bind (fun _ _ _ => pure not_false) (failFound nofun)

theorem identifier : Advances Parser.identifier T (fun _ => True) ready := by
  refine identifier?_bind fun name? => ?_
  cases name? with
  | none => exact failFound nofun
  | some name => exact (advance_of_ne fun _ hne => hne rfl).behind fun _ _ _ _ => pure not_false

/-- A run of tokens is taken as a whole, and running out of tokens is a failure of its own. -/
theorem takeRun {run? : List Token → Option (α × List Token)} {cause : SyntaxCause}
    (h : ∀ tokens run rest, run? tokens = some (run, rest) → rest <:+ tokens)
    (hcause : cause ≠ .nestedTooDeep) :
    Advances (Parser.takeRun run? cause) T (fun _ => False) ready := by
  refine restart fun tokens _ _ => ?_
  split
  · rename_i run rest hrun
    exact set_bind (h tokens run rest hrun) (pure not_false)
  · exact read.bind fun _ => throw hcause

/-- What may fail takes a token if it finds something, and goes back to where it began otherwise. -/
theorem attempt (h : Agree p q T (fun _ => True)) :
    Agree (Parser.attempt p) (Parser.attempt q) T (fun found => found.isSome = true) ready := by
  have hsome : Agree (some <$> p) (some <$> q) T fun found => found.isSome = true :=
    h.map some fun _ _ => trivial
  intro line tokens memory hT _
  obtain ⟨hsame, hreached⟩ := hsome line tokens memory hT trivial
  rw [Parser.attempt, Parser.attempt, outcome_tryCatch, outcome_tryCatch, ← hsame]
  refine ⟨rfl, ?_⟩
  cases hp : (some <$> p).outcome line tokens memory with
  | mk result memory₁ =>
    rw [hp] at hreached
    cases result with
    | ok taken => exact hreached
    | error e => exact ⟨hT, fun hfound => absurd hfound Bool.false_ne_true⟩

/-- A handler is run on the tokens that the failed parser was run on. -/
theorem tryCatch {handle handle' : SyntaxError → Parser α} (h : Leads p q T left ready)
    (hhandle : ∀ e, e.cause ≠ .nestedTooDeep → Leads (handle e) (handle' e) T left ready) :
    Leads (MonadExcept.tryCatch p handle) (MonadExcept.tryCatch q handle') T left ready := by
  intro line tokens memory hT htokens
  obtain ⟨hsame, hreached⟩ := h line tokens memory hT htokens
  rw [outcome_tryCatch, outcome_tryCatch, ← hsame]
  cases hp : p.outcome line tokens memory with
  | mk result memory₁ =>
    rw [hp] at hreached
    cases result with
    | ok taken => exact ⟨rfl, hreached⟩
    | error e => exact hhandle e hreached line tokens memory₁ hT htokens

/-- Leaving scopes takes no tokens. -/
theorem thenLeaving (n : Nat) (h : Leads p q T left ready) :
    Leads (Parser.thenLeaving n p) (Parser.thenLeaving n q) T left ready := by
  intro line tokens memory hT htokens
  obtain ⟨hsame, hreached⟩ := h line tokens memory hT htokens
  refine ⟨by simp only [Parser.thenLeaving, outcome_bind, outcome_tryCatch, outcome_map, hsame], ?_⟩
  simp only [Parser.thenLeaving, outcome_bind, outcome_tryCatch, outcome_map]
  cases hp : p.outcome line tokens memory with
  | mk result memory₁ =>
    rw [hp] at hreached
    cases result with
    | ok taken => exact hreached
    | error e => exact hreached

/-- A loop advances if each of its steps does. -/
theorem loop {start : α} {step step' : α → Parser (α ⊕ β)}
    (h : ∀ a T', T' <:+ T → Agree (step a) (step' a) T' (Sum.elim (fun _ => True) movedNext)) :
    Agree (Parser.loop start step) (Parser.loop start step') T movedNext ready := by
  refine loop_to fun a T' hT' => (h a T' hT').conseq (fun next rest hnext => ?_) fun _ => id
  cases next with
  | inl a => exact ⟨hnext.1, hnext.2 trivial⟩
  | inr b =>
    have hdone : Ahead T' movedNext b rest := hnext
    exact hdone.widen hT' .inl

end Leads

variable {T : List Token} {n : Nat}

/-- Skipping takes a token, unless it stands at a closing brace. -/
theorem pastDeclaration_starts {t : Token} {tail rest : List Token} (ht : t.text ≠ "\x7d")
    (h : Token.pastDeclaration 0 0 (t :: tail) = some rest) : rest <:+ tail := by
  have hlater : ∀ {brackets braces : Nat}, Token.pastDeclaration brackets braces tail = some rest →
      rest <:+ tail :=
    fun h => Token.pastDeclaration_suffix tail h
  unfold Token.pastDeclaration at h
  split at h
  · exact hlater h
  · split at h
    · exact hlater h
    · split at h
      · exact hlater h
      · split at h
        · rename_i hclose
          exact absurd hclose.1 ht
        · split at h
          · cases h
            exact List.suffix_rfl
          · exact hlater h

/-- What is passed over as a declaration that can be one is not empty. -/
theorem skipDeclaration_advances (certain : Prop) :
    skipDeclaration.Advances T (fun _ => certain) fun tokens => certain → Token.Starts tokens := by
  refine .restart fun tokens _ hstarts => ?_
  split
  · rename_i run rest hrun
    obtain ⟨rest', hrest, heq⟩ := Option.map_eq_some_iff.mp hrun
    cases heq
    refine .set_bind (Token.pastDeclaration_suffix tokens hrest) (.give ?_)
    rintro _ hsuffix rfl
    refine ⟨hsuffix, fun hcertain => ?_⟩
    obtain ⟨t, ht, hne⟩ := hstarts hcertain
    obtain ⟨tail, rfl⟩ := List.head?_eq_some_iff.mp ht
    exact Nat.lt_succ_of_le (pastDeclaration_starts hne hrest).length_le
  · exact Leads.read.bind fun _ => .throw nofun

/-- Skipping a declaration leaves tokens ahead, and may take none. -/
theorem skip_advances {anything : List Token → Prop} :
    skipDeclaration.Advances T (fun _ => False) anything :=
  (skipDeclaration_advances False).conseq (fun _ _ => id) fun _ _ => False.elim

theorem balanced_advances (opening closing : String) :
    (balanced opening closing).Advances T fun _ => True :=
  (Leads.expect opening).behind fun _ _ _ _ =>
    .takeRun (fun tokens _ _ => Token.balancedRun_suffix tokens) nofun

theorem upTo_advances (stops : List String) : (upTo stops).Advances T :=
  .takeRun (fun tokens _ _ => Token.runUntil_suffix tokens) nofun

theorem endDeclaration_advances : endDeclaration.Advances T :=
  .eat_bind (fun _ _ _ => .pure not_false) skip_advances

theorem skipAttribute_advances : skipAttribute.Advances T fun _ => True :=
  (Leads.advance 1).bind fun _ => (upTo_advances _).discard.bind fun _ =>
      (Leads.expect "]").behind fun _ _ _ _ =>
    (Leads.expect "]").any

/-- An optional bracket with what it encloses, which is passed over. -/
theorem enclosed_advances {opening closing : String} {p : Parser α} (h : p.Advances T) :
    Advances (do
    if ← isNext opening then discard <| balanced opening closing
    p) T :=
  .isNext_bind fun _ => .ite (fun _ => (balanced_advances _ _).discard.any.bind fun _ =>
    h) fun _ => h.anywhere

/-- The longest row of tokens of some sort. -/
theorem span_advances (p : Token → Bool) (f : List Token → α) : Advances (do
    let (row, rest) := (← get).span p
    set rest
    return f row) T := by
  refine .get_bind fun tokens htokens => ?_
  rw [List.span_eq_takeWhile_dropWhile]
  exact .set_bind ((List.dropWhile_suffix p).trans htokens) (.pure not_false)

theorem words_advances (p : String → Bool) : (words p).Advances T (· ≠ []) := by
  refine .restart fun tokens _ _ => ?_
  rw [List.span_eq_takeWhile_dropWhile]
  refine .set_bind (List.dropWhile_suffix _) (.give ?_)
  rintro rest hrest rfl
  refine ⟨hrest, fun hrow => ?_⟩
  have hrow := List.length_pos_iff.mpr (mt List.map_eq_nil_iff.mpr hrow)
  have hlength := congrArg List.length
    (List.takeWhile_append_dropWhile (p := fun t => t.kind == .identifier && p t.text)
      (l := tokens))
  rw [List.length_append] at hlength
  omega

theorem qualifiers_advances : qualifiers.Advances T :=
  span_advances _ fun row => (row.any (·.text == "const"), row.any (·.text == "volatile"))

theorem leadingQualifiers_advances : leadingQualifiers.Advances T :=
  span_advances _ fun row => (row.any (·.text == "const"), row.any (·.text == "volatile"))

theorem indirections_advances (type : NativeType) : (indirections type).Advances T := by
  refine .loop fun type T' _ => .text_bind fun word => ?_
  split
  case h_1 =>
    exact (Leads.advance_of_word (by decide)).behind fun _ _ _ _ =>
      qualifiers_advances.bind fun _ => .pure not_false
  case h_2 | h_3 => exact (Leads.advance_of_word (by decide)).behind fun _ _ _ _ => .pure not_false
  case h_4 => exact .pure not_false

theorem aliasTarget?_advances (name : String) : (aliasTarget? name).Advances T :=
  (Leads.memory.bind fun _ => .pure not_false).bind fun _ => Leads.memory.bind fun _ =>
    .pure not_false

theorem behindArgument_advances (found : List NativeType) (argument : NativeType) :
    (behindArgument found argument).Advances T (Sum.elim (fun _ => True) fun _ => False) :=
  .eat_bind (fun _ _ _ => .pure not_false) ((Leads.expect ">").any.bind fun _ => .pure not_false)

section Types

variable {type type' : Parser NativeType}
  (h : ∀ {T' : List Token}, T'.length < n → Agree type type' T' fun _ => True)
include h

/-- Template arguments are read alike under all bounds for their types that are not below the number
of tokens. -/
theorem templateArguments_agree (hT : T.length ≤ n) :
    Agree (templateArguments type) (templateArguments type') T fun _ => True := by
  refine (Leads.expect "<").behind fun _ T₁ _ h₁ => .eat_bind (fun _ _ _ => .pure not_false) ?_
  refine .loop fun found T₂ h₂ => .restart fun start hstart _ => ?_
  have hlength : start.length < n := by
    have := hstart.length_le
    have := h₂.length_le
    omega
  -- The type that is taken for an argument counts only if the argument ends behind it.
  refine .joined (h hlength).attempt.any (.pure not_false) fun parsed => .isNext_bind fun _ =>
    .isNext_bind fun _ => ?_
  dsimp only
  split
  · exact ((Leads.pure not_false).bind (behindArgument_advances found)).anywhere
  · exact .set_bind List.suffix_rfl ((upTo_advances _).bind fun _ =>
      (Leads.pure not_false).bind (behindArgument_advances found)).anywhere

theorem namedType_agree (hT : T.length ≤ n) :
    Agree (namedType type) (namedType type') T fun _ => True := by
  refine (Leads.eat "::").any.bind fun _ => .loop fun lead T₁ h₁ =>
    Leads.identifier.behind fun name T₂ _ h₂ => ?_
  have hlength := h₁.length_le
  refine .isNext_bind fun _ => .ite (fun _ => ?_) fun _ => ?_
  · refine (templateArguments_agree h (by omega)).any.bind fun arguments =>
      .eat_bind (fun _ _ _ => ?_) (.pure not_false)
    exact Leads.identifier.any.bind fun _ => .pure not_false
  · refine .isNext_bind fun _ => .get_bind fun _ _ => .ite (fun _ => ?_) fun _ => ?_
    · exact (Leads.advance 1).bind fun _ => .pure not_false
    · refine .ite (fun _ => .pure not_false) fun _ =>
        Leads.anywhere ((aliasTarget?_advances _).bind fun target? => ?_)
      cases target? with
      | some target => exact .pure not_false
      | none => exact .pure not_false

theorem baseType_agree (hT : T.length ≤ n) :
    Agree (baseType type) (baseType type') T fun _ => True := by
  refine Leads.either (words_advances _) (fun row hrow T' _ _ => ?_) fun row hrow => ?_
  · split
    · exact .pure not_false
    · exact absurd rfl hrow
  · split
    · exact absurd (List.cons_ne_nil _ _) hrow
    · refine .identifier?_bind fun name? => ?_
      split
      · exact (Leads.advance_of_ne fun _ hne => hne rfl).behind fun _ _ _ _ => .pure not_false
      · exact (Leads.advance 1).bind fun _ => (balanced_advances _ _).behind fun _ _ _ _ =>
          .pure not_false
      · exact (namedType_agree h hT).anywhere

theorem typeWith_agree (hT : T.length ≤ n) :
    Agree (typeWith type) (typeWith type') T fun _ => True :=
  leadingQualifiers_advances.bind fun _ => (baseType_agree h hT).behind fun _ _ _ _ =>
      qualifiers_advances.bind fun _ =>
    indirections_advances _

end Types

/-- Types are the same within any bounds that are greater than the number of tokens. -/
theorem typeWithin_agree {bound : Nat} :
    ∀ {bound' : Nat} {T : List Token}, T.length < bound → T.length < bound' →
      Agree (typeWithin bound) (typeWithin bound') T fun _ => True := by
  induction bound with
  | zero => exact fun hbound => absurd hbound (Nat.not_lt_zero _)
  | succ bound ih =>
    intro bound' T hbound hbound'
    obtain ⟨bound', rfl⟩ := Nat.exists_eq_add_one_of_ne_zero (Nat.ne_zero_of_lt hbound')
    exact typeWith_agree (n := min bound bound') (fun hT' => ih (by omega) (by omega)) (by omega)

/-- A type takes at least one token. -/
theorem type_advances : type.Advances T fun _ => True :=
  .restart fun _ _ _ => (typeWithin_agree (Nat.lt_succ_self _) (Nat.lt_succ_self _)).anywhere

theorem functionPointer?_advances (result : NativeType) : (functionPointer? result).Advances T := by
  refine .isNext_bind fun _ => .isAt_bind fun _ => .ite (fun _ => ?_) fun _ => .pure not_false
  refine (Leads.advance 2).bind fun _ => (Leads.eat "const").any.discard.bind fun _ =>
    .identifier?_bind fun name? => ?_
  have hrest : ∀ name : String, Advances (do
      expect ")"
      let arguments ← balanced "(" ")"
      if ← eat "noexcept" then
        if ← isNext "(" then discard <| balanced "(" ")"
      return some (name, .unexposed (result.spelling ++ " (*)(" ++ Token.spell arguments ++ ")")) :
        Parser (Option (String × NativeType))) T :=
    fun name => (Leads.expect ")").any.bind fun _ => (balanced_advances _ _).any.bind fun _ =>
      .eat_bind (fun _ _ _ => enclosed_advances (.pure not_false)) (.pure not_false)
  cases name? with
  | none => exact (Leads.pure not_false).bind hrest
  | some name => exact (Leads.advance 1).bind fun _ => (Leads.pure not_false).bind hrest

theorem skipAttributes_advances : skipAttributes.Advances T := by
  refine .loop fun _ _ _ => .isNext_bind fun _ => .ite (fun _ => ?_) fun _ => .pure not_false
  exact skipAttribute_advances.anywhere.behind fun _ _ _ _ => .pure not_false

theorem decayedArrays_advances (type : NativeType) : (decayedArrays type).Advances T := by
  refine .loop fun type _ _ => .isNext_bind fun _ => .ite (fun _ => ?_) fun _ => .pure not_false
  exact (balanced_advances _ _).discard.anywhere.behind fun _ _ _ _ => .pure not_false

theorem parameter_advances : parameter.Advances T := by
  refine .eat_bind (fun _ _ _ => .pure not_false)
    (skipAttributes_advances.bind fun _ => type_advances.any.bind fun written => ?_)
  have hrest : ∀ named : String × NativeType, Advances (do
      let type ← decayedArrays named.2
      let default? ←
        if ← eat "=" then
          let run ← upTo [",", ")"]
          pure (some (Token.spell run))
        else pure none
      return { name := named.1, type, default? } : Parser Parameter) T :=
    fun named => (decayedArrays_advances named.2).bind fun _ =>
      .eat_bind (fun _ _ _ => (upTo_advances _).bind fun _ => (Leads.pure not_false).bind fun _ =>
        .pure not_false)
        ((Leads.pure not_false).bind fun _ => .pure not_false)
  refine (functionPointer?_advances written).bind fun pointer? => ?_
  cases pointer? with
  | some pointer => exact (Leads.pure not_false).bind hrest
  | none =>
    refine .identifier?_bind fun name? => ?_
    cases name? with
    | some name => exact (Leads.advance 1).bind fun _ => (Leads.pure not_false).bind hrest
    | none => exact (Leads.pure not_false).bind hrest

theorem parameters_advances : parameters.Advances T fun _ => True := by
  refine (Leads.expect "(").behind fun _ _ _ _ => .eat_bind (fun _ _ _ => .pure not_false) ?_
  refine .isNext_bind fun _ => .isAt_bind fun _ => .ite (fun _ => (Leads.advance 2).bind fun _ =>
    .pure not_false) fun _ => ?_
  refine .loop fun found _ _ => parameter_advances.bind fun p =>
    .eat_bind (fun _ _ _ => .pure not_false) ?_
  exact (Leads.expect ")").any.bind fun _ => .pure not_false

theorem skipInitializers_advances : skipInitializers.Advances T := by
  refine .loop fun _ _ _ => .isNext_bind fun _ => .ite (fun _ => .pure not_false) fun _ => ?_
  refine Leads.next.behind fun t _ _ _ => .isNext_bind fun _ => .ite (fun _ => ?_) fun _ => ?_
  · exact (balanced_advances _ _).discard.any.bind fun _ => .pure not_false
  · refine .isNext_bind fun _ => .ite (fun _ => ?_) fun _ => .pure not_false
    exact (balanced_advances _ _).discard.any.bind fun _ => .pure not_false

theorem functionTail_advances (d : Declaration) : (functionTail d).Advances T := by
  refine .loop fun d T₁ _ => .text_bind fun word => ?_
  -- Every word that does not end the declaration is passed over.
  have hpast : ∀ {word : String} {f : Unit → Parser (Declaration ⊕ Declaration)}, word ≠ "" →
      (∀ {T}, (f ()).Advances T) →
        Advances (advance 1 >>= f) T₁ (Sum.elim (fun _ => True) fun _ => False)
        fun tokens => word = tokens.head?.elim "" Token.text :=
    fun hword hf => (Leads.advance_of_word hword).behind fun _ _ _ _ => hf
  split
  case h_1 | h_4 | h_5 | h_6 | h_7 | h_8 => exact hpast (by decide) (.pure not_false)
  case h_2 | h_3 => exact hpast (by decide) (enclosed_advances (.pure not_false))
  case h_9 => exact hpast (by decide) (type_advances.any.bind fun _ => .pure not_false)
  case h_10 =>
    refine hpast (by decide) (Leads.next.any.bind fun t => ?_)
    split <;> exact .pure not_false
  case h_11 => exact hpast (by decide) (skipInitializers_advances.bind fun _ => .pure not_false)
  case h_12 =>
    exact (balanced_advances _ _).discard.any.bind fun _ => (Leads.eat ";").any.discard.bind
      fun _ => .pure not_false
  case h_13 => exact (Leads.advance 1).bind fun _ => .pure not_false
  case h_14 => exact .failFound nofun

theorem functionRest_advances (d : Declaration) (flags : Flags) :
    (functionRest d flags).Advances T fun _ => True :=
  parameters_advances.behind fun _ _ _ _ => (functionTail_advances _).bind fun _ => .pure not_false

theorem destructor_advances (flags : Flags) : (destructor flags).Advances T fun _ => True :=
  (Leads.advance 1).bind fun _ => Leads.identifier.behind fun _ _ _ _ =>
      (balanced_advances _ _).discard.any.bind fun _ =>
    (functionTail_advances _).bind fun _ => .pure not_false

theorem constructor_advances (inClass : String) (flags : Flags) :
    (constructor inClass flags).Advances T fun _ => True :=
  (Leads.advance 1).bind fun _ => functionRest_advances _ flags

theorem conversion_advances (flags : Flags) : (conversion flags).Advances T fun _ => True :=
  (Leads.advance 1).bind fun _ => type_advances.behind fun _ _ _ _ =>
    (functionRest_advances _ flags).any

theorem specifiers_advances : specifiers.Advances T := by
  refine .loop fun flags _ _ => .isNext_bind fun _ => .ite (fun _ => ?_) fun _ =>
    .identifier?_bind fun name? => ?_
  · exact skipAttribute_advances.anywhere.behind fun _ _ _ _ => .pure not_false
  · split
    · rename_i hflag
      obtain ⟨name, rfl, -⟩ := Option.bind_eq_some_iff.mp hflag
      exact (Leads.advance_of_ne fun _ hne => hne rfl).behind fun _ _ _ _ => .pure not_false
    · exact .pure not_false

theorem operatorName_advances : operatorName.Advances T := by
  refine (Leads.advance 1).bind fun _ => .loop fun name _ _ => .isNext_bind fun _ =>
    .ite (fun _ => .pure not_false) fun _ => ?_
  refine Leads.next.behind fun t _ _ _ => .ite (fun _ => ?_) fun _ => .pure not_false
  exact (Leads.expect ")").any.bind fun _ => .pure not_false

theorem arrayBounds_advances (type : NativeType) : (arrayBounds type).Advances T := by
  refine .loop fun type _ _ => .isNext_bind fun _ => .ite (fun _ => ?_) fun _ => .pure not_false
  exact (balanced_advances _ _).anywhere.behind fun _ _ _ _ => .pure not_false

theorem initializer?_advances : initializer?.Advances T := by
  refine .eat_bind (fun _ _ _ => (upTo_advances _).bind fun _ => .pure not_false)
    (.isNext_bind fun _ => .ite (fun _ => ?_) fun _ => ?_)
  · exact (balanced_advances _ _).any.bind fun _ => .pure not_false
  · exact .pure not_false

theorem variableRest_advances (inClass : Option String) (name : String) (type : NativeType)
    (flags : Flags) :
    (variableRest inClass name type flags).Advances T := by
  refine (arrayBounds_advances type).bind fun type => .eat_bind (fun _ _ _ => ?_) ?_
  · exact (upTo_advances _).discard.bind fun _ => (Leads.pure not_false).bind fun _ =>
        initializer?_advances.bind fun _ =>
      .pure not_false
  · exact (Leads.pure not_false).bind fun _ => initializer?_advances.bind fun _ => .pure not_false

/-- Declarators are read behind the beginning of their statement, and where they are not understood
the statement is passed over from its beginning. -/
theorem declarators_leads (certain : Prop) (inClass : Option String) (flags : Flags)
    (shared : NativeType) {start : List Token}
    (hT : T <:+ start) (hlength : T.length < start.length)
    (hstarts : certain → Token.Starts start) :
    Leads (declarators inClass flags shared start) (declarators inClass flags shared start) T
      (Ahead start fun _ => certain) := by
  refine .loop_to fun (type, found) T₁ h₁ => ?_
  have hlength₁ := h₁.length_le
  let left : (NativeType × List Declaration) ⊕ List Declaration → List Token → Prop :=
    Sum.elim (fun _ rest => rest <:+ T₁ ∧ rest.length < T₁.length) (Ahead start fun _ => certain)
  have hdone : ∀ (ds : List Declaration) {T₂ : List Token}, T₂ <:+ T₁ →
      Leads (done ds : Parser ((NativeType × List Declaration) ⊕ List Declaration))
          (done ds) T₂ left := by
    refine fun ds T₂ h₂ => .give fun tokens htokens _ => ⟨((htokens.trans h₂).trans h₁).trans hT,
      fun _ => ?_⟩
    have := (htokens.trans h₂).length_le
    omega
  refine .isNext_bind fun _ => .ite (fun _ => ?_) fun _ => ?_
  · exact Leads.anywhere (operatorName_advances.bind fun name =>
        (functionRest_advances _ flags).any.bind fun d =>
      hdone _ List.suffix_rfl)
  · refine Leads.anywhere ((functionPointer?_advances type).bind fun pointer? => ?_)
    cases pointer? with
    | some pointer => exact endDeclaration_advances.bind fun _ => hdone _ List.suffix_rfl
    | none =>
      refine .identifier?_bind fun name? => ?_
      cases name? with
      | none =>
        refine .set_bind (T := start) List.suffix_rfl
          (.bind_of ((skipDeclaration_advances certain).conseq (fun _ _ => id) ?_) ?_ ?_)
        · rintro tokens rfl
          exact hstarts
        · intro _ _ T₂ h₂ hlength₂
          refine .give fun tokens htokens _ => ⟨htokens.trans h₂, fun _ => ?_⟩
          have := htokens.length_le
          omega
        · exact fun _ hnot => .give fun tokens htokens _ =>
            ⟨htokens, fun hcertain => absurd hcertain hnot⟩
      | some name =>
        refine (Leads.advance_of_ne fun _ hne => hne rfl).after fun _ T₂ h₂ hlength₂ => ?_
        refine .isNext_bind fun _ => .ite (fun _ => skip_advances.bind fun _ =>
          hdone _ h₂) fun _ => ?_
        refine .isNext_bind fun _ => .ite
          (fun _ => Leads.anywhere ((functionRest_advances _ flags).any.bind fun d => hdone _ h₂))
            fun _ => ?_
        refine Leads.anywhere ((variableRest_advances inClass name type flags).bind fun d =>
          .eat_to (fun T₃ h₃ hlength₃ => ?_) ?_)
        · refine (indirections_advances _).bind fun type => .give fun tokens htokens _ =>
            ⟨(htokens.trans h₃).trans h₂, ?_⟩
          have := htokens.length_le
          omega
        · exact endDeclaration_advances.bind fun _ => hdone _ h₂

/-- A member that begins with a token that can begin one is not empty. -/
theorem member_advances (certain : Prop) (inClass : Option String) :
    (member inClass).Advances T (fun _ => certain) fun tokens => certain → Token.Starts tokens := by
  refine .restart fun start _ hstarts => ?_
  refine Leads.anywhere (specifiers_advances.bind fun flags => .identifier?_bind fun name? =>
      .isAt_bind fun _ =>
    .isNext_bind fun _ => ?_)
  refine .ite (fun _ => (destructor_advances flags).anywhere.behind fun _ _ _ _ =>
    .pure not_false) fun _ => ?_
  refine .ite (fun _ => (constructor_advances _ flags).anywhere.behind fun _ _ _ _ =>
    .pure not_false) fun _ => ?_
  refine .isNext_bind fun _ => .ite
    (fun _ => (conversion_advances flags).anywhere.behind fun _ _ _ _ =>
      .pure not_false) fun _ => ?_
  refine .bind_of type_advances.attempt (fun shared? hshared T' hT' hlength =>
    ?_) fun shared? hshared => ?_
  · obtain ⟨shared, rfl⟩ := Option.isSome_iff_exists.mp hshared
    exact declarators_leads certain inClass flags shared hT' hlength hstarts
  · rw [Option.not_isSome_iff_eq_none] at hshared
    subst hshared
    refine .set_bind List.suffix_rfl
      (.either ((skipDeclaration_advances certain).conseq (fun _ _ => id) ?_) ?_ ?_)
    · rintro _ rfl
      exact hstarts
    · exact fun _ _ _ _ _ => .pure not_false
    · exact fun _ hnot => .pure hnot

theorem templateParameters_advances : templateParameters.Advances T fun _ => True := by
  refine (Leads.expect "<").behind fun _ T' _ _ => ?_
  have hgroups : (takeRun (Token.angleGroups 0 []) .unexpectedEnd).Advances T' :=
    .takeRun (fun tokens _ _ => Token.angleGroups_suffix tokens) nofun
  exact hgroups.bind fun _ => .pure not_false

theorem classNames_advances : classNames.Advances T := by
  refine .loop fun found _ _ => .isNext_bind fun _ => .ite (fun _ => ?_) fun _ =>
    .identifier?_bind fun name? => ?_
  · exact skipAttribute_advances.anywhere.behind fun _ _ _ _ => .pure not_false
  · cases name? with
    | none => exact .pure not_false
    | some name =>
      refine (Leads.advance_of_ne fun _ hne => hne rfl).behind fun _ _ _ _ => .isNext_bind fun _ =>
        .ite (fun _ => ?_) fun _ => ?_
      · exact (balanced_advances _ _).discard.any.bind fun _ => .pure not_false
      · refine Leads.anywhere
            (.bind (.loop fun name _ _ => .eat_bind (fun _ _ _ => ?_) (.pure not_false)) fun _ =>
          .pure not_false)
        exact Leads.identifier.any.bind fun _ => .pure not_false

theorem baseClasses_advances (access : Access) : (baseClasses access).Advances T := by
  have hbase : ∀ {T}, (baseClass access).Advances T :=
    (words_advances _).any.bind fun _ => Leads.line.bind fun _ => type_advances.any.bind fun _ =>
      .pure not_false
  refine .eat_bind (fun _ _ _ => .loop fun found _ _ => ?_) (.pure not_false)
  exact hbase.bind fun _ => .eat_bind (fun _ _ _ => .pure not_false) (.pure not_false)

/-- Enumerators are read to their end. -/
theorem enumerators_advances : enumerators.Advances T := by
  refine .loop fun found T' _ => .isNext_bind fun _ => .ite (fun _ => .pure not_false) fun _ => ?_
  refine Leads.line.bind fun line => Leads.identifier.behind fun name _ _ _ => ?_
  have hrest : ∀ {T} (value? : Option String), Advances (do
      let found := { kind := .enumerator, name, value?, line } :: found
      if ← eat "," then again found else done found.reverse :
          Parser (List Declaration ⊕ List Declaration)) T :=
    fun value? => .eat_bind (fun _ _ _ => .pure not_false) (.pure not_false)
  exact .eat_bind (fun _ _ _ => (upTo_advances _).bind fun _ => (Leads.pure not_false).bind hrest)
    ((Leads.pure not_false).bind hrest)

end Parser

end Interop.Header
