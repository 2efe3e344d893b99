import Interop.Proofs.Header.Consuming
import Interop.Proofs.Header.Success

namespace Interop.Header

namespace Token

variable {t : Token} {tokens tail run rest : List Token}

/-- Whether a token is the keyword of a `using`. -/
def isUsing (t : Token) : Bool :=
  t.kind == .identifier && t.text == "using"

theorem isUsing_of_text (h : t.text ≠ "using") : t.isUsing = false := by
  simp [isUsing, h]

/-- Whether what is left of some tokens stands behind another token than the keyword of a `using`,
or begins with another one than the keyword of a namespace. -/
inductive Ended (tokens : List Token) : List Token → Prop
  | behind {t : Token} {rest : List Token} (h : t :: rest <:+ tokens) (ht : t.isUsing = false) :
    Ended tokens rest
  | before {rest : List Token} (h : rest <:+ tokens) (ht : ∀ t ∈ rest.head?,
    t.text ≠ "namespace") : Ended tokens rest

theorem Ended.suffix (h : Ended tokens rest) : rest <:+ tokens := by
  cases h with
  | behind h => exact (List.suffix_cons _ rest).trans h
  | before h => exact h

/-- What has ended in fewer tokens has ended in more. -/
theorem Ended.mono {T : List Token} (h : Ended tokens rest) (htokens : tokens <:+ T) :
    Ended T rest := by
  cases h with
  | behind h ht => exact .behind (h.trans htokens) ht
  | before h ht => exact .before (h.trans htokens) ht

theorem Ended.cons (h : Ended tail rest) (t : Token) : Ended (t :: tail) rest :=
  h.mono (List.suffix_cons t tail)

/-- What is left behind a mark has ended. -/
theorem Ended.of_text {T : List Token} (h : t :: rest <:+ T) (ht : t.text ≠ "using") :
    Ended T rest :=
  .behind h (isUsing_of_text ht)

/-- What is left behind the next token has ended if that token's text is known. -/
theorem Ended.of_head {text : String} (hsome : text ≠ "") (h : text ≠ "using")
    (htext : tokens.head?.elim "" Token.text = text) : Ended tokens (tokens.drop 1) := by
  cases tokens with
  | nil => exact absurd htext.symm hsome
  | cons t tail =>
    have ht : t.text = text := htext
    exact .of_text List.suffix_rfl (ht ▸ h)

/-- A balanced run ends behind its closing mark, which may not be the keyword of a using. -/
theorem balancedRun_ended {opening closing : String} (hclosing : closing ≠ "using") {depth : Nat}
    (h : balancedRun opening closing depth tokens = some (run, rest)) : Ended tokens rest := by
  fun_induction balancedRun opening closing depth tokens generalizing run with
  | case1 => cases h
  | case2 _ t tail _ ih | case4 t tail _ _ _ ih | case5 _ t tail _ _ ih =>
    obtain ⟨⟨run', rest'⟩, hrun, heq⟩ := Option.map_eq_some_iff.mp h
    cases heq
    exact (ih hrun).cons t
  | case3 t tail _ hclose =>
    cases h
    exact .of_text List.suffix_rfl (hclose ▸ hclosing)

/-- A run ends before a stop, which may not be the keyword of a namespace. -/
theorem runUntil_ended {stops : List String} (hstops : "namespace" ∉ stops) {depth : Nat}
    (h : runUntil stops depth tokens = some (run, rest)) : Ended tokens rest := by
  fun_induction runUntil stops depth tokens generalizing run with
  | case1 => cases h
  | case2 depth t tail hstop =>
    cases h
    refine .before List.suffix_rfl fun u hu => ?_
    cases hu
    exact fun htext => hstops (htext ▸ hstop.2)
  | case4 t tail _ hclose _ =>
    cases h
    refine .before List.suffix_rfl fun u hu => ?_
    cases hu
    exact fun htext => absurd hclose (by rw [htext]; decide)
  | case3 _ t tail _ _ ih | case5 t tail _ _ _ _ ih | case6 _ t tail _ _ _ ih =>
    obtain ⟨⟨run', rest'⟩, hrun, heq⟩ := Option.map_eq_some_iff.mp h
    cases heq
    exact (ih hrun).cons t

/-- What is skipped ends behind a semicolon or a brace, or in front of a brace. -/
theorem pastDeclaration_ended {brackets braces : Nat}
    (h : pastDeclaration brackets braces tokens = some rest) :
    Ended tokens rest := by
  fun_induction pastDeclaration brackets braces tokens with
  | case1 =>
    cases h
    exact .before List.suffix_rfl nofun
  | case2 => cases h
  | case6 brackets t tail hopen hclose hbrace hscope =>
    cases h
    refine .before List.suffix_rfl fun u hu => ?_
    cases hu
    simp [hscope.1]
  | case7 brackets t tail hopen hclose hbrace hscope hsemicolon =>
    cases h
    exact .of_text List.suffix_rfl (by simp [hsemicolon.1])
  | case10 brackets braces t tail hbrace hclose hlast =>
    cases h
    have hbehind : Ended (t :: tail) tail := .of_text List.suffix_rfl (by simp [hclose])
    unfold pastOptional
    split
    · exact hbehind
    · split
      · rename_i first rest hfirst
        exact .of_text (List.suffix_cons t _) (by simp [hfirst])
      · exact hbehind
  | case3 _ t _ _ ih | case4 _ t _ _ _ ih | case5 _ t _ _ _ _ ih | case8 _ t _ _ _ _ _ _ ih
  | case9 _ _ t _ _ ih
  | case11 _ _ t _ _ _ _ ih | case12 _ _ t _ _ _ ih => exact (ih h).cons t

/-- Groups in angle brackets end behind a bracket. -/
theorem angleGroups_ended {depth : Nat} {group : List Token} {groups : List (List Token)}
    (h : angleGroups depth group tokens = some (groups, rest)) : Ended tokens rest := by
  fun_induction angleGroups depth group tokens generalizing groups with
  | case1 => cases h
  | case3 group t tail _ hclose =>
    cases h
    exact .of_text List.suffix_rfl (by simp [hclose])
  | case5 depth group t tail _ _ _ ih =>
    obtain ⟨⟨groups', rest'⟩, hgroups, heq⟩ := Option.map_eq_some_iff.mp h
    cases heq
    exact (ih hgroups).cons t
  | case2 _ _ t _ _ ih | case4 _ t _ _ _ _ ih | case6 _ _ t _ _ _ _ ih => exact (ih h).cons t

end Token

namespace Parser

open Token

variable {α β : Type} {T : List Token} {M memory : Memory}

/-- Whether what a parser leaves has ended if what it returns satisfies `q`, for a parser that only
takes tokens. -/
def Ends (p : Parser α) (T : List Token) (M : Memory) (q : α → Prop := fun _ => True) : Prop :=
  Triple (fun tokens memory => tokens <:+ T ∧ memory = M) p
    (fun a rest memory => (rest <:+ T ∧ (q a → Ended T rest)) ∧ memory = M) fun memory => memory = M

namespace Ends

variable {p : Parser α} {q : α → Prop} {q' : β → Prop}

/-- A parser ends if what it leaves on success has ended. -/
theorem of_ended {q : α → Prop} (h : p.Consumes T M)
    (hended : ∀ {line tokens memory a rest memory'},
      p.outcome line tokens memory = (.ok (a, rest), memory') → q a →
      Ended tokens rest) : p.Ends T M q :=
  ⟨fun hpre hrun => ⟨⟨(h.of_ok hpre hrun).1, fun ha => (hended hrun ha).mono hpre.1⟩,
    (h.of_ok hpre hrun).2⟩, h.of_error⟩

/-- What follows a parser that only takes tokens ends where it ended. -/
theorem after {f : α → Parser β} (h : p.Consumes T M) (hf : ∀ a, (f a).Ends T M q') :
    (p >>= f).Ends T M q' :=
  Triple.bind h hf

theorem get_bind {f : List Token → Parser β} (h : ∀ start, start <:+ T → (f start).Ends T M q') :
    Ends (get >>= f) T M q' :=
  Triple.get_bind fun start _ hstart => (h start hstart.1).at_start hstart

theorem ite {c : Prop} [Decidable c] {r : Parser α} (h : p.Ends T M q) (hr : r.Ends T M q) :
    (if c then p else r).Ends T M q := by
  split
  · exact h
  · exact hr

/-- A repetition that is not the last one ends nothing. -/
theorem again (a : α) : (Parser.again a : Parser (α ⊕ β)).Ends T M (·.isRight = true) :=
  Triple.pure fun _ _ hstart => ⟨⟨hstart.1, nofun⟩, hstart.2⟩

/-- What is returned behind the end. -/
theorem returning (h : p.Ends T M) (g : α → β) : (p >>= fun a => pure (g a)).Ends T M q' :=
  Triple.bind h fun _ => .pure fun _ _ hpre => ⟨⟨hpre.1.1, fun _ => hpre.1.2 trivial⟩, hpre.2⟩

theorem eat {text : String} (h : text ≠ "using") : (Parser.eat text).Ends T M (· = true) := by
  refine .of_ended (.eat text) fun hrun htaken => ?_
  obtain ⟨hrest, -⟩ := outcome_eat_eq_ok.mp hrun
  rw [if_pos htaken] at hrest
  obtain ⟨t, ht, rfl⟩ := hrest
  exact .of_text List.suffix_rfl (ht ▸ h)

/-- A mark that ends what is read, or else something that ends. -/
theorem eat_or {text : String} (htext : text ≠ "using") {a : α} (h : p.Ends T M q) :
    Ends (do if ← Parser.eat text then return a else p) T M q := by
  refine Triple.bind (eat htext) fun taken => ?_
  cases taken with
  | true => exact .pure fun _ _ hpre => ⟨⟨hpre.1.1, fun _ => hpre.1.2 rfl⟩, hpre.2⟩
  | false =>
    exact Triple.conseq h (fun _ _ hpre => ⟨hpre.1.1, hpre.2⟩) (fun _ _ _ => id) fun _ => id

/-- An optional mark behind the end is part of the end. -/
theorem optional {text : String} (htext : text ≠ "using") (h : p.Ends T M) (g : α → β) :
    Ends (do
      let a ← p
      discard <| Parser.eat text
      return g a) T M q' := by
  refine Triple.bind h fun a => ⟨fun hpre hrun => ?_, fun hpre hrun => ?_⟩
  · obtain ⟨_, _, _, hdiscard, hpure⟩ := outcome_bind_eq_ok.mp hrun
    obtain ⟨taken, htaken⟩ := outcome_discard_eq_ok.mp hdiscard
    obtain ⟨hrest, rfl⟩ := outcome_eat_eq_ok.mp htaken
    cases hpure
    cases taken with
    | true =>
      obtain ⟨t, ht, rfl⟩ := hrest
      have hended := Ended.of_text hpre.1.1 (ht ▸ htext)
      exact ⟨⟨hended.suffix, fun _ => hended⟩, hpre.2⟩
    | false =>
      obtain ⟨rfl, -⟩ := hrest
      exact ⟨⟨hpre.1.1, fun _ => hpre.1.2 trivial⟩, hpre.2⟩
  · exact ((Consumes.eat text).discard.bind fun _ => .pure (g a)).of_error ⟨hpre.1.1, hpre.2⟩ hrun

theorem takeRun {run? : List Token → Option (α × List Token)} {cause : SyntaxCause}
    (h : ∀ {tokens run rest}, run? tokens = some (run, rest) → Ended tokens rest) :
    (Parser.takeRun run? cause).Ends T M :=
  .of_ended (.takeRun fun _ _ _ hrun => (h hrun).suffix) fun hrun _ =>
    h (outcome_takeRun_eq_ok.mp hrun).1

theorem expect {expected : String} (h : expected ≠ "using") :
    (Parser.expect expected).Ends T M := by
  refine .of_ended (.expect expected) fun hrun _ => ?_
  obtain ⟨⟨t, ht, rfl⟩, -⟩ := outcome_expect_eq_ok.mp hrun
  exact .of_text List.suffix_rfl (ht ▸ h)

theorem fail (cause : SyntaxCause) : (Parser.fail cause : Parser α).Ends T M q := by
  refine .of_ended (.fail cause) ?_
  intro line tokens memory a rest memory' hrun
  cases tokens <;> cases hrun

theorem failFound (cause : Option String → SyntaxCause) :
    (Parser.failFound cause : Parser α).Ends T M q :=
  .after .peek? fun _ => fail _

/-- A loop ends if its last step does. -/
theorem loop {start : α} {step : α → Parser (α ⊕ β)}
    (h : ∀ a, (step a).Ends T M (·.isRight = true)) :
    (Parser.loop start step).Ends T M := by
  refine Triple.loop (I := fun _ tokens memory => tokens <:+ T ∧
    memory = M) (fun _ _ _ => And.right) fun a => ?_
  refine Triple.conseq (h a) (fun _ _ => id) (fun next _ _ hnext => ?_) fun _ => id
  cases next with
  | inl a => exact ⟨hnext.1.1, hnext.2⟩
  | inr b => exact ⟨⟨hnext.1.1, fun _ => hnext.1.2 rfl⟩, hnext.2⟩

end Ends

theorem balanced_ends (opening : String) {closing : String} (h : closing ≠ "using") :
    (balanced opening closing).Ends T M :=
  .after (.expect opening) fun _ => .takeRun (balancedRun_ended h)

theorem upTo_ends {stops : List String} (h : "namespace" ∉ stops) : (upTo stops).Ends T M :=
  .takeRun (runUntil_ended h)

/-- A skipped declaration ends. -/
theorem skipDeclaration_ends : skipDeclaration.Ends T M := by
  refine .takeRun fun {tokens run rest} h => ?_
  obtain ⟨rest', hrest, heq⟩ := Option.map_eq_some_iff.mp h
  cases heq
  exact pastDeclaration_ended hrest

theorem endDeclaration_ends : endDeclaration.Ends T M :=
  .eat_or (by decide) skipDeclaration_ends

/-- The next token is passed over at the end if its text is known. -/
theorem advance_ends {text : String} (hsome : text ≠ "") (h : text ≠ "using") {start : List Token}
    (hstart : start <:+ T ∧ memory = M) (htext : start.head?.elim "" Token.text = text) (b : β)
    {q : β → Prop} :
    Triple (fun tokens memory' => tokens = start ∧ memory' = memory)
      (do
        advance 1
        return b)
      (fun b rest memory' => (rest <:+ T ∧ (q b → Ended T rest)) ∧
          memory' = M) fun memory' => memory' = M := by
  have hended := (Ended.of_head hsome h htext).mono hstart.1
  exact .step (fun _ => outcome_advance 1) (.pure_at ⟨⟨hended.suffix, fun _ => hended⟩, hstart.2⟩)

theorem functionTail_ends (d : Declaration) : (functionTail d).Ends T M := by
  refine .loop fun d => .from_start fun start memory hstart => .step (fun _ => outcome_text) ?_
  split
  case h_1 | h_4 | h_5 | h_6 | h_7 | h_8 =>
    exact (Ends.after (.advance 1) fun _ => .again _).at_start hstart
  case h_2 | h_3 =>
    refine (Ends.after (.advance 1) fun _ => .after (.isNext "(") fun _ =>
      .ite ?_ (.again d)).at_start hstart
    exact .after (balanced_consumes _ _).discard fun _ => .again d
  case h_9 =>
    exact (Ends.after (.advance 1) fun _ => .after type_consumes fun _ => .again _).at_start hstart
  case h_10 =>
    refine (Ends.after (.advance 1) fun _ => .after .next fun mark => ?_).at_start hstart
    split <;> exact .again _
  case h_11 =>
    exact (Ends.after (.advance 1) fun _ => .after skipInitializers_consumes fun _ =>
      .again d).at_start hstart
  case h_12 =>
    have hbody : (discard <| balanced "\x7b" "\x7d").Ends T M :=
      (balanced_ends _ (by decide)).returning _
    exact (hbody.optional (by decide) _).at_start hstart
  case h_13 htext => exact advance_ends (by decide) (by decide) hstart htext _
  case h_14 => exact (Ends.failFound _).at_start hstart

theorem functionRest_ends (d : Declaration) (flags : Flags) : (functionRest d flags).Ends T M :=
  .after parameters_consumes fun _ => (functionTail_ends _).returning _

theorem destructor_ends (flags : Flags) : (destructor flags).Ends T M :=
  .after (.advance 1) fun _ => .after .identifier fun _ => .after (balanced_consumes _ _).discard
      fun _ =>
    (functionTail_ends _).returning _

theorem constructor_ends (name : String) (flags : Flags) : (constructor name flags).Ends T M :=
  .after (.advance 1) fun _ => functionRest_ends _ flags

theorem conversion_ends (flags : Flags) : (conversion flags).Ends T M :=
  .after (.advance 1) fun _ => .after type_consumes fun _ => functionRest_ends _ flags

/-- The last declarator ends, also when the first one is read again for its type. -/
theorem declarators_ends (inClass : Option String) (flags : Flags) (shared : NativeType)
    {start : List Token} (hstart : start <:+ T) :
    (declarators inClass flags shared start).Ends T M := by
  refine .loop fun (type, found) => .after (.isNext "operator") fun _ => .ite ?_ ?_
  · exact .after operatorName_consumes fun _ => (functionRest_ends _ flags).returning _
  · refine .after (functionPointer?_consumes type) fun pointer? => ?_
    cases pointer? with
    | some pointer => exact endDeclaration_ends.returning _
    | none =>
      refine .after .identifier? fun name? => ?_
      cases name? with
      | none => exact .after (.set hstart) fun _ => skipDeclaration_ends.returning _
      | some name =>
        refine .after (.advance 1) fun _ => .after (.isNext "::") fun _ =>
          .ite (skipDeclaration_ends.returning _) ?_
        refine .after (.isNext "(") fun _ => .ite ((functionRest_ends _ flags).returning _) ?_
        refine .after (variableRest_consumes _ _ _ _) fun d => .after (.eat ",") fun _ => .ite ?_ ?_
        · exact .after (indirections_consumes _) fun _ => .again _
        · exact endDeclaration_ends.returning _

/-- What is neither a scope nor a type ends. -/
theorem member_ends (inClass : Option String) : (member inClass).Ends T M := by
  refine .get_bind fun start hstart => .after specifiers_consumes fun flags =>
    .after .identifier? fun name? => ?_
  refine .after (.isAt 1 "(") fun _ => .after (.isNext "~") fun _ =>
    .ite ((destructor_ends flags).returning _) ?_
  refine .ite ((constructor_ends _ flags).returning _) (.after (.isNext "operator") fun _ =>
    .ite ?_ ?_)
  · exact (conversion_ends flags).returning _
  · refine .after type_consumes.attempt fun shared? => ?_
    cases shared? with
    | some shared => exact declarators_ends inClass flags shared hstart
    | none => exact .after (.set hstart) fun _ => skipDeclaration_ends.returning _

theorem staticAssertion_ends : staticAssertion.Ends T M :=
  .after (.advance 1) fun _ => (balanced_ends _ (by decide)).optional (by decide) _

end Parser

end Interop.Header
