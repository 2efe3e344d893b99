import Interop.Proofs.Header.Consuming
import Interop.Proofs.Header.Operators
import Interop.Proofs.Header.TypeSteps

namespace Interop.Header.Parser

open Token

variable {line : Nat} {memory : Memory} {t closing : Token} {run rest : List Token}
    {type : NativeType} {lead : String}

/-- Whether tokens may stand behind the arguments of a template: a member of the instance, and what
may stand behind a base type. -/
inductive ContinuesInstance : List Token → Prop
  | here {tokens : List Token} (h : Continues tokens) : ContinuesInstance tokens
  | member {colons name : Token} {tokens : List Token} (hcolons : colons.text = "::")
      (hname : name.kind = .identifier)
      (h : Continues tokens) : ContinuesInstance (colons :: name :: tokens)

/-- Whether a run is what is left of another one when some of it has been taken, and is
bracketed. -/
structure Left (left run : List Token) : Prop where
  suffix : left <:+ run
  bracketed : Bracketed (fun _ => True) left

/-- What is left of what is left is left of the whole. -/
theorem Left.trans {left between run : List Token} (h : Left left between)
    (h' : Left between run) : Left left run :=
  ⟨h.suffix.trans h'.suffix, h.bracketed⟩

theorem Left.tail (h : Bracketed (fun _ => True) (t :: run)) (ht : isOpening t.text = false) :
    Left run (t :: run) :=
  ⟨List.suffix_cons t run, h.tail ht⟩

/-- Tokens that open no brackets may be dropped from the front. -/
theorem Left.dropWhile (f : Token → Bool) (hf : ∀ t, f t = true → isOpening t.text = false)
    (h : Bracketed (fun _ => True) run) : Left (run.dropWhile f) run := by
  induction run with
  | nil => exact ⟨List.suffix_rfl, h⟩
  | cons t run ih =>
    cases ht : f t with
    | true =>
      rw [List.dropWhile_cons_of_pos ht]
      have htail := Left.tail h (hf t ht)
      exact (ih htail.bracketed).trans htail
    | false =>
      rw [List.dropWhile_cons_of_neg (by simp [ht])]
      exact ⟨List.suffix_rfl, h⟩

theorem Left.behindRow (h : Bracketed (fun _ => True) run) : Left (behindRow run) run :=
  .dropWhile _ (fun t ht => by
    rw [Bool.or_eq_true, beq_iff_eq, beq_iff_eq] at ht
    rcases ht with ht | ht <;> rw [ht] <;> decide) h

theorem not_qualifier_closing (hclosing : closing.text = ">") (rest : List Token) :
    ∀ t ∈ (closing :: rest).head?, ¬IsQualifier t := by
  intro t ht
  obtain rfl := Option.some.inj ht
  simp [IsQualifier, hclosing]

/-- The operators behind a type end in front of a closing bracket at the latest. -/
theorem loops_indirection_front (hclosing : closing.text = ">") (h : Bracketed (fun _ => True) run)
    (type : NativeType) :
    ∃ result left, Left left run ∧ ∀ rest,
      Loops indirection line result (left ++ closing :: rest) memory type (run ++ closing ::
          rest) memory := by
  induction hlength : run.length using Nat.strong_induction_on generalizing run type with
  | _ length ih =>
    cases run with
    | nil => exact ⟨type, [], ⟨List.suffix_rfl, h⟩,
      fun rest => .done (by simp [indirection, hclosing, done])⟩
    | cons t run =>
      have hshorter : ∀ {left : List Token}, Left left run → left.length < length := fun hleft => by
        have hle := hleft.suffix.length_le
        rw [← hlength, List.length_cons]
        omega
      by_cases hpointer : t.text = "*"
      · have htail := Left.tail h (by rw [hpointer]; decide)
        have hbehind := Left.behindRow htail.bracketed
        obtain ⟨result, left, hleft, hloops⟩ := ih _ (hshorter hbehind) hbehind.bracketed
          ((NativeType.pointer type).qualify ((leadingRow run).any (·.text == "const"))
            ((leadingRow run).any (·.text == "volatile"))) rfl
        refine ⟨result, left, (hleft.trans hbehind).trans htail,
          fun rest => .again ?_ ?_ (hloops rest)⟩
        · simp [indirection, hpointer, again,
            outcome_qualifiers_front (not_qualifier_closing hclosing rest)]
        · have hle := hbehind.suffix.length_le
          simp
          omega
      · by_cases hreference : t.text = "&" ∨ t.text = "&&"
        · have htail := Left.tail h (by rcases hreference with h | h <;> rw [h] <;> decide)
          obtain ⟨result, left, hleft, hloops⟩ :=
            ih _ (hshorter ⟨List.suffix_rfl, htail.bracketed⟩) htail.bracketed
            (.reference type (if t.text = "&" then .lvalue else .rvalue)) rfl
          refine ⟨result, left, hleft.trans htail, fun rest => .again ?_ (by simp) (hloops rest)⟩
          rcases hreference with h | h <;> simp [indirection, h, again]
        · rw [not_or] at hreference
          refine ⟨type, t :: run, ⟨List.suffix_rfl, h⟩, fun rest => .done ?_⟩
          simp only [indirection, outcome_bind, outcome_text, List.cons_append, List.head?_cons,
            Option.elim_some]
          split
          all_goals simp_all [done]

/-- Whether in front of a closing bracket a type is read from a run alone, or nothing that an
argument could be is read: whatever may stand behind the arguments, and however deep types may nest
as long as the run fits. -/
def SettlesType (line : Nat) (memory : Memory) (closing : Token) (run : List Token) : Prop :=
  (∃ type left, Left left run ∧ ∀ bound, run.length < bound → ∀ rest, ContinuesInstance rest →
    (typeWithin bound).outcome line (run ++ closing :: rest) memory =
      (.ok (type, left ++ closing :: rest), memory)) ∨
  ∀ bound, run.length < bound → ∀ rest, ContinuesInstance rest → ∀ type behind,
    (typeWithin bound).outcome line (run ++ closing :: rest) memory = (.ok (type, behind),
      memory) → ¬EndsArgument behind

/-- Whether in front of a closing bracket the rest of a template's arguments is read, with that
bracket or one in front of it. -/
def SettlesArguments (line : Nat) (memory : Memory) (closing : Token) (run : List Token) : Prop :=
  ∃ arguments left, (left = [] ∨ ∃ inner, Left inner run ∧ left = inner ++ [closing]) ∧
    ∀ bound, run.length < bound → ∀ found rest, ContinuesInstance rest →
      Loops (argumentStep (typeWithin bound)) line (found.reverse ++ arguments)
        (left ++ rest) memory found
        (run ++ closing :: rest) memory

/-- Reading a type records nothing. -/
theorem memory_of_typeWithin {bound : Nat} {result : Except SyntaxError (NativeType × List Token)}
    {memory' : Memory} (h : (typeWithin bound).outcome line tokens memory = (result, memory')) :
    memory' = memory := by
  have hconsumes := @typeWithin_consumes tokens memory bound
  cases result with
  | ok taken => exact (hconsumes.of_ok ⟨List.suffix_rfl, rfl⟩ h).2
  | error e => exact hconsumes.of_error ⟨List.suffix_rfl, rfl⟩ h

/-- In front of a closing bracket an argument is read up to what parts or ends the arguments. -/
theorem argumentStep_front (hclosing : closing.text = ">") (h : Bracketed (fun _ => True) run)
    (htype : SettlesType line memory closing run) :
    ∃ argument left, Left left run ∧ EndsArgument (left ++ [closing]) ∧
      ∀ bound, run.length < bound → ∀ found rest, ContinuesInstance rest →
        (argumentStep (typeWithin bound) found).outcome line (run ++ closing :: rest) memory =
          (behindArgument found argument).outcome line (left ++ closing :: rest) memory := by
  have hhead : ∀ (left rest : List Token),
      (left ++ closing :: rest).head? = (left ++ [closing]).head? := by
    intro left rest
    cases left <;> rfl
  have hendsArgument : ∀ left rest : List Token,
      EndsArgument (left ++ closing :: rest) ↔ EndsArgument (left ++ [closing]) := by
    intro left rest
    rw [EndsArgument, EndsArgument, hhead]
  have hstarts : ∀ rest, startsType (run ++ closing :: rest) = startsType (run ++ [closing]) := by
    intro rest
    rw [startsType, startsType, hhead]
  by_cases hends : startsType (run ++ [closing]) = true ∧ ∃ type left, Left left run ∧
      EndsArgument (left ++ [closing]) ∧ ∀ bound, run.length < bound →
        ∀ rest, ContinuesInstance rest →
          (typeWithin bound).outcome line (run ++ closing :: rest) memory =
          (.ok (type, left ++ closing :: rest), memory)
  · obtain ⟨hstart, type, left, hleft, hends, hreads⟩ := hends
    refine ⟨type, left, hleft, hends, fun bound hbound found rest hrest => ?_⟩
    exact argumentStep_of_type ((hstarts rest).trans hstart) (hreads bound hbound rest hrest)
      ((hendsArgument left rest).mpr hends)
  · obtain ⟨before, behind, hbehind, hsuffix, hstop, hrun⟩ :=
      exists_runUntil [",", ">"] h (by decide) (show closing.text ∈ [",", ">"] by simp [hclosing])
    have hstopped : EndsArgument (behind ++ [closing]) := by
      cases behind with
      | nil => exact ⟨closing, rfl, .inr hclosing⟩
      | cons t behind => exact ⟨t, rfl, by simpa using hstop t rfl⟩
    refine ⟨.unexposed (Token.spell before), behind, ⟨hsuffix, hbehind⟩, hstopped,
      fun bound hbound found rest hrest => ?_⟩
    have hupTo : (upTo [",", ">"]).outcome line (run ++ closing :: rest) memory =
        (.ok (before, behind ++ closing :: rest), memory) :=
      outcome_takeRun (hrun rest)
    refine (argumentStep_of_run fun hstart result memory' hparser => ?_).trans
      (outcome_bind_ok hupTo)
    obtain rfl := memory_of_typeWithin hparser
    refine ⟨rfl, fun type behind hresult hargument => ?_⟩
    rw [hresult] at hparser
    rcases htype with ⟨type', left, hleft, hreads⟩ | hnever
    · have heq := hparser.symm.trans (hreads bound hbound rest hrest)
      obtain ⟨rfl, rfl⟩ : type = type' ∧ behind = left ++ closing :: rest := by simpa using heq
      exact hends ⟨(hstarts rest).symm.trans hstart, type, left, hleft,
        (hendsArgument left rest).mp hargument, hreads⟩
    · exact hnever bound hbound rest hrest type behind hparser hargument

/-- In front of a closing bracket the rest of the arguments is read, if types are read as far as
they go. -/
theorem settlesArguments (hclosing : closing.text = ">") (h : Bracketed (fun _ => True) run)
    (htypes : ∀ left, Left left run → SettlesType line memory closing left) :
    SettlesArguments line memory closing run := by
  induction hlength : run.length using Nat.strong_induction_on generalizing run with
  | _ length ih =>
    obtain ⟨argument, left, hleft, hends, hstep⟩ :=
      argumentStep_front hclosing h (htypes run ⟨List.suffix_rfl, h⟩)
    have hle := hleft.suffix.length_le
    cases left with
    | nil =>
      -- The argument reaches up to the closing bracket.
      refine ⟨[argument], [], .inl rfl, fun bound hbound found rest hrest => .done ?_⟩
      rw [hstep bound hbound found rest hrest, List.nil_append,
        behindArgument_of_bracket found hclosing, List.reverse_cons]
      rfl
    | cons t left =>
      have htext : t.text = "," ∨ t.text = ">" := by
        obtain ⟨u, hu, htext⟩ := hends
        obtain rfl := Option.some.inj hu
        exact htext
      have htail := Left.tail hleft.bracketed (by rcases htext with h | h <;> rw [h] <;> decide)
      rcases htext with hcomma | hbracket
      · rw [List.length_cons] at hle
        obtain ⟨arguments, behind, hbehind, hloops⟩ := ih left.length (by omega) htail.bracketed
          (fun inner hinner => htypes inner (hinner.trans (htail.trans hleft))) rfl
        have hbehind' : behind = [] ∨ ∃ inner, Left inner run ∧ behind = inner ++ [closing] :=
          hbehind.imp_right fun ⟨inner, hinner, heq⟩ =>
            ⟨inner, hinner.trans (htail.trans hleft), heq⟩
        refine ⟨argument :: arguments, behind, hbehind', fun bound hbound found rest hrest => ?_⟩
        have hnext := hloops bound (by omega) (argument :: found) rest hrest
        rw [List.reverse_cons, List.append_assoc] at hnext
        refine .again ?_ ?_ hnext
        · rw [hstep bound hbound found rest hrest]
          exact behindArgument_of_comma found hcomma
        · simp
          omega
      · refine ⟨[argument], left ++ [closing], .inr ⟨left, htail.trans hleft, rfl⟩,
          fun bound hbound found rest hrest => .done ?_⟩
        rw [hstep bound hbound found rest hrest, List.cons_append,
          behindArgument_of_bracket found hbracket, List.reverse_cons,
          List.append_assoc]
        rfl

/-- In front of a closing bracket the arguments of a template are read. -/
theorem outcome_templateArguments_front {opening : Token} (hopening : opening.text = "<")
    (hclosing : closing.text = ">") (h : Bracketed (fun _ => True) run)
    (htypes : ∀ left, Left left run → SettlesType line memory closing left) :
    ∃ arguments left, (left = [] ∨ ∃ inner, Left inner run ∧ left = inner ++ [closing]) ∧
      ∀ bound, run.length < bound → ∀ rest, ContinuesInstance rest →
        (templateArguments (typeWithin bound)).outcome line
          (opening :: (run ++ closing :: rest)) memory = (.ok (arguments, left ++ rest),
              memory) := by
  cases run with
  | nil =>
    refine ⟨[], [], .inl rfl, fun bound _ rest _ => ?_⟩
    simp [templateArguments_eq, outcome_expect_of_next hopening, hclosing]
  | cons t run =>
    by_cases ht : t.text = ">"
    · have htail := Left.tail h (by rw [ht]; decide)
      refine ⟨[], run ++ [closing], .inr ⟨run, htail, rfl⟩, fun bound _ rest _ => ?_⟩
      simp [templateArguments_eq, outcome_expect_of_next hopening, ht]
    · obtain ⟨arguments, left, hleft, hloops⟩ := settlesArguments hclosing h htypes
      refine ⟨arguments, left, hleft, fun bound hbound rest hrest => ?_⟩
      have hloop := (hloops bound hbound [] rest hrest).outcome_loop
      rw [List.cons_append] at hloop
      simp [templateArguments_eq, outcome_expect_of_next hopening, ht, hloop]

/-- Whether in front of a closing bracket a name is read from a run alone, or, if a name is read at
all, with all that may belong to it behind the bracket. -/
def SettlesName (line : Nat) (memory : Memory) (closing : Token) (run : List Token)
    (lead : String) : Prop :=
  (∃ type left, Left left run ∧ ∀ bound, run.length ≤ bound → ∀ rest, ContinuesInstance rest →
    Loops (nameStep (typeWithin bound)) line type (left ++ closing :: rest) memory lead
      (run ++ closing :: rest) memory) ∨
  ∀ bound, run.length ≤ bound → ∀ rest, ContinuesInstance rest → ∀ times type behind memory',
    (loopWithin (nameStep (typeWithin bound)) times lead).outcome line
      (run ++ closing :: rest) memory = (.ok (type, behind), memory') → Continues behind

/-- Where no identifier is next, no name is read. -/
theorem settlesName_of_not_identifier (h : ∀ t ∈ run.head?, t.kind ≠ .identifier)
    (hmark : closing.kind ≠ .identifier) :
    SettlesName line memory closing run lead := by
  refine .inr fun bound _ rest _ times type behind memory' hloop => ?_
  refine absurd hloop (loopWithin_ne_ok fun next after between hstep => ?_)
  obtain ⟨name, after, between, hidentifier, -⟩ := outcome_bind_eq_ok.mp hstep
  obtain ⟨⟨t, ht, -, htokens⟩, -⟩ := outcome_identifier_eq_ok.mp hidentifier
  have hnot : ∀ u ∈ (run ++ closing :: rest).head?, u.kind ≠ .identifier :=
    forall_head_append h fun _ u hu => Option.some.inj hu ▸ hmark
  exact hnot t (by rw [htokens]; rfl) ht

/-- A name that ends in front of the bracket is read from the run alone. -/
theorem settlesName_plain (ht : t.kind = .identifier) (htail : Left run (t :: run))
    (hends : ∀ rest, EndsScopes (run ++ closing :: rest)) :
    SettlesName line memory closing (t :: run) lead := by
  obtain ⟨type, -, hplain⟩ := outcome_plainName memory (lead ++ t.text)
  refine .inl ⟨type, run, htail, fun bound _ rest _ => .done ?_⟩
  rw [List.cons_append, nameStep_plain ht (hends rest), hplain]

/-- A name with a further name behind it settles as that one does. -/
theorem settlesName_scope {colons name : Token} (ht : t.kind = .identifier)
    (hcolons : colons.text = "::") (hname : name.kind = .identifier)
    (hleft : Left (name :: run) (t :: colons :: name :: run))
    (h : SettlesName line memory closing (name :: run) (lead ++ t.text ++ "::")) :
    SettlesName line memory closing (t :: colons :: name :: run) lead := by
  rcases h with ⟨type, left, hinside, hloops⟩ | hnever
  · refine .inl ⟨type, left, hinside.trans hleft, fun bound hbound rest hrest => ?_⟩
    simp only [List.length_cons] at hbound
    exact .again (nameStep_again ht hcolons hname) (by simp)
      (hloops bound (by simp only [List.length_cons]; omega) rest hrest)
  · refine .inr fun bound hbound rest hrest times type behind memory' hloop => ?_
    simp only [List.length_cons] at hbound
    have hagain := @nameStep_again line memory t name (run ++ closing :: rest)
      (typeWithin bound) lead colons ht hcolons hname
    rcases exists_step_of_loopWithin hloop with hstep | ⟨lead', after, between, times', hstep,
      hnext⟩
    · cases hagain.symm.trans hstep
    · cases hagain.symm.trans hstep
      exact hnever bound (by simp only [List.length_cons]; omega) rest hrest times' type behind
        memory' hnext

/-- Behind the arguments that end with the bracket itself, a member of the instance may be named. -/
theorem continues_behindInstance {name : String} {arguments : List NativeType}
    {next : String ⊕ NativeType} {behind : List Token} {memory' : Memory}
    (hrest : ContinuesInstance rest)
    (h : (behindInstance name arguments).outcome line rest memory = (.ok (next, behind), memory')) :
    Continues behind ∧ ∃ type, next = .inr type := by
  cases hrest with
  | here hcontinues =>
    have hnot : ∀ t ∈ rest.head?, t.text ≠ "::" := by
      intro t ht htext
      exact (hcontinues.head t ht).2 (by simp [htext])
    rw [behindInstance_applied name arguments hnot] at h
    cases h
    exact ⟨hcontinues, _, rfl⟩
  | member hcolons hname hcontinues =>
    rw [behindInstance_member name arguments hcolons hname] at h
    cases h
    exact ⟨hcontinues, _, rfl⟩

/-- In front of a closing bracket what stands behind the arguments of an instance is read from the
run alone, or not at all. -/
theorem behindInstance_front (hclosing : closing.text = ">") (hmark : closing.kind ≠ .identifier)
    (h : Bracketed (fun _ => True) run) (hsimple : AllSimple run) (name : String)
    (arguments : List NativeType) :
    (∃ type left, Left left run ∧ ∀ rest,
      (behindInstance name arguments).outcome line (run ++ closing :: rest) memory =
        (.ok (.inr type, left ++ closing :: rest), memory)) ∨
      ∀ rest next behind memory', (behindInstance name arguments).outcome line
        (run ++ closing :: rest) memory ≠
        (.ok (next, behind), memory') := by
  rcases exists_next_or "::" run with ⟨colons, tail, rfl, hcolons⟩ | hnot
  · have htail := Left.tail h (by rw [hcolons]; decide)
    by_cases hmember : ∃ member behind, tail = member :: behind ∧ member.kind = .identifier
    · obtain ⟨member, behind, rfl, hmember⟩ := hmember
      have hplain := plain_of_identifier (hsimple member (by simp)) hmember
      exact .inl ⟨_, behind, (Left.tail htail.bracketed hplain.1).trans htail,
        fun rest => behindInstance_member name arguments hcolons hmember⟩
    · refine .inr fun rest next behind memory' hread => ?_
      obtain ⟨u, hu, htokens⟩ := behindInstance_colons hcolons hread
      cases tail with
      | nil =>
        obtain ⟨rfl, -⟩ := List.cons.inj htokens
        exact hmark hu
      | cons member tail =>
        obtain ⟨rfl, -⟩ := List.cons.inj htokens
        exact hmember ⟨member, tail, rfl, hu⟩
  · have hapart : ∀ rest, ∀ t ∈ (run ++ closing :: rest).head?, t.text ≠ "::" := fun rest =>
      forall_head_append hnot fun _ u hu => by
        rw [← Option.some.inj hu, hclosing]
        decide
    exact .inl ⟨_, run, ⟨List.suffix_rfl, h⟩,
      fun rest => behindInstance_applied name arguments (hapart rest)⟩

theorem settlesName_instance {opening : Token} (hclosing : closing.text = ">")
    (hmark : closing.kind ≠ .identifier) (ht : t.kind = .identifier)
    (hopening : opening.text = "<") (h : Left run (t :: opening :: run)) (hsimple : AllSimple run)
    (htypes : ∀ left, Left left run → SettlesType line memory closing left) :
    SettlesName line memory closing (t :: opening :: run) lead := by
  obtain ⟨arguments, left, hleft, harguments⟩ :=
    outcome_templateArguments_front hopening hclosing h.bracketed htypes
  have hstep : ∀ bound, (t :: opening :: run).length ≤ bound → ∀ rest, ContinuesInstance rest →
      (nameStep (typeWithin bound) lead).outcome line (t :: opening :: run ++ closing :: rest)
        memory = (behindInstance (lead ++ t.text) arguments).outcome line (left ++
            rest) memory := by
    intro bound hbound rest hrest
    simp only [List.length_cons] at hbound
    rw [List.cons_append, List.cons_append, nameStep_instance ht hopening,
      outcome_bind_ok (harguments bound (by omega) rest hrest)]
  rcases hleft with rfl | ⟨inner, hinner, rfl⟩
  · refine .inr fun bound hbound rest hrest times type behind memory' hloop => ?_
    have hbehind := hstep bound hbound rest hrest
    rw [List.nil_append] at hbehind
    rcases exists_step_of_loopWithin hloop with hdone | ⟨lead', after, between, times', hagain, -⟩
    · exact (continues_behindInstance hrest (hbehind.symm.trans hdone)).1
    · obtain ⟨-, type, htype⟩ := continues_behindInstance hrest (hbehind.symm.trans hagain)
      cases htype
  · simp only [List.append_assoc, List.singleton_append] at hstep
    rcases behindInstance_front hclosing hmark hinner.bracketed (hsimple.suffix hinner.suffix)
        (lead ++ t.text) arguments with
      ⟨type, left, hleft, hreads⟩ | hnever
    · refine .inl ⟨type, left, (hleft.trans hinner).trans h,
        fun bound hbound rest hrest => .done ?_⟩
      rw [hstep bound hbound rest hrest]
      exact hreads rest
    · refine .inr fun bound hbound rest hrest times type behind memory' hloop => ?_
      refine absurd hloop (loopWithin_ne_ok fun next after between hread => ?_)
      exact hnever rest next after between ((hstep bound hbound rest hrest).symm.trans hread)

/-- In front of a closing bracket, names settle if the types in their arguments do. -/
theorem settlesName (hclosing : closing.text = ">") (hmark : closing.kind ≠ .identifier)
    (lead : String) (h : Bracketed (fun _ => True) run) (hsimple : AllSimple run)
    (htypes : ∀ left, left.length < run.length → Bracketed (fun _ => True) left → AllSimple left →
      SettlesType line memory closing left) : SettlesName line memory closing run lead := by
  induction hlength : run.length using Nat.strong_induction_on generalizing run lead with
  | _ length ih =>
    by_cases hname : ∀ t ∈ run.head?, t.kind ≠ .identifier
    · exact settlesName_of_not_identifier hname hmark
    obtain ⟨t, tail, rfl, ht⟩ : ∃ t tail, run = t :: tail ∧ t.kind = .identifier := by
      cases run with
      | nil => exact absurd nofun hname
      | cons t tail => exact ⟨t, tail, rfl, by simpa using hname⟩
    have htail := Left.tail h (plain_of_identifier (hsimple t List.mem_cons_self) ht).1
    by_cases hinstance : ∃ opening inside, tail = opening :: inside ∧ opening.text = "<"
    · obtain ⟨opening, inside, rfl, hopening⟩ := hinstance
      have hinside := (Left.tail htail.bracketed (by rw [hopening]; decide)).trans htail
      refine settlesName_instance hclosing hmark ht hopening hinside
        (hsimple.suffix hinside.suffix) fun left hleft => ?_
      have hle := hleft.suffix.length_le
      exact htypes left (by simp only [List.length_cons]; omega) hleft.bracketed
        (hsimple.suffix (hleft.suffix.trans hinside.suffix))
    by_cases hscope : ∃ colons name behind, tail = colons :: name :: behind ∧ colons.text = "::" ∧
      name.kind = .identifier
    · obtain ⟨colons, name, behind, rfl, hcolons, hname⟩ := hscope
      have hscoped := (Left.tail htail.bracketed (by rw [hcolons]; decide)).trans htail
      have hshorter : (name :: behind).length < length := by
        rw [← hlength]
        simp
      refine settlesName_scope ht hcolons hname hscoped
        (ih _ hshorter _ hscoped.bracketed (hsimple.suffix hscoped.suffix) ?_ rfl)
      exact fun left hleft => htypes left (by simp only [List.length_cons] at hleft ⊢; omega)
    · refine settlesName_plain ht htail fun rest => ?_
      intro u hu
      cases tail with
      | nil =>
        obtain rfl := Option.some.inj hu
        rw [hclosing]
        exact ⟨by decide, fun htext => absurd htext (by decide)⟩
      | cons next behind =>
        obtain rfl := Option.some.inj hu
        refine ⟨fun hopening => hinstance ⟨next, behind, rfl, hopening⟩, fun hcolons => ?_⟩
        cases behind with
        | nil => simp [hmark]
        | cons name behind =>
          have hnot : name.kind ≠ .identifier :=
            fun hname => hscope ⟨next, name, behind, rfl, hcolons, hname⟩
          simp [hnot]

/-- Whether in front of a closing bracket a base type is read from a run alone, or, if one is read
at all, with all that may belong to it behind the bracket. -/
def SettlesBase (line : Nat) (memory : Memory) (closing : Token) (run : List Token) : Prop :=
  (∃ type left, Left left run ∧ ∀ bound, run.length ≤ bound → ∀ rest, ContinuesInstance rest →
    (baseType (typeWithin bound)).outcome line (run ++ closing :: rest) memory =
      (.ok (type, left ++ closing :: rest), memory)) ∨
  ∀ bound, run.length ≤ bound → ∀ rest, ContinuesInstance rest → ∀ type behind memory',
    (baseType (typeWithin bound)).outcome line (run ++ closing :: rest) memory =
      (.ok (type, behind), memory') → Continues behind

/-- What is read as a name settles as the name does. -/
theorem settlesBase_of_name {lead : String} {name : List Token} (hname : name <:+ run)
    (h : SettlesName line memory closing name lead)
    (heq : ∀ bound rest,
      (baseType (typeWithin bound)).outcome line (run ++ closing :: rest) memory =
      (loop lead (nameStep (typeWithin bound))).outcome line (name ++ closing :: rest) memory) :
    SettlesBase line memory closing run := by
  have hle := hname.length_le
  rcases h with ⟨type, left, hleft, hloops⟩ | hnever
  · refine .inl ⟨type, left, ⟨hleft.suffix.trans hname, hleft.bracketed⟩,
      fun bound hbound rest hrest => ?_⟩
    rw [heq]
    exact (hloops bound (by omega) rest hrest).outcome_loop
  · refine .inr fun bound hbound rest hrest type behind memory' hbase => ?_
    rw [heq, loop, outcome_bind, outcome_get] at hbase
    exact hnever bound (by omega) rest hrest _ type behind memory' hbase

/-- A row of builtin words settles the base type. -/
theorem settlesBase_of_words (hmark : closing.kind ≠ .identifier)
    (h : Bracketed (fun _ => True) (t :: run)) (ht : isBuiltinWord t = true) :
    SettlesBase line memory closing (t :: run) := by
  have hplain : ∀ u, isBuiltinWord u = true → isOpening u.text = false := by
    intro u hu
    have hall : ∀ word ∈ builtinWords, isOpening word = false := by decide
    rw [isBuiltinWord, Bool.and_eq_true, List.contains_iff_mem] at hu
    exact hall _ hu.2
  have hclosing : ∀ rest, ∀ u ∈ (closing :: rest).head?, isBuiltinWord u = false := by
    intro rest u hu
    rw [← Option.some.inj hu, isBuiltinWord, beq_false_of_ne hmark, Bool.false_and]
  exact .inl ⟨_, _, .dropWhile isBuiltinWord hplain h, fun bound _ rest _ =>
    baseType_of_words (span_front _ (hclosing rest)) (by simp [ht])⟩

/-- A deduced type with its argument settles the base type. -/
theorem settlesBase_of_decltype (hclosing : closing.text = ">")
    (h : Bracketed (fun _ => True) (t :: run)) (hkind : t.kind = .identifier)
    (ht : t.text = "decltype") : SettlesBase line memory closing (t :: run) := by
  have htail := Left.tail h (by rw [ht]; decide)
  rcases exists_next_or "(" run with ⟨opening, inside, rfl, hopening⟩ | hnot
  · obtain ⟨closing', inner, left, rfl, henclose, hinner, hleft⟩ :=
      htail.bracketed.group_of_opening (by rw [hopening]; rfl)
    rw [hopening] at henclose
    refine .inl ⟨.unexposed ("decltype(" ++ Token.spell inner ++ ")"), left,
      ⟨⟨t :: opening :: (inner ++ [closing']), by simp⟩, hleft⟩, fun bound _ rest _ => ?_⟩
    have hrun : balancedRun "(" ")" 0 (inner ++ closing' :: (left ++ closing :: rest)) =
        some (inner, left ++ closing :: rest) :=
      balancedRun_closed hinner (by decide) henclose.eq_of_round
    have hbalanced : (balanced "(" ")").outcome line (opening :: (inner ++ closing' :: left) ++
        closing :: rest) memory = (.ok (inner, left ++ closing :: rest), memory) :=
      outcome_balanced_eq_ok.mpr ⟨⟨opening, _, hopening, rfl, by simpa using hrun⟩, rfl⟩
    rw [List.cons_append, baseType_of_decltype hkind ht, outcome_bind_ok hbalanced]
    rfl
  · refine .inr fun bound _ rest _ type behind memory' hbase => ?_
    rw [List.cons_append, baseType_of_decltype hkind ht] at hbase
    obtain ⟨inner, after, between, hbalanced, -⟩ := outcome_bind_eq_ok.mp hbase
    obtain ⟨⟨opening, behind', hopens, htokens, -⟩, -⟩ := outcome_balanced_eq_ok.mp hbalanced
    have hapart : ∀ u ∈ (run ++ closing :: rest).head?, u.text ≠ "(" :=
        forall_head_append hnot fun _ u hu => by
      rw [← Option.some.inj hu, hclosing]
      decide
    exact absurd hopens (hapart opening (by rw [htokens]; rfl))

/-- What begins with no word that has a meaning of its own settles as the name does that it is read
as. -/
theorem settlesBase_named (hclosing : closing.text = ">") (hmark : closing.kind ≠ .identifier)
    (h : Bracketed (fun _ => True) run) (hsimple : AllSimple run)
    (htypes : ∀ left, left.length < run.length → Bracketed (fun _ => True) left → AllSimple left →
      SettlesType line memory closing left)
    (heq : ∀ bound rest,
      (baseType (typeWithin bound)).outcome line (run ++ closing :: rest) memory =
      (namedType (typeWithin bound)).outcome line (run ++ closing :: rest) memory) :
          SettlesBase line memory closing run := by
  rcases exists_next_or "::" run with ⟨colons, tail, rfl, hcolons⟩ | hnot
  · have htail := Left.tail h (by rw [hcolons]; decide)
    refine settlesBase_of_name htail.suffix
      (settlesName hclosing hmark "::" htail.bracketed (hsimple.suffix htail.suffix) ?_)
      fun bound rest => ?_
    · exact fun left hleft => htypes left (hleft.trans (Nat.lt_succ_self _))
    · rw [heq, namedType_eq, List.cons_append, outcome_bind_ok (outcome_eat_of_next hcolons)]
      rfl
  · refine settlesBase_of_name List.suffix_rfl (settlesName hclosing hmark "" h hsimple htypes)
      fun bound rest => ?_
    have hapart : ∀ u ∈ (run ++ closing :: rest).head?, u.text ≠ "::" :=
        forall_head_append hnot fun _ u hu => by
      rw [← Option.some.inj hu, hclosing]
      decide
    rw [heq, namedType_eq, outcome_bind_ok (outcome_eat_of_not_next hapart)]
    rfl

/-- In front of a closing bracket, base types settle if the types in their arguments do. -/
theorem settlesBase (hclosing : closing.text = ">") (hmark : closing.kind ≠ .identifier)
    (h : Bracketed (fun _ => True) run) (hsimple : AllSimple run)
    (htypes : ∀ left, left.length < run.length → Bracketed (fun _ => True) left → AllSimple left →
      SettlesType line memory closing left) : SettlesBase line memory closing run := by
  by_cases hwords : ∃ t tail, run = t :: tail ∧ isBuiltinWord t = true
  · obtain ⟨t, tail, rfl, ht⟩ := hwords
    exact settlesBase_of_words hmark h ht
  by_cases hauto : ∃ t tail, run = t :: tail ∧ t.kind = .identifier ∧ t.text = "auto"
  · obtain ⟨t, tail, rfl, hkind, htext⟩ := hauto
    refine .inl ⟨.unexposed "auto", tail, .tail h (by rw [htext]; decide), fun bound _ rest _ => ?_⟩
    rw [List.cons_append, baseType_of_auto hkind htext]
  by_cases hdecltype : ∃ t tail, run = t :: tail ∧ t.kind = .identifier ∧ t.text = "decltype"
  · obtain ⟨t, tail, rfl, hkind, htext⟩ := hdecltype
    exact settlesBase_of_decltype hclosing h hkind htext
  refine settlesBase_named hclosing hmark h hsimple htypes fun bound rest => baseType_of_name ?_ ?_
  · refine forall_head_append (fun t ht => ?_) fun _ t ht => ?_
    · obtain ⟨tail, rfl⟩ := List.head?_eq_some_iff.mp ht
      exact Bool.eq_false_iff.mpr fun hword => hwords ⟨t, tail, rfl, hword⟩
    · rw [← Option.some.inj ht, isBuiltinWord, beq_false_of_ne hmark, Bool.false_and]
  · refine forall_head_append (fun t ht hkind => ?_) fun _ t ht hkind => ?_
    · obtain ⟨tail, rfl⟩ := List.head?_eq_some_iff.mp ht
      exact ⟨fun htext => hauto ⟨t, tail, rfl, hkind, htext⟩,
        fun htext => hdecltype ⟨t, tail, rfl, hkind, htext⟩⟩
    · exact absurd hkind (Option.some.inj ht ▸ hmark)

/-- In front of a closing bracket, types settle. -/
theorem settlesType (hclosing : closing.text = ">") (hmark : closing.kind ≠ .identifier)
    (h : Bracketed (fun _ => True) run) (hsimple : AllSimple run) :
    SettlesType line memory closing run := by
  induction hlength : run.length using Nat.strong_induction_on generalizing run with
  | _ length ih =>
    have hplain : ∀ t : Token, leadingWords.contains t.text = true → isOpening t.text = false := by
      have hall : ∀ word ∈ leadingWords, isOpening word = false := by decide
      exact fun t ht => hall _ (List.contains_iff_mem.mp ht)
    have hbase := Left.dropWhile (fun t => leadingWords.contains t.text) hplain h
    have hle := hbase.suffix.length_le
    have hleading : ∀ bound rest, (typeWithin (bound + 1)).outcome line
        (run ++ closing :: rest) memory = _ :=
      fun bound rest => typeWith_of_leading (span_front _ fun t ht => by
        obtain rfl := Option.some.inj ht
        rw [hclosing]
        decide)
    rcases settlesBase hclosing hmark hbase.bracketed (hsimple.suffix hbase.suffix)
        (fun left hleft hbracketed hsimple => ih left.length (by omega) hbracketed hsimple rfl) with
      ⟨base, left, hleft, hreads⟩ | hnever
    · have hrow := Left.behindRow hleft.bracketed
      obtain ⟨result, behind, hbehind, hloops⟩ :=
        loops_indirection_front hclosing hrow.bracketed (base.qualify _ _)
      refine .inl ⟨result, behind, ((hbehind.trans hrow).trans hleft).trans hbase,
        fun bound hbound rest hrest => ?_⟩
      obtain ⟨bound, rfl⟩ := Nat.exists_eq_add_one_of_ne_zero (Nat.ne_zero_of_lt hbound)
      rw [hleading, outcome_bind_ok (hreads bound (by omega) rest hrest), behindBase,
        outcome_bind_ok (outcome_qualifiers_front (not_qualifier_closing hclosing rest))]
      exact (hloops rest).outcome_loop
    · refine .inr fun bound hbound rest hrest type behind htype => ?_
      obtain ⟨bound, rfl⟩ := Nat.exists_eq_add_one_of_ne_zero (Nat.ne_zero_of_lt hbound)
      rw [hleading] at htype
      obtain ⟨base, after, between, hbase', hbehind⟩ := outcome_bind_eq_ok.mp htype
      have hends := endsOperators_behindBase
        (hnever bound (by omega) rest hrest base after between hbase') hbehind
      rintro ⟨t, ht, htext⟩
      exact hends t ht (by rcases htext with h | h <;> rw [h] <;> decide)

end Interop.Header.Parser
