import Interop.Proofs.Header.DeclarationReading
import Interop.Proofs.Header.Success
import Interop.Proofs.Header.Consuming

namespace Interop

/-- A declaration without its place in the header. -/
def Declaration.unplaced (d : Declaration) : Declaration :=
  { d with line := 0 }

namespace Header

namespace Token

variable {t : Token} {tokens behind rest : List Token} {names : List String}

/-- The tokens behind an attribute, whose opening brackets have been passed over. -/
def pastAttribute (tokens : List Token) : Option (List Token) :=
  match runUntil ["]"] 0 tokens with
  | some (_, first :: second :: rest) => if first.text = "]" ∧
    second.text = "]" then some rest else none
  | _ => none

/-- A name with the scopes in front of it, which goes on as long as double colons follow, and the
tokens behind it. -/
def scopedName (name : String) : List Token → Option (String × List Token)
  | [] => some (name, [])
  | [t] => if t.text = "::" then none else some (name, [t])
  | t :: part :: rest =>
    if t.text = "::" then
      if part.kind = .identifier then scopedName (name ++ "::" ++ part.text) rest else none
    else some (name, t :: part :: rest)

/-- Whether one piece of the head of a class stands in front of the rest of some tokens: an
attribute, a macro with its arguments, or a name, which is the only one to be kept. -/
inductive HeadPiece : List Token → Option String → List Token → Prop
  | bracketed {t : Token} {tokens rest : List Token} (ht : t.text = "[[")
      (h : pastAttribute tokens = some rest) :
      HeadPiece (t :: tokens) none rest
  | call {t opening : Token} {tokens run rest : List Token} (ht : t.text ≠ "[[")
      (hname : t.kind = .identifier)
      (hopening : opening.text = "(") (h : balancedRun "(" ")" 0 tokens = some (run, rest)) :
      HeadPiece (t :: opening :: tokens) none rest
  | name {t : Token} {tokens rest : List Token} {full : String} (ht : t.text ≠ "[[")
      (hname : t.kind = .identifier)
      (hopening : ∀ u ∈ tokens.head?, u.text ≠ "(") (h : scopedName t.text tokens =
        some (full, rest)) :
      HeadPiece (t :: tokens) (some full) rest

/-- Whether the given names are those of all pieces of the head of a class that some tokens begin
with. -/
inductive HeadNames : List Token → List String → List Token → Prop
  | nil {tokens : List Token} (h : ∀ t ∈ tokens.head?, t.text ≠ "[[" ∧ t.kind ≠ .identifier) :
    HeadNames tokens [] tokens
  | cons {tokens behind rest : List Token} {name? : Option String} {names : List String}
      (h : HeadPiece tokens name? behind) (hnames : HeadNames behind names rest) :
      HeadNames tokens (name?.toList ++ names) rest

/-- The tokens behind the template arguments that may follow the name of a class, and behind a
`final`. -/
def pastArguments : List Token → Option (List Token)
  | [] => some []
  | t :: rest =>
    if t.text = "<" then (angleGroups 0 [] rest).map fun (_, behind) => pastOptional "final" behind
      else some (t :: rest)

/-- Whether tokens behind a class keyword write a type and what is declared with it: what follows
the words of a class head begins no bases and no body, and it does not end the announcement of a
class. -/
def WritesDeclarators (tokens : List Token) : Prop :=
  ∃ names behind rest, HeadNames tokens names behind ∧ pastArguments behind = some rest ∧
    ∀ t ∈ rest.head?, t.text ≠ "\x7b" ∧ t.text ≠ ":" ∧
      (t.text = ";" → ¬(Parser.className names).2.all Parser.isExportMacro = true)

/-- Behind a name with its scopes there are some of the tokens. -/
theorem scopedName_suffix {name full : String} (h : scopedName name tokens = some (full, rest)) :
    rest <:+ tokens := by
  fun_induction scopedName name tokens with
  | case1 | case3 | case6 =>
    cases h
    exact List.suffix_rfl
  | case2 | case5 => cases h
  | case4 name t part tail _ _ ih =>
    exact (ih h).trans ((List.suffix_cons part tail).trans (List.suffix_cons t _))

/-- Behind an attribute there are some of the tokens. -/
theorem pastAttribute_suffix (h : pastAttribute tokens = some rest) : rest <:+ tokens := by
  unfold pastAttribute at h
  split at h
  · rename_i run first second rest' hrun
    split at h
    · cases h
      exact ((List.suffix_cons second _).trans (List.suffix_cons first _)).trans
        (runUntil_suffix tokens hrun)
    · cases h
  · cases h

section Pieces

variable {opening : Token} {tail : List Token} {name? : Option String}

/-- Two opening brackets begin an attribute and nothing else. -/
theorem headPiece_bracketed_iff (ht : t.text = "[[") :
    HeadPiece (t :: tail) name? rest ↔ name? = none ∧ pastAttribute tail = some rest := by
  constructor
  · rintro (⟨-, h⟩ | ⟨hne, -⟩ | ⟨hne, -⟩)
    · exact ⟨rfl, h⟩
    · exact absurd ht hne
    · exact absurd ht hne
  · rintro ⟨rfl, h⟩
    exact .bracketed ht h

/-- A word in front of a round bracket is a macro with its arguments, which have to be closed. -/
theorem headPiece_call_iff (ht : t.text ≠ "[[") (hname : t.kind = .identifier)
    (hopening : opening.text = "(") :
    HeadPiece (t :: opening :: tail) name? rest ↔ name? = none ∧
      ∃ run, balancedRun "(" ")" 0 tail = some (run, rest) := by
  constructor
  · rintro (⟨heq, -⟩ | ⟨-, -, -, h⟩ | ⟨-, -, hne, -⟩)
    · exact absurd heq ht
    · exact ⟨rfl, _, h⟩
    · exact absurd hopening (hne opening rfl)
  · rintro ⟨rfl, run, h⟩
    exact .call ht hname hopening h

/-- Any other word begins a name, which may have scopes. -/
theorem headPiece_name_iff (ht : t.text ≠ "[[") (hname : t.kind = .identifier)
    (hopening : ∀ u ∈ tail.head?, u.text ≠ "(") :
    HeadPiece (t :: tail) name? rest ↔ ∃ full, name? = some full ∧
      scopedName t.text tail = some (full, rest) := by
  constructor
  · rintro (⟨heq, -⟩ | ⟨-, -, heq, -⟩ | ⟨-, -, -, h⟩)
    · exact absurd heq ht
    · exact absurd heq (hopening _ rfl)
    · exact ⟨_, rfl, h⟩
  · rintro ⟨full, rfl, h⟩
    exact .name ht hname hopening h

/-- What is neither a word nor an attribute ends the head. -/
theorem not_headPiece (h : ∀ t ∈ tokens.head?, t.text ≠ "[[" ∧ t.kind ≠ .identifier) :
    ¬HeadPiece tokens name? rest := by
  rintro (⟨ht, -⟩ | ⟨-, hname, -⟩ | ⟨-, hname, -⟩)
  · exact (h _ rfl).1 ht
  · exact (h _ rfl).2 hname
  · exact (h _ rfl).2 hname

end Pieces

/-- Every piece of a head has a token. -/
theorem HeadPiece.length_lt {name? : Option String} (h : HeadPiece tokens name? rest) :
    rest.length < tokens.length := by
  cases h with
  | bracketed _ h => exact Nat.lt_succ_of_le (pastAttribute_suffix h).length_le
  | call _ _ _ h =>
    have hle := (balancedRun_suffix _ h).length_le
    simp only [List.length_cons]
    omega
  | name _ _ _ h => exact Nat.lt_succ_of_le (scopedName_suffix h).length_le

end Token

namespace Parser

open Token

variable {line : Nat} {t keyword : Token} {tokens behind rest : List Token}
    {memory memory' : Memory}
  {inClass : Option String} {declaration declaration' : DeclarationParser} {names : List String}
    {ds : List Declaration}

/-- An attribute is skipped exactly if it is closed. -/
theorem outcome_skipAttribute_eq_ok {nothing : Unit} :
    skipAttribute.outcome line (t :: tokens) memory = (.ok (nothing, rest), memory') ↔
      pastAttribute tokens = some rest ∧ memory' = memory := by
  simp only [skipAttribute, outcome_bind_eq_ok, outcome_discard_eq_ok, outcome_expect_eq_ok,
    outcome_takeRun_eq_ok, upTo, outcome_advance, pastAttribute]
  constructor
  · rintro ⟨_, behind, _, ⟨⟩, _, _, _, ⟨run, hrun, rfl⟩, _, _, _, ⟨⟨first, hfirst, rfl⟩, rfl⟩,
      ⟨second, hsecond, rfl⟩, rfl⟩
    rw [List.drop_one, List.tail_cons] at hrun
    simp [hrun, hfirst, hsecond]
  · rintro ⟨h, rfl⟩
    split at h
    · rename_i run first second rest' hrun
      split at h
      · rename_i hmarks
        cases h
        exact ⟨_, _, _, rfl, (), _, _, ⟨run, hrun, rfl⟩, (), _, _, ⟨⟨first, hmarks.1, rfl⟩, rfl⟩,
          ⟨second, hmarks.2, rfl⟩, rfl⟩
      · cases h
    · cases h

/-- A name is read with its scopes. -/
theorem outcome_scopedName {name full : String} (h : scopedName name tokens = some (full, rest)) :
    (loop name namePartStep).outcome line tokens memory = (.ok (full, rest), memory) := by
  refine Loops.outcome_loop ?_
  fun_induction scopedName name tokens with
  | case1 name =>
    cases h
    exact .done (by simp [namePartStep, done])
  | case2 => cases h
  | case3 name t ht =>
    cases h
    exact .done (by simp [namePartStep, done, ht])
  | case4 name t part tail ht hpart ih =>
    refine .again ?_ ?_ (ih h)
    · simp [namePartStep, ht, identifier, Option.filter_some, hpart, again]
    · simp only [List.length_cons]
      omega
  | case5 => cases h
  | case6 name t part tail ht =>
    cases h
    exact .done (by simp [namePartStep, done, ht])

/-- One step ends the name or takes a double colon with a word behind it. -/
theorem namePartStep_eq_ok {name : String} {next : String ⊕ String} :
    (namePartStep name).outcome line tokens memory = (.ok (next, rest), memory') ↔
      ((∀ t ∈ tokens.head?, t.text ≠ "::") ∧ next = .inr name ∧ rest = tokens ∨
        ∃ t part, t.text = "::" ∧ part.kind = .identifier ∧ tokens = t :: part :: rest ∧
          next = .inl (name ++ "::" ++ part.text)) ∧ memory' = memory := by
  rcases exists_next_or "::" tokens with ⟨t, tail, rfl, ht⟩ | hnot
  · rw [namePartStep, outcome_bind_ok (outcome_eat_of_next ht), if_pos rfl, outcome_bind_eq_ok]
    simp only [outcome_identifier_eq_ok, again, outcome_pure]
    constructor
    · rintro ⟨name', behind, _, ⟨⟨part, hpart, rfl, rfl⟩, rfl⟩, ⟨⟩⟩
      exact ⟨.inr ⟨t, part, ht, hpart, rfl, rfl⟩, rfl⟩
    · rintro ⟨⟨hne, -⟩ | ⟨_, part, -, hpart, ⟨⟩, rfl⟩, rfl⟩
      · exact absurd ht (hne t rfl)
      · exact ⟨_, _, _, ⟨⟨part, hpart, rfl, rfl⟩, rfl⟩, rfl⟩
  · rw [namePartStep, outcome_bind_ok (outcome_eat_of_not_next hnot), if_neg (by decide), done,
      outcome_pure]
    constructor
    · rintro ⟨⟩
      exact ⟨.inl ⟨hnot, rfl, rfl⟩, rfl⟩
    · rintro ⟨⟨-, rfl, rfl⟩ | ⟨t, _, ht, -, rfl, -⟩, rfl⟩
      · rfl
      · exact absurd ht (hnot t rfl)

/-- Only a name with its scopes is read as one. -/
theorem scopedName_of_outcome {name full : String}
    (h : (loop name namePartStep).outcome line tokens memory = (.ok (full, rest), memory')) :
    scopedName name tokens = some (full, rest) ∧ memory' = memory := by
  refine loop_induction (fun name tokens memory => scopedName name tokens = some (full, rest) ∧
    memory' = memory) ?_ ?_ h
  · intro name tokens memory h
    obtain ⟨⟨hend, hfull, rfl⟩ | ⟨_, _, -, -, -, hnext⟩, rfl⟩ := namePartStep_eq_ok.mp h
    · cases hfull
      refine ⟨?_, rfl⟩
      unfold scopedName
      split <;> simp_all
    · cases hnext
  · intro name name' tokens behind memory between h hnext
    obtain ⟨⟨-, hinr, -⟩ | ⟨t, part, ht, hpart, rfl, hname⟩, rfl⟩ := namePartStep_eq_ok.mp h
    · cases hinr
    · cases hname
      rwa [scopedName, if_pos ht, if_pos hpart]

section Step

variable {found : List String} {next : List String ⊕ List String}

/-- An attribute in a head leaves the names as they are. -/
theorem classNameStep_eq_ok_of_bracketed (ht : t.text = "[[") :
    (classNameStep found).outcome line (t :: tokens) memory = (.ok (next, rest), memory') ↔
      (pastAttribute tokens = some rest ∧ next = .inl found) ∧ memory' = memory := by
  rw [classNameStep, outcome_bind_ok (outcome_isNext_of_next ht), if_pos rfl, outcome_bind_eq_ok]
  simp only [outcome_skipAttribute_eq_ok, again, outcome_pure]
  constructor
  · rintro ⟨_, _, _, ⟨h, rfl⟩, ⟨⟩⟩
    exact ⟨⟨h, rfl⟩, rfl⟩
  · rintro ⟨⟨h, rfl⟩, rfl⟩
    exact ⟨(), _, _, ⟨h, rfl⟩, rfl⟩

theorem classNameStep_of_identifier (ht : t.text ≠ "[[") (hname : t.kind = .identifier) :
    (classNameStep found).outcome line (t :: tokens) memory =
      (do
        if ← isNext "(" then
          discard <| balanced "(" ")"
          again found
        else
          let full ← loop t.text namePartStep
          again (full :: found) :
              Parser (List String ⊕ List String)).outcome line tokens memory := by
  have hnot : ∀ u ∈ (t :: tokens).head?, u.text ≠ "[[" := by
    rintro u ⟨⟩
    exact ht
  have hadvance : (advance 1).outcome line (t :: tokens) memory = (.ok ((), tokens), memory) := rfl
  rw [classNameStep, outcome_bind_ok (outcome_isNext_of_not_next hnot), if_neg (by decide),
    outcome_bind_ok (outcome_identifier?_of_eq hname)]
  exact outcome_bind_ok hadvance

/-- A macro in a head leaves the names as they are. -/
theorem classNameStep_eq_ok_of_call {opening : Token} (ht : t.text ≠ "[[")
    (hname : t.kind = .identifier) (hopening : opening.text = "(") :
    (classNameStep found).outcome line
    (t :: opening :: tokens) memory = (.ok (next, rest), memory') ↔
      ((∃ run, balancedRun "(" ")" 0 tokens = some (run, rest)) ∧ next = .inl found) ∧
          memory' = memory := by
  rw [classNameStep_of_identifier ht hname, outcome_bind_ok (outcome_isNext_of_next hopening),
    if_pos rfl, outcome_bind_eq_ok]
  simp only [outcome_discard_eq_ok, outcome_balanced_eq_ok, again, outcome_pure]
  constructor
  · rintro ⟨_, _, _, ⟨run, ⟨_, _, -, ⟨⟩, h⟩, rfl⟩, ⟨⟩⟩
    exact ⟨⟨⟨run, h⟩, rfl⟩, rfl⟩
  · rintro ⟨⟨⟨run, h⟩, rfl⟩, rfl⟩
    exact ⟨(), _, _, ⟨run, ⟨_, _, hopening, rfl, h⟩, rfl⟩, rfl⟩

/-- A name in a head is put in front of those that have been found. -/
theorem classNameStep_eq_ok_of_name (ht : t.text ≠ "[[") (hname : t.kind = .identifier)
    (hopening : ∀ u ∈ tokens.head?, u.text ≠ "(") :
    (classNameStep found).outcome line (t :: tokens) memory = (.ok (next, rest), memory') ↔
      (∃ full, scopedName t.text tokens = some (full, rest) ∧ next = .inl (full :: found)) ∧
          memory' = memory := by
  rw [classNameStep_of_identifier ht hname, outcome_bind_ok (outcome_isNext_of_not_next hopening),
    if_neg (by decide), outcome_bind_eq_ok]
  simp only [again, outcome_pure]
  constructor
  · rintro ⟨full, _, _, hparts, ⟨⟩⟩
    obtain ⟨hfull, hmemory⟩ := scopedName_of_outcome hparts
    exact ⟨⟨full, hfull, rfl⟩, hmemory⟩
  · rintro ⟨⟨full, h, rfl⟩, rfl⟩
    exact ⟨_, _, _, outcome_scopedName h, rfl⟩

/-- Where no piece of a head follows the names are complete. -/
theorem classNameStep_of_none (h : ∀ t ∈ tokens.head?, t.text ≠ "[[" ∧ t.kind ≠ .identifier) :
    (classNameStep found).outcome line tokens memory = (.ok (.inr found.reverse, tokens),
      memory) := by
  rw [classNameStep, outcome_bind_ok (outcome_isNext_of_not_next fun t ht => (h t ht).1),
    if_neg (by decide), outcome_bind_ok (outcome_identifier?_of_ne fun t ht => (h t ht).2)]
  rfl

/-- A repetition of `classNames` takes one piece of the head, or none if there is none. -/
theorem classNameStep_eq_ok :
    (classNameStep found).outcome line tokens memory = (.ok (next, rest), memory') ↔
      ((∀ t ∈ tokens.head?, t.text ≠ "[[" ∧ t.kind ≠ .identifier) ∧ next = .inr found.reverse ∧
        rest = tokens ∨ ∃ name?, HeadPiece tokens name? rest ∧
            next = .inl (name?.toList ++ found)) ∧ memory' = memory := by
  by_cases hnone : ∀ t ∈ tokens.head?, t.text ≠ "[[" ∧ t.kind ≠ .identifier
  · rw [classNameStep_of_none hnone]
    constructor
    · rintro ⟨⟩
      exact ⟨.inl ⟨hnone, rfl, rfl⟩, rfl⟩
    · rintro ⟨⟨-, rfl, rfl⟩ | ⟨name?, hpiece, -⟩, rfl⟩
      · rfl
      · exact absurd hpiece (not_headPiece hnone)
  · obtain ⟨t, tail, rfl, hfirst⟩ : ∃ t tail, tokens = t :: tail ∧
        (t.text = "[[" ∨ t.text ≠ "[[" ∧ t.kind = .identifier) := by
      cases tokens with
      | nil => exact absurd nofun hnone
      | cons t tail =>
        refine ⟨t, tail, rfl, ?_⟩
        by_contra hfirst
        refine hnone fun u hu => ?_
        cases hu
        tauto
    rw [or_iff_right fun h => hnone h.1]
    rcases hfirst with ht | ⟨ht, hname⟩
    · simp [classNameStep_eq_ok_of_bracketed ht, headPiece_bracketed_iff ht]
    · rcases exists_next_or "(" tail with ⟨opening, tail, rfl, hopening⟩ | hopening
      · simp [classNameStep_eq_ok_of_call ht hname hopening, headPiece_call_iff ht hname hopening]
      · simp [classNameStep_eq_ok_of_name ht hname hopening, headPiece_name_iff ht hname hopening]

end Step

/-- The names of a class's head are taken exactly if they stand there. -/
theorem outcome_classNames_eq_ok :
    classNames.outcome line tokens memory = (.ok (names, rest), memory') ↔
      HeadNames tokens names rest ∧ memory' = memory := by
  constructor
  · intro h
    have hall : ∃ names', names = [].reverse ++ names' ∧ HeadNames tokens names' rest ∧
        memory' = memory := by
      refine loop_induction (fun found tokens memory =>
        ∃ names', names = found.reverse ++ names' ∧ HeadNames tokens names' rest ∧
          memory' = memory) ?_ ?_ h
      · intro found tokens memory hstep
        obtain ⟨⟨hend, hnames, rfl⟩ | ⟨_, -, hnext⟩, rfl⟩ := classNameStep_eq_ok.mp hstep
        · cases hnames
          exact ⟨[], (List.append_nil _).symm, .nil hend, rfl⟩
        · cases hnext
      · intro found found' tokens behind memory between hstep hnext
        obtain ⟨⟨-, hnext, -⟩ | ⟨name?, hpiece, hfound⟩, rfl⟩ := classNameStep_eq_ok.mp hstep
        · cases hnext
        · cases hfound
          obtain ⟨names', rfl, hnames, rfl⟩ := hnext
          refine ⟨name?.toList ++ names', ?_, .cons hpiece hnames, rfl⟩
          cases name? <;> simp
    obtain ⟨names', rfl, hnames, rfl⟩ := hall
    exact ⟨hnames, rfl⟩
  · rintro ⟨h, rfl⟩
    have hall : ∀ found,
        Loops classNameStep line (found.reverse ++ names) rest memory' found tokens memory' := by
      induction h with
      | nil hend =>
        intro found
        exact .done (classNameStep_eq_ok.mpr ⟨.inl ⟨hend, by rw [List.append_nil], rfl⟩, rfl⟩)
      | @cons tokens behind rest name? names hpiece _ ih =>
        intro found
        refine .again (classNameStep_eq_ok.mpr ⟨.inr ⟨name?, hpiece, rfl⟩, rfl⟩) hpiece.length_lt ?_
        have hnext := ih (name?.toList ++ found)
        have hnames : (name?.toList ++ found).reverse ++ names = found.reverse ++ (name?.toList ++
            names) := by
          cases name? <;> simp
        rwa [hnames] at hnext
    exact (hall []).outcome_loop

/-- Template parameters are read exactly if their brackets are closed. -/
theorem outcome_templateParameters_eq_ok {parameters : List Declaration} :
    templateParameters.outcome line tokens memory = (.ok (parameters, rest), memory') ↔
      (∃ t behind groups, t.text = "<" ∧ tokens = t :: behind ∧
        angleGroups 0 [] behind = some (groups, rest) ∧
            parameters = groups.filterMap templateParameter?) ∧ memory' = memory := by
  simp only [templateParameters, outcome_bind_eq_ok, outcome_expect_eq_ok, outcome_takeRun_eq_ok,
    outcome_pure]
  constructor
  · rintro ⟨_, _, _, ⟨⟨t, ht, rfl⟩, rfl⟩, groups, _, _, ⟨h, rfl⟩, ⟨⟩⟩
    exact ⟨⟨t, _, groups, ht, rfl, h, rfl⟩, rfl⟩
  · rintro ⟨⟨t, behind, groups, ht, rfl, h, rfl⟩, rfl⟩
    exact ⟨(), _, _, ⟨⟨t, ht, rfl⟩, rfl⟩, groups, _, _, ⟨h, rfl⟩, rfl⟩

/-- What is read behind the head of a class: its bases and its body, the end of an announcement, or
a declaration whose type has been taken for the name of a class. -/
def behindHead (declaration : DeclarationParser) (inClass : Option String) (keyword : Token)
    (start : List Token) (line : Nat) (names : List String) (isSpecialization : Bool) :
    Parser (List Declaration) := do
  let behind ← text
  if behind = "\x7b" ∨ behind = ":" then
    let kind : Kind := if isSpecialization then .classSpecialization else .classType
    let access : Access := if keyword.text = "class" then .hidden else .exposed
    return [← classBody declaration kind (className names).1 access line]
  else if behind = ";" ∧ (className names).2.all isExportMacro then
    advance 1
    return []
  else
    set start
    member inClass

/-- The template arguments behind the head of a class, and what is read behind them. -/
def behindArguments (declaration : DeclarationParser) (inClass : Option String) (keyword : Token)
    (start : List Token) (line : Nat) (names : List String) : Parser (List Declaration) := do
  let isSpecialization ← isNext "<"
  if isSpecialization then
    discard templateParameters
    discard <| eat "final"
    behindHead declaration inClass keyword start line names isSpecialization
  else behindHead declaration inClass keyword start line names isSpecialization

/-- A class begins with its head, behind which its arguments and all else are read. -/
theorem classOrElaborated_eq :
    classOrElaborated declaration inClass = (do
      let keyword ← next
      let start ← get
      let line ← Parser.line
      let names ← classNames
      behindArguments declaration inClass keyword start line names) :=
  rfl

theorem outcome_discard_eat (expected : String) :
    (discard (eat expected)).outcome line tokens memory = (.ok ((), pastOptional expected tokens),
      memory) := by
  rcases exists_next_or expected tokens with ⟨t, tail, rfl, ht⟩ | hnot
  · rw [outcome_discard, outcome_eat_of_next ht, pastOptional, if_pos ht]
  · rw [outcome_discard, outcome_eat_of_not_next hnot]
    cases tokens with
    | nil => rfl
    | cons t tail => rw [pastOptional, if_neg (hnot t rfl)]

section Behind

variable {start : List Token} {place : Nat}

/-- Where template arguments can be read the rest goes on behind them. -/
theorem outcome_behindArguments (h : pastArguments tokens = some rest) :
    ∃ isSpecialization, (behindArguments declaration inClass keyword start place names).outcome
      line tokens memory =
          (behindHead declaration inClass keyword start place names isSpecialization).outcome line
          rest memory := by
  rcases exists_next_or "<" tokens with ⟨t, tail, rfl, ht⟩ | hnot
  · rw [pastArguments, if_pos ht] at h
    obtain ⟨⟨groups, behind⟩, hgroups, rfl⟩ := Option.map_eq_some_iff.mp h
    have hparameters : (discard templateParameters).outcome line (t :: tail) memory =
        (.ok ((), behind), memory) :=
      outcome_discard_eq_ok.mpr ⟨_,
        outcome_templateParameters_eq_ok.mpr ⟨⟨t, tail, groups, ht, rfl, hgroups, rfl⟩, rfl⟩⟩
    refine ⟨true, ?_⟩
    rw [behindArguments, outcome_bind_ok (outcome_isNext_of_next ht), if_pos rfl,
      outcome_bind_ok hparameters, outcome_bind_ok (outcome_discard_eat "final")]
  · have hrest : rest = tokens := by
      cases tokens with
      | nil => exact (Option.some.inj h).symm
      | cons t tail =>
        rw [pastArguments, if_neg (hnot t rfl)] at h
        exact (Option.some.inj h).symm
    refine ⟨false, ?_⟩
    rw [behindArguments, outcome_bind_ok (outcome_isNext_of_not_next hnot), if_neg (by decide),
      hrest]

/-- The rest can be read only behind template arguments that can. -/
theorem behindArguments_eq_ok
    (h : (behindArguments declaration inClass keyword start place names).outcome line tokens
      memory = (.ok (ds, rest), memory')) :
    ∃ isSpecialization behind, pastArguments tokens = some behind ∧
      (behindHead declaration inClass keyword start place names isSpecialization).outcome line
        behind memory = (.ok (ds, rest), memory') := by
  have hsome : ∃ behind, pastArguments tokens = some behind := by
    cases tokens with
    | nil => exact ⟨[], rfl⟩
    | cons t tail =>
      rw [pastArguments]
      split
      · rename_i ht
        rw [behindArguments, outcome_bind_ok (outcome_isNext_of_next ht), if_pos rfl] at h
        obtain ⟨_, _, _, hparameters, -⟩ := outcome_bind_eq_ok.mp h
        obtain ⟨_, hparameters⟩ := outcome_discard_eq_ok.mp hparameters
        obtain ⟨⟨t', behind, groups, -, ⟨⟩, hgroups, -⟩, -⟩ :=
          outcome_templateParameters_eq_ok.mp hparameters
        exact ⟨_, Option.map_eq_some_iff.mpr ⟨_, hgroups, rfl⟩⟩
      · exact ⟨_, rfl⟩
  obtain ⟨behind, hbehind⟩ := hsome
  obtain ⟨isSpecialization, hhead⟩ :=
    @outcome_behindArguments line keyword tokens behind memory inClass declaration names start
      place hbehind
  exact ⟨isSpecialization, behind, hbehind, hhead ▸ h⟩

/-- The body of a class becomes a declaration of the kind asked for. -/
theorem kind_of_classBody {kind : Kind} {name : String} {access : Access} {d : Declaration}
    (h : (classBody declaration kind name access place).outcome line tokens memory =
      (.ok (d, rest), memory')) :
    d.kind = kind := by
  unfold classBody at h
  obtain ⟨bases, _, _, -, h⟩ := outcome_bind_eq_ok.mp h
  obtain ⟨_, _, _, -, h⟩ := outcome_bind_eq_ok.mp h
  obtain ⟨_, _, _, -, h⟩ := outcome_bind_eq_ok.mp h
  obtain ⟨members, _, _, -, h⟩ := outcome_bind_eq_ok.mp h
  obtain ⟨_, _, _, -, h⟩ := outcome_bind_eq_ok.mp h
  split at h
  · obtain ⟨_, _, _, -, h⟩ := outcome_bind_eq_ok.mp h
    obtain ⟨_, _, _, -, h⟩ := outcome_bind_eq_ok.mp h
    cases h
    rfl
  · obtain ⟨_, _, _, -, h⟩ := outcome_bind_eq_ok.mp h
    cases h
    rfl

end Behind

/-- What writes a type and its declarators is read without the keyword in front of it. -/
theorem outcome_classOrElaborated (h : WritesDeclarators tokens) :
    (classOrElaborated declaration inClass).outcome line (keyword :: tokens) memory =
      (member inClass).outcome line tokens memory := by
  obtain ⟨names, behind, rest, hnames, harguments, hrest⟩ := h
  have hclassNames := (@outcome_classNames_eq_ok line tokens behind memory memory names).mpr
    ⟨hnames, rfl⟩
  obtain ⟨isSpecialization, hhead⟩ :=
    @outcome_behindArguments line keyword behind rest memory inClass declaration names
    tokens (tokens.head?.elim line Token.line) harguments
  have hcases : (rest.head?.elim "" Token.text ≠ "\x7b" ∧ rest.head?.elim "" Token.text ≠ ":") ∧
      ¬(rest.head?.elim "" Token.text = ";" ∧ (className names).2.all isExportMacro = true) := by
    cases rest with
    | nil => exact ⟨⟨by decide, by decide⟩, fun h => absurd h.1 (by decide)⟩
    | cons t tail =>
      obtain ⟨hbody, hbases, hannounced⟩ := hrest t rfl
      exact ⟨⟨hbody, hbases⟩, fun h => hannounced h.1 h.2⟩
  rw [classOrElaborated_eq, outcome_bind_ok outcome_next, outcome_bind_ok outcome_get,
    outcome_bind_ok outcome_line', outcome_bind_ok hclassNames, hhead, behindHead,
      outcome_bind_ok outcome_text, if_neg (not_or.mpr hcases.1),
    if_neg hcases.2]
  exact outcome_bind_ok rfl

/-- What does not write a type and its declarators is read as a class or as nothing, if it can be
read. -/
theorem kind_of_classOrElaborated (h : ¬WritesDeclarators tokens)
    (hok : (classOrElaborated declaration inClass).outcome line (keyword :: tokens) memory =
      (.ok (ds, rest), memory')) :
    ∀ d ∈ ds, d.kind = .classType ∨ d.kind = .classSpecialization := by
  rw [classOrElaborated_eq, outcome_bind_ok outcome_next, outcome_bind_ok outcome_get,
    outcome_bind_ok outcome_line'] at hok
  obtain ⟨names, behind, between, hclassNames, hbehind⟩ := outcome_bind_eq_ok.mp hok
  obtain ⟨hnames, -⟩ := outcome_classNames_eq_ok.mp hclassNames
  obtain ⟨isSpecialization, rest', harguments, hhead⟩ := behindArguments_eq_ok hbehind
  rw [behindHead, outcome_bind_ok outcome_text] at hhead
  split at hhead
  · obtain ⟨d, _, _, hbody, hdone⟩ := outcome_bind_eq_ok.mp hhead
    cases hdone
    intro d' hd'
    rw [List.mem_singleton.mp hd', kind_of_classBody hbody]
    split
    · exact .inr rfl
    · exact .inl rfl
  · rename_i hclass
    split at hhead
    · obtain ⟨_, _, _, -, hdone⟩ := outcome_bind_eq_ok.mp hhead
      cases hdone
      exact nofun
    · rename_i hannounced
      refine absurd ⟨names, behind, rest', hnames, harguments, fun t ht => ?_⟩ h
      rw [ht, Option.elim_some] at hclass hannounced
      exact ⟨fun hbody => hclass (.inl hbody), fun hbases => hclass (.inr hbases),
        fun hend hall => hannounced ⟨hend, hall⟩⟩

/-- A declaration keeps the line that it knows, and else takes the line of its first token. -/
theorem outcome_declarationWith :
    (declarationWith declaration inClass).outcome line (t :: tokens) memory =
      match (declarationForm declaration inClass).outcome line (t :: tokens) memory with
      | (.ok (ds, rest), memory) =>
        (.ok (ds.map fun d => if d.line = 0 then { d with line := t.line } else d, rest), memory)
      | (.error e, memory) => (.error e, memory) := by
  simp only [declarationWith, outcome_bind, outcome_line, outcome_pure]
  cases (declarationForm declaration inClass).outcome line (t :: tokens) memory with
  | mk result memory => cases result <;> rfl

/-- A declaration is one of the forms, with the line where it begins unless it has one. -/
theorem declarationWith_eq_ok :
    (declarationWith declaration inClass).outcome line
    (t :: tokens) memory = (.ok (ds, rest), memory') ↔
      ∃ read, (declarationForm declaration inClass).outcome line (t :: tokens) memory =
        (.ok (read, rest), memory') ∧
            ds = read.map fun d => if d.line = 0 then { d with line := t.line } else d := by
  rw [outcome_declarationWith]
  cases (declarationForm declaration inClass).outcome line (t :: tokens) memory with
  | mk result memory =>
    cases result with
    | ok read => exact ⟨by rintro ⟨⟩; exact ⟨_, rfl, rfl⟩, by rintro ⟨read, ⟨⟩, rfl⟩; rfl⟩
    | error e => exact iff_of_false (fun h => by cases h) (by rintro ⟨read, ⟨⟩, -⟩)

/-- Giving lines to declarations changes nothing else. -/
theorem unplaced_placed (place : Nat) (ds : List Declaration) :
    (ds.map fun d => if d.line = 0 then { d with line := place } else d).map Declaration.unplaced =
      ds.map Declaration.unplaced := by
  rw [List.map_map]
  refine List.map_congr_left fun d _ => ?_
  simp only [Function.comp_apply]
  split <;> rfl

/-- The class keywords choose their own form. -/
theorem outcome_declarationForm_class (hkeyword : keyword.text ∈ ["class", "struct", "union"]) :
    (declarationForm declaration inClass).outcome line (keyword :: tokens) memory =
      (classOrElaborated declaration inClass).outcome line (keyword :: tokens) memory := by
  rw [declarationForm, outcome_bind_ok outcome_text, List.head?_cons, Option.elim_some]
  simp only [List.mem_cons, List.not_mem_nil, or_false] at hkeyword
  rcases hkeyword with h | h | h <;> simp only [h]

/-- A class keyword in front of a type and its declarators makes no difference, whatever comes of
reading them. -/
theorem outcome_declarationForm_elaborated (hkeyword : keyword.text ∈ ["class", "struct", "union"])
    (hfirst : t.text ∉ formWords) (h : WritesDeclarators (t :: tokens)) :
    (declarationForm declaration' inClass).outcome line (keyword :: t :: tokens) memory =
      (declarationForm declaration inClass).outcome line (t :: tokens) memory := by
  rw [outcome_declarationForm_class hkeyword, outcome_classOrElaborated h,
    outcome_declarationForm_of_notMem hfirst]

/-- Functions and variables are read as they are without a class keyword in front of their type,
exactly if what stands behind the keyword writes a type and its declarators and no class. -/
theorem declaration_elaborated_iff {bound bound' : Nat}
    (hkeyword : keyword.text ∈ ["class", "struct", "union"]) (hfirst : t.text ∉ formWords)
    (hplain : (declarationWithin (bound + 1) inClass).outcome line (t :: tokens) memory =
      (.ok (ds, rest), memory'))
    (hne : ds ≠ []) (hkinds : ∀ d ∈ ds, d.kind.isFunction = true ∨ d.kind.isVariable = true) :
    (∃ ds' rest' memory'',
      (declarationWithin (bound' + 1) inClass).outcome line (keyword :: t :: tokens) memory =
        (.ok (ds', rest'), memory'') ∧ ds'.map Declaration.unplaced = ds.map Declaration.unplaced) ↔
      WritesDeclarators (t :: tokens) := by
  obtain ⟨read, hread, hds⟩ := declarationWith_eq_ok.mp hplain
  constructor
  · rintro ⟨ds', rest', memory'', helaborated, hsame⟩
    by_contra hclass
    obtain ⟨read', hread', rfl⟩ := declarationWith_eq_ok.mp helaborated
    rw [outcome_declarationForm_class hkeyword] at hread'
    rw [unplaced_placed] at hsame
    -- what is read as a class differs from a function and a variable by its kind
    obtain ⟨d, hd⟩ := List.exists_mem_of_ne_nil ds hne
    obtain ⟨d', hd', hunplaced⟩ : ∃ d' ∈ read', d'.unplaced = d.unplaced :=
      List.mem_map.mp (hsame ▸ List.mem_map_of_mem hd)
    have hkind : d'.kind = d.kind :=
      (congrArg Declaration.kind hunplaced : d'.unplaced.kind = d.unplaced.kind)
    have hplainKind := hkind ▸ hkinds d hd
    rcases kind_of_classOrElaborated hclass hread' d' hd' with hclassKind | hclassKind
    all_goals
      rw [hclassKind] at hplainKind
      rcases hplainKind with hplainKind | hplainKind <;> cases hplainKind
  · intro hwrites
    refine ⟨_, rest, memory', declarationWith_eq_ok.mpr ⟨read, ?_, rfl⟩, ?_⟩
    · rw [outcome_declarationForm_elaborated hkeyword hfirst hwrites, hread]
    · rw [hds, unplaced_placed, unplaced_placed]

/-- Two variables of the named type, of which the second is a pointer. -/
theorem declaration_elaborated_iff_list :
    let read : List Declaration :=
      [{ kind := .freeVariable, name := "x", type? := some (.named "T"), line := 1 },
        { kind := .freeVariable, name := "y", type? := some (.pointer (.named "T")), line := 1 }]
    let tokens := [word "x", mark ",", mark "*", word "y", mark ";"]
    (declarationWithin 1 none).outcome 1 (word "T" :: tokens) {} = (.ok (read, []), {}) ∧
      ((∃ ds' rest' memory'',
          (declarationWithin 1 none).outcome 1 (word "struct" :: word "T" :: tokens) {} =
          (.ok (ds', rest'), memory'') ∧
            ds'.map Declaration.unplaced = read.map Declaration.unplaced) ↔
        WritesDeclarators (word "T" :: tokens)) := by
  intro read tokens
  have hplain : (declarationWithin (0 + 1) none).outcome 1 (word "T" :: tokens) {} =
    (.ok (read, []), {}) := rfl
  exact ⟨hplain, declaration_elaborated_iff (by decide) (by decide) hplain (List.cons_ne_nil _ _)
    (by simp [read, Kind.isVariable])⟩

/-- A function that is declared with a class keyword in front of its result type is lost. -/
theorem declaration_elaborated_lost :
    let tokens := [word "T", word "f", mark "(", word "int", mark ")", mark ";"]
    (declarationWithin 1 none).outcome 1 tokens {} =
        (.ok ([{ kind := .freeFunction, name := "f", returnType? := some (.named "T"), line := 1
                 parameters := [{ name := "", type := .builtin .int }] }], []), {}) ∧
      (declarationWithin 1 none).outcome 1 (word "class" :: tokens) {} = (.ok ([], []), {}) :=
  ⟨rfl, rfl⟩

end Parser

end Header

end Interop
