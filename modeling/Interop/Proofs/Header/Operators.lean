import Interop.Header.MemberSyntax
import Interop.Proofs.Header.TypeReading

namespace Interop.Header.Parser

open Token

/-- Whether a token is a qualifier. -/
def IsQualifier (t : Token) : Prop :=
  t.text = "const" ∨ t.text = "volatile"

instance (t : Token) : Decidable (IsQualifier t) :=
  inferInstanceAs (Decidable (t.text = "const" ∨ t.text = "volatile"))

/-- Whether tokens are the operators in front of a declared name: stars with their qualifiers, and
references. -/
inductive Operators : List Token → Prop
  | nil : Operators []
  | pointer {star : Token} {qualifiers rest : List Token} (hstar : star.text = "*")
      (hqualifiers : ∀ t ∈ qualifiers, IsQualifier t) (h : Operators rest) :
        Operators (star :: (qualifiers ++ rest))
  | reference {mark : Token} {rest : List Token} (hmark : mark.text = "&" ∨
      mark.text = "&&") (h : Operators rest) :
      Operators (mark :: rest)

/-- The texts of tokens that do not stand where a declared name may. -/
def operatorTexts : List String :=
  builtinWords ++ ["const", "volatile", "*", "&", "&&", "::", "<", ">", ","]

/-- Whether the operators in front of a declared name end before the given tokens. -/
def EndsOperators (tokens : List Token) : Prop :=
  ∀ t ∈ tokens.head?, t.text ∉ operatorTexts

/-- Whether tokens may stand behind a base type. -/
inductive Continues : List Token → Prop
  | mk {qualifiers operators rest : List Token} (hqualifiers : ∀ t ∈ qualifiers, IsQualifier t)
      (hoperators : Operators operators)
      (hrest : EndsOperators rest) : Continues (qualifiers ++ (operators ++ rest))

variable {line : Nat} {memory memory' : Memory} {tokens front operators rest : List Token}
    {type : NativeType}

/-- What the next token satisfies, whether it belongs to a run or, if the run is empty, to what
stands behind it. -/
theorem forall_head_append {P : Token → Prop} (hfront : ∀ t ∈ front.head?, P t)
    (hrest : front = [] → ∀ t ∈ rest.head?, P t) :
    ∀ t ∈ (front ++ rest).head?, P t := by
  cases front with
  | nil => exact hrest rfl
  | cons t front => exact hfront

/-- What may stand behind a base type neither goes on with it nor parts or ends arguments. -/
theorem Continues.head (h : Continues tokens) :
    ∀ t ∈ tokens.head?, t.text ∉ builtinWords ∧ t.text ∉ ["::", "<", ">", ","] := by
  obtain ⟨hqualifiers, hoperators, hrest⟩ := h
  rename_i qualifiers operators rest
  intro t ht
  cases qualifiers with
  | cons qualifier qualifiers =>
    obtain rfl := Option.some.inj ht
    rcases hqualifiers qualifier List.mem_cons_self with h | h <;> rw [h] <;> decide
  | nil =>
    cases hoperators with
    | nil =>
      have hnot := hrest t ht
      simp only [operatorTexts, List.mem_append, not_or] at hnot
      exact ⟨hnot.1, fun hmem => hnot.2 (List.mem_of_mem_drop (i := 5) hmem)⟩
    | pointer hstar =>
      obtain rfl := Option.some.inj ht
      rw [hstar]
      decide
    | reference hmark =>
      obtain rfl := Option.some.inj ht
      rcases hmark with h | h <;> rw [h] <;> decide

theorem Continues.nil : Continues [] :=
  @Continues.mk [] [] [] nofun .nil nofun

/-- The row in front of tokens that it does not go on with. -/
theorem span_front (f : Token → Bool) (h : ∀ t ∈ rest.head?, f t = false) :
    (front ++ rest).span f = (front.takeWhile f, front.dropWhile f ++ rest) := by
  rw [List.span_eq_takeWhile_dropWhile]
  induction front with
  | nil =>
    cases rest with
    | nil => rfl
    | cons t rest => simp [h t rfl]
  | cons t front ih =>
    cases ht : f t with
    | true =>
      have hrow := congrArg Prod.fst ih
      have hbehind := congrArg Prod.snd ih
      simp only at hrow hbehind
      simp [ht, hrow, hbehind]
    | false => simp [ht]

/-- The qualifiers that a row of tokens begins with. -/
def leadingRow (row : List Token) : List Token :=
  row.takeWhile fun t => t.text == "const" || t.text == "volatile"

/-- The tokens behind the qualifiers that a row begins with. -/
def behindRow (row : List Token) : List Token :=
  row.dropWhile fun t => t.text == "const" || t.text == "volatile"

/-- Qualifiers are read from the front of a run, as far as they go. -/
theorem outcome_qualifiers_front (h : ∀ t ∈ rest.head?, ¬IsQualifier t) :
    qualifiers.outcome line (front ++ rest) memory =
      (.ok (((leadingRow front).any (·.text == "const"),
        (leadingRow front).any (·.text == "volatile")), behindRow front ++ rest), memory) := by
  have hspan := @span_front front rest (fun t => t.text == "const" || t.text ==
      "volatile") fun t ht => by
    simpa [IsQualifier] using h t ht
  simp only [qualifiers, outcome_bind, outcome_get, hspan]
  rfl

/-- Operators and what ends them begin with no qualifier. -/
theorem not_qualifier_operators (hoperators : Operators operators) (hrest : EndsOperators rest) :
    ∀ t ∈ (operators ++ rest).head?, ¬IsQualifier t := by
  intro t ht
  cases hoperators with
  | nil =>
    have hnot := hrest t ht
    rintro (h | h) <;> exact hnot (by rw [h]; decide)
  | pointer hstar =>
    obtain rfl := Option.some.inj ht
    simp [IsQualifier, hstar]
  | reference hmark =>
    obtain rfl := Option.some.inj ht
    rcases hmark with h | h <;> simp [IsQualifier, h]

theorem outcome_qualifiers_row {row : List Token} (hrow : ∀ t ∈ row, IsQualifier t)
    (hrest : ∀ t ∈ rest.head?, ¬IsQualifier t) :
    qualifiers.outcome line (row ++ rest) memory =
      (.ok ((row.any (·.text == "const"), row.any (·.text == "volatile")), rest), memory) := by
  have hspan : (row ++ rest).span (fun t => t.text == "const" || t.text == "volatile") =
      (row, rest) :=
    span_append (fun t ht => by simpa [IsQualifier] using hrow t ht) fun t ht =>
      by simpa [IsQualifier] using hrest t ht
  simp only [qualifiers, outcome_bind, outcome_get, hspan]
  rfl

/-- What ends operators is taken for no layer. -/
theorem indirection_of_endsOperators (hrest : EndsOperators rest) (type : NativeType) :
    (indirection type).outcome line rest memory = (.ok (.inr type, rest), memory) := by
  have hends : rest.head?.elim "" Token.text ∉ ["*", "&", "&&"] := by
    cases rest with
    | nil => decide
    | cons t rest =>
      have hnot : t.text ∉ operatorTexts := hrest t rfl
      have hsub : ∀ mark ∈ ["*", "&", "&&"], mark ∈ operatorTexts := by decide
      exact fun hmem => hnot (hsub _ hmem)
  simp only [indirection, outcome_bind, outcome_text]
  split
  all_goals simp_all [done]

/-- Operators behind a type give it pointers and references, and leave what declarators share as it
is. -/
theorem loops_operators (h : Operators operators) (type : NativeType) :
    ∃ result, sharedType result = sharedType type ∧ ∀ line memory rest, EndsOperators rest →
      Loops indirection line result rest memory type (operators ++ rest) memory := by
  induction h generalizing type with
  | nil => exact ⟨type, rfl,
    fun line memory rest hrest => .done (indirection_of_endsOperators hrest type)⟩
  | @pointer star qualifiers operators hstar hqualifiers hoperators ih =>
    obtain ⟨result, hshared, hloops⟩ :=
      ih ((NativeType.pointer type).qualify (qualifiers.any (·.text == "const"))
      (qualifiers.any (·.text == "volatile")))
    refine ⟨result, hshared.trans ?_,
      fun line memory rest hrest => .again ?_ ?_ (hloops line memory rest hrest)⟩
    · cases qualifiers.any (·.text == "const") <;> cases qualifiers.any
        (·.text == "volatile") <;> rfl
    · have hrow := @outcome_qualifiers_row line memory (operators ++ rest) qualifiers hqualifiers
        (not_qualifier_operators hoperators hrest)
      simp [indirection, hstar, hrow, again]
    · simp only [List.cons_append, List.append_assoc, List.length_cons, List.length_append]
      omega
  | @reference mark operators hmark hoperators ih =>
    obtain ⟨result, hshared, hloops⟩ :=
      ih (.reference type (if mark.text = "&" then .lvalue else .rvalue))
    refine ⟨result, hshared,
      fun line memory rest hrest => .again ?_ (by simp) (hloops line memory rest hrest)⟩
    rcases hmark with h | h <;> simp [indirection, h, again]

/-- What is read behind a base type: qualifiers, which are put together with those in front of it,
and operators. -/
def behindBase (isConst isVolatile : Bool) (base : NativeType) : Parser NativeType := do
  let (const₂, volatile₂) ← qualifiers
  indirections (base.qualify (isConst || const₂) (isVolatile || volatile₂))

/-- What may stand in front of a base type. -/
def leadingWords : List String :=
  ["const", "volatile", "typename", "struct", "class", "enum"]

theorem typeWith_of_leading {parser : Parser NativeType} {row : List Token}
    (hspan : tokens.span (fun t => leadingWords.contains t.text) = (row, rest)) :
    (typeWith parser).outcome line tokens memory =
      (baseType parser >>= behindBase (row.any (·.text == "const"))
        (row.any (·.text == "volatile"))).outcome line rest
        memory := by
  have hleading : leadingQualifiers.outcome line tokens memory =
      (.ok ((row.any (·.text == "const"), row.any (·.text == "volatile")), rest), memory) := by
    rw [leadingQualifiers, outcome_bind, outcome_get]
    exact congrArg (fun taken : List Token × List Token =>
      (Except.ok ((taken.1.any (·.text == "const"), taken.1.any (·.text == "volatile")), taken.2),
        memory)) hspan
  rw [typeWith, outcome_bind_ok hleading]
  rfl

/-- Behind a base type, all that may stand there is read, up to where a declared name may stand. -/
theorem endsOperators_behindBase {isConst isVolatile : Bool} {base : NativeType}
    (h : Continues tokens)
    (hbehind : (behindBase isConst isVolatile base).outcome line tokens memory = (.ok (type, rest),
      memory')) :
    EndsOperators rest := by
  obtain ⟨hqualifiers, hoperators, hrest⟩ := h
  obtain ⟨result, -, hloops⟩ := loops_operators hoperators (base.qualify _ _)
  rw [behindBase, outcome_bind_ok
    (outcome_qualifiers_row hqualifiers (not_qualifier_operators hoperators hrest))] at hbehind
  cases (hloops line memory _ hrest).outcome_loop.symm.trans hbehind
  exact hrest

end Interop.Header.Parser
