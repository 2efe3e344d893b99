import Interop.Proofs.Header.DeclarationReading
import Interop.Proofs.Header.Spelling

namespace Interop.Header

open Interop.Header.Parser hiding line

variable {rest : List Token}

namespace CoreMember

theorem beginsDeclaration (inClass : Identifier) (m : CoreMember)
    (hlabel : ∀ access, m ≠ .label access) (rest : List Token) :
    BeginsDeclaration (m.tokens inClass.text ++ rest) := by
  cases m with
  | simple d => exact beginsDeclaration_simple d rest
  | label access => exact absurd rfl (hlabel access)
  | constructor marks parameters =>
    have h := ((BeginsMember.word inClass.isName (word_apart (.inr inClass.isFree)).2
      (CoreParameter.tokenList parameters ++ marks.tokensBehind ++ rest)).behindSpecifiers
        marks).beginsDeclaration
    simpa [tokens] using h
  | destructor marks name =>
    have hbegins : BeginsMember (.mark "~" :: .word name.text :: .mark "(" :: .mark ")" ::
        (marks.tokensBehind ++ rest)) :=
      ⟨_, _, rfl, rfl, by decide⟩
    simpa [tokens] using (hbegins.behindSpecifiers marks).beginsDeclaration
  | nested head members =>
    refine ⟨.word head.keyword, _, by rw [tokens, ClassHead.tokens]; rfl, rfl, ?_⟩
    unfold ClassHead.keyword
    split <;> decide

/-- A member that is no label has the access of its place. -/
theorem declaration_access (inClass : String) (access : Access) (m : CoreMember)
    (hlabel : ∀ access, m ≠ .label access) :
    m.declaration inClass access = { m.declaration inClass .exposed with access } := by
  match m with
  | .simple d => cases d <;> rfl
  | .label access => exact absurd rfl (hlabel access)
  | .constructor marks parameters => rfl
  | .destructor marks name => rfl
  | .nested head members => rfl

theorem accessBehind_eq (access : Access) (m : CoreMember) (hlabel : ∀ access, m ≠ .label access) :
    m.accessBehind access = access := by
  match m with
  | .label access => exact absurd rfl (hlabel access)
  | .simple _ => rfl
  | .constructor _ _ => rfl
  | .destructor _ _ => rfl
  | .nested _ _ => rfl

theorem length_tokens (inClass : Identifier) (m : CoreMember) :
    0 < (m.tokens inClass.text).length := by
  by_cases hlabel : ∀ access, m ≠ .label access
  · obtain ⟨first, behind, htokens, -⟩ := m.beginsDeclaration inClass hlabel []
    rw [List.append_nil] at htokens
    simp [htokens]
  · push Not at hlabel
    obtain ⟨access, rfl⟩ := hlabel
    simp [tokens]

mutual

/-- A member is taken from its tokens, if the bound for nested declarations is large enough. -/
theorem given (inClass : Identifier) : (m : CoreMember) → (∀ access, m ≠ .label access) → ∀ bound,
    (m.tokens inClass.text).length ≤ bound + 1 →
      ∀ rest, Gives (declarationWithin (bound + 1) (some inClass.text))
      (m.tokens inClass.text ++ rest) [m.declaration inClass.text .exposed] rest
  | .simple d, _, bound, _, rest => gives_simple (some inClass.text) d
  | .label access, hlabel, _, _, _ => absurd rfl (hlabel access)
  | .constructor marks parameters, _, bound, _, rest => gives_constructor inClass marks parameters
  | .destructor marks name, _, bound, _, rest => gives_destructor inClass marks name
  | .nested head members, _, bound, hbound, rest => by
    have hlength : (tokenList head.name.text members).length ≤ bound := by
      rw [tokens, ClassHead.tokens] at hbound
      simp only [List.length_append, List.length_cons] at hbound
      omega
    have hmembers : Gives
        (Parser.declarations (declarationWithin bound) (some head.name.text) head.defaultAccess)
        (tokenList head.name.text members ++ .mark "\x7d" :: .mark ";" :: rest)
        (CoreMember.declarations head.name.text head.defaultAccess members) (.mark "\x7d" ::
            .mark ";" :: rest) := by
      intro line memory haliases
      obtain ⟨memory', haliases', hloops⟩ :=
        loops head.name members bound hlength head.defaultAccess []
        (.mark ";" :: rest) line memory haliases
      exact ⟨memory', haliases', hloops.outcome_loop⟩
    have hclass := @gives_class _ (some inClass.text) _ head _ _ hmembers
    rw [tokens, declaration, List.append_assoc, List.append_assoc]
    exact hclass

/-- The members of a class are taken from their tokens. -/
theorem loops (inClass : Identifier) :
    (ms : List CoreMember) → ∀ bound, (tokenList inClass.text ms).length ≤ bound →
    ∀ access found rest line memory, memory.aliases = [] → ∃ memory', memory'.aliases = [] ∧
      Loops (declarationStep (declarationWithin bound) (some inClass.text)) line
        (found.reverse ++ CoreMember.declarations inClass.text access ms)
          (.mark "\x7d" :: rest) memory' (access, found)
        (tokenList inClass.text ms ++ .mark "\x7d" :: rest) memory
  | [], bound, _, access, found, rest, line, memory, haliases => by
    refine ⟨memory, haliases, .done ?_⟩
    simp [declarationStep, tokenList, CoreMember.declarations, done]
  | m :: ms, bound, hbound, access, found, rest, line, memory, haliases => by
    have hlength := m.length_tokens inClass
    rw [tokenList, List.length_append] at hbound
    by_cases hlabel : ∀ access, m ≠ .label access
    · obtain ⟨bound, rfl⟩ := Nat.exists_eq_add_one_of_ne_zero (show bound ≠ 0 by omega)
      have hgiven := given inClass m hlabel bound (by omega)
        (tokenList inClass.text ms ++ .mark "\x7d" :: rest)
      obtain ⟨memory₁, haliases₁, hstep⟩ :=
        @outcome_declarationStep line _ _ memory _ _ access found _
        (m.beginsDeclaration inClass hlabel _) hgiven haliases
      obtain ⟨memory', haliases', hloops⟩ := loops inClass ms (bound + 1) (by omega) access
        (m.declaration inClass.text access :: found) rest line memory₁ haliases₁
      rw [List.reverse_cons, List.append_assoc] at hloops
      rw [Option.isSome_some,
        if_pos rfl, ← m.declaration_access inClass.text access hlabel] at hstep
      rw [tokenList, CoreMember.declarations, m.accessBehind_eq access hlabel, List.append_assoc]
      refine ⟨memory', haliases', .again hstep ?_ hloops⟩
      simp only [List.length_append] at hlength ⊢
      omega
    · push Not at hlabel
      obtain ⟨label, rfl⟩ := hlabel
      obtain ⟨memory', haliases', hloops⟩ := loops inClass ms bound (by omega) label
        ((CoreMember.label label).declaration inClass.text access :: found) rest line memory
          haliases
      rw [List.reverse_cons, List.append_assoc] at hloops
      rw [tokenList, CoreMember.declarations, List.append_assoc]
      refine ⟨memory', haliases', .again ?_ ?_ hloops⟩
      · rw [tokens, CoreMember.declaration]
        cases label <;> simp [declarationStep, accessLabel?, Access.word, Access.ofWord?, again]
      · simp only [List.length_append]
        omega

end

/-- Members give their declarations, each with the access in force. The bound of the nesting has to
be above the number of tokens. -/
theorem gives_declarations (inClass : Identifier) (ms : List CoreMember) {bound : Nat}
    (hbound : (tokenList inClass.text ms).length ≤ bound) (access : Access) (rest : List Token) :
    Gives (Parser.declarations (declarationWithin bound) (some inClass.text) access)
      (tokenList inClass.text ms ++ .mark "\x7d" :: rest)
        (CoreMember.declarations inClass.text access ms)
      (.mark "\x7d" :: rest) := by
  intro line memory haliases
  obtain ⟨memory', haliases', hloops⟩ :=
    loops inClass ms bound hbound access [] rest line memory haliases
  exact ⟨memory', haliases', hloops.outcome_loop⟩

end CoreMember

namespace CoreDeclaration

theorem beginsDeclaration (d : CoreDeclaration) (rest : List Token) :
    BeginsDeclaration (d.tokens ++ rest) := by
  cases d with
  | simple d => exact beginsDeclaration_simple d rest
  | record head members =>
    refine ⟨.word head.keyword, _, by rw [tokens, ClassHead.tokens]; rfl, rfl, ?_⟩
    unfold ClassHead.keyword
    split <;> decide
  | nameSpace name ds => exact ⟨.word "namespace", _, by rw [tokens]; rfl, rfl, by decide⟩

theorem length_tokens (d : CoreDeclaration) : 0 < d.tokens.length := by
  obtain ⟨first, behind, htokens, -⟩ := d.beginsDeclaration []
  rw [List.append_nil] at htokens
  simp [htokens]

mutual

/-- A declaration is taken from its tokens, if the bound for nested declarations is large enough. -/
theorem given : (d : CoreDeclaration) → ∀ bound, d.tokens.length ≤ bound + 1 → ∀ rest,
    Gives (declarationWithin (bound + 1) none) (d.tokens ++ rest) [d.declaration] rest
  | .simple d, bound, _, rest => gives_simple none d
  | .record head members, bound, hbound, rest => by
    have hlength : (CoreMember.tokenList head.name.text members).length ≤ bound := by
      rw [tokens, ClassHead.tokens] at hbound
      simp only [List.length_append, List.length_cons] at hbound
      omega
    have hclass := @gives_class _ none _ head _ _
      (CoreMember.gives_declarations head.name members hlength head.defaultAccess
        (.mark ";" :: rest))
    rw [tokens, declaration, List.append_assoc, List.append_assoc]
    exact hclass
  | .nameSpace name ds, bound, hbound, rest => by
    have hlength : (tokenList ds).length ≤ bound := by
      rw [tokens] at hbound
      simp only [List.length_append, List.length_cons] at hbound
      omega
    have hinside : Gives (Parser.declarations (declarationWithin bound) none .exposed)
        (tokenList ds ++ .mark "\x7d" :: rest) (CoreDeclaration.declarations ds) (.mark "\x7d" ::
            rest) := by
      intro line memory haliases
      obtain ⟨memory', haliases', hloops⟩ :=
        loops ds bound hlength [] (.mark "\x7d" :: rest) (by simp) line memory haliases
      exact ⟨memory', haliases', hloops.outcome_loop⟩
    rw [tokens, declaration, List.append_assoc, List.append_assoc]
    exact gives_nameSpace name hinside

/-- The declarations of a namespace or of a header are taken from their tokens. -/
theorem loops : (ds : List CoreDeclaration) → ∀ bound, (tokenList ds).length ≤ bound → ∀ found rest,
    (∀ t ∈ rest.head?, t.text = "\x7d") → ∀ line memory, memory.aliases = [] →
      ∃ memory', memory'.aliases = [] ∧
        Loops (declarationStep (declarationWithin bound) none) line
        (found.reverse ++ CoreDeclaration.declarations ds) rest
        memory' (.exposed, found) (tokenList ds ++ rest) memory
  | [], bound, _, found, rest, hrest, line, memory, haliases => by
    refine ⟨memory, haliases, .done ?_⟩
    cases rest with
    | nil => simp [declarationStep, tokenList, CoreDeclaration.declarations, done]
    | cons t rest =>
      simp [declarationStep, tokenList, CoreDeclaration.declarations, done, hrest t rfl]
  | d :: ds, bound, hbound, found, rest, hrest, line, memory, haliases => by
    have hlength := d.length_tokens
    rw [tokenList, List.length_append] at hbound
    obtain ⟨bound, rfl⟩ := Nat.exists_eq_add_one_of_ne_zero (show bound ≠ 0 by omega)
    have hgiven := given d bound (by omega) (tokenList ds ++ rest)
    obtain ⟨memory₁, haliases₁, hstep⟩ :=
      @outcome_declarationStep line _ _ memory _ _ .exposed found _
      (d.beginsDeclaration _) hgiven haliases
    obtain ⟨memory', haliases', hloops⟩ :=
      loops ds (bound + 1) (by omega) (d.declaration :: found) rest hrest line memory₁
      haliases₁
    rw [List.reverse_cons, List.append_assoc] at hloops
    rw [tokenList, CoreDeclaration.declarations, List.append_assoc]
    refine ⟨memory', haliases', .again hstep ?_ hloops⟩
    simp only [List.length_append] at hlength ⊢
    omega

end

/-- The tokens of declarations are read as those declarations. -/
theorem result_readTokens (ds : List CoreDeclaration) :
    (readTokens (tokenList ds)).result = .ok (CoreDeclaration.declarations ds) := by
  obtain ⟨memory', -, hloops⟩ := loops ds ((tokenList ds).length + 1) (by omega) [] [] nofun
    ((tokenList ds).getLast?.elim 0 Token.line) {} rfl
  have hheader : header.outcome ((tokenList ds).getLast?.elim 0 Token.line) (tokenList ds) {} =
      (.ok (CoreDeclaration.declarations ds, []), memory') := by
    have hdeclarations := hloops.outcome_loop
    rw [List.append_nil] at hdeclarations
    simp [header, declarations_eq, hdeclarations]
  have hresult : (readTokens (tokenList ds)).result =
      (header.outcome ((tokenList ds).getLast?.elim 0 Token.line) (tokenList ds)
        {}).1.map (·.1) := rfl
  rw [hresult, hheader]
  rfl

theorem line_declaration (d : CoreDeclaration) : d.declaration.line = 1 := by
  match d with
  | .simple (.variable _ _ _ _) => rfl
  | .simple (.function _ _ _ _) => rfl
  | .simple (.enumeration _ _ _ _) => rfl
  | .record _ _ => rfl
  | .nameSpace _ _ => rfl

/-- Declarations that all stand in one line keep their order. -/
theorem inLineOrder_declarations (ds : List CoreDeclaration) :
    inLineOrder (CoreDeclaration.declarations ds) [] = CoreDeclaration.declarations ds := by
  have hline : ∀ d ∈ CoreDeclaration.declarations ds, d.line = 1 := by
    induction ds with
    | nil => nofun
    | cons d ds ih => exact List.forall_mem_cons.mpr ⟨d.line_declaration, ih⟩
  rw [inLineOrder, List.append_nil]
  exact List.mergeSort_of_pairwise (List.pairwise_of_forall_mem_list fun a ha b hb =>
    by simp [hline a ha, hline b hb])

/-- The canonical spelling of declarations is read as exactly those declarations. -/
theorem readUnit_source (path : Path) (ds : List CoreDeclaration) :
    (readUnit {} path (source ds)).result = .ok
    (.ofDeclarations path (CoreDeclaration.declarations ds)) := by
  obtain ⟨text, hpreprocess, htokens⟩ := ofConfigured_source ds
  simp only [readUnit, hpreprocess, htokens, result_readTokens, Except.map,
    inLineOrder_declarations]

/-- A namespace with an enum and a class, and what is read from it. -/
theorem readUnit_source_shapes :
    ∃ ds : List CoreDeclaration,
      source ds = "namespace shapes \x7b enum class E : int \x7bA, B = 2\x7d; " ++
          "class C : public Base<int> \x7b public: C(); " ++
          "virtual double area(T const& t, int n = B) const = 0; \x7d; \x7d" ∧
        (readUnit {} ⟨"A.h"⟩ (source ds)).result = .ok (.ofDeclarations ⟨"A.h"⟩
          [{ kind := .nameSpace, name := "shapes", line := 1, children := [
            { kind := .enumeration, name := "E", flags := { isScoped := true, isDefinition := true }
              type? := some (.builtin .int), line := 1, children := [
                { kind := .enumerator, name := "A", line := 1 },
                { kind := .enumerator, name := "B", value? := some "2", line := 1 }] },
            { kind := .classType, name := "C", flags := { isDefinition := true }, line := 1,
              children := [
              { kind := .baseClass, name := "Base<int>",
                type? := some (.applied "Base" [.builtin .int]), line := 1 },
              { kind := .accessLabel, name := "public", line := 1 },
              { kind := .constructor, name := "C", line := 1 },
              { kind := .memberFunction, name := "area", line := 1
                flags := { isVirtual := true, isPure := true, isConst := true }
                returnType? := some (.builtin .double)
                parameters := [
                  { name := "t", type := .reference (.qualified (.named "T") true false) .lvalue },
                  { name := "n", type := .builtin .int, default? := some "B" }] }] }] }]) := by
  let int : CoreType := .layered (.builtin .int) {} []
  let base : CoreBase :=
    { access? := some .exposed, type := .applied ⟨⟨"Base", by decide, by decide⟩, []⟩ [int],
      isProper := rfl }
  let constT : CoreType :=
    .layered (.named ⟨⟨"T", by decide, by decide⟩, []⟩ (by decide))
      { isConst := true, reference? := some .lvalue } []
  let enumerators : List CoreEnumerator := [{ name := ⟨"A", by decide, by decide⟩ },
    { name := ⟨"B", by decide, by decide⟩, value? := some (.literal ⟨.number, "2", by decide⟩) }]
  let parameters : List CoreParameter := [
    { type := constT, name? := some ⟨"t", by decide, by decide⟩, isProper := rfl },
    { type := int, name? := some ⟨"n", by decide, by decide⟩
      default? := some (.name false ⟨⟨"B", by decide, rfl⟩, []⟩), isProper := rfl }]
  let members : List CoreMember := [.label .exposed, .constructor {} [], .simple
    (.function { isVirtual := true, isConst := true, isPure := true }
      (.layered (.builtin .double) {} [])
      ⟨"area", by decide, by decide⟩ parameters)]
  let ds : List CoreDeclaration := [.nameSpace ⟨"shapes", by decide, by decide⟩ [
    .simple (.enumeration true ⟨"E", by decide, by decide⟩ (some .int) enumerators),
    .record { name := ⟨"C", by decide, by decide⟩, bases := [base] } members]]
  exact ⟨ds, by decide +kernel, readUnit_source ⟨"A.h"⟩ ds⟩

end CoreDeclaration

end Interop.Header
