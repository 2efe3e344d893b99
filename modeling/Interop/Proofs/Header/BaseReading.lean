import Interop.Proofs.Header.Fronts

namespace Interop.Header.Parser

open Token

variable {line bound : Nat} {memory memory' : Memory} {t : Token} {run tokens rest : List Token}
    {base type : NativeType}
  {found : List NativeType} {lead : String}

/-- Whether a bracketed run is read as a type without qualifiers and operators, and to its end. -/
structure IsBase (memory : Memory) (run : List Token) (base : NativeType) : Prop where
  bracketed : Bracketed (fun _ => True) run
  simple : AllSimple run
  reads : ∀ line, (baseType (typeWithin run.length)).outcome line run memory =
    (.ok (base, []), memory)

theorem behindArgument_eq_ok {argument : NativeType} {next : List NativeType ⊕ List NativeType}
    (h : (behindArgument found argument).outcome line tokens memory = (.ok (next, rest), memory')) :
    memory' = memory ∧ ∃ t, tokens = t :: rest ∧
      ((∃ arguments, next = .inr arguments) → t.text = ">") := by
  rw [behindArgument] at h
  obtain ⟨eaten, behind, between, heat, hbehind⟩ := outcome_bind_eq_ok.mp h
  clear h
  obtain ⟨heaten, rfl⟩ := outcome_eat_eq_ok.mp heat
  cases eaten with
  | true =>
    obtain ⟨t, -, rfl⟩ := heaten
    cases hbehind
    exact ⟨rfl, t, rfl, fun hdone => by simp at hdone⟩
  | false =>
    obtain ⟨rfl, -⟩ := heaten
    obtain ⟨nothing, behind, between, hexpect, hdone⟩ := outcome_bind_eq_ok.mp hbehind
    cases hdone
    obtain ⟨⟨t, ht, rfl⟩, rfl⟩ := outcome_expect_eq_ok.mp hexpect
    exact ⟨rfl, t, rfl, fun _ => ht⟩

/-- Reading an argument leaves what is behind the token that parts or ends the arguments. -/
theorem argumentStep_eq_ok {next : List NativeType ⊕ List NativeType}
    (h : (argumentStep (typeWithin bound) found).outcome line tokens memory = (.ok (next, rest),
      memory')) :
    memory' = memory ∧ ∃ front t, tokens = front ++ t :: rest ∧
      ((∃ arguments, next = .inr arguments) → t.text = ">") := by
  obtain ⟨argument, behind, hbehind, h⟩ : ∃ argument behind, behind <:+ tokens ∧
      (behindArgument found argument).outcome line behind memory = (.ok (next, rest), memory') := by
    by_cases htype : startsType tokens = true ∧ ∃ type behind, EndsArgument behind ∧
        (typeWithin bound).outcome line tokens memory = (.ok (type, behind), memory)
    · obtain ⟨hstart, type, behind, hends, hreads⟩ := htype
      rw [argumentStep_of_type hstart hreads hends] at h
      exact ⟨type, behind, ((typeWithin_consumes bound).of_ok ⟨List.suffix_rfl, rfl⟩ hreads).1, h⟩
    · rw [argumentStep_of_run fun hstart result memory' hparser => ?_] at h
      · obtain ⟨taken, behind, between, hupTo, hbehind⟩ := outcome_bind_eq_ok.mp h
        obtain ⟨hrun, rfl⟩ := outcome_takeRun_eq_ok.mp hupTo
        exact ⟨_, behind, runUntil_suffix tokens hrun, hbehind⟩
      · obtain rfl := memory_of_typeWithin hparser
        refine ⟨rfl, fun type behind hresult hends => htype ⟨hstart, type, behind, hends, ?_⟩⟩
        rw [hparser, hresult]
  obtain ⟨rfl, t, rfl, htext⟩ := behindArgument_eq_ok h
  obtain ⟨front, rfl⟩ := hbehind
  exact ⟨rfl, front, t, rfl, htext⟩

/-- The arguments of a template end with a closing bracket. -/
theorem exists_closing {opening : Token} {arguments : List NativeType}
    (h : (templateArguments (typeWithin bound)).outcome line (opening :: tokens) memory =
      (.ok (arguments, rest), memory')) :
    ∃ front closing, tokens = front ++ closing :: rest ∧ closing.text = ">" := by
  rw [templateArguments_eq] at h
  obtain ⟨nothing, behind, between, hexpect, hinside⟩ := outcome_bind_eq_ok.mp h
  clear h
  obtain ⟨⟨first, -, hfirst⟩, rfl⟩ := outcome_expect_eq_ok.mp hexpect
  obtain ⟨rfl, rfl⟩ := List.cons.inj hfirst
  obtain ⟨eaten, behind, between, heat, hloop⟩ := outcome_bind_eq_ok.mp hinside
  clear hinside
  obtain ⟨heaten, rfl⟩ := outcome_eat_eq_ok.mp heat
  cases eaten with
  | true =>
    obtain ⟨t, ht, rfl⟩ := heaten
    cases hloop
    exact ⟨[], t, rfl, ht⟩
  | false =>
    obtain ⟨rfl, -⟩ := heaten
    refine loop_induction (fun _ tokens _ => ∃ front closing, tokens = front ++ closing :: rest ∧
      closing.text = ">") ?_ ?_ hloop
    · intro found tokens memory hstep
      obtain ⟨-, front, t, rfl, ht⟩ := argumentStep_eq_ok hstep
      exact ⟨front, t, rfl, ht ⟨_, rfl⟩⟩
    · rintro found found' tokens behind memory between hstep ⟨front, closing, rfl, hclosing⟩
      obtain ⟨-, front', t, rfl, -⟩ := argumentStep_eq_ok hstep
      exact ⟨front' ++ t :: front, closing, by simp, hclosing⟩

/-- What a name that is read begins with: a template with its arguments, a scope in front of a
further name, or the whole of the name. -/
theorem nameStep_cases {parser : Parser NativeType} {next : String ⊕ NativeType}
    (h : (nameStep parser lead).outcome line tokens memory = (.ok (next, rest), memory')) :
    ∃ t tail, tokens = t :: tail ∧ t.kind = .identifier ∧
      ((∃ opening behind, tail = opening :: behind ∧ opening.text = "<" ∧
          (templateArguments parser >>= behindInstance (lead ++ t.text)).outcome line tail memory =
            (.ok (next, rest), memory')) ∨
        (∃ colons name behind, tail = colons :: name :: behind ∧ colons.text = "::" ∧
          name.kind = .identifier ∧ next = .inl (lead ++ t.text ++ "::") ∧ rest = name :: behind ∧
            memory' = memory) ∨
        EndsScopes tail ∧ (plainName (lead ++ t.text)).outcome line tail memory =
            (.ok (next, rest), memory')) := by
  obtain ⟨name, behind, between, hidentifier, -⟩ := outcome_bind_eq_ok.mp h
  obtain ⟨⟨t, ht, -, rfl⟩, -⟩ := outcome_identifier_eq_ok.mp hidentifier
  refine ⟨t, behind, rfl, ht, ?_⟩
  by_cases hinstance : ∃ opening tail, behind = opening :: tail ∧ opening.text = "<"
  · obtain ⟨opening, tail, rfl, hopening⟩ := hinstance
    rw [nameStep_instance ht hopening] at h
    exact .inl ⟨opening, tail, rfl, hopening, h⟩
  by_cases hscope : ∃ colons name tail, behind = colons :: name :: tail ∧ colons.text = "::" ∧
    name.kind = .identifier
  · obtain ⟨colons, name, tail, rfl, hcolons, hname⟩ := hscope
    rw [nameStep_again ht hcolons hname] at h
    cases h
    exact .inr (.inl ⟨colons, name, tail, rfl, hcolons, hname, rfl, rfl, rfl⟩)
  have hends : EndsScopes behind := by
    intro next hnext
    obtain ⟨tail, rfl⟩ := List.head?_eq_some_iff.mp hnext
    refine ⟨fun hopening => hinstance ⟨next, tail, rfl, hopening⟩, fun hcolons => ?_⟩
    cases tail with
    | nil => rfl
    | cons name tail =>
      have hname : name.kind ≠ .identifier :=
        fun hname => hscope ⟨next, name, tail, rfl, hcolons, hname⟩
      simp [hname]
  rw [nameStep_plain ht hends] at h
  exact .inr (.inr ⟨hends, h⟩)

/-- What stands behind the arguments of an instance is a member that is read with it, or nothing of
the instance. -/
theorem behindInstance_eq_ok {name : String} {arguments : List NativeType}
    {next : String ⊕ NativeType}
    (h : (behindInstance name arguments).outcome line tokens memory = (.ok (next, rest), memory')) :
    (rest = tokens ∧ next = .inr (.applied name arguments)) ∨
      ∃ colons member, tokens = colons :: member :: rest ∧ colons.text = "::" ∧
        member.kind = .identifier ∧
            next = .inr (.unexposed ((NativeType.applied name arguments).spelling ++ "::" ++
            member.text)) := by
  rcases exists_next_or "::" tokens with ⟨colons, tail, rfl, hcolons⟩ | hnot
  · obtain ⟨member, hmember, rfl⟩ := behindInstance_colons hcolons h
    rw [behindInstance_member name arguments hcolons hmember] at h
    cases h
    exact .inr ⟨colons, member, rfl, hcolons, hmember, rfl⟩
  · rw [behindInstance_applied name arguments hnot] at h
    cases h
    exact .inl ⟨rfl, rfl⟩

/-- An instance that is read to the end of the tokens is read in front of whatever may stand behind
a base type. -/
theorem outcome_instance_front {opening : Token} {name : String} (hopening : opening.text = "<")
    (hbracketed : Bracketed (fun _ => True) run) (hsimple : AllSimple run)
    (hbound : run.length < bound)
    (h : (templateArguments (typeWithin bound) >>= behindInstance name).outcome line
      (opening :: run) memory = (.ok (.inr base, []), memory')) {bound' : Nat} (hbound' :
        run.length < bound') (hrest : Continues rest) :
    (templateArguments (typeWithin bound') >>= behindInstance name).outcome line
    (opening :: (run ++ rest)) memory =
      (.ok (.inr base, rest), memory) := by
  obtain ⟨arguments, behind, between, harguments, hinstance⟩ := outcome_bind_eq_ok.mp h
  obtain rfl : between = memory :=
    ((templateArguments_consumes (typeWithin_consumes bound)).of_ok ⟨List.suffix_rfl,
      rfl⟩ harguments).2
  obtain ⟨front, closing, rfl, hclosing⟩ := exists_closing harguments
  have hkind : closing.kind ≠ .identifier := fun hkind => by
    have hname := hsimple closing (by simp) hkind
    rw [hclosing] at hname
    exact absurd (hname '>' (by decide)) (by decide)
  -- What is left behind the closing bracket is a member of the instance or nothing at all.
  obtain ⟨hmember, hend⟩ : (behind = [] ∨ ∃ colons member, behind = [colons, member] ∧
      colons.text = "::" ∧ member.kind = .identifier) ∧ ∀ rest, Continues rest →
        (behindInstance name arguments).outcome line (behind ++ rest) between = (.ok (.inr base,
            rest), between) := by
    rcases behindInstance_eq_ok hinstance with ⟨rfl, hbase⟩ | ⟨colons, member, rfl, hcolons,
      hmember, hbase⟩
    · refine ⟨.inl rfl, fun rest hrest => ?_⟩
      rw [hbase, List.nil_append]
      exact behindInstance_applied name arguments fun t ht htext =>
        (hrest.head t ht).2 (by simp [htext])
    · refine ⟨.inr ⟨colons, member, rfl, hcolons, hmember⟩, fun rest _ => ?_⟩
      rw [hbase]
      exact behindInstance_member name arguments hcolons hmember
  have hinside : ∀ rest, Continues rest → ContinuesInstance (behind ++ rest) := by
    intro rest hrest
    rcases hmember with rfl | ⟨colons, member, rfl, hcolons, hmember⟩
    · exact .here hrest
    · exact .member hcolons hmember hrest
  have hopen : ∀ u ∈ behind, isClosing u.text = false := by
    rcases hmember with rfl | ⟨colons, member, rfl, hcolons, hmember⟩
    · exact nofun
    · have hplain := plain_of_identifier (hsimple member (by simp)) hmember
      simp [hcolons, hplain.2]
      decide
  have hfront := hbracketed.front (by rw [Plain, hclosing]; decide) hopen
  have hsimpleFront : AllSimple front := fun t ht => hsimple t (List.mem_append_left _ ht)
  simp only [List.length_append, List.length_cons] at hbound hbound'
  obtain ⟨arguments', left, -, hreads⟩ :=
      outcome_templateArguments_front hopening hclosing hfront fun left hleft =>
    settlesType hclosing hkind hleft.bracketed (hsimpleFront.suffix hleft.suffix)
  have halone := hreads bound (by omega) behind (by simpa using hinside [] .nil)
  rw [harguments] at halone
  obtain ⟨rfl, hleft⟩ : arguments = arguments' ∧ behind = left ++ behind := by simpa using halone
  obtain rfl : left = [] := List.append_left_eq_self.mp hleft.symm
  have htogether := hreads bound' (by omega) (behind ++ rest) (hinside rest hrest)
  rw [List.append_assoc, List.cons_append, outcome_bind_ok htogether]
  exact hend rest hrest

/-- An instance is a base type. -/
theorem unlayered_instance {parser : Parser NativeType} {name : String} {next : String ⊕ NativeType}
    (h : (templateArguments parser >>= behindInstance name).outcome line tokens memory =
      (.ok (next, rest), memory')) :
    ∃ type, Unlayered type ∧ next = .inr type := by
  obtain ⟨arguments, behind, between, -, hinstance⟩ := outcome_bind_eq_ok.mp h
  rcases behindInstance_eq_ok hinstance with ⟨-, rfl⟩ | ⟨_, _, _, _, _, rfl⟩
  · exact ⟨_, .applied _ _, rfl⟩
  · exact ⟨_, .unexposed _, rfl⟩

theorem Continues.endsScopes (h : Continues rest) : EndsScopes rest := by
  intro t ht
  obtain ⟨-, hmarks⟩ := h.head t ht
  exact ⟨fun htext => hmarks (by simp [htext]), fun htext => absurd (by simp [htext]) hmarks⟩

/-- A name that is read to the end of the tokens is read in front of whatever may stand behind a
base type. -/
theorem loops_name_front (hbracketed : Bracketed (fun _ => True) run) (hsimple : AllSimple run)
    (hbound : run.length ≤ bound)
    (h : (loop lead (nameStep (typeWithin bound))).outcome line run memory =
      (.ok (base, []), memory')) :
    Unlayered base ∧ ∀ bound', run.length ≤ bound' → ∀ rest, Continues rest →
      Loops (nameStep (typeWithin bound')) line base rest memory lead (run ++ rest) memory := by
  refine loop_induction (fun lead tokens memory => Bracketed (fun _ => True) tokens →
    AllSimple tokens → tokens.length ≤ bound → Unlayered base ∧ ∀ bound', tokens.length ≤ bound' →
      ∀ rest, Continues rest →
        Loops (nameStep (typeWithin bound')) line base rest memory lead
        (tokens ++ rest) memory) ?_ ?_ h hbracketed hsimple hbound
  · intro lead tokens memory hstep hbracketed hsimple hbound
    obtain ⟨t, tail, rfl, ht, hcases⟩ := nameStep_cases hstep
    have htail := hbracketed.tail (plain_of_identifier (hsimple t List.mem_cons_self) ht).1
    rcases hcases with ⟨opening, inside, rfl, hopening, hinstance⟩ | ⟨_, _, _, _, _, _, hnext,
      _⟩ | ⟨-, hplain⟩
    · obtain ⟨type, hunlayered, htype⟩ := unlayered_instance hinstance
      cases htype
      have hinside := htail.tail (by rw [hopening]; decide)
      have hsimple' := hsimple.suffix
        ((List.suffix_cons opening inside).trans (List.suffix_cons t _))
      simp only [List.length_cons] at hbound
      refine ⟨hunlayered, fun bound' hbound' rest hrest => .done ?_⟩
      simp only [List.length_cons] at hbound'
      rw [List.cons_append, List.cons_append, nameStep_instance ht hopening]
      exact outcome_instance_front hopening hinside hsimple' (by omega) hinstance (by omega) hrest
    · cases hnext
    · obtain ⟨type, hunlayered, hreads⟩ := outcome_plainName memory (lead ++ t.text)
      cases (hreads line tail).symm.trans hplain
      refine ⟨hunlayered, fun bound' _ rest hrest => .done ?_⟩
      rw [List.cons_append, List.nil_append, nameStep_plain ht hrest.endsScopes, hreads]
  · intro lead lead' tokens behind memory between hstep ih hbracketed hsimple hbound
    obtain ⟨t, tail, rfl, ht, hcases⟩ := nameStep_cases hstep
    have htail := hbracketed.tail (plain_of_identifier (hsimple t List.mem_cons_self) ht).1
    rcases hcases with ⟨_, _, _, _, hinstance⟩ | ⟨colons, name, after, rfl, hcolons, hname, hnext,
      rfl, rfl⟩ | ⟨-, hplain⟩
    · obtain ⟨type, -, htype⟩ := unlayered_instance hinstance
      cases htype
    · cases hnext
      simp only [List.length_cons] at hbound
      obtain ⟨hunlayered, hloops⟩ := ih (htail.tail (by rw [hcolons]; decide))
        (hsimple.suffix ((List.suffix_cons colons _).trans (List.suffix_cons t _)))
          (by simp only [List.length_cons]; omega)
      refine ⟨hunlayered, fun bound' hbound' rest hrest => ?_⟩
      simp only [List.length_cons] at hbound'
      exact .again (nameStep_again ht hcolons hname) (by simp)
        (hloops bound' (by simp only [List.length_cons]; omega) rest hrest)
    · obtain ⟨type, -, hreads⟩ := outcome_plainName memory (lead ++ t.text)
      cases (hreads line tail).symm.trans hplain

theorem Continues.not_builtin (h : Continues rest) : ∀ t ∈ rest.head?, isBuiltinWord t = false := by
  intro t ht
  obtain ⟨hword, -⟩ := h.head t ht
  simp [isBuiltinWord, hword]

/-- A name that is read as a base type is read in front of whatever may stand behind one. -/
theorem outcome_namedType_front (hbracketed : Bracketed (fun _ => True) run)
    (hsimple : AllSimple run) (hbound : run.length ≤ bound)
    (h : (namedType (typeWithin bound)).outcome line run memory = (.ok (base, []), memory')) :
    Unlayered base ∧ ∀ bound', run.length ≤ bound' → ∀ rest, Continues rest →
      (namedType (typeWithin bound')).outcome line (run ++ rest) memory = (.ok (base, rest),
          memory) := by
  rw [namedType_eq] at h
  obtain ⟨eaten, behind, between, heat, hloop⟩ := outcome_bind_eq_ok.mp h
  clear h
  obtain ⟨heaten, rfl⟩ := outcome_eat_eq_ok.mp heat
  cases eaten with
  | true =>
    obtain ⟨colons, hcolons, rfl⟩ := heaten
    simp only [List.length_cons] at hbound
    obtain ⟨hunlayered, hloops⟩ := loops_name_front (hbracketed.tail (by rw [hcolons]; decide))
      (hsimple.suffix (List.suffix_cons colons behind)) (by omega) hloop
    refine ⟨hunlayered, fun bound' hbound' rest hrest => ?_⟩
    simp only [List.length_cons] at hbound'
    rw [namedType_eq, List.cons_append, outcome_bind_ok (outcome_eat_of_next hcolons)]
    exact (hloops bound' (by omega) rest hrest).outcome_loop
  | false =>
    obtain ⟨rfl, hnot⟩ := heaten
    obtain ⟨hunlayered, hloops⟩ := loops_name_front hbracketed hsimple hbound hloop
    refine ⟨hunlayered, fun bound' hbound' rest hrest => ?_⟩
    have hnot' : ∀ t ∈ (run ++ rest).head?, t.text ≠ "::" := by
      cases run with
      | nil => exact fun t ht htext => (hrest.head t ht).2 (by simp [htext])
      | cons first tail => exact hnot
    rw [namedType_eq, outcome_bind_ok (outcome_eat_of_not_next hnot')]
    exact (hloops bound' hbound' rest hrest).outcome_loop

/-- The forms of a base type: words of builtin types, `auto`, `decltype` with its operand, or a
name. -/
theorem IsBase.forms (h : IsBase memory run base) :
    (run ≠ [] ∧ (∀ t ∈ run, isBuiltinWord t = true) ∧
      base = .builtin (builtinOfWords (run.map Token.text))) ∨
      (∃ t, run = [t] ∧ t.kind = .identifier ∧ t.text = "auto" ∧ base = .unexposed "auto") ∨
      (∃ t opening inner closing, run = t :: opening :: (inner ++ [closing]) ∧
        t.kind = .identifier ∧ t.text = "decltype" ∧ opening.text = "(" ∧ closing.text = ")" ∧
          Bracketed (fun _ => True) inner ∧
        base = .unexposed ("decltype(" ++ Token.spell inner ++ ")")) ∨
      (run ≠ [] ∧ (∀ t ∈ run.head?, isBuiltinWord t = false) ∧
        (∀ t ∈ run.head?, t.kind = .identifier → t.text ≠ "auto" ∧ t.text ≠ "decltype") ∧
        ∀ line, (namedType (typeWithin run.length)).outcome line run memory =
            (.ok (base, []), memory)) := by
  obtain ⟨hbracketed, -, hreads⟩ := h
  cases run with
  | nil => cases hreads 0
  | cons t tail =>
    by_cases hword : isBuiltinWord t = true
    · left
      have hspan : (t :: tail).span isBuiltinWord = ((t :: tail).takeWhile isBuiltinWord,
          (t :: tail).dropWhile isBuiltinWord) :=
        List.span_eq_takeWhile_dropWhile _ _
      have heq := (baseType_of_words hspan (by simp [hword])).symm.trans (hreads 0)
      obtain ⟨hbase, hrest⟩ : _ = base ∧ (t :: tail).dropWhile isBuiltinWord = [] :=
        by simpa using heq
      have hall : (t :: tail).takeWhile isBuiltinWord = t :: tail := by
        have hboth := @List.takeWhile_append_dropWhile _ isBuiltinWord (t :: tail)
        rwa [hrest, List.append_nil] at hboth
      refine ⟨List.cons_ne_nil t tail, fun u hu => ?_, ?_⟩
      · exact List.mem_takeWhile_imp (hall.symm ▸ hu)
      · rw [← hbase, hall]
    have hnone : ∀ u ∈ (t :: tail).head?, isBuiltinWord u = false := fun u hu =>
      Option.some.inj hu ▸ Bool.eq_false_iff.mpr hword
    by_cases hauto : t.kind = .identifier ∧ t.text = "auto"
    · obtain ⟨hkind, htext⟩ := hauto
      cases (baseType_of_auto hkind htext).symm.trans (hreads 0)
      exact .inr (.inl ⟨t, rfl, hkind, htext, rfl⟩)
    by_cases hdecltype : t.kind = .identifier ∧ t.text = "decltype"
    · obtain ⟨hkind, htext⟩ := hdecltype
      have heq := (baseType_of_decltype hkind htext).symm.trans (hreads 0)
      obtain ⟨inner, behind, between, hbalanced, hdone⟩ := outcome_bind_eq_ok.mp heq
      cases hdone
      obtain ⟨⟨opening, inside, hopening, rfl, hrun⟩, -⟩ := outcome_balanced_eq_ok.mp hbalanced
      have htail := hbracketed.tail (by rw [htext]; decide)
      obtain ⟨closing, inner', left, rfl, henclose, hinner, -⟩ :=
        htail.group_of_opening (by rw [hopening]; rfl)
      rw [hopening] at henclose
      rw [balancedRun_closed hinner (by decide) henclose.eq_of_round] at hrun
      cases hrun
      exact .inr (.inr (.inl ⟨t, opening, _, closing, rfl, hkind, htext, hopening,
        henclose.eq_of_round, hinner, rfl⟩))
    · have hown : ∀ u ∈ (t :: tail).head?, u.kind = .identifier → u.text ≠ "auto" ∧
          u.text ≠ "decltype" := by
        intro u hu hkind
        obtain rfl := Option.some.inj hu
        exact ⟨fun htext => hauto ⟨hkind, htext⟩, fun htext => hdecltype ⟨hkind, htext⟩⟩
      refine .inr (.inr (.inr ⟨List.cons_ne_nil t tail, hnone, hown, fun line => ?_⟩))
      rw [← baseType_of_name hnone hown]
      exact hreads line

/-- A base type is read in front of whatever may stand behind one. -/
theorem IsBase.outcome_front (h : IsBase memory run base) (hbound : run.length ≤ bound)
    (hrest : Continues rest) :
    (baseType (typeWithin bound)).outcome line
    (run ++ rest) memory = (.ok (base, rest), memory) := by
  rcases h.forms with ⟨hne, hwords, rfl⟩ | ⟨t, rfl, hkind, htext, rfl⟩ |
    ⟨t, opening, inner, closing, rfl, hkind, htext, hopening, hclosing, hinner, rfl⟩ | ⟨hne, hnone,
      hown, hreads⟩
  · exact baseType_of_words (span_append hwords hrest.not_builtin) hne
  · exact baseType_of_auto hkind htext
  · have hrun : balancedRun "(" ")" 0 (inner ++ closing :: rest) = some (inner, rest) :=
      balancedRun_closed hinner (by decide) hclosing
    have hbalanced : (balanced "(" ")").outcome line (opening :: (inner ++ closing :: rest))
        memory = (.ok (inner, rest), memory) :=
      outcome_balanced_eq_ok.mpr ⟨⟨opening, _, hopening, rfl, hrun⟩, rfl⟩
    rw [List.cons_append, baseType_of_decltype hkind htext, List.cons_append, List.append_assoc,
      List.singleton_append, outcome_bind_ok hbalanced]
    rfl
  · obtain ⟨-, hnamed⟩ := outcome_namedType_front h.bracketed h.simple le_rfl (hreads line)
    have hhead : (run ++ rest).head? = run.head? := List.head?_append_of_ne_nil run hne
    rw [baseType_of_name (hhead ▸ hnone) (hhead ▸ hown)]
    exact hnamed bound hbound rest hrest

theorem IsBase.unlayered (h : IsBase memory run base) : Unlayered base := by
  rcases h.forms with ⟨-, -, rfl⟩ | ⟨_, -, -, -, rfl⟩ | ⟨_, _, _, _, -, -, -, -, -, -, rfl⟩ | ⟨-,
    -, -, hreads⟩
  · exact .builtin _
  · exact .unexposed _
  · exact .unexposed _
  · exact (outcome_namedType_front h.bracketed h.simple le_rfl (hreads 0)).1

/-- What is read as a name begins with double colons and an identifier, or with an identifier that
arguments or a further name follow. -/
theorem namedType_begins {parser : Parser NativeType}
    (h : (namedType parser).outcome line run memory = (.ok (base, []), memory')) :
    (∃ colons name tail, run = colons :: name :: tail ∧ colons.text = "::" ∧
      name.kind = .identifier) ∨ ∃ name tail, run = name :: tail ∧ name.kind = .identifier ∧
          ∀ t ∈ tail.head?, t.text = "<" ∨ t.text = "::" := by
  rw [namedType_eq] at h
  obtain ⟨eaten, behind, between, heat, hloop⟩ := outcome_bind_eq_ok.mp h
  clear h
  obtain ⟨heaten, rfl⟩ := outcome_eat_eq_ok.mp heat
  rw [loop, outcome_bind, outcome_get] at hloop
  obtain ⟨next, after, memory₁, hstep, hlast⟩ : ∃ next after memory₁,
      (nameStep parser (if eaten then "::" else "")).outcome line behind between =
        (.ok (next, after), memory₁) ∧ ((∃ type, next = .inr type) → after = []) := by
    rcases exists_step_of_loopWithin hloop with hdone | ⟨lead', after, memory₁, -, hagain, -⟩
    · exact ⟨_, _, _, hdone, fun _ => rfl⟩
    · exact ⟨_, _, _, hagain, fun hdone => by simp at hdone⟩
  obtain ⟨name, tail, rfl, hname, hcases⟩ := nameStep_cases hstep
  cases eaten with
  | true =>
    obtain ⟨colons, hcolons, rfl⟩ := heaten
    exact .inl ⟨colons, name, tail, rfl, hcolons, hname⟩
  | false =>
    obtain ⟨rfl, -⟩ := heaten
    refine .inr ⟨name, tail, rfl, hname, ?_⟩
    rcases hcases with ⟨opening, inside, rfl, hopening, -⟩ | ⟨colons, _, _, rfl, hcolons, -⟩ | ⟨-,
      hplain⟩
    · exact fun t ht => .inl (Option.some.inj ht ▸ hopening)
    · exact fun t ht => .inr (Option.some.inj ht ▸ hcolons)
    · obtain ⟨type, -, hreads⟩ :=
        outcome_plainName between ((if false then "::" else "") ++ name.text)
      cases (hreads line tail).symm.trans hplain
      rw [hlast ⟨_, rfl⟩]
      simp

/-- A base type begins with an identifier or with double colons, and no round bracket follows there,
unless the type is one of `decltype`. -/
theorem IsBase.begins (h : IsBase memory run base) :
    ∃ head tail, run = head :: tail ∧ (head.kind = .identifier ∨ head.text = "::") ∧
      ((∀ t ∈ tail.head?, t.text ≠ "(") ∨ head.text = "decltype") := by
  have hword : ∀ t : Token, isBuiltinWord t = true → t.kind = .identifier := by
    intro t ht
    rw [isBuiltinWord, Bool.and_eq_true, beq_iff_eq] at ht
    exact ht.1
  rcases h.forms with ⟨hne, hwords, -⟩ | ⟨t, rfl, hkind, htext, -⟩ | ⟨t, _, _, _, rfl, hkind,
    htext, -⟩ | ⟨-, -, -, hreads⟩
  · obtain ⟨head, tail, rfl⟩ := List.exists_cons_of_ne_nil hne
    refine ⟨head, tail, rfl, .inl (hword head (hwords head List.mem_cons_self)),
      .inl fun t ht => ?_⟩
    have hmem : t ∈ head :: tail := List.mem_cons_of_mem head (List.mem_of_mem_head? ht)
    exact ne_of_simple (h.simple t hmem) (hword t (hwords t hmem)) (by decide)
  · exact ⟨t, [], rfl, .inl hkind, .inl (by simp)⟩
  · exact ⟨t, _, rfl, .inl hkind, .inr htext⟩
  · rcases namedType_begins (hreads 0) with ⟨colons, name, tail, rfl, hcolons, hname⟩ | ⟨name,
      tail, rfl, hname, htail⟩
    · refine ⟨colons, name :: tail, rfl, .inr hcolons, .inl fun t ht => ?_⟩
      obtain rfl := Option.some.inj ht
      exact ne_of_simple (h.simple name (by simp)) hname (by decide)
    · refine ⟨name, tail, rfl, .inl hname, .inl fun t ht => ?_⟩
      rcases htail t ht with htext | htext <;> rw [htext] <;> decide

end Interop.Header.Parser
