import Interop.Proofs.Header.Lexing
import Interop.Proofs.Header.Standalone

namespace Interop.Header

namespace Token

open Lexeme

variable {t u : Token} {cs text behind : List Char} {tokens run rest : List Token} {c : Char}
    {n : Nat}

/-- Whether a token makes another lexeme with the text behind it. -/
inductive Merges (t : Token) (behind : List Char) : Prop
  /-- A longer mark. -/
  | mark {m : List Char} (hkind : t.kind = .mark) (hm : m ∈ longMarks)
      (hlength : t.text.toList.length < m.length)
      (h : m <+: t.text.toList ++ behind)
  /-- A number that begins with a point. -/
  | point {d : Char} (hkind : t.kind = .mark) (htext : t.text.toList = ['.'])
      (hd : behind.head? = some d)
      (hdigit : d.isDigit = true)
  /-- A comment. -/
  | comment (hkind : t.kind = .mark) (htext : t.text.toList = ['/'])
    (h : (comment? ('/' :: behind)).isSome = true)
  /-- A number with a point in it. -/
  | fraction (hkind : t.kind = .number)
      (hdigits : (t.text.toList.all fun c => c.isDigit || c == '\'') = true)
      (h : behind.head? = some '.')

/-- A mark merges if a longer one, a number or a comment would begin with it. -/
theorem merges_mark_iff (hkind : t.kind = .mark) :
    Merges t behind ↔ (∃ m ∈ longMarks, t.text.toList.length < m.length ∧
      m <+: t.text.toList ++ behind) ∨ (t.text.toList = ['.'] ∧
        ∃ d ∈ behind.head?, d.isDigit = true) ∨
      (t.text.toList = ['/'] ∧ (comment? ('/' :: behind)).isSome = true) := by
  constructor
  · rintro (⟨-, hm, hlength, h⟩ | ⟨-, htext, hd, hdigit⟩ | ⟨-, htext, h⟩ | ⟨hnumber⟩)
    · exact .inl ⟨_, hm, hlength, h⟩
    · exact .inr (.inl ⟨htext, _, hd, hdigit⟩)
    · exact .inr (.inr ⟨htext, h⟩)
    · rw [hkind] at hnumber
      cases hnumber
  · rintro (⟨m, hm, hlength, h⟩ | ⟨htext, d, hd, hdigit⟩ | ⟨htext, h⟩)
    · exact .mark hkind hm hlength h
    · exact .point hkind htext hd hdigit
    · exact .comment hkind htext h

/-- A number merges if digits, a fraction, an exponent or a suffix would go on with it. -/
theorem merges_number_iff (hkind : t.kind = .number) :
    Merges t behind ↔ (t.text.toList.all fun c => c.isDigit || c == '\'') = true ∧
      behind.head? = some '.' := by
  refine ⟨?_, fun h => .fraction hkind h.1 h.2⟩
  rintro (⟨h⟩ | ⟨h⟩ | ⟨h⟩ | ⟨-, hdigits, h⟩)
  · rw [hkind] at h
    cases h
  · rw [hkind] at h
    cases h
  · rw [hkind] at h
    cases h
  · exact ⟨hdigits, h⟩

/-- Characters that marks begin with go on with no word. -/
theorem singleMarks_apart (h : c = ' ' ∨ c ∈ singleMarks) :
    Directive.isNameChar c = false ∧ c ≠ '"' ∧ isNumberWord c = false := by
  have hall : ((' ' :: singleMarks).all fun c => !Directive.isNameChar c &&
      (c != '"' && !isNumberWord c)) = true := by
    decide
  have hthis := List.all_eq_true.mp hall c (List.mem_cons.mpr h)
  rw [Bool.and_eq_true, Bool.and_eq_true] at hthis
  simpa only [Bool.not_eq_true', bne_iff_ne] using hthis

/-- Marks of several characters are read as one. -/
theorem first?_of_longMark (h : cs ∈ longMarks) (rest : List Char) :
    first? (cs ++ rest) = some (.token .mark, cs.length) := by
  simp only [longMarks, List.map_cons, List.map_nil, List.mem_cons, List.not_mem_nil, or_false] at h
  rcases h with rfl | rfl | rfl | rfl | rfl | rfl | rfl | rfl | rfl | rfl | rfl | rfl | rfl | rfl |
    rfl | rfl | rfl <;> rfl

/-- What a mark of one character begins is a comment, a number or a mark. -/
theorem first?_of_singleMark (h : c ∈ singleMarks) (rest : List Char) :
    first? (c :: rest) = ((comment? (c :: rest)).map (LexemeKind.gap, ·) <|>
      (number? (c :: rest)).map (LexemeKind.token .number, ·) <|> (mark? (c :: rest)).map
          (LexemeKind.token .mark, ·)) := by
  have hall : (singleMarks.all fun c => !Text.isBlank c && (!Directive.isNameStart c &&
      ['\'', '"', 'u', 'U', 'L'].all (c != ·))) = true := by
    decide
  have hthis := List.all_eq_true.mp hall c h
  simp only [Bool.and_eq_true, Bool.not_eq_true', List.all_cons, List.all_nil, Bool.and_true,
    bne_iff_ne] at hthis
  obtain ⟨hblank, hname, happart⟩ := hthis
  have hstring : string? (c :: rest) = none := by
    unfold string?
    split <;> simp_all
  rw [first?, blanks?_cons hblank, hstring, character?_cons happart.1, identifier?, hname]
  rfl

/-- A point begins no number if no digit follows. -/
theorem number?_point :
    number? ('.' :: cs) = none ↔ ∀ d ∈ cs.head?, d.isDigit = false := by
  have hhex : hexLength? ('.' :: cs) = none := rfl
  rw [number?_eq, hhex, Option.map_eq_none_iff, mantissa?, if_neg (by decide), if_pos rfl,
    Option.map_eq_none_iff]
  cases cs with
  | nil => exact iff_of_true rfl fun d hd => by cases hd
  | cons d tail =>
    rw [runLength_cons]
    by_cases hd : d.isDigit = true
    · rw [if_pos hd]
      refine iff_of_false (fun h => ?_) fun h => ?_
      · cases h
      · exact absurd hd (by simp [h d rfl])
    · rw [if_neg hd]
      exact ⟨fun _ d' hd' => Option.some.inj hd' ▸ Bool.not_eq_true _ ▸ hd, fun _ => rfl⟩

/-- A mark of one character begins no number, unless it is a point in front of a digit. -/
theorem number?_of_singleMark (h : c ∈ singleMarks) :
    number? (c :: cs) = none ↔ ¬(c = '.' ∧ ∃ d ∈ cs.head?, d.isDigit = true) := by
  by_cases hpoint : c = '.'
  · subst hpoint
    simp [number?_point]
  · have hall : (singleMarks.all (!Char.isDigit ·)) = true := by decide
    have hdigit : c.isDigit = false := by simpa using List.all_eq_true.mp hall c h
    exact iff_of_true (number?_cons hdigit hpoint cs) fun h => hpoint h.1

theorem comment?_eq_none_iff :
    comment? (c :: cs) = none ↔ ¬(c = '/' ∧ (comment? ('/' :: cs)).isSome = true) := by
  by_cases hslash : c = '/'
  · subst hslash
    simp
  · exact iff_of_true (comment?_cons hslash cs) fun h => hslash h.1

theorem two_le_of_longMark : ∀ m ∈ longMarks, 2 ≤ m.length := by
  decide

/-- A mark of one character stays one if no longer mark begins with it. -/
theorem mark?_eq_one (h : c ∈ singleMarks) :
    mark? (c :: cs) = some 1 ↔ ∀ m ∈ longMarks, ¬m <+: c :: cs := by
  have hfind : longMarks.find? (·.isPrefixOf (c :: cs)) = none ↔
      ∀ m ∈ longMarks, ¬m <+: c :: cs := by
    simp only [List.find?_eq_none, List.isPrefixOf_iff_prefix]
  rw [← hfind, mark?]
  cases hlong : longMarks.find? (·.isPrefixOf (c :: cs)) with
  | none => simp [h]
  | some m =>
    have hlength := two_le_of_longMark m (List.mem_of_find?_eq_some hlong)
    simp only [Option.some.injEq, reduceCtorEq, iff_false]
    omega

/-- A long mark is no part of another one. -/
theorem eq_of_longMarks {m : List Char} (hm : m ∈ longMarks) (hcs : cs ∈ longMarks)
    (h : cs <+: m) : cs = m := by
  have hall : ∀ m ∈ longMarks, ∀ m' ∈ longMarks, m'.isPrefixOf m = true → m' = m := by decide
  exact hall m hm cs hcs (List.isPrefixOf_iff_prefix.mpr h)

/-- Marks of several characters do not merge. -/
theorem not_merges_of_longMark (hkind : t.kind = .mark) (h : t.text.toList ∈ longMarks) :
    ¬Merges t behind := by
  rw [merges_mark_iff hkind]
  rintro (⟨m, hm, hlength, hprefix⟩ | ⟨htext, -⟩ | ⟨htext, -⟩)
  · have hpart := List.prefix_of_prefix_length_le (List.prefix_append t.text.toList behind) hprefix
      hlength.le
    rw [eq_of_longMarks hm h hpart] at hlength
    exact absurd hlength (lt_irrefl _)
  · rw [htext] at h
    exact absurd h (by decide)
  · rw [htext] at h
    exact absurd h (by decide)

/-- A mark of one character is read back exactly if it does not merge. -/
theorem first?_of_singleMark_iff (hkind : t.kind = .mark) (hc : c ∈ singleMarks)
    (htext : t.text.toList = [c]) :
    first? (c :: behind) = some (.token .mark, 1) ↔ ¬Merges t behind := by
  have hparts : first? (c :: behind) = some (.token .mark, 1) ↔
      comment? (c :: behind) = none ∧ number? (c :: behind) = none ∧
          mark? (c :: behind) = some 1 := by
    rw [first?_of_singleMark hc]
    cases comment? (c :: behind) with
    | some n => simp
    | none => cases number? (c :: behind) <;> simp
  have hmerges : Merges t behind ↔ (∃ m ∈ longMarks, m <+: c :: behind) ∨
      (c = '.' ∧ ∃ d ∈ behind.head?, d.isDigit = true) ∨
          (c = '/' ∧ (comment? ('/' :: behind)).isSome = true) := by
    have hlength : ∀ m ∈ longMarks, 1 < m.length := two_le_of_longMark
    rw [merges_mark_iff hkind, htext]
    simp only [List.singleton_append, List.length_singleton, List.cons.injEq, and_true]
    refine or_congr_left (exists_congr fun m => and_congr_right fun hm => ?_)
    exact and_iff_right (hlength m hm)
  rw [hparts, comment?_eq_none_iff, number?_of_singleMark hc, mark?_eq_one hc, hmerges, not_or,
    not_or, not_exists]
  simp only [not_and]
  tauto

/-- A mark is read in front of a text exactly if it does not merge with it. -/
theorem first?_of_mark_iff (ht : t.IsLexeme) (hkind : t.kind = .mark) :
    first? (t.text.toList ++ behind) = some (.token .mark, t.text.toList.length) ↔
      ¬Merges t behind := by
  rcases ht.mark hkind with hlong | ⟨c, hc, htext⟩
  · exact iff_of_true (first?_of_longMark hlong behind) (not_merges_of_longMark hkind hlong)
  · rw [htext, List.singleton_append, List.length_singleton]
    exact first?_of_singleMark_iff hkind hc htext

/-- Behind digits alone a point goes on with the number. -/
theorem number?_ne_of_point (hdigits : (cs.all fun c => c.isDigit || c == '\'') = true)
    (h : number? cs = some cs.length) (rest : List Char) :
    number? (cs ++ '.' :: rest) ≠ some cs.length := by
  cases cs with
  | nil => cases h
  | cons c tail =>
    have hall := List.all_eq_true.mp hdigits
    have hdigit : c.isDigit = true := by
      by_contra hdigit
      have hpoint : c ≠ '.' := by
        rintro rfl
        exact absurd (hall '.' List.mem_cons_self) (by decide)
      rw [number?_cons (Bool.not_eq_true _ ▸ hdigit) hpoint] at h
      cases h
    have hhex : hexLength? (c :: tail ++ '.' :: rest) = none := by
      rw [Option.eq_none_iff_forall_ne_some]
      intro n hn
      obtain ⟨x, more, heq, hx, -⟩ := hexLength?_eq_some.mp hn
      cases tail with
      | nil =>
        simp only [List.cons_append, List.nil_append, List.cons.injEq] at heq
        obtain ⟨-, rfl, -⟩ := heq
        rcases hx with hx | hx <;> exact absurd hx (by decide)
      | cons d more' =>
        simp only [List.cons_append, List.cons.injEq] at heq
        obtain ⟨-, rfl, -⟩ := heq
        have hd := hall d (List.mem_cons_of_mem _ List.mem_cons_self)
        rcases hx with rfl | rfl <;> exact absurd hd (by decide)
    have hrun : runLength (fun c => c.isDigit || c == '\'') (tail ++ '.' :: rest) =
        tail.length := by
      rw [runLength_append (by simp),
        runLength_of_all fun d hd => hall d (List.mem_cons_of_mem c hd)]
    have hmantissa : mantissa? (c :: tail ++ '.' :: rest) =
        some ((c :: tail).length + (1 + runLength Char.isDigit rest)) := by
      rw [List.cons_append, mantissa?, if_pos hdigit]
      dsimp only
      rw [hrun, Nat.add_comm 1, ← List.length_cons (a := c), ← List.cons_append, List.drop_left,
        fractionLength]
    rw [number?_eq, hhex]
    simp only [hmantissa, Option.map_some, ne_eq, Option.some.injEq]
    omega

/-- A number is read in front of a text exactly if it does not merge with it. -/
theorem first?_of_number_iff (ht : t.IsLexeme) (hkind : t.kind = .number)
    (hbehind : ∀ c ∈ behind.head?, c = ' ' ∨ c ∈ singleMarks) :
    first? (t.text.toList ++ behind) = some (.token .number, t.text.toList.length) ↔
      ¬Merges t behind := by
  have hnumber : number? t.text.toList = some t.text.toList.length := by
    rw [IsLexeme, hkind] at ht
    exact ht
  rw [merges_number_iff hkind]
  constructor
  · rintro hfirst ⟨hdigits, hpoint⟩
    obtain ⟨rest, rfl⟩ := List.head?_eq_some_iff.mp hpoint
    exact number?_ne_of_point hdigits hnumber rest (ofKind?_of_first? hfirst)
  · intro hnot
    have hne : t.text.toList ≠ [] := by
      intro hnil
      rw [hnil] at hnumber
      cases hnumber
    refine first?_of_number hnumber behind ?_
    rw [number?_append_of (fun c hc => (singleMarks_apart (hbehind c hc)).2.2) hne
      (fun hpoint => ?_) ?_, hnumber]
    · intro _ n hmantissa hhex
      rw [number?_eq, hhex] at hnumber
      simp only [hmantissa, Option.map_some, Option.some.injEq] at hnumber
      rw [List.length_drop]
      omega
    · by_contra hdigits
      exact hnot ⟨Bool.not_eq_false _ ▸ hdigits, hpoint⟩

/-- A token is read in front of what is spelled behind it exactly if it does not merge with it. -/
theorem first?_iff_not_merges (ht : t.IsLexeme)
    (hbehind : t.kind ≠ .mark → ∀ c ∈ behind.head?, c = ' ' ∨ c ∈ singleMarks) :
    first? (t.text.toList ++ behind) = some (.token t.kind, t.text.toList.length) ↔
      ¬Merges t behind := by
  have hother : t.kind ≠ .mark → t.kind ≠ .number → ¬Merges t behind := by
    rintro hmark hnumber (⟨h⟩ | ⟨h⟩ | ⟨h⟩ | ⟨h⟩)
    · exact hmark h
    · exact hmark h
    · exact hmark h
    · exact hnumber h
  cases hkind : t.kind with
  | mark => exact first?_of_mark_iff ht hkind
  | number => exact first?_of_number_iff ht hkind (hbehind (by simp [hkind]))
  | identifier =>
    refine iff_of_true ?_ (hother (by simp [hkind]) (by simp [hkind]))
    rw [IsLexeme, hkind] at ht
    refine first?_of_isName (isName_of_identifier? ht) fun c hc => ?_
    have hapart := singleMarks_apart (hbehind (by simp [hkind]) c hc)
    exact ⟨hapart.1, hapart.2.1⟩
  | string =>
    refine iff_of_true ?_ (hother (by simp [hkind]) (by simp [hkind]))
    rw [IsLexeme, hkind] at ht
    exact first?_of_string (string?_append ht behind).1
  | character =>
    refine iff_of_true ?_ (hother (by simp [hkind]) (by simp [hkind]))
    rw [IsLexeme, hkind] at ht
    exact first?_of_character (character?_append ht behind).1

/-- What is read as a token of one line does not begin with a blank. -/
theorem Reads.solid {word : String} {first stop : Char → Prop} (h : Reads word tokens first stop)
    (hfirst : ∀ c, first c → Text.isBlank c = false) :
    word.toList ≠ [] ∧ (∀ c ∈ word.toList.head?, Text.isBlank c = false) ∧ '\n' ∉ word.toList := by
  obtain ⟨c, hc, hcfirst⟩ := h.begins
  refine ⟨?_, fun d hd => ?_, h.inLine⟩
  · rintro hnil
    rw [hnil] at hc
    cases hc
  · rw [hc] at hd
    exact hfirst d (Option.some.inj hd ▸ hcfirst)

theorem solid_of_mark {m : List Char} (h : m ∈ longMarks ++ singleMarks.map ([·])) :
    m ≠ [] ∧ (∀ c ∈ m.head?, Text.isBlank c = false) ∧ '\n' ∉ m := by
  have hall : ∀ m ∈ longMarks ++ singleMarks.map ([·]), m ≠ [] ∧
      m.head?.all (!Text.isBlank ·) = true ∧ '\n' ∉ m := by
    decide
  obtain ⟨hne, hhead, hline⟩ := hall m h
  refine ⟨hne, fun c hc => ?_, hline⟩
  rw [Option.mem_def.mp hc, Option.all_some] at hhead
  simpa using hhead

/-- A lexeme has a character, does not begin with a blank and stands in one line. -/
theorem IsLexeme.solid (h : t.IsLexeme) :
    t.text.toList ≠ [] ∧ (∀ c ∈ t.text.toList.head?, Text.isBlank c = false) ∧
      '\n' ∉ t.text.toList := by
  by_cases hmark : t.kind = .mark
  · rcases h.mark hmark with hlong | ⟨c, hc, htext⟩
    · exact solid_of_mark (List.mem_append_left _ hlong)
    · rw [htext]
      exact solid_of_mark (List.mem_append_right _ (List.mem_map_of_mem hc))
  · by_cases hword : t.kind = .identifier
    · have hname : identifier? t.text.toList = some t.text.toList.length := by
        rwa [IsLexeme, hword] at h
      exact (Reads.word (isName_of_identifier? hname)).solid fun c hc => (isNameStart_apart hc).1
    · exact (Reads.literal (h.literal hword hmark)).solid fun _ hc => hc

/-- What is spelled behind a token. -/
def spelledBehind (t : Token) : List Token → List Char
  | [] => []
  | u :: rest => (gap t u ++ spell (u :: rest)).toList

theorem spell_cons (t : Token) (rest : List Token) :
    (spell (t :: rest)).toList = t.text.toList ++ spelledBehind t rest := by
  cases rest with
  | nil => simp [spell, spelledBehind]
  | cons u rest => simp [spell, spelledBehind]

theorem gap_toList (t u : Token) : (gap t u).toList = [] ∨ (gap t u).toList = [' '] := by
  rw [gap]
  split
  · exact .inr rfl
  · exact .inl rfl

/-- Between two tokens that are no marks there is a blank. -/
theorem gap_of_word (ht : t.kind ≠ .mark) (hu : u.kind ≠ .mark) : gap t u = " " := by
  simp [gap, isWord, ht, hu]

theorem mem_singleMarks_of_longMark {m : List Char} (h : m ∈ longMarks) (hc : c ∈ m.head?) :
    c ∈ singleMarks := by
  have hall : ∀ m ∈ longMarks, m.head?.all singleMarks.contains = true := by decide
  have hhead := hall m h
  rw [Option.mem_def.mp hc, Option.all_some] at hhead
  exact List.contains_iff_mem.mp hhead

/-- Behind a word stands a blank or a mark. -/
theorem head?_spelledBehind (hkind : t.kind ≠ .mark) (hrest : ∀ u ∈ rest, u.IsLexeme) :
    ∀ c ∈ (spelledBehind t rest).head?, c = ' ' ∨ c ∈ singleMarks := by
  intro c hc
  cases rest with
  | nil => cases hc
  | cons u rest =>
    rw [spelledBehind, String.toList_append, spell_cons] at hc
    by_cases hu : u.kind = .mark
    · rcases gap_toList t u with hgap | hgap
      · right
        rw [hgap, List.nil_append] at hc
        rcases (hrest u List.mem_cons_self).mark hu with hlong | ⟨d, hd, htext⟩
        · have hne : u.text.toList ≠ [] := by
            rintro hnil
            rw [hnil] at hlong
            exact absurd hlong (by decide)
          rw [List.head?_append_of_ne_nil _ hne] at hc
          exact mem_singleMarks_of_longMark hlong hc
        · rw [htext] at hc
          exact Option.some.inj hc ▸ hd
      · rw [hgap] at hc
        exact .inl (Option.some.inj hc).symm
    · rw [gap_of_word hkind hu] at hc
      exact .inl (Option.some.inj hc).symm

/-- What makes a token, whatever its line. -/
def content (t : Token) : TokenKind × String :=
  (t.kind, t.text)

/-- Whether a text is read as a run of tokens. -/
def Respells (text : List Char) (run : List Token) : Prop :=
  ∃ read, ofText text = .ok read ∧ read.map content = run.map content

section Scan

attribute [local irreducible] Lexeme.first?

theorem scan_of_token {kind : TokenKind} {line : Nat} {cs : List Char}
    (hfirst : first? (c :: cs) = some (.token kind, n)) :
    scan (fun _ => none) 0 line (c :: cs) =
      (⟨kind, String.ofList ((c :: cs).take n), line⟩ :: ·) <$> scan (fun _ =>
          none) (n - 1) line cs := by
  have hexpanded : expanded (fun _ => none) ⟨kind, String.ofList ((c :: cs).take n), line⟩ =
      .ok [⟨kind, String.ofList ((c :: cs).take n), line⟩] := by
    cases kind <;> rfl
  rw [scan_cons, hfirst]
  simp only [hexpanded]
  cases scan (fun _ => none) (n - 1) line cs <;> rfl

/-- How a text without its first character is scanned. -/
theorem scan_cases {line : Nat} {cs : List Char}
    (h : scan (fun _ => none) 0 line (c :: cs) = .ok tokens) :
    tokens = [] ∨
    (∃ n, scan (fun _ => none) (n - 1) (if c = '\n' then line + 1 else line) cs = .ok tokens) ∨
    ∃ kind n rest, first? (c :: cs) = some (.token kind, n) ∧
      scan (fun _ => none) (n - 1) line cs = .ok rest ∧
          tokens = ⟨kind, String.ofList ((c :: cs).take n), line⟩ :: rest := by
  cases hfirst : first? (c :: cs) with
  | none =>
    rw [scan_cons, hfirst] at h
    simp only at h
    split at h
    · cases h
    · exact .inl (Except.ok.inj h).symm
  | some found =>
    obtain ⟨kind | kind, n⟩ := found
    · rw [scan_cons, hfirst] at h
      exact .inr (.inl ⟨n, h⟩)
    · rw [scan_of_token hfirst] at h
      cases hrest : scan (fun _ => none) (n - 1) line cs with
      | error e =>
        rw [hrest] at h
        cases h
      | ok rest =>
        rw [hrest] at h
        exact .inr (.inr ⟨kind, n, rest, rfl, hrest, (Except.ok.inj h).symm⟩)

/-- Every token of a text is a lexeme. -/
theorem isLexeme_of_scan {pending line : Nat}
    (h : scan (fun _ => none) pending line cs = .ok tokens) :
    ∀ t ∈ tokens, t.IsLexeme := by
  induction cs generalizing pending line tokens with
  | nil =>
    obtain rfl := Except.ok.inj h
    exact List.forall_mem_nil _
  | cons c cs ih =>
    cases pending with
    | succ pending => exact ih h
    | zero =>
      rcases scan_cases h with rfl | ⟨n, hrest⟩ | ⟨kind, n, rest, hfirst, hrest, rfl⟩
      · exact List.forall_mem_nil _
      · exact ih hrest
      · exact List.forall_mem_cons.mpr ⟨isLexeme_of_first? hfirst, ih hrest⟩

/-- The tokens of a text stand in it one behind the other. -/
theorem texts_sublist {pending line : Nat} (h : scan (fun _ => none) pending line cs = .ok tokens) :
    (tokens.flatMap (·.text.toList)).Sublist (cs.drop pending) := by
  induction cs generalizing pending line tokens with
  | nil =>
    obtain rfl := Except.ok.inj h
    exact List.nil_sublist _
  | cons c cs ih =>
    cases pending with
    | succ pending => exact ih h
    | zero =>
      rcases scan_cases h with rfl | ⟨n, hrest⟩ | ⟨kind, n, rest, hfirst, hrest, rfl⟩
      · exact List.nil_sublist _
      · exact ((ih hrest).trans (List.drop_sublist _ _)).cons c
      · rw [List.flatMap_cons, String.toList_ofList, List.drop_zero]
        cases n with
        | zero => exact ((ih hrest).trans (List.drop_sublist _ _)).cons c
        | succ n =>
          have hall := (List.Sublist.refl (cs.take n)).append (ih hrest)
          rw [Nat.add_sub_cancel, List.take_append_drop] at hall
          exact hall.cons_cons c

/-- The texts of a run have the characters of its spelling other than the blanks between them. -/
theorem count_spelledBehind (hc : c ≠ ' ') (t : Token) (rest : List Token) :
    (spelledBehind t rest).count c = (rest.flatMap (·.text.toList)).count c := by
  induction rest generalizing t with
  | nil => rfl
  | cons u rest ih =>
    have hgap : (gap t u).toList.count c = 0 := by
      rcases gap_toList t u with h | h
      · rw [h, List.count_nil]
      · rw [h, List.count_singleton, if_neg (by simpa using hc.symm)]
    rw [spelledBehind, String.toList_append, spell_cons, List.count_append, List.count_append,
      hgap, ih u, List.flatMap_cons, List.count_append, Nat.zero_add]

theorem flatMap_text_of_content (h : tokens.map content = run.map content) :
    tokens.flatMap (·.text.toList) = run.flatMap (·.text.toList) := by
  have hmap : ∀ ts : List Token,
      ts.flatMap (·.text.toList) = (ts.map content).flatMap (·.2.toList) := fun ts => by
    rw [List.flatMap_map]
    rfl
  rw [hmap, hmap, h]

/-- A text that begins with a token of a run is read as the run exactly if the token is read first
and the rest of the run behind it. -/
theorem respells_append (ht : t.IsLexeme) (rest : List Token) :
    Respells (t.text.toList ++ spelledBehind t rest) (t :: rest) ↔
      first? (t.text.toList ++ spelledBehind t rest) = some (.token t.kind, t.text.toList.length) ∧
        Respells (spelledBehind t rest) rest := by
  obtain ⟨hne, hblank, hline⟩ := ht.solid
  constructor
  · rintro ⟨read, hread, hcontent⟩
    obtain ⟨c, tail, htext⟩ := List.exists_cons_of_ne_nil hne
    have hspace : c ≠ ' ' := by
      rintro rfl
      exact absurd (hblank ' ' (by rw [htext]; rfl)) (by decide)
    have hscan := hread
    rw [ofText, htext, List.cons_append] at hscan
    rcases scan_cases hscan with rfl | ⟨n, hrest⟩ | ⟨kind, n, read', hfirst, hrest, rfl⟩
    · cases hcontent
    · -- the token's first character is passed over and is missing from what is read
      have hcount := (texts_sublist hrest).count_le c
      have hdrop := (List.drop_sublist (n - 1) (tail ++ spelledBehind t rest)).count_le c
      rw [flatMap_text_of_content hcontent, List.flatMap_cons, htext, List.count_append,
        List.count_cons_self] at hcount
      rw [List.count_append, count_spelledBehind hspace] at hdrop
      omega
    · rw [List.map_cons, List.map_cons, List.cons.injEq, content, content,
        Prod.mk.injEq] at hcontent
      obtain ⟨⟨rfl, htake⟩, hcontent⟩ := hcontent
      have hle := ofKind?_le (ofKind?_of_first? hfirst)
      have hlength : n = t.text.toList.length := by
        rw [← htake, String.toList_ofList, List.length_take_of_le hle]
      subst hlength
      refine ⟨by rw [htext] at hfirst ⊢; exact hfirst, read', ?_, hcontent⟩
      rw [htext] at hrest hline
      have hpending : '\n' ∉ tail := fun hmem => hline (List.mem_cons_of_mem c hmem)
      rw [ofText, ← scan_pending hpending]
      exact hrest
  · rintro ⟨hfirst, read, hread, hcontent⟩
    refine ⟨⟨t.kind, t.text, 1⟩ :: read, ?_, ?_⟩
    · rw [ofText_token hfirst hne hline, hread, String.ofList_toList]
      rfl
    · rw [List.map_cons, List.map_cons, hcontent]
      rfl

/-- The blank between two tokens is passed over. -/
theorem respells_spelledBehind (hrest : ∀ u ∈ rest, u.IsLexeme) :
    Respells (spelledBehind t rest) rest ↔ Respells (spell rest).toList rest := by
  cases rest with
  | nil => exact Iff.rfl
  | cons u rest =>
    have hblank : ∀ c ∈ (spell (u :: rest)).toList.head?, Text.isBlank c = false := by
      obtain ⟨hne, hhead, -⟩ := (hrest u List.mem_cons_self).solid
      rwa [spell_cons, List.head?_append_of_ne_nil _ hne]
    rw [spelledBehind, String.toList_append]
    rcases gap_toList t u with hgap | hgap
    · rw [hgap, List.nil_append]
    · rw [hgap, List.singleton_append, Respells, Respells, ofText_blank hblank]

end Scan

/-- A run of lexemes is read from its spelling exactly if none of them merges with what is spelled
behind it. -/
theorem respells_spell_iff (hrun : ∀ t ∈ run, t.IsLexeme) :
    Respells (spell run).toList run ↔ ∀ t rest, t :: rest <:+ run →
      ¬Merges t (spelledBehind t rest) := by
  induction run with
  | nil =>
    exact iff_of_true ⟨[], rfl, rfl⟩ fun t rest h =>
      absurd (List.suffix_nil.mp h) (List.cons_ne_nil t rest)
  | cons t rest ih =>
    obtain ⟨ht, hrest⟩ := List.forall_mem_cons.mp hrun
    have hfirst := first?_iff_not_merges ht fun hkind => head?_spelledBehind hkind hrest
    rw [spell_cons, respells_append ht, hfirst, respells_spelledBehind hrest, ih hrest]
    simp only [List.suffix_cons_iff, List.cons.injEq]
    constructor
    · rintro ⟨hhead, htail⟩ u behind (⟨rfl, rfl⟩ | hsuffix)
      · exact hhead
      · exact htail u behind hsuffix
    · exact fun h => ⟨h t rest (.inl ⟨rfl, rfl⟩), fun u behind hsuffix => h u behind (.inr hsuffix)⟩

/-- Without definitions no name is replaced. -/
theorem ofConfigured_eq_ofText {config : Configuration} (h : config.defines = []) :
    ofConfigured config = ofText := by
  have hnone : ∀ name, config.replacement? name = none := fun name => by
    rw [Configuration.replacement?, h]
    rfl
  funext text
  rw [ofConfigured, ofText]
  simp only [hnone, Option.map_none]

/-- A run of a text's tokens is read from its spelling exactly if no token of it merges with what is
spelled behind it: a mark with a mark or a number, or a whole number with a point. -/
theorem ofConfigured_spell_iff (config : Configuration) (hdefines : config.defines = [])
    (text : List Char) (tokens run : List Token) (h : ofConfigured config text = .ok tokens)
    (hrun : run <:+: tokens) :
    (∃ read, ofConfigured config (spell run).toList = .ok read ∧
      read.map content = run.map content) ↔ ∀ t rest, t :: rest <:+ run →
          ¬Merges t (spelledBehind t rest) := by
  rw [ofConfigured_eq_ofText hdefines] at h ⊢
  exact respells_spell_iff fun t ht => isLexeme_of_scan h t (hrun.subset ht)

/-- A product within a sum. -/
theorem ofConfigured_spell_iff_product :
    ofConfigured {} "1 + a * b".toList = .ok [⟨.number, "1", 1⟩, mark "+", word "a", mark "*",
      word "b"] ∧ [word "a", mark "*", word "b"] <:+: [⟨.number, "1", 1⟩, mark "+", word "a",
        mark "*", word "b"] ∧
      ((∃ read, ofConfigured {} (spell [word "a", mark "*", word "b"]).toList = .ok read ∧
          read.map content = [word "a", mark "*", word "b"].map content) ↔
        ∀ t rest, t :: rest <:+ [word "a", mark "*", word "b"] →
            ¬Merges t (spelledBehind t rest)) := by
  have hread : ofConfigured {} "1 + a * b".toList =
      .ok [⟨.number, "1", 1⟩, mark "+", word "a", mark "*", word "b"] := by
    rfl
  have hrun : [word "a", mark "*", word "b"] <:+: [⟨.number, "1", 1⟩, mark "+", word "a", mark "*",
      word "b"] :=
    ⟨[⟨.number, "1", 1⟩, mark "+"], [], rfl⟩
  exact ⟨hread, hrun, ofConfigured_spell_iff {} rfl _ _ _ hread hrun⟩

/-- The spelling of a negative number behind a minus makes a decrement. -/
theorem ofConfigured_spell_decrement :
    ofConfigured {} "1 - -1".toList = .ok [⟨.number, "1", 1⟩, mark "-", mark "-",
      ⟨.number, "1", 1⟩] ∧ ofConfigured {} (spell [⟨.number, "1", 1⟩, mark "-", mark "-",
        ⟨.number, "1", 1⟩]).toList = .ok [⟨.number, "1", 1⟩, mark "--", ⟨.number, "1", 1⟩] ∧
      ¬∃ read, ofConfigured
        {} (spell [⟨.number, "1", 1⟩, mark "-", mark "-", ⟨.number, "1", 1⟩]).toList = .ok read ∧
        read.map content = [⟨.number, "1", 1⟩, mark "-", mark "-",
            ⟨.number, "1", 1⟩].map content := by
  have hread : ofConfigured {} "1 - -1".toList =
      .ok [⟨.number, "1", 1⟩, mark "-", mark "-", ⟨.number, "1", 1⟩] := by
    rfl
  have hagain : ofConfigured
      {} (spell [⟨.number, "1", 1⟩, mark "-", mark "-", ⟨.number, "1", 1⟩]).toList =
      .ok [⟨.number, "1", 1⟩, mark "--", ⟨.number, "1", 1⟩] := by
    rfl
  refine ⟨hread, hagain, ?_⟩
  rintro ⟨read, hread, hcontent⟩
  obtain rfl := Except.ok.inj (hagain.symm.trans hread)
  exact absurd (congrArg List.length hcontent) (by decide)

end Token

end Interop.Header
