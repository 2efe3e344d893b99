import Interop.Proofs.Header.Lexemes
import Interop.Proofs.Header.LineParts
import Mathlib.Data.List.DropRight
import Mathlib.Data.List.Infix
import Mathlib.Data.List.TakeWhile

namespace Interop

namespace Text

variable {text blanks tail mark rest : List Char} {c : Char}

/-- Blanks are taken off the front of a text, and off what follows if nothing else is there. -/
theorem trimStart_append (text tail : List Char) :
    trimStart (text ++ tail) = if trimStart text = [] then trimStart tail else trimStart text ++
      tail := by
  unfold trimStart
  rw [List.dropWhile_append]
  by_cases h : text.dropWhile isBlank = []
  · rw [if_pos h, if_pos (List.isEmpty_iff.mpr h)]
  · rw [if_neg h, if_neg (mt List.isEmpty_iff.mp h)]

theorem trimStart_blanks (h : ∀ c ∈ blanks, isBlank c = true) : trimStart blanks = [] :=
  List.dropWhile_eq_nil_iff.mpr h

theorem trimStart_cons (h : isBlank c = false) (tail : List Char) :
    trimStart (c :: tail) = c :: tail :=
  List.dropWhile_cons_of_neg (by simp [h])

theorem trimStart_blanks_append (h : ∀ c ∈ blanks, isBlank c = true) (hc : isBlank c = false)
    (tail : List Char) :
    trimStart (blanks ++ c :: tail) = c :: tail := by
  rw [trimStart_append, if_pos (trimStart_blanks h), trimStart_cons hc]

/-- Blanks are taken off the end of a text, and off what stands before if nothing else is there. -/
theorem trimEnd_append (text tail : List Char) :
    trimEnd (text ++ tail) = if trimEnd tail = [] then trimEnd text else text ++ trimEnd tail := by
  have happend := trimStart_append tail.reverse text.reverse
  rw [trimStart, ← List.reverse_append] at happend
  rw [trimEnd, happend, trimEnd, trimEnd]
  simp only [List.reverse_eq_nil_iff]
  split
  · rw [if_pos ‹_›]
    rfl
  · rw [if_neg ‹_›, List.reverse_append, List.reverse_reverse]
    rfl

theorem trimEnd_blanks (h : ∀ c ∈ blanks, isBlank c = true) : trimEnd blanks = [] := by
  rw [trimEnd, List.reverse_eq_nil_iff]
  exact trimStart_blanks fun c hc => h c (List.mem_reverse.mp hc)

theorem trimEnd_cons (h : isBlank c = false) (tail : List Char) :
    trimEnd (c :: tail) = c :: trimEnd tail := by
  rw [← List.singleton_append, trimEnd_append]
  split
  · rename_i htail
    rw [htail, trimEnd, List.reverse_singleton, List.dropWhile_cons_of_neg (by simp [h])]
    rfl
  · rfl

/-- What is cut off at the end of a text are blanks. -/
theorem exists_trimEnd (text : List Char) :
    ∃ blanks, (∀ c ∈ blanks, isBlank c = true) ∧
      (blanks = [] → ∀ c ∈ text.getLast?, isBlank c = false) ∧
      text = trimEnd text ++ blanks := by
  refine ⟨(text.reverse.takeWhile isBlank).reverse, fun c hc => ?_, fun hnil c hc => ?_, ?_⟩
  · exact List.mem_takeWhile_imp (List.mem_reverse.mp hc)
  · rw [← List.head?_reverse, Option.mem_def, List.head?_eq_some_iff] at hc
    obtain ⟨front, hfront⟩ := hc
    rw [List.reverse_eq_nil_iff, hfront] at hnil
    simpa using hnil
  · rw [trimEnd, ← List.reverse_append, List.takeWhile_append_dropWhile, List.reverse_reverse]

/-- Blanks at the end of a text are trimmed anyway. -/
theorem trim_append_blanks (h : ∀ c ∈ blanks, isBlank c = true) (text : List Char) :
    trim (text ++ blanks) = trim text := by
  rw [trim, trimStart_append, trim]
  split
  · rename_i htext
    rw [htext, trimStart_blanks h]
  · rw [trimEnd_append, if_pos (trimEnd_blanks h)]

/-- Behind a text, what begins with no blank is kept with the blanks in front of it. -/
theorem trim_append (hblanks : ∀ c ∈ blanks, isBlank c = true) (hc : isBlank c = false)
    (text tail : List Char) :
    ∃ gap, (∀ c ∈ gap, isBlank c = true) ∧
      (gap = [] → trim text ≠ [] → blanks = [] ∧ ∀ c ∈ text.getLast?, isBlank c = false) ∧
      trim (text ++ blanks ++ c :: tail) = trim text ++ gap ++ c :: trimEnd tail := by
  have htail : trimEnd (c :: tail) = c :: trimEnd tail := trimEnd_cons hc tail
  have hall : trim (text ++ blanks ++ c :: tail) =
      trimEnd (if trimStart text = [] then c :: tail else trimStart text ++
          (blanks ++ c :: tail)) := by
    rw [trim, List.append_assoc, trimStart_append, trimStart_blanks_append hblanks hc]
  rw [hall]
  by_cases htext : trimStart text = []
  · rw [if_pos htext]
    have hnil : trim text = [] := by rw [trim, htext]; rfl
    refine ⟨[], by simp, fun _ hne => absurd hnil hne, ?_⟩
    rw [htail, hnil]
    rfl
  · rw [if_neg htext]
    obtain ⟨ending, hending, hlast, heq⟩ := exists_trimEnd (trimStart text)
    refine ⟨ending ++ blanks, fun c hc => (List.mem_append.mp hc).elim (hending c) (hblanks c),
      fun hgap hne => ?_, ?_⟩
    · obtain ⟨rfl, rfl⟩ := List.append_eq_nil_iff.mp hgap
      refine ⟨rfl, fun d hd => hlast rfl d ?_⟩
      rw [← List.takeWhile_append_dropWhile (p := isBlank) (l := text), List.getLast?_append] at hd
      cases hstart : (trimStart text).getLast? with
      | none => exact absurd (List.getLast?_eq_none_iff.mp hstart) htext
      | some last =>
        rw [trimStart] at hstart
        rw [hstart] at hd
        exact hd
    · calc trimEnd (trimStart text ++ (blanks ++ c :: tail))
          = trimStart text ++ blanks ++ c :: trimEnd tail := by
            rw [← List.append_assoc, trimEnd_append, htail, if_neg (List.cons_ne_nil _ _)]
        _ = trim text ++ (ending ++ blanks) ++ c :: trimEnd tail := by
            rw [trim, ← List.append_assoc, ← heq]

/-- In front of what begins with no blank, blanks are kept behind a text and cut off otherwise. -/
theorem exists_trimStart (hblanks : ∀ c ∈ blanks, isBlank c = true) (hc : isBlank c = false)
    (text tail : List Char) :
    ∃ gap, (trimStart text ≠ [] → gap = blanks) ∧ (trimStart text = [] → gap = []) ∧
      trimStart (text ++ (blanks ++ c :: tail)) = trimStart text ++ gap ++ c :: tail := by
  rw [trimStart_append]
  by_cases htext : trimStart text = []
  · refine ⟨[], fun hne => absurd htext hne, fun _ => rfl, ?_⟩
    rw [if_pos htext, trimStart_blanks_append hblanks hc, htext]
    rfl
  · refine ⟨blanks, fun _ => rfl, fun hnil => absurd hnil htext, ?_⟩
    rw [if_neg htext, List.append_assoc]

/-- Trimming cuts a text only. -/
theorem trim_isInfix (text : List Char) : trim text <:+: text := by
  obtain ⟨blanks, -, -, heq⟩ := exists_trimEnd (trimStart text)
  have hstart : trim text <:+: trimStart text := by
    conv => rhs; rw [heq]
    exact (List.prefix_append _ _).isInfix
  exact hstart.trans (List.dropWhile_suffix _).isInfix

/-- Characters of one kind are taken off a text up to the first one of another kind. -/
theorem span_eq_iff {p : Char → Bool} {front : List Char} : text.span p = (front, rest) ↔
    text = front ++ rest ∧ (∀ c ∈ front, p c = true) ∧ ∀ c ∈ rest.head?, p c = false := by
  rw [List.span_eq_takeWhile_dropWhile]
  constructor
  · intro h
    obtain ⟨rfl, rfl⟩ := Prod.mk.inj h
    refine ⟨List.takeWhile_append_dropWhile.symm, fun c => List.mem_takeWhile_imp, fun c hc => ?_⟩
    have hnot := List.head?_dropWhile_not p text
    rw [Option.mem_def.mp hc] at hnot
    simpa using hnot
  · rintro ⟨rfl, hfront, hrest⟩
    have hdrop : rest.dropWhile p = rest := by
      cases rest with
      | nil => rfl
      | cons c rest => exact List.dropWhile_cons_of_neg (by simp [hrest c rfl])
    rw [List.takeWhile_append_of_pos hfront, List.dropWhile_append_of_pos hfront, hdrop,
      Header.Lexeme.takeWhile_of_head hrest, List.append_nil]

end Text

namespace Header

namespace Directive

variable {body text blanks tail comment : List Char} {c : Char}

/-- A body up to the line comment in it. -/
def beforeComment (body : List Char) : List Char :=
  ((Text.cutAt? ['/', '/'] body).map Prod.fst).getD body

/-- A body loses its comment and the blanks around. -/
theorem withoutComment_eq (body : List Char) :
    withoutComment body = Text.trim (beforeComment body) := by
  rw [withoutComment, beforeComment]
  cases Text.cutAt? ['/', '/'] body <;> rfl

/-- Nothing is left of a body that begins with a comment. -/
theorem beforeComment_of_begins (h : ['/', '/'] <+: body) : beforeComment body = [] := by
  obtain ⟨rest, rfl⟩ := h
  rfl

theorem beforeComment_cons (h : ¬['/', '/'] <+: c :: body) :
    beforeComment (c :: body) = c :: beforeComment body := by
  have hafter : Text.after? ['/', '/'] (c :: body) = none := by
    rw [Option.eq_none_iff_forall_ne_some]
    exact fun rest hrest => h ⟨rest, (Text.after?_eq_some.mp hrest).symm⟩
  rw [beforeComment, beforeComment, Text.cutAt?, hafter]
  cases Text.cutAt? ['/', '/'] body <;> rfl

/-- Behind a line comment nothing counts. -/
theorem beforeComment_append_of_comment (h : ['/', '/'] <:+: text) (tail : List Char) :
    beforeComment (text ++ tail) = beforeComment text := by
  induction text with
  | nil => simp at h
  | cons c text ih =>
    by_cases hbegins : ['/', '/'] <+: c :: text
    · rw [beforeComment_of_begins hbegins,
        beforeComment_of_begins (hbegins.trans (List.prefix_append _ _))]
    · have htext := (List.infix_cons_iff.mp h).resolve_left hbegins
      have hbegins' : ¬['/', '/'] <+: c :: (text ++ tail) := by
        intro hbegins'
        cases text with
        | nil => simp at htext
        | cons d text =>
          simp only [List.cons_append, List.cons_prefix_cons, List.nil_prefix,
            and_true] at hbegins hbegins'
          exact hbegins hbegins'
      rw [List.cons_append, beforeComment_cons hbegins', beforeComment_cons hbegins, ih htext]

/-- A body without line comment counts as a whole, if the first character behind it does not make
one. -/
theorem beforeComment_append (h : ¬['/', '/'] <:+: text)
    (hjoin : text.getLast? = some '/' → tail.head? ≠ some '/') :
    beforeComment (text ++ tail) = text ++ beforeComment tail := by
  induction text with
  | nil => rfl
  | cons c text ih =>
    rw [List.infix_cons_iff, not_or] at h
    have hbegins : ¬['/', '/'] <+: c :: (text ++ tail) := by
      intro hbegins
      cases text with
      | nil =>
        obtain ⟨rest, hrest⟩ := hbegins
        simp only [List.cons_append, List.nil_append, List.cons.injEq] at hrest
        refine hjoin (by rw [← hrest.1]; rfl) ?_
        rw [← hrest.2]
        rfl
      | cons d text =>
        simp only [List.cons_append, List.cons_prefix_cons, List.nil_prefix, and_true] at h hbegins
        exact h.1 hbegins
    rw [List.cons_append, beforeComment_cons hbegins, List.cons_append, ih h.2]
    intro hlast
    cases text with
    | nil => cases hlast
    | cons d text => exact hjoin hlast

/-- A body without a comment stays as it is. -/
theorem beforeComment_of_not (h : ¬['/', '/'] <:+: body) : beforeComment body = body := by
  have hwhole : beforeComment (body ++ []) = body ++ beforeComment [] :=
    beforeComment_append h fun _ => by simp
  simpa [beforeComment, Text.cutAt?, Text.after?] using hwhole

/-- Blanks at the end of a body do not matter. -/
theorem withoutComment_append_blanks (h : ∀ c ∈ blanks, Text.isBlank c = true) (text : List Char) :
    withoutComment (text ++ blanks) = withoutComment text := by
  rw [withoutComment_eq, withoutComment_eq]
  by_cases hcomment : ['/', '/'] <:+: text
  · rw [beforeComment_append_of_comment hcomment]
  · have hblanks : ¬['/', '/'] <:+: blanks := by
      intro hblanks
      have := h '/' (hblanks.subset List.mem_cons_self)
      revert this
      decide
    rw [beforeComment_append hcomment, beforeComment_of_not hcomment, beforeComment_of_not hblanks,
      Text.trim_append_blanks h]
    rintro - hhead
    have := h '/' (List.mem_of_mem_head? hhead)
    revert this
    decide

/-- Whether blanks are trimmed before or after the comment is cut does not matter. -/
theorem withoutComment_append_trimEnd (front text : List Char) :
    withoutComment (front ++ Text.trimEnd text) = withoutComment (front ++ text) := by
  obtain ⟨blanks, hblanks, -, heq⟩ := Text.exists_trimEnd text
  conv => rhs; rw [heq, ← List.append_assoc]
  rw [withoutComment_append_blanks hblanks]

/-- A line comment does not count. -/
theorem withoutComment_append_comment (h : text.getLast? ≠ some '/') (comment : List Char) :
    withoutComment (text ++ '/' :: '/' :: comment) = withoutComment text := by
  rw [withoutComment_eq, withoutComment_eq]
  by_cases hcomment : ['/', '/'] <:+: text
  · rw [beforeComment_append_of_comment hcomment]
  · have hbegins : beforeComment ('/' :: '/' :: comment) = [] :=
      beforeComment_of_begins ⟨comment, rfl⟩
    rw [beforeComment_append hcomment (fun hlast => absurd hlast h), beforeComment_of_not hcomment,
      hbegins, List.append_nil]

/-- A block comment becomes part of the body, with the blanks in front of it. -/
theorem withoutComment_append_block (h : ¬['/', '/'] <:+: text)
    (hblanks : ∀ c ∈ blanks, Text.isBlank c = true) (hlast : (text ++ blanks).getLast? ≠ some '/')
    (comment : List Char) :
    ∃ gap comment', (∀ c ∈ gap, Text.isBlank c = true) ∧
      (gap = [] → withoutComment text ≠ [] → blanks = [] ∧ ∀ c ∈ text.getLast?,
        Text.isBlank c = false) ∧
      withoutComment (text ++ blanks ++ '/' :: '*' :: comment) = withoutComment text ++ gap ++
          '/' :: '*' :: comment' := by
  have hslash : ∀ c ∈ blanks, c ≠ '/' := by
    rintro c hc rfl
    exact absurd (hblanks '/' hc) (by decide)
  have hbefore : beforeComment (text ++ (blanks ++ '/' :: '*' :: comment)) =
      text ++ blanks ++ '/' :: ('*' :: beforeComment comment) := by
    have hrest : beforeComment (blanks ++ '/' :: '*' :: comment) = blanks ++ '/' :: '*' ::
        beforeComment comment := by
      rw [beforeComment_append (fun hin => hslash '/' (hin.subset List.mem_cons_self) rfl)
        (fun hend => absurd rfl (hslash '/' (List.mem_of_mem_getLast? hend))),
          beforeComment_cons (by simp),
        beforeComment_cons (by simp)]
    rw [beforeComment_append h, hrest, List.append_assoc]
    intro hend
    cases blanks with
    | nil => exact absurd (by rwa [List.append_nil]) hlast
    | cons c blanks =>
      rw [List.cons_append, List.head?_cons, ne_eq, Option.some_inj]
      exact hslash c List.mem_cons_self
  obtain ⟨gap, hgap, hnil, htrim⟩ :=
    Text.trim_append hblanks (show Text.isBlank '/' = false by decide) text
    ('*' :: beforeComment comment)
  have hbody : withoutComment text = Text.trim text :=
    by rw [withoutComment_eq, beforeComment_of_not h]
  refine ⟨gap, Text.trimEnd (beforeComment comment), hgap, by rwa [hbody], ?_⟩
  rw [List.append_assoc, withoutComment_eq, hbefore, htrim, Text.trimEnd_cons (by decide), hbody]

theorem not_isWordChar_comment (hblanks : ∀ c ∈ blanks, Text.isBlank c = true)
    (comment : List Char) :
    ∀ c ∈ (blanks ++ '/' :: comment).head?, isWordChar c = false := by
  intro c hc
  cases blanks with
  | nil =>
    obtain rfl := Option.some.inj hc
    decide
  | cons blank blanks =>
    obtain rfl := Option.some.inj hc
    rw [← Bool.not_eq_true, isWordChar, Bool.or_eq_true]
    intro hword
    have hstart : isNameStart blank = true := by
      rw [isNameStart, Bool.or_eq_true]
      exact hword.imp_left fun hlower => (Bool.or_eq_true _ _).mpr (.inr hlower)
    exact absurd (Lexeme.isNameStart_apart hstart).1 (by simp [hblanks blank List.mem_cons_self])

/-- A line is a directive if a hash and a word are its first characters but for blanks. -/
theorem head?_eq_some {line word start : List Char} : head? line = some (word, start) ↔
    ∃ behind rest, Text.trimStart line = '#' :: behind ∧ Text.trimStart behind = word ++ rest ∧
      word ≠ [] ∧ (∀ c ∈ word, isWordChar c = true) ∧ (∀ c ∈ rest.head?, isWordChar c = false) ∧
          start = Text.trimStart rest := by
  constructor
  · intro h
    unfold head? at h
    split at h
    case h_2 => cases h
    case h_1 behind hline =>
      split at h
      case h_1 => cases h
      case h_2 first rest hne hspan =>
        obtain ⟨rfl, rfl⟩ := Prod.mk.inj (Option.some.inj h)
        obtain ⟨hbehind, hword, hrest⟩ := Text.span_eq_iff.mp hspan
        exact ⟨behind, rest, hline, hbehind, hne, hword, hrest, rfl⟩
  · rintro ⟨behind, rest, hline, hbehind, hne, hword, hrest, rfl⟩
    rw [head?, hline]
    simp only [Text.span_eq_iff.mpr ⟨hbehind, hword, hrest⟩]

/-- A directive keeps its word when something comes behind its line. -/
theorem head?_append {line word start : List Char} (h : head? line = some (word, start)) :
    ∃ rest, start = Text.trimStart rest ∧ rest <:+ line ∧
      ∀ tail, (∀ c ∈ tail.head?, isWordChar c = false) →
      head? (line ++ tail) = some (word, Text.trimStart (rest ++ tail)) := by
  obtain ⟨behind, rest, hline, hbehind, hne, hword, hrest, rfl⟩ := head?_eq_some.mp h
  refine ⟨rest, rfl, ?_, fun tail htail => ?_⟩
  · calc rest <:+ Text.trimStart behind := hbehind ▸ List.suffix_append _ _
      _ <:+ behind := List.dropWhile_suffix _
      _ <:+ Text.trimStart line := hline ▸ List.suffix_cons _ _
      _ <:+ line := List.dropWhile_suffix _
  · refine head?_eq_some.mpr ⟨behind ++ tail, rest ++ tail, ?_, ?_, hne, hword, fun c hc => ?_, rfl⟩
    · rw [Text.trimStart_append, if_neg (by simp [hline]), hline, List.cons_append]
    · rw [Text.trimStart_append, if_neg (by simp [hbehind, hne]), hbehind, List.append_assoc]
    · cases rest with
      | nil => exact htail c hc
      | cons d rest => exact hrest c hc

end Directive

namespace LinePart

variable {b : Bool} {line start comment blanks : List Char}
    {lines before middle rest : List (List Char)} {i : Nat}
  {d : Directive} {parts : List LinePart}

/-- What the lines before a line of its own are does not depend on that line and the ones behind
it. -/
theorem ofLines_append
    (h : (ofLines b (before ++ line :: rest))[before.length]? ≠ some .continuation)
    (other : List Char) (rest' : List (List Char)) :
    ofLines b (before ++ other :: rest') =
      (ofLines b (before ++ line :: rest)).take before.length ++ ofLines false (other ::
      rest') := by
  induction before generalizing b with
  | nil =>
    cases b with
    | true => exact absurd rfl h
    | false => rfl
  | cons first before ih =>
    cases b with
    | true =>
      simp only [List.cons_append, ofLines, List.length_cons, List.getElem?_cons_succ] at h ⊢
      rw [ih h, List.take_succ_cons, List.cons_append]
      rfl
    | false =>
      cases hhead : Directive.head? first with
      | none =>
        simp only [List.cons_append, ofLines, hhead, List.length_cons,
          List.getElem?_cons_succ] at h ⊢
        rw [ih h, List.take_succ_cons, List.cons_append]
        rfl
      | some head =>
        obtain ⟨word, start⟩ := head
        simp only [List.cons_append, ofLines, hhead, List.length_cons,
          List.getElem?_cons_succ] at h ⊢
        rw [ih h, continued_append h, List.take_succ_cons, List.cons_append]
        rfl

/-- Lines in which a directive goes on stay such lines if the last one is replaced by another one
that ends it. -/
theorem ofLines_ending (h : continuations b (middle ++ line :: rest) = middle.length + 1)
    {other : List Char} (hother : runsOn (Text.trim other) = false) :
    ofLines b (middle ++ other :: rest) = ofLines b (middle ++ line :: rest) := by
  induction middle generalizing b with
  | nil =>
    cases b with
    | false => simp at h
    | true =>
      rw [List.nil_append, continuations] at h
      have hstop : continuations (runsOn (Text.trim line)) rest = 0 := by simpa using h
      rw [List.nil_append, List.nil_append, ofLines, ofLines, hother,
        ofLines_continued (runsOn (Text.trim line)), hstop]
      rfl
  | cons first middle ih =>
    cases b with
    | false => simp at h
    | true =>
      rw [List.cons_append, continuations, List.length_cons] at h
      rw [List.cons_append, List.cons_append, ofLines, ofLines, ih (by omega)]

/-- A directive goes on in no further line just if no backslash tells so, or there is no further
line. -/
theorem stops_iff : continuations b lines = 0 ↔ b = false ∨ lines = [] := by
  cases b with
  | false => simp
  | true => cases lines <;> simp [continuations]

/-- A directive ends where its line does not run on, or with the lines. -/
theorem continued_of_stops (h : runsOn start = false ∨ rest = []) :
    (Directive.continued start rest).1 = start := by
  cases rest with
  | nil => rfl
  | cons line rest =>
    have hstop := h.resolve_right (List.cons_ne_nil _ _)
    rw [Directive.continued]
    split
    · rename_i front hfront
      rw [runsOn_iff.mpr ⟨front, hfront⟩] at hstop
      cases hstop
    · rfl

/-- A line that runs on is joined with the next one, over a blank. -/
theorem exists_of_runsOn (h : runsOn start = true) :
    ∃ front, start = front ++ ['\\'] ∧ ∀ line rest,
      (Directive.continued start (line :: rest)).1 =
          (Directive.continued (front ++ ' ' :: Text.trim line) rest).1 := by
  obtain ⟨front, hfront⟩ := runsOn_iff.mp h
  refine ⟨front.reverse, by rw [← List.reverse_reverse start, hfront, List.reverse_cons],
    fun line rest => ?_⟩
  rw [Directive.continued, hfront]
  rfl

/-- No line comment begins between two texts that a blank separates. -/
theorem comment_joined {front text : List Char} (h : ['/', '/'] <:+: front ++ ' ' :: text) :
    ['/', '/'] <:+: front ∨ ['/', '/'] <:+: text := by
  rw [List.infix_append_iff] at h
  rcases h with hfront | htext | ⟨left, right, heq, hleft, hright⟩
  · exact .inl hfront
  · rw [List.infix_cons_iff] at htext
    exact .inr (htext.resolve_left (by simp))
  · cases right with
    | nil =>
      rw [List.append_nil] at heq
      exact .inl (heq ▸ hleft.isInfix)
    | cons c right =>
      -- what stands behind the first text begins with a blank
      obtain ⟨rfl, -⟩ := List.cons_prefix_cons.mp hright
      have hmem : ' ' ∈ ['/', '/'] := by rw [heq]; simp
      exact absurd hmem (by decide)

theorem runsOn_of_continuations {n : Nat} (h : continuations b lines = n + 1) : b = true := by
  rw [← Bool.not_eq_false]
  rintro rfl
  simp at h

/-- What the last line of a directive adds to its body. -/
theorem continued_ending
    (h : continuations (runsOn start) (middle ++ line :: rest) = middle.length + 1) :
    (runsOn (Text.trim line) = false ∨ rest = []) ∧
    ∃ front, front.getLast? = some ' ' ∧
      (['/', '/'] <:+: front → ['/', '/'] <:+: start ∨ ∃ text ∈ middle, ['/', '/'] <:+: text) ∧
      ∀ other, runsOn (Text.trim other) = false ∨ rest = [] →
        (Directive.continued start (middle ++ other :: rest)).1 = front ++ Text.trim other := by
  induction middle generalizing start with
  | nil =>
    obtain ⟨front, rfl, hcontinued⟩ := exists_of_runsOn (runsOn_of_continuations h)
    rw [runsOn_of_continuations h, List.nil_append, continuations] at h
    refine ⟨stops_iff.mp (Nat.succ.inj h), front ++ [' '], List.getLast?_concat, fun hin => ?_,
      fun other hother => ?_⟩
    · rcases comment_joined hin with hin | hin
      · exact .inl (hin.trans (List.prefix_append _ _).isInfix)
      · simp at hin
    · rw [List.nil_append, hcontinued, continued_of_stops (by rwa [runsOn_joined]),
        List.append_cons]
  | cons first middle ih =>
    have hrun := runsOn_of_continuations h
    obtain ⟨front, rfl, hcontinued⟩ := exists_of_runsOn hrun
    rw [hrun, List.cons_append, continuations, List.length_cons,
      Nat.add_right_cancel_iff, ← runsOn_joined front] at h
    obtain ⟨hline, front', hlast, hin, hbody⟩ := ih h
    refine ⟨hline, front', hlast, fun hcomment => ?_,
      fun other hother => by rw [List.cons_append, hcontinued, hbody other hother]⟩
    rcases hin hcomment with hstart | ⟨text, htext, hcomment⟩
    · rcases comment_joined hstart with hfront | hfirst
      · exact .inl (hfront.trans (List.prefix_append _ _).isInfix)
      · exact .inr ⟨first, List.mem_cons_self, hfirst.trans (Text.trim_isInfix first)⟩
    · exact .inr ⟨text, List.mem_cons_of_mem _ htext, hcomment⟩

/-- What a directive's last line contributes in front of a comment: `text` is the directive's body
up to the comment, and `gap` is what is left of the blanks in front of it. -/
structure UpTo (line blanks text gap : List Char) (texts : List (List Char)) : Prop where
  gap_eq : gap = blanks ∨ gap = [] ∧ (text = [] ∨ text.getLast? = some ' ')
  joined : (text ++ gap).getLast? = some '/' → (line ++ blanks).getLast? = some '/'
  comment : ['/', '/'] <:+: text → ∃ text ∈ texts, ['/', '/'] <:+: text

theorem UpTo.of_suffix {front behind gap : List Char} {texts : List (List Char)}
    (hline : behind <:+ line) (hfront : front = [] ∨ front.getLast? = some ' ')
    (hgap : Text.trimStart behind ≠ [] → gap = blanks)
    (hgap' : Text.trimStart behind = [] → gap = [])
    (hcomment : ['/', '/'] <:+: front ++ Text.trimStart behind → ∃ text ∈ texts,
      ['/', '/'] <:+: text) :
    UpTo line blanks (front ++ Text.trimStart behind) gap texts where
  gap_eq := by
    by_cases hbehind : Text.trimStart behind = []
    · rw [hbehind, List.append_nil]
      exact .inr ⟨hgap' hbehind, hfront⟩
    · exact .inl (hgap hbehind)
  joined hlast := by
    by_cases hbehind : Text.trimStart behind = []
    · rw [hbehind, hgap' hbehind, List.append_nil, List.append_nil] at hlast
      rcases hfront with rfl | hfront
      · cases hlast
      · rw [hfront] at hlast
        cases hlast
    · have hne : Text.trimStart behind ++ blanks ≠ [] :=
        fun hnil => hbehind (List.append_eq_nil_iff.mp hnil).1
      obtain ⟨before, rfl⟩ := (List.dropWhile_suffix Text.isBlank).trans hline
      rw [hgap hbehind, List.append_assoc, List.getLast?_append_of_ne_nil _ hne] at hlast
      rw [List.append_assoc]
      exact (List.getLast?_append_of_ne_nil before hne).trans hlast
  comment := hcomment

/-- The first line is a directive if it begins as one, and takes the lines it runs on to. -/
theorem ofLines_eq_directive {first : List Char} :
    ofLines false (first :: rest) = .directive d :: parts ↔
    ∃ word start, Directive.head? first = some (word, start) ∧
      d = ⟨String.ofList word, Directive.withoutComment (Directive.continued start rest).1⟩ ∧
      parts = ofLines (runsOn start) rest := by
  rw [ofLines]
  cases hhead : Directive.head? first with
  | none => simp
  | some head =>
    obtain ⟨word, start⟩ := head
    constructor
    · intro h
      obtain ⟨hd, hparts⟩ := List.cons.inj h
      exact ⟨word, start, rfl, (directive.inj hd).symm, hparts.symm⟩
    · rintro ⟨word', start', heq, rfl, rfl⟩
      obtain ⟨rfl, rfl⟩ := Prod.mk.inj (Option.some.inj heq)
      rfl

/-- A directive extends over the lines that continue it. -/
theorem extent_directive (d : Directive) (b : Bool) (rest : List (List Char)) :
    extent (.directive d :: ofLines b rest) 0 = continuations b rest :=
  takeWhile_ofLines b rest

section Commented

variable (hblanks : ∀ c ∈ blanks, Text.isBlank c = true)
    (hend : runsOn (Text.trimEnd ('/' :: comment)) = false)

include hend

/-- A line that ends with a comment is the last one of its directive. -/
theorem not_runsOn_comment (front : List Char) : runsOn (front ++ '/' :: comment) = false := by
  obtain ⟨ending, hending, -, heq⟩ := Text.exists_trimEnd ('/' :: comment)
  rw [runsOn, List.getLast?_append_cons]
  cases hcases : ending.reverse with
  | nil =>
    rw [List.reverse_eq_nil_iff.mp hcases, List.append_nil] at heq
    rw [heq]
    exact hend
  | cons c ending' =>
    have hlast : ending = ending'.reverse ++ [c] :=
      by rw [← List.reverse_reverse ending, hcases, List.reverse_cons]
    have hc : c ≠ '\\' := by
      rintro rfl
      exact absurd (hending '\\' (by simp [hlast])) (by decide)
    rw [heq, hlast, ← List.append_assoc, List.getLast?_concat]
    simp [hc]

include hblanks

/-- A line runs on only if the comment at its end does. -/
theorem not_runsOn_trim_comment (front : List Char) :
    runsOn (Text.trim (front ++ (blanks ++ '/' :: comment))) = false := by
  have hslash : Text.isBlank '/' = false := by decide
  obtain ⟨gap, -, -, htrim⟩ := Text.trim_append hblanks hslash front comment
  rw [Text.trimEnd_cons hslash] at hend
  rw [← List.append_assoc, htrim, runsOn, List.getLast?_append_cons]
  exact hend

/-- A comment in the only line of a directive. -/
theorem ofLines_commented_line (hd : ofLines false (line :: rest) = .directive d :: parts)
    (hextent : extent (.directive d :: parts) 0 = 0) :
    ∃ text gap, UpTo line blanks text gap [line] ∧ d.body = Directive.withoutComment text ∧
      ofLines false ((line ++ (blanks ++ '/' :: comment)) :: rest) =
        .directive ⟨d.word, Directive.withoutComment (text ++ gap ++ '/' :: comment)⟩ :: parts := by
  obtain ⟨word, start, hhead, rfl, rfl⟩ := ofLines_eq_directive.mp hd
  rw [extent_directive, stops_iff] at hextent
  obtain ⟨behind, rfl, hbehind, happend⟩ := Directive.head?_append hhead
  obtain ⟨gap, hgap, hgap', hstart⟩ :=
    Text.exists_trimStart hblanks (show Text.isBlank '/' = false by decide) behind comment
  have hhead' := happend (blanks ++ '/' :: comment)
    (Directive.not_isWordChar_comment hblanks comment)
  rw [hstart] at hhead'
  have hstop := not_runsOn_comment hend (Text.trimStart behind ++ gap)
  refine ⟨Text.trimStart behind, gap, ?_, ?_, ?_⟩
  · rw [← List.nil_append (Text.trimStart behind)]
    refine .of_suffix hbehind (.inl rfl) hgap hgap' fun hin =>
      ⟨line, List.mem_singleton_self line, ?_⟩
    exact hin.trans ((List.dropWhile_suffix _).trans hbehind).isInfix
  · rw [continued_of_stops hextent]
  · refine ofLines_eq_directive.mpr ⟨word, _, hhead', ?_, ?_⟩
    · rw [continued_of_stops (.inl hstop)]
    · rw [hstop]
      rcases hextent with hextent | rfl
      · rw [hextent]
      · cases runsOn (Text.trimStart behind) <;> rfl

/-- A comment in the last one of several lines of a directive. -/
theorem ofLines_commented_later {first : List Char}
    (hd : ofLines false (first :: (middle ++ line :: rest)) = .directive d :: parts)
    (hextent : extent (.directive d :: parts) 0 = middle.length + 1) :
    ∃ text gap, UpTo line blanks text gap (first :: (middle ++ [line])) ∧
      d.body = Directive.withoutComment text ∧
        ofLines false (first :: (middle ++ (line ++ (blanks ++ '/' :: comment)) :: rest)) =
        .directive ⟨d.word, Directive.withoutComment (text ++ gap ++ '/' :: comment)⟩ :: parts := by
  obtain ⟨word, start, hhead, rfl, rfl⟩ := ofLines_eq_directive.mp hd
  rw [extent_directive] at hextent
  obtain ⟨hline, front, hlast, hfront, hbody⟩ := continued_ending hextent
  obtain ⟨gap, hgap, hgap', hstart⟩ :=
    Text.exists_trimStart hblanks (show Text.isBlank '/' = false by decide) line comment
  have hstop := not_runsOn_trim_comment hblanks hend line
  obtain ⟨behind, rfl, hbehind, -⟩ := Directive.head?_append hhead
  refine ⟨front ++ Text.trimStart line, gap,
    .of_suffix (List.suffix_refl line) (.inr hlast) hgap hgap' fun hin => ?_, ?_, ?_⟩
  · obtain ⟨front, rfl⟩ := List.getLast?_eq_some_iff.mp hlast
    rw [List.append_assoc, List.singleton_append] at hin
    rcases comment_joined hin with hin | hin
    · rcases hfront (hin.trans (List.prefix_append _ _).isInfix) with hin | ⟨text, htext, hin⟩
      · exact ⟨first, List.mem_cons_self,
          hin.trans ((List.dropWhile_suffix _).trans hbehind).isInfix⟩
      · exact ⟨text, by simp [htext], hin⟩
    · exact ⟨line, by simp, hin.trans (List.dropWhile_suffix _).isInfix⟩
  · rw [hbody line hline, Text.trim, Directive.withoutComment_append_trimEnd]
  · refine ofLines_eq_directive.mpr ⟨word, _, hhead, ?_, (ofLines_ending hextent hstop).symm⟩
    rw [hbody _ (.inl hstop), Text.trim, Directive.withoutComment_append_trimEnd, hstart]
    simp only [List.append_assoc]

omit hend hblanks in
/-- The lines before a directive do not depend on it, and it does not depend on them. -/
theorem exists_first (hd : (ofLines false lines)[i]? = some (.directive d)) :
    ∃ before first rest front parts, lines = before ++ first :: rest ∧ before.length = i ∧
      front.length = i ∧ ofLines false (first :: rest) = .directive d :: parts ∧
      ∀ first rest, ofLines false (before ++ first :: rest) = front ++ ofLines false (first ::
          rest) := by
  have hlt : i < lines.length := length_ofLines false lines ▸ (List.getElem?_eq_some_iff.mp hd).1
  have hlength : (lines.take i).length = i := by
    rw [List.length_take]
    omega
  have hfront : ((ofLines false lines).take i).length = i := by
    rw [List.length_take, length_ofLines]
    omega
  have hsplit : lines.take i ++ lines[i] :: lines.drop (i + 1) = lines := by
    rw [List.getElem_cons_drop, List.take_append_drop]
  have hown : (ofLines false
      (lines.take i ++ lines[i] :: lines.drop (i + 1)))[(lines.take i).length]? ≠
      some .continuation := by
    rw [hsplit, hlength, hd]
    simp
  have happend := fun first rest => ofLines_append hown first rest
  rw [hsplit, hlength] at happend
  have hparts := happend lines[i] (lines.drop (i + 1))
  rw [hsplit] at hparts
  rw [hparts, List.getElem?_append_right (by omega), hfront, Nat.sub_self] at hd
  obtain ⟨parts, hfirst⟩ := List.head?_eq_some_iff.mp (List.head?_eq_getElem? ▸ hd)
  exact ⟨_, _, _, _, parts, hsplit.symm, hlength, hfront, hfirst, happend⟩

/-- A comment behind the last line of a directive changes nothing but the directive's body. -/
theorem ofLines_commented (hd : (ofLines false lines)[i]? = some (.directive d))
    (hline : lines[i + extent (ofLines false lines) i]? = some line) :
    ∃ text gap, UpTo line blanks text gap
      ((lines.drop i).take (extent (ofLines false lines) i + 1)) ∧
      d.body = Directive.withoutComment text ∧
      ofLines false (lines.set (i + extent (ofLines false lines) i)
        (line ++ (blanks ++ '/' :: comment))) = (ofLines false lines).set i (.directive ⟨d.word,
            Directive.withoutComment (text ++ gap ++ '/' :: comment)⟩) := by
  obtain ⟨before, first, rest, front, parts, rfl, hbefore, hfront, hfirst, happend⟩ :=
    exists_first hd
  have hextent : extent (ofLines false (before ++ first :: rest)) i = extent (.directive d ::
      parts) 0 := by
    rw [happend, hfirst, extent, extent, List.drop_append, List.drop_of_length_le (by omega),
      hfront, Nat.add_sub_cancel_left]
    rfl
  have hset : ∀ part, (ofLines false (before ++ first :: rest)).set i part =
      front ++ part :: parts := by
    intro part
    rw [happend, hfirst, List.set_append_right _ _ (by omega), hfront, Nat.sub_self,
      List.set_cons_zero]
  have hdrop : (before ++ first :: rest).drop i = first :: rest := List.drop_left' hbefore
  rw [hextent, List.getElem?_append_right (by omega), hbefore, Nat.add_sub_cancel_left] at hline
  have hput : ∀ n text,
      (before ++ first :: rest).set (i + n) text = before ++ (first :: rest).set n text := by
    intro n text
    rw [List.set_append_right _ _ (by omega), hbefore, Nat.add_sub_cancel_left]
  simp only [hset, hextent, hdrop, hput]
  cases hcount : extent (.directive d :: parts) 0 with
  | zero =>
    rw [hcount] at hline
    obtain rfl := Option.some.inj hline
    obtain ⟨text, gap, hupto, hbody, hparts⟩ := ofLines_commented_line hblanks hend hfirst hcount
    exact ⟨text, gap, hupto, hbody, by rw [List.set_cons_zero, happend, hparts]⟩
  | succ n =>
    rw [hcount, List.getElem?_cons_succ] at hline
    obtain ⟨hn, rfl⟩ := List.getElem?_eq_some_iff.mp hline
    have hmiddle : (rest.take n).length = n := by
      rw [List.length_take]
      omega
    have hrest : rest = rest.take n ++ rest[n] :: rest.drop (n + 1) := by
      rw [List.getElem_cons_drop, List.take_append_drop]
    rw [hrest] at hfirst
    obtain ⟨text, gap, hupto, hbody, hparts⟩ :=
      ofLines_commented_later hblanks hend hfirst (by rw [hcount, hmiddle])
    refine ⟨text, gap, ?_, hbody, ?_⟩
    · rw [List.take_succ_cons, List.take_add_one, hline]
      exact hupto
    · rw [List.set_cons_succ, happend, ← hparts, List.set_eq_take_append_cons_drop, if_pos hn]

end Commented

end LinePart

end Header

end Interop
