import Interop.Header.Region

namespace Interop.Header

/-- What a line is to the directives of a header. -/
inductive LinePart where
  | text
  | directive (d : Directive)
  /-- A line that goes on with the directive before it. -/
  | continuation
deriving DecidableEq, Repr

namespace LinePart

/-- Whether a text ends with a backslash. -/
def runsOn (text : List Char) : Bool :=
  text.getLast? == some '\\'

/-- What each of the lines is. `isContinued` tells that a directive goes on in the first one. Behind
the backslash there may be blanks, but not in the line that the directive begins in. -/
def ofLines : (isContinued : Bool) → List (List Char) → List LinePart
  | _, [] => []
  | true, line :: rest => .continuation :: ofLines (runsOn (Text.trim line)) rest
  | false, line :: rest =>
    match Directive.head? line with
    | some (word, start) =>
      .directive ⟨String.ofList word,
        Directive.withoutComment (Directive.continued start rest).1⟩ ::
        ofLines (runsOn start) rest
    | none => .text :: ofLines false rest

/-- In how many lines the directive that begins in a line goes on. -/
def extent (parts : List LinePart) (i : Nat) : Nat :=
  ((parts.drop (i + 1)).takeWhile (· == .continuation)).length

/-- In how many of the lines a directive goes on that goes on in the first one. -/
def continuations : (isContinued : Bool) → List (List Char) → Nat
  | true, line :: rest => continuations (runsOn (Text.trim line)) rest + 1
  | _, _ => 0

variable {b : Bool} {line start : List Char} {lines before after rest : List (List Char)}

@[simp]
theorem continuations_false (lines : List (List Char)) : continuations false lines = 0 := by
  cases lines <;> rfl

theorem length_ofLines (b : Bool) (lines : List (List Char)) :
    (ofLines b lines).length = lines.length := by
  induction lines generalizing b with
  | nil => cases b <;> rfl
  | cons line rest ih =>
    cases b with
    | true => simp [ofLines, ih]
    | false =>
      rw [ofLines]
      split <;> simp [ih]

/-- A joined line runs on if its last one does. -/
theorem runsOn_joined (front line : List Char) :
    runsOn (front ++ ' ' :: line) = runsOn line := by
  cases line with
  | nil => simp [runsOn]
  | cons c line =>
    rw [runsOn, runsOn, List.getLast?_append, List.getLast?_cons_cons, List.getLast?_cons,
      Option.some_or]

/-- A line runs on if it ends in a backslash. -/
theorem runsOn_iff : runsOn start = true ↔ ∃ front, start.reverse = '\\' :: front := by
  rw [runsOn, beq_iff_eq, ← List.head?_reverse, List.head?_eq_some_iff]

/-- The body of a directive takes as many further lines as it goes on in. -/
theorem continued_snd (start : List Char) (rest : List (List Char)) :
    (Directive.continued start rest).2 = continuations (runsOn start) rest := by
  induction rest generalizing start with
  | nil => cases runsOn start <;> rfl
  | cons line rest ih =>
    rw [Directive.continued]
    split
    · rename_i front hfront
      rw [runsOn_iff.mpr ⟨front, hfront⟩]
      change (Directive.continued _ rest).2 + 1 = _
      rw [ih, runsOn_joined]
      rfl
    · rename_i hend
      have hstops : runsOn start = false := by
        rw [← Bool.not_eq_true, runsOn_iff]
        exact fun ⟨front, hfront⟩ => hend front hfront
      rw [hstops]
      rfl

/-- The lines that continue a directive come first. -/
theorem takeWhile_ofLines (b : Bool) (lines : List (List Char)) :
    ((ofLines b lines).takeWhile (· == .continuation)).length = continuations b lines := by
  induction lines generalizing b with
  | nil => cases b <;> rfl
  | cons line rest ih =>
    cases b with
    | true => simp [ofLines, continuations, ih]
    | false =>
      rw [ofLines]
      split <;> simp

/-- Lines that a directive goes on in are followed by lines of their own. -/
theorem ofLines_continued (b : Bool) (lines : List (List Char)) :
    ofLines b lines =
      List.replicate (continuations b lines) LinePart.continuation ++ ofLines false (lines.drop
          (continuations b lines)) := by
  induction lines generalizing b with
  | nil => cases b <;> rfl
  | cons line rest ih =>
    cases b with
    | true =>
      rw [ofLines, continuations, List.replicate_succ, List.cons_append, List.drop_succ_cons, ← ih]
    | false => simp

/-- The body of a directive does not depend on lines behind the ones that it goes on in. -/
theorem continued_append {other : List Char} {rest' : List (List Char)}
    (h : (ofLines (runsOn start) (before ++ line :: rest))[before.length]? ≠ some .continuation) :
    (Directive.continued start (before ++ other :: rest')).1 =
      (Directive.continued start (before ++ line :: rest)).1 := by
  induction before generalizing start with
  | nil =>
    have hstops : ∀ front, start.reverse ≠ '\\' :: front := by
      intro front hfront
      apply h
      rw [runsOn_iff.mpr ⟨front, hfront⟩]
      rfl
    rw [List.nil_append, List.nil_append, Directive.continued, Directive.continued]
    split
    · rename_i front hfront
      exact absurd hfront (hstops front)
    · rfl
  | cons first before ih =>
    rw [List.cons_append, List.cons_append, Directive.continued, Directive.continued]
    split
    · rename_i front hfront
      apply ih
      rw [runsOn_iff.mpr ⟨front, hfront⟩, List.cons_append, ofLines] at h
      rw [runsOn_joined]
      simpa using h
    · rfl

@[simp]
theorem extent_cons (part : LinePart) (parts : List LinePart) (i : Nat) :
    extent (part :: parts) (i + 1) = extent parts i :=
  rfl

/-- Empty lines are text. -/
theorem ofLines_blank (count : Nat) (rest : List (List Char)) :
    ofLines false (List.replicate count [] ++ rest) = List.replicate count LinePart.text ++
      ofLines false rest := by
  induction count with
  | zero => rfl
  | succ count ih =>
    rw [List.replicate_succ, List.cons_append, ofLines]
    exact congrArg (LinePart.text :: ·) ih

/-- A line that a directive begins in may be emptied, with the lines that the directive goes on in:
they become lines of text, and nothing else changes. -/
theorem ofLines_emptied {d : Directive} {count : Nat}
    (h : (ofLines b (before ++ line :: rest))[before.length]? = some (.directive d))
    (hcount : extent (ofLines b (before ++ line :: rest)) before.length = count) :
    ∃ parts parts', parts.length = before.length ∧ count ≤ rest.length ∧
      ofLines b (before ++ line :: rest) = parts ++ LinePart.directive d ::
        (List.replicate count LinePart.continuation ++ parts') ∧
      ofLines b (before ++ List.replicate (count + 1) [] ++ rest.drop count) =
        parts ++ (List.replicate (count + 1) LinePart.text ++ parts') := by
  induction before generalizing b with
  | nil =>
    cases b with
    | true => simp [ofLines] at h
    | false =>
      simp only [List.nil_append] at h hcount ⊢
      rw [ofLines] at h hcount ⊢
      split at h
      · rename_i word start hhead
        simp only [hhead] at hcount ⊢
        obtain rfl : d = _ := by simpa using h.symm
        have hextent : continuations (runsOn start) rest = count := by
          rw [← takeWhile_ofLines]
          exact hcount
        have hlength := congrArg List.length (ofLines_continued (runsOn start) rest)
        refine ⟨[], ofLines false (rest.drop count), rfl, ?_, ?_, ?_⟩
        · rw [length_ofLines, List.length_append, List.length_replicate, hextent] at hlength
          omega
        · rw [ofLines_continued (runsOn start) rest, hextent]
          rfl
        · exact ofLines_blank (count + 1) _
      · simp at h
  | cons first before ih =>
    cases b with
    | true =>
      simp only [List.cons_append, ofLines, List.length_cons, List.getElem?_cons_succ,
        extent_cons] at h hcount ⊢
      obtain ⟨parts, parts', hlength, hle, heq, hemptied⟩ := ih h hcount
      exact ⟨.continuation :: parts, parts', by rw [List.length_cons, hlength], hle,
        by rw [heq]; rfl, by rw [hemptied]; rfl⟩
    | false =>
      cases hhead : Directive.head? first with
      | none =>
        simp only [List.cons_append, ofLines, hhead, List.length_cons, List.getElem?_cons_succ,
          extent_cons] at h hcount ⊢
        obtain ⟨parts, parts', hlength, hle, heq, hemptied⟩ := ih h hcount
        exact ⟨.text :: parts, parts', by rw [List.length_cons, hlength], hle, by rw [heq]; rfl,
          by rw [hemptied]; rfl⟩
      | some head =>
        obtain ⟨word, start⟩ := head
        simp only [List.cons_append, ofLines, hhead, List.length_cons, List.getElem?_cons_succ,
          extent_cons] at h hcount ⊢
        obtain ⟨parts, parts', hlength, hle, heq, hemptied⟩ := ih h hcount
        -- the body of an earlier directive ends before the line that is emptied
        have hbody : (Directive.continued start (before ++ List.replicate (count + 1) [] ++
            rest.drop count)).1 = (Directive.continued start (before ++ line :: rest)).1 := by
          rw [List.append_assoc, List.replicate_succ, List.cons_append]
          exact continued_append (by rw [h]; exact nofun)
        rw [hbody, heq, hemptied]
        exact ⟨_ :: parts, parts', by rw [List.length_cons, hlength], hle, rfl, rfl⟩

end LinePart

end Interop.Header
