namespace Interop.Text

/-- The rest of `cs` after `lead`, when `cs` begins with `lead`. -/
def after? : (lead cs : List Char) → Option (List Char)
  | [], cs => some cs
  | _ :: _, [] => none
  | l :: lead, c :: cs => if l = c then after? lead cs else none

theorem after?_eq_some {lead cs rest : List Char} :
    after? lead cs = some rest ↔ cs = lead ++ rest := by
  induction lead generalizing cs with
  | nil => simp [after?]
  | cons l lead ih =>
    cases cs with
    | nil => simp [after?]
    | cons c cs =>
      rw [after?]
      split
      · rename_i heq
        rw [ih, heq, List.cons_append, List.cons_inj_right]
      · rename_i hne
        simp [Ne.symm hne]

theorem isSome_after? {lead cs : List Char} : (after? lead cs).isSome ↔ lead <+: cs := by
  rw [Option.isSome_iff_exists]
  exact exists_congr fun rest => after?_eq_some.trans eq_comm

/-- Cuts `cs` around the first occurrence of `mark`: what stands before it, and what stands
behind. -/
def cutAt? (mark : List Char) : List Char → Option (List Char × List Char)
  | [] => (after? mark []).map ([], ·)
  | c :: cs =>
    match after? mark (c :: cs) with
    | some rest => some ([], rest)
    | none => (cutAt? mark cs).map fun (before, rest) => (c :: before, rest)

/-- The pieces of `cs` between the occurrences of one character; there is one more piece than
marks. -/
def pieces (mark : Char) : List Char → List (List Char)
  | [] => [[]]
  | c :: cs =>
    if c = mark then [] :: pieces mark cs
    else
      match pieces mark cs with
      | [] => [[c]]
      | piece :: more => (c :: piece) :: more

/-- A piece ends at the first mark. -/
theorem pieces_append {mark : Char} {cs : List Char} (h : mark ∉ cs) (rest : List Char) :
    pieces mark (cs ++ mark :: rest) = cs :: pieces mark rest := by
  induction cs with
  | nil => exact if_pos rfl
  | cons c cs ih =>
    rw [List.mem_cons, not_or] at h
    rw [List.cons_append, pieces, if_neg (Ne.symm h.1), ih h.2]

theorem notMem_of_mem_pieces {mark : Char} {cs piece : List Char} (h : piece ∈ pieces mark cs) :
    mark ∉ piece := by
  induction cs generalizing piece with
  | nil =>
    rw [List.mem_singleton.mp h]
    exact List.not_mem_nil
  | cons c cs ih =>
    rw [pieces] at h
    split at h
    · rcases List.mem_cons.mp h with rfl | h
      · exact List.not_mem_nil
      · exact ih h
    · rename_i hmark
      split at h
      · rw [List.mem_singleton.mp h, List.mem_singleton]
        exact Ne.symm hmark
      · rename_i first more hpieces
        rw [hpieces] at ih
        rcases List.mem_cons.mp h with rfl | h
        · rw [List.mem_cons, not_or]
          exact ⟨Ne.symm hmark, ih List.mem_cons_self⟩
        · exact ih (List.mem_cons_of_mem _ h)

/-- Replaces the occurrences of `mark`, found from the left and without overlap, by `by_`. The
counter holds how many characters of the last occurrence are still to be passed over. -/
private def replaceFrom (mark by_ : List Char) : (pending : Nat) → List Char → List Char
  | _, [] => []
  | n + 1, _ :: cs => replaceFrom mark by_ n cs
  | 0, c :: cs =>
    match mark with
    | [] => c :: cs
    | _ :: _ =>
      if (after? mark (c :: cs)).isSome then by_ ++ replaceFrom mark by_ (mark.length - 1) cs
      else c :: replaceFrom mark by_ 0 cs

/-- Replaces every occurrence of `mark` by `by_`; an empty mark replaces nothing. -/
def replaceAll (mark by_ : List Char) (cs : List Char) : List Char :=
  replaceFrom mark by_ 0 cs

private theorem replaceFrom_pending (mark by_ passed rest : List Char) :
    replaceFrom mark by_ passed.length (passed ++ rest) = replaceFrom mark by_ 0 rest := by
  induction passed with
  | nil => rfl
  | cons c passed ih => rw [List.length_cons, List.cons_append, replaceFrom, ih]

@[simp]
theorem replaceAll_nil (mark by_ : List Char) : replaceAll mark by_ [] = [] :=
  rfl

theorem replaceAll_append {mark : List Char} (h : mark ≠ []) (by_ rest : List Char) :
    replaceAll mark by_ (mark ++ rest) = by_ ++ replaceAll mark by_ rest := by
  cases mark with
  | nil => exact absurd rfl h
  | cons m mark =>
    have hbegins : (after? (m :: mark) (m :: (mark ++ rest))).isSome :=
      isSome_after?.mpr (List.prefix_append (m :: mark) rest)
    rw [replaceAll, List.cons_append, replaceFrom, if_pos hbegins, List.length_cons,
      Nat.add_sub_cancel, replaceFrom_pending, replaceAll]

theorem replaceAll_cons {mark : List Char} {c : Char} {cs : List Char} (h : ¬mark <+: c :: cs)
    (by_ : List Char) :
    replaceAll mark by_ (c :: cs) = c :: replaceAll mark by_ cs := by
  cases mark with
  | nil => exact absurd List.nil_prefix h
  | cons m mark => rw [replaceAll, replaceFrom, if_neg (mt isSome_after?.mp h), replaceAll]

/-- Replacing one character treats every character on its own. -/
theorem replaceAll_singleton (mark : Char) (by_ cs : List Char) :
    replaceAll [mark] by_ cs = cs.flatMap fun c => if c = mark then by_ else [c] := by
  unfold replaceAll
  induction cs with
  | nil => rfl
  | cons c cs ih =>
    rw [replaceFrom, List.flatMap_cons, ← ih]
    by_cases hmark : mark = c <;> simp [after?, hmark, eq_comm]

/-- `replaceAll` on strings. -/
def replaceString (s mark by_ : String) : String :=
  String.ofList (replaceAll mark.toList by_.toList s.toList)

/-- Cuts a string around its first occurrence of `mark`. -/
def cutString? (s mark : String) : Option (String × String) :=
  (cutAt? mark.toList s.toList).map fun (a, b) => (String.ofList a, String.ofList b)

/-- The rest of a string after `lead`. -/
def afterString? (s lead : String) : Option String :=
  (after? lead.toList s.toList).map String.ofList

end Interop.Text
