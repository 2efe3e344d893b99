import Interop.Text.Split

namespace Interop.Text

/-- A line's text without the carriage return that its line end begins with. -/
def withoutReturn (line : List Char) : List Char :=
  match line.reverse with
  | '\r' :: rest => rest.reverse
  | _ => line

/-- The lines among the pieces between line feeds: all but the last piece were ended by one. -/
private def ofPieces : List (List Char) → List (List Char)
  | [] => []
  | [[]] => []
  | [last] => [last]
  | line :: rest => withoutReturn line :: ofPieces rest

/-- The lines of `cs`, without their ends. -/
def lines (cs : List Char) : List (List Char) :=
  ofPieces (pieces '\n' cs)

theorem notMem_withoutReturn {c : Char} {line : List Char} (h : c ∉ line) :
    c ∉ withoutReturn line := by
  unfold withoutReturn
  split
  · rename_i rest hreverse
    rw [← List.mem_reverse, hreverse, List.mem_cons, not_or] at h
    rw [List.mem_reverse]
    exact h.2
  · exact h

/-- A line holds no line feed. -/
theorem lineFeed_notMem_of_mem_lines {cs line : List Char} (h : line ∈ lines cs) : '\n' ∉ line := by
  have hall : ∀ parts : List (List Char), (∀ piece ∈ parts, '\n' ∉ piece) →
      ∀ line ∈ ofPieces parts, '\n' ∉ line := by
    intro parts
    fun_induction ofPieces parts with
    | case1 | case2 => exact fun _ => nofun
    | case3 last hne => exact fun hparts line hline => hparts line hline
    | case4 first rest hne hlast ih =>
      intro hparts line hline
      rcases List.mem_cons.mp hline with rfl | hline
      · exact notMem_withoutReturn (hparts first List.mem_cons_self)
      · exact ih (fun piece hpiece => hparts piece (List.mem_cons_of_mem _ hpiece)) line hline
  exact hall _ (fun _ hpiece => notMem_of_mem_pieces hpiece) line h

/-- The pieces of a text all of whose lines end with a line feed. -/
theorem pieces_flatMap {rows : List (List Char)} (h : ∀ row ∈ rows, '\n' ∉ row) :
    pieces '\n' (rows.flatMap (· ++ ['\n'])) = rows ++ [[]] := by
  induction rows with
  | nil => rfl
  | cons row rest ih =>
    rw [List.flatMap_cons, List.append_assoc, List.singleton_append,
      pieces_append (h row List.mem_cons_self), ih fun row hrow =>
        h row (List.mem_cons_of_mem _ hrow)]
    rfl

/-- A text whose lines all end with a line feed has just these lines, but for carriage returns at
their ends. -/
theorem lines_flatMap {rows : List (List Char)} (h : ∀ row ∈ rows, '\n' ∉ row) :
    lines (rows.flatMap (· ++ ['\n'])) = rows.map withoutReturn := by
  have hall : ∀ rows : List (List Char), ofPieces (rows ++ [[]]) = rows.map withoutReturn := by
    intro rows
    induction rows with
    | nil => rfl
    | cons row rest ih =>
      obtain ⟨next, others, hrest⟩ : ∃ next others, rest ++ [[]] = next :: others :=
        List.exists_cons_of_ne_nil (by simp)
      rw [List.cons_append, hrest, ofPieces, ← hrest, ih, List.map_cons]
      all_goals simp
  rw [lines, pieces_flatMap h, hall]

end Interop.Text
