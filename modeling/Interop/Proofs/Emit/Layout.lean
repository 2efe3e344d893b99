import Interop.Emit.ManagedFile

namespace Interop.Emit

/-- Whether a text is a row of its own that is no brace. -/
def Spoken (text : String) : Prop :=
  text ≠ "" ∧ text ≠ "\x7b" ∧ text ≠ "\x7d"

instance (text : String) : Decidable (Spoken text) :=
  inferInstanceAs (Decidable (_ ∧ _ ∧ _))

namespace Spoken

variable {front back : String}

/-- Two texts that are a single letter together are that letter and nothing. -/
private theorem of_append {c : Char} (h : front ++ back = String.ofList [c]) :
    front = "" ∧ back = String.ofList [c] ∨ front = String.ofList [c] ∧ back = "" := by
  have hlist := congrArg String.toList h
  rw [String.toList_append, String.toList_ofList, List.append_eq_singleton_iff] at hlist
  refine hlist.imp (fun hboth => ?_) fun hboth => ?_ <;>
    exact ⟨by rw [← String.toList_inj, hboth.1]; simp, by rw [← String.toList_inj, hboth.2]; simp⟩

/-- A text that says something goes on doing so whatever follows. -/
theorem before (h : Spoken front) (back : String) : Spoken (front ++ back) := by
  refine ⟨fun hempty => h.1 (String.append_eq_empty_iff.mp hempty).1, fun hopen => ?_,
    fun hclose => ?_⟩
  · exact (of_append (c := '{') hopen).elim (fun hboth => h.1 hboth.1) fun hboth => h.2.1 hboth.1
  · exact (of_append (c := '}') hclose).elim (fun hboth => h.1 hboth.1) fun hboth => h.2.2 hboth.1

theorem behind (front : String) (h : Spoken back) : Spoken (front ++ back) := by
  refine ⟨fun hempty => h.1 (String.append_eq_empty_iff.mp hempty).2, fun hopen => ?_,
    fun hclose => ?_⟩
  · exact (of_append (c := '{') hopen).elim (fun hboth => h.2.1 hboth.2) fun hboth => h.1 hboth.2
  · exact (of_append (c := '}') hclose).elim (fun hboth => h.2.2 hboth.2) fun hboth => h.1 hboth.2

end Spoken

/-- How many blocks some rows open. -/
def opens (rows : List Row) : Nat :=
  rows.countP (·.text == "\x7b")

/-- How many blocks some rows close. -/
def closes (rows : List Row) : Nat :=
  rows.countP (·.text == "\x7d")

theorem opens_append (rows rows' : List Row) : opens (rows ++ rows') = opens rows + opens rows' :=
  List.countP_append

theorem closes_append (rows rows' : List Row) :
    closes (rows ++ rows') = closes rows + closes rows' :=
  List.countP_append

/-- Whether rows that begin at a level are properly nested. A row's level is the number of blocks
that are open around it; a row that closes a block stands beside the one that has opened it. -/
structure Balanced (level : Nat) (rows : List Row) : Prop where
  levels : ∀ before row after, rows = before ++ row :: after →
    row.level + closes (before ++ [row]) = level + opens before
  closed : closes rows = opens rows

namespace Balanced

variable {level : Nat} {rows rows' : List Row}

theorem nil : Balanced level [] := by
  refine ⟨fun before row after h => ?_, rfl⟩
  exact absurd h.symm (List.append_ne_nil_of_right_ne_nil before (List.cons_ne_nil row after))

/-- Balanced rows may follow each other at the same level. -/
theorem append (h : Balanced level rows) (h' : Balanced level rows') :
    Balanced level (rows ++ rows') := by
  have hclosed := h.closed
  refine ⟨fun before row after heq => ?_, ?_⟩
  · rcases List.append_eq_append_iff.mp heq with ⟨middle, rfl, hafter⟩ | ⟨middle, rfl, hafter⟩
    · have hlevel := h'.levels middle row after hafter
      rw [List.append_assoc, closes_append, opens_append]
      omega
    · cases middle with
      | nil =>
        have hlevel := h'.levels [] row after hafter.symm
        rw [List.append_nil] at hclosed
        rw [List.nil_append, show opens [] = 0 from rfl] at hlevel
        rw [closes_append]
        omega
      | cons first middle =>
        rw [List.cons_append, List.cons.injEq] at hafter
        obtain ⟨rfl, -⟩ := hafter
        exact h.levels before row middle rfl
  · rw [closes_append, opens_append, hclosed, h'.closed]

/-- A row that is no brace stands by itself. -/
theorem row {text : String} (hopen : text ≠ "\x7b") (hclose : text ≠ "\x7d") :
    Balanced level [⟨level, text⟩] := by
  have hopens : opens [⟨level, text⟩] = 0 := by simp [opens, hopen]
  have hcloses : closes [⟨level, text⟩] = 0 := by simp [closes, hclose]
  refine ⟨fun before row after h => ?_, hcloses.trans hopens.symm⟩
  cases before with
  | nil =>
    cases h
    rw [List.nil_append, hcloses]
    rfl
  | cons first before =>
    exact absurd (List.cons.inj h).2.symm (List.append_ne_nil_of_right_ne_nil before nofun)

/-- Braces around rows that are nested. -/
theorem block (h : Balanced (level + 1) rows) :
    Balanced level (⟨level, "\x7b"⟩ :: rows ++ [⟨level, "\x7d"⟩]) := by
  have hclosed := h.closed
  have hopens : ∀ rest, opens (⟨level, "\x7b"⟩ :: rest) = opens rest + 1 :=
    fun rest => by simp [opens]
  have hcloses : ∀ rest, closes (⟨level, "\x7b"⟩ :: rest) = closes rest :=
    fun rest => by simp [closes]
  have hlast : closes [⟨level, "\x7d"⟩] = 1 := by simp [closes]
  have hlast' : opens [⟨level, "\x7d"⟩] = 0 := by simp [opens]
  refine ⟨fun before row after heq => ?_, ?_⟩
  · cases before with
    | nil =>
      cases heq
      rw [List.nil_append, hcloses]
      rfl
    | cons first inner =>
      rw [List.cons_append, List.cons_append, List.cons.injEq] at heq
      obtain ⟨rfl, heq⟩ := heq
      rw [List.cons_append, hopens, hcloses]
      rcases List.append_eq_append_iff.mp heq with ⟨middle, rfl, hafter⟩ | ⟨middle, rfl, hafter⟩
      · -- Behind the inner rows there is only the closing brace.
        cases middle with
        | nil =>
          cases hafter
          rw [List.append_nil, closes_append, hlast]
          show level + _ = _
          omega
        | cons other middle =>
          exact absurd (List.cons.inj hafter).2.symm
            (List.append_ne_nil_of_right_ne_nil middle nofun)
      · cases middle with
        | nil =>
          cases hafter
          rw [List.append_nil] at hclosed
          rw [closes_append, hlast]
          show level + _ = _
          omega
        | cons other middle =>
          rw [List.cons_append, List.cons.injEq] at hafter
          obtain ⟨rfl, -⟩ := hafter
          have hlevel := h.levels inner row middle rfl
          omega
  · rw [List.cons_append, hopens, hcloses, closes_append, opens_append]
    omega

end Balanced

namespace Printer

/-- Whether a printer has gone on from another one by rows that are properly nested, and is at its
level again. -/
structure Extends (p q : Printer) : Prop where
  level : q.level = p.level
  rows : ∃ rows, q.rows = rows.reverse ++ p.rows ∧ Balanced p.level rows

namespace Extends

variable {p q r : Printer} {text : String}

theorem refl (p : Printer) : p.Extends p :=
  ⟨rfl, [], rfl, .nil⟩

/-- Extensions may be chained. -/
theorem trans (h : p.Extends q) (h' : q.Extends r) : p.Extends r := by
  obtain ⟨rows, hrows, hbalanced⟩ := h.rows
  obtain ⟨rows', hrows', hbalanced'⟩ := h'.rows
  refine ⟨h'.level.trans h.level, rows ++ rows', ?_, hbalanced.append (h.level ▸ hbalanced')⟩
  rw [hrows', hrows, List.reverse_append, List.append_assoc]

/-- A block is closed where it has been opened. -/
theorem dedent (h : p.indent.Extends q) : p.Extends q.dedent := by
  obtain ⟨rows, hrows, hbalanced⟩ := h.rows
  have hlevel : q.level - 1 = p.level := by
    rw [h.level]
    rfl
  refine ⟨hlevel, _, ?_, hbalanced.block⟩
  show (⟨q.level - 1, "\x7d"⟩ :: q.rows : List Row) = _
  rw [hrows, hlevel]
  simp [Printer.indent, Printer.line]

/-- A line that says something extends a printer at its own level. -/
theorem line (h : p.Extends q) (htext : Spoken text) : p.Extends (q.line text) :=
  h.trans ⟨rfl, [⟨q.level, text⟩], rfl, .row htext.2.1 htext.2.2⟩

theorem blank (h : p.Extends q) : p.Extends q.blank :=
  h.trans ⟨rfl, [⟨q.level, ""⟩], rfl, .row (by decide) (by decide)⟩

theorem lines {texts : List String} (h : p.Extends q) (htexts : ∀ text ∈ texts, Spoken text) :
    p.Extends (q.lines texts) := by
  induction texts generalizing q with
  | nil => exact h
  | cons text rest ih =>
    exact ih (h.line (htexts text List.mem_cons_self)) fun other hother =>
      htexts other (List.mem_cons_of_mem _ hother)

theorem block {inside : Printer → Printer} (h : p.Extends q) (htext : Spoken text)
    (hinside : ∀ r, Extends r (inside r)) : p.Extends (q.block text inside) :=
  (h.line htext).trans (hinside _).dedent

end Extends

end Printer

section Parts

variable {p q : Printer}

/-- A bridge declaration is printed at the level it is met at. -/
theorem BridgeDeclaration.print_extends (d : BridgeDeclaration) (p : Printer) :
    p.Extends (d.print p) := by
  refine Printer.Extends.blank ((((Printer.Extends.refl p).line (by decide))).line ?_)
  unfold text
  exact .behind _ (by decide)

theorem BridgeDeclaration.foldl_print_extends (ds : List BridgeDeclaration) (p : Printer) :
    p.Extends (ds.foldl (fun p d => d.print p) p) := by
  induction ds generalizing p with
  | nil => exact .refl p
  | cons d rest ih => exact (d.print_extends p).trans (ih _)

/-- Whether the statement of a method is a row of its own. -/
def ManagedMember.Spoken : ManagedMember → Prop
  | .method _ _ _ _ statement => Emit.Spoken statement
  | _ => True

/-- A member is printed at the level it is met at, if its lines say something. -/
theorem ManagedMember.print_extends {m : ManagedMember} (h : m.Spoken) (p : Printer) :
    p.Extends (m.print p) := by
  cases m with
  | constructor owner isDerived parameters bridge =>
    refine ((Printer.Extends.refl p).block ?_ fun r => (Printer.Extends.refl r).lines ?_).blank
    · exact .before (.behind _ (by decide)) _
    · intro text htext
      rcases List.mem_cons.mp htext with rfl | htext
      · exact .behind _ (by decide)
      · obtain rfl := List.mem_singleton.mp htext
        exact .behind _ (by decide)
  | method modifier result name parameters statement =>
    exact ((Printer.Extends.refl p).block (.behind _ (by decide)) fun r =>
      (Printer.Extends.refl r).line h).blank
  | constant type name value => exact ((Printer.Extends.refl p).line (.behind _ (by decide))).blank
  | property isStatic type name getter setter? =>
    refine ((Printer.Extends.refl p).block (.before (.behind _ (by decide)) _) fun r =>
      (Printer.Extends.refl r).lines ?_).blank
    intro text htext
    rcases List.mem_cons.mp htext with rfl | htext
    · exact .behind _ (by decide)
    · obtain ⟨setter, -, rfl⟩ := List.mem_map.mp htext
      exact .behind _ (by decide)

/-- An enum is printed as one block, with its enumerators inside. -/
theorem ManagedEnum.print_extends (e : ManagedEnum) (p : Printer) : p.Extends (e.print p) := by
  refine ((Printer.Extends.refl p).block (.before (.before (by decide) _) _) fun r =>
    (Printer.Extends.refl r).lines ?_).blank
  intro text htext
  obtain ⟨value, -, rfl⟩ := List.mem_map.mp htext
  exact .behind _ (by decide)

/-- The header of a class is never empty. -/
theorem ManagedClass.header_spoken (c : ManagedClass) : Spoken c.header := by
  unfold header
  split
  · exact .before (by decide) _
  · exact .behind _ (by decide)

/-- The members that hold the native object are printed at the level of the class. -/
theorem ManagedClass.printHandle_extends (c : ManagedClass) (p : Printer) :
    p.Extends (c.printHandle p) := by
  have hhandle : p.Extends (if c.base?.isSome then p else p.line "internal IntPtr instance_;") := by
    split
    · exact .refl p
    · exact (Printer.Extends.refl p).line (by decide)
  unfold printHandle
  extract_lets
  refine .blank (.block
    (.blank (.block (.blank (.block (.blank (hhandle.line ?cache)) ?start fun r => ?adopt)) ?look
    fun r => ?find)) ?stop fun r => ?release)
  case cache => exact .behind _ (by decide)
  case start => exact .before (.before (.before (by decide) _) _) _
  case look => exact .behind _ (by decide)
  case stop => exact .behind _ (by decide)
  case adopt =>
    exact .block (.line (.refl r) (by decide)) (by decide) fun r => .line (.refl r) (by decide)
  case find =>
    refine .line (.block
      (.line (.block (.refl r) (by decide) fun r => .line (.refl r) (by decide)) ?_) (by decide)
      fun r => .line (.refl r) (by decide)) ?_
    · exact .behind _ (by decide)
    · exact .behind _ (by decide)
  case release =>
    refine .block (.refl r) (by decide) fun r => .lines (.refl r) fun text htext => ?_
    simp only [List.mem_cons, List.not_mem_nil, or_false] at htext
    rcases htext with rfl | rfl | rfl
    · decide
    · exact .behind _ (by decide)
    · decide

/-- What a class begins with is closed before anything is put into it. -/
theorem ManagedClass.printStart_extends (c : ManagedClass) (p : Printer) :
    p.Extends (c.printStart p) := by
  unfold printStart
  split
  · exact .refl p
  · exact c.printHandle_extends p

end Parts

end Interop.Emit
