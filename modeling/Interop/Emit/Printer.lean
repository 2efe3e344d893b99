import Interop.Text.Lines

namespace Interop.Emit

/-- A row of text and the number of blocks around it. -/
structure Row where
  level : Nat
  text : String
deriving DecidableEq, Repr

namespace Row

/-- The row with its indentation and line end; a row without text has no indentation. -/
def spell (r : Row) : String :=
  (if r.text.isEmpty then "" else String.ofList (List.replicate (4 * r.level) ' ') ++
    r.text) ++ "\n"

end Row

/-- The rows printed so far and the number of blocks that are open. -/
structure Printer where
  level : Nat := 0
  /-- The rows, the last first. -/
  rows : List Row := []
deriving Repr

namespace Printer

/-- A printer that has printed nothing. -/
def empty : Printer := {}

/-- Prints a row inside the open blocks. -/
def line (p : Printer) (text : String) : Printer :=
  { p with rows := ⟨p.level, text⟩ :: p.rows }

/-- Prints an empty row. -/
def blank (p : Printer) : Printer :=
  p.line ""

/-- Opens a block. -/
def indent (p : Printer) : Printer :=
  let p := p.line "\x7b"
  { p with level := p.level + 1 }

/-- Closes the innermost block with the given text. -/
def dedentWith (p : Printer) (closer : String) : Printer :=
  line { p with level := p.level - 1 } closer

/-- Closes the innermost block. -/
def dedent (p : Printer) : Printer :=
  p.dedentWith "\x7d"

/-- Prints several rows inside the open blocks. -/
def lines (p : Printer) (texts : List String) : Printer :=
  texts.foldl line p

/-- Prints a block: its header, its braces and what `inside` prints between them. -/
def block (p : Printer) (header : String) (inside : Printer → Printer) : Printer :=
  (inside (p.line header).indent).dedent

/-- Whether nothing has been printed. -/
def isEmpty (p : Printer) : Bool :=
  p.rows.isEmpty

/-- The printed text. -/
def text (p : Printer) : String :=
  String.join (p.rows.reverse.map Row.spell)

end Printer

/-- The lines of a text. -/
def textLines (text : String) : List String :=
  (Text.lines text.toList).map String.ofList

end Interop.Emit
