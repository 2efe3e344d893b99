namespace Interop

/-- One step of a pattern. -/
inductive Wildcard where
  /-- Any run of characters other than line feeds, possibly empty. -/
  | run
  /-- One character other than a line feed. -/
  | single
  /-- Exactly this character. -/
  | exactly (c : Char)
deriving DecidableEq, Repr

namespace Wildcard

/-- The step that a character of a pattern's text stands for. -/
def ofChar : Char → Wildcard
  | '*' => run
  | '?' => single
  | c => exactly c

/-- Whether a character may stand for a wildcard. -/
def covers (c : Char) : Bool :=
  c != '\n'

/-- Which ends of a text are empty, from the whole text on: only the last one. -/
def emptyEnds : List Char → List Bool
  | [] => [true]
  | _ :: cs => false :: emptyEnds cs

/-- Puts a step in front of steps. Given the text and which of its ends the steps match, tells which
ends they match with the step in front. -/
def inFront (step : Wildcard) : List Char → List Bool → List Bool
  | [], ends => [step == run && ends.headD false]
  | c :: cs, ends =>
    let later := inFront step cs ends.tail
    let here :=
      match step with
      | run => ends.headD false || covers c && later.headD false
      | single => covers c && ends.tail.headD false
      | exactly a => a == c && ends.tail.headD false
    here :: later

/-- Which ends of a text the steps match, from the whole text on. -/
def matchedEnds (steps : List Wildcard) (cs : List Char) : List Bool :=
  steps.foldr (fun step ends => inFront step cs ends) (emptyEnds cs)

/-- The room that a step takes up while patterns are matched; a wildcard takes up that of all
characters it may stand for. -/
def weight : Wildcard → Nat
  | run => 1040
  | single => 1000
  | exactly c => 32 * c.utf8Size

end Wildcard

/-- A pattern, as it was written. -/
structure Pattern where
  text : String
deriving DecidableEq, Repr

namespace Pattern

/-- The steps of a pattern. -/
def steps (p : Pattern) : List Wildcard :=
  p.text.toList.map Wildcard.ofChar

/-- The room that all steps of a pattern may take up. -/
def room : Nat := 10485632

/-- The pattern a text writes, unless it takes up too much room. -/
def ofText? (text : String) : Option Pattern :=
  let p : Pattern := ⟨text⟩
  if p.steps.foldr (fun step taken => step.weight + taken) 0 ≤ room then some p else none

/-- Whether the pattern matches the whole of `value`. -/
def isMatch (p : Pattern) (value : String) : Bool :=
  (Wildcard.matchedEnds p.steps value.toList).headD false

end Pattern

end Interop
