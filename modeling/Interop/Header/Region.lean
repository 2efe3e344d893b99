import Interop.Header.Configuration
import Interop.Header.Directive
import Interop.Text.Lines

namespace Interop.Header

/-- A conditional that is open at a line. -/
structure Conditional where
  /-- Its current branch is selected. -/
  isActive : Bool
  /-- No further branch may be selected. -/
  isTaken : Bool
  /-- It was opened in a selected region. -/
  isReached : Bool
deriving DecidableEq, Repr

/-- What the lines before a line have left behind. -/
structure RegionState where
  /-- The open conditionals, the innermost first. -/
  conditionals : List Conditional := []
  /-- The macros that selected definitions have defined. -/
  defined : List String := []
  /-- The include and macro directives of selected regions, the last first. -/
  found : List Declaration := []

namespace RegionState

/-- Whether the lines that follow belong to a selected region. -/
def isActive (s : RegionState) : Bool :=
  match s.conditionals with
  | [] => true
  | c :: _ => c.isActive

/-- Whether a macro counts as defined. -/
def isDefined (config : Configuration) (s : RegionState) (name : String) : Bool :=
  s.defined.contains name || (config.replacement? name).isSome

/-- Opens a conditional whose first branch has the given condition. -/
def enter (s : RegionState) (condition : Bool) : RegionState :=
  let value := s.isActive && condition
  { s with conditionals := ⟨value, value, s.isActive⟩ :: s.conditionals }

/-- Goes on to the next branch of the innermost conditional. -/
def branch (s : RegionState) (condition : Bool) : RegionState :=
  match s.conditionals with
  | [] => s
  | c :: outer =>
    let value := c.isReached && !c.isTaken && condition
    { s with conditionals := { c with isActive := value, isTaken := c.isTaken || value } :: outer }

/-- Goes on to the branch for all that no other branch covers; no branch may follow it. -/
def otherwise (s : RegionState) : RegionState :=
  match s.conditionals with
  | [] => s
  | c :: outer =>
    { s with conditionals := { c with isActive := c.isReached && !c.isTaken, isTaken := true } ::
      outer }

/-- Closes the innermost conditional. -/
def leave (s : RegionState) : RegionState :=
  { s with conditionals := s.conditionals.tail }

/-- Defines a macro and keeps its directive. -/
def define (s : RegionState) (line : Nat) (body : List Char) : RegionState :=
  match Directive.definition? body with
  | none => s
  | some (name, value?) =>
    { s with
      defined := name :: s.defined
      found := { kind := .macroDefinition, name, value?, line } :: s.found }

/-- Forgets a macro. -/
def undefine (s : RegionState) (name : String) : RegionState :=
  { s with defined := s.defined.filter (· != name) }

/-- Keeps an include directive. -/
def including (s : RegionState) (line : Nat) (body : List Char) : RegionState :=
  { s with
    found := { kind := .includeDirective, name := Directive.includeTarget body, line } :: s.found }

/-- The effect of a directive in the given line. Definitions and includes count in selected regions
only, and unknown directives have no effect. -/
def apply (config : Configuration) (line : Nat) (d : Directive) (s : RegionState) : RegionState :=
  match d.word with
  | "if" => s.enter (Directive.holds (s.isDefined config) d.body)
  | "ifdef" => s.enter (s.isDefined config (String.ofList d.body))
  | "ifndef" => s.enter (!s.isDefined config (String.ofList d.body))
  | "elif" => s.branch (Directive.holds (s.isDefined config) d.body)
  | "else" => s.otherwise
  | "endif" => s.leave
  | "define" => if s.isActive then s.define line d.body else s
  | "undef" => if s.isActive then s.undefine (String.ofList d.body) else s
  | "include" => if s.isActive then s.including line d.body else s
  | _ => s

end RegionState

/-- Goes through the lines from the given number on: the lines that are kept, with all others
emptied, and the state at the end. The counter holds how many lines still belong to the last
directive. -/
def selectLines (config : Configuration) :
    (pending line : Nat) → RegionState → List (List Char) → List (List Char) × RegionState
  | _, _, s, [] => ([], s)
  | pending + 1, line, s, _ :: rest =>
    let (kept, s) := selectLines config pending (line + 1) s rest
    ([] :: kept, s)
  | 0, line, s, text :: rest =>
    match Directive.ofLines? text rest with
    | some (d, count) =>
      let (kept, s) := selectLines config count (line + 1) (s.apply config line d) rest
      ([] :: kept, s)
    | none =>
      let (kept, last) := selectLines config 0 (line + 1) s rest
      ((if s.isActive then text else []) :: kept, last)

/-- The selected text of a header, with as many lines as the header, and the include and macro
directives of its selected regions. -/
def preprocess (config : Configuration) (source : String) : List Char × List Declaration :=
  let (kept, s) := selectLines config 0 1 {} (Text.lines source.toList)
  (kept.flatMap (· ++ ['\n']), s.found.reverse)

end Interop.Header
