import Interop.Pattern
import Interop.Text.Split
import Interop.Rules.Error

namespace Interop

/-- The patterns of a selection, in the order they were given. -/
structure Selection where
  includes : List Pattern := []
  excludes : List Pattern := []
deriving DecidableEq, Repr

namespace Selection

/-- The selection that selects everything. -/
def all : Selection := {}

/-- The pattern a text writes. -/
private def patternOf (text : String) : Except ConfigError Pattern :=
  match Pattern.ofText? text with
  | some pattern => .ok pattern
  | none => .error (.patternTooLarge text)

/-- Adds an include pattern. -/
def including (s : Selection) (text : String) : Except ConfigError Selection :=
  return { s with includes := s.includes ++ [← patternOf text] }

/-- Adds an exclude pattern. -/
def excluding (s : Selection) (text : String) : Except ConfigError Selection :=
  return { s with excludes := s.excludes ++ [← patternOf text] }

/-- Whether the selection holds `value`. -/
def selects (s : Selection) (value : String) : Bool :=
  (s.includes.isEmpty || s.includes.any (·.isMatch value)) && !s.excludes.any (·.isMatch value)

/-- Whether the selection has no patterns. -/
def isEmpty (s : Selection) : Bool :=
  s.includes.isEmpty && s.excludes.isEmpty

/-- The patterns with their roles, those to include first. -/
def patterns (s : Selection) : List (String × Bool) :=
  s.includes.map (fun p => (p.text, true)) ++ s.excludes.map (fun p => (p.text, false))

/-- Adds a pattern of the signed form: a leading minus excludes, a leading plus only marks. -/
def addSigned (s : Selection) (text : String) : Except ConfigError Selection :=
  match Text.afterString? text "-" with
  | some rest => s.excluding rest
  | none => s.including ((Text.afterString? text "+").getD text)

/-- The pattern a JSON value gives. -/
private def patternText (value : Json) : Except ConfigError String :=
  match value with
  | .string text => .ok text
  | other => .error (.patternNotString other)

/-- Adds the patterns of the object's list named `role`, if it has one. -/
private def addList (add : Selection → String → Except ConfigError Selection) (role : String)
    (members : List (String × Json)) (s : Selection) : Except ConfigError Selection :=
  match members.lookup role with
  | none => .ok s
  | some (.array items) => items.foldlM (fun s item => do add s (← patternText item)) s
  | some _ => .error (.patternsNotArray role)

/-- The selection a JSON value describes: a list of signed patterns, an object with a list of
include and a list of exclude patterns, or a single include pattern. -/
def ofJson : Json → Except ConfigError Selection
  | .array items => items.foldlM (fun s item => do s.addSigned (← patternText item)) all
  | .object members => do
    let s ← addList including "include" members all
    addList excluding "exclude" members s
  | .string text => all.including text
  | other => .error (.unsupportedFilter other)

end Selection

end Interop
