import Interop.Json.Value

namespace Interop.Json

/-- The string a value holds. -/
def string? : Json → Option String
  | string s => some s
  | _ => none

/-- The truth value a value holds. -/
def bool? : Json → Option Bool
  | bool b => some b
  | _ => none

/-- The integer a value holds, if it is at least zero and fits 32 bits. -/
def count? : Json → Option Nat
  | number (.integer n) => if 0 ≤ n ∧ n.toNat < UInt32.size then some n.toNat else none
  | _ => none

/-- The items of an array. -/
def items? : Json → Option (List Json)
  | array items => some items
  | _ => none

/-- The members of an object. -/
def members? : Json → Option (List (String × Json))
  | object members => some members
  | _ => none

/-- What a value that may be null holds. -/
def nullable? {α : Type} (read : Json → Option α) : Json → Option (Option α)
  | null => some none
  | value => (read value).map some

/-- The name of an alternative, given as a string or as an object that maps the name to null. -/
def alternative? : Json → Option String
  | string name => some name
  | object [(name, null)] => some name
  | _ => none

/-- The fields of a record that have not been read yet. -/
inductive Record where
  /-- The fields are looked up by their names. -/
  | named (members : List (String × Json))
  /-- The fields come in their order. -/
  | listed (items : List Json)

/-- The record a value is. -/
def record? : Json → Option Record
  | object members => some (.named members)
  | array items => some (.listed items)
  | _ => none

/-- Reads a record field by field. -/
abbrev Fields := StateT Record Option

namespace Fields

/-- The value of the record's next field, whose name is given. -/
def next? (name : String) : Fields (Option Json) := do
  match ← get with
  | .named members => return members.lookup name
  | .listed [] => return none
  | .listed (item :: rest) =>
    set (Record.listed rest)
    return some item

/-- A field the record has to have. -/
def required {α : Type} (name : String) (read : Json → Option α) : Fields α := do
  match ← next? name with
  | some value => monadLift (read value)
  | none => failure

/-- A field that stands for `absent` when it is left out. -/
def optional {α : Type} (name : String) (absent : α) (read : Json → Option α) : Fields α := do
  match ← next? name with
  | some value => monadLift (read value)
  | none => return absent

/-- A field that may be null, and may be left out where fields are named. -/
def nullableNamed {α : Type} (name : String) (read : Json → Option α) : Fields (Option α) := do
  let listed := match ← get with
    | .listed _ => true
    | .named _ => false
  match ← next? name with
  | some value => monadLift (nullable? read value)
  | none => if listed then failure else return none

/-- Reads a whole record; one that is listed may not have further items. -/
def run {α : Type} (fields : Fields α) (record : Record) : Option α := do
  let (value, rest) ← StateT.run fields record
  match rest with
  | .named _ => some value
  | .listed [] => some value
  | .listed (_ :: _) => none

end Fields

end Interop.Json
