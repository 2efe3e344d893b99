import Interop.Json.Real

namespace Interop

/-- A JSON number: an integer that fits 64 bits, or else a binary64 number. -/
inductive Json.Number where
  | integer (value : Int)
  | real (value : Json.Real)
deriving DecidableEq, Repr

/-- A JSON value. -/
inductive Json where
  | null
  | bool (value : Bool)
  | number (value : Json.Number)
  | string (value : String)
  | array (items : List Json)
  | object (members : List (String × Json))
deriving Repr, Inhabited

namespace Json

/-- Stores a member in a list sorted by name, replacing a member of that name. -/
def putMember (name : String) (value : Json) : List (String × Json) → List (String × Json)
  | [] => [(name, value)]
  | (n, v) :: rest =>
    if name = n then (name, value) :: rest
    else if name < n then (name, value) :: (n, v) :: rest
    else (n, v) :: putMember name value rest

/-- The object with the listed members; of two members with one name the later stays. -/
def ofMembers (members : List (String × Json)) : Json :=
  object (members.foldl (fun sorted m => putMember m.1 m.2 sorted) [])

/-- The member of an object with the given name. -/
def member? : Json → String → Option Json
  | object members, name => members.lookup name
  | _, _ => none

/-- The natural number as a JSON value. -/
def ofNat (n : Nat) : Json :=
  number (.integer n)

/-- The string, or null in its absence. -/
def ofOption (s : Option String) : Json :=
  s.elim null string

end Json

end Interop
