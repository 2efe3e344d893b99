import Interop.Text.Blank
import Interop.Text.Split

namespace Interop.Header

/-- A compile configuration. -/
structure Configuration where
  includes : List String := []
  /-- The defined names with their replacements, in the order they were given. -/
  defines : List (String × String) := []
  options : List String := []
deriving DecidableEq, Repr

namespace Configuration

/-- The name and the replacement that a definition flag gives; without an equals sign the
replacement is empty. -/
def define (flag : String) : String × String :=
  match Text.cutString? flag "=" with
  | some (name, value) => (Text.trimString name, Text.trimString value)
  | none => (Text.trimString flag, "")

/-- The configuration that three lists of flags give. -/
def ofFlags (includes defines options : List String) : Configuration :=
  ⟨includes, defines.map define, options⟩

/-- The replacement of a name; of two definitions the later counts. -/
def replacement? (c : Configuration) (name : String) : Option String :=
  c.defines.reverse.lookup name

end Configuration

end Interop.Header
