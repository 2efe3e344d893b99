import Interop.Files.Tree
import Interop.Header.Source

namespace Interop.Header

/-- Why a file gives no unit. -/
inductive ReadFailure where
  /-- The bytes of the file do not encode a text. -/
  | notText
  | malformed (error : SyntaxError)
deriving DecidableEq, Repr

namespace ReadFailure

/-- The failure in words. -/
def message : ReadFailure → String
  | notText => "IO error: stream did not contain valid UTF-8"
  | malformed error => error.message

end ReadFailure

/-- A way of reading the content of a header under a configuration. -/
abbrev FrontEnd := Configuration → Path → Content → Reading ReadFailure HeaderUnit

/-- The front end that reads the declarations itself. -/
def FrontEnd.builtin : FrontEnd := fun config path content =>
  match content with
  | .text source =>
    let reading := readUnit config path source
    ⟨reading.result.mapError .malformed, reading.defined⟩
  | .binary _ => ⟨.error .notText, []⟩

end Interop.Header
