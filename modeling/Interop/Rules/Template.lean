import Interop.Text.Split

namespace Interop.Template

/-- The mark of a hole, which is also the template that leaves a value as it is. -/
def hole : String := "\x7bvalue\x7d"

/-- Puts a value into the holes of a template. -/
def render (template value : String) : String :=
  Text.replaceString template hole value

end Interop.Template
