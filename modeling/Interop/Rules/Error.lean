import Interop.Json.Printer

namespace Interop

/-- The reasons for refusing a rules document or a part of it. -/
inductive ConfigError where
  /-- The document is no object. -/
  | documentNotObject
  /-- The section of the export namespaces is no object. -/
  | namespacesNotObject
  /-- The section of the parse paths of one export namespace is no object. -/
  | parseNotObject (name : String)
  /-- A filter is neither a list, an object nor a single pattern. -/
  | unsupportedFilter (value : Json)
  /-- A pattern of a filter is no string. -/
  | patternNotString (value : Json)
  /-- A pattern of a filter takes up too much room. -/
  | patternTooLarge (text : String)
  /-- A filter's list of patterns, named by its role, is no array. -/
  | patternsNotArray (role : String)
  /-- A value does not have the form its place asks for, or the document's text is no JSON. -/
  | malformed

namespace ConfigError

/-- The reason in words; a malformed value and a pattern that is too large are reported by their
kind alone. -/
def reason? : ConfigError → Option String
  | documentNotObject => some "rules document must be a JSON object"
  | namespacesNotObject => some "'namespaces' must be an object"
  | parseNotObject name => some ("namespace '" ++ name ++ "': 'parse' must be an object")
  | unsupportedFilter value => some ("unsupported checker rules: " ++ value.text)
  | patternNotString value => some ("checker rule must be a string: " ++ value.text)
  | patternsNotArray role => some ("checker '" ++ role ++ "' must be an array")
  | patternTooLarge _ | malformed => none

/-- The message a refused document is answered with. -/
def message? (e : ConfigError) : Option String :=
  e.reason?.map ("Invalid configuration: " ++ ·)

end ConfigError

end Interop
