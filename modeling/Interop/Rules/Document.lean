import Interop.Path
import Interop.Rules.Selection
import Interop.Rules.TypeMap
import Interop.Table

namespace Interop

/-- The options that all export namespaces share. -/
structure Settings where
  moduleName : String := ""
  /-- Further initializers, called when the bridge functions have been registered. -/
  initializers : List String := []
  /-- The managed texts that stand for native default values. -/
  replacements : Table String := {}
  /-- The managed texts that make a variable they are the value of constant. -/
  forced : List String := []
  sourceDirectory : Path := ⟨""⟩
  outputDirectory : Path := ⟨""⟩
deriving Repr

namespace Settings

/-- Whether a variable with the given managed value is made constant. -/
def isForced (s : Settings) (value : String) : Bool :=
  s.forced.contains value

end Settings

/-- A directory with headers, and the files in it that take part. -/
structure ParsePath where
  directory : Path
  files : Selection
deriving Repr

/-- The rules of one export namespace. -/
structure ExportRules where
  /-- The name of the namespace, which is also that of the managed module. -/
  name : String
  parsePaths : List ParsePath := []
  /-- The classes that managed classes may derive from. -/
  inheritable : Selection := {}
  /-- The symbols that may be exported. -/
  symbols : Selection := {}
  typeMaps : Table TypeMap := {}
deriving Repr

namespace ExportRules

/-- Adds a type map in place of an earlier one for the same native type. -/
def withTypeMap (r : ExportRules) (m : TypeMap) : ExportRules :=
  { r with typeMaps := r.typeMaps.insert m.native m }

/-- The rules of a namespace about which nothing is said. -/
def ofName (name : String) : ExportRules :=
  withTypeMap { name } .ofStrings

/-- Whether managed classes may derive from the class of the given symbol. -/
def isInheritable (r : ExportRules) (symbol : String) : Bool :=
  r.inheritable.selects symbol

end ExportRules

/-- A rules document that has been read. -/
structure Rules where
  settings : Settings
  namespaces : List ExportRules

namespace Rules

/-- A value that has to have a certain form. -/
private def formed {α : Type} (value? : Option α) : Except ConfigError α :=
  match value? with
  | some value => .ok value
  | none => .error .malformed

/-- A default value's replacement, and whether it makes variables constant. It is a text, or an
object that may say so. -/
def replacement? : Json → Option (String × Bool)
  | .string value => some (value, false)
  | .object members => do
    let value ← members.lookup "value" >>= Json.string?
    match members.lookup "const" with
    | none => some (value, false)
    | some isForced => isForced.bool?.map (value, ·)
  | _ => none

/-- The replacements that a section lists, each with its name. -/
def replacements? (section_ : Json) : Option (List (String × String × Bool)) := do
  (← section_.members?).mapM fun (name, value) => return (name, ← replacement? value)

/-- The settings of a document. -/
def settingsOf (root : Json) (source : Path) : Except ConfigError Settings := do
  let moduleName := ((root.member? "module").bind Json.string?).getD ""
  let initializers ←
    match (root.member? "initialization").bind (·.member? "mono-calls") with
    | none => pure []
    | some calls => formed (calls.items? >>= (·.mapM Json.string?))
  let replacements ←
    match root.member? "default-values" with
    | none => pure []
    | some section_ => formed (replacements? section_)
  return {
    moduleName
    initializers
    replacements := .ofList (replacements.map fun (name, value, _) => (name, value))
    forced := ((replacements.filter (·.2.2)).map (·.2.1)).eraseDups
    sourceDirectory := source }

/-- The selection that a section describes; without the section everything is selected. -/
private def selectionOf (section_ : Option Json) : Except ConfigError Selection :=
  match section_ with
  | none => .ok .all
  | some value => Selection.ofJson value

/-- The parse paths that a section lists, each directory with its selection. -/
private def parsePathsOf (name : String) (section_ : Option Json) (source : Path) :
    Except ConfigError (List ParsePath) :=
  match section_ with
  | none => .ok []
  | some (.object members) =>
    members.mapM fun (directory, files) => return ⟨source.join directory, ← Selection.ofJson files⟩
  | some _ => .error (.parseNotObject name)

/-- The rules of one namespace. Something other than an object says nothing, and the map of the
native string type cannot be replaced. -/
def namespaceOf (name : String) (spec : Json) (source : Path) : Except ConfigError ExportRules := do
  let inheritable ← selectionOf (spec.member? "inheritable")
  let parsePaths ← parsePathsOf name (spec.member? "parse") source
  let symbols ← selectionOf (spec.member? "symbols")
  let maps ←
    match spec.member? "typemaps" with
    | none => pure []
    | some section_ => formed (section_.items? >>= (·.mapM TypeMap.Declared.ofJson?))
  let rules := { ExportRules.ofName name with inheritable, parsePaths, symbols }
  let rules := (maps.map TypeMap.ofDeclared).foldl ExportRules.withTypeMap rules
  return rules.withTypeMap .ofStrings

/-- Reads a rules document. Its directories are looked up below the source directory. -/
def ofJson (document : Json) (source : Path) : Except ConfigError Rules := do
  let .object _ := document | .error .documentNotObject
  let settings ← settingsOf document source
  let namespaces ←
    match document.member? "namespaces" with
    | none => pure []
    | some (.object members) => members.mapM fun (name, spec) => namespaceOf name spec source
    | some _ => .error .namespacesNotObject
  return { settings, namespaces }

end Rules

end Interop
