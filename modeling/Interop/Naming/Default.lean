import Interop.Naming.Literal
import Interop.Overlay.Workspace
import Interop.Text.Blank

namespace Interop.Naming

open Overlay

/-- Whether a type is a builtin type or the native string type, of which managed constants can
be. -/
def isSimpleType (type : NativeType) : Bool :=
  type.unqualified.isBuiltin || type.spelling == TypeMap.stringType

/-- Whether a value is replaced by the rules or is a literal. -/
def isPlainValue (settings : Settings) (value : String) : Bool :=
  let value := Text.trimString value
  settings.replacements.contains value || (managedLiteral? value).isSome

/-- Whether a variable is a managed constant, or will be one when its own value has been worked
out. -/
def isManagedConstant (settings : Settings) (n : Node) : Bool :=
  n.kind.isVariable && n.isConstant && n.type?.any isSimpleType &&
    (n.managedValue?.isSome || n.nativeValue?.any (isPlainValue settings))

/-- Whether managed code can name a node as a constant. -/
def isNameable (settings : Settings) (n : Node) : Bool :=
  n.kind == .enumerator || isManagedConstant settings n

/-- The managed text of a native expression that `user` uses as a default value. -/
def managedDefault? (settings : Settings) (w : Workspace) (user : NodeId) (expression : String) :
    Option String :=
  let native := Text.trimString expression
  settings.replacements.get? native <|> managedLiteral? native <|>
    if isQualifiedName native then
      match w.symbols.constant? w.forest settings.replacements user (Symbol.unrooted native) with
      | some (.replacement text) => some text
      | some (.node id) =>
        if isNameable settings (w.node id) then some (w.forest.managedPath id) else none
      | none => none
    else none

/-- The defaults that stay when each one needs defaults in all later places. -/
def trailing : List (Option String) → List (Option String)
  | [] => []
  | d :: rest => (if rest.all (·.isSome) then d else none) :: trailing rest

end Interop.Naming
