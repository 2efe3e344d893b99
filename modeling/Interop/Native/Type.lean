import Interop.Native.Builtin

namespace Interop

/-- The two kinds of reference. -/
inductive RefKind where
  | lvalue
  | rvalue
deriving DecidableEq, Repr, Inhabited

/-- A native type, as far as a declaration shows it. -/
inductive NativeType where
  | builtin (kind : Builtin)
  /-- A class or enum referred to by name. -/
  | named (name : String)
  /-- An alias referred to by name, with the type it stands for. -/
  | synonym (name : String) (target : NativeType)
  | qualified (inner : NativeType) (isConst isVolatile : Bool)
  | pointer (pointee : NativeType)
  | reference (referee : NativeType) (kind : RefKind)
  | array (element : NativeType) (size : Option String)
  | applied (template : String) (arguments : List NativeType)
  /-- A type whose structure is not modelled. -/
  | unexposed (spelling : String)
deriving Repr, Inhabited

namespace NativeType

mutual

/-- The native spelling of a type. -/
def spelling : NativeType → String
  | builtin kind => kind.spelling
  | named name => name
  | synonym name _ => name
  | qualified inner isConst isVolatile =>
    inner.spelling ++ (if isConst then " const" else "") ++ (if isVolatile then " volatile" else "")
  | pointer pointee => pointee.spelling ++ "*"
  | reference referee .lvalue => referee.spelling ++ "&"
  | reference referee .rvalue => referee.spelling ++ "&&"
  | array element size => element.spelling ++ "[" ++ size.getD "" ++ "]"
  | applied template arguments => template ++ "<" ++ ", ".intercalate (spellings arguments) ++ ">"
  | unexposed spelling => spelling

/-- The spellings of a list of types. -/
def spellings : List NativeType → List String
  | [] => []
  | type :: rest => type.spelling :: spellings rest

end

/-- Whether the type is a builtin type without qualifiers. -/
def isBuiltin : NativeType → Bool
  | builtin _ => true
  | _ => false

/-- Whether the type is plain `void`. -/
def isVoid : NativeType → Bool
  | builtin .void => true
  | _ => false

/-- The type that is left when qualifiers, indirections, arrays and aliases are taken off. -/
def base : NativeType → NativeType
  | qualified inner _ _ => inner.base
  | pointer pointee => pointee.base
  | reference referee _ => referee.base
  | array element _ => element.base
  | synonym _ target => target.base
  | type => type

/-- The type without its outer qualifiers. -/
def unqualified : NativeType → NativeType
  | qualified inner _ _ => inner.unqualified
  | type => type

/-- The name of a type without qualifiers, indirections and arrays; an alias keeps its own name. -/
def typeName : NativeType → String
  | qualified inner _ _ => inner.typeName
  | pointer pointee => pointee.typeName
  | reference referee _ => referee.typeName
  | array element _ => element.typeName
  | named name => name
  | synonym name _ => name
  | type => type.spelling

/-- The name of the first template argument, looking through qualifiers and indirections. -/
def argumentName? : NativeType → Option String
  | qualified inner _ _ => inner.argumentName?
  | applied _ arguments => arguments.head?.map typeName
  | pointer pointee => pointee.argumentName?
  | reference referee _ => referee.argumentName?
  | _ => none

/-- Whether the type is a builtin that crosses the bridge as it is, or qualifiers, indirections and
aliases around one. -/
def crossesDirectly : NativeType → Bool
  | builtin kind => kind.crossesDirectly
  | qualified inner _ _ => inner.crossesDirectly
  | pointer pointee => pointee.crossesDirectly
  | reference referee _ => referee.crossesDirectly
  | synonym _ target => target.crossesDirectly
  | _ => false

/-- Wraps a type in the given qualifiers, if there are any. -/
def qualify (isConst isVolatile : Bool) (type : NativeType) : NativeType :=
  if isConst || isVolatile then qualified type isConst isVolatile else type

end NativeType

end Interop
