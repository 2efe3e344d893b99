namespace Interop

/-- A builtin type. -/
inductive Builtin where
  | void
  | bool
  | char
  | signedChar
  | unsignedChar
  | wideChar
  | char16
  | char32
  | short
  | unsignedShort
  | int
  | unsignedInt
  | long
  | unsignedLong
  | longLong
  | unsignedLongLong
  | float
  | double
  | longDouble
  | nullptr
deriving DecidableEq, Repr, Inhabited

namespace Builtin

/-- All builtin types. -/
def all : List Builtin :=
  [void, bool, char, signedChar, unsignedChar, wideChar, char16, char32, short, unsignedShort, int,
    unsignedInt, long, unsignedLong, longLong, unsignedLongLong, float, double, longDouble, nullptr]

/-- The name by which documents refer to a builtin type. -/
def tag : Builtin → String
  | void => "void"
  | bool => "bool"
  | char => "char"
  | signedChar => "s_char"
  | unsignedChar => "u_char"
  | wideChar => "w_char"
  | char16 => "char16"
  | char32 => "char32"
  | short => "short"
  | unsignedShort => "u_short"
  | int => "int"
  | unsignedInt => "u_int"
  | long => "long"
  | unsignedLong => "u_long"
  | longLong => "long_long"
  | unsignedLongLong => "u_long_long"
  | float => "float"
  | double => "double"
  | longDouble => "long_double"
  | nullptr => "nullptr"

/-- The builtin type a document's name refers to. -/
def ofTag? (name : String) : Option Builtin :=
  all.find? (·.tag == name)

/-- The native spelling. -/
def spelling : Builtin → String
  | void => "void"
  | bool => "bool"
  | char => "char"
  | signedChar => "signed char"
  | unsignedChar => "unsigned char"
  | wideChar => "wchar_t"
  | char16 => "char16_t"
  | char32 => "char32_t"
  | short => "short"
  | unsignedShort => "unsigned short"
  | int => "int"
  | unsignedInt => "unsigned int"
  | long => "long"
  | unsignedLong => "unsigned long"
  | longLong => "long long"
  | unsignedLongLong => "unsigned long long"
  | float => "float"
  | double => "double"
  | longDouble => "long double"
  | nullptr => "std::nullptr_t"

/-- The managed spelling. -/
def managed : Builtin → String
  | void => "void"
  | bool => "bool"
  | char | signedChar => "sbyte"
  | unsignedChar => "byte"
  | wideChar | char16 => "char"
  | char32 => "uint"
  | short => "short"
  | unsignedShort => "ushort"
  | int => "int"
  | unsignedInt => "uint"
  | long | longLong => "long"
  | unsignedLong | unsignedLongLong => "ulong"
  | float => "float"
  | double | longDouble => "double"
  | nullptr => "IntPtr"

/-- Whether the type has the same fixed-size representation in native and managed code. -/
def crossesDirectly : Builtin → Bool
  | wideChar | char16 | char32 | longDouble => false
  | _ => true

end Builtin

end Interop
