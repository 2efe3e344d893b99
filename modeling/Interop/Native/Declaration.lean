import Interop.Native.Type
import Interop.Path

namespace Interop

/-- The kinds of declarations. -/
inductive Kind where
  | file
  | macroDefinition
  | includeDirective
  | linkage
  | nameSpace
  | namespaceAlias
  | usingDirective
  | usingDeclaration
  | typeAlias
  | enumeration
  | enumerator
  | classType
  | accessLabel
  | baseClass
  | freeVariable
  | memberVariable
  | bitField
  | parameter
  | freeFunction
  | memberFunction
  | conversion
  | constructor
  | destructor
  | friend
  | templateTypeParameter
  | templateValueParameter
  | templateTemplateParameter
  | aliasTemplate
  | variableTemplate
  | functionTemplate
  | functionSpecialization
  | classTemplate
  | classSpecialization
  | staticAssert
  | unexposed
deriving DecidableEq, Repr, Inhabited

namespace Kind

/-- All kinds. -/
def all : List Kind :=
  [file, macroDefinition, includeDirective, linkage, nameSpace, namespaceAlias, usingDirective,
    usingDeclaration, typeAlias, enumeration, enumerator, classType, accessLabel, baseClass,
    freeVariable, memberVariable, bitField, parameter, freeFunction, memberFunction, conversion,
    constructor, destructor, friend, templateTypeParameter, templateValueParameter,
    templateTemplateParameter, aliasTemplate, variableTemplate, functionTemplate,
    functionSpecialization, classTemplate, classSpecialization, staticAssert, unexposed]

/-- The name by which documents refer to a kind. -/
def tag : Kind → String
  | file => "file"
  | macroDefinition => "macro_definition"
  | includeDirective => "include_directive"
  | linkage => "language_linkage"
  | nameSpace => "namespace"
  | namespaceAlias => "namespace_alias"
  | usingDirective => "using_directive"
  | usingDeclaration => "using_declaration"
  | typeAlias => "type_alias"
  | enumeration => "enum"
  | enumerator => "enum_value"
  | classType => "class"
  | accessLabel => "access_specifier"
  | baseClass => "base_class"
  | freeVariable => "variable"
  | memberVariable => "member_variable"
  | bitField => "bitfield"
  | parameter => "function_parameter"
  | freeFunction => "function"
  | memberFunction => "member_function"
  | conversion => "conversion_op"
  | constructor => "constructor"
  | destructor => "destructor"
  | friend => "friend"
  | templateTypeParameter => "template_type_parameter"
  | templateValueParameter => "non_type_template_parameter"
  | templateTemplateParameter => "template_template_parameter"
  | aliasTemplate => "alias_template"
  | variableTemplate => "variable_template"
  | functionTemplate => "function_template"
  | functionSpecialization => "function_template_specialization"
  | classTemplate => "class_template"
  | classSpecialization => "class_template_specialization"
  | staticAssert => "static_assert"
  | unexposed => "unexposed"

/-- The kind a document's name refers to. -/
def ofTag? (name : String) : Option Kind :=
  all.find? (·.tag == name)

/-- Whether declarations of the kind hold declarations that may be exported. -/
def isContainer : Kind → Bool
  | file | linkage | nameSpace | enumeration | classType | functionTemplate | classTemplate => true
  | _ => false

/-- Whether the kind is one of functions. -/
def isFunction : Kind → Bool
  | freeFunction | memberFunction | constructor | destructor | conversion => true
  | _ => false

/-- Whether the kind is one of variables. -/
def isVariable : Kind → Bool
  | freeVariable | memberVariable | bitField => true
  | _ => false

end Kind

/-- The access a declaration is given by its class. -/
inductive Access where
  | exposed
  | guarded
  | hidden
deriving DecidableEq, Repr, Inhabited

namespace Access

/-- The keyword of an access. -/
def word : Access → String
  | exposed => "public"
  | guarded => "protected"
  | hidden => "private"

/-- The access a keyword stands for. -/
def ofWord? : String → Option Access
  | "public" => some .exposed
  | "protected" => some .guarded
  | "private" => some .hidden
  | _ => none

end Access

/-- The specifiers of a declaration. -/
structure Flags where
  isStatic : Bool := false
  isVirtual : Bool := false
  /-- Marked `= 0`; on an exported class, that it has such a method. -/
  isPure : Bool := false
  /-- A `const` behind a method's parameters. -/
  isConst : Bool := false
  isConstexpr : Bool := false
  isExplicit : Bool := false
  isDeleted : Bool := false
  isDefaulted : Bool := false
  isInline : Bool := false
  /-- Has a body and is not only announced. -/
  isDefinition : Bool := false
  /-- An enum whose enumerators are not visible around it. -/
  isScoped : Bool := false
deriving DecidableEq, Repr, Inhabited

namespace Flags

/-- The specifiers that either of two sets holds. -/
def union (a b : Flags) : Flags where
  isStatic := a.isStatic || b.isStatic
  isVirtual := a.isVirtual || b.isVirtual
  isPure := a.isPure || b.isPure
  isConst := a.isConst || b.isConst
  isConstexpr := a.isConstexpr || b.isConstexpr
  isExplicit := a.isExplicit || b.isExplicit
  isDeleted := a.isDeleted || b.isDeleted
  isDefaulted := a.isDefaulted || b.isDefaulted
  isInline := a.isInline || b.isInline
  isDefinition := a.isDefinition || b.isDefinition
  isScoped := a.isScoped || b.isScoped

/-- The specifiers with their names, in their usual order. -/
def named (f : Flags) : List (String × Bool) :=
  [("static", f.isStatic), ("virtual", f.isVirtual), ("pure", f.isPure), ("const", f.isConst),
    ("constexpr", f.isConstexpr), ("explicit", f.isExplicit), ("deleted", f.isDeleted),
    ("defaulted", f.isDefaulted), ("inline", f.isInline), ("definition", f.isDefinition),
    ("scoped", f.isScoped)]

/-- The names of the specifiers that are set. -/
def names (f : Flags) : List String :=
  (f.named.filter (·.2)).map (·.1)

/-- The set of the named specifiers; other names are passed over. -/
def ofNames (names : List String) : Flags where
  isStatic := names.contains "static"
  isVirtual := names.contains "virtual"
  isPure := names.contains "pure"
  isConst := names.contains "const"
  isConstexpr := names.contains "constexpr"
  isExplicit := names.contains "explicit"
  isDeleted := names.contains "deleted"
  isDefaulted := names.contains "defaulted"
  isInline := names.contains "inline"
  isDefinition := names.contains "definition"
  isScoped := names.contains "scoped"

end Flags

/-- A parameter of a function. -/
structure Parameter where
  name : String
  type : NativeType
  /-- The default value as the header writes it. -/
  default? : Option String := none
deriving Repr, Inhabited

/-- A declaration with the declarations inside it. -/
structure Declaration where
  kind : Kind
  name : String
  access : Access := .exposed
  /-- The declaration is the one a template declaration wraps. -/
  isTemplated : Bool := false
  /-- The declaration is the one a friend declaration wraps. -/
  isFriended : Bool := false
  flags : Flags := {}
  /-- The type of a variable, alias or base class, or what an enum is stored as. -/
  type? : Option NativeType := none
  returnType? : Option NativeType := none
  parameters : List Parameter := []
  /-- The initializer of a variable or the value of an enumerator or macro. -/
  value? : Option String := none
  /-- The line the declaration begins in; zero when it is not known. -/
  line : Nat := 0
  children : List Declaration := []
deriving Repr

namespace Declaration

instance : Inhabited Declaration := ⟨{ kind := .unexposed, name := "" }⟩

/-- Whether the declaration stands for its children only, as what a template or friend wraps
does. -/
def isProxy (d : Declaration) : Bool :=
  d.isTemplated || d.isFriended

/-- The first child of the given name. -/
def child? (d : Declaration) (name : String) : Option Declaration :=
  d.children.find? (·.name == name)

end Declaration

/-- A header's path and its declarations, below a declaration of kind `file`. -/
structure HeaderUnit where
  path : Path
  root : Declaration
deriving Repr, Inhabited

namespace HeaderUnit

/-- The unit of a header's declarations. -/
def ofDeclarations (path : Path) (declarations : List Declaration) : HeaderUnit :=
  ⟨path, { kind := .file, name := path.text, children := declarations }⟩

end HeaderUnit

end Interop
