import Interop.Header.Source
import Interop.Proofs.Header.PlainType

namespace Interop

namespace Header

/-- The words that no name may be: those of types, and those that begin or qualify declarations. -/
def reservedWords : List String :=
  typeWords ++ ["namespace", "template", "union", "using", "typedef", "static_assert", "friend",
    "extern", "operator", "static", "virtual", "inline", "__forceinline", "explicit", "constexpr",
      "mutable", "thread_local", "public",
    "protected", "private"]

/-- Whether a word is no reserved word and does not look like an export macro. -/
def isUnreserved (word : String) : Bool :=
  !reservedWords.contains word && !Parser.isExportMacro word

/-- The name of something that a header declares. -/
abbrev Identifier := Name isUnreserved

/-- A type that a header may write. -/
abbrev CoreType := PlainType isUnreserved

/-- A number, a string or a character. -/
structure Literal where
  kind : TokenKind
  text : String
  isLiteral : Lexeme.literal? kind text.toList = some text.toList.length

/-- What a variable, a parameter or an enumerator may be initialized with. -/
inductive Value where
  | literal (literal : Literal)
  | name (isRooted : Bool) (name : ScopedName fun _ => true)

namespace Value

def text : Value → String
  | .literal l => l.text
  | .name isRooted n => (if isRooted then "::" else "") ++ n.text

def tokens : Value → List Token
  | .literal l => [⟨l.kind, l.text, 1⟩]
  | .name isRooted n => (if isRooted then [.mark "::"] else []) ++ n.tokens

/-- An initializer with its equals sign. -/
def initializerText (value? : Option Value) : String :=
  value?.elim "" fun value => " = " ++ value.text

def initializerTokens (value? : Option Value) : List Token :=
  value?.elim [] fun value => .mark "=" :: value.tokens

end Value

/-- A parameter of a function. -/
structure CoreParameter where
  type : CoreType
  name? : Option Identifier := none
  default? : Option Value := none
  isProper : type.native.isVoid = false

namespace CoreParameter

def parameter (p : CoreParameter) : Parameter where
  name := p.name?.elim "" Name.text
  type := p.type.native
  default? := p.default?.map Value.text

def spelling (p : CoreParameter) : String :=
  p.type.native.spelling ++ p.name?.elim "" (fun name => " " ++ name.text) ++
    Value.initializerText p.default?

def tokens (p : CoreParameter) : List Token :=
  p.type.tokens ++ p.name?.elim [] (fun name => [.word name.text]) ++
    Value.initializerTokens p.default?

/-- A list of parameters with its parentheses. -/
def spellings (ps : List CoreParameter) : String :=
  "(" ++ ", ".intercalate (ps.map spelling) ++ ")"

def tokenList (ps : List CoreParameter) : List Token :=
  .mark "(" :: ([Token.mark ","].intercalate (ps.map tokens) ++ [.mark ")"])

end CoreParameter

/-- What is said about a function in front of it and behind its parameters. -/
structure FunctionMarks where
  isStatic : Bool := false
  isVirtual : Bool := false
  isConst : Bool := false
  isPure : Bool := false

namespace FunctionMarks

/-- A function that is pure is virtual. -/
def flags (m : FunctionMarks) : Flags where
  isStatic := m.isStatic
  isVirtual := m.isVirtual || m.isPure
  isPure := m.isPure
  isConst := m.isConst

def before (m : FunctionMarks) : String :=
  (if m.isStatic then "static " else "") ++ (if m.isVirtual then "virtual " else "")

def behind (m : FunctionMarks) : String :=
  (if m.isConst then " const" else "") ++ (if m.isPure then " = 0" else "") ++ ";"

def tokensBefore (m : FunctionMarks) : List Token :=
  (if m.isStatic then [.word "static"] else []) ++ (if m.isVirtual then [.word "virtual"] else [])

def tokensBehind (m : FunctionMarks) : List Token :=
  (if m.isConst then [.word "const"] else []) ++ (if m.isPure then [.mark "=", ⟨.number, "0", 1⟩]
    else []) ++ [.mark ";"]

end FunctionMarks

/-- An enumerator, whose value may be left out. -/
structure CoreEnumerator where
  name : Identifier
  value? : Option Value := none

namespace CoreEnumerator

def declaration (e : CoreEnumerator) : Declaration :=
  { kind := .enumerator, name := e.name.text, value? := e.value?.map Value.text, line := 1 }

def spelling (e : CoreEnumerator) : String :=
  e.name.text ++ Value.initializerText e.value?

def tokens (e : CoreEnumerator) : List Token :=
  .word e.name.text :: Value.initializerTokens e.value?

end CoreEnumerator

/-- A declaration that may stand in classes and outside of classes, and holds no further
declarations. -/
inductive SimpleDeclaration where
  | variable (isStatic : Bool) (type : CoreType) (name : Identifier) (value? : Option Value)
  | function (marks : FunctionMarks) (result : CoreType) (name : Identifier)
    (parameters : List CoreParameter)
  | enumeration (isScoped : Bool) (name : Identifier) (underlying? : Option Builtin)
    (enumerators : List CoreEnumerator)

namespace SimpleDeclaration

/-- The declaration that is meant, in the named class or outside of classes. -/
def declaration (inClass : Option String) (access : Access) : SimpleDeclaration → Declaration
  | .variable isStatic type name value? =>
    { kind := Parser.variableKind inClass, name := name.text, access, flags := { isStatic }
      type? := some type.native, value? := value?.map Value.text, line := 1 }
  | .function marks result name parameters =>
    { kind := Parser.functionKind inClass, name := name.text, access, flags := marks.flags
      returnType? := some result.native, parameters := parameters.map (·.parameter), line := 1 }
  | .enumeration isScoped name underlying? enumerators =>
    { kind := .enumeration, name := name.text, access, flags := { isScoped, isDefinition := true }
      type? := underlying?.map .builtin, line := 1, children := enumerators.map (·.declaration) }

def spelling : SimpleDeclaration → String
  | .variable isStatic type name value? =>
    (if isStatic then "static " else "") ++ type.native.spelling ++ " " ++ name.text ++
      Value.initializerText value? ++ ";"
  | .function marks result name parameters =>
    marks.before ++ result.native.spelling ++ " " ++ name.text ++
      CoreParameter.spellings parameters ++ marks.behind
  | .enumeration isScoped name underlying? enumerators =>
    "enum " ++ (if isScoped then "class " else "") ++ name.text ++
      underlying?.elim "" (fun kind => " : " ++ kind.spelling) ++ " \x7b" ++
      ", ".intercalate (enumerators.map (·.spelling)) ++ "\x7d;"

def tokens : SimpleDeclaration → List Token
  | .variable isStatic type name value? =>
    (if isStatic then [.word "static"] else []) ++ type.tokens ++ [.word name.text] ++
      Value.initializerTokens value? ++ [.mark ";"]
  | .function marks result name parameters =>
    marks.tokensBefore ++ result.tokens ++ [.word name.text] ++
      CoreParameter.tokenList parameters ++ marks.tokensBehind
  | .enumeration isScoped name underlying? enumerators =>
    .word "enum" :: (if isScoped then [.word "class"] else []) ++ [.word name.text] ++
      underlying?.elim [] (fun kind => .mark ":" :: builtinTokens kind) ++ [.mark "\x7b"] ++
      [Token.mark ","].intercalate (enumerators.map (·.tokens)) ++ [.mark "\x7d", .mark ";"]

end SimpleDeclaration

/-- A base class: a name or an instance of a template, perhaps with an access of its own. -/
structure CoreBase where
  access? : Option Access := none
  type : BaseType isUnreserved
  isProper : type.native.isBuiltin = false

namespace CoreBase

def declaration (defaultAccess : Access) (b : CoreBase) : Declaration :=
  { kind := .baseClass, name := b.type.native.spelling, access := b.access?.getD defaultAccess
    type? := some b.type.native, line := 1 }

def spelling (b : CoreBase) : String :=
  b.access?.elim "" (fun access => access.word ++ " ") ++ b.type.native.spelling

def tokens (b : CoreBase) : List Token :=
  b.access?.elim [] (fun access => [.word access.word]) ++ b.type.tokens

end CoreBase

/-- The keyword, the name and the bases of a class. -/
structure ClassHead where
  isStruct : Bool := false
  name : Identifier
  bases : List CoreBase := []

namespace ClassHead

def keyword (h : ClassHead) : String :=
  if h.isStruct then "struct" else "class"

/-- The access of bases and members that are given none. -/
def defaultAccess (h : ClassHead) : Access :=
  if h.isStruct then .exposed else .hidden

def declaration (h : ClassHead) (access : Access) (members : List Declaration) : Declaration :=
  { kind := .classType, name := h.name.text, access, flags := { isDefinition := true }, line := 1
    children := h.bases.map (·.declaration h.defaultAccess) ++ members }

def spelling (h : ClassHead) : String :=
  h.keyword ++ " " ++ h.name.text ++
    (if h.bases.isEmpty then "" else " : " ++ ", ".intercalate (h.bases.map (·.spelling))) ++
      " \x7b"

def tokens (h : ClassHead) : List Token :=
  [.word h.keyword, .word h.name.text] ++
    (if h.bases.isEmpty then [] else .mark ":" :: [Token.mark ","].intercalate
      (h.bases.map (·.tokens))) ++
    [.mark "\x7b"]

end ClassHead

/-- A declaration in a class. -/
inductive CoreMember where
  | simple (declaration : SimpleDeclaration)
  | label (access : Access)
  | constructor (marks : FunctionMarks) (parameters : List CoreParameter)
  | destructor (marks : FunctionMarks) (name : Identifier)
  | nested (head : ClassHead) (members : List CoreMember)

/-- A declaration outside of classes. -/
inductive CoreDeclaration where
  | simple (declaration : SimpleDeclaration)
  | record (head : ClassHead) (members : List CoreMember)
  | nameSpace (name : Identifier) (declarations : List CoreDeclaration)

namespace CoreMember

/-- The access that the members behind a member have. -/
def accessBehind (access : Access) : CoreMember → Access
  | .label access => access
  | _ => access

mutual

/-- The declaration that is meant, in a class of the given name and at a place of the given
access. -/
def declaration (inClass : String) (access : Access) : CoreMember → Declaration
  | .simple d => d.declaration (some inClass) access
  | .label access => { kind := .accessLabel, name := access.word, access, line := 1 }
  | .constructor marks parameters =>
    { kind := .constructor, name := inClass, access, flags := marks.flags
      parameters := parameters.map (·.parameter), line := 1 }
  | .destructor marks name =>
    { kind := .destructor, name := "~" ++ name.text, access, flags := marks.flags, line := 1 }
  | .nested head members =>
    head.declaration access (declarations head.name.text head.defaultAccess members)

/-- The members of a class; an access label counts for all members behind it. -/
def declarations (inClass : String) (access : Access) : List CoreMember → List Declaration
  | [] => []
  | m :: rest => declaration inClass access m :: declarations inClass (m.accessBehind access) rest

end

mutual

def spelling (inClass : String) : CoreMember → String
  | .simple d => d.spelling
  | .label access => access.word ++ ":"
  | .constructor marks parameters => marks.before ++ inClass ++
    CoreParameter.spellings parameters ++ marks.behind
  | .destructor marks name => marks.before ++ "~" ++ name.text ++ "()" ++ marks.behind
  | .nested head members => head.spelling ++ spellings head.name.text members ++ " \x7d;"

def spellings (inClass : String) : List CoreMember → String
  | [] => ""
  | m :: rest => " " ++ spelling inClass m ++ spellings inClass rest

end

mutual

def tokens (inClass : String) : CoreMember → List Token
  | .simple d => d.tokens
  | .label access => [.word access.word, .mark ":"]
  | .constructor marks parameters =>
    marks.tokensBefore ++ [.word inClass] ++ CoreParameter.tokenList parameters ++
      marks.tokensBehind
  | .destructor marks name =>
    marks.tokensBefore ++ [.mark "~", .word name.text, .mark "(", .mark ")"] ++ marks.tokensBehind
  | .nested head members => head.tokens ++ tokenList head.name.text members ++ [.mark "\x7d",
    .mark ";"]

def tokenList (inClass : String) : List CoreMember → List Token
  | [] => []
  | m :: rest => tokens inClass m ++ tokenList inClass rest

end

end CoreMember

namespace CoreDeclaration

mutual

/-- The declaration that is meant. -/
def declaration : CoreDeclaration → Declaration
  | .simple d => d.declaration none .exposed
  | .record head members =>
    head.declaration .exposed (CoreMember.declarations head.name.text head.defaultAccess members)
  | .nameSpace name ds =>
    { kind := .nameSpace, name := name.text, line := 1, children := declarations ds }

def declarations : List CoreDeclaration → List Declaration
  | [] => []
  | d :: rest => declaration d :: declarations rest

end

mutual

def spelling : CoreDeclaration → String
  | .simple d => d.spelling
  | .record head members => head.spelling ++ CoreMember.spellings head.name.text members ++ " \x7d;"
  | .nameSpace name ds => "namespace " ++ name.text ++ " \x7b" ++ spellings ds ++ " \x7d"

/-- Declarations, each with a blank in front. -/
def spellings : List CoreDeclaration → String
  | [] => ""
  | d :: rest => " " ++ spelling d ++ spellings rest

end

mutual

def tokens : CoreDeclaration → List Token
  | .simple d => d.tokens
  | .record head members => head.tokens ++ CoreMember.tokenList head.name.text members ++
    [.mark "\x7d", .mark ";"]
  | .nameSpace name ds => [.word "namespace", .word name.text, .mark "\x7b"] ++ tokenList ds ++
    [.mark "\x7d"]

def tokenList : List CoreDeclaration → List Token
  | [] => []
  | d :: rest => tokens d ++ tokenList rest

end

/-- The canonical spelling of a header. -/
def source (ds : List CoreDeclaration) : String :=
  " ".intercalate (ds.map spelling)

end CoreDeclaration

end Header

end Interop
