import Interop.Emit.Printer

namespace Interop.Emit

/-- A parameter of a managed function and of the bridge declaration behind it. -/
structure ManagedParameter where
  /-- The type of the managed interface. -/
  managed : String
  /-- The type in the bridge declaration. -/
  marshal : String
  name : String
  default? : Option String := none
  attribute? : Option String := none
  /-- The expression that hands the parameter to the bridge. -/
  argument : String
deriving DecidableEq, Repr

namespace ManagedParameter

/-- A declaration with an attribute in front, if there is one. -/
def attributed (attribute? : Option String) (declaration : String) : String :=
  attribute?.elim declaration fun a => "[" ++ a ++ "] " ++ declaration

/-- The declaration in the managed function. -/
def declaration (p : ManagedParameter) : String :=
  p.managed ++ " " ++ p.name ++ p.default?.elim "" (" = " ++ ·)

/-- The declaration in the bridge declaration. -/
def bridgeDeclaration (p : ManagedParameter) : String :=
  attributed p.attribute? (p.marshal ++ " " ++ p.name)

/-- The declarations of several parameters. -/
def declarations (ps : List ManagedParameter) : String :=
  ", ".intercalate (ps.map declaration)

/-- The types of several parameters, which tell functions of one name apart. -/
def types (ps : List ManagedParameter) : String :=
  ", ".intercalate (ps.map managed)

end ManagedParameter

/-- The managed declaration of a bridge function. -/
structure BridgeDeclaration where
  attribute? : Option String := none
  result : String
  name : String
  parameters : List String
deriving DecidableEq, Repr

namespace BridgeDeclaration

/-- The parameter for the object a method is called on. -/
def instanceParameter : String := "IntPtr instance"

/-- The text of a declaration. -/
def text (d : BridgeDeclaration) : String :=
  d.attribute?.elim "" (fun a => "[return: " ++ a ++ "] ") ++ "internal static extern " ++
    d.result ++ " " ++ d.name ++ "(" ++ ", ".intercalate d.parameters ++ ");"

/-- Prints a declaration. -/
def print (d : BridgeDeclaration) (p : Printer) : Printer :=
  ((p.line "[MethodImpl(MethodImplOptions.InternalCall)]").line d.text).blank

end BridgeDeclaration

/-- A member of a managed class. -/
inductive ManagedMember where
  /-- A constructor, which stores the native object that the bridge function makes. -/
  | constructor (owner : String) (isDerived : Bool) (parameters : List ManagedParameter)
      (bridge : String)
  /-- A method with the statement that calls the bridge function. -/
  | method (modifier result name : String) (parameters : List ManagedParameter) (statement : String)
  | constant (type name value : String)
  /-- A property with the expressions that call its accessors. -/
  | property (isStatic : Bool) (type name getter : String) (setter? : Option String)
deriving DecidableEq, Repr

namespace ManagedMember

/-- The call of the base constructor that leaves the native object alone. -/
def baseCall (isDerived : Bool) : String :=
  if isDerived then " : base(IntPtr.Zero)" else ""

/-- Prints a member. -/
def print (m : ManagedMember) (p : Printer) : Printer :=
  match m with
  | .constructor owner isDerived parameters bridge =>
    let arguments := ", ".intercalate (parameters.map (·.argument))
    (p.block
      ("public " ++ owner ++ "(" ++ ManagedParameter.declarations parameters ++ ")" ++
        baseCall isDerived)
      (·.lines ["instance_ = " ++ bridge ++ "(" ++ arguments ++ ");",
        owner ++ ".cache_[instance_] = this;"])).blank
  | .method modifier result name parameters statement =>
    (p.block
      ("public " ++ modifier ++ result ++ " " ++ name ++ "(" ++
        ManagedParameter.declarations parameters ++ ")")
      (·.line statement)).blank
  | .constant type name value =>
    (p.line ("public const " ++ type ++ " " ++ name ++ " = " ++ value ++ ";")).blank
  | .property isStatic type name getter setter? =>
    (p.block ("public " ++ (if isStatic then "static " else "") ++ type ++ " " ++ name)
      (·.lines (("get \x7b return " ++ getter ++ "; \x7d") ::
        setter?.toList.map fun s => "set \x7b " ++ s ++ "; \x7d"))).blank

end ManagedMember

/-- What a managed class says about itself. -/
structure ManagedClass where
  name : String
  isStatic : Bool := false
  /-- The managed class it derives from. -/
  base? : Option String := none
  /-- The bridge function that destroys its objects. -/
  destructor : String := ""
deriving DecidableEq, Repr

namespace ManagedClass

/-- The row that opens the class. -/
def header (c : ManagedClass) : String :=
  if c.isStatic then "public static partial class " ++ c.name
  else "public partial class " ++ c.name ++ " : " ++ c.base?.elim "" (· ++ ", ") ++ "IDisposable"

/-- Prints the part of a class by which its objects hold and find native objects: the handle, the
cache of objects by handle, the constructor that takes a handle, the look-up and the release. -/
def printHandle (c : ManagedClass) (p : Printer) : Printer :=
  let isDerived := c.base?.isSome
  let hide := if isDerived then "new " else ""
  let map := "Dictionary<IntPtr, " ++ c.name ++ ">"
  let p := if isDerived then p else p.line "internal IntPtr instance_;"
  p.line ("internal static " ++ hide ++ map ++ " cache_ = new " ++ map ++ "();")
    |>.blank
    |>.block
      ("internal " ++ c.name ++ "(IntPtr instance)" ++ ManagedMember.baseCall isDerived)
      (fun p => (p.line "instance_ = instance;").block "if (instance != IntPtr.Zero)"
        (·.line "cache_[instance] = this;"))
    |>.blank
    |>.block ("internal static " ++ hide ++ c.name ++ " GetManagedInstance(IntPtr instance)")
      (fun p => p.block "if (instance == IntPtr.Zero)" (·.line "return null;")
        |>.line (c.name ++ " value;")
        |>.block "if (cache_.TryGetValue(instance, out value))" (·.line "return value;")
        |>.line ("return new " ++ c.name ++ "(instance);"))
    |>.blank
    |>.block ("public " ++ (if isDerived then "override" else "virtual") ++ " void Dispose()")
      (fun p => p.block "if (instance_ != IntPtr.Zero)"
        (·.lines ["cache_.Remove(instance_);", c.destructor ++ "(instance_);",
          "instance_ = IntPtr.Zero;"]))
    |>.blank

/-- Prints what a class begins with; a static class has no objects. -/
def printStart (c : ManagedClass) (p : Printer) : Printer :=
  if c.isStatic then p else c.printHandle p

/-- The bridge declarations a class begins with. -/
def bridges (c : ManagedClass) : List BridgeDeclaration :=
  if c.isStatic then []
  else [⟨none, "void", c.destructor, [BridgeDeclaration.instanceParameter]⟩]

end ManagedClass

/-- A managed enum. -/
structure ManagedEnum where
  name : String
  /-- The type its values are stored as. -/
  underlying? : Option String := none
  /-- The enumerators with their values. -/
  values : List (String × Option String)
deriving DecidableEq, Repr

namespace ManagedEnum

/-- Prints an enum. -/
def print (e : ManagedEnum) (p : Printer) : Printer :=
  (p.block ("public enum " ++ e.name ++ e.underlying?.elim "" (" : " ++ ·))
    (·.lines (e.values.map fun (name, value?) => name ++ value?.elim "" (" = " ++ ·) ++ ","))).blank

end ManagedEnum

/-- An item of a managed file. -/
inductive ManagedItem where
  | member (m : ManagedMember)
  | enumeration (e : ManagedEnum)
  | nameSpace (name : String) (items : List ManagedItem)
  /-- A class with what stands in it and the bridge declarations of its members. -/
  | classType (c : ManagedClass) (items : List ManagedItem) (bridges : List BridgeDeclaration)
deriving Repr

namespace ManagedItem

mutual

/-- Prints an item. -/
def print : ManagedItem → Printer → Printer
  | member m, p => m.print p
  | enumeration e, p => e.print p
  | nameSpace name items, p =>
    (p.block ("namespace " ++ name) fun p => printAll items p.blank).blank
  | classType c items bridges, p =>
    (p.block c.header fun p =>
      (c.bridges ++ bridges).foldl (fun p d => d.print p) (printAll items (c.printStart p))).blank

/-- Prints items one after the other. -/
def printAll : List ManagedItem → Printer → Printer
  | [], p => p
  | item :: rest, p => printAll rest (print item p)

end

end ManagedItem

/-- The content of a managed file. -/
structure ManagedFile where
  /-- The namespace that everything lies in. -/
  module : String
  items : List ManagedItem
deriving Repr

namespace ManagedFile

/-- The text of the file. -/
def text (m : ManagedFile) : String :=
  let p := Printer.empty
    |>.lines ["using System;", "using System.Collections.Generic;",
      "using System.Runtime.CompilerServices;"]
    |>.blank
    |>.block ("namespace " ++ m.module) (fun p => ManagedItem.printAll m.items p.blank)
  p.text

end ManagedFile

end Interop.Emit
