import Interop.Export.Scopes

namespace Interop.Export.Containers

open Overlay

/-- Whether a class has a pure method of its own. -/
def isAbstract (d : Declaration) : Bool :=
  d.children.any fun c => c.kind == .memberFunction && c.flags.isPure

/-- Enters a namespace. Headers that reopen a namespace share its node, and an anonymous namespace
is not exported. -/
def enterNamespace (d : Declaration) : Pass Bool := do
  match ← Pass.top? with
  | none => Pass.enter none
  | some parent =>
    if d.name.isEmpty then Pass.enter none
    else
      let w ← getThe Workspace
      match (w.forest.children parent).find? (w.forest.isNamespace · d.name) with
      | some existing => Pass.enter existing
      | none =>
        let symbol ← Pass.symbolBelow parent d.name
        set (w.grow parent { kind := .nameSpace, name := d.name, symbol } [symbol])
        Pass.enter w.forest.nextId

/-- The node of a class or enum as its definition makes it. -/
def typeNode (d : Declaration) (symbol : String) (header? : Option Path) : Node :=
  let isAbstractClass := d.kind == .classType && isAbstract d
  { kind := d.kind, name := d.name, symbol, access := d.access, type? := d.type?, source? := header?
    flags := { d.flags with isPure := d.flags.isPure || isAbstractClass } }

/-- Enters a class or enum. Only public definitions that the rules select are exported, and a
repeated definition is entered in the owning header only. -/
def enterType (s : Surroundings) (d : Declaration) : Pass Bool := do
  match ← Pass.top? with
  | none => Pass.enter none
  | some parent =>
    let symbol ← Pass.symbolBelow parent d.name
    if d.name.isEmpty || d.access != .exposed || !d.flags.isDefinition ||
        !s.rules.symbols.selects symbol then
      Pass.enter none
    else
      let owned ← Pass.ownsDefinition s symbol
      let w ← getThe Workspace
      match (w.symbol? symbol).filter fun id => (w.node id).kind == d.kind with
      | some existing => Pass.enter (if owned then some existing else none)
      | none =>
        if owned then
          let n := typeNode d symbol (← getThe Scopes).header?
          set (w.grow parent n [symbol])
          Pass.enter w.forest.nextId
        else Pass.enter none

/-- Adds an enumerator to the enum around it. Enumerators of an enum that is not scoped are also
registered in the scope around the enum. -/
def addEnumerator (d : Declaration) : Pass Unit := do
  match ← Pass.top? with
  | none => return ()
  | some parent =>
    let w ← getThe Workspace
    let enumeration := w.node parent
    if enumeration.kind == .enumeration then
      let symbol ← Pass.symbolBelow parent d.name
      let outer ←
        match enumeration.parent? with
        | some around =>
          if enumeration.flags.isScoped then pure [] else pure [← Pass.symbolBelow around d.name]
        | none => pure []
      let n : Node :=
        { kind := .enumerator, name := d.name, symbol, nativeValue? := d.value?,
          isConstant := true }
      set (w.grow parent n (symbol :: outer))

/-- What the pass does at each step of a walk. -/
def visit (s : Surroundings) (event : WalkEvent) (d : Declaration) : Pass Bool := do
  match event with
  | .exit =>
    Pass.leave
    return true
  | .enter =>
    match d.kind with
    | .linkage => Pass.enter (← Pass.top?)
    | .nameSpace => enterNamespace d
    | .classType | .enumeration => enterType s d
    | _ => Pass.enter none
  | .leaf =>
    if d.kind == .enumerator then addEnumerator d
    return true

end Interop.Export.Containers
