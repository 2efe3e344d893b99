import Interop.Marshal.Mapper
import Interop.Proofs.Overlay.Shift

namespace Interop

open Overlay

/-- The same types in a shifted forest. -/
def Mapper.shift (m : Mapper) (k : Nat) : Mapper :=
  { m with symbols := m.symbols.shift k, forest := m.forest.shift k }

namespace Mapper

variable {m : Mapper} {k : Nat}

theorem typeMap?_shift (type : NativeType) : (m.shift k).typeMap? type = m.typeMap? type :=
  rfl

theorem typeNamed?_shift (name : String) :
    (m.shift k).typeNamed? name = (m.typeNamed? name).map (·.shift k) :=
  Symbols.typeNamed?_shift m.symbols m.forest k m.scope name

theorem knows_shift : (m.shift k).knows = m.knows := by
  funext name
  rw [knows, knows, typeNamed?_shift, Option.isSome_map]

/-- The gate does not depend on where nodes stand. -/
theorem accepts_shift (type : NativeType) : (m.shift k).accepts type = m.accepts type := by
  unfold accepts
  rw [typeMap?_shift, knows_shift]

variable (h : m.forest.WellFormed)
include h

/-- A node is described alike wherever it stands. -/
theorem ofNode?_shift (id : NodeId) (indirection : Indirection) :
    (m.shift k).ofNode? (id.shift k) indirection = m.ofNode? id indirection := by
  have hspace : (m.forest.shift k).managedNamespace (id.shift k) m.rules.name =
      m.forest.managedNamespace id m.rules.name := h.managedNamespace_shift k id m.rules.name
  unfold ofNode?
  rw [show (m.shift k).forest = m.forest.shift k from rfl, Forest.node?_shift, Option.bind_map]
  congr 1
  funext n
  simp only [Function.comp_apply, show (m.shift k).rules = m.rules from rfl, hspace]
  rfl

/-- A name is described alike wherever the nodes stand. -/
theorem ofName?_shift (name : String) (indirection : Indirection) :
    (m.shift k).ofName? name indirection = m.ofName? name indirection := by
  unfold ofName?
  rw [typeNamed?_shift, Option.bind_map]
  congr 1
  funext id
  exact ofNode?_shift h id indirection

theorem ofApplied?_shift (template : String) (arguments : List NativeType) :
    (m.shift k).ofApplied? template arguments = m.ofApplied? template arguments := by
  unfold ofApplied?
  rw [typeMap?_shift]
  cases m.typeMap? (.applied template arguments) with
  | some map => rfl
  | none =>
    cases arguments.head? with
    | none => rfl
    | some type =>
      simp only [Option.map_some, Option.bind_eq_bind, Option.bind_some, typeNamed?_shift]
      cases m.typeNamed? type.typeName with
      | none => rfl
      | some id =>
        simp only [Option.map_some, Option.bind_some, ofNode?_shift h,
          show (m.shift k).forest = m.forest.shift k from rfl, Forest.node?_shift]
        cases m.forest.node? id with
        | none => rfl
        | some n => rfl

/-- A reference is described alike wherever the nodes stand. -/
theorem ofReference?_shift (referee : NativeType) (kind : RefKind) :
    (m.shift k).ofReference? referee kind = m.ofReference? referee kind := by
  unfold ofReference?
  simp only [typeMap?_shift, ofApplied?_shift h, ofName?_shift h]
  rfl

/-- How a type crosses does not depend on where the forest begins. -/
theorem resolve?_shift : (type : NativeType) → (m.shift k).resolve? type = m.resolve? type
  | .builtin kind => rfl
  | .applied template arguments => ofApplied?_shift h template arguments
  | .qualified inner isConst isVolatile => by
    simp only [resolve?, typeMap?_shift]
    rw [resolve?_shift inner]
  | .synonym name target => by
    simp only [resolve?, typeMap?_shift, typeNamed?_shift]
    cases m.typeMap? (.synonym name target) with
    | some map => rfl
    | none =>
      cases m.typeNamed? name with
      | some id => exact ofNode?_shift h id .value
      | none => exact resolve?_shift target
  | .named name => by
    simp only [resolve?, typeMap?_shift, ofName?_shift h]
  | .pointer pointee => by
    simp only [resolve?, typeMap?_shift, ofName?_shift h]
  | .reference referee kind => by
    simp only [resolve?, typeMap?_shift, ofReference?_shift h]
  | .array element size => rfl
  | .unexposed spelling => rfl

theorem isExportable_shift : (m.shift k).isExportable = m.isExportable := by
  funext type
  unfold isExportable
  rw [accepts_shift, resolve?_shift h]

end Mapper

end Interop
