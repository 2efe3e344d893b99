import Interop.Proofs.Marshal.Gate

namespace Interop

open Overlay

/-- What a type is to managed code. -/
inductive ManagedType where
  /-- What a type map says. -/
  | mapped (map : TypeMap)
  /-- The managed counterpart of a builtin type. -/
  | scalar (kind : Builtin)
  /-- A pointer that managed code does not look behind. -/
  | address
  /-- An exported enum. -/
  | enumeration (path : String)
  /-- An exported class. -/
  | object (path : String)

namespace ManagedType

/-- The name under which managed declarations use the type. -/
def name : ManagedType → String
  | mapped map => map.managed
  | scalar kind => kind.managed
  | address => "IntPtr"
  | enumeration path => path
  | .object path => path

end ManagedType

namespace Mapper

variable {m : Mapper} {type : NativeType}

/-- What an exported class or enum is to managed code. -/
def managedNode? (m : Mapper) (id : NodeId) (indirection : Indirection) : Option ManagedType :=
  (m.forest.node? id).bind fun n =>
    let path := ".".intercalate (m.forest.managedNamespace id m.rules.name ++ [n.name])
    match n.kind, indirection with
    | .classType, _ => some (.object path)
    | .enumeration, .pointer => some .address
    | .enumeration, _ => some (.enumeration path)
    | _, _ => none

/-- What the referee of a reference that has no type map is to managed code. -/
def managedReferee? (m : Mapper) (referee : NativeType) : Option ManagedType :=
  match referee.unqualified with
  | .builtin kind => some (((m.typeMap? (.builtin kind)).map .mapped).getD (.scalar kind))
  | inner =>
    match m.typeMap? referee, inner with
    | some map, _ => some (.mapped map)
    | none, .applied _ arguments => ((arguments.head?.map (·.typeName)).bind m.typeNamed?).bind
      (m.managedNode? · .pointer)
    | none, _ => (m.typeNamed? referee.typeName).bind (m.managedNode? · .value)

/-- What a type is to managed code, if it can cross. -/
def managedType? (m : Mapper) (type : NativeType) : Option ManagedType :=
  match m.typeMap? type with
  | some map => some (.mapped map)
  | none =>
    match type with
    | .builtin kind => some (.scalar kind)
    | .applied _ arguments => ((arguments.head?.map (·.typeName)).bind m.typeNamed?).bind
      (m.managedNode? · .pointer)
    | .qualified inner _ _ => m.managedType? inner
    | .synonym name target =>
      match m.typeNamed? name with
      | some id => m.managedNode? id .value
      | none => m.managedType? target
    | .named name => (m.typeNamed? name).bind (m.managedNode? · .value)
    | .pointer pointee =>
      if pointee.crossesDirectly then some .address
      else (m.typeNamed? pointee.typeName).bind (m.managedNode? · .pointer)
    | .reference referee _ => m.managedReferee? referee
    | _ => none

/-- A mapped type is to managed code what its map says. -/
theorem managedType?_mapped {map : TypeMap} (h : m.typeMap? type = some map) :
    m.managedType? type = some (.mapped map) := by
  unfold managedType?
  rw [h]

/-- How a node is described agrees with what it is to managed code. -/
theorem managed_ofNode? (m : Mapper) (id : NodeId) (indirection : Indirection) :
    (m.ofNode? id indirection).map (·.managed) = (m.managedNode? id indirection).map (·.name) := by
  rw [ofNode?, managedNode?]
  cases m.forest.node? id with
  | none => rfl
  | some n => cases hkind : n.kind <;> cases indirection <;> simp only [Option.bind_some,
    hkind] <;> rfl

/-- References do not matter to what a class or enum is. -/
theorem managedNode?_reference (m : Mapper) (id : NodeId) :
    m.managedNode? id .reference = m.managedNode? id .value := by
  rw [managedNode?, managedNode?]
  cases m.forest.node? id with
  | none => rfl
  | some n => cases hkind : n.kind <;> simp only [Option.bind_some, hkind]

/-- How a name is described agrees with what it is to managed code. -/
theorem managed_ofName? (m : Mapper) (name : String) (indirection : Indirection) :
    (m.ofName? name indirection).map
    (·.managed) = ((m.typeNamed? name).bind (m.managedNode? · indirection)).map (·.name) := by
  rw [ofName?]
  cases m.typeNamed? name with
  | none => rfl
  | some id => exact managed_ofNode? m id indirection

/-- How a template is described agrees with what it is to managed code, unless it has a map of its
own. -/
theorem managed_ofApplied? {template : String} {arguments : List NativeType}
    (h : m.typeMap? (.applied template arguments) = none) :
    (m.ofApplied? template arguments).map (·.managed) =
      (((arguments.head?.map (·.typeName)).bind m.typeNamed?).bind (m.managedNode? · .pointer)).map
          (·.name) := by
  rw [ofApplied?, h]
  cases (arguments.head?.map (·.typeName)).bind m.typeNamed? with
  | none => rfl
  | some id =>
    have hnode := managed_ofNode? m id .pointer
    rw [Option.bind_some, ← hnode]
    simp only [Option.bind_eq_bind, Option.bind_some]
    cases m.ofNode? id .pointer <;> rfl

/-- How a reference is described agrees with what it is to managed code. -/
theorem managed_ofReference? (m : Mapper) (referee : NativeType) (kind : RefKind) :
    (m.ofReference? referee kind).map (·.managed) = (m.managedReferee? referee).map (·.name) := by
  rw [ofReference?_eq, managedReferee?]
  have hreference : (m.ofName? referee.typeName .reference).map (·.managed) =
      ((m.typeNamed? referee.typeName).bind (m.managedNode? · .value)).map (·.name) := by
    simp only [managed_ofName?, managedNode?_reference]
  cases hinner : referee.unqualified with
  | builtin kind =>
    simp only [ofBuiltin]
    cases m.typeMap? (.builtin kind) <;> rfl
  | applied template arguments =>
    cases hmap : m.typeMap? referee with
    | some map => rfl
    | none =>
      exact managed_ofApplied?
        (typeMap?_applied hmap (by rw [← NativeType.base_unqualified, hinner]; rfl))
  | _ =>
    cases hmap : m.typeMap? referee with
    | some map => rfl
    | none =>
      cases kind with
      | lvalue => exact hreference
      | rvalue => exact managed_ofName? m _ .value

/-- For the managed name of a type only the case without a map is left to show. -/
theorem managed_of_unmapped
    (h : m.typeMap? type = none →
      (m.resolve? type).map (·.managed) = (m.managedType? type).map (·.name)) :
    (m.resolve? type).map (·.managed) = (m.managedType? type).map (·.name) := by
  cases hmap : m.typeMap? type with
  | some map =>
    rw [resolve?_mapped hmap, managedType?_mapped hmap]
    rfl
  | none => exact h hmap

/-- The managed type of a declaration is the name of what its type is to managed code. -/
theorem managed_resolve? (m : Mapper) :
    (type : NativeType) → (m.resolve? type).map (·.managed) = (m.managedType? type).map (·.name)
  | .builtin kind => managed_of_unmapped fun hmap => by
    rw [resolve?, ofBuiltin, managedType?, hmap]
    rfl
  | .applied template arguments => managed_of_unmapped fun hmap => by
    rw [resolve?_unmapped hmap, managedType?, hmap]
    exact managed_ofApplied? hmap
  | .qualified inner isConst isVolatile => managed_of_unmapped fun hmap => by
    rw [resolve?_unmapped hmap, managedType?, hmap]
    exact managed_resolve? m inner
  | .synonym name target => managed_of_unmapped fun hmap => by
    rw [resolve?_unmapped hmap, managedType?, hmap]
    cases hname : m.typeNamed? name with
    | none => simpa only [hname] using managed_resolve? m target
    | some id => simpa only [hname] using managed_ofNode? m id .value
  | .named name => managed_of_unmapped fun hmap => by
    rw [resolve?_unmapped hmap, managedType?, hmap]
    exact managed_ofName? m name .value
  | .pointer pointee => managed_of_unmapped fun hmap => by
    rw [resolve?_unmapped hmap, managedType?, hmap]
    cases hdirect : pointee.crossesDirectly with
    | true => simp only [NativeType.crossesDirectly, hdirect, if_true]; rfl
    | false =>
      simp only [NativeType.crossesDirectly, hdirect, Bool.false_eq_true, if_false]
      exact managed_ofName? m _ .pointer
  | .reference referee kind => managed_of_unmapped fun hmap => by
    rw [resolve?_unmapped hmap, managedType?, hmap]
    exact managed_ofReference? m referee kind
  | .array element size => managed_of_unmapped fun hmap => by
    simp only [resolve?_unmapped hmap, managedType?, hmap, Option.map_none]
  | .unexposed spelling => managed_of_unmapped fun hmap => by
    simp only [resolve?_unmapped hmap, managedType?, hmap, Option.map_none]

end Mapper

end Interop
