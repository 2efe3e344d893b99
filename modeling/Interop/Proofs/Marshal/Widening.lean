import Interop.Proofs.Marshal.Resolution
import Interop.Proofs.Overlay.TypeLookup

namespace Interop

open Overlay

namespace Symbol

variable {scope part p q r : String} {parts : List String}

/-- Whether a text stands between two double colons of a scope that is cut at its last one. -/
def IsPart (part : String) : Prop :=
  ¬[':', ':'] <:+: ':' :: part.toList

instance : Decidable (IsPart part) :=
  inferInstanceAs (Decidable ¬_)

/-- The scope inside of a scope that is reached over the given parts, from the outermost in. -/
def inward (scope : String) (parts : List String) : String :=
  parts.foldl qualify scope

/-- A scope around a scope around a third one is around that. -/
theorem Around.trans (h : Around p q) (h' : Around q r) : Around p r := by
  induction h with
  | itself => exact h'
  | global p =>
    -- Around the global scope is the global scope only, since it has nothing to cut.
    have hempty : r = "" := by
      simpa using mem_scopes_iff.mpr h'
    exact hempty ▸ .global p
  | outwards hcut _ ih => exact .outwards hcut (ih h')

/-- A scope is around those directly in it, if the name of these is one part. -/
theorem around_qualify (scope : String) (hpart : IsPart part) :
    Around (qualify scope part) scope := by
  rw [qualify]
  split
  · rename_i hscope
    rw [String.isEmpty_iff.mp hscope]
    exact .global part
  · exact .outwards ⟨rfl, hpart⟩ (.itself scope)

/-- A scope is around all that is reached from it over parts. -/
theorem around_inward (scope : String) (hparts : ∀ part ∈ parts, IsPart part) :
    Around (inward scope parts) scope := by
  induction parts generalizing scope with
  | nil => exact .itself scope
  | cons part rest ih =>
    have hrest := ih (qualify scope part) fun part hpart =>
      hparts part (List.mem_cons_of_mem _ hpart)
    exact hrest.trans (around_qualify scope (hparts part List.mem_cons_self))

end Symbol

namespace Overlay

variable {s : Symbols} {f f' : Forest} {symbol name : String} {id id' : NodeId}
    {types : List (String × NodeId)}

/-- Whether a node is a class or an enum that is there. -/
def Forest.IsType (f : Forest) (id : NodeId) : Prop :=
  ∃ n, f.node? id = some n ∧ (n.kind = .classType ∨ n.kind = .enumeration)

/-- Whether the classes and enums of a forest are classes and enums of another one as well. -/
def Forest.KeepsTypes (f f' : Forest) : Prop :=
  ∀ id, f.IsType id → f'.IsType id

namespace Symbols

/-- Registers several nodes, one after the other. -/
def insertAll (s : Symbols) (types : List (String × NodeId)) : Symbols :=
  types.foldl (fun s type => s.insert type.1 type.2) s

/-- A type that is found stays one when the forest keeps its types. -/
theorem HasTypeAt.grow (h : s.HasTypeAt f symbol id) (hkept : f.KeepsTypes f') :
    s.HasTypeAt f' symbol id :=
  ⟨h.1, hkept id h.2⟩

/-- Registering a class or an enum leaves each symbol that had one with one, maybe the new one. -/
theorem HasTypeAt.insert (h : s.HasTypeAt f symbol id) (htype : f.IsType id') (name : String) :
    ∃ id'', (s.insert name id').HasTypeAt f symbol id'' := by
  have hget : (s.insert name id').entries.get? symbol = if symbol = name then some id'
      else s.entries.get? symbol :=
    Table.get?_insert ..
  by_cases hname : symbol = name
  · exact ⟨id', by rw [hget, if_pos hname], htype⟩
  · exact ⟨id, by rw [hget, if_neg hname, h.1], h.2⟩

end Symbols

end Overlay

namespace Mapper

variable {m m' m'' : Mapper} {type : NativeType}

theorem Below.refl (m : Mapper) : m.Below m :=
  ⟨rfl, fun _ h => h⟩

/-- What one mapper knows and a second one does, a third one does as well. -/
theorem Below.trans (h : m.Below m') (h' : m'.Below m'') : m.Below m'' :=
  ⟨h.rules.trans h'.rules, fun name hname => h'.knows name (h.knows name hname)⟩

/-- A name is known that is the name of a class or an enum in some scope around. -/
theorem knows_iff {name : String} : m.knows name = true ↔
    ∃ p id, Symbol.Around m.scope p ∧
      m.symbols.HasTypeAt m.forest (Symbol.qualify p (Symbol.unrooted name)) id := by
  rw [knows, ← not_iff_not, Bool.not_eq_true, Option.isSome_eq_false_iff,
    Option.isNone_iff_eq_none, typeNamed?, Symbols.typeNamed?_eq_none_iff]
  push Not
  rfl

/-- A mapper knows no less in a forest with more types. -/
theorem below_grow {f : Forest} (h : m.forest.KeepsTypes f) : m.Below { m with forest := f } where
  rules := rfl
  knows name hname := by
    obtain ⟨p, id, hp, htype⟩ := knows_iff.mp hname
    exact knows_iff.mpr ⟨p, id, hp, htype.grow h⟩

/-- A mapper knows no less when a type is registered, even under a name that was taken. -/
theorem below_register {id : NodeId} (h : m.forest.IsType id) (symbol : String) :
    m.Below { m with symbols := m.symbols.insert symbol id } where
  rules := rfl
  knows name hname := by
    obtain ⟨p, id', hp, htype⟩ := knows_iff.mp hname
    obtain ⟨id'', htype'⟩ := htype.insert h symbol
    exact knows_iff.mpr ⟨p, id'', hp, htype'⟩

/-- A mapper knows no less inside of its scope. -/
theorem below_inScope {scope : String} (h : Symbol.Around scope m.scope) :
    m.Below (m.inScope scope) where
  rules := rfl
  knows name hname := by
    obtain ⟨p, id, hp, htype⟩ := knows_iff.mp hname
    exact knows_iff.mpr ⟨p, id, h.trans hp, htype⟩

/-- A mapper knows no less when several types are registered. -/
theorem below_registerAll {types : List (String × NodeId)}
    (h : ∀ type ∈ types, m.forest.IsType type.2) :
    m.Below { m with symbols := m.symbols.insertAll types } := by
  induction types generalizing m with
  | nil => exact .refl m
  | cons first rest ih =>
    have hfirst := below_register (h first List.mem_cons_self) first.1
    have hrest := @ih { m with symbols := m.symbols.insert first.1 first.2 } fun type htype =>
      h type (List.mem_cons_of_mem _ htype)
    exact hfirst.trans hrest

/-- A type that the gate lets through, or that resolves, still does after further classes and enums
are registered, under whatever names, and in a scope that is reached from the mapper's own over
further parts. -/
theorem crosses_widened (m : Mapper) (type : NativeType) {f : Forest}
    {types : List (String × NodeId)} {parts : List String} (hkept : m.forest.KeepsTypes f)
    (htypes : ∀ type ∈ types, f.IsType type.2) (hparts : ∀ part ∈ parts, Symbol.IsPart part) :
    let m' :=
      { m with
        symbols := m.symbols.insertAll types, forest := f
        scope := Symbol.inward m.scope parts }
    (m.accepts type = true → m'.accepts type = true) ∧
      ((m.resolve? type).isSome = true → (m'.resolve? type).isSome = true) := by
  intro m'
  have hgrown : m.Below { m with forest := f } := below_grow hkept
  have hregistered : Mapper.Below { m with forest := f }
      { m with forest := f, symbols := m.symbols.insertAll types } :=
    @below_registerAll { m with forest := f } types htypes
  have hentered : Mapper.Below { m with forest := f, symbols := m.symbols.insertAll types } m' :=
    @below_inScope { m with forest := f, symbols := m.symbols.insertAll types }
      _ (Symbol.around_inward m.scope hparts)
  have hbelow : m.Below m' := hgrown.trans (hregistered.trans hentered)
  exact ⟨hbelow.accepts, hbelow.resolve? type⟩

/-- An alias in a namespace `N` resolves through the class `C` that it stands for. With an enum of
its name it resolves as that, also in a class of `N`, and so does `C` itself when the enum is
registered in its place. -/
theorem crosses_widened_alias :
    let class_ : Node := { kind := .classType, name := "C", symbol := "C" }
    let enum : Node := { kind := .enumeration, name := "T", symbol := "N::T" }
    let m : Mapper :=
      { rules := { name := "N" }, symbols := ({} : Symbols).insert "C" ⟨0⟩,
        forest := Forest.empty.push class_
        scope := "N" }
    let f := m.forest.push enum
    let types : List (String × NodeId) := [("N::T", ⟨1⟩), ("C", ⟨1⟩)]
    let m' :=
      { m with
        symbols := m.symbols.insertAll types, forest := f
        scope := Symbol.inward m.scope ["S"] }
    m.forest.KeepsTypes f ∧ (∀ type ∈ types, f.IsType type.2) ∧
      (∀ part ∈ ["S"], Symbol.IsPart part) ∧ m.accepts (.pointer (.named "C")) = true ∧
        m'.accepts (.pointer (.named "C")) = true ∧
      (m.resolve? (.synonym "T" (.named "C"))).isSome = true ∧
        (m'.resolve? (.synonym "T" (.named "C"))).isSome = true ∧
      m.typeNamed? "T" = none ∧ m'.typeNamed? "T" = some ⟨1⟩ := by
  intro class_ enum m f types m'
  have hkept : m.forest.KeepsTypes f := by
    rintro ⟨i⟩ ⟨n, hn, hkind⟩
    refine ⟨n, ?_, hkind⟩
    cases i with
    | zero => exact hn
    | succ i => cases hn
  have htypes : ∀ type ∈ types, f.IsType type.2 := by
    intro type htype
    have hsecond : type.2 = ⟨1⟩ := by
      simp only [types, List.mem_cons, List.not_mem_nil, or_false] at htype
      rcases htype with rfl | rfl <;> rfl
    exact ⟨enum, hsecond ▸ rfl, .inr rfl⟩
  have hparts : ∀ part ∈ ["S"], Symbol.IsPart part := by
    intro part hpart
    rw [List.mem_singleton.mp hpart]
    decide
  have haccepts : m.accepts (.pointer (.named "C")) = true := by decide +kernel
  have hresolves : (m.resolve? (.synonym "T" (.named "C"))).isSome = true := by decide +kernel
  exact ⟨hkept, htypes, hparts, haccepts, (crosses_widened m _ hkept htypes hparts).1 haccepts,
    hresolves, (crosses_widened m _ hkept htypes hparts).2 hresolves, by decide +kernel,
      by decide +kernel⟩

end Mapper

end Interop
