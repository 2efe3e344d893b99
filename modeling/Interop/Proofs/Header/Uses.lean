import Interop.Proofs.Header.Forms

namespace Interop

open Header

namespace NativeType

mutual

/-- The names that a type is written by, each with the type that it has been found to stand for, if
any. What an alias stands for is no part of what is written. -/
def uses : NativeType → List (String × Option NativeType)
  | builtin _ => []
  | named name => [(name, none)]
  | synonym name target => [(name, some target)]
  | qualified inner _ _ => inner.uses
  | pointer pointee => pointee.uses
  | reference referee _ => referee.uses
  | array element _ => element.uses
  | applied _ arguments => usesAll arguments
  | unexposed _ => []

/-- The names that several types are written by. -/
def usesAll : List NativeType → List (String × Option NativeType)
  | [] => []
  | type :: rest => type.uses ++ usesAll rest

end

/-- The uses of several types are those of each. -/
theorem mem_usesAll {use : String × Option NativeType} {types : List NativeType} :
    use ∈ usesAll types ↔ ∃ type ∈ types, use ∈ type.uses := by
  induction types with
  | nil => simp [usesAll]
  | cons type rest ih => simp [usesAll, ih]

theorem uses_qualify (isConst isVolatile : Bool) (type : NativeType) :
    (type.qualify isConst isVolatile).uses = type.uses := by
  unfold qualify
  split
  · rw [uses]
  · rfl

end NativeType

namespace Header.Memory

/-- The name of something declared in the current scopes, with the scopes in front. -/
def full (memory : Memory) (name : String) : String :=
  "::".intercalate (memory.scope.reverse ++ [name])

/-- The type that a name is found to stand for: what the name is recorded for as it is written, or
else what it is recorded for with the current scopes in front. -/
def target? (memory : Memory) (name : String) : Option NativeType :=
  (memory.aliases.lookup name).orElse fun _ => memory.aliases.lookup (memory.full name)

end Header.Memory

/-- Whether all names that a type is written by stand for what they are found to stand for. -/
def NativeType.ResolvedIn (memory : Memory) (type : NativeType) : Prop :=
  ∀ use ∈ type.uses, use.2 = memory.target? use.1

/-- Whether a type is resolved depends on its uses only. -/
theorem NativeType.ResolvedIn.of_uses {memory : Memory} {type type' : NativeType}
    (h : type.ResolvedIn memory) (huses : type'.uses = type.uses) : type'.ResolvedIn memory := by
  unfold ResolvedIn
  rwa [huses]

/-- What is not written by names is resolved. -/
theorem NativeType.ResolvedIn.of_nil {memory : Memory} {type : NativeType} (h : type.uses = []) :
    type.ResolvedIn memory := by
  unfold ResolvedIn
  rw [h]
  exact nofun

/-- Whether declarations of the kind declare an alias. -/
def Kind.isAlias : Kind → Bool
  | typeAlias | aliasTemplate => true
  | _ => false

namespace Declaration

/-- The types of a declaration. -/
def types (d : Declaration) : List NativeType :=
  d.type?.toList ++ d.returnType?.toList ++ d.parameters.map (·.type)

/-- Whether a declaration holds nothing, declares no alias and has resolved types. -/
structure Leaf (memory : Memory) (inClass : Option String) (d : Declaration) : Prop where
  bare : d.Bare inClass
  plain : d.kind.isAlias = false
  resolved : ∀ type ∈ d.types, type.ResolvedIn memory

/-- Whether several declarations are such. -/
def AllLeaves (memory : Memory) (inClass : Option String) (ds : List Declaration) : Prop :=
  ∀ d ∈ ds, d.Leaf memory inClass

variable {memory : Memory} {inClass : Option String} {d d' : Declaration} {ds : List Declaration}

theorem AllLeaves.nil : AllLeaves memory inClass [] :=
  nofun

theorem AllLeaves.cons (h : d.Leaf memory inClass) (hds : AllLeaves memory inClass ds) :
    AllLeaves memory inClass (d :: ds) :=
  List.forall_mem_cons.mpr ⟨h, hds⟩

theorem AllLeaves.reverse (h : AllLeaves memory inClass ds) : AllLeaves memory inClass ds.reverse :=
  fun d hd => h d (List.mem_reverse.mp hd)

theorem Leaf.one (h : d.Leaf memory inClass) : AllLeaves memory inClass [d] :=
  AllLeaves.nil.cons h

theorem AllLeaves.bare (h : AllLeaves memory inClass ds) : AllBare inClass ds :=
  fun d hd => (h d hd).bare

/-- Whether something is a leaf does not depend on its specifiers. -/
theorem Leaf.flagged (h : d.Leaf memory inClass) (flags : Flags) :
    ({ d with flags } : Declaration).Leaf memory inClass :=
  ⟨h.bare.change rfl rfl rfl, h.plain, h.resolved⟩

/-- A leaf may get a result type that is resolved. -/
theorem Leaf.returning (h : d.Leaf memory inClass) {result : NativeType}
    (hresult : result.ResolvedIn memory) :
    ({ d with returnType? := some result } : Declaration).Leaf memory inClass := by
  refine ⟨h.bare.change rfl rfl rfl, h.plain, fun type htype => ?_⟩
  simp only [types, Option.toList_some, List.mem_append, List.mem_singleton] at htype
  rcases htype with (htype | rfl) | htype
  · exact h.resolved type (List.mem_append_left _ (List.mem_append_left _ htype))
  · exact hresult
  · exact h.resolved type (List.mem_append_right _ htype)

/-- A leaf may get parameters whose types are resolved. -/
theorem Leaf.taking (h : d.Leaf memory inClass) {parameters : List Parameter}
    (hparameters : ∀ p ∈ parameters, p.type.ResolvedIn memory) :
    ({ d with parameters } : Declaration).Leaf memory inClass := by
  refine ⟨h.bare.change rfl rfl rfl, h.plain, fun type htype => ?_⟩
  rcases List.mem_append.mp htype with htype | htype
  · exact h.resolved type (List.mem_append_left _ htype)
  · obtain ⟨p, hp, rfl⟩ := List.mem_map.mp htype
    exact hparameters p hp

/-- Whether a declaration holds nothing, declares no alias and has no types. -/
structure Blank (inClass : Option String) (d : Declaration) : Prop where
  bare : d.Bare inClass
  plain : d.kind.isAlias = false
  types : d.types = []

theorem Blank.leaf (h : d.Blank inClass) : d.Leaf memory inClass :=
  ⟨h.bare, h.plain, by rw [h.types]; exact nofun⟩

end Declaration

end Interop
