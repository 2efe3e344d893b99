import Interop.Proofs.Marshal.ManagedType
import Interop.Proofs.Naming.Constants

namespace Interop.Naming

open Overlay Emit

/-- The forms of native literals. -/
inductive LiteralForm where
  | truth
  | null
  | text
  | character
  | number
deriving DecidableEq, Repr

/-- The form of a literal, if a text is one. -/
def literalForm? (text : String) : Option LiteralForm :=
  if text = "true" ∨ text = "false" then some .truth
  else if text = "nullptr" ∨ text = "NULL" then some .null
  else if isQuoted '"' 2 text then some .text
  else if isQuoted '\'' 3 text then some .character
  else (managedNumber? text).map fun _ => .number

/-- The managed types of numbers. -/
def numberTypes : List String :=
  ["sbyte", "byte", "short", "ushort", "int", "uint", "long", "ulong", "float", "double"]

namespace LiteralForm

/-- The managed spelling of a literal of a form. -/
def spelled? (text : String) : LiteralForm → Option String
  | null => some "null"
  | number => managedNumber? text
  | _ => some text

/-- Whether a parameter of a type, which is described by `info`, may have a literal of a form for
its default. -/
def Fits (m : Mapper) (type : NativeType) (info : Marshalling) : LiteralForm → Prop
  | null => (∃ path, m.managedType? type = some (.object path)) ∨ info.managed = "string"
  | text => info.managed = "string"
  | number => info.managed ∈ numberTypes ∨ ∃ map, m.managedType? type = some (.mapped map)
  | _ => True

/-- The types that have no literal of a form in managed code. -/
def Misfit : LiteralForm → ManagedType → Prop
  | null, .scalar _ | null, .address => True
  | null, .mapped map => map.managed ≠ "string"
  | null, .enumeration path => path ≠ "string"
  | text, .scalar _ | text, .address => True
  | text, .mapped map => map.managed ≠ "string"
  | text, .enumeration path | text, .object path => path ≠ "string"
  | number, .scalar kind => kind ∈ [.void, .bool, .wideChar, .char16, .nullptr]
  | number, .address => True
  | number, .enumeration path | number, .object path => path ∉ numberTypes
  | _, _ => False

variable {m : Mapper} {type : NativeType} {info : Marshalling} {t : ManagedType}
    {form : LiteralForm}

/-- No builtin is a string in managed code. -/
theorem managed_ne_string (kind : Builtin) : kind.managed ≠ "string" := by
  cases kind <;> decide

/-- All builtins but these five are numbers in managed code. -/
theorem managed_mem_numberTypes (kind : Builtin) :
    kind.managed ∈ numberTypes ↔ kind ∉ [.void, .bool, .wideChar, .char16, .nullptr] := by
  cases kind <;> decide

/-- A literal fits exactly if there is no misfit of its form and the managed type. -/
theorem fits_iff (ht : m.managedType? type = some t) (hinfo : info.managed = t.name) :
    form.Fits m type info ↔ ¬form.Misfit t := by
  cases form with
  | truth | character => simp [Fits, Misfit]
  | null =>
    cases t <;> simp [Fits, Misfit, ht, hinfo, ManagedType.name, managed_ne_string]
  | text =>
    cases t <;> simp [Fits, Misfit, hinfo, ManagedType.name, managed_ne_string]
  | number =>
    cases t with
    | scalar kind => simp [Fits, Misfit, ht, hinfo, ManagedType.name, managed_mem_numberTypes]
    | address => simp [Fits, Misfit, ht, hinfo, ManagedType.name, numberTypes]
    | _ => simp [Fits, Misfit, ht, hinfo, ManagedType.name]

end LiteralForm

/-- A literal is translated by its form. -/
theorem managedLiteral?_eq (text : String) :
    managedLiteral? text = (literalForm? text).bind (LiteralForm.spelled? text) := by
  rw [managedLiteral?, literalForm?]
  split
  · rfl
  · split
    · rfl
    · cases hquoted : isQuoted '"' 2 text with
      | true => rfl
      | false =>
        cases hcharacter : isQuoted '\'' 3 text with
        | true => rfl
        | false =>
          cases hnumber : managedNumber? text with
          | none => simp
          | some number => simp [hnumber, LiteralForm.spelled?]

/-- Whatever has the form of a literal can be written in managed code. -/
theorem exists_spelled {text : String} {form : LiteralForm} (h : literalForm? text = some form) :
    ∃ value, form.spelled? text = some value ∧ managedLiteral? text = some value := by
  have hspelled : ∃ value, form.spelled? text = some value := by
    rw [literalForm?] at h
    split at h
    · cases h
      exact ⟨_, rfl⟩
    · split at h
      · cases h
        exact ⟨_, rfl⟩
      · split at h
        · cases h
          exact ⟨_, rfl⟩
        · split at h
          · cases h
            exact ⟨_, rfl⟩
          · obtain ⟨number, hnumber, rfl⟩ := Option.map_eq_some_iff.mp h
            exact ⟨number, hnumber⟩
  obtain ⟨value, hvalue⟩ := hspelled
  exact ⟨value, hvalue, by rw [managedLiteral?_eq, h, Option.bind_some, hvalue]⟩

section Parameters

variable {settings : Settings} {w : Workspace} {root id : NodeId} {native text : String}
    {p : NodeParameter}

/-- A trailing default is the default of its parameter. -/
theorem exists_default {f : NodeParameter → Option String} {parameters : List NodeParameter}
    (hp : p ∈ parameters.zipWith (fun p d => { p with managedDefault? := d })
      (trailing (parameters.map f)))
    (htext : p.managedDefault? = some text) :
    ∃ q ∈ parameters, f q = some text ∧ p = { q with managedDefault? := some text } := by
  induction parameters with
  | nil => cases hp
  | cons q rest ih =>
    rw [List.map_cons, trailing, List.zipWith_cons_cons, List.mem_cons] at hp
    rcases hp with rfl | hp
    · have hq : f q = some text := by
        split at htext
        · exact htext
        · cases htext
      exact ⟨q, List.mem_cons_self, hq, congrArg (fun d => { q with managedDefault? := d }) htext⟩
    · obtain ⟨r, hr, hrest⟩ := ih hp
      exact ⟨r, List.mem_cons_of_mem q hr, hrest⟩

/-- The default that naming gives to a parameter is the managed text of what the header writes, as
it was found on the way. -/
theorem default_nameAll (hf : w.forest.WellFormed) (hwithin : w.forest.Within root id)
    (hcallable : isCallable (w.node id) = true)
    (hp : p ∈ ((nameAll settings w root).node id).parameters)
    (hnative : p.nativeDefault? = some native) (htext : p.managedDefault? = some text) :
    ∃ current, managedDefault? settings current id native = some text := by
  have hkind : (w.node id).kind ≠ .unexposed := by
    rintro hkind
    rw [isCallable, hkind] at hcallable
    cases hcallable
  have hmem := mem_order hf hwithin hkind
  obtain ⟨before, after, hsplit⟩ := List.append_of_mem hmem
  have hnodup : (before ++ id :: after).Nodup := hsplit ▸ Forest.preorder_nodup hf
  have hcore := @core_entries settings id ({}, w) before after hnodup
  rw [nameAll_eq, named_eq (s := ({}, w)) hf, hsplit] at hp
  have hparameters := congrArg Node.parameters hcore
  rw [valued_function (n := core (w.node id)) hcallable] at hparameters
  obtain ⟨q, -, hq, rfl⟩ := exists_default (hparameters ▸ hp) htext
  refine ⟨(entries settings before ({}, w)).2, ?_⟩
  rw [show q.nativeDefault? = some native from hnative, Option.bind_some] at hq
  exact hq

/-- A literal becomes the default of a parameter of whatever type, in its managed spelling. So it
fits the managed type if and only if it is no literal of a form that the type has none of. -/
theorem literal_default_fits_iff (hf : w.forest.WellFormed) (hwithin : w.forest.Within root id)
    (hcallable : isCallable (w.node id) = true)
    (hp : p ∈ ((nameAll settings w root).node id).parameters)
    (hnative : p.nativeDefault? = some native)
    (hplain : settings.replacements.get? (Text.trimString native) = none) {form : LiteralForm}
    (hform : literalForm? (Text.trimString native) = some form)
    (htext : p.managedDefault? = some text) {m : Mapper} {type : NativeType} {info : Marshalling}
    (hinfo : m.resolve? type = some info) :
    form.spelled? (Text.trimString native) = some text ∧
      ∃ t, m.managedType? type = some t ∧ t.name = info.managed ∧
          (form.Fits m type info ↔ ¬form.Misfit t) := by
  obtain ⟨current, hdefault⟩ := default_nameAll hf hwithin hcallable hp hnative htext
  constructor
  · obtain ⟨value, hspelled, hvalue⟩ := exists_spelled hform
    simp only [managedDefault?, hplain, hvalue, Option.orElse_eq_orElse, Option.orElse_eq_or,
      Option.none_or, Option.some_or] at hdefault
    exact hspelled.trans hdefault
  · have hmanaged := m.managed_resolve? type
    rw [hinfo, Option.map_some] at hmanaged
    obtain ⟨t, ht, hname⟩ := Option.map_eq_some_iff.mp hmanaged.symm
    exact ⟨t, ht, hname, LiteralForm.fits_iff ht hname.symm⟩

/-- The tree of a function `f` with a pointer to a number as its parameter, which is null by
default. -/
def addressed : Surroundings × Workspace :=
  let f : Declaration :=
    { kind := .freeFunction, name := "f", line := 1, returnType? := some (.builtin .void)
      parameters := [{ name := "p", type := .pointer (.builtin .int),
                       default? := some "nullptr" }] }
  let g := Generator.ofDirectories ⟨""⟩ ⟨"/o"⟩
  let s : Surroundings :=
    { settings := g.settings, rules := { name := "M" }, root := (g.restart []).1 }
  let p : Passes := ⟨[.containers, .members], [.globals]⟩
  (s, (p.apply s [HeaderUnit.ofDeclarations ⟨"A.h"⟩ [f]] (g.restart []).2).1)

/-- The default of a pointer to a builtin becomes a null that its managed type does not take. -/
theorem literal_default_fits_iff_address :
    let s := addressed.1
    let w := addressed.2
    let m := s.mapper w "Globals"
    let type : NativeType := .pointer (.builtin .int)
    ∃ p ∈ ((nameAll {} w s.root).node ⟨1⟩).parameters, p.type? = some type ∧
      p.managedDefault? = some "null" ∧ ∃ info, m.resolve? type = some info ∧
          info.managed = "IntPtr" ∧ ¬LiteralForm.null.Fits m type info := by
  intro s w m type
  have hbare : BareTree s ((Generator.ofDirectories ⟨""⟩ ⟨"/o"⟩).restart []).2 :=
    Generator.restart_bareTree (Generator.Reached.ofDirectories ⟨""⟩ ⟨"/o"⟩).wellFormed rfl
  have hf : w.forest.WellFormed := (Passes.apply_rooted hbare.rooted _).wellFormed
  have hparent : w.forest.parent? ⟨1⟩ = some ⟨2⟩ := by decide +kernel
  have htop : w.forest.parent? ⟨2⟩ = some s.root := by decide +kernel
  obtain ⟨p, hparameters, hnative, htext, htype⟩ :
      ∃ p, ((nameAll {} w s.root).node ⟨1⟩).parameters = [p] ∧
      p.nativeDefault? = some "nullptr" ∧ p.managedDefault? = some "null" ∧ p.type? = some type :=
        ⟨_, rfl, rfl, rfl, rfl⟩
  have hp : p ∈ ((nameAll {} w s.root).node ⟨1⟩).parameters :=
    hparameters ▸ List.mem_singleton_self p
  obtain ⟨info, hinfo⟩ : ∃ info, m.resolve? type = some info := ⟨_, rfl⟩
  have hform : literalForm? (Text.trimString "nullptr") = some .null := by decide +kernel
  obtain ⟨-, t, ht, hname, hfits⟩ :=
    literal_default_fits_iff hf (.step hparent (.step htop .self)) (by decide +kernel) hp
    hnative (by decide +kernel) hform htext hinfo
  obtain rfl : ManagedType.address = t := Option.some.inj ht
  exact ⟨p, hp, htype, htext, info, hinfo, hname.symm, fun h => hfits.mp h trivial⟩

/-- The declaration of the function gives an address the default `null`. -/
theorem null_of_address :
    let w := nameAll {} addressed.2 addressed.1.root
    (managedParameters? (addressed.1.mapper w "Globals") (w.node ⟨1⟩).parameters).map
      (fun ps => ps.map fun p => (p.managed, p.name, p.default?)) = some [("IntPtr", "p",
          some "null")] := by
  decide +kernel

end Parameters

end Interop.Naming
