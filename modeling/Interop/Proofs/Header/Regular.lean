import Interop.Proofs.Export.Nesting
import Interop.Proofs.Header.Units

namespace Interop

/-- Whether a kind may stand in a container of kind `around`, where an enum may hold enumerators
only. -/
def Kind.Listed (kind around : Kind) : Prop :=
  around = .enumeration → kind = .enumerator

namespace Declaration

/-- Whether all enums in a declaration hold enumerators only. -/
def Regular (d : Declaration) : Prop :=
  d.Nested Kind.Listed .file

variable {d d' : Declaration} {around outer : Kind}

mutual

/-- What is regular in some container is regular outside of enums. -/
theorem Nested.outside (houter : outer ≠ .enumeration) : (d : Declaration) → (around : Kind) →
    d.Nested Kind.Listed around → d.Nested Kind.Listed outer
  | ⟨kind, name, access, isTemplated, isFriended, flags, type?, returnType?, parameters,
      value?, line, children⟩, around => by
    rw [nested_eq, nested_eq]
    intro h
    split
    · rename_i hpassed
      rw [if_pos hpassed] at h
      exact NestedAll.outside houter children around h
    · rename_i hpassed
      rw [if_neg hpassed] at h
      exact ⟨fun henum => absurd henum houter, h.2⟩

/-- What is listed in one kind of scope is so in each but an enum. -/
theorem NestedAll.outside (houter : outer ≠ .enumeration) :
    (ds : List Declaration) → (around : Kind) → NestedAll Kind.Listed around ds →
      NestedAll Kind.Listed outer ds
  | [], _ => fun _ => trivial
  | d :: rest, around => fun h =>
    ⟨Nested.outside houter d around h.1, NestedAll.outside houter rest around h.2⟩

end

/-- A declaration that is no enum is regular if all that it holds is. -/
theorem regular_of_children (hkind : d.kind ≠ .enumeration) (h : ∀ c ∈ d.children, c.Regular) :
    d.Regular := by
  have hall : NestedAll Kind.Listed .file d.children := nestedAll_iff.mpr h
  unfold Regular
  rw [nested_eq]
  split
  · exact hall
  · exact ⟨nofun, NestedAll.outside hkind d.children .file hall⟩

/-- A declaration without children is regular. -/
theorem regular_of_bare (h : d.children = []) : d.Regular := by
  unfold Regular
  rw [nested_eq, h]
  split
  · trivial
  · exact ⟨nofun, trivial⟩

/-- An enum is regular if it has just enumerators in it. -/
theorem regular_enumeration (h : ∀ c ∈ d.children, c.kind = .enumerator ∧ c.children = []) :
    d.Regular := by
  have hall : ∀ around, NestedAll Kind.Listed around d.children := by
    intro around
    apply nestedAll_iff.mpr
    intro c hc
    obtain ⟨hkind, hchildren⟩ := h c hc
    rw [nested_eq, hchildren]
    split
    · trivial
    · exact ⟨fun _ => hkind, trivial⟩
  unfold Regular
  rw [nested_eq]
  split
  · exact hall .file
  · exact ⟨nofun, hall d.kind⟩

/-- What is well-formed is regular. -/
theorem Form.regular {inClass : Option String} (h : d.Form inClass) : d.Regular := by
  induction h with
  | bare _ hbare => exact regular_of_bare hbare
  | enumeration _ h => exact regular_enumeration fun c hc => ⟨(h c hc).1, (h c hc).2.1⟩
  | nameSpace hkind _ _ _ ih => exact regular_of_children (by rw [hkind]; exact nofun) ih
  | group hkind _ _ ih =>
    exact regular_of_children (by rcases hkind with hkind | hkind <;> rw [hkind] <;> exact nofun) ih
  | wrapper hkind _ ih =>
    exact regular_of_children
      (by rcases hkind with hkind | hkind | hkind <;> rw [hkind] <;> exact nofun) ih
  | classType hkind _ _ _ ih =>
    exact regular_of_children (by rcases hkind with hkind | hkind <;> rw [hkind] <;> exact nofun) ih

end Declaration

/-- What the front end reads is regular. -/
theorem Header.FrontEnd.builtin_regular {config : Configuration} {path : Path} {content : Content}
    {unit : HeaderUnit} (h : (FrontEnd.builtin config path content).result = .ok unit) :
    unit.root.Regular :=
  (FrontEnd.builtin_formed h).2.regular

end Interop
