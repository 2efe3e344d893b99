import Interop.Proofs.Header.Uses

namespace Interop

open Header

/-- An alias that a header declares. -/
structure Alias where
  name : String
  target : NativeType
  /-- The namespaces and classes around the alias, of which the innermost comes first, unless the
  alias can no more be seen because a class around it has ended. -/
  scope? : Option (List String)

namespace Alias

variable {before inner : List Alias} {around scope : List String} {name : String} {a : Alias}

/-- The alias behind the end of a class around it. -/
def hidden (a : Alias) : Alias :=
  { a with scope? := none }

/-- The alias of a name that is declared last, among aliases of which the last comes first. -/
def last? (before : List Alias) (name : String) : Option Alias :=
  before.find? (·.name == name)

/-- The last alias of a name that is declared in exactly the given scopes. -/
def lastIn? (before : List Alias) (scope : List String) (name : String) : Option Alias :=
  before.find? fun a => a.scope? == some scope && a.name == name

/-- The alias that the scopes around a use give a name: the last one of the innermost scope that
declares the name. -/
def visible? (before : List Alias) (name : String) : List String → Option Alias
  | [] => lastIn? before [] name
  | inner :: outer => (lastIn? before (inner :: outer) name).or (visible? before name outer)

/-- Whether an alias is declared in a scope around a use, and its name in none that is nearer to the
use. -/
def Nearest (around : List String) (before : List Alias) (a : Alias) : Prop :=
  ∃ scope, a.scope? = some scope ∧ scope <:+ around ∧
    ∀ b ∈ before, b.name = a.name → ∀ scope', b.scope? = some scope' → scope' <:+ around →
      scope'.length ≤ scope.length

theorem name_of_last? (h : last? before name = some a) : a.name = name := by
  have hkey := List.find?_some h
  exact beq_iff_eq.mp hkey

/-- The last alias of a scope is one of those declared there. -/
theorem of_lastIn?_eq_some (h : lastIn? before scope name = some a) :
    a ∈ before ∧ a.name = name ∧ a.scope? = some scope := by
  have hkey := List.find?_some h
  rw [Bool.and_eq_true, beq_iff_eq, beq_iff_eq] at hkey
  exact ⟨List.mem_of_find?_eq_some h, hkey.2, hkey.1⟩

theorem scope_ne_of_lastIn?_eq_none (h : lastIn? before scope name = none) {b : Alias}
    (hb : b ∈ before) (hname : b.name = name) : b.scope? ≠ some scope := by
  intro hscope
  have hkey := List.find?_eq_none.mp h b hb
  simp [hname, hscope] at hkey

/-- What is visible is declared in the nearest scope that declares its name. -/
theorem nearest_of_visible? (h : visible? before name around = some a) :
    a.name = name ∧ a.Nearest around before := by
  induction around with
  | nil =>
    obtain ⟨-, hname, hscope⟩ := of_lastIn?_eq_some h
    exact ⟨hname, [], hscope, List.suffix_rfl, fun b _ _ scope' _ hsuffix => hsuffix.length_le⟩
  | cons innermost outer ih =>
    rw [visible?, Option.or_eq_some_iff] at h
    rcases h with h | ⟨hnone, h⟩
    · obtain ⟨-, hname, hscope⟩ := of_lastIn?_eq_some h
      exact ⟨hname, _, hscope, List.suffix_rfl, fun b _ _ scope' _ hsuffix => hsuffix.length_le⟩
    · obtain ⟨hname, scope, hscope, hsuffix, hnearest⟩ := ih h
      refine ⟨hname, scope, hscope, hsuffix.trans (List.suffix_cons _ _),
        fun b hb hb' scope' hscope' hsuffix' => ?_⟩
      rcases List.suffix_cons_iff.mp hsuffix' with rfl | hsuffix'
      · exact absurd hscope' (scope_ne_of_lastIn?_eq_none hnone hb (hb'.trans hname))
      · exact hnearest b hb hb' scope' hscope' hsuffix'

/-- The last alias of a name is visible where it is declared in the nearest scope that declares the
name. -/
theorem visible?_of_nearest (h : last? before name = some a) (hnearest : a.Nearest around before) :
    visible? before name around = some a := by
  have hname := name_of_last? h
  obtain ⟨scope, hscope, hsuffix, hnearest⟩ := hnearest
  have hlast : lastIn? before scope name = some a := by
    obtain ⟨-, later, earlier, rfl, hlater⟩ := List.find?_eq_some_iff_append.mp h
    refine List.find?_eq_some_iff_append.mpr ⟨by simp [hname, hscope], later, earlier, rfl,
      fun b hb => ?_⟩
    have hb := hlater b hb
    grind
  induction around with
  | nil =>
    rw [List.suffix_nil.mp hsuffix] at hlast
    exact hlast
  | cons innermost outer ih =>
    rw [visible?, Option.or_eq_some_iff]
    rcases List.suffix_cons_iff.mp hsuffix with rfl | hsuffix
    · exact .inl hlast
    · refine .inr ⟨?_, ih hsuffix fun b hb hb' scope' hscope' hsuffix' =>
        hnearest b hb hb' scope' hscope' (hsuffix'.trans (List.suffix_cons _ _))⟩
      cases hfound : lastIn? before (innermost :: outer) name with
      | none => rfl
      | some b =>
        obtain ⟨hb, hb', hscope'⟩ := of_lastIn?_eq_some hfound
        have hlength := hnearest b hb (hb'.trans hname.symm) _ hscope' List.suffix_rfl
        have hshort := hsuffix.length_le
        rw [List.length_cons] at hlength
        omega

/-- Where a name has no alias at all no scope gives it one. -/
theorem visible?_eq_none (h : last? before name = none) : visible? before name around = none := by
  cases hvisible : visible? before name around with
  | none => rfl
  | some a =>
    exfalso
    induction around with
    | nil =>
      obtain ⟨ha, hname, -⟩ := of_lastIn?_eq_some hvisible
      exact List.find?_eq_none.mp h a ha (beq_iff_eq.mpr hname)
    | cons innermost outer ih =>
      rw [visible?, Option.or_eq_some_iff] at hvisible
      rcases hvisible with hvisible | ⟨-, hvisible⟩
      · obtain ⟨ha, hname, -⟩ := of_lastIn?_eq_some hvisible
        exact List.find?_eq_none.mp h a ha (beq_iff_eq.mpr hname)
      · exact ih hvisible

/-- The alias of a name that is declared last is the visible one if and only if it is declared in
the nearest scope that declares the name, or the name has no alias at all. -/
theorem visible?_eq_last?_iff :
    visible? before name around = last? before name ↔
      ∀ a ∈ last? before name, a.Nearest around before := by
  cases hlast : last? before name with
  | none => simp [visible?_eq_none hlast]
  | some a =>
    constructor
    · rintro hvisible _ ⟨⟩
      exact (nearest_of_visible? hvisible).2
    · exact fun h => visible?_of_nearest hlast (h a rfl)

/-- What a name stands for last does not depend on what can still be seen. -/
theorem last?_hidden (inner before : List Alias) (name : String) :
    (last? (inner.map hidden ++ before) name).map target =
      (last? (inner ++ before) name).map target := by
  induction inner with
  | nil => rfl
  | cons a rest ih =>
    unfold last? at *
    simp only [List.map_cons, List.cons_append, List.find?_cons, hidden] at *
    split
    · rfl
    · exact ih

end Alias

/-- Whether a name is written without scopes. -/
def Unqualified (name : String) : Prop :=
  ':' ∉ name.toList

/-- A property of a use of a name: the scopes around it, of which the innermost comes first, the
aliases declared before it, of which the last comes first, the name, and the type that it has been
found to stand for, if any. -/
abbrev Usage := List String → List Alias → String → Option NativeType → Prop

/-- Whether a name is found to stand for the target of its last alias, or for nothing if it has
none. -/
def Usage.last : Usage := fun _ before name found =>
  found = (Alias.last? before name).map (·.target)

/-- Whether a name is found to stand for the target of the alias that the scopes around its use give
it, or for nothing if they give it none. -/
def Usage.visible : Usage := fun around before name found =>
  found = (Alias.visible? before name around).map (·.target)

/-- Whether a name is found to stand for its last alias, which is the visible one if and only if it
is declared in the nearest scope that declares the name. -/
def Usage.lastWins : Usage := fun around before name found =>
  Usage.last around before name found ∧
    (Alias.visible? before name around = Alias.last? before name ↔
      ∀ a ∈ Alias.last? before name, a.Nearest around before)

namespace Declaration

variable {good : Usage} {around : List String} {before middle after : List Alias}
    {d d' : Declaration}
  {ds ds' : List Declaration}

mutual

/-- Whether a declaration with the given scopes around it leads from the aliases before it to those
behind it, and all uses of unqualified names in it are good. A declaration that could not be read is
kept without a name, and the aliases that it has declared are not kept, so that none of them can be
seen behind it; neither are those of the members of a partial specialization kept, nor the target of
an alias template. -/
def Follows (good : Usage) (around : List String) (before : List Alias) :
    Declaration → List Alias → Prop
  | ⟨kind, name, _, _, _, _, type?, returnType?, parameters, _, _, children⟩, after =>
    (∀ type ∈ type?.toList ++ returnType?.toList ++ parameters.map (·.type), ∀ use ∈ type.uses,
      Unqualified use.1 → good around before use.1 use.2) ∧
    match kind with
    | .typeAlias => ∃ target, type? = some target ∧ after = ⟨name, target, some around⟩ :: before
    | .aliasTemplate => ∃ target, after = ⟨name, target, some around⟩ :: before
    | .nameSpace => FollowsAll good (name :: around) before children after
    | .classType => ∃ inner, FollowsAll good (name :: around) before children (inner ++ before) ∧
        after = inner.map Alias.hidden ++ before
    | .classSpecialization => ∃ inner,
        (children = [] ∨ FollowsAll good (name :: around) before children (inner ++ before)) ∧
        after = inner.map Alias.hidden ++ before
    | .unexposed => ∃ lost, (name = "" ∨ lost = []) ∧ after = lost.map Alias.hidden ++ before
    | .file | .linkage | .friend | .enumeration | .classTemplate | .functionTemplate =>
      FollowsAll good around before children after
    | _ => after = before

/-- Whether several declarations, one behind the other, do so. -/
def FollowsAll (good : Usage) (around : List String) (before : List Alias) :
    List Declaration → List Alias → Prop
  | [], after => after = before
  | d :: rest, after => ∃ middle, d.Follows good around before middle ∧
    FollowsAll good around middle rest after

end

/-- Whether all uses of unqualified names in the types of a declaration are good. -/
def UsesWell (good : Usage) (around : List String) (before : List Alias) (d : Declaration) : Prop :=
  ∀ type ∈ d.types, ∀ use ∈ type.uses, Unqualified use.1 → good around before use.1 use.2

theorem follows_iff : d.Follows good around before after ↔ d.UsesWell good around before ∧
    match d.kind with
    | .typeAlias => ∃ target, d.type? = some target ∧
      after = ⟨d.name, target, some around⟩ :: before
    | .aliasTemplate => ∃ target, after = ⟨d.name, target, some around⟩ :: before
    | .nameSpace => FollowsAll good (d.name :: around) before d.children after
    | .classType => ∃ inner, FollowsAll good (d.name :: around) before d.children
      (inner ++ before) ∧
        after = inner.map Alias.hidden ++ before
    | .classSpecialization => ∃ inner,
        (d.children = [] ∨ FollowsAll good (d.name :: around) before d.children (inner ++ before)) ∧
        after = inner.map Alias.hidden ++ before
    | .unexposed => ∃ lost, (d.name = "" ∨ lost = []) ∧ after = lost.map Alias.hidden ++ before
    | .file | .linkage | .friend | .enumeration | .classTemplate | .functionTemplate =>
      FollowsAll good around before d.children after
    | _ => after = before := by
  cases d
  rw [Follows.eq_def]
  rfl

/-- What a declaration leads to depends on its kind, its name, its types and its children alone. -/
theorem Follows.change (h : d.Follows good around before after) (hkind : d'.kind = d.kind)
    (hname : d'.name = d.name) (htype : d'.type? = d.type?) (htypes : d'.types = d.types)
    (hchildren : d'.children = d.children) :
    d'.Follows good around before after := by
  rw [follows_iff] at h ⊢
  rw [UsesWell, hkind, hname, htype, htypes, hchildren]
  exact h

/-- Declarations follow each other if the first ones lead to the aliases from which the others go
on. -/
theorem followsAll_append :
    FollowsAll good around before (ds ++ ds') after ↔
      ∃ middle, FollowsAll good around before ds middle ∧
          FollowsAll good around middle ds' after := by
  induction ds generalizing before with
  | nil => simp [FollowsAll]
  | cons d rest ih =>
    simp only [List.cons_append, FollowsAll, ih]
    constructor
    · rintro ⟨first, hd, middle, hrest, hds'⟩
      exact ⟨middle, ⟨first, hd, hrest⟩, hds'⟩
    · rintro ⟨middle, ⟨first, hd, hrest⟩, hds'⟩
      exact ⟨first, hd, middle, hrest, hds'⟩

theorem followsAll_one :
    FollowsAll good around before [d] after ↔ d.Follows good around before after := by
  simp [FollowsAll]

/-- Declarations may be changed where none of them leads elsewhere. -/
theorem FollowsAll.map {f : Declaration → Declaration} (h : FollowsAll good around before ds after)
    (hf : ∀ {d : Declaration} {before after : List Alias}, d ∈ ds →
      d.Follows good around before after → (f d).Follows good around before after) :
          FollowsAll good around before (ds.map f) after := by
  induction ds generalizing before with
  | nil => exact h
  | cons d rest ih =>
    rw [FollowsAll] at h
    obtain ⟨middle, hd, hrest⟩ := h
    rw [List.map_cons, FollowsAll]
    exact ⟨middle, hf List.mem_cons_self hd, ih hrest fun hmem => hf (List.mem_cons_of_mem _ hmem)⟩

/-- Declarations that lead nowhere. -/
theorem followsAll_self (h : ∀ d ∈ ds, d.Follows good around before before) :
    FollowsAll good around before ds before := by
  induction ds with
  | nil => rw [FollowsAll]
  | cons d rest ih =>
    rw [FollowsAll]
    exact ⟨before, h d List.mem_cons_self, ih fun d hd => h d (List.mem_cons_of_mem _ hd)⟩

/-- What holds nothing and declares no alias leads nowhere. -/
theorem Bare.follows {inClass : Option String} (h : d.Bare inClass)
    (hplain : d.kind.isAlias = false) (huses : d.UsesWell good around before) :
    d.Follows good around before before := by
  rw [follows_iff, h.children]
  refine ⟨huses, ?_⟩
  split
  case h_1 hkind | h_2 hkind =>
    rw [hkind] at hplain
    cases hplain
  case h_3 hkind | h_4 hkind =>
    have hbare := h.kind
    rw [hkind] at hbare
    cases hbare
  case h_5 => exact ⟨[], .inl rfl, rfl⟩
  case h_6 => exact ⟨[], .inr rfl, rfl⟩
  case h_13 => rfl
  all_goals rw [FollowsAll]

end Declaration

end Interop
