import Interop.Overlay.Symbols
import Mathlib.Data.List.Infix

namespace Interop

open Overlay

namespace Symbol

variable {scope outer last name p : String} {front rest cs : List Char}

/-- Whether cutting a scope at its last double colon leaves the outer scope, and what is behind
it. -/
def CutAtLast (scope outer last : String) : Prop :=
  scope = outer ++ "::" ++ last ∧ ¬[':', ':'] <:+: ':' :: last.toList

/-- The scopes around what is declared in a scope: the scope itself, what is left of it when it is
cut at its last double colon again and again, and the global scope, which has no name. -/
inductive Around : String → String → Prop
  | itself (scope : String) : Around scope scope
  | global (scope : String) : Around scope ""
  | outwards {scope outer last p : String} (hcut : CutAtLast scope outer last)
    (h : Around outer p) : Around scope p

/-- The scopes around what is declared in a scope, from the innermost out. -/
def scopes (scope : String) : List String :=
  (if scope.isEmpty then [] else scope :: outerScopes scope) ++ [""]

/-- A text with a double colon is cut at the first one. -/
theorem exists_eq_cut (h : [':', ':'] <:+: cs) :
    ∃ front rest, cs = front ++ ':' :: ':' :: rest ∧ ¬[':', ':'] <:+: front ++ [':'] := by
  induction cs with
  | nil => simp at h
  | cons c cs ih =>
    by_cases hprefix : [':', ':'] <+: c :: cs
    · obtain ⟨rest, hrest⟩ := hprefix
      exact ⟨[], rest, hrest.symm, by decide⟩
    · obtain ⟨front, rest, rfl, hfront⟩ := ih ((List.infix_cons_iff.mp h).resolve_left hprefix)
      refine ⟨c :: front, rest, rfl, fun hcolons => ?_⟩
      rcases List.infix_cons_iff.mp hcolons with hfirst | hlater
      · exact hprefix (hfirst.trans ⟨':' :: rest, by simp⟩)
      · exact hfront hlater

/-- A text is cut at its first double colon, and what is behind it is cut further. -/
theorem cutsBehindColons_cut (h : ¬[':', ':'] <:+: front ++ [':']) :
    cutsBehindColons (front ++ ':' :: ':' :: rest) = rest :: cutsBehindColons rest := by
  induction front with
  | nil => rfl
  | cons c front ih =>
    have hlater : ¬[':', ':'] <:+: front ++ [':'] :=
      fun hcolons => h (hcolons.trans (List.suffix_cons c _).isInfix)
    rw [List.cons_append, cutsBehindColons]
    · exact ih hlater
    · rintro rest' rfl hrest'
      -- The character behind the colon would be a colon too, but that is already a double colon of
      -- the front.
      apply h
      cases front with
      | nil => exact List.infix_rfl
      | cons d front =>
        obtain ⟨rfl, -⟩ := List.cons.inj hrest'
        exact ⟨[], front ++ [':'], rfl⟩

/-- A text without a double colon is not cut. -/
theorem cutsBehindColons_uncut (h : ¬[':', ':'] <:+: cs) : cutsBehindColons cs = [] := by
  induction cs with
  | nil => rfl
  | cons c cs ih =>
    rw [cutsBehindColons]
    · exact ih fun hcolons => h (hcolons.trans (List.suffix_cons c _).isInfix)
    · rintro rest rfl rfl
      exact h ⟨[], rest, rfl⟩

/-- A double colon is the same text backwards. -/
theorem infix_colons_reverse : [':', ':'] <:+: cs.reverse ↔ [':', ':'] <:+: cs :=
  @List.reverse_infix _ [':', ':'] cs

theorem infix_reverse_append (h : ¬[':', ':'] <:+: ':' :: cs) :
    ¬[':', ':'] <:+: cs.reverse ++ [':'] := by
  rwa [← List.reverse_cons, infix_colons_reverse]

/-- The global scope lies in no other one. -/
@[simp]
theorem scopes_global : scopes "" = [""] :=
  rfl

/-- A scope of one name lies in the global scope only. -/
theorem scopes_of_uncut (hscope : scope ≠ "") (h : ¬[':', ':'] <:+: scope.toList) :
    scopes scope = [scope, ""] := by
  have houter : outerScopes scope = [] := by
    rw [outerScopes, cutsBehindColons_uncut (by rwa [infix_colons_reverse])]
    rfl
  rw [scopes, if_neg (by simpa using hscope), houter]
  rfl

/-- A scope lies in itself and in all that lie around the part before its last double colon. -/
theorem scopes_of_cut (h : CutAtLast scope outer last) : scopes scope = scope :: scopes outer := by
  obtain ⟨rfl, hlast⟩ := h
  have hscope : (outer ++ "::" ++ last).isEmpty = false := by
    simp [String.isEmpty_eq_false_iff]
  have hreverse : (outer ++ "::" ++ last).toList.reverse = last.toList.reverse ++ ':' :: ':' ::
      outer.toList.reverse := by
    simp
  have houter : outerScopes (outer ++ "::" ++ last) = if outer.isEmpty then []
      else outer :: outerScopes outer := by
    rw [outerScopes, hreverse, cutsBehindColons_cut (infix_reverse_append hlast)]
    cases houter : outer.isEmpty with
    | true =>
      rw [String.isEmpty_iff.mp houter]
      rfl
    | false =>
      rw [List.filter_cons_of_pos (by simpa using houter), List.map_cons, List.reverse_reverse,
        String.ofList_toList, outerScopes]
      rfl
  rw [scopes, hscope, houter, scopes]
  rfl

/-- The scope around another one has the shorter name, which is what inductions over scopes use. -/
theorem CutAtLast.length_lt (h : CutAtLast scope outer last) : outer.length < scope.length := by
  obtain ⟨rfl, -⟩ := h
  have hcolons : "::".length = 2 := rfl
  rw [String.length_append, String.length_append, hcolons]
  omega

/-- A scope is the global one, is not cut at all, or is cut at its last double colon. -/
theorem cut_induction {motive : String → Prop} (global : motive "")
    (uncut : ∀ scope, scope ≠ "" → ¬[':', ':'] <:+: scope.toList → motive scope)
    (cut : ∀ scope outer last, CutAtLast scope outer last → motive outer → motive scope)
    (scope : String) : motive scope := by
  induction hlength : scope.length using Nat.strong_induction_on generalizing scope with
  | _ length ih =>
    by_cases hcolons : [':', ':'] <:+: scope.toList
    · obtain ⟨front, rest, hreverse, hfront⟩ := exists_eq_cut (infix_colons_reverse.mpr hcolons)
      have hcut : CutAtLast scope (String.ofList rest.reverse) (String.ofList front.reverse) := by
        constructor
        · rw [← String.toList_inj, ← List.reverse_inj, hreverse]
          simp
        · rwa [String.toList_ofList, ← infix_colons_reverse, List.reverse_cons,
            List.reverse_reverse]
      exact cut scope _ _ hcut (ih _ (hlength ▸ hcut.length_lt) _ rfl)
    · by_cases hscope : scope = ""
      · exact hscope ▸ global
      · exact uncut scope hscope hcolons

/-- The scopes that are searched are those around the one asked for. -/
theorem mem_scopes_iff : p ∈ scopes scope ↔ Around scope p := by
  constructor
  · intro hmem
    induction scope using cut_induction with
    | global =>
      rw [List.mem_singleton.mp hmem]
      exact .global ""
    | uncut scope hscope h =>
      rw [scopes_of_uncut hscope h] at hmem
      rcases List.mem_pair.mp hmem with rfl | rfl
      · exact .itself p
      · exact .global scope
    | cut scope outer last hcut ih =>
      rw [scopes_of_cut hcut] at hmem
      rcases List.mem_cons.mp hmem with rfl | hmem
      · exact .itself p
      · exact .outwards hcut (ih hmem)
  · intro h
    induction h with
    | itself scope =>
      rw [scopes]
      cases hscope : scope.isEmpty with
      | true => simp [String.isEmpty_iff.mp hscope]
      | false => simp
    | global scope => simp [scopes]
    | outwards hcut h ih =>
      rw [scopes_of_cut hcut]
      exact List.mem_cons_of_mem _ ih

/-- Scopes around another one have no longer names. -/
theorem Around.length_le (h : Around scope p) : p.length ≤ scope.length := by
  induction h with
  | itself => exact Nat.le_refl _
  | global => exact Nat.zero_le _
  | outwards hcut _ ih => exact ih.trans hcut.length_lt.le

/-- The scopes around a place get shorter from the innermost out. -/
theorem pairwise_scopes (scope : String) :
    (scopes scope).Pairwise fun p q => q.length < p.length := by
  induction scope using cut_induction with
  | global => exact List.pairwise_singleton _ _
  | uncut scope hscope h =>
    rw [scopes_of_uncut hscope h, List.pairwise_pair]
    exact Nat.pos_of_ne_zero (by simpa using hscope)
  | cut scope outer last hcut ih =>
    rw [scopes_of_cut hcut, List.pairwise_cons]
    exact ⟨fun p hp => (mem_scopes_iff.mp hp).length_le.trans_lt hcut.length_lt, ih⟩

/-- The names that are tried are those of the scopes with the name behind them. -/
theorem candidates_eq_map (scope name : String) :
    candidates scope name = (scopes scope).map (qualify · name) := by
  rw [candidates, scopes]
  cases hscope : scope.isEmpty with
  | true => rfl
  | false =>
    have hqualify : ∀ s ∈ scope :: outerScopes scope, s ++ "::" ++ name = qualify s name := by
      intro s hs
      rw [qualify, if_neg]
      rcases List.mem_cons.mp hs with rfl | hs
      · simp [hscope]
      · obtain ⟨cs, hcs, rfl⟩ := List.mem_map.mp hs
        simpa using (List.mem_filter.mp hcs).2
    rw [List.map_append, if_neg Bool.false_ne_true, List.map_congr_left hqualify]
    rfl

/-- Only a name that starts with a double colon is rooted. -/
theorem unrooted_of_not_prefix (h : ¬[':', ':'] <+: name.toList) : unrooted name = name := by
  rw [unrooted, dropColons, String.ofList_toList]
  rintro rest hname
  exact h ⟨rest, hname.symm⟩

end Symbol

namespace Overlay.Symbols

open Interop.Symbol

variable {s : Symbols} {f : Forest} {scope name symbol : String} {id id' : NodeId}

/-- Whether a class or an enum that is still there is registered under a symbol. -/
def HasTypeAt (s : Symbols) (f : Forest) (symbol : String) (id : NodeId) : Prop :=
  s.entries.get? symbol = some id ∧ ∃ n, f.node? id = some n ∧
    (n.kind = .classType ∨ n.kind = .enumeration)

/-- Whether a node is the class or enum of a name in the innermost scope around a scope that has
one. -/
def HasInnermost (s : Symbols) (f : Forest) (scope name : String) (id : NodeId) : Prop :=
  ∃ p, Around scope p ∧ s.HasTypeAt f (qualify p name) id ∧
    ∀ q id', Around scope q → p.length < q.length → ¬s.HasTypeAt f (qualify q name) id'

/-- The class or enum registered under a symbol. -/
def typeAt? (s : Symbols) (f : Forest) (symbol : String) : Option NodeId :=
  (s.get? f symbol).filter fun id => (f.node? id).any fun n => n.kind == .classType || n.kind ==
    .enumeration

/-- A type is found under a symbol exactly if a class or enum of the forest has it. -/
theorem typeAt?_eq_some_iff : s.typeAt? f symbol = some id ↔ s.HasTypeAt f symbol id := by
  rw [typeAt?, Option.filter_eq_some_iff, get?, Option.filter_eq_some_iff, HasTypeAt]
  constructor
  · rintro ⟨⟨hget, -⟩, hany⟩
    obtain ⟨n, hn, hkind⟩ := (Option.any_eq_true _ _).mp hany
    exact ⟨hget, n, hn, by simpa using hkind⟩
  · rintro ⟨hget, n, hn, hkind⟩
    refine ⟨⟨hget, ?_⟩, (Option.any_eq_true _ _).mpr ⟨n, hn, by simpa using hkind⟩⟩
    rw [Forest.contains, hn]
    rfl

/-- No type is found under a symbol exactly if no class or enum has it. -/
theorem typeAt?_eq_none_iff : s.typeAt? f symbol = none ↔ ∀ id, ¬s.HasTypeAt f symbol id := by
  simp only [Option.eq_none_iff_forall_ne_some, ne_eq, typeAt?_eq_some_iff]

/-- The search for a type goes through the scopes from the inside. -/
theorem typeNamed?_eq_findSome? (s : Symbols) (f : Forest) (scope name : String) :
    s.typeNamed? f scope name = (scopes scope).findSome? fun p =>
      s.typeAt? f (qualify p (unrooted name)) := by
  rw [typeNamed?, candidates_eq_map, List.findSome?_map]
  rfl

/-- No type is found exactly if no scope around has one. -/
theorem typeNamed?_eq_none_iff :
    s.typeNamed? f scope name = none ↔ ∀ p id, Around scope p →
      ¬s.HasTypeAt f (qualify p (unrooted name)) id := by
  simp only [typeNamed?_eq_findSome?, List.findSome?_eq_none_iff, mem_scopes_iff,
    typeAt?_eq_none_iff]
  exact ⟨fun h p id hp => h p hp id, fun h p hp id => h p id hp⟩

/-- The type that is found is the innermost one, also for a rooted name. -/
theorem typeNamed?_eq_some_iff :
    s.typeNamed? f scope name = some id ↔ s.HasInnermost f scope (unrooted name) id := by
  rw [typeNamed?_eq_findSome?, List.findSome?_eq_some_iff]
  have hshorter := pairwise_scopes scope
  constructor
  · rintro ⟨inner, p, outer, hscopes, hp, hinner⟩
    rw [hscopes, List.pairwise_append, List.pairwise_cons] at hshorter
    obtain ⟨-, ⟨houter, -⟩, -⟩ := hshorter
    have hmem : ∀ {q}, Around scope q ↔ q ∈ inner ∨ q = p ∨ q ∈ outer := by
      intro q
      rw [← mem_scopes_iff, hscopes, List.mem_append, List.mem_cons]
    refine ⟨p, hmem.mpr (.inr (.inl rfl)), typeAt?_eq_some_iff.mp hp, fun q id' hq hlonger => ?_⟩
    rcases hmem.mp hq with hq | rfl | hq
    · exact typeAt?_eq_none_iff.mp (hinner q hq) id'
    · exact absurd hlonger (Nat.lt_irrefl _)
    · exact absurd (houter q hq) hlonger.le.not_gt
  · rintro ⟨p, hp, htype, hnone⟩
    obtain ⟨inner, outer, hscopes⟩ := List.append_of_mem (mem_scopes_iff.mpr hp)
    refine ⟨inner, p, outer, hscopes, typeAt?_eq_some_iff.mpr htype,
      fun q hq => typeAt?_eq_none_iff.mpr fun id' => ?_⟩
    rw [hscopes, List.pairwise_append] at hshorter
    have hmem : q ∈ scopes scope := hscopes ▸ List.mem_append_left _ hq
    exact hnone q id' (mem_scopes_iff.mp hmem) (hshorter.2.2 q hq p List.mem_cons_self)

/-- What a name refers to depends on the classes and enums that are registered only. -/
theorem typeNamed?_congr {s' : Symbols} {f' : Forest}
    (h : ∀ symbol id, s.HasTypeAt f symbol id ↔ s'.HasTypeAt f' symbol id) (scope name : String) :
    s.typeNamed? f scope name = s'.typeNamed? f' scope name := by
  have hsame : ∀ id, s.typeNamed? f scope name = some id ↔
      s'.typeNamed? f' scope name = some id := by
    intro id
    simp only [typeNamed?_eq_some_iff, HasInnermost, h]
  exact Option.ext hsame

/-- From the global scope the type with just the name is found. -/
theorem typeNamed?_global_eq_some_iff :
    s.typeNamed? f "" name = some id ↔ s.HasTypeAt f (unrooted name) id := by
  rw [typeNamed?_eq_findSome?, scopes_global, List.findSome?_singleton, typeAt?_eq_some_iff]
  rfl

/-- A name refers to the class or enum of that name, without the double colons that it begins with,
in the innermost scope around its use that has one. Of a name that begins with a double colon this
is what it refers to globally exactly if no scope around has another class or enum of the name. -/
theorem typeNamed?_scoped (s : Symbols) (f : Forest) (scope name : String) :
    (∀ id, s.typeNamed? f scope name = some id ↔ s.HasInnermost f scope (unrooted name) id) ∧
      (s.typeNamed? f scope name = none ↔ ∀ p id, Around scope p →
        ¬s.HasTypeAt f (qualify p (unrooted name)) id) ∧
      (¬[':', ':'] <+: name.toList → unrooted name = name) ∧
      (s.typeNamed? f scope name = s.typeNamed? f "" name ↔
        ∀ id, s.HasInnermost f scope (unrooted name) id → s.HasTypeAt f (unrooted name) id) := by
  refine ⟨fun id => typeNamed?_eq_some_iff, typeNamed?_eq_none_iff, unrooted_of_not_prefix, ?_⟩
  simp only [← typeNamed?_eq_some_iff, ← typeNamed?_global_eq_some_iff]
  constructor
  · exact fun heq id hid => heq ▸ hid
  · intro hglobal
    cases hfound : s.typeNamed? f scope name with
    | some id => exact (hglobal id hfound).symm
    | none =>
      -- The global scope is one of those around.
      have hnone := typeNamed?_eq_none_iff.mp hfound
      exact (Option.eq_none_iff_forall_ne_some.mpr fun id hid =>
        hnone "" id (.global scope) (typeNamed?_global_eq_some_iff.mp hid)).symm

/-- Inside of a namespace, the name of a global class that is written as global refers to the
namespace's class of that name. -/
theorem typeNamed?_shadowed : ∃ (s : Symbols) (f : Forest),
    s.typeNamed? f "" "::T" = some ⟨0⟩ ∧ s.typeNamed? f "A" "::T" = some ⟨1⟩ := by
  let s := (({} : Symbols).insert "T" ⟨0⟩).insert "A::T" ⟨1⟩
  let f := (Forest.empty.push { kind := .classType, name := "T", symbol := "T" }).push
    { kind := .classType, name := "T", symbol := "A::T" }
  exact ⟨s, f, by decide +kernel, by decide +kernel⟩

end Overlay.Symbols

end Interop
