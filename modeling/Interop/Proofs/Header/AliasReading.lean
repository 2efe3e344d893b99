import Interop.Proofs.Header.Aliases
import Interop.Proofs.Header.Units

namespace Interop

open Header Declaration

/-- What stands behind the last colon of a name, in reverse. -/
def lastPart (name : String) : List Char :=
  name.toList.reverse.takeWhile (· != ':')

/-- The last part of a full name is the name, if it has no scopes. -/
theorem lastPart_full (memory : Memory) {name : String} (h : Unqualified name) :
    lastPart (memory.full name) = name.toList.reverse := by
  have hall : ∀ c ∈ name.toList.reverse, (c != ':') = true := by
    intro c hc
    refine bne_iff_ne.mpr ?_
    rintro rfl
    exact h (List.mem_reverse.mp hc)
  unfold lastPart Memory.full
  by_cases hscope : memory.scope.reverse = []
  · rw [hscope, List.nil_append, String.intercalate_singleton]
    exact List.takeWhile_eq_self_iff.mpr hall
  · rw [String.intercalate_append_of_ne_nil hscope (List.cons_ne_nil _ _),
      String.intercalate_singleton]
    rw [String.toList_append, String.toList_append, List.reverse_append,
      List.takeWhile_append_of_pos hall, List.reverse_append]
    simp

/-- Names that are written alike with their scopes are the same. -/
theorem eq_of_full_eq {memory memory' : Memory} {name name' : String} (hname : Unqualified name)
    (hname' : Unqualified name') (h : memory.full name = memory'.full name') : name = name' := by
  have hpart := congrArg lastPart h
  rw [lastPart_full memory hname, lastPart_full memory' hname'] at hpart
  exact String.toList_inj.mp (List.reverse_injective hpart)

theorem Header.Simple.unqualified {name : String} (h : Simple name) : Unqualified name :=
  fun hcolon => absurd (h _ hcolon) (by decide)

namespace Header.Memory

variable {memory memory' : Memory} {before inner : List Alias} {name : String} {target : NativeType}
  {scope? : Option (List String)}

/-- Of aliases that are recorded twice, with their scopes in front and alone, how they are recorded
alone. -/
def alone : List (String × NativeType) → List (String × NativeType)
  | _ :: entry :: rest => entry :: alone rest
  | _ => []

/-- The aliases that a memory has recorded, as they are declared and the last one first. -/
def declared (memory : Memory) : List (String × NativeType) :=
  alone memory.aliases

/-- Whether the aliases are those that a memory has recorded, and an unqualified name is found to
stand for the last of them that has the name, whatever the current scopes are. -/
structure Holds (memory : Memory) (before : List Alias) : Prop where
  finds : ∀ name, Unqualified name → ∀ scope,
    ({ memory with scope } : Memory).target? name = (Alias.last? before name).map (·.target)
  declared : memory.declared = before.map fun a => (a.name, a.target)

/-- The target of a name is the one of its last alias. -/
theorem Holds.target? (h : memory.Holds before) (hname : Unqualified name) :
    memory.target? name = (Alias.last? before name).map (·.target) :=
  h.finds name hname memory.scope

/-- Only the table of aliases matters. -/
theorem Holds.congr (h : memory.Holds before) (haliases : memory'.aliases = memory.aliases) :
    memory'.Holds before := by
  refine ⟨fun name hname scope => ?_, ?_⟩
  · have hfound := h.finds name hname scope
    unfold Memory.target? at hfound ⊢
    rw [← hfound, haliases]
    rfl
  · rw [Memory.declared, haliases]
    exact h.declared

theorem holds_nil : ({} : Memory).Holds [] :=
  ⟨fun _ _ _ => rfl, rfl⟩

/-- Aliases that can no more be seen are still held by the memory. -/
theorem Holds.hidden (h : memory.Holds (inner ++ before)) :
    memory.Holds (inner.map Alias.hidden ++ before) := by
  refine ⟨fun name hname scope => (h.finds name hname scope).trans
    (Alias.last?_hidden inner before name).symm, ?_⟩
  rw [h.declared, List.map_append, List.map_append, List.map_map]
  rfl

theorem full_nil (name : String) : ({} : Memory).full name = name :=
  String.intercalate_singleton ..

/-- What is recorded for other keys is found as before. -/
theorem lookup_withAlias {key : String} (hfull : key ≠ memory.full name) (hname : key ≠ name) :
    (memory.withAlias name target).aliases.lookup key = memory.aliases.lookup key := by
  simp only [Memory.withAlias, List.lookup_cons, beq_false_of_ne hfull, beq_false_of_ne hname]

/-- An alias is recorded under its own name and with its scopes in front; no other unqualified name
is found by these keys, in whatever scope it is looked up. -/
theorem Holds.withAlias (h : memory.Holds before) (hsimple : Simple name) :
    (memory.withAlias name target).Holds (⟨name, target, scope?⟩ :: before) := by
  refine ⟨fun used hused scope => ?_, congrArg (List.cons (name, target)) h.declared⟩
  have hname := hsimple.unqualified
  by_cases heq : used = name
  · subst heq
    have hfirst : (memory.withAlias used target).aliases.lookup used = some target := by
      simp only [Memory.withAlias, List.lookup_cons]
      split
      · rfl
      · simp
    rw [Memory.target?, hfirst]
    simp [Alias.last?]
  · have hother : ∀ m m' : Memory, m.full used ≠ m'.full name := fun _ _ hfull =>
      heq (eq_of_full_eq hused hname hfull)
    have hwritten : (memory.withAlias name target).aliases.lookup used =
        memory.aliases.lookup used := by
      refine lookup_withAlias ?_ heq
      rw [← full_nil used]
      exact hother _ _
    have hscoped : (memory.withAlias name target).aliases.lookup
        (({ memory with scope } : Memory).full used) =
            memory.aliases.lookup (({ memory with scope } : Memory).full used) := by
      refine lookup_withAlias (hother _ _) ?_
      rw [← full_nil name]
      exact hother _ _
    have hfound := h.finds used hused scope
    rw [Memory.target?] at hfound ⊢
    rw [hwritten]
    refine Eq.trans ?_ (hfound.trans ?_)
    · exact congrArg _ (funext fun _ => hscoped)
    · simp [Alias.last?, Ne.symm heq]

end Header.Memory

namespace Declaration

open Header.Parser

variable {good : Usage} {memory M M' : Memory} {inClass : Option String} {around : List String}
  {before after : List Alias} {d : Declaration} {ds parameters : List Declaration}

/-- A declaration without types uses nothing. -/
theorem usesWell_of_nil (h : d.types = []) : d.UsesWell good around before := by
  unfold UsesWell
  rw [h]
  exact nofun

/-- A function or a variable leads nowhere. -/
theorem Follows.eq_of_plain (hkind : d.kind.isFunction = true ∨ d.kind.isVariable = true)
    (h : d.Follows good around before after) : after = before := by
  rw [follows_iff] at h
  cases hd : d.kind <;> rw [hd] at hkind h <;>
    first | exact h.2 | (rcases hkind with hkind | hkind <;> cases hkind)

/-- A template leads where what it wraps leads. -/
theorem Follows.templated (hparameters : ∀ p ∈ parameters, p.Blank inClass)
    (h : d.Follows good around before after) :
    (Parser.templated parameters d).Follows good around before after := by
  have hwrapped : ∀ isTemplated,
      FollowsAll good around before (parameters ++ [{ d with isTemplated }]) after := by
    refine fun isTemplated => followsAll_append.mpr ⟨before, followsAll_self fun p hp => ?_, ?_⟩
    · have hblank := hparameters p hp
      exact hblank.bare.follows hblank.plain (usesWell_of_nil hblank.types)
    · exact followsAll_one.mpr (h.change rfl rfl rfl rfl rfl)
  unfold Parser.templated
  cases htemplate : templateKind? parameters.isEmpty d.kind with
  | none => exact h
  | some kind =>
    rw [follows_iff]
    refine ⟨usesWell_of_nil rfl, ?_⟩
    unfold templateKind? at htemplate
    split at htemplate
    case h_1 hkind =>
      rw [follows_iff, hkind] at h
      obtain ⟨-, inner, -, hafter⟩ := id h
      split at htemplate <;> cases htemplate
      · exact ⟨inner, .inl rfl, hafter⟩
      · exact hwrapped true
    case h_2 hkind =>
      rw [follows_iff, hkind] at h
      obtain ⟨-, inner, -, hafter⟩ := h
      cases htemplate
      exact ⟨inner, .inl rfl, hafter⟩
    case h_3 hkind =>
      rw [follows_iff, hkind] at h
      obtain ⟨-, target, -, hafter⟩ := h
      cases htemplate
      exact ⟨target, hafter⟩
    case h_4 =>
      split at htemplate
      · rename_i hfunction
        split at htemplate <;> cases htemplate
        · exact h.eq_of_plain (.inl hfunction)
        · exact hwrapped true
      · split at htemplate
        · rename_i hvariable
          cases htemplate
          exact h.eq_of_plain (.inr hvariable)
        · cases htemplate

/-- The namespaces around what they hold. -/
theorem follows_nestedNamespaces {children : List Declaration} (names : List String) :
    ∀ around, FollowsAll good (names.reverse ++ around) before children after →
      FollowsAll good around before (nestedNamespaces children names) after := by
  induction names with
  | nil => exact fun _ => id
  | cons name rest ih =>
    intro around h
    rw [List.reverse_cons, List.append_assoc] at h
    exact followsAll_one.mpr (follows_iff.mpr ⟨usesWell_of_nil rfl, ih (name :: around) h⟩)

/-- Whether declarations lead from all that a memory holds to what the memory behind them holds. -/
def Leads (good : Usage) (M : Memory) (ds : List Declaration) (M' : Memory) : Prop :=
  ∀ around before, M.Holds before →
    ∃ new, M'.Holds (new ++ before) ∧ FollowsAll good around before ds (new ++ before)

section Last

variable (hgood : ∀ around before name,
      good around before name ((Alias.last? before name).map (·.target)))
include hgood

/-- Names that are looked up in a memory are used well. -/
theorem usesWell_of_resolved (hM : M.Holds before) (h : ∀ type ∈ d.types, type.ResolvedIn M) :
    d.UsesWell good around before := by
  intro type htype use huse hname
  rw [h type htype use huse, hM.target? hname]
  exact hgood around before use.1

/-- Leaves use the aliases before them and declare none. -/
theorem AllLeaves.follows (hM : M.Holds before) (h : AllLeaves M inClass ds) :
    FollowsAll good around before ds before :=
  followsAll_self fun d hd => (h d hd).bare.follows (h d hd).plain
    (usesWell_of_resolved hgood hM (h d hd).resolved)

/-- Reading leads from what has been declared before to what has been declared behind. -/
theorem leads_kept :
    Kept (fun _ => Leads good) fun M M' => ∀ before, M.Holds before →
      ∃ lost, M'.Holds (lost ++ before) where
  leaves h around before hM := ⟨[], hM, h.follows hgood hM⟩
  append h h' around before hM := by
    obtain ⟨new, hM', hds⟩ := h around before hM
    obtain ⟨new', hM'', hds'⟩ := h' around (new ++ before) hM'
    rw [← List.append_assoc] at hM'' hds'
    exact ⟨new' ++ new, hM'', followsAll_append.mpr ⟨_, hds, hds'⟩⟩
  relocate hf h around before hM := by
    obtain ⟨new, hM', hds⟩ := h around before hM
    refine ⟨new, hM', hds.map fun {d _ _} _ hd => ?_⟩
    obtain ⟨access, line, hmoved⟩ := hf d
    rw [hmoved]
    exact hd.change rfl rfl rfl rfl rfl
  lost h around before hM := by
    obtain ⟨lost, hM'⟩ := h before hM
    exact ⟨lost.map Alias.hidden, hM'.hidden,
      followsAll_one.mpr (follows_iff.mpr ⟨usesWell_of_nil rfl, lost, .inl rfl, rfl⟩)⟩
  typeAlias {_ _ name target} hname htarget around before hM := by
    refine ⟨[⟨name, target, some around⟩], hM.withAlias hname,
      followsAll_one.mpr (follows_iff.mpr ⟨?_, target, rfl, rfl⟩)⟩
    exact usesWell_of_resolved hgood hM fun type htype => List.mem_singleton.mp htype ▸ htarget
  enumeration {_ _ _ type? _ _ _} htype hchildren around before hM := by
    refine ⟨[], hM.congr (by split <;> rfl),
      followsAll_one.mpr (follows_iff.mpr ⟨?_, followsAll_self fun c hc => ?_⟩)⟩
    · refine usesWell_of_resolved hgood hM fun type hmem => htype type ?_
      rw [types, List.map_nil, List.append_nil] at hmem
      simpa using hmem
    · rw [follows_iff, (hchildren c hc).kind]
      exact ⟨usesWell_of_nil (hchildren c hc).types, rfl⟩
  nameSpace {_ _ _ names _} _ _ h around before hM := by
    obtain ⟨new, hM', hchildren⟩ := h (names.reverse ++ around) before (hM.congr rfl)
    exact ⟨new, hM'.congr rfl, follows_nestedNamespaces names around hchildren⟩
  linkage h around before hM := by
    obtain ⟨new, hM', hchildren⟩ := h around before hM
    exact ⟨new, hM', followsAll_one.mpr (follows_iff.mpr ⟨usesWell_of_nil rfl, hchildren⟩)⟩
  template hparameters h around before hM := by
    obtain ⟨new, hM', hds⟩ := h around before hM
    exact ⟨new, hM', hds.map fun _ hd => hd.templated hparameters⟩
  friend h around before hM := by
    obtain ⟨new, hM', hds⟩ := h around before hM
    have hchildren := hds.map (f := ({ · with isFriended := true })) fun _ hd =>
      hd.change rfl rfl rfl rfl rfl
    exact ⟨new, hM', followsAll_one.mpr (follows_iff.mpr ⟨usesWell_of_nil rfl, hchildren⟩)⟩
  classType {_ _ _ kind name _ _ _} hkind _ hbases h around before hM := by
    obtain ⟨inner, hM', hmembers⟩ := h (name :: around) before (hM.congr rfl)
    have hinside := followsAll_append.mpr ⟨before, hbases.follows hgood hM, hmembers⟩
    refine ⟨inner.map Alias.hidden, (hM'.hidden).congr (by split <;> rfl),
      followsAll_one.mpr (follows_iff.mpr ?_)⟩
    refine ⟨usesWell_of_nil rfl, ?_⟩
    rcases hkind with rfl | rfl
    · exact ⟨inner, hinside, rfl⟩
    · exact ⟨inner, .inr hinside, rfl⟩
  refl before hM := ⟨[], hM⟩
  behind h h' before hM := by
    obtain ⟨new, hM', -⟩ := h [] before hM
    obtain ⟨lost, hM''⟩ := h' (new ++ before) hM'
    exact ⟨lost ++ new, by rwa [List.append_assoc]⟩
  entered before hM := ⟨[], hM.congr rfl⟩
  left h before hM := by
    obtain ⟨lost, hM'⟩ := h before (hM.congr rfl)
    exact ⟨lost, hM'.congr rfl⟩
  recorded h before hM := by
    obtain ⟨lost, hM'⟩ := h before hM
    exact ⟨lost, hM'.congr rfl⟩

end Last

end Declaration

namespace Header

variable {config : Configuration} {path : Path} {source : String} {unit : HeaderUnit}

/-- Every unqualified name in a unit stands for the target of the last alias of that name that is
declared before it, in whatever scope that is, and for nothing if the name has no alias before it.
That alias is the one that the scopes around the use give the name if and only if it is declared in
the nearest of them that declares the name. The declarations are followed as they have been read,
one behind the other, and all aliases that are met are those that have been recorded: where a
declaration could not be read, what it has declared is what is recorded there, and cannot be
seen. -/
theorem readUnit_last_alias (h : (readUnit config path source).result = .ok unit) :
    ∃ ds memory after, ReadsAs config path source unit ds memory ∧
      memory.declared = after.map (fun a => (a.name, a.target)) ∧
          FollowsAll Usage.lastWins [] [] ds after := by
  have hkept := @leads_kept Usage.lastWins fun _ _ _ => ⟨rfl, Alias.visible?_eq_last?_iff⟩
  obtain ⟨ds, memory, hread, hleads, -⟩ := readUnit_keeps hkept h
  obtain ⟨after, hmemory, hfollows⟩ := hleads [] [] Memory.holds_nil
  exact ⟨ds, memory, _, hread, hmemory.declared, hfollows⟩

/-- An alias in a namespace and a function behind it that uses it. -/
theorem readUnit_last_alias_nested :
    ∃ unit, (readUnit {} ⟨"A.h"⟩ "namespace N { typedef int T; T f(T x); }").result = .ok unit ∧
      unit.root.children.map (fun n => (n.kind, n.children.map fun d => (d.kind, d.name))) =
        [(.nameSpace, [(.typeAlias, "T"), (.freeFunction, "f")])] ∧
      ∃ ds memory after,
        ReadsAs {} ⟨"A.h"⟩ "namespace N { typedef int T; T f(T x); }" unit ds memory ∧
        memory.declared = after.map (fun a => (a.name, a.target)) ∧
            FollowsAll Usage.lastWins [] [] ds after := by
  refine exists_ok_of_decide (fun unit =>
    unit.root.children.map (fun n => (n.kind, n.children.map fun d => (d.kind, d.name))) =
      [(.nameSpace, [(.typeAlias, "T"), (.freeFunction, "f")])]) (by decide +kernel)
        fun unit hunit hchildren => ?_
  exact ⟨hchildren, readUnit_last_alias hunit⟩

/-- The alias of a class is found behind the class, where it can no more be seen. -/
theorem readUnit_leaks_alias :
    ∃ unit, (readUnit {} ⟨"A.h"⟩ "class A { class B { typedef int T; }; T x; };").result =
      .ok unit ∧ ∀ after, ¬FollowsAll Usage.visible [] [] unit.root.children after := by
  refine exists_ok_of_decide
      (fun unit => unit.root.children.map (fun a => (a.kind, a.children.map fun c =>
    (c.kind, c.children.map fun t => (t.kind, t.name),
        c.types.map fun type => type.uses.map fun use =>
      (use.1, use.2.isSome)))) ==
      [(.classType, [(.classType, [(.typeAlias, "T")], []),
        (.memberVariable, [], [[("T", true)]])])])
    (by decide +kernel) fun unit _ hshape after hfollows => ?_
  have hshape := beq_iff_eq.mp hshape
  obtain ⟨a, _, hroot, ha, hrest⟩ := List.map_eq_cons_iff.mp hshape
  simp only [Prod.mk.injEq] at ha
  rw [hroot, List.map_eq_nil_iff.mp hrest, followsAll_one, follows_iff, ha.1] at hfollows
  obtain ⟨-, inner, hinside, -⟩ := hfollows
  obtain ⟨b, _, hb, hbshape, hrest⟩ := List.map_eq_cons_iff.mp ha.2
  obtain ⟨x, _, rfl, hxshape, hrest⟩ := List.map_eq_cons_iff.mp hrest
  simp only [Prod.mk.injEq] at hbshape hxshape
  rw [hb, List.map_eq_nil_iff.mp hrest, FollowsAll] at hinside
  obtain ⟨middle, hbfollows, hrest⟩ := hinside
  obtain ⟨_, hxfollows, -⟩ := hrest
  -- Behind the class there is its alias alone, which is hidden.
  have hmiddle : ∃ a : Alias, middle = [a] ∧ a.scope? = none := by
    obtain ⟨t, _, htchildren, ht, hrest⟩ := List.map_eq_cons_iff.mp hbshape.2.1
    rw [follows_iff, hbshape.1, htchildren, List.map_eq_nil_iff.mp hrest] at hbfollows
    obtain ⟨-, inner, hfollows, rfl⟩ := hbfollows
    simp only [Prod.mk.injEq] at ht
    rw [followsAll_one, follows_iff, ht.1] at hfollows
    obtain ⟨-, target, -, hinner⟩ := hfollows
    rw [List.append_nil] at hinner ⊢
    exact ⟨_, by rw [hinner]; rfl, rfl⟩
  obtain ⟨hidden, rfl, hscope⟩ := hmiddle
  have hnone : Alias.visible? [hidden] "T" [a.name] = none := by
    simp [Alias.visible?, Alias.lastIn?, hscope]
  obtain ⟨type, _, htypes, huses, -⟩ := List.map_eq_cons_iff.mp hxshape.2.2
  obtain ⟨use, _, huse, hused, -⟩ := List.map_eq_cons_iff.mp huses
  simp only [Prod.mk.injEq] at hused
  obtain ⟨hname, hsome⟩ := hused
  have hgood := (follows_iff.mp hxfollows).1 type (htypes ▸ List.mem_cons_self) use
    (huse ▸ List.mem_cons_self)
    (hname ▸ by unfold Unqualified; decide)
  rw [Usage.visible, hname, hnone] at hgood
  rw [hgood] at hsome
  cases hsome

end Header

end Interop
