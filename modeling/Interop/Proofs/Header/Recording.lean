import Interop.Proofs.Export.Origin
import Interop.Proofs.Header.Reading

namespace Interop

namespace Declaration

mutual

/-- The names of the types that a declaration defines, each with the namespaces and classes around
it, of which the outermost comes first. -/
def definitions (around : List String) : Declaration → List String
  | ⟨kind, name, _, _, _, flags, _, _, _, _, _, children⟩ =>
    let own := if flags.isDefinition then ["::".intercalate (around ++ [name])] else []
    match kind with
    | .nameSpace => definitionsAll (around ++ [name]) children
    | .classType => own ++ definitionsAll (around ++ [name]) children
    | .enumeration => own
    | .file | .linkage | .friend | .classTemplate => definitionsAll around children
    | _ => []

/-- The names of the types that several declarations define. -/
def definitionsAll (around : List String) : List Declaration → List String
  | [] => []
  | d :: rest => definitions around d ++ definitionsAll around rest

end

variable {inClass : Option String} {around : List String} {name : String} {d d' : Declaration}
  {ds ds' : List Declaration}

/-- The definitions of a declaration, by its kind. -/
theorem definitions_eq (around : List String) (d : Declaration) :
    d.definitions around =
      let own := if d.flags.isDefinition then ["::".intercalate (around ++ [d.name])] else []
      match d.kind with
      | .nameSpace => definitionsAll (around ++ [d.name]) d.children
      | .classType => own ++ definitionsAll (around ++ [d.name]) d.children
      | .enumeration => own
      | .file | .linkage | .friend | .classTemplate => definitionsAll around d.children
      | _ => [] := by
  cases d
  rw [definitions.eq_def]

/-- A name is defined by declarations if one of them defines it. -/
theorem mem_definitionsAll :
    name ∈ definitionsAll around ds ↔ ∃ d ∈ ds, name ∈ d.definitions around := by
  induction ds with
  | nil => simp [definitionsAll]
  | cons d rest ih => simp [definitionsAll, ih]

/-- Below declarations are those below one of them. -/
theorem mem_subtreeAll : d ∈ subtreeAll ds ↔ ∃ outer ∈ ds, d ∈ outer.subtree := by
  induction ds with
  | nil => simp [subtreeAll]
  | cons outer rest ih => simp [subtreeAll, ih]

/-- What holds of a declaration and of all below its children holds of its whole subtree. -/
theorem forall_mem_subtree {P : Declaration → Prop} :
    (∀ inner ∈ d.subtree, P inner) ↔ P d ∧ ∀ c ∈ d.children, ∀ inner ∈ c.subtree, P inner := by
  rw [subtree_eq]
  simp only [List.mem_cons, forall_eq_or_imp, mem_subtreeAll]
  exact and_congr_right fun _ => ⟨fun h c hc inner hinner => h inner ⟨c, hc, hinner⟩,
      fun h inner ⟨c, hc, hinner⟩ =>
    h c hc inner hinner⟩

/-- The name of no class that a header declares has a dot in it. -/
theorem Form.undotted (h : d.Form inClass) :
    ∀ inner ∈ d.subtree, inner.kind = .classType → Header.Undotted inner.name := by
  induction h with
  | bare hkind hbare =>
    refine forall_mem_subtree.mpr ⟨fun hclass => ?_, by simp [hbare]⟩
    rw [hclass] at hkind
    cases hkind
  | enumeration hkind h =>
    refine forall_mem_subtree.mpr ⟨fun hclass => ?_,
      fun c hc => forall_mem_subtree.mpr ⟨fun hclass => ?_, ?_⟩⟩
    · rw [hkind] at hclass
      cases hclass
    · rw [(h c hc).1] at hclass
      cases hclass
    · simp [(h c hc).2.1]
  | nameSpace hkind _ _ _ ih =>
    refine forall_mem_subtree.mpr ⟨fun hclass => ?_, ih⟩
    rw [hkind] at hclass
    cases hclass
  | group hkind _ _ ih =>
    refine forall_mem_subtree.mpr ⟨fun hclass => ?_, ih⟩
    rcases hkind with hkind | hkind <;> rw [hkind] at hclass <;> cases hclass
  | wrapper hkind _ ih =>
    refine forall_mem_subtree.mpr ⟨fun hclass => ?_, ih⟩
    rcases hkind with hkind | hkind | hkind <;> rw [hkind] at hclass <;> cases hclass
  | classType _ hname _ _ ih => exact forall_mem_subtree.mpr ⟨fun _ => hname, ih⟩

/-- Whether a declaration stands for something that its header declares and that is missing below
it: what could not be read, or the members of a specialization. -/
def isLost (d : Declaration) : Bool :=
  d.kind == .classSpecialization || d.kind == .unexposed && d.name == ""

/-- Whether nothing is missing in a declaration. -/
def Complete (d : Declaration) : Prop :=
  ∀ inner ∈ d.subtree, inner.isLost = false

/-- Whether nothing is missing in several declarations. -/
def AllComplete (ds : List Declaration) : Prop :=
  ∀ d ∈ ds, d.Complete

/-- A declaration is complete if it is not lost and its children are complete. -/
theorem complete_iff : d.Complete ↔ d.isLost = false ∧ AllComplete d.children :=
  forall_mem_subtree

/-- The names that reading something records, the first one first, up to the first thing that is
missing in it, and whether nothing is missing. -/
structure Record where
  names : List String := []
  isWhole : Bool := true

namespace Record

variable {r r' r'' : Record}

/-- The record of two readings, one behind the other. -/
def append (r r' : Record) : Record :=
  if r.isWhole then ⟨r.names ++ r'.names, r'.isWhole⟩ else r

theorem empty_append (r : Record) : append {} r = r :=
  rfl

theorem append_empty (r : Record) : r.append {} = r := by
  obtain ⟨names, isWhole⟩ := r
  cases isWhole <;> simp [append]

/-- Records are put together in any grouping. A record that has stopped takes nothing more. -/
theorem append_assoc (r r' r'' : Record) : (r.append r').append r'' = r.append (r'.append r'') := by
  unfold append
  cases hwhole : r.isWhole <;> cases hwhole' : r'.isWhole <;> simp [hwhole, hwhole']

/-- Two records are whole together if both are. -/
theorem isWhole_append : (r.append r').isWhole = true ↔ r.isWhole = true ∧ r'.isWhole = true := by
  unfold append
  cases hwhole : r.isWhole <;> simp [hwhole]

/-- Putting records together adds no names. -/
theorem mem_names_append {name : String} (h : name ∈ (r.append r').names) :
    name ∈ r.names ∨ name ∈ r'.names := by
  unfold append at h
  split at h
  · exact List.mem_append.mp h
  · exact .inl h

/-- Whether a record is another one, or stops earlier. -/
def Within (r r' : Record) : Prop :=
  r.names <+: r'.names ∧ (r.isWhole = true → r = r')

theorem Within.refl (r : Record) : r.Within r :=
  ⟨List.prefix_rfl, fun _ => rfl⟩

/-- An empty record that has stopped is within each one. -/
theorem within_of_stopped (r : Record) : Within ⟨[], false⟩ r :=
  ⟨List.nil_prefix, nofun⟩

theorem within_empty (h : r.names = []) : r.Within {} := by
  obtain ⟨names, isWhole⟩ := r
  obtain rfl : names = [] := h
  exact ⟨List.prefix_rfl, fun hwhole => congrArg (Record.mk []) hwhole⟩

/-- Records within others are so together. -/
theorem Within.append (h : r.Within r') {s s' : Record} (h' : s.Within s') :
    (r.append s).Within (r'.append s') := by
  obtain ⟨hnames, hwhole⟩ := h
  unfold Record.append
  split
  · rename_i hr
    obtain rfl := hwhole hr
    rw [if_pos hr]
    refine ⟨(List.prefix_append_right_inj _).mpr h'.1, fun hs => ?_⟩
    rw [h'.2 hs]
  · rename_i hr
    refine ⟨hnames.trans ?_, fun hfalse => absurd hfalse hr⟩
    split
    · exact List.prefix_append ..
    · exact List.prefix_rfl

end Record

mutual

/-- What reading a declaration records. A type is recorded when its body has been read. -/
def noted (around : List String) : Declaration → Record
  | ⟨kind, name, _, _, _, flags, _, _, _, _, _, children⟩ =>
    let own : Record := ⟨if flags.isDefinition && name !=
      "" then ["::".intercalate (around ++ [name])] else [], true⟩
    match kind with
    | .nameSpace => notedAll (around ++ [name]) children
    | .classType => (notedAll (around ++ [name]) children).append own
    | .enumeration => own
    | .file | .linkage | .friend | .classTemplate => notedAll around children
    | .classSpecialization => ⟨[], false⟩
    | .unexposed => ⟨[], name != ""⟩
    | _ => {}

/-- What reading several declarations records. -/
def notedAll (around : List String) : List Declaration → Record
  | [] => {}
  | d :: rest => (noted around d).append (notedAll around rest)

end

/-- What a declaration notes, by its kind. -/
theorem noted_eq (around : List String) (d : Declaration) :
    d.noted around =
      let own : Record :=
        ⟨if d.flags.isDefinition && d.name != "" then ["::".intercalate (around ++ [d.name])]
          else [], true⟩
      match d.kind with
      | .nameSpace => notedAll (around ++ [d.name]) d.children
      | .classType => (notedAll (around ++ [d.name]) d.children).append own
      | .enumeration => own
      | .file | .linkage | .friend | .classTemplate => notedAll around d.children
      | .classSpecialization => ⟨[], false⟩
      | .unexposed => ⟨[], d.name != ""⟩
      | _ => {} := by
  cases d
  rw [noted.eq_def]

/-- Declarations behind others note what they note behind that. -/
theorem notedAll_append :
    notedAll around (ds ++ ds') = (notedAll around ds).append (notedAll around ds') := by
  induction ds with
  | nil => exact (Record.empty_append _).symm
  | cons d rest ih => rw [List.cons_append, notedAll, notedAll, ih, Record.append_assoc]

theorem notedAll_one : notedAll around [d] = d.noted around := by
  rw [notedAll, notedAll, Record.append_empty]

/-- What a declaration notes depends on its kind, name, flags and children only. -/
theorem noted_change (hkind : d'.kind = d.kind) (hname : d'.name = d.name)
    (hflags : d'.flags = d.flags) (hchildren : d'.children = d.children) :
    d'.noted around = d.noted around := by
  rw [noted_eq, noted_eq, hkind, hname, hflags, hchildren]

theorem noted_wrapped (isTemplated isFriended : Bool) :
    ({ d with isTemplated, isFriended } : Declaration).noted around = d.noted around :=
  noted_change rfl rfl rfl rfl

/-- A change of declarations that keeps what each notes keeps what all do. -/
theorem notedAll_map {f : Declaration → Declaration}
    (hf : ∀ d, (f d).noted around = d.noted around) :
    notedAll around (ds.map f) = notedAll around ds := by
  induction ds with
  | nil => rfl
  | cons d rest ih => rw [List.map_cons, notedAll, notedAll, hf, ih]

/-- What holds nothing records nothing. -/
theorem Bare.noted (h : d.Bare inClass) : (d.noted around).names = [] := by
  have hkind := h.kind
  rw [noted_eq, h.children]
  cases hk : d.kind <;> rw [hk] at hkind <;> first | rfl | (simp [notedAll]; done) | cases hkind

/-- Declarations without types in them note no names. -/
theorem AllBare.noted (h : AllBare inClass ds) : (notedAll around ds).names = [] := by
  induction ds with
  | nil => rw [notedAll]
  | cons d rest ih =>
    obtain ⟨hd, hrest⟩ := List.forall_mem_cons.mp h
    rw [notedAll, Record.append]
    split
    · simp [hd.noted, ih hrest]
    · exact hd.noted

/-- A change of declarations that makes each stop earlier, or not at all, makes all do so. -/
theorem notedAll_within {f : Declaration → Declaration}
    (hf : ∀ d ∈ ds, ((f d).noted around).Within (d.noted around)) :
    (notedAll around (ds.map f)).Within (notedAll around ds) := by
  induction ds with
  | nil => exact .refl _
  | cons d rest ih =>
    obtain ⟨hd, hrest⟩ := List.forall_mem_cons.mp hf
    rw [List.map_cons, notedAll, notedAll]
    exact hd.append (ih hrest)

mutual

/-- What is recorded before anything is missing are names of definitions. -/
theorem definitions_of_noted : (d : Declaration) → (around : List String) →
    (d.noted around).names ⊆ d.definitions around
  | ⟨kind, name, access, isTemplated, isFriended, flags, type?, returnType?, parameters, value?,
      line, children⟩, around => by
    have hown : ((if flags.isDefinition && name != "" then ["::".intercalate (around ++ [name])]
      else []) : List String) ⊆
        if flags.isDefinition then ["::".intercalate (around ++ [name])] else [] := by
      cases flags.isDefinition <;> cases name != "" <;> simp
    rw [noted_eq, definitions_eq]
    cases kind with
    | nameSpace => exact definitions_of_notedAll children _
    | classType =>
      intro other hother
      rcases Record.mem_names_append hother with hinner | hother
      · exact List.mem_append_right _ (definitions_of_notedAll children _ hinner)
      · exact List.mem_append_left _ (hown hother)
    | enumeration => exact hown
    | file | linkage | friend | classTemplate => exact definitions_of_notedAll children _
    | _ => exact List.nil_subset _

/-- What is noted is defined. -/
theorem definitions_of_notedAll : (ds : List Declaration) → (around : List String) →
    (notedAll around ds).names ⊆ definitionsAll around ds
  | [], _ => by
    rw [notedAll]
    exact List.nil_subset _
  | d :: rest, around => by
    intro name hname
    rw [notedAll] at hname
    rw [definitionsAll, List.mem_append]
    exact (Record.mem_names_append hname).imp (definitions_of_noted d around ·)
      (definitions_of_notedAll rest around ·)

end

mutual

/-- Where nothing is missing, all is recorded. -/
theorem isWhole_noted :
    (d : Declaration) → (around : List String) → d.Complete → (d.noted around).isWhole = true
  | ⟨kind, name, access, isTemplated, isFriended, flags, type?, returnType?, parameters, value?,
      line, children⟩, around, h => by
    obtain ⟨hkept, hchildren⟩ := complete_iff.mp h
    rw [noted_eq]
    cases kind with
    | nameSpace | file | linkage | friend | classTemplate =>
      exact isWhole_notedAll children _ hchildren
    | classType => exact Record.isWhole_append.mpr ⟨isWhole_notedAll children _ hchildren, rfl⟩
    | classSpecialization => cases hkept
    | unexposed =>
      simp only [isLost] at hkept
      simpa using hkept
    | _ => rfl

/-- Complete declarations are noted as a whole. -/
theorem isWhole_notedAll : (ds : List Declaration) → (around : List String) → AllComplete ds →
    (notedAll around ds).isWhole = true
  | [], _, _ => by rw [notedAll]
  | d :: rest, around, h => by
    obtain ⟨hd, hrest⟩ := List.forall_mem_cons.mp h
    rw [notedAll, Record.isWhole_append]
    exact ⟨isWhole_noted d around hd, isWhole_notedAll rest around hrest⟩

end

/-- Whether several declarations are well-formed, and none of them stands for its children only. -/
def AllFormed (inClass : Option String) (ds : List Declaration) : Prop :=
  ∀ d ∈ ds, d.isProxy = false ∧ d.Form inClass

/-- Declarations without types in them are well-formed. -/
theorem AllBare.formed (h : AllBare inClass ds) : AllFormed inClass ds :=
  fun d hd => ⟨(h d hd).proxy, (h d hd).form⟩

theorem AllFormed.append (h : AllFormed inClass ds) (h' : AllFormed inClass ds') :
    AllFormed inClass (ds ++ ds') :=
  List.forall_mem_append.mpr ⟨h, h'⟩

theorem AllFormed.one (hproxy : d.isProxy = false) (h : d.Form inClass) : AllFormed inClass [d] :=
  fun _ hd => List.mem_singleton.mp hd ▸ ⟨hproxy, h⟩

end Declaration

namespace Header.Parser

open Declaration

variable {inClass : Option String} {scope defined : List String} {d : Declaration}
    {ds ds' : List Declaration}

/-- Whether reading something has recorded at least the names of `r` behind those before it, and, if
nothing is missing, no more than these, with all scopes left that have been entered. What comes last
is recorded first. -/
def Records (r : Record) (scope defined scope' defined' : List String) : Prop :=
  ∃ more, defined' = more ++ r.names.reverse ++ defined ∧
    (r.isWhole = true → more = [] ∧ scope' = scope)

section Records

variable {r r' : Record} {scope' defined' scope'' defined'' : List String}

/-- A record that stops earlier is recorded as well. -/
theorem Records.within (h : Records r scope defined scope' defined') (hwithin : r'.Within r) :
    Records r' scope defined scope' defined' := by
  obtain ⟨more, rfl, hwhole⟩ := h
  obtain ⟨⟨later, hlater⟩, heq⟩ := hwithin
  refine ⟨more ++ later.reverse, by simp [← hlater], fun hr' => ?_⟩
  obtain rfl := heq hr'
  obtain ⟨rfl, hscope⟩ := hwhole hr'
  rw [List.append_right_eq_self.mp hlater]
  exact ⟨rfl, hscope⟩

/-- Where something is missing nothing more is known than that what was recorded stays recorded. -/
theorem Records.append (h : Records r scope defined scope' defined')
    (h' : ∀ around, around = scope'.reverse →
      Records (notedAll around ds) scope' defined' scope'' defined'') :
    Records (r.append (notedAll scope.reverse ds)) scope defined scope'' defined'' := by
  obtain ⟨more, rfl, hwhole⟩ := h
  obtain ⟨more', rfl, hwhole'⟩ := h' _ rfl
  unfold Record.append
  split
  · rename_i hr
    obtain ⟨rfl, rfl⟩ := hwhole hr
    exact ⟨more', by simp, hwhole'⟩
  · rename_i hr
    exact ⟨more' ++ (notedAll scope'.reverse ds).names.reverse ++ more, by simp,
      fun hfalse => absurd hfalse hr⟩

/-- Scopes are left that have been entered. -/
theorem Records.leaving (names : List String)
    (h : Records r (names.reverse ++ scope) defined scope' defined') :
    Records r scope defined (scope'.drop names.length) defined' := by
  obtain ⟨more, hdefined, hwhole⟩ := h
  refine ⟨more, hdefined, fun hr => ?_⟩
  obtain ⟨hmore, hscope⟩ := hwhole hr
  refine ⟨hmore, ?_⟩
  rw [hscope]
  exact List.drop_left' (List.length_reverse ..)

/-- A name is recorded with the scopes that have been left open. -/
theorem Records.define (h : Records r scope defined scope' defined') (name : String) :
    Records (r.append ⟨["::".intercalate (scope.reverse ++ [name])], true⟩) scope defined scope'
      ("::".intercalate (scope'.reverse ++ [name]) :: defined') := by
  obtain ⟨more, rfl, hwhole⟩ := h
  unfold Record.append
  split
  · rename_i hr
    obtain ⟨rfl, rfl⟩ := hwhole hr
    exact ⟨[], by simp, fun _ => ⟨rfl, rfl⟩⟩
  · rename_i hr
    exact ⟨"::".intercalate (scope'.reverse ++ [name]) :: more, by simp,
      fun hfalse => absurd hfalse hr⟩

end Records

/-- What holds of the scopes and the recorded names when declarations have been read. -/
def Declared (inClass : Option String) (scope defined : List String) (ds : List Declaration)
    (scope' defined' : List String) : Prop :=
  AllFormed inClass ds ∧ Records (notedAll scope.reverse ds) scope defined scope' defined'

section Declared

variable {scope' defined' scope'' defined'' : List String}

/-- Declarations without types in them record nothing and stay in their scope. -/
theorem Declared.bare (h : AllBare inClass ds) :
    Declared inClass scope defined ds scope defined := by
  refine ⟨h.formed, [], ?_, fun _ => ⟨rfl, rfl⟩⟩
  rw [h.noted]
  rfl

/-- Declarations that are read one after the other. -/
theorem Declared.append (h : Declared inClass scope defined ds scope' defined')
    (h' : Declared inClass scope' defined' ds' scope'' defined'') :
    Declared inClass scope defined (ds ++ ds') scope'' defined'' := by
  refine ⟨h.1.append h'.1, ?_⟩
  rw [notedAll_append]
  exact h.2.append fun _ haround => haround ▸ h'.2

/-- What has been read may be changed where nothing is recorded earlier than it was. -/
theorem Declared.map (h : Declared inClass scope defined ds scope' defined')
    {f : Declaration → Declaration}
    (hform : ∀ d : Declaration, d.isProxy = false → d.Form inClass → (f d).isProxy = false ∧
      (f d).Form inClass)
    (hnoted : ∀ d : Declaration, d.Form inClass → ∀ around,
      ((f d).noted around).Within (d.noted around)) :
    Declared inClass scope defined (ds.map f) scope' defined' :=
  ⟨List.forall_mem_map.mpr fun d hd => hform d (h.1 d hd).1 (h.1 d hd).2,
    h.2.within (notedAll_within fun d hd => hnoted d (h.1 d hd).2 _)⟩

/-- Changing what the record does not depend on keeps it. -/
theorem Declared.change (h : Declared inClass scope defined ds scope' defined')
    {f : Declaration → Declaration} (hkind : ∀ d, (f d).kind = d.kind)
    (hname : ∀ d, (f d).name = d.name) (hflags : ∀ d, (f d).flags = d.flags)
    (hchildren : ∀ d, (f d).children = d.children) (hproxy : ∀ d, (f d).isProxy = d.isProxy) :
    Declared inClass scope defined (ds.map f) scope' defined' := by
  refine h.map (fun d hp hform => ⟨(hproxy d).trans hp,
    hform.change (hkind d) (hname d) (hchildren d)⟩) fun d _ around => ?_
  rw [noted_change (hkind d) (hname d) (hflags d) (hchildren d)]
  exact .refl _

/-- A declaration that holds what has been read. -/
theorem Declared.hold {outer : Declaration} (h : Declared inClass scope defined ds scope' defined')
    (hproxy : outer.isProxy = false) (hform : outer.Form inClass)
    (hnoted : ∀ around, outer.noted around = notedAll around ds) :
    Declared inClass scope defined [outer] scope' defined' := by
  refine ⟨.one hproxy hform, ?_⟩
  rw [notedAll_one, hnoted]
  exact h.2

/-- In the place of something that is given up anything may have been recorded. -/
theorem Declared.lost {more : List String} (hbare : d.Bare inClass) (hlost : d.isLost = true) :
    Declared inClass scope defined [d] scope' (more ++ defined) := by
  refine ⟨hbare.one.formed, more, ?_, fun hwhole => ?_⟩
  · rw [hbare.one.noted]
    simp
  · rw [notedAll_one, noted_eq] at hwhole
    unfold isLost at hlost
    cases hkind : d.kind <;> simp [hkind] at hlost hwhole
    exact absurd hlost hwhole

end Declared

/-- Namespaces that are opened at once note what the innermost one holds, with all of their names
around it. -/
theorem notedAll_nestedNamespaces {children : List Declaration} (names : List String) :
    ∀ around, notedAll around (nestedNamespaces children names) = notedAll (around ++
      names) children := by
  induction names with
  | nil => exact fun around => by rw [nestedNamespaces, List.append_nil]
  | cons name rest ih =>
    intro around
    rw [nestedNamespaces, notedAll_one, noted_eq]
    simp only
    rw [ih, List.append_assoc, List.singleton_append]

/-- Namespaces that are opened at once are well-formed, as no part of their names has dots. -/
theorem formed_nestedNamespaces {children : List Declaration} (h : AllFormed none children)
    {names : List String} (hsimple : ∀ name ∈ names, Simple name) :
    AllFormed none (nestedNamespaces children names) := by
  induction names with
  | nil => exact h
  | cons name rest ih =>
    obtain ⟨hname, hrest⟩ := List.forall_mem_cons.mp hsimple
    exact .one rfl (.nameSpace rfl hname (fun c hc => (ih hrest c hc).1) fun c hc =>
      (ih hrest c hc).2)

/-- The namespaces around what has been read inside of them. -/
theorem Declared.nameSpace {M : Memory} {children : List Declaration}
    {scope' defined' : List String} {names : List String}
    (h : Declared none (M.entering names).scope M.defined children scope' defined')
    (hnames : names ≠ []) (hsimple : ∀ name ∈ names, Simple name) :
    Declared inClass M.scope M.defined (nestedNamespaces children names)
      (scope'.drop names.length) defined' := by
  constructor
  · cases names with
    | nil => exact absurd rfl hnames
    | cons name rest =>
      obtain ⟨hname, hothers⟩ := List.forall_mem_cons.mp hsimple
      have hrest := formed_nestedNamespaces h.1 hothers
      exact .one rfl (.nameSpace rfl hname (fun c hc => (hrest c hc).1) fun c hc => (hrest c hc).2)
  · have hinner := h.2
    rw [Memory.entering, List.reverse_append, List.reverse_reverse] at hinner
    rw [notedAll_nestedNamespaces]
    exact hinner.leaving _

/-- The kinds of templates, of which the first two hold what they wrap. -/
theorem cases_of_templateKind? {isSpecialization : Bool} {kind kind' : Kind}
    (h : templateKind? isSpecialization kind = some kind') :
    kind' = .classTemplate ∨ kind' = .functionTemplate ∨ kind' = .classSpecialization ∨
      kind' = .aliasTemplate ∨ kind' = .functionSpecialization ∨ kind' = .variableTemplate := by
  unfold templateKind? at h
  grind

/-- The form of what stands alone is kept in a template, and what a template drops holds nothing. -/
theorem templated_form {parameters : List Declaration} (hparameters : AllBare inClass parameters)
    (hproxy : d.isProxy = false) (h : d.Form inClass) :
    (templated parameters d).isProxy = false ∧ (templated parameters d).Form inClass := by
  unfold templated
  cases hkind : templateKind? parameters.isEmpty d.kind with
  | none => exact ⟨hproxy, h⟩
  | some kind =>
    refine ⟨rfl, ?_⟩
    simp only
    have hwrapped : ∀ c ∈ parameters ++ [{ d with isTemplated := true }], c.Form inClass := by
      intro c hc
      rcases List.mem_append.mp hc with hc | hc
      · exact (hparameters c hc).form
      · rw [List.mem_singleton.mp hc]
        exact h.change rfl rfl rfl
    rcases cases_of_templateKind? hkind with rfl | rfl | rfl | rfl | rfl | rfl
    · exact .wrapper (.inr (.inl rfl)) hwrapped
    · exact .wrapper (.inr (.inr rfl)) hwrapped
    all_goals exact .bare rfl rfl

/-- What a template wraps is a class, or something that holds nothing and defines no type. -/
theorem templateKind?_cases {isSpecialization : Bool} {kind kind' : Kind}
    (h : templateKind? isSpecialization kind = some kind') :
    kind' = .classTemplate ∨ kind' = .classSpecialization ∨
      (kind = .typeAlias ∨ kind.isFunction = true ∨ kind.isVariable = true) := by
  unfold templateKind? at h
  grind

/-- Aliases, functions and variables note nothing. -/
theorem noted_of_plain
    (hkind : d.kind = .typeAlias ∨ d.kind.isFunction = true ∨ d.kind.isVariable = true)
    (around : List String) : d.noted around = {} := by
  rw [noted_eq]
  cases hk : d.kind <;> rw [hk] at hkind <;>
    first | rfl | (rcases hkind with hk | hk | hk <;> cases hk)

/-- A template records what it wraps, or what it wraps is missing. -/
theorem templated_noted {parameters : List Declaration} (hparameters : AllBare inClass parameters)
    (around : List String) : ((templated parameters d).noted around).Within (d.noted around) := by
  unfold templated
  cases hkind : templateKind? parameters.isEmpty d.kind with
  | none => exact .refl _
  | some kind =>
    simp only
    rw [noted_eq]
    have hplain := templateKind?_cases hkind
    rcases cases_of_templateKind? hkind with rfl | rfl | rfl | rfl | rfl | rfl
    · simp only [Kind.isContainer, if_true]
      rw [notedAll_append, notedAll_one, noted_wrapped]
      exact (Record.within_empty hparameters.noted).append (.refl (d.noted around))
    case inr.inr.inl => exact Record.within_of_stopped _
    all_goals
      rw [noted_of_plain (hplain.resolve_left nofun |>.resolve_left nofun)]
      exact .refl _

/-- A class around what has been read inside of it. -/
theorem Declared.classType {M M' : Memory} {kind : Kind} {name : String} {line : Nat}
    {bases members : List Declaration} (hkind : kind = .classType ∨ kind = .classSpecialization)
    (hname : Undotted name) (hbases : AllBare (some name) bases)
    (h : Declared (some name) (M.entering [name]).scope M.defined members M'.scope M'.defined) :
    Declared inClass M.scope M.defined
      [{ kind, name, line, flags := { isDefinition := true }, children := bases ++ members }]
      (if kind = .classType ∧ name ≠ "" then (M'.leaving 1).withDefinition name
        else M'.leaving 1).scope
      (if kind = .classType ∧ name ≠ "" then (M'.leaving 1).withDefinition name
          else M'.leaving 1).defined := by
  have hinside := hbases.formed.append h.1
  refine ⟨.one rfl (.classType hkind hname (fun c hc => (hinside c hc).1) fun c hc =>
    (hinside c hc).2), ?_⟩
  have hleft : Records (notedAll (M.scope.reverse ++ [name]) members) M.scope M.defined
      (M'.leaving 1).scope M'.defined := by
    have hmembers := h.2
    rw [Memory.entering, List.reverse_append, List.reverse_reverse] at hmembers
    exact hmembers.leaving [name]
  rw [notedAll_one, noted_eq]
  rcases hkind with rfl | rfl
  · have hall : Records (notedAll (M.scope.reverse ++ [name]) (bases ++ members)) M.scope M.defined
        (M'.leaving 1).scope
        M'.defined := by
      rw [notedAll_append]
      exact hleft.within ((Record.within_empty hbases.noted).append (.refl (notedAll _ members)))
    by_cases hempty : name = ""
    · subst hempty
      rw [← Record.append_empty (notedAll (M.scope.reverse ++ [""]) (bases ++ members))] at hall
      exact hall
    · simp only [ne_eq, hempty, not_false_eq_true, and_self, if_true, bne_iff_ne, Bool.true_and]
      exact hall.define name
  · -- the members of a specialization are missing, whatever has been recorded for them
    exact hleft.within (Record.within_of_stopped _)

/-- Reading keeps the scopes and records definitions only, as long as nothing is given up. -/
theorem declared_kept :
    Kept (fun inClass M ds M' => Declared inClass M.scope M.defined ds M'.scope M'.defined)
      fun M M' => M.defined <:+ M'.defined where
  leaves h := .bare h.bare
  append := Declared.append
  relocate hf h := by
    refine h.change ?_ ?_ ?_ ?_ ?_ <;> intro d <;> obtain ⟨access, line, hd⟩ := hf d <;> rw [hd]
    rfl
  lost h := by
    obtain ⟨more, hmore⟩ := h
    rw [← hmore]
    exact .lost ⟨rfl, rfl, rfl⟩ rfl
  typeAlias _ _ := .bare (Bare.one ⟨rfl, rfl, rfl⟩)
  enumeration {inClass M name type? line isScoped children} _ hchildren := by
    have hform : Form inClass { kind := .enumeration, name, type?, line, children
                                flags := { isScoped, isDefinition := true } } :=
      .enumeration rfl fun c hc => ⟨(hchildren c hc).kind, (hchildren c hc).children,
        (hchildren c hc).proxy⟩
    refine ⟨.one rfl hform, [], ?_⟩
    rw [notedAll_one, noted_eq]
    by_cases hempty : name = ""
    · simp [hempty]
    · simp [hempty, Memory.withDefinition, Memory.full]
  nameSpace hnames hsimple h := h.nameSpace hnames hsimple
  linkage {inClass M M' name children} h := by
    refine h.hold rfl (.group (.inr rfl) (fun c hc => (h.1 c hc).1) fun c hc =>
      (h.1 c hc).2) fun around => ?_
    rw [noted_eq]
  template hparameters h :=
    h.map (fun _ => templated_form fun p hp => (hparameters p hp).bare)
      fun _ _ => templated_noted fun p hp => (hparameters p hp).bare
  friend {inClass M M' name ds} h := by
    have hfriended : ∀ c ∈ ds.map ({ · with isFriended := true }), c.Form inClass := by
      intro c hc
      obtain ⟨d, hd, rfl⟩ := List.mem_map.mp hc
      exact (h.1 d hd).2.change rfl rfl rfl
    refine h.hold rfl (.wrapper (.inl rfl) hfriended) fun around => ?_
    rw [noted_eq]
    exact notedAll_map fun d => noted_wrapped d.isTemplated true
  classType hkind hname hbases h := h.classType hkind hname hbases.bare
  refl := List.suffix_rfl
  behind {inClass M M' M'' ds} h h' := by
    obtain ⟨more, hdefined, -⟩ := h.2
    exact (List.suffix_append _ _).trans (hdefined ▸ h')
  entered := List.suffix_rfl
  left h := h
  recorded h := h.trans (List.suffix_cons ..)

end Header.Parser

end Interop
