import Interop.Files.Tree
import Mathlib.Data.List.Basic
import Mathlib.Logic.Relation

namespace Interop.FileTree

variable {t t' t'' : FileTree} {at_ key loc : Location} {entry : FileEntry} {content : Content}
    {path directory : Path}
  {written : Location → Prop}

/-- Only the root is there without an entry. -/
theorem entry?_of_ne_nil (h : at_ ≠ []) : t.entry? at_ = t.entries.lookup at_ := by
  unfold entry?
  rw [if_neg (by simpa using h)]

theorem isDirectory_iff : t.isDirectory at_ = true ↔ t.entry? at_ = some .directory :=
  beq_iff_eq

theorem lookup_filter_ne {entries : List (Location × FileEntry)} (hne : key ≠ at_) :
    (entries.filter (·.1 != at_)).lookup key = entries.lookup key := by
  induction entries with
  | nil => rfl
  | cons e rest ih =>
    by_cases he : e.1 = at_
    · have hkey : (key == e.1) = false := beq_eq_false_iff_ne.mpr (he ▸ hne)
      rw [List.filter_cons_of_neg (by simp [he]), ih, List.lookup_cons, hkey]
    · rw [List.filter_cons_of_pos (by simp [he]), List.lookup_cons, List.lookup_cons, ih]

theorem lookup_filter_self (entries : List (Location × FileEntry)) :
    (entries.filter (·.1 != at_)).lookup at_ = none := by
  rw [List.lookup_eq_none_iff]
  intro e he
  have hne : e.1 ≠ at_ := bne_iff_ne.mp (List.mem_filter.mp he).2
  simpa using Ne.symm hne

/-- Only what is at the location changes. The root is never replaced. -/
theorem entry?_set (hat : at_ ≠ []) (t : FileTree) (entry : FileEntry) (key : Location) :
    entry? (t.set at_ entry) key = if key = at_ then some entry else t.entry? key := by
  by_cases hkey : key = []
  · subst hkey
    rw [if_neg (Ne.symm hat)]
    rfl
  · rw [entry?_of_ne_nil hkey, set, List.lookup_append]
    by_cases heq : key = at_
    · subst heq
      rw [lookup_filter_self, if_pos rfl]
      simp
    · rw [lookup_filter_ne heq, if_neg heq, entry?_of_ne_nil hkey]
      have hnone : [(at_, entry)].lookup key = none := by simp [heq]
      rw [hnone, Option.or_none]

/-- Whether directories are still directories, and files still files. -/
structure Kept (t t' : FileTree) : Prop where
  directories : ∀ at_, t.isDirectory at_ = true → t'.isDirectory at_ = true
  files : ∀ at_ content, t.entry? at_ = some (.file content) →
    ∃ content', t'.entry? at_ = some (.file content')

namespace Kept

theorem refl (t : FileTree) : t.Kept t :=
  ⟨fun _ h => h, fun _ content h => ⟨content, h⟩⟩

/-- What is kept by two changes is kept by both together. -/
theorem trans (h : t.Kept t') (h' : t'.Kept t'') : t.Kept t'' := by
  refine ⟨fun at_ hat => h'.directories at_ (h.directories at_ hat), fun at_ content hat => ?_⟩
  obtain ⟨content', hat⟩ := h.files at_ content hat
  exact h'.files at_ content' hat

/-- A tree that has the same entries keeps everything. -/
theorem of_entry? (h : ∀ at_, t'.entry? at_ = t.entry? at_) : t.Kept t' := by
  refine ⟨fun at_ hat => ?_, fun at_ content hat => ⟨content, (h at_).trans hat⟩⟩
  rw [isDirectory_iff] at hat ⊢
  exact (h at_).trans hat

/-- A step leads to the same location. -/
theorem step? {name : String} (h : t.Kept t') (hstep : t.step? at_ name = some key) :
    t'.step? at_ name = some key := by
  unfold FileTree.step? at hstep ⊢
  cases hat : t.isDirectory at_ with
  | false =>
    rw [hat] at hstep
    cases hstep
  | true =>
    rw [hat] at hstep
    rw [h.directories at_ hat]
    exact hstep

/-- A walk along names leads to the same place in a tree that keeps the first one. -/
theorem foldlM_step? {pieces : List (List Char)} (h : t.Kept t')
    (hwalk : pieces.foldlM (fun at_ name => t.step? at_ (String.ofList name)) at_ = some key) :
    pieces.foldlM (fun at_ name => t'.step? at_ (String.ofList name)) at_ = some key := by
  induction pieces generalizing at_ with
  | nil => exact hwalk
  | cons piece rest ih =>
    rw [List.foldlM_cons] at hwalk ⊢
    obtain ⟨next, hstep, hrest⟩ := Option.bind_eq_some_iff.mp hwalk
    exact Option.bind_eq_some_iff.mpr ⟨next, h.step? hstep, ih hrest⟩

/-- A path leads to the same location. -/
theorem locate? (h : t.Kept t') (hlocate : t.locate? path = some at_) :
    t'.locate? path = some at_ := by
  unfold FileTree.locate? at hlocate ⊢
  split at hlocate
  · rw [if_pos ‹_›]
    exact h.foldlM_step? hlocate
  · cases hlocate

end Kept

/-- One change: a directory is made, or a file is written at one of some locations. -/
inductive Change (written : Location → Prop) (t : FileTree) : FileTree → Prop
  | make {at_ : Location} (hfree : t.entry? at_ = none) : Change written t (t.set at_ .directory)
  | write {at_ : Location} {content : Content} (hfree : t.isDirectory at_ = false)
      (hwritten : written at_) :
      Change written t (t.set at_ (.file content))

/-- Any number of changes. -/
abbrev Changes (written : Location → Prop) : FileTree → FileTree → Prop :=
  Relation.ReflTransGen (Change written)

theorem ne_nil_of_free (h : t.entry? at_ = none ∨ t.isDirectory at_ = false) : at_ ≠ [] := by
  rintro rfl
  rcases h with h | h <;> cases h

/-- A change removes nothing that is there. -/
theorem Change.kept (h : Change written t t') : t.Kept t' := by
  cases h with
  | @make at_ hfree =>
    have hset := entry?_set (ne_nil_of_free (.inl hfree)) t .directory
    refine ⟨fun key hkey => ?_, fun key content hkey => ?_⟩
    · rw [isDirectory_iff] at hkey ⊢
      rw [hset]
      split
      · rfl
      · exact hkey
    · refine ⟨content, ?_⟩
      rw [hset, if_neg, hkey]
      rintro rfl
      rw [hfree] at hkey
      cases hkey
  | @write at_ content hfree =>
    have hset := entry?_set (ne_nil_of_free (.inr hfree)) t (.file content)
    refine ⟨fun key hkey => ?_, fun key old hkey => ?_⟩
    · have hne : key ≠ at_ := by
        rintro rfl
        rw [hfree] at hkey
        cases hkey
      rw [isDirectory_iff] at hkey ⊢
      rw [hset, if_neg hne, hkey]
    · rw [hset]
      split
      · exact ⟨content, rfl⟩
      · exact ⟨old, hkey⟩

/-- A file may be written where there is no directory. -/
theorem Kept.set_file (hfree : t.isDirectory at_ = false) : t.Kept (t.set at_ (.file content)) :=
  (show Change (fun _ => True) t _ from .write hfree trivial).kept

/-- Changes remove nothing that is there. -/
theorem Changes.kept (h : Changes written t t') : t.Kept t' := by
  induction h with
  | refl => exact .refl t
  | tail _ hstep ih => exact ih.trans hstep.kept

/-- Where nothing is written everything stays. -/
theorem Change.entry? (h : Change written t t') (hkey : ¬written key)
    (hentry : t.entry? key = some entry) :
    t'.entry? key = some entry := by
  cases h with
  | make hfree =>
    rw [entry?_set (ne_nil_of_free (.inl hfree)), if_neg, hentry]
    rintro rfl
    rw [hfree] at hentry
    cases hentry
  | write hfree hwritten =>
    rw [entry?_set (ne_nil_of_free (.inr hfree)), if_neg, hentry]
    rintro rfl
    exact hkey hwritten

/-- What is not written stays as it is. -/
theorem Changes.entry? (h : Changes written t t') (hkey : ¬written key)
    (hentry : t.entry? key = some entry) :
    t'.entry? key = some entry := by
  induction h with
  | refl => exact hentry
  | tail _ hstep ih => exact hstep.entry? hkey ih

/-- More may be allowed to be written. -/
theorem Changes.mono {written' : Location → Prop} (h : Changes written t t')
    (hwritten : ∀ at_, written at_ → written' at_) :
    Changes written' t t' := by
  induction h with
  | refl => exact .refl
  | tail _ hstep ih =>
    refine ih.tail ?_
    cases hstep with
    | make hfree => exact .make hfree
    | write hfree hat => exact .write hfree (hwritten _ hat)

/-- What an entry adds to the files below a directory. -/
def found? (directory : Location) (e : Location × FileEntry) : Option (Location × Content) :=
  match e.2 with
  | .directory => none
  | .file content =>
    if e.1.take directory.length = directory then some (e.1.drop directory.length, content)
      else none

/-- The files below a directory are found among the entries, in their order. -/
theorem filesBelow_eq (t : FileTree) (directory : Location) :
    t.filesBelow directory = t.entries.filterMap (found? directory) :=
  rfl

/-- Directories, and what lies elsewhere, are not found below a directory. -/
theorem found?_eq_none (h : entry = .directory ∨ ¬at_ <+: loc) :
    found? at_ (loc, entry) = none := by
  cases entry with
  | directory => rfl
  | file content => exact if_neg fun htake =>
    (h.resolve_left nofun) (List.prefix_iff_eq_take.mpr htake.symm)

/-- Writing something does not change the files below a directory, if neither the old entry nor the
new one is a file below it. -/
theorem filesBelow_set (hold : ∀ e ∈ t.entries, e.1 = loc → e.2 = .directory ∨ ¬at_ <+: loc)
    (hnew : entry = .directory ∨ ¬at_ <+: loc) :
    (t.set loc entry).filesBelow at_ = t.filesBelow at_ := by
  rw [filesBelow_eq, filesBelow_eq, set, List.filterMap_append,
    List.filterMap_cons_none (found?_eq_none hnew), List.filterMap_nil, List.append_nil,
      List.filterMap_filter]
  refine List.filterMap_congr fun e he => ?_
  split
  · rfl
  · rename_i hloc
    have hloc : e.1 = loc := by simpa using hloc
    subst hloc
    exact (found?_eq_none (hold e he rfl)).symm

/-- Directories and files elsewhere do not change what is found in a directory. -/
theorem Change.filesBelow (h : Change written t t') (hapart : ∀ loc, written loc → ¬at_ <+: loc) :
    t'.filesBelow at_ = t.filesBelow at_ := by
  cases h with
  | @make loc hfree =>
    refine filesBelow_set (fun e he hloc => ?_) (.inl rfl)
    rw [entry?_of_ne_nil (ne_nil_of_free (.inl hfree)), List.lookup_eq_none_iff] at hfree
    exact absurd (beq_iff_eq.mpr hloc.symm) (by simpa using hfree e he)
  | write _ hwritten =>
    exact filesBelow_set (fun _ _ _ => .inr (hapart _ hwritten)) (.inr (hapart _ hwritten))

/-- Changes that write nothing below a directory do not change its files. -/
theorem Changes.filesBelow (h : Changes written t t') (hapart : ∀ loc, written loc → ¬at_ <+: loc) :
    t'.filesBelow at_ = t.filesBelow at_ := by
  induction h with
  | refl => rfl
  | tail _ hstep ih => rw [hstep.filesBelow hapart, ih]

/-- A directory that is there is scanned for the files below it. -/
theorem scan?_of_locate? (hlocate : t.locate? directory = some at_)
    (hat : t.isDirectory at_ = true) :
    t.scan? directory = some (((t.filesBelow at_).map fun (names, content) =>
      ("/".intercalate names, content)).mergeSort
      fun a b => a.1 ≤ b.1) := by
  simp only [scan?, hlocate, Option.bind_eq_bind, Option.bind_some, if_pos hat]
  rfl

/-- A scan fails only if there is no such directory. -/
theorem scan?_eq_none_iff :
    t.scan? directory = none ↔ ∀ at_, t.locate? directory = some at_ →
      t.isDirectory at_ = false := by
  cases hlocate : t.locate? directory with
  | none => simp [scan?, hlocate]
  | some at_ =>
    cases hat : t.isDirectory at_ with
    | true =>
      rw [scan?_of_locate? hlocate hat]
      simp [hat]
    | false => simp [scan?, hlocate, hat]

/-- What is no directory in the end was none before. -/
theorem Kept.scan?_eq_none (h : t.Kept t') (hnone : t'.scan? directory = none) :
    t.scan? directory = none := by
  rw [scan?_eq_none_iff] at hnone ⊢
  intro at_ hlocate
  have hat := hnone at_ (h.locate? hlocate)
  rw [← Bool.not_eq_true] at hat ⊢
  exact fun hdirectory => hat (h.directories at_ hdirectory)

/-- A directory in which nothing is written is scanned as before. -/
theorem Changes.scan? (h : Changes written t t') (hlocate : t.locate? directory = some at_)
    (hat : t.isDirectory at_ = true) (hapart : ∀ loc, written loc → ¬at_ <+: loc) :
    t'.scan? directory = t.scan? directory := by
  rw [scan?_of_locate? hlocate hat,
    scan?_of_locate? (h.kept.locate? hlocate) (h.kept.directories at_ hat),
    h.filesBelow hapart]

/-- Entering a directory writes no file. -/
theorem enterDirectory_changes (written : Location → Prop) (t : FileTree) (at? : Option Location)
    (step : Component) :
    Changes written t (enterDirectory (t, at?) step).1 := by
  unfold enterDirectory
  simp only
  split
  · exact .refl
  · split
    · exact .refl
    · exact .refl
    · rename_i hfree
      exact .single (.make hfree)

/-- Entering directories one after the other writes no file. -/
theorem foldl_enterDirectory_changes (written : Location → Prop) (steps : List Component)
    (t : FileTree) (at? : Option Location) :
    Changes written t (steps.foldl enterDirectory (t, at?)).1 := by
  induction steps generalizing t at? with
  | nil => exact .refl
  | cons step rest ih => exact (enterDirectory_changes written t at? step).trans (ih _ _)

/-- Making a directory writes no file. -/
theorem makeDirectory_changes (written : Location → Prop) (t : FileTree) (directory : Path) :
    Changes written t (t.makeDirectory directory).1 := by
  unfold makeDirectory
  split
  · exact .refl
  · split
    · exact foldl_enterDirectory_changes written _ t _
    · exact foldl_enterDirectory_changes written _ t _

/-- Where a directory is, the step that has made it or found it finds it. -/
theorem enterDirectory_again {step : Component} {at? next? : Option Location}
    (hat : ∀ at_, at? = some at_ → t.isDirectory at_ = true)
    (h : enterDirectory (t, at?) step = (t', next?)) (hkept : t'.Kept t'') :
    enterDirectory (t'', at?) step = (t'', next?) ∧ ∀ next, next? = some next →
      t'.isDirectory next = true := by
  have hbefore : t.Kept t' := by
    have hchanges := enterDirectory_changes (fun _ => False) t at? step
    rw [h] at hchanges
    exact hchanges.kept
  have hstep : at?.bind (t''.step? · step.text) = at?.bind (t.step? · step.text) := by
    cases at? with
    | none => rfl
    | some at_ =>
      have hhere := hat at_ rfl
      simp only [Option.bind_some, FileTree.step?, hhere,
        hkept.directories at_ (hbefore.directories at_ hhere)]
  unfold enterDirectory at h ⊢
  simp only [hstep] at h ⊢
  cases hnext : at?.bind (t.step? · step.text) with
  | none =>
    rw [hnext] at h
    cases h
    exact ⟨rfl, nofun⟩
  | some next =>
    rw [hnext] at h
    simp only at h ⊢
    split at h
    · rename_i hentry
      cases h
      have hthere := isDirectory_iff.mp (hkept.directories next (isDirectory_iff.mpr hentry))
      rw [hthere]
      refine ⟨rfl, fun _ heq => ?_⟩
      obtain rfl := Option.some.inj heq
      exact isDirectory_iff.mpr hentry
    · rename_i content hentry
      cases h
      obtain ⟨content', hthere⟩ := hkept.files next content hentry
      rw [hthere]
      exact ⟨rfl, nofun⟩
    · rename_i hfree
      cases h
      have hmade : entry? (t.set next .directory) next = some .directory := by
        rw [entry?_set (ne_nil_of_free (.inl hfree)), if_pos rfl]
      have hthere := isDirectory_iff.mp (hkept.directories next (isDirectory_iff.mpr hmade))
      rw [hthere]
      refine ⟨rfl, fun _ heq => ?_⟩
      obtain rfl := Option.some.inj heq
      exact isDirectory_iff.mpr hmade

/-- Directories that have been made are entered without any change, also in a tree that has more. -/
theorem foldl_enterDirectory_again {steps : List Component} {at? next? : Option Location}
    (hat : ∀ at_, at? = some at_ → t.isDirectory at_ = true)
    (h : steps.foldl enterDirectory (t, at?) = (t', next?)) (hkept : t'.Kept t'') :
    steps.foldl enterDirectory (t'', at?) = (t'', next?) := by
  induction steps generalizing t at? with
  | nil =>
    cases h
    rfl
  | cons step rest ih =>
    rw [List.foldl_cons] at h ⊢
    cases hfirst : enterDirectory (t, at?) step with
    | mk t₁ first? =>
      rw [hfirst] at h
      have hrest : t₁.Kept t' := by
        have hchanges := foldl_enterDirectory_changes (fun _ => False) rest t₁ first?
        rw [h] at hchanges
        exact hchanges.kept
      obtain ⟨hagain, hhere⟩ := enterDirectory_again hat hfirst (hrest.trans hkept)
      rw [hagain]
      exact ih hhere h

/-- A directory that has been made is there for good. -/
theorem makeDirectory_again (h : t.makeDirectory directory = (t', true)) (hkept : t'.Kept t'') :
    t''.makeDirectory directory = (t'', true) := by
  have hroot : ∀ {t : FileTree} (at_ : Location), some [] = some at_ →
      t.isDirectory at_ = true := by
    rintro t at_ heq
    obtain rfl := Option.some.inj heq
    rfl
  unfold makeDirectory at h ⊢
  split at h
  · cases h
  · rename_i hfollow
    rw [if_neg hfollow]
    split at h
    · rename_i hdot
      rw [if_pos hdot]
      cases hmade : t.enterAll directory.components.dropLast with
      | mk t₁ at? =>
        rw [hmade] at h
        obtain ⟨rfl, hthere⟩ := Prod.ext_iff.mp h
        have hagain : t''.enterAll directory.components.dropLast = (t'', at?) :=
          foldl_enterDirectory_again hroot hmade hkept
        rw [hagain]
        obtain ⟨at_, hlocate, hat⟩ := (Option.any_eq_true _ _).mp hthere
        refine Prod.ext rfl ((Option.any_eq_true _ _).mpr ⟨at_, hkept.locate? hlocate,
          hkept.directories at_ hat⟩)
    · rename_i hdot
      rw [if_neg hdot]
      cases hmade : t.enterAll directory.components with
      | mk t₁ at? =>
        rw [hmade] at h
        obtain ⟨rfl, hthere⟩ := Prod.ext_iff.mp h
        have hagain : t''.enterAll directory.components = (t'', at?) :=
          foldl_enterDirectory_again hroot hmade hkept
        rw [hagain]
        exact Prod.ext rfl hthere

/-- A file is written where its path leads, unless there is a directory. -/
theorem write?_eq_some (h : t.write? path content = some t') :
    ∃ at_, t.locate? path = some at_ ∧ t.isDirectory at_ = false ∧
      t' = t.set at_ (.file content) := by
  unfold write? at h
  obtain ⟨at_, hlocate, h⟩ := Option.bind_eq_some_iff.mp h
  split at h
  · cases h
  · rename_i hfree
    exact ⟨at_, hlocate, by simpa using hfree, (Option.some.inj h).symm⟩

/-- A file can be written wherever its path leads to a free place or another file. -/
theorem write?_of_locate? (hlocate : t.locate? path = some at_)
    (hfree : t.isDirectory at_ = false) :
    t.write? path content = some (t.set at_ (.file content)) := by
  unfold write?
  rw [hlocate, Option.bind_eq_bind, Option.bind_some, if_neg (by simp [hfree])]

/-- The text that a path leads to. -/
theorem text?_eq_some_iff {text : String} :
    t.text? path = some text ↔ ∃ at_, t.locate? path = some at_ ∧
      t.entry? at_ = some (.file (.text text)) := by
  unfold text? content?
  cases hlocate : t.locate? path with
  | none => simp
  | some at_ =>
    simp only [Option.bind_some, Option.some.injEq, exists_eq_left']
    cases hentry : t.entry? at_ with
    | none => simp
    | some entry =>
      cases entry with
      | directory => simp
      | file content => cases content <;> simp [Content.text?]

end Interop.FileTree
