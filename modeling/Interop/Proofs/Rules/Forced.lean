import Interop.Rules.Document

namespace Interop

theorem Rules.exists_of_bind {ε α β : Type} {x : Except ε α} {f : α → Except ε β} {r : β}
    (h : x >>= f = .ok r) :
    ∃ a, x = .ok a ∧ f a = .ok r := by
  cases x with
  | error e => cases h
  | ok a => exact ⟨a, rfl, h⟩

/-- Whether a rules document says of a text for default values that it makes variables constant. -/
def Json.Forces (document : Json) (value : String) : Prop :=
  ∃ members name spec, document.member? "default-values" = some (.object members) ∧
    (name, spec) ∈ members ∧ Rules.replacement? spec = some (value, true)

namespace Rules

variable {document : Json} {source : Path} {settings : Settings} {rules : Rules}

/-- A section lists a text with its mark exactly if one of its members says so. -/
theorem mem_replacements?_iff {members : List (String × Json)}
    {entries : List (String × String × Bool)} (h : replacements? (.object members) = some entries)
    (value : String) (isForced : Bool) :
    (∃ name, (name, value, isForced) ∈ entries) ↔
      ∃ name spec, (name, spec) ∈ members ∧ replacement? spec = some (value, isForced) := by
  simp only [replacements?, Json.members?, Option.bind_eq_bind, Option.bind_some] at h
  induction members generalizing entries with
  | nil =>
    cases h
    simp
  | cons m rest ih =>
    rw [List.mapM_cons] at h
    simp only [Option.bind_eq_bind] at h
    obtain ⟨entry, hentry, h⟩ := Option.bind_eq_some_iff.mp h
    obtain ⟨others, hothers, h⟩ := Option.bind_eq_some_iff.mp h
    obtain ⟨read, hread, hentry⟩ := Option.bind_eq_some_iff.mp hentry
    cases h
    cases hentry
    constructor
    · rintro ⟨name, hmem⟩
      rcases List.mem_cons.mp hmem with heq | hmem
      · cases heq
        exact ⟨m.1, m.2, List.mem_cons_self, hread⟩
      · obtain ⟨name, spec, hspec, hread⟩ := (ih hothers).mp ⟨name, hmem⟩
        exact ⟨name, spec, List.mem_cons_of_mem _ hspec, hread⟩
    · rintro ⟨name, spec, hspec, hsaid⟩
      rcases List.mem_cons.mp hspec with rfl | hspec
      · obtain rfl := Option.some.inj (hread.symm.trans hsaid)
        exact ⟨name, List.mem_cons_self⟩
      · obtain ⟨name, hmem⟩ := (ih hothers).mpr ⟨name, spec, hspec, hsaid⟩
        exact ⟨name, List.mem_cons_of_mem _ hmem⟩

/-- The texts that force constants are those of the entries that are marked. -/
theorem exists_entries_of_settingsOf (h : settingsOf document source = .ok settings) :
    ∃ entries : List (String × String × Bool), settings.forced =
      ((entries.filter (·.2.2)).map (·.2.1)).eraseDups ∧
      (document.member? "default-values").elim (some []) replacements? = some entries := by
  simp only [settingsOf] at h
  cases hsection : document.member? "default-values" with
  | none =>
    rw [hsection] at h
    split at h
    all_goals
      obtain ⟨calls, -, h⟩ := exists_of_bind h
      cases h
      exact ⟨[], rfl, rfl⟩
  | some section_ =>
    rw [hsection] at h
    simp only at h
    cases hentries : replacements? section_ with
    | none =>
      rw [hentries] at h
      split at h
      all_goals
        obtain ⟨calls, -, h⟩ := exists_of_bind h
        cases h
    | some entries =>
      rw [hentries] at h
      split at h
      all_goals
        obtain ⟨calls, -, h⟩ := exists_of_bind h
        cases h
        exact ⟨entries, rfl, hentries⟩

/-- Rules that are accepted have the settings of their document. -/
theorem settingsOf_of_ofJson (h : ofJson document source = .ok rules) :
    settingsOf document source = .ok rules.settings := by
  unfold ofJson at h
  split at h
  · obtain ⟨settings, hsettings, h⟩ := exists_of_bind h
    have hrules : rules.settings = settings := by
      split at h
      · cases h
        rfl
      · obtain ⟨namespaces, -, h⟩ := exists_of_bind h
        cases h
        rfl
      · cases h
    rw [hsettings, hrules]
  · cases h

/-- The rules of a document make a variable with a managed value constant exactly if the document
says so of the value. -/
theorem isForced_iff (h : ofJson document source = .ok rules) (value : String) :
    rules.settings.isForced value = true ↔ document.Forces value := by
  obtain ⟨entries, hforced, hentries⟩ := exists_entries_of_settingsOf (settingsOf_of_ofJson h)
  have hlisted : rules.settings.isForced value = true ↔ ∃ name, (name, value, true) ∈ entries := by
    rw [Settings.isForced, List.contains_iff_mem, hforced, List.mem_eraseDups]
    simp
  rw [hlisted]
  cases hsection : document.member? "default-values" with
  | none =>
    rw [hsection] at hentries
    cases hentries
    simp [Json.Forces, hsection]
  | some section_ =>
    rw [hsection, Option.elim_some] at hentries
    cases section_ with
    | object members =>
      rw [mem_replacements?_iff hentries]
      simp [Json.Forces, hsection]
    | _ => cases hentries

end Rules

end Interop
