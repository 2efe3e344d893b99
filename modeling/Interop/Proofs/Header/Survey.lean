import Interop.Header.Pool
import Interop.Proofs.Path.Order

namespace Interop.Header

/-- A unit without the spelling of its path. -/
def unitView (u : HeaderUnit) : List Component × List Declaration :=
  (u.path.components, u.root.children)

/-- A failure without the spelling of its path. -/
def failureView (f : Path × ReadFailure) : List Component × ReadFailure :=
  (f.1.components, f.2)

/-- Whether two surveys differ in the spelling of paths only. -/
structure Survey.Same (s t : Survey) : Prop where
  units : s.units.map unitView = t.units.map unitView
  failures : s.failures.map failureView = t.failures.map failureView
  owners : ∀ name, (s.index.owner? name).map Path.components =
    (t.index.owner? name).map Path.components

/-- Units in the order of their paths, with one unit a path. -/
def Ascending (us : List HeaderUnit) : Prop :=
  us.Pairwise fun u v => u.path.before v.path = true

/-- Failures in the order of their paths. -/
def InOrder (fs : List (Path × ReadFailure)) : Prop :=
  fs.Pairwise fun f g => g.1.before f.1 = false

/-- In units that are in order, an inserted unit takes the place of the one with its path. -/
theorem mem_insertUnit {u v : HeaderUnit} {us : List HeaderUnit} (h : Ascending us) :
    v ∈ insertUnit u us ↔ v = u ∨ (v ∈ us ∧ u.path.same v.path = false) := by
  induction us with
  | nil => simp [insertUnit]
  | cons w rest ih =>
    obtain ⟨hw, hrest⟩ := List.pairwise_cons.mp h
    have hbehind : ∀ x ∈ rest, u.path.before w.path = true ∨ u.path.same w.path = true →
        u.path.same x.path = false := by
      intro x hx hle
      have hbefore : u.path.before x.path = true := by
        rcases hle with hlt | heq
        · exact Path.before_trans hlt (hw x hx)
        · rw [Path.before, Path.same_iff.mp heq]
          exact hw x hx
      rw [← Bool.not_eq_true]
      intro hsame
      rw [Path.not_before_of_same hsame] at hbefore
      cases hbefore
    by_cases hsame : u.path.same w.path = true
    · have hkept : ∀ x ∈ rest, u.path.same x.path = false := fun x hx => hbehind x hx (.inr hsame)
      rw [insertUnit, if_pos hsame]
      grind
    · by_cases hlt : u.path.before w.path = true
      · have hkept : ∀ x ∈ rest, u.path.same x.path = false := fun x hx => hbehind x hx (.inl hlt)
        rw [insertUnit, if_neg hsame, if_pos hlt]
        grind
      · rw [insertUnit, if_neg hsame, if_neg hlt, List.mem_cons, ih hrest]
        grind

/-- Inserting a unit keeps the order. -/
theorem ascending_insertUnit {u : HeaderUnit} {us : List HeaderUnit} (h : Ascending us) :
    Ascending (insertUnit u us) := by
  induction us with
  | nil => exact List.pairwise_singleton ..
  | cons w rest ih =>
    obtain ⟨hw, hrest⟩ := List.pairwise_cons.mp h
    by_cases hsame : u.path.same w.path = true
    · rw [insertUnit, if_pos hsame]
      refine List.pairwise_cons.mpr ⟨fun v hv => ?_, hrest⟩
      rw [Path.before, Path.same_iff.mp hsame]
      exact hw v hv
    · by_cases hlt : u.path.before w.path = true
      · rw [insertUnit, if_neg hsame, if_pos hlt]
        refine List.pairwise_cons.mpr ⟨fun v hv => ?_, h⟩
        rcases List.mem_cons.mp hv with rfl | hv
        · exact hlt
        · exact Path.before_trans hlt (hw v hv)
      · rw [insertUnit, if_neg hsame, if_neg hlt]
        refine List.pairwise_cons.mpr ⟨fun v hv => ?_, ih hrest⟩
        rcases (mem_insertUnit hrest).mp hv with rfl | ⟨hv, _⟩
        · cases hwv : w.path.before v.path with
          | true => rfl
          | false => exact absurd (Path.same_of_not_before (Bool.eq_false_iff.mpr hlt) hwv) hsame
        · exact hw v hv

/-- A failure is added to those there are. -/
theorem insertFailure_perm (path : Path) (failure : ReadFailure) (fs : List (Path × ReadFailure)) :
    (insertFailure path failure fs).Perm ((path, failure) :: fs) := by
  induction fs with
  | nil => exact .refl _
  | cons f rest ih =>
    simp only [insertFailure]
    split
    · exact .refl _
    · exact (ih.cons f).trans (.swap ..)

/-- Inserting a failure keeps the order. -/
theorem inOrder_insertFailure {path : Path} {failure : ReadFailure} {fs : List (Path × ReadFailure)}
    (h : InOrder fs) : InOrder (insertFailure path failure fs) := by
  induction fs with
  | nil => exact List.pairwise_singleton ..
  | cons f rest ih =>
    obtain ⟨hf, hrest⟩ := List.pairwise_cons.mp h
    simp only [insertFailure]
    split
    · rename_i hlt
      refine List.pairwise_cons.mpr ⟨fun g hg => ?_, h⟩
      rcases List.mem_cons.mp hg with rfl | hg
      · exact Path.before_asymm hlt
      · exact Path.not_before_trans (Path.before_asymm hlt) (hf g hg)
    · rename_i hnot
      refine List.pairwise_cons.mpr ⟨fun g hg => ?_, ih hrest⟩
      rcases List.mem_cons.mp ((insertFailure_perm path failure rest).mem_iff.mp hg) with rfl | hg
      · exact Bool.eq_false_iff.mpr hnot
      · exact hf g hg

namespace Index

/-- Whether `name` is owned by a path that `path` does not come before. -/
def Covers (i : Index) (name : String) (path : Path) : Prop :=
  ∃ owner, i.owner? name = some owner ∧ path.before owner = false

/-- A name that a path does not get is covered already. -/
theorem covers_of_not_yields {i : Index} {name : String} {path : Path}
    (h : i.yields name path = false) : i.Covers name path := by
  unfold yields at h
  cases howner : i.owner? name with
  | none => simp [howner] at h
  | some owner => exact ⟨owner, howner, by simpa only [howner] using h⟩

/-- Only the owner of the recorded name changes, and only to the recorded path. -/
theorem owner?_record (i : Index) (name key : String) (path : Path) :
    (i.record name path).owner? key =
      if key = name ∧ i.yields name path = true then some path else i.owner? key := by
  unfold record
  by_cases h : i.yields name path = true
  · simp [h, owner?]
  · simp [h]

/-- A name that has been recorded is covered. -/
theorem covers_record (i : Index) (name : String) (path : Path) :
    (i.record name path).Covers name path := by
  cases h : i.yields name path with
  | true => exact ⟨path, by rw [owner?_record]; simp [h], Path.before_irrefl path⟩
  | false =>
    obtain ⟨owner, howner, hbefore⟩ := covers_of_not_yields h
    exact ⟨owner, by rw [owner?_record]; simp [h, howner], hbefore⟩

/-- Recording a definition keeps what the index covers. -/
theorem Covers.record {i : Index} {key : String} {path : Path} (h : i.Covers key path)
    (name : String) (path' : Path) : (i.record name path').Covers key path := by
  obtain ⟨owner, howner, hbefore⟩ := h
  by_cases hnew : key = name ∧ i.yields name path' = true
  · refine ⟨path', by rw [owner?_record, if_pos hnew], ?_⟩
    obtain ⟨rfl, hyields⟩ := hnew
    have hlt : path'.before owner = true := by simpa only [yields, howner] using hyields
    exact Path.not_before_trans (Path.before_asymm hlt) hbefore
  · exact ⟨owner, by rw [owner?_record, if_neg hnew, howner], hbefore⟩

/-- What is covered stays so when further names are recorded. -/
theorem Covers.recordAll {i : Index} {key : String} {path : Path} (h : i.Covers key path)
    (names : List String) (path' : Path) : (i.recordAll names path').Covers key path := by
  induction names generalizing i with
  | nil => exact h
  | cons name names ih => exact ih (h.record name path')

theorem covers_recordAll {name : String} {names : List String} (h : name ∈ names) (i : Index)
    (path : Path) : (i.recordAll names path).Covers name path := by
  induction names generalizing i with
  | nil => cases h
  | cons n names ih =>
    rcases List.mem_cons.mp h with rfl | h
    · exact (covers_record i name path).recordAll names path
    · exact ih h _

/-- An owner is an earlier owner or the recorded path. -/
theorem owner?_recordAll {i : Index} {names : List String} {path : Path} {name : String}
    {owner : Path} (h : (i.recordAll names path).owner? name = some owner) :
    i.owner? name = some owner ∨ (name ∈ names ∧ path = owner) := by
  induction names generalizing i with
  | nil => exact .inl h
  | cons n names ih =>
    rcases ih (i := i.record n path) h with hrecorded | ⟨hmem, hpath⟩
    · rw [owner?_record] at hrecorded
      split at hrecorded
      · rename_i hnew
        exact .inr ⟨hnew.1 ▸ List.mem_cons_self, Option.some.inj hrecorded⟩
      · exact .inl hrecorded
    · exact .inr ⟨List.mem_cons_of_mem n hmem, hpath⟩

/-- Two indices agree on the owner of a name, up to its spelling, if each owner is covered by the
other index. -/
theorem owner_components_eq {i j : Index} {name : String}
    (hij : ∀ owner, i.owner? name = some owner → j.Covers name owner)
    (hji : ∀ owner, j.owner? name = some owner → i.Covers name owner) :
    (i.owner? name).map Path.components = (j.owner? name).map Path.components := by
  cases hi : i.owner? name with
  | none =>
    cases hj : j.owner? name with
    | none => rfl
    | some q =>
      obtain ⟨owner, howner, _⟩ := hji q hj
      rw [hi] at howner
      cases howner
  | some p =>
    obtain ⟨q, hj, hpq⟩ := hij p hi
    obtain ⟨p', hp', hqp⟩ := hji q hj
    obtain rfl : p = p' := Option.some.inj (hi.symm.trans hp')
    rw [hj]
    exact congrArg some (Path.same_iff.mp (Path.same_of_not_before hpq hqp))

end Index

end Interop.Header
