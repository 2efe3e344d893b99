import Interop.Files.Artifact
import Interop.Proofs.Files.Tree

namespace Interop.Artifact

open FileTree

variable {t t' s : FileTree} {directory : Path} {a : Artifact} {as : List Artifact}
    {at_ : Location} {content : Content}

/-- The locations of artifacts. -/
def Places (t : FileTree) (directory : Path) (as : List Artifact) (at_ : Location) : Prop :=
  ∃ a ∈ as, t.locate? (a.path directory) = some at_

/-- An artifact is placed where it was in any tree of files that keeps what the first one has. -/
theorem Places.kept (h : Places t directory as at_) (hkept : t.Kept t') :
    Places t' directory as at_ := by
  obtain ⟨a, ha, hlocate⟩ := h
  exact ⟨a, ha, hkept.locate? hlocate⟩

/-- An artifact that lies there as it is made is left alone. -/
theorem write_of_text? (h : t.text? (a.path directory) = some a.text) :
    a.write t directory = (t, .unchanged) :=
  if_pos h

/-- An artifact that is not there is put where its path leads once its directory is there. -/
theorem write_of_makeDirectory (h : t.text? (a.path directory) ≠ some a.text)
    (hmade : t.makeDirectory directory = (t', true))
    (hlocate : t'.locate? (a.path directory) = some at_) (hfree : t'.isDirectory at_ = false) :
    a.write t directory = (t'.set at_ (.file (.text a.text)), .written) := by
  unfold write
  simp only [if_neg h, hmade, write?_of_locate? hlocate hfree]

/-- How the writing of an artifact ends. -/
theorem write_cases (t : FileTree) (directory : Path) (a : Artifact) :
    (a.write t directory = (t, .unchanged) ∧ t.text? (a.path directory) = some a.text) ∨
    a.write t directory = ((t.makeDirectory directory).1, .failed) ∨
    ∃ t' at_, t.makeDirectory directory = (t', true) ∧ t'.locate? (a.path directory) = some at_ ∧
      t'.isDirectory at_ = false ∧
          a.write t directory = (t'.set at_ (.file (.text a.text)), .written) := by
  by_cases htext : t.text? (a.path directory) = some a.text
  · exact .inl ⟨write_of_text? htext, htext⟩
  · right
    cases hmade : t.makeDirectory directory with
    | mk t' isMade =>
      cases isMade with
      | false =>
        left
        unfold write
        simp only [if_neg htext, hmade]
      | true =>
        cases hwrite : t'.write? (a.path directory) (.text a.text) with
        | none =>
          left
          unfold write
          simp only [if_neg htext, hmade, hwrite]
        | some t'' =>
          obtain ⟨at_, hlocate, hfree, -⟩ := write?_eq_some hwrite
          exact .inr ⟨t', at_, rfl, hlocate, hfree,
            write_of_makeDirectory htext hmade hlocate hfree⟩

/-- Writing an artifact changes nothing but where the artifact lies. -/
theorem write_changes (t : FileTree) (directory : Path) (a : Artifact) :
    Changes (Places (a.write t directory).1 directory [a]) t (a.write t directory).1 := by
  rcases write_cases t directory a with ⟨hwrite, -⟩ | hwrite | ⟨t', at_, hmade, hlocate, hfree,
    hwrite⟩
  · rw [hwrite]
  · rw [hwrite]
    exact makeDirectory_changes _ t directory
  · rw [hwrite]
    have hkept : t'.Kept (t'.set at_ (.file (.text a.text))) := .set_file hfree
    have hmakes := makeDirectory_changes (Places (t'.set at_ (.file (.text a.text))) directory [a])
      t directory
    rw [hmade] at hmakes
    exact hmakes.tail (.write hfree ⟨a, List.mem_cons_self, hkept.locate? hlocate⟩)

/-- An artifact that could be written is there. -/
theorem text?_of_write (h : (a.write t directory).2 ≠ .failed) :
    (a.write t directory).1.text? (a.path directory) = some a.text := by
  rcases write_cases t directory a with ⟨hwrite, htext⟩ | hwrite | ⟨t', at_, -, hlocate, hfree,
    hwrite⟩
  · rw [hwrite]
    exact htext
  · rw [hwrite] at h
    exact absurd rfl h
  · rw [hwrite]
    have hkept : t'.Kept (t'.set at_ (.file (.text a.text))) := .set_file hfree
    exact text?_eq_some_iff.mpr
      ⟨at_, hkept.locate? hlocate,
        (entry?_set (ne_nil_of_free (.inr hfree)) t' _ at_).trans (if_pos rfl)⟩

/-- Where its directory and a file in its place are there, an artifact replaces the file. -/
theorem write_over (hmade : s.makeDirectory directory = (s, true))
    (hlocate : s.locate? (a.path directory) = some at_)
    (hfile : s.entry? at_ = some (.file content)) :
    (a.write s directory).2 ≠ .failed ∧ ∀ key, entry? (a.write s directory).1 key =
      if key = at_ then some (.file (.text a.text)) else s.entry? key := by
  by_cases htext : s.text? (a.path directory) = some a.text
  · rw [write_of_text? htext]
    refine ⟨nofun, fun key => ?_⟩
    obtain ⟨at', hlocate', hentry⟩ := text?_eq_some_iff.mp htext
    obtain rfl := Option.some.inj (hlocate'.symm.trans hlocate)
    split
    · rename_i heq
      rw [heq]
      exact hentry
    · rfl
  · have hfree : s.isDirectory at_ = false := by
      rw [← Bool.not_eq_true, isDirectory_iff, hfile]
      exact nofun
    rw [write_of_makeDirectory htext hmade hlocate hfree]
    exact ⟨nofun, entry?_set (ne_nil_of_free (.inr hfree)) s _⟩

/-- The recursion of `writeAll`, whose own equations are slow to derive. -/
theorem writeAll_step (t : FileTree) (directory : Path) (a : Artifact) (as : List Artifact) :
    writeAll t directory (a :: as) =
      match a.write t directory with
      | (t, .failed) => (t, false)
      | (t, _) => writeAll t directory as :=
  (rfl)

/-- Artifacts are written until one fails. -/
theorem writeAll_cons (t : FileTree) (directory : Path) (a : Artifact) (as : List Artifact) :
    writeAll t directory (a :: as) =
      if (a.write t directory).2 = .failed then ((a.write t directory).1, false)
      else writeAll (a.write t directory).1 directory as := by
  rw [writeAll_step]
  cases hwrite : a.write t directory with
  | mk t' outcome => cases outcome <;> rfl

/-- Artifacts may be written in two parts, of which the second is reached only if all of the first
could be written. -/
theorem writeAll_append (t : FileTree) (directory : Path) (as bs : List Artifact) :
    writeAll t directory (as ++ bs) =
      if (writeAll t directory as).2 then writeAll (writeAll t directory as).1 directory bs
      else writeAll t directory as := by
  induction as generalizing t with
  | nil => rfl
  | cons a rest ih =>
    rw [List.cons_append, writeAll_cons, writeAll_cons]
    split
    · rfl
    · exact ih _

/-- Writing artifacts changes nothing but where the artifacts lie. -/
theorem writeAll_changes (t : FileTree) (directory : Path) (as : List Artifact) :
    Changes (Places (writeAll t directory as).1 directory as) t (writeAll t directory as).1 := by
  induction as generalizing t with
  | nil => exact .refl
  | cons a rest ih =>
    have hfirst := write_changes t directory a
    rw [writeAll_cons]
    split
    · exact hfirst.mono fun _ ⟨b, hb, hlocate⟩ =>
        ⟨b, List.mem_cons.mpr (.inl (List.mem_singleton.mp hb)), hlocate⟩
    · have hrest := ih (a.write t directory).1
      refine (hfirst.mono fun at_ h => ?_).trans
        (hrest.mono fun at_ ⟨b, hb, hlocate⟩ => ⟨b, List.mem_cons_of_mem a hb, hlocate⟩)
      obtain ⟨b, hb, hlocate⟩ := h.kept hrest.kept
      exact ⟨b, List.mem_cons.mpr (.inl (List.mem_singleton.mp hb)), hlocate⟩

/-- Artifacts that are all there are left alone. -/
theorem writeAll_of_text? (h : ∀ a ∈ as, t.text? (a.path directory) = some a.text) :
    writeAll t directory as = (t, true) := by
  induction as with
  | nil => rfl
  | cons a rest ih =>
    rw [writeAll_cons, write_of_text? (h a List.mem_cons_self), if_neg nofun]
    exact ih fun b hb => h b (List.mem_cons_of_mem a hb)

/-- When all artifacts have been written, their directory is there, unless all of them were there
before. -/
theorem makeDirectory_of_writeAll (h : writeAll t directory as = (t', true)) :
    t'.makeDirectory directory = (t', true) ∨
      t' = t ∧ ∀ a ∈ as, t.text? (a.path directory) = some a.text := by
  induction as generalizing t with
  | nil =>
    cases h
    exact .inr ⟨rfl, nofun⟩
  | cons a rest ih =>
    rw [writeAll_cons] at h
    split at h
    · cases h
    · rename_i hwritten
      rcases write_cases t directory a with ⟨hwrite, htext⟩ | hwrite | ⟨t₁, at_, hmade, -, hfree,
        hwrite⟩
      · rw [hwrite] at h
        refine (ih h).imp_right fun ⟨heq, hrest⟩ => ⟨heq, fun b hb => ?_⟩
        rcases List.mem_cons.mp hb with rfl | hb
        · exact htext
        · exact hrest b hb
      · rw [hwrite] at hwritten
        exact absurd rfl hwritten
      · rw [hwrite] at h
        have hset : t₁.Kept (t₁.set at_ (.file (.text a.text))) := .set_file hfree
        have hrest := (writeAll_changes (t₁.set at_ (.file (.text a.text))) directory rest).kept
        rw [h] at hrest
        exact .inl (makeDirectory_again hmade (hset.trans hrest))

/-- Artifacts that are written over files leave what writing them has left before. -/
theorem writeAll_over (hmade : s.makeDirectory directory = (s, true))
    (h : writeAll t directory as = (t', true)) (hkept : t'.Kept s) :
    (writeAll s directory as).2 = true ∧ ∀ at_, (Places t' directory as at_ →
      entry? (writeAll s directory as).1 at_ = t'.entry? at_) ∧
      (¬Places t' directory as at_ → entry? (writeAll s directory as).1 at_ = s.entry? at_) := by
  induction as generalizing t s with
  | nil => exact ⟨rfl, fun at_ => ⟨fun ⟨_, hnone, _⟩ => (nomatch hnone), fun _ => rfl⟩⟩
  | cons a rest ih =>
    rw [writeAll_cons] at h
    split at h
    · cases h
    · rename_i hwritten
      have hrest := writeAll_changes (a.write t directory).1 directory rest
      rw [h] at hrest
      -- the artifact lies in `s` where the first writing has put it
      obtain ⟨at₀, hlocate, hentry⟩ := text?_eq_some_iff.mp (text?_of_write hwritten)
      have hlocate' := hrest.kept.locate? hlocate
      obtain ⟨old, hold⟩ := hrest.kept.files at₀ _ hentry
      obtain ⟨content, hfile⟩ := hkept.files at₀ old hold
      obtain ⟨hsucceeds, hover⟩ := write_over hmade (hkept.locate? hlocate') hfile
      have hstays := (write_changes s directory a).kept
      obtain ⟨hall, hentries⟩ := ih (makeDirectory_again hmade hstays) h (hkept.trans hstays)
      rw [writeAll_cons, if_neg hsucceeds]
      refine ⟨hall, fun at_ => ⟨fun hplaces => ?_, fun hnone => ?_⟩⟩
      · by_cases hlater : Places t' directory rest at_
        · exact (hentries at_).1 hlater
        · obtain ⟨b, hb, hb'⟩ := hplaces
          rcases List.mem_cons.mp hb with rfl | hb
          · obtain rfl := Option.some.inj (hlocate'.symm.trans hb')
            rw [(hentries at₀).2 hlater, hover, if_pos rfl, hrest.entry? hlater hentry]
          · exact absurd ⟨b, hb, hb'⟩ hlater
      · have hother : at_ ≠ at₀ := fun heq => hnone ⟨a, List.mem_cons_self, heq ▸ hlocate'⟩
        have hlater : ¬Places t' directory rest at_ :=
          fun ⟨b, hb, hb'⟩ => hnone ⟨b, List.mem_cons_of_mem a hb, hb'⟩
        rw [(hentries at_).2 hlater, hover, if_neg hother]

/-- Artifacts that have been written can be written again, and every file stays as it is. -/
theorem writeAll_again (h : writeAll t directory as = (t', true)) :
    (writeAll t' directory as).2 = true ∧
      ∀ at_, entry? (writeAll t' directory as).1 at_ = t'.entry? at_ := by
  rcases makeDirectory_of_writeAll h with hmade | ⟨rfl, hthere⟩
  · obtain ⟨hall, hentries⟩ := writeAll_over hmade h (.refl t')
    refine ⟨hall, fun at_ => ?_⟩
    by_cases hplaces : Places t' directory as at_
    · exact (hentries at_).1 hplaces
    · exact (hentries at_).2 hplaces
  · rw [writeAll_of_text? hthere]
    exact ⟨rfl, fun _ => rfl⟩

end Interop.Artifact
