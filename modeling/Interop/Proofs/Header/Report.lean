import Interop.Proofs.Header.Survey

namespace Interop.Header

/-- The path of a header occurs in its unit only. -/
theorem builtin_eq (config : Configuration) (content : Content) :
    ∃ (result : Except ReadFailure (List Declaration)) (names : List String), ∀ path,
      FrontEnd.builtin config path content = ⟨result.map (HeaderUnit.ofDeclarations path),
          names⟩ := by
  cases content with
  | binary bytes => exact ⟨.error .notText, [], fun path => rfl⟩
  | text source =>
    cases hpre : preprocess config source with
    | mk text directives =>
      cases htokens : Token.ofConfigured config text with
      | error e =>
        refine ⟨.error (.malformed e), [], fun path => ?_⟩
        simp only [FrontEnd.builtin, readUnit, hpre, htokens]
        rfl
      | ok tokens =>
        cases hread : (readTokens tokens).result with
        | error e =>
          refine ⟨.error (.malformed e), (readTokens tokens).defined, fun path => ?_⟩
          simp only [FrontEnd.builtin, readUnit, hpre, htokens, hread]
          rfl
        | ok ds =>
          refine ⟨.ok (inLineOrder ds directives), (readTokens tokens).defined, fun path => ?_⟩
          simp only [FrontEnd.builtin, readUnit, hpre, htokens, hread]
          rfl

namespace Job

variable {job : Job} {start : Index} {file file' : String} {done files : List String}

/-- A unit has the path of its file. -/
theorem path_of_read {u : HeaderUnit} (h : (job.read file).result = .ok u) :
    u.path = job.path file := by
  obtain ⟨result, names, heq⟩ := builtin_eq job.configuration (job.contents (job.path file))
  rw [read, heq] at h
  cases result with
  | error e => cases h
  | ok ds => cases h; rfl

/-- Two spellings of one path give the same reading, up to the spelling. -/
theorem read_same (h : (job.path file).same (job.path file') = true) :
    (job.read file).defined = (job.read file').defined ∧
      (job.read file).result.map unitView = (job.read file').result.map unitView := by
  obtain ⟨result, names, heq⟩ := builtin_eq job.configuration (job.contents (job.path file))
  have hcontents := job.contents_same _ _ h
  rw [read, read, ← hcontents, heq, heq]
  refine ⟨rfl, ?_⟩
  cases result with
  | error e => rfl
  | ok ds =>
    simp only [Except.map, unitView, HeaderUnit.ofDeclarations, Path.same_iff.mp h]

/-- The failure that reading a file gives, if any. -/
def failure? (job : Job) (file : String) : Option (Path × ReadFailure) :=
  match (job.read file).result with
  | .ok _ => none
  | .error e => some (job.path file, e)

/-- Whether units are those of files: one for each path of a file that can be read, in the order of
the paths. -/
structure UnitsOf (job : Job) (files : List String) (us : List HeaderUnit) : Prop where
  ascending : Ascending us
  read : ∀ u ∈ us, ∃ file ∈ files, (job.read file).result = .ok u
  kept : ∀ file ∈ files, ∀ u, (job.read file).result = .ok u → ∃ v ∈ us, unitView v = unitView u

/-- Whether an index, which was `start` before, names the owners of the types that files define. -/
structure OwnersOf (job : Job) (start : Index) (files : List String) (i : Index) : Prop where
  found : ∀ name owner, i.owner? name = some owner → start.owner? name = some owner ∨
    ∃ file ∈ files, name ∈ (job.read file).defined ∧ job.path file = owner
  least : ∀ file ∈ files, ∀ name ∈ (job.read file).defined, i.Covers name (job.path file)
  earlier : ∀ name owner, start.owner? name = some owner → i.Covers name owner

/-- Whether a survey is a report of files: the units are theirs, the failures are theirs in the
order of the paths, and the index names the least paths that define a type. A file that cannot be
read takes part in the index as well. -/
structure Reports (job : Job) (start : Index) (files : List String) (s : Survey) : Prop where
  units : job.UnitsOf files s.units
  failures : s.failures.Perm (files.filterMap job.failure?)
  inOrder : InOrder s.failures
  owners : job.OwnersOf start files s.index

/-- Only which files are done matters, not in what order. -/
theorem UnitsOf.congr {us : List HeaderUnit} (h : job.UnitsOf done us)
    (hmem : ∀ file, file ∈ done ↔ file ∈ files) : job.UnitsOf files us where
  ascending := h.ascending
  read u hu := by simpa only [hmem] using h.read u hu
  kept file hfile := h.kept file ((hmem file).mpr hfile)

/-- Units stay those of the files read when a unit is inserted. -/
theorem UnitsOf.insert {us : List HeaderUnit} {u : HeaderUnit} (h : job.UnitsOf done us)
    (hread : (job.read file).result = .ok u) : job.UnitsOf (file :: done) (insertUnit u us) where
  ascending := ascending_insertUnit h.ascending
  read v hv := by
    rcases (mem_insertUnit h.ascending).mp hv with rfl | ⟨hv, _⟩
    · exact ⟨file, List.mem_cons_self, hread⟩
    · obtain ⟨file', hmem, hread'⟩ := h.read v hv
      exact ⟨file', List.mem_cons_of_mem file hmem, hread'⟩
  kept file' hmem w hw := by
    rcases List.mem_cons.mp hmem with rfl | hmem
    · obtain rfl : u = w := Except.ok.inj (hread.symm.trans hw)
      exact ⟨u, (mem_insertUnit h.ascending).mpr (.inl rfl), rfl⟩
    · obtain ⟨v, hv, hview⟩ := h.kept file' hmem w hw
      cases hsame : u.path.same v.path with
      | false => exact ⟨v, (mem_insertUnit h.ascending).mpr (.inr ⟨hv, hsame⟩), hview⟩
      | true =>
        -- The inserted unit replaces `v`, but has the same view, the paths being the same.
        refine ⟨u, (mem_insertUnit h.ascending).mpr (.inl rfl), ?_⟩
        have hpath : (job.path file).same (job.path file') = true := by
          rw [Path.same_iff, ← path_of_read hread, ← path_of_read hw]
          exact (Path.same_iff.mp hsame).trans (congrArg Prod.fst hview)
        have hresult := (read_same hpath).2
        rw [hread, hw] at hresult
        exact Except.ok.inj hresult

/-- A file that cannot be read leaves the units as they are. -/
theorem UnitsOf.skip {us : List HeaderUnit} {e : ReadFailure} (h : job.UnitsOf done us)
    (hread : (job.read file).result = .error e) : job.UnitsOf (file :: done) us where
  ascending := h.ascending
  read v hv := by
    obtain ⟨file', hmem, hread'⟩ := h.read v hv
    exact ⟨file', List.mem_cons_of_mem file hmem, hread'⟩
  kept file' hmem w hw := by
    rcases List.mem_cons.mp hmem with rfl | hmem
    · rw [hread] at hw
      cases hw
    · exact h.kept file' hmem w hw

/-- The units of files are determined by the files, up to the spelling of paths. -/
theorem UnitsOf.unique {us vs : List HeaderUnit} (hus : job.UnitsOf files us)
    (hvs : job.UnitsOf files vs) : us.map unitView = vs.map unitView := by
  have hsorted : ∀ ws : List HeaderUnit, Ascending ws →
      (ws.map unitView).Pairwise fun x y => Path.componentsLt x.1 y.1 = true := by
    intro ws hws
    exact List.pairwise_map.mpr hws
  have hnodup : ∀ ws : List HeaderUnit, Ascending ws → (ws.map unitView).Nodup := by
    intro ws hws
    refine (hsorted ws hws).imp fun {x y} hlt heq => ?_
    rw [heq, Path.componentsLt_irrefl] at hlt
    cases hlt
  have hsub : ∀ {ws xs : List HeaderUnit}, job.UnitsOf files ws → job.UnitsOf files xs →
      ∀ view ∈ ws.map unitView, view ∈ xs.map unitView := by
    intro ws xs hws hxs view hview
    obtain ⟨u, hu, rfl⟩ := List.mem_map.mp hview
    obtain ⟨file, hfile, hread⟩ := hws.read u hu
    obtain ⟨v, hv, heq⟩ := hxs.kept file hfile u hread
    exact List.mem_map.mpr ⟨v, hv, heq⟩
  have hperm : (us.map unitView).Perm (vs.map unitView) :=
    (List.perm_ext_iff_of_nodup (hnodup us hus.ascending) (hnodup vs hvs.ascending)).mpr
      fun view => ⟨hsub hus hvs view, hsub hvs hus view⟩
  refine hperm.eq_of_pairwise (fun x y _ _ hxy hyx => ?_) (hsorted us hus.ascending)
    (hsorted vs hvs.ascending)
  have hloop := Path.componentsLt_trans hxy hyx
  rw [Path.componentsLt_irrefl] at hloop
  cases hloop

/-- The failures of files in order are determined by the files, up to the spelling of paths. -/
theorem failures_unique {fs gs : List (Path × ReadFailure)}
    (hfs : fs.Perm (files.filterMap job.failure?)) (hgs : gs.Perm (files.filterMap job.failure?))
    (hfo : InOrder fs) (hgo : InOrder gs) : fs.map failureView = gs.map failureView := by
  have hsorted : ∀ hs : List (Path × ReadFailure), InOrder hs →
      (hs.map failureView).Pairwise fun x y => Path.componentsLt y.1 x.1 = false := by
    intro hs hhs
    exact List.pairwise_map.mpr hhs
  have hpaths : ∀ hs : List (Path × ReadFailure), hs.Perm (files.filterMap job.failure?) →
      ∀ view ∈ hs.map failureView, ∃ file, (job.path file).components = view.1 ∧
        (job.read file).result = .error view.2 := by
    intro hs hhs view hview
    obtain ⟨f, hf, rfl⟩ := List.mem_map.mp hview
    obtain ⟨file, _, hfile⟩ := List.mem_filterMap.mp (hhs.mem_iff.mp hf)
    unfold failure? at hfile
    split at hfile
    · cases hfile
    · rename_i e hread
      cases hfile
      exact ⟨file, rfl, hread⟩
  refine ((hfs.trans hgs.symm).map failureView).eq_of_pairwise (fun x y hx hy hyx hxy => ?_)
    (hsorted fs hfo) (hsorted gs hgo)
  -- Two failures at one path are the same failure, since the contents are the same.
  have hfst : x.1 = y.1 := Path.eq_of_not_componentsLt hxy hyx
  obtain ⟨a, hax, hae⟩ := hpaths fs hfs x hx
  obtain ⟨b, hby, hbe⟩ := hpaths gs hgs y hy
  have hsame : (job.path a).same (job.path b) = true :=
    Path.same_iff.mpr (hax.trans (hfst.trans hby.symm))
  have hresult := (read_same hsame).2
  rw [hae, hbe] at hresult
  exact Prod.ext hfst (Except.error.inj hresult)

/-- The owners of what files define are determined by the files, up to the spelling of paths. -/
theorem OwnersOf.unique {i j : Index} (hi : job.OwnersOf start files i)
    (hj : job.OwnersOf start files j) (name : String) :
    (i.owner? name).map Path.components = (j.owner? name).map Path.components := by
  have hcovers : ∀ {i j : Index}, job.OwnersOf start files i → job.OwnersOf start files j →
      ∀ owner, i.owner? name = some owner → j.Covers name owner := by
    intro i j hi hj owner howner
    rcases hi.found name owner howner with hstart | ⟨file, hfile, hname, rfl⟩
    · exact hj.earlier name owner hstart
    · exact hj.least file hfile name hname
  exact Index.owner_components_eq (hcovers hi hj) (hcovers hj hi)

/-- Two reports of the same files are the same survey. -/
theorem Reports.same {s t : Survey} (hs : job.Reports start files s)
    (ht : job.Reports start files t) :
    s.Same t where
  units := hs.units.unique ht.units
  failures := failures_unique hs.failures ht.failures hs.inOrder ht.inOrder
  owners := hs.owners.unique ht.owners

/-- The order of the files does not matter to a report. -/
theorem Reports.perm {s : Survey} (h : job.Reports start done s) (hperm : done.Perm files) :
    job.Reports start files s where
  units := h.units.congr fun _ => hperm.mem_iff
  failures := h.failures.trans (hperm.filterMap job.failure?)
  inOrder := h.inOrder
  owners :=
    { found := fun name owner howner =>
      by simpa only [hperm.mem_iff] using h.owners.found name owner howner
      least := fun file hfile => h.owners.least file (hperm.mem_iff.mpr hfile)
      earlier := h.owners.earlier }

/-- Adding what reading a file gives makes a report of one file more. -/
theorem Reports.add {s : Survey} (h : job.Reports start done s) (file : String) :
    job.Reports start (file :: done) (s.add (job.path file) (job.read file)) := by
  have howners : job.OwnersOf start (file :: done)
      (s.index.recordAll (job.read file).defined (job.path file)) := by
    refine ⟨fun name owner howner => ?_, fun file' hmem name hname => ?_, fun name owner hstart =>
      (h.owners.earlier name owner hstart).recordAll _ _⟩
    · rcases Index.owner?_recordAll howner with hearlier | ⟨hname, hpath⟩
      · rcases h.owners.found name owner hearlier with hstart | ⟨file', hmem, hname, hpath⟩
        · exact .inl hstart
        · exact .inr ⟨file', List.mem_cons_of_mem file hmem, hname, hpath⟩
      · exact .inr ⟨file, List.mem_cons_self, hname, hpath⟩
    · rcases List.mem_cons.mp hmem with rfl | hmem
      · exact Index.covers_recordAll hname _ _
      · exact (h.owners.least file' hmem name hname).recordAll _ _
  cases hread : (job.read file).result with
  | ok u =>
    have hfailure : job.failure? file = none := by simp only [failure?, hread]
    simp only [Survey.add, hread]
    exact ⟨h.units.insert hread, by simpa only [List.filterMap_cons, hfailure] using h.failures,
      h.inOrder, howners⟩
  | error e =>
    have hfailure : job.failure? file = some (job.path file, e) := by simp only [failure?, hread]
    simp only [Survey.add, hread]
    refine ⟨h.units.skip hread, ?_, inOrder_insertFailure h.inOrder, howners⟩
    rw [List.filterMap_cons, hfailure]
    exact (insertFailure_perm _ _ _).trans (h.failures.cons _)

/-- Before any file is read there is nothing to report. -/
theorem reports_nil (job : Job) (start : Index) : job.Reports start [] { index := start } where
  units := ⟨.nil, fun _ h => absurd h List.not_mem_nil, fun _ h => absurd h List.not_mem_nil⟩
  failures := .refl _
  inOrder := .nil
  owners := ⟨fun _ _ h => .inl h, fun _ h => absurd h List.not_mem_nil,
    fun _ owner h => ⟨owner, h, Path.before_irrefl owner⟩⟩

theorem Reports.foldl_add {s : Survey} (h : job.Reports start done s) (files : List String) :
    job.Reports start (files.reverse ++ done)
      (files.foldl (fun s file => s.add (job.path file) (job.read file)) s) := by
  induction files generalizing s done with
  | nil => exact h
  | cons file files ih => simpa using ih (h.add file)

/-- A survey of the files of a parse path is a report of the selected ones. -/
theorem reports_addFiles (job : Job) (start : Index) (files : List String) :
    job.Reports start (files.filter job.selects)
      (Survey.addFiles { index := start } .builtin job.configuration job.parsePath
        (job.withContents files)) := by
  have hfold : Survey.addFiles { index := start } .builtin job.configuration job.parsePath
      (job.withContents files) = (files.filter job.selects).foldl
        (fun s file => s.add (job.path file) (job.read file)) { index := start } := by
    simp only [Survey.addFiles, withContents, List.filter_map, List.foldl_map]
    rfl
  rw [hfold]
  refine ((reports_nil job start).foldl_add _).perm ?_
  simpa only [List.append_nil] using List.reverse_perm (files.filter job.selects)

end Job

end Interop.Header
