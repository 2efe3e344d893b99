import Mathlib.Algebra.GroupWithZero.Nat
import Interop.Proofs.Header.Report

namespace Interop.Header

/-- Whether reading a file has left only the names `pending` to be recorded: the index covers the
others. -/
def Job.Owes (job : Job) (i : Index) (file : String) (pending : List String) : Prop :=
  pending ⊆ (job.read file).defined ∧
    ∀ name ∈ (job.read file).defined, name ∈ pending ∨ i.Covers name (job.path file)

/-- Recording the next pending name leaves the others. -/
theorem Job.Owes.tail {job : Job} {i j : Index} {file name : String} {pending : List String}
    (h : job.Owes i file (name :: pending)) (hname : j.Covers name (job.path file))
    (hkept : ∀ key, i.Covers key (job.path file) → j.Covers key (job.path file)) :
    job.Owes j file pending := by
  refine ⟨fun key hkey => h.1 (List.mem_cons_of_mem name hkey), fun key hkey => ?_⟩
  rcases h.2 key hkey with hpending | hcovers
  · rcases List.mem_cons.mp hpending with rfl | hpending
    · exact .inr hname
    · exact .inl hpending
  · exact .inr (hkept key hcovers)

namespace Worker

/-- The file that a worker holds. -/
def files : Worker → List String
  | idle | stopped => []
  | reading file _ | writing file _ _ => [file]

/-- Whether the names that a worker has yet to record are all that its file owes to the index. -/
def Sound (job : Job) (i : Index) : Worker → Prop
  | idle | stopped => True
  | reading file pending => job.Owes i file pending
  | writing file name pending => job.Owes i file (name :: pending)

/-- A bound for the steps of a worker before it takes the next file. -/
def left : Worker → Nat
  | stopped => 0
  | idle => 1
  | reading _ pending => 2 + 2 * pending.length
  | writing _ _ pending => 3 + 2 * pending.length

/-- A sound worker stays so while the index grows. -/
theorem Sound.mono {job : Job} {i j : Index} {w : Worker} (h : w.Sound job i)
    (hkept : ∀ key path, i.Covers key path → j.Covers key path) : w.Sound job j := by
  cases w with
  | idle => trivial
  | stopped => trivial
  | reading file pending => exact ⟨h.1, fun key hkey => (h.2 key hkey).imp_right (hkept key _)⟩
  | writing file name pending => exact ⟨h.1, fun key hkey => (h.2 key hkey).imp_right (hkept key _)⟩

end Worker

namespace Pool

/-- What one worker does in a step: from the pool and the worker as they are to what the workers
share then and the worker as it is then. -/
inductive Move (job : Job) (p : Pool) : Worker → Pool → Worker → Prop
  | take (file : String) (rest : List String)
      (hqueue : p.queue.dropWhile (!job.selects ·) = file :: rest) :
      Move job p .idle { p with queue := rest } (.reading file (job.read file).defined)
  | stop (hqueue : p.queue.dropWhile (!job.selects ·) = []) :
      Move job p .idle { p with queue := [] } .stopped
  | pass (file name : String) (pending : List String)
      (hyields : p.index.yields name (job.path file) = false) :
      Move job p (.reading file (name :: pending)) p (.reading file pending)
  | look (file name : String) (pending : List String)
      (hyields : p.index.yields name (job.path file) = true) :
      Move job p (.reading file (name :: pending)) p (.writing file name pending)
  | record (file name : String) (pending : List String) :
      Move job p (.writing file name pending)
        { p with index := p.index.record name (job.path file) }
        (.reading file pending)
  | unit (file : String) (u : HeaderUnit) (hread : (job.read file).result = .ok u) :
      Move job p (.reading file []) { p with units := insertUnit u p.units } .idle
  | failure (file : String) (e : ReadFailure) (hread : (job.read file).result = .error e) :
      Move job p (.reading file []) { p with failures := p.failures ++ [(job.path file, e)] } .idle

variable {job : Job} {start : Index} {files done : List String} {p q : Pool} {i : Nat}

/-- A worker that has not stopped can move. -/
theorem exists_move (job : Job) {w : Worker} (hget : p.workers[i]? = some w) (hw : w ≠ .stopped) :
    ∃ p' w', Move job p w p' w' ∧ p'.workers = p.workers ∧ p.step? job i = some (p'.turn i w') := by
  simp only [step?, hget]
  cases w with
  | stopped => exact absurd rfl hw
  | idle =>
    simp only [Pool.take]
    split
    · rename_i hqueue
      exact ⟨_, _, .stop hqueue, rfl, rfl⟩
    · rename_i file rest hqueue
      exact ⟨_, _, .take file rest hqueue, rfl, rfl⟩
  | reading file pending =>
    cases pending with
    | nil =>
      simp only [handIn]
      split
      · rename_i u hread
        exact ⟨_, _, .unit file u hread, rfl, rfl⟩
      · rename_i e hread
        exact ⟨_, _, .failure file e hread, rfl, rfl⟩
    | cons name pending =>
      cases hyields : p.index.yields name (job.path file) with
      | true =>
        exact ⟨_, _, .look file name pending hyields, rfl, by simp only [hyields, if_true]⟩
      | false =>
        exact ⟨_, _, .pass file name pending hyields, rfl,
          by simp only [hyields, Bool.false_eq_true, if_false]⟩
  | writing file name pending => exact ⟨_, _, .record file name pending, rfl, rfl⟩

/-- A step is a move of one worker, the other workers staying as they are. -/
theorem move_of_step? (h : p.step? job i = some q) :
    ∃ before w after p' w', p.workers = before ++ w :: after ∧ Move job p w p' w' ∧
      q = { p' with workers := before ++ w' :: after } := by
  cases hget : p.workers[i]? with
  | none => simp [step?, hget] at h
  | some w =>
    by_cases hw : w = .stopped
    · simp [step?, hget, hw] at h
    · obtain ⟨p', w', hmove, hworkers, hstep⟩ := exists_move job hget hw
      obtain ⟨hlt, hgetElem⟩ := List.getElem?_eq_some_iff.mp hget
      obtain ⟨before, after, hsplit, -, hset⟩ := @List.exists_of_set _ _ w' _ hlt
      refine ⟨before, w, after, p', w', by rw [hsplit, hgetElem], hmove, ?_⟩
      rw [← Option.some.inj (hstep.symm.trans h), turn, hworkers, hset]

/-- The files that workers hold. -/
def held (workers : List Worker) : List String :=
  workers.flatMap Worker.files

/-- What holds between any two steps, the files `done` having been handed in. -/
structure Inv (job : Job) (start : Index) (files done : List String) (p : Pool) : Prop where
  accounted : (done ++ held p.workers ++ p.queue.filter job.selects).Perm (files.filter job.selects)
  units : job.UnitsOf done p.units
  failures : p.failures.Perm (done.filterMap job.failure?)
  found : ∀ name owner, p.index.owner? name = some owner → start.owner? name = some owner ∨
    ∃ file ∈ files.filter job.selects, name ∈ (job.read file).defined ∧ job.path file = owner
  least : ∀ file ∈ done, ∀ name ∈ (job.read file).defined, p.index.Covers name (job.path file)
  earlier : ∀ name owner, start.owner? name = some owner → p.index.Covers name owner
  sound : ∀ w ∈ p.workers, w.Sound job p.index
  manned : p.workers ≠ []
  drained : .stopped ∈ p.workers → p.queue = []

/-- The invariant holds before any worker has started. -/
theorem inv_start (job : Job) (workers : Nat) (files : List String) (index : Index) :
    Inv job index files [] (Pool.start workers files index) := by
  have hheld : held (List.replicate (max workers 1) .idle) = [] := by
    rw [held, List.flatMap_eq_nil_iff]
    intro w hw
    rw [List.eq_of_mem_replicate hw]
    rfl
  have hreports := Job.reports_nil job index
  refine ⟨?_, hreports.units, .refl _, fun name owner h => .inl h, hreports.owners.least,
    hreports.owners.earlier, fun w hw => ?_, ?_, fun hstopped => ?_⟩
  · simp only [Pool.start, hheld, List.nil_append]
    exact (List.reverse_perm files).filter _
  · rw [List.eq_of_mem_replicate hw]
    trivial
  · intro hnil
    have hlength := congrArg List.length hnil
    simp only [Pool.start, List.length_replicate, List.length_nil] at hlength
    omega
  · cases List.eq_of_mem_replicate hstopped

theorem filter_dropWhile_not (keep : String → Bool) (queue : List String) :
    (queue.dropWhile (!keep ·)).filter keep = queue.filter keep := by
  induction queue with
  | nil => rfl
  | cons file rest ih => cases h : keep file <;> simp [h, ih]

section Replace

variable {before after : List Worker} {w w' : Worker}

/-- Files stay accounted for when one worker hands its file on. -/
theorem accounted_replace {done' queue queue' all : List String}
    (h : (done ++ held (before ++ w :: after) ++ queue).Perm all)
    (hmoved : (done' ++ w'.files ++ queue').Perm (done ++ w.files ++ queue)) :
    (done' ++ held (before ++ w' :: after) ++ queue').Perm all := by
  refine .trans ?_ h
  rw [List.perm_iff_count] at hmoved ⊢
  intro file
  have hcount := hmoved file
  simp only [held, List.flatMap_append, List.flatMap_cons, List.count_append] at hcount ⊢
  omega

/-- The other workers stay sound while the index covers what it covered. -/
theorem Inv.sound_replace {j : Index} (h : Inv job start files done p)
    (hworkers : p.workers = before ++ w :: after)
    (hkept : ∀ key path, p.index.Covers key path → j.Covers key path) (hw' : w'.Sound job j) :
    ∀ v ∈ before ++ w' :: after, v.Sound job j := by
  intro v hv
  rcases List.mem_append.mp hv with hv | hv
  · exact (h.sound v (hworkers ▸ List.mem_append_left _ hv)).mono hkept
  · rcases List.mem_cons.mp hv with rfl | hv
    · exact hw'
    · have hmem : v ∈ before ++ w :: after := List.mem_append_right _ (List.mem_cons_of_mem w hv)
      exact (h.sound v (hworkers ▸ hmem)).mono hkept

/-- A worker that does not stop leaves none that stopped before the queue was empty. -/
theorem Inv.drained_replace (h : Inv job start files done p)
    (hworkers : p.workers = before ++ w :: after) (hw' : w' ≠ .stopped)
    (hstopped : .stopped ∈ before ++ w' :: after) : p.queue = [] := by
  refine h.drained ?_
  rw [hworkers]
  simp only [List.mem_append, List.mem_cons] at hstopped ⊢
  rcases hstopped with hbefore | hself | hafter
  · exact .inl hbefore
  · exact absurd hself.symm hw'
  · exact .inr (.inr hafter)

/-- When a file owes nothing more to the index, it can be counted among those handed in. -/
theorem Inv.least_cons {file : String} (h : Inv job start files done p)
    (howes : job.Owes p.index file []) :
    ∀ file' ∈ file :: done, ∀ name ∈ (job.read file').defined,
      p.index.Covers name (job.path file') := by
  intro file' hmem name hname
  rcases List.mem_cons.mp hmem with rfl | hmem
  · exact (howes.2 name hname).resolve_left List.not_mem_nil
  · exact h.least file' hmem name hname

/-- A file moves from the worker that hands it in to those that are done. -/
theorem handedIn_perm (file : String) (queue : List String) :
    (file :: done ++ Worker.idle.files ++ queue).Perm (done ++ [file] ++ queue) := by
  simp only [Worker.files, List.append_nil, List.append_assoc, List.cons_append]
  exact List.perm_middle.symm

/-- A move keeps account of the files: a file that is taken leaves the queue, and one whose reading
is handed in is done. -/
theorem Inv.move {p' : Pool} (h : Inv job start files done p)
    (hworkers : p.workers = before ++ w :: after) (hmove : Move job p w p' w') :
    ∃ done', Inv job start files done' { p' with workers := before ++ w' :: after } := by
  have haccounted := h.accounted
  rw [hworkers] at haccounted
  have hsound : w.Sound job p.index :=
    h.sound w (hworkers ▸ List.mem_append_right _ List.mem_cons_self)
  have hmanned : before ++ w' :: after ≠ [] := by simp
  cases hmove with
  | take file rest hqueue =>
    have hfilter := filter_dropWhile_not job.selects p.queue
    have hselects : job.selects file = true := by
      simpa [hqueue] using List.head?_dropWhile_not (!job.selects ·) p.queue
    rw [hqueue, List.filter_cons_of_pos hselects] at hfilter
    have howes : job.Owes p.index file (job.read file).defined :=
      ⟨List.Subset.refl _, fun name hname => .inl hname⟩
    refine ⟨done, accounted_replace (hfilter ▸ haccounted) ?_, h.units, h.failures, h.found,
      h.least, h.earlier, h.sound_replace hworkers (fun _ _ hc => hc) howes, hmanned,
        fun hstopped => ?_⟩
    · simp only [Worker.files, List.append_assoc, List.nil_append, List.singleton_append]
      exact .refl _
    · rw [h.drained_replace hworkers (by simp) hstopped] at hqueue
      cases hqueue
  | stop hqueue =>
    have hfilter := filter_dropWhile_not job.selects p.queue
    rw [← hfilter, hqueue] at haccounted
    exact ⟨done, accounted_replace haccounted (.refl _), h.units, h.failures, h.found, h.least,
      h.earlier, h.sound_replace hworkers (fun _ _ hc => hc) trivial, hmanned, fun _ => rfl⟩
  | pass file name pending hyields =>
    have howes : job.Owes p.index file pending :=
      hsound.tail (Index.covers_of_not_yields hyields) fun _ hc => hc
    exact ⟨done, accounted_replace haccounted (.refl _), h.units, h.failures, h.found, h.least,
      h.earlier, h.sound_replace hworkers (fun _ _ hc => hc) howes, hmanned,
        h.drained_replace hworkers (by simp)⟩
  | look file name pending hyields =>
    exact ⟨done, accounted_replace haccounted (.refl _), h.units, h.failures, h.found, h.least,
      h.earlier, h.sound_replace hworkers (fun _ _ hc => hc) hsound, hmanned,
        h.drained_replace hworkers (by simp)⟩
  | record file name pending =>
    -- The owner may have changed since it was looked up; recording decides again.
    have hkept : ∀ key path, p.index.Covers key path →
        (p.index.record name (job.path file)).Covers key path := fun _ _ hc => hc.record name _
    have howes : job.Owes (p.index.record name (job.path file)) file pending :=
      hsound.tail (Index.covers_record p.index name _) fun key => hkept key _
    have hfile : file ∈ files.filter job.selects :=
      haccounted.mem_iff.mp (by simp [held, Worker.files])
    refine ⟨done, accounted_replace haccounted (.refl _), h.units, h.failures,
      fun key owner howner => ?_, fun file' hmem key hkey =>
        hkept key _ (h.least file' hmem key hkey),
      fun key owner hstart => hkept key _ (h.earlier key owner hstart),
      h.sound_replace hworkers hkept howes, hmanned, h.drained_replace hworkers (by simp)⟩
    rw [Index.owner?_record] at howner
    split at howner
    · rename_i hnew
      refine .inr ⟨file, hfile, ?_, Option.some.inj howner⟩
      exact hnew.1 ▸ hsound.1 List.mem_cons_self
    · exact h.found key owner howner
  | unit file u hread =>
    have hfailure : job.failure? file = none := by simp only [Job.failure?, hread]
    exact ⟨file :: done, accounted_replace haccounted (handedIn_perm file _), h.units.insert hread,
      by simpa only [List.filterMap_cons, hfailure] using h.failures, h.found, h.least_cons hsound,
      h.earlier, h.sound_replace hworkers (fun _ _ hc => hc) trivial, hmanned,
      h.drained_replace hworkers (by simp)⟩
  | failure file e hread =>
    have hfailure : job.failure? file = some (job.path file, e) :=
      by simp only [Job.failure?, hread]
    have hfailures : (p.failures ++ [(job.path file, e)]).Perm
        ((file :: done).filterMap job.failure?) := by
      rw [List.filterMap_cons, hfailure]
      exact (List.perm_append_singleton _ _).trans (h.failures.cons _)
    exact ⟨file :: done, accounted_replace haccounted (handedIn_perm file _), h.units.skip hread,
      hfailures, h.found, h.least_cons hsound, h.earlier,
      h.sound_replace hworkers (fun _ _ hc => hc) trivial, hmanned,
        h.drained_replace hworkers (by simp)⟩

end Replace

/-- A step takes the invariant on. -/
theorem Inv.step (h : Inv job start files done p) (hstep : p.step? job i = some q) :
    ∃ done', Inv job start files done' q := by
  obtain ⟨before, w, after, p', w', hworkers, hmove, rfl⟩ := move_of_step? hstep
  exact h.move hworkers hmove

/-- The invariant holds along every schedule. -/
theorem Inv.run {schedule : List Nat} (h : Inv job start files done p)
    (hrun : p.run? job schedule = some q) : ∃ done', Inv job start files done' q := by
  induction schedule generalizing p done with
  | nil => exact ⟨done, Option.some.inj hrun ▸ h⟩
  | cons i schedule ih =>
    obtain ⟨next, hstep, hrest⟩ := Option.bind_eq_some_iff.mp hrun
    obtain ⟨done', hnext⟩ := h.step hstep
    exact ih hnext hrest

/-- All failures are reported, each as often as it occurs. -/
theorem failures_report_perm (fs gs : List (Path × ReadFailure)) :
    (fs.foldl (fun hs f => insertFailure f.1 f.2 hs) gs).Perm (fs ++ gs) := by
  induction fs generalizing gs with
  | nil => exact .refl _
  | cons f fs ih =>
    refine (ih _).trans (((insertFailure_perm f.1 f.2 gs).append_left fs).trans ?_)
    exact List.perm_middle

/-- Failures are reported in the order of their paths, whichever came first. -/
theorem failures_report_inOrder {gs : List (Path × ReadFailure)} (h : InOrder gs)
    (fs : List (Path × ReadFailure)) :
    InOrder (fs.foldl (fun hs f => insertFailure f.1 f.2 hs) gs) := by
  induction fs generalizing gs with
  | nil => exact h
  | cons f fs ih => exact ih (inOrder_insertFailure h)

/-- When all workers have stopped, all selected files have been handed in, so the pool has a report
of them. -/
theorem Inv.reports (h : Inv job start files done p) (hdone : p.isDone = true) :
    job.Reports start (files.filter job.selects) p.report := by
  have hstopped : ∀ w ∈ p.workers, w = .stopped := by
    simpa only [isDone, List.all_eq_true, beq_iff_eq] using hdone
  have hheld : held p.workers = [] := by
    rw [held, List.flatMap_eq_nil_iff]
    intro w hw
    rw [hstopped w hw]
    rfl
  have hqueue : p.queue = [] := by
    obtain ⟨w, hw⟩ := List.exists_mem_of_ne_nil _ h.manned
    exact h.drained (hstopped w hw ▸ hw)
  have haccounted := h.accounted
  simp only [hheld, hqueue, List.filter_nil, List.append_nil] at haccounted
  have hdoneReports : job.Reports start done p.report := by
    refine ⟨h.units, ?_, failures_report_inOrder .nil _, ?_⟩
    · refine .trans ?_ h.failures
      have hperm := failures_report_perm p.failures []
      rwa [List.append_nil] at hperm
    · refine ⟨fun name owner howner => ?_, h.least, h.earlier⟩
      simpa only [haccounted.mem_iff] using h.found name owner howner
  exact hdoneReports.perm haccounted

/-- A bound for the steps that a file in the queue costs, the one with which it is taken apart. -/
def cost (job : Job) (file : String) : Nat :=
  2 + 2 * (job.read file).defined.length

/-- A bound for the steps that are left. -/
def left (job : Job) (p : Pool) : Nat :=
  (p.workers.map Worker.left).sum + (p.queue.map (cost job)).sum

theorem left_replace (before after : List Worker) (w : Worker) (p : Pool) :
    left job { p with workers := before ++ w :: after } =
      (before.map Worker.left).sum + w.left + (after.map Worker.left).sum +
        (p.queue.map (cost job)).sum := by
  simp only [left, List.map_append, List.map_cons, List.sum_append, List.sum_cons]
  omega

theorem cost_dropWhile_le (job : Job) (keep : String → Bool) (queue : List String) :
    ((queue.dropWhile keep).map (cost job)).sum ≤ (queue.map (cost job)).sum := by
  obtain ⟨dropped, hsplit⟩ := List.dropWhile_suffix (l := queue) keep
  have hsum := congrArg (fun fs => (List.map (cost job) fs).sum) hsplit
  simp only [List.map_append, List.sum_append] at hsum
  omega

/-- A move uses up a step. -/
theorem Move.left_lt {before after : List Worker} {w w' : Worker} {p' : Pool}
    (hworkers : p.workers = before ++ w :: after) (hmove : Move job p w p' w') :
    left job { p' with workers := before ++ w' :: after } < left job p := by
  have hleft : left job p = left job { p with workers := before ++ w :: after } := by
    rw [← hworkers]
  rw [hleft, left_replace, left_replace]
  cases hmove with
  | take file rest hqueue =>
    have hle := cost_dropWhile_le job (!job.selects ·) p.queue
    simp only [hqueue, List.map_cons, List.sum_cons, cost] at hle
    simp only [Worker.left]
    omega
  | stop hqueue => simp only [Worker.left, List.map_nil, List.sum_nil]; omega
  | pass file name pending hyields => simp only [Worker.left, List.length_cons]; omega
  | look file name pending hyields => simp only [Worker.left, List.length_cons]; omega
  | record file name pending => simp only [Worker.left]; omega
  | unit file u hread => simp only [Worker.left, List.length_nil]; omega
  | failure file e hread => simp only [Worker.left, List.length_nil]; omega

/-- No schedule has more steps than the bound. -/
theorem length_add_left_le {schedule : List Nat} (hrun : p.run? job schedule = some q) :
    schedule.length + q.left job ≤ p.left job := by
  induction schedule generalizing p with
  | nil => rw [Option.some.inj hrun, List.length_nil, Nat.zero_add]
  | cons i schedule ih =>
    obtain ⟨next, hstep, hrest⟩ := Option.bind_eq_some_iff.mp hrun
    obtain ⟨before, w, after, p', w', hworkers, hmove, rfl⟩ := move_of_step? hstep
    have hless := hmove.left_lt hworkers
    have hle := ih hrest
    rw [List.length_cons]
    omega

/-- As long as a worker has not stopped, some worker can move. -/
theorem exists_step (job : Job) (h : p.isDone = false) : ∃ i q, p.step? job i = some q := by
  have hsome : ∃ w ∈ p.workers, w ≠ .stopped := by
    simpa [isDone] using h
  obtain ⟨w, hmem, hw⟩ := hsome
  obtain ⟨i, hlt, hget⟩ := List.getElem_of_mem hmem
  obtain ⟨p', w', -, -, hstep⟩ :=
    exists_move job (List.getElem?_eq_some_iff.mpr ⟨hlt, hget⟩) hw
  exact ⟨i, _, hstep⟩

/-- Every pool can be run until all its workers have stopped. -/
theorem exists_run_done (job : Job) (p : Pool) :
    ∃ schedule q, p.run? job schedule = some q ∧ q.isDone = true := by
  cases hdone : p.isDone with
  | true => exact ⟨[], p, rfl, hdone⟩
  | false =>
    obtain ⟨i, next, hstep⟩ := exists_step job hdone
    obtain ⟨before, w, after, p', w', hworkers, hmove, hnext⟩ := move_of_step? hstep
    have hless := hmove.left_lt hworkers
    obtain ⟨schedule, q, hrun, hq⟩ := exists_run_done job next
    exact ⟨i :: schedule, q, Option.bind_eq_some_iff.mpr ⟨next, hstep, hrun⟩, hq⟩
termination_by p.left job
decreasing_by exact hnext ▸ hless

/-- A pool is done when no worker can move. -/
theorem isDone_iff (job : Job) (p : Pool) : p.isDone = true ↔ ∀ i, p.step? job i = none := by
  constructor
  · intro hdone i
    cases hget : p.workers[i]? with
    | none => simp only [step?, hget]
    | some w =>
      have hw := List.all_eq_true.mp hdone w (List.mem_of_getElem? hget)
      rw [eq_of_beq hw] at hget
      simp only [step?, hget]
  · intro hstuck
    rw [← Bool.not_eq_false]
    intro hdone
    obtain ⟨i, q, hstep⟩ := exists_step job hdone
    rw [hstuck i] at hstep
    cases hstep

/-- Reading in parallel does not depend on the schedule. However many workers there are and in
whatever order they move, they come to an end within a bound, none of them is stuck before all have
stopped, and then the report is that of the selected files: it has the unit of each file that can be
read, the failure of each that cannot, in the order of the paths, and the least paths that define
each type. Up to the spelling of paths it is therefore the survey that reads the files one after the
other. -/
theorem report_of_run (job : Job) (start : Index) (workers : Nat) (files : List String)
    (schedule : List Nat) (p : Pool)
    (hrun : (Pool.start workers files start).run? job schedule = some p) :
    schedule.length ≤ (Pool.start workers files start).left job ∧
      (p.isDone = true ↔ ∀ i, p.step? job i = none) ∧
      (∃ more q, p.run? job more = some q ∧ q.isDone = true) ∧
      (p.isDone = true → job.Reports start (files.filter job.selects) p.report ∧
        p.report.Same (Survey.addFiles { index := start } .builtin job.configuration job.parsePath
          (job.withContents files))) := by
  refine ⟨?_, isDone_iff job p, exists_run_done job p, fun hdone => ?_⟩
  · have hlength := length_add_left_le hrun
    omega
  · obtain ⟨done, hinv⟩ := (inv_start job workers files start).run hrun
    have hreports := hinv.reports hdone
    exact ⟨hreports, hreports.same (Job.reports_addFiles job start files)⟩

/-- Two headers that define the same type, in a directory from which the text file is not read. -/
def twoHeaders : Job where
  parsePath := ⟨⟨"/h"⟩, { includes := (Pattern.ofText? "*.h").toList }⟩
  configuration := {}
  contents := fun _ => .text "enum B\x7b\x7d;"
  contents_same := fun _ _ _ => rfl

/-- A schedule in which both workers see that nobody owns the type, and the one with the lesser path
stores itself first. -/
def race : List Nat := [0, 1, 0, 1, 1, 0, 1, 0, 1, 0]

/-- Two workers that take turns with two headers and report what the survey of these reports. -/
theorem report_of_race :
    ∃ p, (Pool.start 2 ["a.h", "b.h", "c.txt"] .empty).run? twoHeaders race = some p ∧
    p.isDone = true ∧ twoHeaders.Reports .empty (["a.h", "b.h", "c.txt"].filter twoHeaders.selects)
      p.report := by
  have hsome : (((Pool.start 2 ["a.h", "b.h", "c.txt"] .empty).run? twoHeaders race).any isDone) =
      true := by
    decide +kernel
  obtain ⟨p, hrun, hdone⟩ := (Option.any_eq_true _ _).mp hsome
  exact ⟨p, hrun, hdone,
    ((report_of_run twoHeaders .empty 2 ["a.h", "b.h", "c.txt"] race p hrun).2.2.2 hdone).1⟩

end Pool

end Interop.Header
