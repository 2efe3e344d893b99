import Interop.Header.Survey

namespace Interop.Header

/-- What a pool is to read: the parse path with the configuration and the contents of its files.
What is in a file does not depend on how the path to it is spelled. -/
structure Job where
  parsePath : ParsePath
  configuration : Configuration
  contents : Path → Content
  contents_same : ∀ p q : Path, p.same q = true → contents p = contents q

namespace Job

/-- The path of a file that is named relative to the directory of the parse path. -/
def path (job : Job) (file : String) : Path :=
  job.parsePath.directory.join file

/-- Whether a file is to be read. -/
def selects (job : Job) (file : String) : Bool :=
  job.parsePath.files.selects file

/-- What reading a file gives. -/
def read (job : Job) (file : String) : Reading ReadFailure HeaderUnit :=
  FrontEnd.builtin job.configuration (job.path file) (job.contents (job.path file))

/-- The files with their contents. -/
def withContents (job : Job) (files : List String) : List (String × Content) :=
  files.map fun file => (file, job.contents (job.path file))

end Job

/-- What a worker is doing. -/
inductive Worker where
  | idle
  /-- It reads a file and has yet to record the names `pending`. -/
  | reading (file : String) (pending : List String)
  /-- It has seen that its file is to own `name`, but has not stored this. -/
  | writing (file name : String) (pending : List String)
  | stopped
deriving DecidableEq, Repr

/-- Workers with what they share. -/
structure Pool where
  workers : List Worker
  /-- The files that no worker has taken, the next one first. -/
  queue : List String
  units : List HeaderUnit := []
  /-- The failures in the order in which they were handed in. -/
  failures : List (Path × ReadFailure) := []
  index : Index

namespace Pool

/-- The pool before its workers have done anything. The last file is taken first, and there is at
least one worker. -/
def start (workers : Nat) (files : List String) (index : Index) : Pool where
  workers := List.replicate (max workers 1) .idle
  queue := files.reverse
  index

/-- Lets worker `i` do something else. -/
def turn (p : Pool) (i : Nat) (w : Worker) : Pool :=
  { p with workers := p.workers.set i w }

/-- One step of an idle worker: it takes the first file that is to be read, or stops if there is
none. The files before it are dropped. -/
def take (job : Job) (i : Nat) (p : Pool) : Pool :=
  match p.queue.dropWhile (!job.selects ·) with
  | [] => { p with queue := [] }.turn i .stopped
  | file :: rest => { p with queue := rest }.turn i (.reading file (job.read file).defined)

/-- One step of a worker that has read a file: it hands in the unit or the failure. -/
def handIn (job : Job) (i : Nat) (file : String) (p : Pool) : Pool :=
  match (job.read file).result with
  | .ok u => { p with units := insertUnit u p.units }.turn i .idle
  | .error e => { p with failures := p.failures ++ [(job.path file, e)] }.turn i .idle

/-- One step of worker `i`, if it can move. Who owns a name is looked up in one step and stored in
another; what is stored is decided again by the owner at that time. -/
def step? (job : Job) (i : Nat) (p : Pool) : Option Pool :=
  match p.workers[i]? with
  | none | some .stopped => none
  | some .idle => some (p.take job i)
  | some (.reading file []) => some (p.handIn job i file)
  | some (.reading file (name :: pending)) =>
    if p.index.yields name (job.path file) then some (p.turn i (.writing file name pending))
    else some (p.turn i (.reading file pending))
  | some (.writing file name pending) =>
    some ({ p with index := p.index.record name (job.path file) }.turn i (.reading file pending))

/-- Lets the workers move in the order of a schedule; nothing if one of them cannot. -/
def run? (job : Job) (schedule : List Nat) (p : Pool) : Option Pool :=
  schedule.foldlM (fun p i => p.step? job i) p

/-- Whether all workers have stopped. -/
def isDone (p : Pool) : Bool :=
  p.workers.all (· == .stopped)

/-- What the workers have found out, with the failures in the order of their paths. -/
def report (p : Pool) : Survey where
  units := p.units
  failures := p.failures.foldl (fun fs f => insertFailure f.1 f.2 fs) []
  index := p.index

end Pool

end Interop.Header
