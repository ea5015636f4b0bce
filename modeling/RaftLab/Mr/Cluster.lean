import RaftLab.Mr.Accounting
import RaftLab.Mr.MapReduce

/-
  Worker processes, the coordinator and the directory they
  share (src/mr/worker.go and src/mr/coordinator.go).

  A worker polls, writes one temporary file for each bucket,
  reports, and renames its files one by one unless the answer
  is an error; or it lists the directory, reads the files of
  its bucket one by one, writes its output and reports. It
  may return with an error before the report or after it, and
  crash anywhere. A report may fail on its way there or back,
  which the worker does not tell from a good answer, and a
  rename may fail, which it ignores. ReadFile gives the
  content of a path, if there is one; a worker that cannot
  read its path panics. A round of the loop that writes is
  one step: a file that is written only in part is one of a
  worker that has crashed or failed, and such a worker writes
  all files again before any rename. Keys and values are
  valid UTF-8, so that JSON gives them back unchanged.

  Main declarations:
    * `Mr.Program`, `Mr.pathOf`, `Mr.Proc`
    * `Mr.Cluster`, `Mr.Cluster.step`, `Mr.Cluster.system`
    * `Mr.Cluster.published`, `Mr.Program.NamesKept`
-/

------------------------------------------------------------
-- Workers
------------------------------------------------------------

namespace RaftLab

namespace Mr

structure Program where
  job : Job
  read : String → Option String
  mapf : String → String → List KeyValue
  reducef : String → List String → String
  sort : KeySort

/-
  The third part of the job's text: do_it splits it at blanks,
  so a file name ends at its first blank.
-/
def pathOf (file : String) : String :=
  String.ofList (file.toList.takeWhile fun ch => ch != ' ')

/- What a worker is doing. -/
inductive Proc where
  | polling
  -- about to write the temporary file of bucket `i`
  | mapping (workId : Nat) (path : String) (i : Nat)
  -- the report is made, the directory not yet listed
  | publishing
  | moving (names : List FileName)
  -- about to list the directory
  | reducing (workId : Nat)
  | reading
      (workId : Nat)
      (names : List FileName)
      (kva : List KeyValue)
  -- the output is written
  | reduced (workId : Nat)
deriving DecidableEq, Repr

/- The task that is not reported yet. -/
def Proc.task : Proc → Option Task
| .mapping workId _ _ =>
    some { type := .map, id := workId }
| .reducing workId => some { type := .reduce, id := workId }
| .reading workId _ _ =>
    some { type := .reduce, id := workId }
| .reduced workId => some { type := .reduce, id := workId }
| _ => none

/- do_it on the text of a job. -/
def Work.begin : Work → Proc
| .map workId file => .mapping workId (pathOf file) 0
| .reduce workId => .reducing workId
| _ => .polling

------------------------------------------------------------
-- The Cluster
------------------------------------------------------------

/-
  `created` are the names of all files ever written; `out`
  is what the files mr-out-i hold.
-/
structure Cluster where
  office : Office
  procs : Int → Proc
  crashed : Int → Bool
  files : Files
  created : List FileName
  out : Nat → Option (List (String × String))

inductive ClusterEvent where
  | tick (late : Bool) (free : Option Int)
  | registerWorker (w : Int)
  | workerDeath (w : Int)
  | poll (w : Int)
  | write (w : Int)
  -- WorkFinish is called; its answer may be lost
  | report (w : Int) (answered : Bool)
  -- the call does not reach the coordinator
  | unsent (w : Int)
  -- do_mapf lists the directory
  | list (w : Int) (names : List FileName)
  | rename (w : Int) (renamed : Bool)
  -- do_reducef lists the directory
  | scan (w : Int) (names : List FileName)
  | readFile (w : Int)
  -- do_it returns an error
  | abandon (w : Int)
  | crash (w : Int)
deriving DecidableEq, Repr

namespace Cluster

def initial : Cluster where
  office := Office.initial
  procs := fun _ => .polling
  crashed := fun _ => false
  files := fun _ => none
  created := []
  out := fun _ => none

def setProc
    (s : Cluster)
    (w : Int)
    (proc : Proc) : Cluster :=
  { s with procs := Function.update s.procs w proc }

/- What Readdir(-1) may return. -/
def lists (s : Cluster) (names : List FileName) : Bool :=
  decide names.Nodup &&
    names.all (fun name => (s.files name).isSome) &&
    s.created.all fun name =>
      (s.files name).isNone || decide (name ∈ names)

/- A call that the coordinator answers. -/
def call
    (p : Program)
    (s : Cluster)
    (event : OfficeEvent) : Option Cluster :=
  (Office.step p.job event s.office).map fun office =>
    { s with office := office }

/- The next round of the loop that writes temporary files. -/
def write
    (p : Program)
    (s : Cluster)
    (w : Int) : Option Cluster :=
  match s.procs w with
  | .mapping workId path i =>
      if i < p.job.nReduce then
        (p.read path).map fun content =>
          { s.setProc w (.mapping workId path (i + 1)) with
            files := Function.update s.files
              (.tmp w workId i)
              (some (bucket p.job.nReduce i
                (mapOutput p.mapf p.sort
                  { path := path, content := content })))
            created := .tmp w workId i :: s.created }
      else
        none
  | _ => none

/-
  The report, and what the worker does with the answer. If
  the call fails, IsErr is false as it was made.
-/
def report
    (p : Program)
    (s : Cluster)
    (w : Int)
    (answered : Bool) : Option Cluster :=
  match s.procs w with
  | .mapping _ _ i =>
      if i = p.job.nReduce then
        (s.call p (.workFinish w)).map fun s' =>
          if answered = true ∧
              (s.office.c.workerMap w).state = .death then
            s'.setProc w .polling
          else
            s'.setProc w .publishing
      else
        none
  | .reduced _ =>
      (s.call p (.workFinish w)).map fun s' =>
        s'.setProc w .polling
  | _ => none

/- A report of map output that the coordinator never gets. -/
def unsent
    (p : Program)
    (s : Cluster)
    (w : Int) : Option Cluster :=
  match s.procs w with
  | .mapping _ _ i =>
      if i = p.job.nReduce then
        (s.call p (.abandon w)).map fun s' =>
          s'.setProc w .publishing
      else
        none
  | _ => none

/- The next round of the loop that renames files. -/
def renameNext
    (s : Cluster)
    (w : Int)
    (renamed : Bool) : Option Cluster :=
  match s.procs w with
  | .moving (name :: names) =>
      if renamed then
        some { s.setProc w (.moving names) with
          files := rename w s.files name
          created :=
            match name with
            | .tmp _ task bucket =>
                .final task bucket :: s.created
            | .final _ _ => s.created }
      else
        some (s.setProc w (.moving names))
  | .moving [] => some (s.setProc w .polling)
  | _ => none

/- The next file of the listing, or the output. -/
def readNext
    (p : Program)
    (s : Cluster)
    (w : Int) : Option Cluster :=
  match s.procs w with
  | .reading workId (name :: names) kva =>
      some (s.setProc w (.reading workId names
        (kva ++ readBucket s.files [name] workId)))
  | .reading workId [] kva =>
      some { s.setProc w (.reduced workId) with
        out := Function.update s.out workId
          (some (reduceLoop p.reducef (p.sort.sort kva))) }
  | _ => none

/- A step of a worker that has not crashed. -/
def work
    (p : Program)
    (s : Cluster) :
    ClusterEvent → Option Cluster
| .workerDeath w =>
    if s.procs w = .polling then
      s.call p (.workerDeath w)
    else
      none
| .poll w =>
    if s.procs w = .polling then
      (s.call p (.getWorkerInfo w)).map fun s' =>
        if (s.office.c.workerMap w).state = .ready then
          s'.setProc w (s.office.c.workerMap w).work.begin
        else
          s'
    else
      none
| .write w => s.write p w
| .report w answered => s.report p w answered
| .unsent w => s.unsent p w
| .list w names =>
    if s.procs w = .publishing ∧ s.lists names = true then
      some (s.setProc w (.moving names))
    else
      none
| .rename w renamed => s.renameNext w renamed
| .scan w names =>
    match s.procs w with
    | .reducing workId =>
        if s.lists names then
          some (s.setProc w (.reading workId names []))
        else
          none
    | _ => none
| .readFile w => s.readNext p w
| .abandon w =>
    if s.procs w = .polling then
      none
    else
      (s.call p (.abandon w)).map fun s' =>
        s'.setProc w .polling
| .crash w =>
    some { s with crashed := Function.update s.crashed w true }
| _ => none

end Cluster

/- The worker that takes the step. -/
def ClusterEvent.worker : ClusterEvent → Option Int
| .tick _ _ => none
| .registerWorker _ => none
| .workerDeath w => some w
| .poll w => some w
| .write w => some w
| .report w _ => some w
| .unsent w => some w
| .list w _ => some w
| .rename w _ => some w
| .scan w _ => some w
| .readFile w => some w
| .abandon w => some w
| .crash w => some w

namespace Cluster

def step
    (p : Program)
    (event : ClusterEvent)
    (s : Cluster) : Option Cluster :=
  match event with
  | .tick late free => s.call p (.tick late free)
  | .registerWorker w => s.call p (.registerWorker w)
  | event =>
      if event.worker.any s.crashed then none
      else s.work p event

def system (p : Program) : System Cluster ClusterEvent where
  init s := s = initial
  step := step p

end Cluster

------------------------------------------------------------
-- Conditions
------------------------------------------------------------

/-
  No worker, crashed or not, still has a temporary file of
  the bucket from a map task whose report was accepted.
-/
def Cluster.published (s : Cluster) (r : Nat) : Bool :=
  s.office.accepted.all fun report =>
    decide (report.2.type ≠ .map) ||
      (s.files (.tmp report.1 report.2.id r)).isNone

end Mr

end RaftLab
