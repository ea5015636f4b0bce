import Mathlib.Data.List.Basic
import Mathlib.Logic.Function.Basic

/-
  The MapReduce coordinator (src/mr/coordinator.go).

  The goroutine `run` goes through a program counter with one
  step for each critical section of AllocWork; the RPC
  handlers are functions of their own. The workInfoLock is
  held from one end of the crash recovery to the other, and
  WorkFinish waits for it. Within the recovery the map of the
  workers is written under its own lock, so other handlers can
  come in between two tasks. Whether ten seconds have passed
  is an input, as is which free worker is found first; the
  timestamps are left out.

  Main declarations:
    * `Mr.Worker`, `Mr.Work`, `Mr.Coordinator`
    * `Mr.Coordinator.tick`
    * `Mr.Coordinator.registerWorker`
    * `Mr.Coordinator.workFinish`
    * `Mr.Coordinator.workerDeath`
    * `Mr.Ticked`, `Mr.Coordinator.tick_spec`
-/

------------------------------------------------------------
-- Workers And Tasks
------------------------------------------------------------

namespace RaftLab

namespace Mr

/- WS_Working is never set. -/
inductive WorkerState where
  | free
  | ready
  | death
  | exiting
deriving DecidableEq, Repr

inductive WorkType where
  | map
  | reduce
deriving DecidableEq, Repr

/- The texts of a job: "Map i file" and "Reduce i i". -/
inductive Work where
  | noJob
  | empty
  | none
  | exit
  | map (id : Nat) (file : String)
  | reduce (id : Nat)
deriving DecidableEq, Repr

structure Worker where
  state : WorkerState
  work : Work
deriving DecidableEq, Repr

/- The arguments of MakeCoordinator. -/
structure Job where
  files : List String
  nReduce : Nat

/- The number of tasks of a phase. -/
def Job.size (job : Job) : WorkType → Nat
| .map => job.files.length
| .reduce => job.nReduce

def Job.newJob (job : Job) (workType : WorkType)
    (readyWork : Nat) : Work :=
  match workType with
  | .map => .map readyWork (job.files.getD readyWork "")
  | .reduce => .reduce readyWork

------------------------------------------------------------
-- The Coordinator
------------------------------------------------------------

inductive CoordinatorState where
  | starting
  | working
  | exiting
  | death
deriving DecidableEq, Repr

/- Where the goroutine `run` is. -/
inductive Pc where
  | starting
  -- c.workInfo = make([]workInfo, size)
  | makeTable (workType : WorkType)
  -- the loop of AllocWork, before its first lock
  | top (workType : WorkType)
  -- the crash recovery, with workInfoLock held
  | recover (workType : WorkType) (i : Nat)
  | scan (workType : WorkType)
  | getFreeWorker (workType : WorkType) (readyWork : Nat)
  | assignWork
      (workType : WorkType)
      (readyWork : Nat)
      (workerId : Int)
  | assignWorker
      (workType : WorkType)
      (readyWork : Nat)
      (workerId : Int)
  | exiting
  | exit
  | waitDeath
  | done
deriving DecidableEq, Repr

/-
  workInfo holds the states of the tasks: 0 is ready, -1 is
  done, another number is the worker. `workerIds` are the
  keys of workerMap; a missing key reads as the zero worker.
-/
structure Coordinator where
  workerIds : List Int
  workerMap : Int → Worker
  workInfo : List Int
  state : CoordinatorState
  pc : Pc

def Coordinator.make : Coordinator where
  workerIds := []
  workerMap := fun _ => { state := .free, work := .empty }
  workInfo := []
  state := .starting
  pc := .starting

/- c.workerMap[id] = worker -/
def Coordinator.setWorker
    (c : Coordinator)
    (id : Int)
    (worker : Worker) : Coordinator :=
  { c with
    workerIds :=
      if id ∈ c.workerIds then c.workerIds
      else c.workerIds ++ [id]
    workerMap := Function.update c.workerMap id worker }

/- What the loop over the table finds. -/
inductive Scan where
  | ready (readyWork : Nat)
  | working
  | finished
deriving DecidableEq, Repr

def scanTable : List Int → Nat → Bool → Scan
| [], _, isWorking => if isWorking then .working else .finished
| state :: rest, i, isWorking =>
    if state = 0 then
      .ready i
    else
      scanTable rest (i + 1) (isWorking || state ≠ -1)

/- The end of a call of AllocWork. -/
def WorkType.next : WorkType → Pc
| .map => .makeTable .reduce
| .reduce => .exiting

namespace Coordinator

/- Tell every worker that is not dead to exit. -/
def exitAll (c : Coordinator) : Coordinator :=
  { c with
    workerMap := fun id =>
      if id ∈ c.workerIds ∧ (c.workerMap id).state ≠ .death
      then { state := .exiting, work := .exit }
      else c.workerMap id }

/-
  One critical section of `run`. `late`: the task at hand was
  given out more than ten seconds ago. `free`: the worker
  that getFreeWorker returns.
-/
def tick
    (job : Job)
    (c : Coordinator)
    (late : Bool)
    (free : Option Int) : Option Coordinator :=
  match c.pc with
  | .starting =>
      some { c with state := .working, pc := .makeTable .map }
  | .makeTable t =>
      some { c with
        workInfo := List.replicate (job.size t) 0
        pc := .top t }
  | .top t => some { c with pc := .recover t 0 }
  | .recover t i =>
      match c.workInfo[i]? with
      | some state =>
          if state ≠ 0 ∧ state ≠ -1 ∧ late = true then
            some { c.setWorker state
                { state := .death, work := .empty } with
              workInfo := c.workInfo.set i 0
              pc := .recover t (i + 1) }
          else
            some { c with pc := .recover t (i + 1) }
      | none => some { c with pc := .scan t }
  | .scan t =>
      match scanTable c.workInfo 0 false with
      | .ready readyWork =>
          some { c with pc := .getFreeWorker t readyWork }
      | .working => some { c with pc := .top t }
      | .finished => some { c with pc := t.next }
  | .getFreeWorker t readyWork =>
      match free with
      | some workerId =>
          if workerId ∈ c.workerIds ∧
              (c.workerMap workerId).state = .free then
            some { c with
              pc := .assignWork t readyWork workerId }
          else
            none
      | none =>
          if ∀ id ∈ c.workerIds,
              (c.workerMap id).state ≠ .free then
            some { c with pc := .top t }
          else
            none
  | .assignWork t readyWork workerId =>
      some { c with
        workInfo := c.workInfo.set readyWork workerId
        pc := .assignWorker t readyWork workerId }
  | .assignWorker t readyWork workerId =>
      some { c.setWorker workerId
          { state := .ready
            work := job.newJob t readyWork } with
        pc := .top t }
  | .exiting =>
      some { c with state := .exiting, pc := .exit }
  | .exit => some { c.exitAll with pc := .waitDeath }
  | .waitDeath =>
      if ∀ id ∈ c.workerIds,
          (c.workerMap id).state = .death then
        some { c with state := .death, pc := .done }
      else
        some c
  | .done => none

/- `none`: the RPC server is not working. -/
def registerWorker
    (c : Coordinator)
    (callerId : Int) : Option Coordinator :=
  if c.state = .working then
    some (c.setWorker callerId
      { state := .free, work := .noJob })
  else
    none

/- Whether AllocWork holds workInfoLock. -/
def locked (c : Coordinator) : Bool :=
  match c.pc with
  | .recover _ _ => true
  | _ => false

/-
  WorkFinish, once it has both locks. The second component
  is false if the worker has been marked Death; an index out
  of range panics. The type of the work is not looked at.
-/
def workFinish
    (c : Coordinator)
    (callerId : Int)
    (workId : Nat) : Option (Coordinator × Bool) :=
  if (c.workerMap callerId).state = .death then
    some (c, false)
  else if workId < c.workInfo.length then
    some ({ c.setWorker callerId
        { state := .free, work := .empty } with
      workInfo := c.workInfo.set workId (-1) }, true)
  else
    none

def workerDeath (c : Coordinator) (callId : Int) :
    Coordinator :=
  c.setWorker callId { state := .death, work := .none }

------------------------------------------------------------
-- What A Step Of The Goroutine Can Do
------------------------------------------------------------

variable (c : Coordinator)

@[simp]
theorem setWorker_pc (id : Int) (worker : Worker) :
    (c.setWorker id worker).pc = c.pc := rfl

@[simp]
theorem setWorker_workerMap (id : Int) (worker : Worker) :
    (c.setWorker id worker).workerMap =
      Function.update c.workerMap id worker := rfl

theorem mem_setWorker_iff
    {id x : Int}
    {worker : Worker} :
    x ∈ (c.setWorker id worker).workerIds ↔
      x ∈ c.workerIds ∨ x = id := by
  simp only [setWorker]
  split
  · next hMem =>
      constructor
      · intro hOld
        exact Or.inl hOld
      · intro hEither
        rcases hEither with hOld | hEq
        · exact hOld
        · rw [hEq]
          exact hMem
  · rw [List.mem_append, List.mem_singleton]

end Coordinator

theorem scanTable_ready
    {l : List Int}
    {i k : Nat}
    {isWorking : Bool}
    (hScan : scanTable l i isWorking = .ready k) :
    ∃ j, k = i + j ∧ l[j]? = some 0 := by
  induction l generalizing i isWorking with
  | nil =>
      unfold scanTable at hScan
      split at hScan
      · cases hScan
      · cases hScan
  | cons state rest ih =>
      unfold scanTable at hScan
      split at hScan
      · next hReady =>
          cases hScan
          exact ⟨0, rfl, congrArg some hReady⟩
      · rcases ih hScan with ⟨j, hIndex, hAt⟩
        exact ⟨j + 1, by omega, hAt⟩

theorem scanTable_finished
    {l : List Int}
    {i : Nat}
    {isWorking : Bool}
    (hScan : scanTable l i isWorking = .finished) :
    isWorking = false ∧ ∀ state ∈ l, state = -1 := by
  induction l generalizing i isWorking with
  | nil =>
      unfold scanTable at hScan
      split at hScan
      · cases hScan
      · next hWorking =>
          refine ⟨Bool.not_eq_true _ ▸ hWorking, ?_⟩
          intro state hMem
          cases hMem
  | cons state rest ih =>
      unfold scanTable at hScan
      split at hScan
      · cases hScan
      · rcases ih hScan with ⟨hWorking, hRest⟩
        rw [Bool.or_eq_false_iff, decide_eq_false_iff_not,
          not_not] at hWorking
        refine ⟨hWorking.1, ?_⟩
        intro x hMem
        rcases List.mem_cons.mp hMem with hHere | hLater
        · rw [hHere]
          exact hWorking.2
        · exact hRest x hLater

/- The steps of the goroutine, with what each has checked. -/
inductive Ticked (job : Job) (c : Coordinator) :
    Coordinator → Prop
  | working
      (hPc : c.pc = .starting) :
      Ticked job c
        { c with state := .working, pc := .makeTable .map }
  | table
      {t : WorkType}
      (hPc : c.pc = .makeTable t) :
      Ticked job c { c with
        workInfo := List.replicate (job.size t) 0
        pc := .top t }
  | lock
      {t : WorkType}
      (hPc : c.pc = .top t) :
      Ticked job c { c with pc := .recover t 0 }
  | late
      {t : WorkType}
      {i : Nat}
      {workerId : Int}
      (hPc : c.pc = .recover t i)
      (hAt : c.workInfo[i]? = some workerId)
      (hReady : workerId ≠ 0)
      (hDone : workerId ≠ -1) :
      Ticked job c { c.setWorker workerId
          { state := .death, work := .empty } with
        workInfo := c.workInfo.set i 0
        pc := .recover t (i + 1) }
  | pass
      {t : WorkType}
      {i : Nat}
      (hPc : c.pc = .recover t i) :
      Ticked job c { c with pc := .recover t (i + 1) }
  | unlock
      {t : WorkType}
      {i : Nat}
      (hPc : c.pc = .recover t i) :
      Ticked job c { c with pc := .scan t }
  | ready
      {t : WorkType}
      {i : Nat}
      (hPc : c.pc = .scan t)
      (hReady : c.workInfo[i]? = some 0) :
      Ticked job c { c with pc := .getFreeWorker t i }
  | again
      {t : WorkType}
      (hPc : c.pc = .scan t ∨
        ∃ i, c.pc = .getFreeWorker t i) :
      Ticked job c { c with pc := .top t }
  | finished
      {t : WorkType}
      (hPc : c.pc = .scan t)
      (hAll : ∀ state ∈ c.workInfo, state = -1) :
      Ticked job c { c with pc := t.next }
  | chosen
      {t : WorkType}
      {i : Nat}
      {workerId : Int}
      (hPc : c.pc = .getFreeWorker t i)
      (hMem : workerId ∈ c.workerIds)
      (hFree : (c.workerMap workerId).state = .free) :
      Ticked job c { c with pc := .assignWork t i workerId }
  | assignWork
      {t : WorkType}
      {i : Nat}
      {workerId : Int}
      (hPc : c.pc = .assignWork t i workerId) :
      Ticked job c { c with
        workInfo := c.workInfo.set i workerId
        pc := .assignWorker t i workerId }
  | assignWorker
      {t : WorkType}
      {i : Nat}
      {workerId : Int}
      (hPc : c.pc = .assignWorker t i workerId) :
      Ticked job c { c.setWorker workerId
          { state := .ready, work := job.newJob t i } with
        pc := .top t }
  | exiting
      (hPc : c.pc = .exiting) :
      Ticked job c
        { c with state := .exiting, pc := .exit }
  | exit
      (hPc : c.pc = .exit) :
      Ticked job c { c.exitAll with pc := .waitDeath }
  | wait
      (hPc : c.pc = .waitDeath) :
      Ticked job c c
  | dead
      (hPc : c.pc = .waitDeath) :
      Ticked job c { c with state := .death, pc := .done }

theorem Coordinator.tick_spec
    {job : Job}
    {c c' : Coordinator}
    {late : Bool}
    {free : Option Int}
    (hTick : c.tick job late free = some c') :
    Ticked job c c' := by
  unfold Coordinator.tick at hTick
  cases hPc : c.pc with
  | starting =>
      rw [hPc] at hTick
      cases hTick
      exact .working hPc
  | makeTable t =>
      rw [hPc] at hTick
      cases hTick
      exact .table hPc
  | top t =>
      rw [hPc] at hTick
      cases hTick
      exact .lock hPc
  | recover t i =>
      rw [hPc] at hTick
      simp only at hTick
      split at hTick
      · next state hAt =>
          split at hTick
          · next hLate =>
              cases hTick
              exact .late hPc hAt hLate.1 hLate.2.1
          · cases hTick
            exact .pass hPc
      · cases hTick
        exact .unlock hPc
  | scan t =>
      rw [hPc] at hTick
      simp only at hTick
      split at hTick
      · next readyWork hScan =>
          rcases scanTable_ready hScan with ⟨j, hIndex, hAt⟩
          rw [Nat.zero_add] at hIndex
          rw [← hIndex] at hAt
          cases hTick
          exact .ready hPc hAt
      · cases hTick
        exact .again (Or.inl hPc)
      · next hScan =>
          cases hTick
          exact .finished hPc (scanTable_finished hScan).2
  | getFreeWorker t i =>
      rw [hPc] at hTick
      simp only at hTick
      split at hTick
      · split at hTick
        · next hFound =>
            cases hTick
            exact .chosen hPc hFound.1 hFound.2
        · cases hTick
      · split at hTick
        · cases hTick
          exact .again (Or.inr ⟨i, hPc⟩)
        · cases hTick
  | assignWork t i workerId =>
      rw [hPc] at hTick
      cases hTick
      exact .assignWork hPc
  | assignWorker t i workerId =>
      rw [hPc] at hTick
      cases hTick
      exact .assignWorker hPc
  | exiting =>
      rw [hPc] at hTick
      cases hTick
      exact .exiting hPc
  | exit =>
      rw [hPc] at hTick
      cases hTick
      exact .exit hPc
  | waitDeath =>
      rw [hPc] at hTick
      simp only at hTick
      split at hTick
      · cases hTick
        exact .dead hPc
      · cases hTick
        exact .wait hPc
  | done =>
      rw [hPc] at hTick
      cases hTick

end Mr

end RaftLab
