import RaftLab.Lib.Transition
import RaftLab.Mr.Tables

/-
  The coordinator keeps its accounts: the table of the tasks
  and the map of the workers agree over all orders of the
  critical sections of AllocWork and the RPC handlers.

  A worker is what the coordinator can see of it: it registers
  once, polls when it has no task in hand, and reports each
  task that it was given once or, if it fails, not at all.

  Main declarations:
    * `Mr.Office`, `Mr.Office.step`, `Mr.Office.system`
    * `Mr.Office.Sound`
    * `Mr.Office.sound`
    * `Mr.coordinator_accounting`
-/

------------------------------------------------------------
-- The Coordinator And Its Workers
------------------------------------------------------------

namespace RaftLab

namespace Mr

structure Task where
  type : WorkType
  id : Nat
deriving DecidableEq, Repr

/- What do_it reads from the text of a job. -/
def Work.task : Work → Option Task
| .map id _ => some { type := .map, id := id }
| .reduce id => some { type := .reduce, id := id }
| _ => Option.none

/-
  `hand` is the task a worker is executing, `accepted` the
  reports that WorkFinish has accepted so far.
-/
structure Office where
  c : Coordinator
  hand : Int → Option Task
  accepted : List (Int × Task)

inductive OfficeEvent where
  | tick (late : Bool) (free : Option Int)
  | registerWorker (w : Int)
  | getWorkerInfo (w : Int)
  | workFinish (w : Int)
  -- do_it returns an error before the report
  | abandon (w : Int)
  | workerDeath (w : Int)
deriving DecidableEq, Repr

namespace Office

def initial : Office where
  c := Coordinator.make
  hand := fun _ => none
  accepted := []

def step (job : Job) : OfficeEvent → Office → Option Office
| .tick late free, o =>
    (o.c.tick job late free).map fun c => { o with c := c }
| .registerWorker w, o =>
    -- ids are positive, and each worker registers once
    if 0 < w ∧ w ∉ o.c.workerIds then
      (o.c.registerWorker w).map fun c => { o with c := c }
    else
      none
| .getWorkerInfo w, o =>
    if w ∈ o.c.workerIds ∧ o.hand w = none then
      match (o.c.workerMap w).state with
      | .ready => some { o with
          hand := Function.update o.hand w
            (o.c.workerMap w).work.task }
      | _ => some o
    else
      none
| .workFinish w, o =>
    if o.c.locked then
      none
    else
      (o.hand w).bind fun task =>
        (o.c.workFinish w task.id).map fun result => {
          c := result.1
          hand := Function.update o.hand w none
          accepted :=
            if result.2 then o.accepted ++ [(w, task)]
            else o.accepted }
| .abandon w, o =>
    some { o with hand := Function.update o.hand w none }
| .workerDeath w, o =>
    if (o.c.workerMap w).state = .exiting ∧
        o.hand w = none then
      some { o with c := o.c.workerDeath w }
    else
      none

def system (job : Job) : System Office OfficeEvent where
  init o := o = initial
  step := step job

end Office

theorem newJob_task
    (job : Job)
    (t : WorkType)
    (i : Nat) :
    (job.newJob t i).task = some { type := t, id := i } := by
  cases t <;> rfl

------------------------------------------------------------
-- Tasks In Hand And Accepted Reports
------------------------------------------------------------

/-
  A worker with a task in hand is ready for that task, or has
  been marked Death; a reduce task means that the map phase
  is over.
-/
structure Coordinator.Executes
    (job : Job)
    (c : Coordinator)
    (x : Int)
    (task : Task) : Prop where
  bound : task.id < job.size task.type
  phase : task.type = .reduce → c.pc.table = some .reduce
  worker :
    (c.workerMap x).state = .death ∨
      c.workerMap x = {
        state := .ready
        work := job.newJob task.type task.id }

/- How often a task has been completed, by the table. -/
def Coordinator.completed
    (job : Job)
    (c : Coordinator)
    (task : Task) : Nat :=
  if c.pc.table = some task.type then
    if c.workInfo[task.id]? = some (-1) then 1 else 0
  else if c.pc.table = some .reduce ∧
      task.id < job.size task.type then
    1
  else
    0

structure Office.Sound (job : Job) (o : Office) : Prop where
  tables : o.c.Sound job
  hand : ∀ x task,
    o.hand x = some task → o.c.Executes job x task
  counts : ∀ task,
    (o.accepted.filter fun report =>
        report.2 = task).length =
      o.c.completed job task

section Steps

variable {job : Job} {c c' : Coordinator}

/- An executing worker that is not dead has its task assigned. -/
theorem Coordinator.Executes.given
    {x : Int}
    {task : Task}
    (hExecutes : c.Executes job x task)
    (hSound : c.Sound job)
    (hAlive : (c.workerMap x).state ≠ .death) :
    c.pc.table = some task.type ∧
      c.Given job task.id x ∧
      0 < x ∧
      c.workInfo[task.id]? = some x := by
  rcases hExecutes.worker with hDeath | hReady
  · exact absurd hDeath hAlive
  · rcases hSound.ready x (by rw [hReady]) with
      ⟨i, hPos, ⟨t, hTable, hWorker⟩, hAt⟩
    rw [hReady] at hWorker
    injection hWorker with _ hWork
    rcases newJob_inj hWork with ⟨hType, hId⟩
    rw [← hType] at hTable
    rw [← hId] at hAt
    exact ⟨hTable, ⟨task.type, hTable, hReady⟩, hPos, hAt⟩

/- A change that touches neither the worker nor the phase. -/
theorem Coordinator.Executes.congr
    {x : Int}
    {task : Task}
    (hExecutes : c.Executes job x task)
    (hTable : c.pc.table = some .reduce →
      c'.pc.table = some .reduce)
    (hWorker : c'.workerMap x = c.workerMap x) :
    c'.Executes job x task where
  bound := hExecutes.bound
  phase hType := hTable (hExecutes.phase hType)
  worker := by
    rw [hWorker]
    exact hExecutes.worker

/- Only the making of a new table changes the phase. -/
theorem Ticked.table_eq
    (hTicked : Ticked job c c') :
    (∃ t, c.pc = .makeTable t ∧ c' = { c with
        workInfo := List.replicate (job.size t) 0
        pc := .top t }) ∨
      c'.pc.table = c.pc.table := by
  cases hTicked with
  | @table t hPc => exact Or.inl ⟨t, hPc, rfl⟩
  | again hPc =>
      right
      rcases hPc with hPc | ⟨i, hPc⟩
      · rw [hPc]
        rfl
      · rw [hPc]
        rfl
  | @finished t hPc hAll =>
      right
      rw [hPc]
      cases t <;> rfl
  | wait hPc => exact Or.inr rfl
  | working hPc => exact Or.inr (by rw [hPc]; rfl)
  | lock hPc => exact Or.inr (by rw [hPc]; rfl)
  | late hPc hAt hReady hDone =>
      exact Or.inr (by rw [hPc]; rfl)
  | pass hPc => exact Or.inr (by rw [hPc]; rfl)
  | unlock hPc => exact Or.inr (by rw [hPc]; rfl)
  | ready hPc hReady => exact Or.inr (by rw [hPc]; rfl)
  | chosen hPc hMem hFree =>
      exact Or.inr (by rw [hPc]; rfl)
  | assignWork hPc => exact Or.inr (by rw [hPc]; rfl)
  | assignWorker hPc => exact Or.inr (by rw [hPc]; rfl)
  | exiting hPc => exact Or.inr (by rw [hPc]; rfl)
  | exit hPc => exact Or.inr (by rw [hPc]; rfl)
  | dead hPc => exact Or.inr (by rw [hPc]; rfl)

theorem Ticked.table_reduce
    (hTicked : Ticked job c c')
    (hReduce : c.pc.table = some .reduce) :
    c'.pc.table = some .reduce := by
  rcases hTicked.table_eq with ⟨t, hPc, _⟩ | hSame
  · rw [hPc] at hReduce
    cases t <;> cases hReduce
  · rw [hSame]
    exact hReduce

/-
  What a step of the goroutine does to a worker: nothing, or
  it marks it Death, gives a free worker a task, or tells it
  to exit when nobody is ready.
-/
theorem Ticked.worker
    (hTicked : Ticked job c c')
    (hSound : c.Sound job)
    (x : Int) :
    c'.workerMap x = c.workerMap x ∨
      (c'.workerMap x).state = .death ∨
      (c.workerMap x).state = .free ∨
      ((c.workerMap x).state ≠ .death ∧
        (c.workerMap x).state ≠ .ready) := by
  cases hTicked with
  | @late t i w hPc hAt hReady hDone =>
      by_cases hEq : x = w
      · right
        left
        rw [hEq]
        simp
      · left
        simp [Function.update_of_ne hEq]
  | @assignWorker t i w hPc =>
      by_cases hEq : x = w
      · right
        right
        left
        rw [hEq]
        exact (hSound.assignWorker t i w hPc).2.2
      · left
        simp [Function.update_of_ne hEq]
  | exit hPc =>
      by_cases hDeath : (c.workerMap x).state = .death
      · left
        simp [Coordinator.exitAll, hDeath]
      · right
        right
        right
        exact ⟨hDeath,
          hSound.not_ready (by rw [hPc]; rfl) x⟩
  | _ => exact Or.inl rfl

theorem Coordinator.Executes.tick
    {x : Int}
    {task : Task}
    (hExecutes : c.Executes job x task)
    (hSound : c.Sound job)
    (hTicked : Ticked job c c') :
    c'.Executes job x task := by
  have hBusy : (c.workerMap x).state = .death ∨
      (c.workerMap x).state = .ready := by
    rcases hExecutes.worker with hDeath | hReady
    · exact Or.inl hDeath
    · right
      rw [hReady]
  rcases hTicked.worker hSound x with
    hSame | hDeath | hFree | ⟨hAlive, hIdle⟩
  · exact hExecutes.congr hTicked.table_reduce hSame
  · exact ⟨hExecutes.bound,
      fun hType =>
        hTicked.table_reduce (hExecutes.phase hType),
      Or.inl hDeath⟩
  · rw [hFree] at hBusy
    rcases hBusy with h | h <;> cases h
  · rcases hBusy with h | h
    · exact absurd h hAlive
    · exact absurd h hIdle

/- Writing over a place that is not done, with something else. -/
theorem getElem_set_done_iff
    {l : List Int}
    {i : Nat}
    {x y : Int}
    (hAt : l[i]? = some x)
    (hBefore : x ≠ -1)
    (hAfter : y ≠ -1)
    (j : Nat) :
    (l.set i y)[j]? = some (-1) ↔ l[j]? = some (-1) := by
  by_cases hIndex : i = j
  · rw [← hIndex, hAt, List.getElem?_set_self
      (List.getElem?_eq_some_iff.mp hAt).1]
    simp [hBefore, hAfter]
  · rw [List.getElem?_set_ne hIndex]

theorem Coordinator.completed_congr
    {task : Task}
    (hTable : c'.pc.table = c.pc.table)
    (hDone : c'.workInfo[task.id]? = some (-1) ↔
      c.workInfo[task.id]? = some (-1)) :
    c'.completed job task = c.completed job task := by
  unfold Coordinator.completed
  rw [hTable]
  simp only [hDone]

/- A new table: nothing of its phase is done yet. -/
theorem Coordinator.Sound.completed_table
    (hSound : c.Sound job)
    {t : WorkType}
    (hPc : c.pc = .makeTable t)
    (task : Task) :
    Coordinator.completed job { c with
        workInfo := List.replicate (job.size t) 0
        pc := .top t } task =
      c.completed job task := by
  have hNew : (List.replicate (job.size t) (0 : Int))[
      task.id]? ≠ some (-1) := by
    intro hAt
    have hZero := List.eq_of_mem_replicate
      (List.mem_of_getElem? hAt)
    omega
  unfold Coordinator.completed
  rcases task with ⟨type, id⟩
  cases t with
  | map =>
      rw [hPc]
      cases type <;> simp_all [Pc.table]
  | reduce =>
      have hSize : c.workInfo.length = job.size .map :=
        hSound.size .map (by rw [hPc]; rfl)
      have hAll := hSound.finished (by rw [hPc]; rfl)
      rw [hPc]
      cases type with
      | reduce => simp_all [Pc.table]
      | map =>
          by_cases hBound : id < job.size .map
          · have hDone :
                c.workInfo[id]? = some (-1) := by
              rw [List.getElem?_eq_getElem
                (by rw [hSize]; exact hBound)]
              exact congrArg some
                (hAll _ (List.getElem_mem _))
            simp [Pc.table, hBound, hDone]
          · have hOut : c.workInfo[id]? = none := by
              rw [List.getElem?_eq_none_iff, hSize]
              omega
            simp [Pc.table, hBound, hOut]

theorem Coordinator.Sound.completed_tick
    (hSound : c.Sound job)
    (hTicked : Ticked job c c')
    (task : Task) :
    c'.completed job task = c.completed job task := by
  rcases hTicked.table_eq with ⟨t, hPc, hNew⟩ | hSame
  · rw [hNew]
    exact hSound.completed_table hPc task
  · apply Coordinator.completed_congr hSame
    cases hTicked with
    | @table t hPc =>
        rw [hPc] at hSame
        cases t <;> cases hSame
    | late hPc hAt hReady hDone =>
        exact getElem_set_done_iff hAt hDone (by omega) _
    | @assignWork t i w hPc =>
        rcases hSound.assignWork t i w hPc with
          ⟨hZero, hPos, _⟩
        exact getElem_set_done_iff hZero (by omega)
          (by omega) _
    | _ => exact Iff.rfl

/- An accepted report completes its task, and no other. -/
theorem Coordinator.completed_report
    {w : Int}
    {task : Task}
    (hTable : c.pc.table = some task.type)
    (hPos : 0 < w)
    (hAt : c.workInfo[task.id]? = some w)
    (hSame : c'.pc.table = c.pc.table)
    (hInfo : c'.workInfo = c.workInfo.set task.id (-1))
    (task' : Task) :
    c'.completed job task' =
      c.completed job task' +
        if task' = task then 1 else 0 := by
  have hBound : task.id < c.workInfo.length :=
    (List.getElem?_eq_some_iff.mp hAt).1
  by_cases hTask : task' = task
  · have hNot : w ≠ -1 := by omega
    unfold Coordinator.completed
    rw [hTask, hSame, hTable, if_pos rfl, if_pos rfl, hInfo,
      List.getElem?_set_self hBound, hAt]
    simp [hNot]
  · rw [if_neg hTask, Nat.add_zero]
    by_cases hType : task'.type = task.type
    · apply Coordinator.completed_congr hSame
      have hId : task.id ≠ task'.id := by
        intro hEq
        apply hTask
        rcases task with ⟨t, i⟩
        rcases task' with ⟨t', i'⟩
        simp only at hType hEq
        rw [hType, hEq]
      rw [hInfo, List.getElem?_set_ne hId]
    · have hOther : ¬ some task.type = some task'.type := by
        intro hEq
        exact hType (Option.some.inj hEq).symm
      simp only [Coordinator.completed, hSame, hTable,
        if_neg hOther]

------------------------------------------------------------
-- What Each Step Keeps
------------------------------------------------------------

variable {o o' : Office}

theorem Office.Sound.tick
    (hSound : o.Sound job)
    {late : Bool}
    {free : Option Int}
    (hStep : Office.step job (.tick late free) o = some o') :
    o'.Sound job := by
  rcases Option.map_eq_some_iff.mp hStep with
    ⟨c', hTick, hNext⟩
  have hTicked := Coordinator.tick_spec hTick
  rw [← hNext]
  refine ⟨hSound.tables.tick hTicked, ?_, ?_⟩
  · intro x task hHand
    exact (hSound.hand x task hHand).tick hSound.tables
      hTicked
  · intro task
    rw [hSound.tables.completed_tick hTicked task]
    exact hSound.counts task

theorem Office.Sound.registerWorker
    (hSound : o.Sound job)
    {w : Int}
    (hStep :
      Office.step job (.registerWorker w) o = some o') :
    o'.Sound job := by
  rw [Office.step] at hStep
  split at hStep
  · next hNew =>
      rcases Option.map_eq_some_iff.mp hStep with
        ⟨c', hRegister, hNext⟩
      unfold Coordinator.registerWorker at hRegister
      split at hRegister
      · cases hRegister
        rw [← hNext]
        have hFree := hSound.tables.registered.missing w
          hNew.2
        refine ⟨?_, ?_, hSound.counts⟩
        · apply hSound.tables.setWorker hNew.1
          · rw [hFree]
            intro hEq
            cases hEq
          · intro hEq
            cases hEq
          · intro _
            rfl
        · intro x task hHand
          have hOld := hSound.hand x task hHand
          have hNe : x ≠ w := by
            intro hEq
            rw [hEq] at hOld
            rcases hOld.worker with hState | hWorker
            · rw [hFree] at hState
              cases hState
            · rw [hWorker] at hFree
              cases hFree
          exact hOld.congr (fun hTable => hTable)
            (Function.update_of_ne hNe _ _)
      · cases hRegister
  · cases hStep

/- A polling worker is handed the task it is ready for. -/
theorem Office.Sound.getWorkerInfo
    (hSound : o.Sound job)
    {w : Int}
    (hStep :
      Office.step job (.getWorkerInfo w) o = some o') :
    o'.Sound job := by
  rw [Office.step] at hStep
  split at hStep
  · split at hStep
    · next hReady =>
        cases hStep
        refine ⟨hSound.tables, ?_, hSound.counts⟩
        intro x task hHand
        simp only at hHand
        by_cases hEq : x = w
        · rw [hEq, Function.update_self] at hHand
          rcases hSound.tables.ready w hReady with
            ⟨i, _, ⟨t, hTable, hWorker⟩, hAt⟩
          rw [hWorker, newJob_task] at hHand
          cases hHand
          rw [hEq]
          refine ⟨?_, ?_, Or.inr hWorker⟩
          · rw [← hSound.tables.size t hTable]
            exact (List.getElem?_eq_some_iff.mp hAt).1
          · intro hType
            have hReduce : t = .reduce := hType
            rw [← hReduce]
            exact hTable
        · rw [Function.update_of_ne hEq] at hHand
          exact hSound.hand x task hHand
    · cases hStep
      exact hSound
  · cases hStep

theorem Office.Sound.drop
    (hSound : o.Sound job)
    (w : Int) :
    Office.Sound job { o with
      hand := Function.update o.hand w none } := by
  refine ⟨hSound.tables, ?_, hSound.counts⟩
  intro x task hHand
  simp only at hHand
  by_cases hEq : x = w
  · rw [hEq, Function.update_self] at hHand
    cases hHand
  · rw [Function.update_of_ne hEq] at hHand
    exact hSound.hand x task hHand

/-
  A report: of a worker marked Death it changes nothing, and
  otherwise the task is assigned to the worker.
-/
theorem Office.Sound.workFinish_cases
    (hSound : o.Sound job)
    {w : Int}
    (hStep :
      Office.step job (.workFinish w) o = some o') :
    ∃ task,
      o.hand w = some task ∧
      (((o.c.workerMap w).state = .death ∧
          o' = { o with
            hand := Function.update o.hand w none }) ∨
        ((o.c.workerMap w).state ≠ .death ∧
          o.c.pc.table = some task.type ∧
          o.c.Given job task.id w ∧
          0 < w ∧
          o.c.workInfo[task.id]? = some w ∧
          o' = {
            c := { o.c.setWorker w
                { state := .free, work := .empty } with
              workInfo := o.c.workInfo.set task.id (-1) }
            hand := Function.update o.hand w none
            accepted := o.accepted ++ [(w, task)] })) := by
  rw [Office.step] at hStep
  split at hStep
  · cases hStep
  · rcases Option.bind_eq_some_iff.mp hStep with
      ⟨task, hHand, hRest⟩
    refine ⟨task, hHand, ?_⟩
    rcases Option.map_eq_some_iff.mp hRest with
      ⟨result, hFinish, hNext⟩
    unfold Coordinator.workFinish at hFinish
    by_cases hDeath : (o.c.workerMap w).state = .death
    · rw [if_pos hDeath] at hFinish
      cases hFinish
      exact Or.inl ⟨hDeath, hNext.symm⟩
    · rw [if_neg hDeath] at hFinish
      rcases (hSound.hand w task hHand).given hSound.tables
        hDeath with ⟨hTable, hGiven, hPos, hAt⟩
      rw [if_pos (List.getElem?_eq_some_iff.mp hAt).1]
        at hFinish
      cases hFinish
      exact Or.inr ⟨hDeath, hTable, hGiven, hPos, hAt,
        hNext.symm⟩

theorem Office.Sound.workFinish
    (hSound : o.Sound job)
    {w : Int}
    (hStep :
      Office.step job (.workFinish w) o = some o') :
    o'.Sound job := by
  rcases hSound.workFinish_cases hStep with
    ⟨task, hHand, ⟨_, hNext⟩ |
      ⟨hAlive, hTable, hGiven, hPos, hAt, hNext⟩⟩
  · rw [hNext]
    exact hSound.drop w
  · rw [hNext]
    refine ⟨hSound.tables.report hGiven, ?_, ?_⟩
    · intro x task' hHand'
      simp only at hHand'
      by_cases hEq : x = w
      · rw [hEq, Function.update_self] at hHand'
        cases hHand'
      · rw [Function.update_of_ne hEq] at hHand'
        exact (hSound.hand x task' hHand').congr id
          (Function.update_of_ne hEq _ _)
    · intro task'
      have hCount : Coordinator.completed job
            { o.c.setWorker w
                { state := .free, work := .empty } with
              workInfo := o.c.workInfo.set task.id (-1) }
            task' =
          o.c.completed job task' +
            if task' = task then 1 else 0 := by
        apply Coordinator.completed_report hTable hPos hAt
        · rfl
        · rfl
      rw [hCount, List.filter_append, List.length_append,
        hSound.counts task']
      by_cases hTask : task' = task
      · simp [hTask]
      · simp [hTask, Ne.symm hTask]

theorem Office.Sound.workerDeath
    (hSound : o.Sound job)
    {w : Int}
    (hStep :
      Office.step job (.workerDeath w) o = some o') :
    o'.Sound job := by
  rw [Office.step] at hStep
  split at hStep
  · next hExiting =>
      cases hStep
      have hMem : w ∈ o.c.workerIds := by
        by_contra hMissing
        rw [hSound.tables.registered.missing w hMissing]
          at hExiting
        cases hExiting.1
      refine ⟨?_, ?_, hSound.counts⟩
      · apply hSound.tables.setWorker
          (hSound.tables.registered.positive w hMem)
        · rw [hExiting.1]
          intro hEq
          cases hEq
        · intro hEq
          cases hEq
        · rw [hExiting.1]
          intro hEq
          cases hEq
      · intro x task hHand
        have hNe : x ≠ w := by
          intro hEq
          simp only at hHand
          rw [hEq, hExiting.2] at hHand
          cases hHand
        exact (hSound.hand x task hHand).congr
          (fun hTable => hTable)
          (Function.update_of_ne hNe _ _)
  · cases hStep

theorem Office.Sound.step
    (hSound : o.Sound job)
    {event : OfficeEvent}
    (hStep : Office.step job event o = some o') :
    o'.Sound job := by
  cases event with
  | tick late free => exact hSound.tick hStep
  | registerWorker w => exact hSound.registerWorker hStep
  | getWorkerInfo w => exact hSound.getWorkerInfo hStep
  | workFinish w => exact hSound.workFinish hStep
  | abandon w =>
      cases hStep
      exact hSound.drop w
  | workerDeath w => exact hSound.workerDeath hStep

theorem Office.sound
    (hReach :
      (Office.system job).Reachable System.always o) :
    o.Sound job := by
  apply System.Reachable.induct ?_ ?_ hReach
  · intro o hInit
    rw [hInit]
    refine ⟨Coordinator.Sound.make job, ?_, ?_⟩
    · intro x task hHand
      cases hHand
    · intro task
      rfl
  · intro o event o' _ hSound _ hStep
    exact hSound.step hStep

------------------------------------------------------------
-- The Accounts
------------------------------------------------------------

/-
  A worker marked Death stays so, and no report of it is
  accepted.
-/
theorem Office.Sound.death_stays
    (hSound : o.Sound job)
    {event : OfficeEvent}
    (hStep : Office.step job event o = some o')
    {w : Int}
    (hDeath : (o.c.workerMap w).state = .death) :
    (o'.c.workerMap w).state = .death ∧
      (o'.accepted.filter fun report => report.1 = w) =
        o.accepted.filter fun report => report.1 = w := by
  cases event with
  | tick late free =>
      rcases Option.map_eq_some_iff.mp hStep with
        ⟨c', hTick, hNext⟩
      rw [← hNext]
      refine ⟨?_, rfl⟩
      rcases (Coordinator.tick_spec hTick).worker
        hSound.tables w with
        hSame | hNew | hFree | ⟨hAlive, _⟩
      · rw [hSame]
        exact hDeath
      · exact hNew
      · rw [hDeath] at hFree
        cases hFree
      · exact absurd hDeath hAlive
  | registerWorker x =>
      rw [Office.step] at hStep
      split at hStep
      · next hNew =>
          rcases Option.map_eq_some_iff.mp hStep with
            ⟨c', hRegister, hNext⟩
          unfold Coordinator.registerWorker at hRegister
          split at hRegister
          · cases hRegister
            rw [← hNext]
            refine ⟨?_, rfl⟩
            have hNe : w ≠ x := by
              intro hEq
              rw [hEq, hSound.tables.registered.missing x
                hNew.2] at hDeath
              cases hDeath
            simp only [Coordinator.setWorker_workerMap]
            rw [Function.update_of_ne hNe]
            exact hDeath
          · cases hRegister
      · cases hStep
  | getWorkerInfo x =>
      rw [Office.step] at hStep
      split at hStep
      · split at hStep
        · cases hStep
          exact ⟨hDeath, rfl⟩
        · cases hStep
          exact ⟨hDeath, rfl⟩
      · cases hStep
  | workFinish x =>
      rcases hSound.workFinish_cases hStep with
        ⟨task, _, ⟨_, hNext⟩ | ⟨hAlive, _, _, _, _, hNext⟩⟩
      · rw [hNext]
        exact ⟨hDeath, rfl⟩
      · have hNe : w ≠ x := by
          intro hEq
          rw [hEq] at hDeath
          exact hAlive hDeath
        rw [hNext]
        constructor
        · simp only [Coordinator.setWorker_workerMap]
          rw [Function.update_of_ne hNe]
          exact hDeath
        · simp [Ne.symm hNe]
  | abandon x =>
      cases hStep
      exact ⟨hDeath, rfl⟩
  | workerDeath x =>
      rw [Office.step] at hStep
      split at hStep
      · cases hStep
        refine ⟨?_, rfl⟩
        simp only [Coordinator.workerDeath,
          Coordinator.setWorker_workerMap]
        by_cases hEq : w = x
        · rw [hEq, Function.update_self]
        · rw [Function.update_of_ne hEq]
          exact hDeath
      · cases hStep

end Steps

/-
  Over all orders of the critical sections: an accepted
  report finds its task, of the phase at hand, assigned to
  the worker that reports; a worker that is not dead has at
  most one unfinished task; a worker marked Death completes
  no task any more; and when the state is Exiting, every task
  of both phases has been completed by one accepted report.
-/
theorem coordinator_accounting
    (job : Job)
    {o : Office}
    (hReach :
      (Office.system job).Reachable System.always o) :
    (∀ w o',
      Office.step job (.workFinish w) o = some o' →
      o'.accepted ≠ o.accepted →
      ∃ task,
        o.hand w = some task ∧
        o'.accepted = o.accepted ++ [(w, task)] ∧
        o.c.pc.table = some task.type ∧
        o.c.workInfo[task.id]? = some w) ∧
    (∀ w (i j : Nat),
      (o.c.workerMap w).state ≠ .death →
      w ≠ 0 →
      w ≠ -1 →
      o.c.workInfo[i]? = some w →
      o.c.workInfo[j]? = some w →
      i = j) ∧
    (∀ w o',
      (o.c.workerMap w).state = .death →
      (Office.system job).Run System.always o o' →
      (o'.accepted.filter fun report => report.1 = w) =
        o.accepted.filter fun report => report.1 = w) ∧
    (o.c.state = .exiting →
      ∀ task : Task,
        task.id < job.size task.type →
        (o.accepted.filter fun report =>
          report.2 = task).length = 1) := by
  have hSound := Office.sound hReach
  refine ⟨?_, ?_, ?_, ?_⟩
  · intro w o' hStep hAccepted
    rcases hSound.workFinish_cases hStep with
      ⟨task, hHand, ⟨_, hNext⟩ |
        ⟨_, hTable, _, _, hAt, hNext⟩⟩
    · rw [hNext] at hAccepted
      exact absurd rfl hAccepted
    · refine ⟨task, hHand, ?_, hTable, hAt⟩
      rw [hNext]
  · intro w i j _ hReady hDone hFirst hSecond
    rcases hSound.tables.assigned i w hFirst hReady hDone with
      hGiven | ⟨t, hPc⟩
    · rcases hSound.tables.assigned j w hSecond hReady hDone
        with hGiven' | ⟨t', hPc'⟩
      · exact Coordinator.Sound.given_unique hGiven hGiven'
      · have hFree :=
          (hSound.tables.assignWorker t' j w hPc').2.2
        rw [Coordinator.Sound.given_ready hGiven] at hFree
        cases hFree
    · rcases hSound.tables.assigned j w hSecond hReady hDone
        with hGiven' | ⟨t', hPc'⟩
      · have hFree :=
          (hSound.tables.assignWorker t i w hPc).2.2
        rw [Coordinator.Sound.given_ready hGiven'] at hFree
        cases hFree
      · rw [hPc] at hPc'
        cases hPc'
        rfl
  · intro w o' hDeath hRun
    have hBoth :
        (o'.c.workerMap w).state = .death ∧
          (o'.accepted.filter fun report =>
              report.1 = w) =
            o.accepted.filter fun report =>
              report.1 = w := by
      refine System.Run.induct (P := fun o' =>
        (o'.c.workerMap w).state = .death ∧
          (o'.accepted.filter fun report =>
              report.1 = w) =
            o.accepted.filter fun report =>
              report.1 = w) ⟨hDeath, rfl⟩ ?_ hRun
      rintro t event u hBefore ⟨hDead, hSame⟩ _ hStep
      have hSound' := Office.sound (hReach.trans hBefore)
      rcases hSound'.death_stays hStep hDead with
        ⟨hDead', hSame'⟩
      exact ⟨hDead', hSame'.trans hSame⟩
    exact hBoth.2
  · intro hState task hBound
    rcases Pc.table_of_last
      (hSound.tables.exiting (Or.inl hState)) with
      ⟨hTable, hOver⟩
    rw [hSound.counts task]
    unfold Coordinator.completed
    rw [hTable]
    rcases task with ⟨type, id⟩
    cases type with
    | map => simp [hBound]
    | reduce =>
        have hSize := hSound.tables.size .reduce hTable
        have hLess : id < o.c.workInfo.length := by
          rw [hSize]
          exact hBound
        have hDone : o.c.workInfo[id] = -1 :=
          hSound.tables.finished hOver _ (List.getElem_mem hLess)
        simp [hLess, hDone]

/- One round of AllocWork that gives a task to worker 5. -/
private def assignRound : List OfficeEvent :=
  [.tick false none, .tick false none, .tick false none,
    .tick false none, .tick false (some 5),
    .tick false none, .tick false none,
    .getWorkerInfo 5, .workFinish 5]

/- One round that finds the phase finished. -/
private def lastRound : List OfficeEvent :=
  [.tick false none, .tick false none, .tick false none,
    .tick false none, .tick false none]

/- One worker does the map task and the reduce task. -/
theorem coordinator_accounting_done :
    ∃ o,
      (Office.system { files := ["f"], nReduce := 1
        }).Reachable System.always o ∧
      o.c.state = .exiting ∧
      (o.accepted.filter fun report =>
        report.2 = { type := .map, id := 0 }).length = 1 := by
  have hExec :
      ((Office.system { files := ["f"], nReduce := 1 }).exec
        ([.tick false none, .tick false none,
            .registerWorker 5] ++
          assignRound ++ lastRound ++
          assignRound ++ lastRound)
        Office.initial).any (fun o =>
          decide (o.c.state = .exiting)) = true := by
    decide +kernel
  rcases System.exists_run_of_exec hExec with
    ⟨o, hRun, hState⟩
  have hReach : (Office.system { files := ["f"], nReduce := 1
      }).Reachable System.always o :=
    ⟨Office.initial, rfl, hRun⟩
  have hExiting : o.c.state = .exiting :=
    of_decide_eq_true hState
  exact ⟨o, hReach, hExiting,
    (coordinator_accounting _ hReach).2.2.2 hExiting
      { type := .map, id := 0 } (by decide)⟩

end Mr

end RaftLab
