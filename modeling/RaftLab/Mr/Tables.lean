import RaftLab.Mr.Coordinator

/-
  The two tables of the coordinator agree: a task that
  workInfo gives to a worker is the task that workerMap has
  the worker ready for, except between the two critical
  sections that assign it.

  Main declarations:
    * `Mr.Pc.table`, `Mr.Coordinator.Given`
    * `Mr.Coordinator.Sound`
    * `Mr.Coordinator.Sound.tick`
    * `Mr.Coordinator.Sound.setWorker`
    * `Mr.Coordinator.Sound.report`
-/

------------------------------------------------------------
-- The Joint Invariant Of Both Tables
------------------------------------------------------------

namespace RaftLab

namespace Mr

/- The phase whose tasks workInfo lists. -/
def Pc.table : Pc → Option WorkType
| .starting => none
| .makeTable .map => none
| .makeTable .reduce => some .map
| .top t => some t
| .recover t _ => some t
| .scan t => some t
| .getFreeWorker t _ => some t
| .assignWork t _ _ => some t
| .assignWorker t _ _ => some t
| .exiting => some .reduce
| .exit => some .reduce
| .waitDeath => some .reduce
| .done => some .reduce

/- The tasks of the table are all done. -/
def Pc.finished : Pc → Bool
| .makeTable .reduce => true
| .exiting => true
| .exit => true
| .waitDeath => true
| .done => true
| _ => false

/- The state has been set to Exiting. -/
def Pc.last : Pc → Bool
| .exit => true
| .waitDeath => true
| .done => true
| _ => false

theorem Pc.table_of_last
    {pc : Pc}
    (hLast : pc.last = true) :
    pc.table = some .reduce ∧ pc.finished = true := by
  cases pc with
  | exit => exact ⟨rfl, rfl⟩
  | waitDeath => exact ⟨rfl, rfl⟩
  | done => exact ⟨rfl, rfl⟩
  | _ => cases hLast

/- The worker of a task is being written. -/
def Pc.giving : Pc → Bool
| .assignWorker _ _ _ => true
| _ => false

/- No task and no worker has been picked. -/
def Pc.quiet : Pc → Bool
| .getFreeWorker _ _ => false
| .assignWork _ _ _ => false
| .assignWorker _ _ _ => false
| _ => true

theorem newJob_inj
    {job : Job}
    {t t' : WorkType}
    {i i' : Nat}
    (hEq : job.newJob t i = job.newJob t' i') :
    t = t' ∧ i = i' := by
  cases t with
  | map =>
      cases t' with
      | map =>
          injection hEq with hId _
          exact ⟨rfl, hId⟩
      | reduce => cases hEq
  | reduce =>
      cases t' with
      | map => cases hEq
      | reduce =>
          injection hEq with hId
          exact ⟨rfl, hId⟩

/- The worker is ready to do the task of the table. -/
def Coordinator.Given
    (job : Job)
    (c : Coordinator)
    (i : Nat)
    (x : Int) : Prop :=
  ∃ t,
    c.pc.table = some t ∧
    c.workerMap x =
      { state := .ready, work := job.newJob t i }

/- Ids are positive, and a missing worker reads as free. -/
structure Coordinator.Registered (c : Coordinator) : Prop where
  positive : ∀ x ∈ c.workerIds, 0 < x
  missing : ∀ x,
    x ∉ c.workerIds → (c.workerMap x).state = .free

theorem Coordinator.Registered.setWorker
    {c : Coordinator}
    (hRegistered : c.Registered)
    {w : Int}
    (hPos : 0 < w)
    (worker : Worker) :
    (c.setWorker w worker).Registered where
  positive x hMem := by
    rcases c.mem_setWorker_iff.mp hMem with hOld | hNew
    · exact hRegistered.positive x hOld
    · rw [hNew]
      exact hPos
  missing x hMem := by
    rw [c.mem_setWorker_iff, not_or] at hMem
    rw [c.setWorker_workerMap,
      Function.update_of_ne hMem.2]
    exact hRegistered.missing x hMem.1

theorem Coordinator.Given.congr
    {job : Job}
    {c c' : Coordinator}
    {i : Nat}
    {x : Int}
    (hGiven : c.Given job i x)
    (hTable : c'.pc.table = c.pc.table)
    (hWorker : c'.workerMap x = c.workerMap x) :
    c'.Given job i x := by
  rcases hGiven with ⟨t, hOld, hReady⟩
  exact ⟨t, hTable.trans hOld, hWorker.trans hReady⟩

structure Coordinator.Sound
    (job : Job)
    (c : Coordinator) : Prop where
  registered : c.Registered
  size : ∀ t,
    c.pc.table = some t →
    c.workInfo.length = job.size t
  assigned : ∀ i x,
    c.workInfo[i]? = some x →
    x ≠ 0 →
    x ≠ -1 →
    c.Given job i x ∨ ∃ t, c.pc = .assignWorker t i x
  ready : ∀ x,
    (c.workerMap x).state = .ready →
    ∃ i, 0 < x ∧ c.Given job i x ∧ c.workInfo[i]? = some x
  choosing : ∀ t i,
    c.pc = .getFreeWorker t i →
    c.workInfo[i]? = some 0
  assignWork : ∀ t i x,
    c.pc = .assignWork t i x →
    c.workInfo[i]? = some 0 ∧ 0 < x ∧
      (c.workerMap x).state = .free
  assignWorker : ∀ t i x,
    c.pc = .assignWorker t i x →
    c.workInfo[i]? = some x ∧ 0 < x ∧
      (c.workerMap x).state = .free
  finished : c.pc.finished = true → ∀ x ∈ c.workInfo, x = -1
  exiting :
    c.state = .exiting ∨ c.state = .death →
    c.pc.last = true

namespace Coordinator.Sound

variable {job : Job} {c : Coordinator}

theorem make (job : Job) :
    Coordinator.make.Sound job where
  registered := {
    positive := fun x hMem => by cases hMem
    missing := fun x _ => rfl }
  size t hTable := by cases hTable
  assigned i x hAt := by cases hAt
  ready x hReady := by cases hReady
  choosing t i hPc := by cases hPc
  assignWork t i x hPc := by cases hPc
  assignWorker t i x hPc := by cases hPc
  finished hOver := by cases hOver
  exiting hState := by
    rcases hState with hState | hState <;> cases hState

/- A worker is given one task at most. -/
theorem given_unique
    {x : Int}
    {i j : Nat}
    (hFirst : c.Given job i x)
    (hSecond : c.Given job j x) :
    i = j := by
  rcases hFirst with ⟨t, _, hWorker⟩
  rcases hSecond with ⟨t', _, hWorker'⟩
  rw [hWorker] at hWorker'
  injection hWorker' with _ hWork
  exact (newJob_inj hWork).2

theorem given_ready
    {x : Int}
    {i : Nat}
    (hGiven : c.Given job i x) :
    (c.workerMap x).state = .ready := by
  rcases hGiven with ⟨t, _, hWorker⟩
  rw [hWorker]

/- When a phase is over, no worker is ready. -/
theorem not_ready
    (hSound : c.Sound job)
    (hOver : c.pc.finished = true)
    (x : Int) :
    (c.workerMap x).state ≠ .ready := by
  intro hReady
  rcases hSound.ready x hReady with ⟨i, hPos, _, hAt⟩
  have hDone := hSound.finished hOver x
    (List.mem_of_getElem? hAt)
  omega

/- Steps that only move the program counter. -/
theorem move
    (hSound : c.Sound job)
    {pc₀ pc : Pc}
    {state : CoordinatorState}
    (hPc : c.pc = pc₀)
    (hSame : pc.table = pc₀.table)
    (hFrom : pc₀.giving = false)
    (hOver : pc.finished = true →
      ∀ x ∈ c.workInfo, x = -1)
    (hChoosing : ∀ t i, pc = .getFreeWorker t i →
      c.workInfo[i]? = some 0)
    (hAssign : ∀ t i x, pc = .assignWork t i x →
      c.workInfo[i]? = some 0 ∧ 0 < x ∧
        (c.workerMap x).state = .free)
    (hTo : pc.giving = false)
    (hState : state = .exiting ∨ state = .death →
      pc.last = true) :
    Sound job { c with state := state, pc := pc } := by
  have hTable : pc.table = c.pc.table := by
    rw [hPc]
    exact hSame
  refine ⟨⟨hSound.registered.positive,
    hSound.registered.missing⟩, ?_, ?_, ?_, hChoosing,
    hAssign, ?_, hOver, hState⟩
  · intro t hNew
    rw [hTable] at hNew
    exact hSound.size t hNew
  · intro i x hAt hReady hDone
    left
    rcases hSound.assigned i x hAt hReady hDone with
      hOld | ⟨t, hGiving⟩
    · exact hOld.congr hTable rfl
    · rw [← hPc, hGiving] at hFrom
      cases hFrom
  · intro x hReady
    rcases hSound.ready x hReady with ⟨i, hPos, hOld, hAt⟩
    exact ⟨i, hPos, hOld.congr hTable rfl, hAt⟩
  · intro t i x hGiving
    have hNew : pc = .assignWorker t i x := hGiving
    rw [hNew] at hTo
    cases hTo

/- Steps to a place where nothing has been picked. -/
theorem go
    (hSound : c.Sound job)
    {pc₀ pc : Pc}
    {state : CoordinatorState}
    (hPc : c.pc = pc₀)
    (hTable : pc.table = pc₀.table)
    (hFrom : pc₀.giving = false)
    (hQuiet : pc.quiet = true)
    (hOver : pc.finished = true →
      ∀ x ∈ c.workInfo, x = -1)
    (hState : state = .exiting ∨ state = .death →
      pc.last = true) :
    Sound job { c with state := state, pc := pc } := by
  apply hSound.move hPc hTable hFrom hOver
  · intro t i hNew
    rw [hNew] at hQuiet
    cases hQuiet
  · intro t i x hNew
    rw [hNew] at hQuiet
    cases hQuiet
  · cases pc <;> first | rfl | cases hQuiet
  · exact hState

/- The new table, which no worker has a task of. -/
theorem table
    (hSound : c.Sound job)
    {t : WorkType}
    (hPc : c.pc = .makeTable t) :
    Sound job { c with
      workInfo := List.replicate (job.size t) 0
      pc := .top t } := by
  have hNone : ∀ x, (c.workerMap x).state ≠ .ready := by
    intro x hReady
    cases t with
    | map =>
        rcases hSound.ready x hReady with
          ⟨i, _, ⟨t', hTable, _⟩, _⟩
        rw [hPc] at hTable
        cases hTable
    | reduce =>
        exact hSound.not_ready (by rw [hPc]; rfl) x hReady
  refine ⟨⟨hSound.registered.positive,
    hSound.registered.missing⟩, ?_, ?_, ?_, ?_, ?_, ?_, ?_,
    ?_⟩
  · intro t' hTable
    cases hTable
    exact List.length_replicate
  · intro i x hAt hReady
    have hZero := List.eq_of_mem_replicate
      (List.mem_of_getElem? hAt)
    exact absurd hZero hReady
  · intro x hReady
    exact absurd hReady (hNone x)
  · intro t' i hTop
    cases hTop
  · intro t' i x hTop
    cases hTop
  · intro t' i x hTop
    cases hTop
  · intro hOver
    cases hOver
  · intro hState
    have hLast := hSound.exiting hState
    rw [hPc] at hLast
    cases hLast

/- A task that takes too long: its worker is marked Death. -/
theorem late
    (hSound : c.Sound job)
    {t : WorkType}
    {i : Nat}
    {w : Int}
    (hPc : c.pc = .recover t i)
    (hAt : c.workInfo[i]? = some w)
    (hReady : w ≠ 0)
    (hDone : w ≠ -1) :
    Sound job { c.setWorker w
        { state := .death, work := .empty } with
      workInfo := c.workInfo.set i 0
      pc := .recover t (i + 1) } := by
  have hTable : c.pc.table = some t := by rw [hPc]; rfl
  have hGiven : c.Given job i w := by
    rcases hSound.assigned i w hAt hReady hDone with
      hOld | ⟨t', hPc'⟩
    · exact hOld
    · rw [hPc] at hPc'
      cases hPc'
  have hKeep : ∀ j x, x ≠ w → c.Given job j x →
      Coordinator.Given job { c.setWorker w
          { state := .death, work := .empty } with
        workInfo := c.workInfo.set i 0
        pc := .recover t (i + 1) } j x := by
    intro j x hNe hOld
    exact hOld.congr hTable.symm
      (Function.update_of_ne hNe _ _)
  rcases hSound.ready w (given_ready hGiven) with
    ⟨_, hPos, _⟩
  have hRegistered := hSound.registered.setWorker hPos
    { state := .death, work := .empty }
  refine ⟨⟨hRegistered.positive, hRegistered.missing⟩,
    ?_, ?_, ?_, ?_, ?_, ?_, ?_, ?_⟩
  · intro t' hNew
    rw [List.length_set]
    exact hSound.size t' (hTable.trans hNew)
  · intro j x hSet hReady' hDone'
    left
    rw [List.getElem?_set] at hSet
    split at hSet
    · split at hSet
      · cases hSet
        exact absurd rfl hReady'
      · cases hSet
    · next hOther =>
        rcases hSound.assigned j x hSet hReady' hDone' with
          hOld | ⟨t', hPc'⟩
        · apply hKeep j x _ hOld
          intro hEq
          rw [hEq] at hOld
          exact hOther (given_unique hGiven hOld)
        · rw [hPc] at hPc'
          cases hPc'
  · intro x hReady'
    simp only [Coordinator.setWorker_workerMap] at hReady'
    by_cases hEq : x = w
    · rw [hEq, Function.update_self] at hReady'
      cases hReady'
    · rw [Function.update_of_ne hEq] at hReady'
      rcases hSound.ready x hReady' with
        ⟨j, hPos, hOld, hSame⟩
      refine ⟨j, hPos, hKeep j x hEq hOld, ?_⟩
      have hOther : i ≠ j := by
        intro hIndex
        rw [hIndex, hSame] at hAt
        exact hEq (Option.some.inj hAt)
      rw [List.getElem?_set_ne hOther]
      exact hSame
  · intro t' j hNew
    cases hNew
  · intro t' j x hNew
    cases hNew
  · intro t' j x hNew
    cases hNew
  · intro hOver
    cases hOver
  · intro hState
    have hLast := hSound.exiting hState
    rw [hPc] at hLast
    cases hLast

/- A free worker gets a ready task, in the first table. -/
theorem assign
    (hSound : c.Sound job)
    {t : WorkType}
    {i : Nat}
    {w : Int}
    (hPc : c.pc = .assignWork t i w) :
    Sound job { c with
      workInfo := c.workInfo.set i w
      pc := .assignWorker t i w } := by
  have hTable : c.pc.table = some t := by rw [hPc]; rfl
  rcases hSound.assignWork t i w hPc with
    ⟨hZero, hPos, hFree⟩
  have hBound : i < c.workInfo.length :=
    (List.getElem?_eq_some_iff.mp hZero).1
  refine ⟨⟨hSound.registered.positive,
    hSound.registered.missing⟩, ?_, ?_, ?_, ?_, ?_, ?_, ?_,
    ?_⟩
  · intro t' hNew
    rw [List.length_set]
    exact hSound.size t' (hTable.trans hNew)
  · intro j x hSet hReady hDone
    rw [List.getElem?_set] at hSet
    split at hSet
    · next hIndex =>
        cases hSet
        right
        rw [← hIndex]
        exact ⟨t, rfl⟩
    · left
      rcases hSound.assigned j x hSet hReady hDone with
        hOld | ⟨t', hPc'⟩
      · exact hOld.congr hTable.symm rfl
      · rw [hPc] at hPc'
        cases hPc'
  · intro x hReady
    rcases hSound.ready x hReady with
      ⟨j, hPos', hOld, hSame⟩
    refine ⟨j, hPos', hOld.congr hTable.symm rfl, ?_⟩
    have hOther : i ≠ j := by
      intro hIndex
      rw [hIndex, hSame] at hZero
      cases hZero
      omega
    rw [List.getElem?_set_ne hOther]
    exact hSame
  · intro t' j hNew
    cases hNew
  · intro t' j x hNew
    cases hNew
  · intro t' j x hNew
    cases hNew
    exact ⟨List.getElem?_set_self hBound, hPos, hFree⟩
  · intro hOver
    cases hOver
  · intro hState
    have hLast := hSound.exiting hState
    rw [hPc] at hLast
    cases hLast

/- And then in the second. -/
theorem give
    (hSound : c.Sound job)
    {t : WorkType}
    {i : Nat}
    {w : Int}
    (hPc : c.pc = .assignWorker t i w) :
    Sound job { c.setWorker w
        { state := .ready, work := job.newJob t i } with
      pc := .top t } := by
  have hTable : c.pc.table = some t := by rw [hPc]; rfl
  rcases hSound.assignWorker t i w hPc with
    ⟨hAt, hPos, hFree⟩
  have hNew : Coordinator.Given job { c.setWorker w
        { state := .ready, work := job.newJob t i } with
      pc := .top t } i w :=
    ⟨t, rfl, Function.update_self _ _ _⟩
  have hKeep : ∀ j x, x ≠ w → c.Given job j x →
      Coordinator.Given job { c.setWorker w
          { state := .ready, work := job.newJob t i } with
        pc := .top t } j x := by
    intro j x hNe hOld
    exact hOld.congr hTable.symm
      (Function.update_of_ne hNe _ _)
  have hRegistered := hSound.registered.setWorker hPos
    { state := .ready, work := job.newJob t i }
  refine ⟨⟨hRegistered.positive, hRegistered.missing⟩,
    ?_, ?_, ?_, ?_, ?_, ?_, ?_, ?_⟩
  · intro t' hNew'
    exact hSound.size t' (hTable.trans hNew')
  · intro j x hSame hReady hDone
    left
    rcases hSound.assigned j x hSame hReady hDone with
      hOld | ⟨t', hPc'⟩
    · apply hKeep j x _ hOld
      intro hEq
      have hState := given_ready hOld
      rw [hEq, hFree] at hState
      cases hState
    · rw [hPc] at hPc'
      cases hPc'
      exact hNew
  · intro x hReady
    simp only [Coordinator.setWorker_workerMap] at hReady
    by_cases hEq : x = w
    · rw [hEq]
      exact ⟨i, hPos, hNew, hAt⟩
    · rw [Function.update_of_ne hEq] at hReady
      rcases hSound.ready x hReady with
        ⟨j, hPos', hOld, hSame⟩
      exact ⟨j, hPos', hKeep j x hEq hOld, hSame⟩
  · intro t' j hNew'
    cases hNew'
  · intro t' j x hNew'
    cases hNew'
  · intro t' j x hNew'
    cases hNew'
  · intro hOver
    cases hOver
  · intro hState
    have hLast := hSound.exiting hState
    rw [hPc] at hLast
    cases hLast

/-
  A worker that is not ready and not about to be given a task
  is set to a state that is not ready.
-/
theorem setWorker
    (hSound : c.Sound job)
    {w : Int}
    {worker : Worker}
    (hPos : 0 < w)
    (hBefore : (c.workerMap w).state ≠ .ready)
    (hAfter : worker.state ≠ .ready)
    (hFree : (c.workerMap w).state = .free →
      worker.state = .free) :
    (c.setWorker w worker).Sound job := by
  have hKeep : ∀ j x, c.Given job j x →
      (c.setWorker w worker).Given job j x := by
    intro j x hOld
    have hNe : x ≠ w := by
      intro hEq
      rw [hEq] at hOld
      exact hBefore (given_ready hOld)
    exact hOld.congr (c.setWorker_pc w worker ▸ rfl)
      (Function.update_of_ne hNe _ _)
  have hState : ∀ x, (c.workerMap x).state = .free →
      ((c.setWorker w worker).workerMap x).state =
        .free := by
    intro x hOld
    rw [c.setWorker_workerMap]
    by_cases hEq : x = w
    · rw [hEq] at hOld ⊢
      rw [Function.update_self]
      exact hFree hOld
    · rw [Function.update_of_ne hEq]
      exact hOld
  refine ⟨hSound.registered.setWorker hPos worker,
    hSound.size, ?_, ?_, hSound.choosing, ?_, ?_,
    hSound.finished, hSound.exiting⟩
  · intro i x hAt hReady hDone
    rcases hSound.assigned i x hAt hReady hDone with
      hOld | hPc
    · exact Or.inl (hKeep i x hOld)
    · exact Or.inr hPc
  · intro x hReady
    rw [c.setWorker_workerMap] at hReady
    by_cases hEq : x = w
    · rw [hEq, Function.update_self] at hReady
      exact absurd hReady hAfter
    · rw [Function.update_of_ne hEq] at hReady
      rcases hSound.ready x hReady with
        ⟨i, hPos', hOld, hAt⟩
      exact ⟨i, hPos', hKeep i x hOld, hAt⟩
  · intro t i x hPc
    rcases hSound.assignWork t i x hPc with
      ⟨hZero, hPos', hOld⟩
    exact ⟨hZero, hPos', hState x hOld⟩
  · intro t i x hPc
    rcases hSound.assignWorker t i x hPc with
      ⟨hAt, hPos', hOld⟩
    exact ⟨hAt, hPos', hState x hOld⟩

/- An accepted report of the task that the worker was given. -/
theorem report
    (hSound : c.Sound job)
    {i : Nat}
    {w : Int}
    (hGiven : c.Given job i w) :
    Sound job { c.setWorker w
        { state := .free, work := .empty } with
      workInfo := c.workInfo.set i (-1) } := by
  have hReady := given_ready hGiven
  rcases hSound.ready w hReady with ⟨i', hPos, hOld, hAt⟩
  rw [← given_unique hGiven hOld] at hAt
  have hRegistered := hSound.registered.setWorker hPos
    { state := .free, work := .empty }
  have hKeep : ∀ j x, x ≠ w → c.Given job j x →
      Coordinator.Given job { c.setWorker w
          { state := .free, work := .empty } with
        workInfo := c.workInfo.set i (-1) } j x := by
    intro j x hNe hGiven'
    exact hGiven'.congr rfl (Function.update_of_ne hNe _ _)
  -- A place that does not hold the worker is not touched.
  have hPlace : ∀ (j : Nat) (x : Int), x ≠ w →
      c.workInfo[j]? = some x →
      (c.workInfo.set i (-1))[j]? = some x := by
    intro j x hNe hSame
    have hOther : i ≠ j := by
      intro hIndex
      rw [hIndex, hSame] at hAt
      exact hNe (Option.some.inj hAt)
    rw [List.getElem?_set_ne hOther]
    exact hSame
  have hOther : ∀ x, (c.workerMap x).state = .free →
      x ≠ w := by
    intro x hFree hEq
    rw [hEq, hReady] at hFree
    cases hFree
  have hFree : ∀ x, (c.workerMap x).state = .free →
      (Function.update c.workerMap w
        { state := .free, work := .empty } x).state =
          .free := by
    intro x hFree
    rw [Function.update_of_ne (hOther x hFree)]
    exact hFree
  refine ⟨⟨hRegistered.positive, hRegistered.missing⟩,
    ?_, ?_, ?_, ?_, ?_, ?_, ?_, hSound.exiting⟩
  · intro t hTable
    rw [List.length_set]
    exact hSound.size t hTable
  · intro j x hSet hReady' hDone
    rw [List.getElem?_set] at hSet
    split at hSet
    · split at hSet
      · cases hSet
        exact absurd rfl hDone
      · cases hSet
    · next hIndex =>
        rcases hSound.assigned j x hSet hReady' hDone with
          hGiven' | hPc
        · left
          apply hKeep j x _ hGiven'
          intro hEq
          rw [hEq] at hGiven'
          exact hIndex (given_unique hGiven hGiven')
        · exact Or.inr hPc
  · intro x hReady'
    simp only [Coordinator.setWorker_workerMap] at hReady'
    by_cases hEq : x = w
    · rw [hEq, Function.update_self] at hReady'
      cases hReady'
    · rw [Function.update_of_ne hEq] at hReady'
      rcases hSound.ready x hReady' with
        ⟨j, hPos', hGiven', hSame⟩
      exact ⟨j, hPos', hKeep j x hEq hGiven',
        hPlace j x hEq hSame⟩
  · intro t j hPc
    exact hPlace j 0 (by omega) (hSound.choosing t j hPc)
  · intro t j x hPc
    rcases hSound.assignWork t j x hPc with
      ⟨hZero, hPos', hState⟩
    exact ⟨hPlace j 0 (by omega) hZero, hPos',
      hFree x hState⟩
  · intro t j x hPc
    rcases hSound.assignWorker t j x hPc with
      ⟨hSame, hPos', hState⟩
    exact ⟨hPlace j x (hOther x hState) hSame, hPos',
      hFree x hState⟩
  · intro hOver x hMem
    rcases List.mem_or_eq_of_mem_set hMem with hOld' | hNew
    · exact hSound.finished hOver x hOld'
    · exact hNew

/- All workers are told to exit; none is ready. -/
theorem exit
    (hSound : c.Sound job)
    (hPc : c.pc = .exit) :
    Sound job { c.exitAll with pc := .waitDeath } := by
  have hOver : c.pc.finished = true := by rw [hPc]; rfl
  have hNone : ∀ x,
      (c.exitAll.workerMap x).state ≠ .ready := by
    intro x
    simp only [Coordinator.exitAll]
    split
    · intro hReady
      cases hReady
    · exact hSound.not_ready hOver x
  refine ⟨⟨hSound.registered.positive, ?_⟩, ?_, ?_, ?_, ?_,
    ?_, ?_, ?_, ?_⟩
  · intro x hMem
    have hSame : c.exitAll.workerMap x = c.workerMap x := by
      unfold Coordinator.exitAll
      exact if_neg fun h => hMem h.1
    simp only [hSame]
    exact hSound.registered.missing x hMem
  · intro t hTable
    apply hSound.size t
    rw [hPc]
    exact hTable
  · intro i x hAt _ hDone
    exact absurd (hSound.finished hOver x
      (List.mem_of_getElem? hAt)) hDone
  · intro x hReady
    exact absurd hReady (hNone x)
  · intro t i hNew
    cases hNew
  · intro t i x hNew
    cases hNew
  · intro t i x hNew
    cases hNew
  · intro _
    exact hSound.finished hOver
  · intro _
    rfl

/- Steps within a phase. -/
theorem next
    (hSound : c.Sound job)
    {pc₀ pc : Pc}
    (hPc : c.pc = pc₀)
    (hTable : pc.table = pc₀.table)
    (hFrom : pc₀.giving = false)
    (hRunning : pc₀.last = false)
    (hQuiet : pc.quiet = true)
    (hOver : pc.finished = false) :
    Sound job { c with pc := pc } := by
  apply hSound.go hPc hTable hFrom hQuiet
  · intro hOver'
    rw [hOver] at hOver'
    cases hOver'
  · intro hState
    rw [← hPc, hSound.exiting hState] at hRunning
    cases hRunning

/- Every step of the goroutine keeps the tables in step. -/
theorem tick
    (hSound : c.Sound job)
    {c' : Coordinator}
    (hTicked : Ticked job c c') :
    c'.Sound job := by
  have hRunning : c.pc.last = false →
      ∀ pc : Pc,
        c.state = .exiting ∨ c.state = .death →
        pc.last = true := by
    intro hLast pc hState
    rw [hSound.exiting hState] at hLast
    cases hLast
  cases hTicked with
  | working hPc =>
      refine hSound.go hPc rfl rfl rfl ?_ ?_
      · intro hOver
        cases hOver
      · intro hState
        rcases hState with hState | hState <;> cases hState
  | table hPc => exact hSound.table hPc
  | lock hPc =>
      exact hSound.next hPc rfl rfl rfl rfl rfl
  | late hPc hAt hReady hDone =>
      exact hSound.late hPc hAt hReady hDone
  | pass hPc =>
      exact hSound.next hPc rfl rfl rfl rfl rfl
  | unlock hPc =>
      exact hSound.next hPc rfl rfl rfl rfl rfl
  | @ready t i hPc hReady =>
      refine hSound.move hPc rfl rfl ?_ ?_ ?_ ?_ ?_
      · intro hOver
        cases hOver
      · intro t' j hNew
        cases hNew
        exact hReady
      · intro t' j x hNew
        cases hNew
      · rfl
      · exact hRunning (by rw [hPc]; rfl) _
  | again hPc =>
      rcases hPc with hPc | ⟨i, hPc⟩
      · exact hSound.next hPc rfl rfl rfl rfl rfl
      · exact hSound.next hPc rfl rfl rfl rfl rfl
  | @finished t hPc hAll =>
      apply hSound.go hPc
      · cases t <;> rfl
      · rfl
      · cases t <;> rfl
      · intro _
        exact hAll
      · exact hRunning (by rw [hPc]; rfl) _
  | @chosen t i w hPc hMem hFree =>
      refine hSound.move hPc rfl rfl ?_ ?_ ?_ ?_ ?_
      · intro hOver
        cases hOver
      · intro t' j hNew
        cases hNew
      · intro t' j x hNew
        cases hNew
        exact ⟨hSound.choosing t i hPc,
          hSound.registered.positive w hMem, hFree⟩
      · rfl
      · exact hRunning (by rw [hPc]; rfl) _
  | assignWork hPc => exact hSound.assign hPc
  | assignWorker hPc => exact hSound.give hPc
  | exiting hPc =>
      refine hSound.go hPc rfl rfl rfl ?_ ?_
      · intro _
        exact hSound.finished (by rw [hPc]; rfl)
      · intro _
        rfl
  | exit hPc => exact hSound.exit hPc
  | wait hPc => exact hSound
  | dead hPc =>
      refine hSound.go hPc rfl rfl rfl ?_ ?_
      · intro _
        exact hSound.finished (by rw [hPc]; rfl)
      · intro _
        rfl

end Coordinator.Sound

end Mr

end RaftLab
