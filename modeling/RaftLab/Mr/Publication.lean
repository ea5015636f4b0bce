import RaftLab.Mr.Cluster

/-
  From a temporary file to a published one.

  Every file holds the records of its task and bucket, as read
  from the path that do_it cut out. Of an accepted map task,
  each file is published, or its worker still has it under
  its temporary name: only a rename takes a file away. This
  holds in every reachable state, errors and crashes included.

  Main declarations:
    * `Mr.Program.Holds`
    * `Mr.Cluster.Sound`, `Mr.Cluster.Sound.step`
    * `Mr.Cluster.sound`
-/

------------------------------------------------------------
-- The Invariant
------------------------------------------------------------

namespace RaftLab

namespace Mr

/- The path a worker reads for a map task. -/
def Program.Reads
    (p : Program)
    (task : Nat)
    (path : String) : Prop :=
  ∃ file,
    p.job.files[task]? = some file ∧ path = pathOf file

def FileName.task : FileName → Nat
| .tmp _ task _ => task
| .final task _ => task

def FileName.bucket : FileName → Nat
| .tmp _ _ bucket => bucket
| .final _ bucket => bucket

/- The records that belong in a file. -/
def Program.Holds
    (p : Program)
    (name : FileName)
    (content : List KeyValue) : Prop :=
  ∃ path text,
    p.Reads name.task path ∧
    p.read path = some text ∧
    content = bucket p.job.nReduce name.bucket
      (mapOutput p.mapf p.sort
        { path := path, content := text })

structure Cluster.Sound
    (p : Program)
    (s : Cluster) : Prop where
  office : s.office.Sound p.job
  hand : ∀ w, s.office.hand w = (s.procs w).task
  contents : ∀ name content,
    s.files name = some content → p.Holds name content
  created : ∀ name, s.files name ≠ none → name ∈ s.created
  writing : ∀ w m path i,
    s.procs w = .mapping m path i →
    p.Reads m path ∧
      ∀ j, j < i → s.files (.tmp w m j) ≠ none
  published : ∀ w m r,
    (w, { type := .map, id := m }) ∈ s.office.accepted →
    r < p.job.nReduce →
    s.files (.final m r) ≠ none ∨
      s.files (.tmp w m r) ≠ none

namespace Cluster.Sound

variable {p : Program} {s s' : Cluster}

theorem initial (p : Program) :
    Cluster.initial.Sound p where
  office := Office.sound (System.Reachable.init rfl)
  hand _ := rfl
  contents name content hFile := by cases hFile
  created name hFile := absurd rfl hFile
  writing w m path i hProc := by cases hProc
  published w m r hMem := by cases hMem

------------------------------------------------------------
-- One Worker Goes On
------------------------------------------------------------

/- What other workers are writing is not touched. -/
theorem writing_setProc
    (hSound : s.Sound p)
    {w : Int}
    {proc : Proc}
    {files : Files}
    (hKept : ∀ x m r, x ≠ w →
      s.files (.tmp x m r) ≠ none →
      files (.tmp x m r) ≠ none)
    (hWriting : ∀ m path i, proc = .mapping m path i →
      p.Reads m path ∧
        ∀ j, j < i → files (.tmp w m j) ≠ none)
    (x : Int)
    (m : Nat)
    (path : String)
    (i : Nat)
    (hProc : Function.update s.procs w proc x =
      .mapping m path i) :
    p.Reads m path ∧
      ∀ j, j < i → files (.tmp x m j) ≠ none := by
  by_cases hEq : x = w
  · rw [hEq, Function.update_self] at hProc
    rw [hEq]
    exact hWriting m path i hProc
  · rw [Function.update_of_ne hEq] at hProc
    rcases hSound.writing x m path i hProc with
      ⟨hReads, hWritten⟩
    exact ⟨hReads,
      fun j hLt => hKept x m j hEq (hWritten j hLt)⟩

/-
  Worker `w` goes on with its task and leaves the files
  `files`: each file is still there, or was its own and is
  now published.
-/
theorem store
    (hSound : s.Sound p)
    {w : Int}
    {proc : Proc}
    {files : Files}
    {created : List FileName}
    (hTask : proc.task = (s.procs w).task)
    (hContents : ∀ name content,
      files name = some content → p.Holds name content)
    (hCreated : ∀ name, files name ≠ none → name ∈ created)
    (hKept : ∀ name,
      s.files name ≠ none →
      files name ≠ none ∨
        ∃ m r, name = .tmp w m r ∧
          files (.final m r) ≠ none)
    (hWriting : ∀ m path i, proc = .mapping m path i →
      p.Reads m path ∧
        ∀ j, j < i → files (.tmp w m j) ≠ none) :
    Sound p { s.setProc w proc with
      files := files, created := created } where
  office := hSound.office
  hand x := by
    have hHand := hSound.hand x
    change s.office.hand x =
      (Function.update s.procs w proc x).task
    by_cases hEq : x = w
    · rw [hEq, Function.update_self, hTask, ← hEq]
      exact hHand
    · rw [Function.update_of_ne hEq]
      exact hHand
  contents := hContents
  created := hCreated
  writing := by
    apply hSound.writing_setProc _ hWriting
    intro x m r hNe hFile
    rcases hKept _ hFile with hStays | ⟨_, _, hOwn, _⟩
    · exact hStays
    · cases hOwn
      exact absurd rfl hNe
  published x m r hMem hBound := by
    rcases hSound.published x m r hMem hBound with
      hFinal | hTmp
    · rcases hKept _ hFinal with hStays | ⟨_, _, hOwn, _⟩
      · exact Or.inl hStays
      · cases hOwn
    · rcases hKept _ hTmp with hStays | ⟨_, _, hOwn, hOut⟩
      · exact Or.inr hStays
      · cases hOwn
        exact Or.inl hOut

/- It writes nothing. -/
theorem setProc
    (hSound : s.Sound p)
    {w : Int}
    {proc : Proc}
    (hTask : proc.task = (s.procs w).task)
    (hWriting : ∀ m path i, proc ≠ .mapping m path i) :
    (s.setProc w proc).Sound p := by
  apply hSound.store hTask hSound.contents hSound.created
  · intro name hFile
    exact Or.inl hFile
  · intro m path i hMapping
    exact absurd hMapping (hWriting m path i)

/- A call that changes neither tasks nor reports. -/
theorem call
    (hSound : s.Sound p)
    {event : OfficeEvent}
    (hStep : s.call p event = some s')
    (hSame : ∀ {o o' : Office},
      Office.step p.job event o = some o' →
      o'.hand = o.hand ∧ o'.accepted = o.accepted) :
    s'.Sound p := by
  rcases Option.map_eq_some_iff.mp hStep with
    ⟨office, hOffice, hNext⟩
  rcases hSame hOffice with ⟨hHand, hAccepted⟩
  rw [← hNext]
  refine ⟨hSound.office.step hOffice, ?_, hSound.contents,
    hSound.created, hSound.writing, ?_⟩
  · intro w
    simp only [hHand]
    exact hSound.hand w
  · intro w m r hMem
    simp only [hAccepted] at hMem
    exact hSound.published w m r hMem

/-
  A call after which worker `w` goes on with `proc`. The
  files of a newly accepted map task are all there.
-/
theorem answer
    (hSound : s.Sound p)
    {w : Int}
    {office : Office}
    {proc : Proc}
    (hOffice : office.Sound p.job)
    (hHand : office.hand =
      Function.update s.office.hand w proc.task)
    (hAccepted : ∀ x m,
      (x, { type := .map, id := m }) ∈ office.accepted →
      (x, { type := .map, id := m }) ∈ s.office.accepted ∨
        ∀ r, r < p.job.nReduce →
          s.files (.tmp x m r) ≠ none)
    (hWriting : ∀ m path i,
      proc = .mapping m path i →
      p.Reads m path ∧
        ∀ j, j < i → s.files (.tmp w m j) ≠ none) :
    Sound p (Cluster.setProc
      { s with office := office } w proc) where
  office := hOffice
  hand x := by
    change office.hand x =
      (Function.update s.procs w proc x).task
    rw [hHand]
    by_cases hEq : x = w
    · rw [hEq, Function.update_self, Function.update_self]
    · rw [Function.update_of_ne hEq,
        Function.update_of_ne hEq]
      exact hSound.hand x
  contents := hSound.contents
  created := hSound.created
  writing := hSound.writing_setProc
    (fun _ _ _ _ hFile => hFile) hWriting
  published x m r hMem hBound := by
    rcases hAccepted x m hMem with hOld | hNew
    · exact hSound.published x m r hOld hBound
    · exact Or.inr (hNew r hBound)

theorem begin_task (work : Work) :
    work.begin.task = work.task := by
  cases work <;> rfl

/- A ready worker begins the task that it polls. -/
theorem poll
    (hSound : s.Sound p)
    {w : Int}
    (hStep : s.work p (.poll w) = some s') :
    s'.Sound p := by
  rw [Cluster.work] at hStep
  split at hStep
  · rcases Option.map_eq_some_iff.mp hStep with
      ⟨s₁, hCall, hNext⟩
    rcases Option.map_eq_some_iff.mp hCall with
      ⟨office, hOffice, hMid⟩
    have hNew := hSound.office.step hOffice
    rw [← hMid] at hNext
    rw [← hNext]
    rw [Office.step] at hOffice
    split at hOffice
    · split at hOffice
      · next hReady =>
          cases hOffice
          rw [if_pos hReady]
          rcases hSound.office.tables.ready w hReady with
            ⟨i, _, ⟨t, hTable, hWorker⟩, hAt⟩
          have hLess := (List.getElem?_eq_some_iff.mp hAt).1
          apply hSound.answer hNew
          · rw [begin_task]
          · intro x m hMem
            exact Or.inl hMem
          · intro m path j hProc
            rw [hWorker] at hProc
            cases t with
            | reduce => cases hProc
            | map =>
                rw [hSound.office.tables.size .map hTable]
                  at hLess
                have hFile : p.job.files[i]? =
                    some (p.job.files.getD i "") := by
                  rw [List.getD_eq_getElem?_getD,
                    List.getElem?_eq_getElem hLess]
                  rfl
                cases hProc
                refine ⟨⟨_, hFile, rfl⟩, ?_⟩
                intro j hNone
                omega
      · next hIdle =>
          cases hOffice
          rw [if_neg hIdle]
          exact hSound
    · cases hOffice
  · cases hStep

/- A report: the files of a reported map task are there. -/
theorem finish
    (hSound : s.Sound p)
    {w : Int}
    {task : Task}
    {office : Office}
    {proc : Proc}
    (hOffice : Office.step p.job (.workFinish w) s.office =
      some office)
    (hTask : (s.procs w).task = some task)
    (hNext : proc.task = none)
    (hThere : task.type = .map →
      ∀ r, r < p.job.nReduce →
        s.files (.tmp w task.id r) ≠ none) :
    Sound p (Cluster.setProc
      { s with office := office } w proc) := by
  have hWriting : ∀ m path i, proc = .mapping m path i →
      p.Reads m path ∧
        ∀ j, j < i → s.files (.tmp w m j) ≠ none := by
    intro m path i hProc
    rw [hProc] at hNext
    cases hNext
  have hNew := hSound.office.step hOffice
  rcases hSound.office.workFinish_cases hOffice with
    ⟨task', hHand, ⟨_, hResult⟩ |
      ⟨_, _, _, _, _, hResult⟩⟩
  · apply hSound.answer hNew _ _ hWriting
    · rw [hResult, hNext]
    · intro x m hMem
      rw [hResult] at hMem
      exact Or.inl hMem
  · rw [hSound.hand w, hTask] at hHand
    cases hHand
    apply hSound.answer hNew _ _ hWriting
    · rw [hResult, hNext]
    · intro x m hMem
      rw [hResult] at hMem
      rcases List.mem_append.mp hMem with hOld | hLast
      · exact Or.inl hOld
      · cases List.mem_singleton.mp hLast
        exact Or.inr (hThere rfl)

theorem report
    (hSound : s.Sound p)
    {w : Int}
    {answered : Bool}
    (hStep : s.report p w answered = some s') :
    s'.Sound p := by
  rw [Cluster.report] at hStep
  split at hStep
  · next workId path i hProc =>
      split at hStep
      · next hAll =>
          rcases Option.map_eq_some_iff.mp hStep with
            ⟨s₁, hCall, hNext⟩
          rcases Option.map_eq_some_iff.mp hCall with
            ⟨office, hOffice, hMid⟩
          rw [← hMid] at hNext
          rw [← hNext]
          have hTask : (s.procs w).task =
              some { type := .map, id := workId } := by
            rw [hProc]
            rfl
          have hThere : ∀ r, r < p.job.nReduce →
              s.files (.tmp w workId r) ≠ none := by
            rw [← hAll]
            exact (hSound.writing w workId path i hProc).2
          split
          · exact hSound.finish hOffice hTask rfl
              (fun _ => hThere)
          · exact hSound.finish hOffice hTask rfl
              (fun _ => hThere)
      · cases hStep
  · next workId hProc =>
      rcases Option.map_eq_some_iff.mp hStep with
        ⟨s₁, hCall, hNext⟩
      rcases Option.map_eq_some_iff.mp hCall with
        ⟨office, hOffice, hMid⟩
      rw [← hMid] at hNext
      rw [← hNext]
      have hTask : (s.procs w).task =
          some { type := .reduce, id := workId } := by
        rw [hProc]
        rfl
      apply hSound.finish hOffice hTask rfl
      intro hType
      cases hType
  · cases hStep

/- The task is given up; its files stay where they are. -/
theorem abandon
    (hSound : s.Sound p)
    {w : Int}
    {proc : Proc}
    (hNext : proc.task = none)
    (hCall : s.call p (.abandon w) = some s') :
    (s'.setProc w proc).Sound p := by
  rcases Option.map_eq_some_iff.mp hCall with
    ⟨office, hOffice, hMid⟩
  have hNew := hSound.office.step hOffice
  cases hOffice
  rw [← hMid]
  apply hSound.answer hNew
  · rw [hNext]
  · intro x m hMem
    exact Or.inl hMem
  · intro m path i hProc
    rw [hProc] at hNext
    cases hNext

------------------------------------------------------------
-- Writing And Renaming
------------------------------------------------------------

theorem write
    (hSound : s.Sound p)
    {w : Int}
    (hStep : s.write p w = some s') :
    s'.Sound p := by
  rw [Cluster.write] at hStep
  split at hStep
  · next workId path i hProc =>
      split at hStep
      · rcases Option.map_eq_some_iff.mp hStep with
          ⟨content, hRead, hNext⟩
        rw [← hNext]
        rcases hSound.writing w workId path i hProc with
          ⟨hReads, hWritten⟩
        -- writing never takes a file away
        have hKept : ∀ name, s.files name ≠ none →
            Function.update s.files (.tmp w workId i)
              (some (bucket p.job.nReduce i
                (mapOutput p.mapf p.sort
                  { path := path, content := content })))
              name ≠ none := by
          intro name hFile
          by_cases hHere : name = .tmp w workId i
          · rw [hHere, Function.update_self]
            exact Option.some_ne_none _
          · rw [Function.update_of_ne hHere]
            exact hFile
        apply hSound.store
        · rw [hProc]
          rfl
        · intro name records hFile
          by_cases hHere : name = .tmp w workId i
          · rw [hHere, Function.update_self] at hFile
            cases hFile
            rw [hHere]
            exact ⟨path, content, hReads, hRead, rfl⟩
          · rw [Function.update_of_ne hHere] at hFile
            exact hSound.contents name records hFile
        · intro name hFile
          by_cases hHere : name = .tmp w workId i
          · rw [hHere]
            exact List.mem_cons_self
          · rw [Function.update_of_ne hHere] at hFile
            exact List.mem_cons_of_mem _
              (hSound.created name hFile)
        · intro name hFile
          exact Or.inl (hKept name hFile)
        · intro m path' i' hEq
          cases hEq
          refine ⟨hReads, ?_⟩
          intro j hLt
          rcases Nat.lt_succ_iff_lt_or_eq.mp hLt with
            hBefore | hLast
          · exact hKept _ (hWritten j hBefore)
          · rw [hLast, Function.update_self]
            exact Option.some_ne_none _
      · cases hStep
  · cases hStep

/- A rename moves a file of the worker, or does nothing. -/
theorem rename_cases
    (w : Int)
    (files : Files)
    (name : FileName) :
    rename w files name = files ∨
      ∃ m r content,
        name = .tmp w m r ∧
        files (.tmp w m r) = some content ∧
        rename w files name =
          Function.update
            (Function.update files (.final m r)
              (some content))
            (.tmp w m r) none := by
  cases name with
  | final m r => exact Or.inl rfl
  | tmp x m r =>
      rw [rename]
      split
      · next hOwn =>
          subst hOwn
          split
          · next content hFile =>
              exact Or.inr ⟨m, r, content, rfl, hFile, rfl⟩
          · exact Or.inl rfl
      · exact Or.inl rfl

/- One round of the loop that renames. -/
theorem renamed
    (hSound : s.Sound p)
    {w : Int}
    {name : FileName}
    {names created : List FileName}
    (hProc : s.procs w = .moving (name :: names))
    (hOld : ∀ name, name ∈ s.created → name ∈ created)
    (hNew : ∀ m r, name = .tmp w m r →
      .final m r ∈ created) :
    Sound p { s.setProc w (.moving names) with
      files := rename w s.files name
      created := created } := by
  have hTask : (Proc.moving names).task =
      (s.procs w).task := by
    rw [hProc]
    rfl
  have hWriting : ∀ {files : Files} m path i,
      Proc.moving names = .mapping m path i →
      p.Reads m path ∧
        ∀ j, j < i → files (.tmp w m j) ≠ none := by
    intro files m path i hEq
    cases hEq
  rcases rename_cases w s.files name with hSame |
    ⟨m, r, content, hName, hFile, hMoved⟩
  · rw [hSame]
    exact hSound.store hTask hSound.contents
      (fun name hFile => hOld name
        (hSound.created name hFile))
      (fun name hFile => Or.inl hFile) hWriting
  · have hFinal : rename w s.files name (.final m r) =
        some content := by
      rw [hMoved, Function.update_of_ne (by simp),
        Function.update_self]
    have hOther : ∀ name',
        name' ≠ .tmp w m r →
        name' ≠ .final m r →
        rename w s.files name name' = s.files name' := by
      intro name' hTmp hOut
      rw [hMoved, Function.update_of_ne hTmp,
        Function.update_of_ne hOut]
    have hGone : rename w s.files name (.tmp w m r) =
        none := by
      rw [hMoved, Function.update_self]
    apply hSound.store hTask _ _ _ hWriting
    · intro name' records hRecords
      by_cases hOut : name' = .final m r
      · rw [hOut, hFinal] at hRecords
        cases hRecords
        rw [hOut]
        -- both names belong to one task and bucket
        exact hSound.contents (.tmp w m r) _ hFile
      · by_cases hTmp : name' = .tmp w m r
        · rw [hTmp, hGone] at hRecords
          cases hRecords
        · rw [hOther name' hTmp hOut] at hRecords
          exact hSound.contents _ _ hRecords
    · intro name' hThere
      by_cases hOut : name' = .final m r
      · rw [hOut]
        exact hNew m r hName
      · by_cases hTmp : name' = .tmp w m r
        · rw [hTmp, hGone] at hThere
          exact absurd rfl hThere
        · rw [hOther name' hTmp hOut] at hThere
          exact hOld _ (hSound.created _ hThere)
    · intro name' hThere
      by_cases hTmp : name' = .tmp w m r
      · refine Or.inr ⟨m, r, hTmp, ?_⟩
        rw [hFinal]
        exact Option.some_ne_none _
      · left
        by_cases hOut : name' = .final m r
        · rw [hOut, hFinal]
          exact Option.some_ne_none _
        · rw [hOther name' hTmp hOut]
          exact hThere

theorem renameNext
    (hSound : s.Sound p)
    {w : Int}
    {renamed : Bool}
    (hStep : s.renameNext w renamed = some s') :
    s'.Sound p := by
  rw [Cluster.renameNext] at hStep
  split at hStep
  · next name names hProc =>
      split at hStep
      · cases hStep
        apply hSound.renamed hProc
        · intro name' hMem
          cases name with
          | final m r => exact hMem
          | tmp x m r => exact List.mem_cons_of_mem _ hMem
        · intro m r hName
          rw [hName]
          exact List.mem_cons_self
      · cases hStep
        apply hSound.setProc
        · rw [hProc]
          rfl
        · intro m path i hEq
          cases hEq
  · next hProc =>
      cases hStep
      apply hSound.setProc
      · rw [hProc]
        rfl
      · intro m path i hEq
        cases hEq
  · cases hStep

------------------------------------------------------------
-- Every Step
------------------------------------------------------------

/- A worker that reads the map output leaves it alone. -/
theorem read
    (hSound : s.Sound p)
    {w : Int}
    {proc : Proc}
    {r : Nat}
    (hOld : (s.procs w).task =
      some { type := .reduce, id := r })
    (hNew : proc.task = some { type := .reduce, id := r }) :
    (s.setProc w proc).Sound p := by
  apply hSound.setProc
  · rw [hNew, hOld]
  · intro m path i hEq
    rw [hEq] at hNew
    cases hNew

theorem readNext
    (hSound : s.Sound p)
    {w : Int}
    (hStep : s.readNext p w = some s') :
    s'.Sound p := by
  rw [Cluster.readNext] at hStep
  split at hStep
  · next workId name names kva hProc =>
      cases hStep
      apply hSound.read _ rfl
      rw [hProc]
      rfl
  · next workId kva hProc =>
      cases hStep
      have hRead : (s.setProc w (.reduced workId)).Sound p := by
        apply hSound.read _ rfl
        rw [hProc]
        rfl
      exact ⟨hRead.office, hRead.hand, hRead.contents,
        hRead.created, hRead.writing, hRead.published⟩
  · cases hStep

theorem work
    (hSound : s.Sound p)
    {event : ClusterEvent}
    (hStep : s.work p event = some s') :
    s'.Sound p := by
  cases event with
  | tick late free => cases hStep
  | registerWorker w => cases hStep
  | workerDeath w =>
      rw [Cluster.work] at hStep
      split at hStep
      · apply hSound.call hStep
        intro o o' hOffice
        rw [Office.step] at hOffice
        split at hOffice
        · cases hOffice
          exact ⟨rfl, rfl⟩
        · cases hOffice
      · cases hStep
  | poll w => exact hSound.poll hStep
  | write w => exact hSound.write hStep
  | report w answered => exact hSound.report hStep
  | unsent w =>
      rw [Cluster.work, Cluster.unsent] at hStep
      split at hStep
      · split at hStep
        · rcases Option.map_eq_some_iff.mp hStep with
            ⟨s₁, hCall, hNext⟩
          rw [← hNext]
          exact hSound.abandon rfl hCall
        · cases hStep
      · cases hStep
  | list w names =>
      rw [Cluster.work] at hStep
      split at hStep
      · next hGuard =>
          cases hStep
          apply hSound.setProc
          · rw [hGuard.1]
            rfl
          · intro m path i hEq
            cases hEq
      · cases hStep
  | rename w renamed => exact hSound.renameNext hStep
  | scan w names =>
      rw [Cluster.work] at hStep
      split at hStep
      · next workId hProc =>
          split at hStep
          · cases hStep
            apply hSound.read _ rfl
            rw [hProc]
            rfl
          · cases hStep
      · cases hStep
  | readFile w => exact hSound.readNext hStep
  | abandon w =>
      rw [Cluster.work] at hStep
      split at hStep
      · cases hStep
      · rcases Option.map_eq_some_iff.mp hStep with
          ⟨s₁, hCall, hNext⟩
        rw [← hNext]
        exact hSound.abandon rfl hCall
  | crash w =>
      cases hStep
      exact ⟨hSound.office, hSound.hand, hSound.contents,
        hSound.created, hSound.writing, hSound.published⟩

theorem step
    (hSound : s.Sound p)
    {event : ClusterEvent}
    (hStep : Cluster.step p event s = some s') :
    s'.Sound p := by
  unfold Cluster.step at hStep
  split at hStep
  · apply hSound.call hStep
    intro o o' hOffice
    rcases Option.map_eq_some_iff.mp hOffice with
      ⟨c, _, hNext⟩
    rw [← hNext]
    exact ⟨rfl, rfl⟩
  · apply hSound.call hStep
    intro o o' hOffice
    rw [Office.step] at hOffice
    split at hOffice
    · rcases Option.map_eq_some_iff.mp hOffice with
        ⟨c, _, hNext⟩
      rw [← hNext]
      exact ⟨rfl, rfl⟩
    · cases hOffice
  · split at hStep
    · cases hStep
    · exact hSound.work hStep

end Cluster.Sound

theorem Cluster.sound
    {p : Program}
    {s : Cluster}
    (hReach :
      (Cluster.system p).Reachable System.always s) :
    s.Sound p := by
  apply System.Reachable.induct ?_ ?_ hReach
  · intro s hInit
    rw [hInit]
    exact Cluster.Sound.initial p
  · intro s event s' _ hSound _ hStep
    exact hSound.step hStep

end Mr

end RaftLab
