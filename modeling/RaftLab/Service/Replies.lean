import RaftLab.Service.Session

/-
  The two ways in which kvraft and shardctrler find out that
  a request has been applied.

  handleNormalRPC looks at the session of the client and
  compares it with the record of the log. waittingForCommit
  looks at the record of the log at the index that Start
  returned. Installing a snapshot replaces the sessions and
  lastApplied, forwards or backwards, and leaves the record
  of the log as it is.

  Main declarations:
    * `Sessions.completed`, `pollRecord`
    * `Recorded`, `SessionMachine.Replica`
    * `SessionMachine.Replica.mem_of_completed`
    * `SessionMachine.Replica.mem_of_finished`
-/

------------------------------------------------------------
-- The Two Tests
------------------------------------------------------------

namespace RaftLab

variable {Op : Type}

/-
  The session has the request number, and the record of the
  log has the entry of the session.
-/
def Sessions.completed
    (reqNum number : Op → Int)
    (ckSessions : Sessions Op)
    (logRecord : Int → Option Op)
    (id num : Int) : Bool :=
  match ckSessions id with
  | some session =>
      session.lastOpVaild &&
        decide (reqNum session.lastOp = num) &&
        match logRecord session.lastOpIndex with
        | some op =>
            decide (number op = number session.lastOp)
        | none => false
  | none => false

/- How one round of waittingForCommit ends. -/
inductive Polled where
  | finished
  | failed
  | again
deriving DecidableEq, Repr

def pollRecord
    (number : Op → Int)
    (logRecord : Int → Option Op)
    (lastApplied : Int)
    (index : Int)
    (op : Op) : Polled :=
  if index ≤ lastApplied then
    match logRecord index with
    | some finishedOp =>
        if number finishedOp = number op then .finished
        else .failed
    | none => .again
  else
    .again

theorem Sessions.completed_spec
    {reqNum number : Op → Int}
    {ckSessions : Sessions Op}
    {logRecord : Int → Option Op}
    {id num : Int}
    (hCompleted :
      ckSessions.completed reqNum number logRecord id num =
        true) :
    ∃ session,
      ckSessions id = some session ∧
      reqNum session.lastOp = num := by
  unfold Sessions.completed at hCompleted
  cases hSession : ckSessions id with
  | none =>
      rw [hSession] at hCompleted
      cases hCompleted
  | some session =>
      rw [hSession] at hCompleted
      simp only [Bool.and_eq_true, decide_eq_true_eq]
        at hCompleted
      exact ⟨session, rfl, hCompleted.1.2⟩

theorem pollRecord_finished
    {number : Op → Int}
    {logRecord : Int → Option Op}
    {lastApplied index : Int}
    {op : Op}
    (hPoll :
      pollRecord number logRecord lastApplied index op =
        .finished) :
    index ≤ lastApplied ∧
      ∃ finishedOp,
        logRecord index = some finishedOp ∧
        number finishedOp = number op := by
  unfold pollRecord at hPoll
  split at hPoll
  · next hIndex =>
      refine ⟨hIndex, ?_⟩
      split at hPoll
      · next finishedOp hRecord =>
          split at hPoll
          · next hNumber =>
              exact ⟨finishedOp, hRecord, hNumber⟩
          · cases hPoll
      · cases hPoll
  · cases hPoll

------------------------------------------------------------
-- The Record Of The Log
------------------------------------------------------------

/- Every record is the committed entry of its index. -/
def Recorded
    (committed : List Op)
    (logRecord : Int → Option Op) : Prop :=
  ∀ index op,
    logRecord index = some op →
    ∃ k : Nat, index = k + 1 ∧ committed[k]? = some op

theorem Recorded.empty (committed : List Op) :
    Recorded committed fun _ => none := by
  intro index op hRecord
  cases hRecord

theorem Recorded.update
    {committed : List Op}
    {logRecord : Int → Option Op}
    (hRecorded : Recorded committed logRecord)
    {k : Nat}
    {op : Op}
    (hNext : committed[k]? = some op) :
    Recorded committed
      (Function.update logRecord (k + 1) (some op)) := by
  intro index op' hRecord
  by_cases hIndex : index = k + 1
  · rw [hIndex, Function.update_self] at hRecord
    cases hRecord
    exact ⟨k, hIndex, hNext⟩
  · rw [Function.update_of_ne hIndex] at hRecord
    exact hRecorded index op' hRecord

theorem Recorded.append
    {committed : List Op}
    {logRecord : Int → Option Op}
    (hRecorded : Recorded committed logRecord)
    (more : List Op) :
    Recorded (committed ++ more) logRecord := by
  intro index op hRecord
  rcases hRecorded index op hRecord with
    ⟨k, hIndex, hEntry⟩
  refine ⟨k, hIndex, ?_⟩
  rcases List.getElem?_eq_some_iff.mp hEntry with
    ⟨hBound, _⟩
  rw [List.getElem?_append_left hBound]
  exact hEntry

------------------------------------------------------------
-- Servers At A Prefix Of The Log
------------------------------------------------------------

namespace SessionMachine

variable {S σ : Type}
variable {ckId reqNum : Op → Int}
variable (M : SessionMachine S σ Op ckId reqNum)

/-
  The server is at the first `k` entries: but for what the
  machine does not read, it is the server that delivered
  exactly these, from `s₀` on.
-/
structure Replica
    (s₀ : S)
    (committed : List Op)
    (k : Nat)
    (s : S) : Prop where
  bound : k ≤ committed.length
  applied : M.lastApplied s = k
  agrees : ∃ t,
    M.run s₀ (committed.take k) = some t ∧
    M.core s = M.core t ∧
    M.ckSessions s = M.ckSessions t

namespace Replica

variable {M}
variable {s₀ s s' : S} {committed : List Op} {k : Nat}

theorem start
    (hFresh : M.Fresh s₀)
    (committed : List Op) :
    M.Replica s₀ committed 0 s₀ where
  bound := Nat.zero_le _
  applied := hFresh.lastApplied
  agrees := ⟨s₀, rfl, rfl, rfl⟩

theorem append
    (hReplica : M.Replica s₀ committed k s)
    (more : List Op) :
    M.Replica s₀ (committed ++ more) k s where
  bound := by
    have hBound := hReplica.bound
    rw [List.length_append]
    omega
  applied := hReplica.applied
  agrees := by
    rw [List.take_append_of_le_length hReplica.bound]
    exact hReplica.agrees

/- The sessions are those of the prefix. -/
theorem follows
    (hReplica : M.Replica s₀ committed k s)
    (hFresh : M.Fresh s₀) :
    Sessions.Follows ckId (M.ckSessions s)
      (committed.take k) := by
  rcases hReplica.agrees with ⟨t, hRun, _, hSessions⟩
  rw [hSessions]
  exact (M.run_follows hFresh hRun).2

/-
  The next entry takes the server on by one: what it does
  depends on the core, the sessions and lastApplied only.
-/
theorem deliver
    (hReplica : M.Replica s₀ committed k s)
    (hFresh : M.Fresh s₀)
    {op : Op}
    (hNext : committed[k]? = some op)
    (hStep : M.step s op = some s') :
    M.Replica s₀ committed (k + 1) s' := by
  rcases hReplica.agrees with
    ⟨t, hRun, hCore, hSessions⟩
  have hBound : k < committed.length :=
    (List.getElem?_eq_some_iff.mp hNext).1
  have hLast : M.lastApplied t = k := by
    have hApplied := (M.run_follows hFresh hRun).1
    rw [hApplied, List.length_take]
    omega
  have hAccepts : M.accepts t op = M.accepts s op := by
    rw [M.accepts_eq, M.accepts_eq, hSessions, hLast,
      hReplica.applied]
  have hMap : (M.step t op).map M.core = some (M.core s') := by
    rw [M.step_core, hAccepts, ← hCore, ← M.step_core, hStep]
    rfl
  rcases Option.map_eq_some_iff.mp hMap with
    ⟨t', hStep', hCore'⟩
  rcases M.step_record s op s' hStep with
    ⟨hApplied, hRecord⟩
  rcases M.step_record t op t' hStep' with
    ⟨_, hRecord'⟩
  refine ⟨hBound, ?_, t', ?_, hCore'.symm, ?_⟩
  · rw [hApplied, hReplica.applied]
    push_cast
    rfl
  · rw [List.take_add_one, hNext, Option.toList_some,
      M.run_snoc, hRun]
    exact hStep'
  · rw [hRecord, hRecord', hSessions, hLast,
      hReplica.applied]

/- A completed request stands in the prefix. -/
theorem mem_of_completed
    (hReplica : M.Replica s₀ committed k s)
    (hFresh : M.Fresh s₀)
    {number : Op → Int}
    {logRecord : Int → Option Op}
    {id num : Int}
    (hCompleted :
      (M.ckSessions s).completed reqNum number logRecord
        id num = true) :
    ∃ op ∈ committed.take k,
      ckId op = id ∧ reqNum op = num := by
  rcases Sessions.completed_spec hCompleted with
    ⟨session, hSession, hNum⟩
  have hLast := (hReplica.follows hFresh).lastOp id
  rw [hSession, Option.map_some] at hLast
  rcases mem_of_lastOf ckId hLast.symm with
    ⟨hMem, hClient⟩
  exact ⟨session.lastOp, hMem, hClient, hNum⟩

/- The entry that ends a poll stands in the prefix. -/
theorem mem_of_finished
    (hReplica : M.Replica s₀ committed k s)
    {number : Op → Int}
    {logRecord : Int → Option Op}
    (hRecorded : Recorded committed logRecord)
    {index : Int}
    {op : Op}
    (hPoll :
      pollRecord number logRecord (M.lastApplied s)
        index op = .finished) :
    ∃ finishedOp ∈ committed.take k,
      number finishedOp = number op := by
  rcases pollRecord_finished hPoll with
    ⟨hIndex, finishedOp, hRecord, hNumber⟩
  rcases hRecorded index finishedOp hRecord with
    ⟨j, hPlace, hEntry⟩
  refine ⟨finishedOp, ?_, hNumber⟩
  have hBefore : j < k := by
    have hApplied := hReplica.applied
    omega
  apply List.mem_of_getElem? (i := j)
  rw [List.getElem?_take, if_pos hBefore]
  exact hEntry

end Replica

end SessionMachine

end RaftLab
