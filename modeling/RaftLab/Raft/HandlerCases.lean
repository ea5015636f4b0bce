import RaftLab.Raft.Handlers

/-
  What each critical section can do.

  One case analysis per critical section, proved once from
  its definition. Later modules argue from these cases and
  do not unfold the handlers again.

  Main declarations:
    * `Raft.RequestVoteCase`, `Raft.requestVote_case`
    * `Raft.AppendEntriesCase`, `Raft.appendEntries_case`
    * `Raft.InstallSnapshotCase`,
      `Raft.installSnapshot_case`
    * `Raft.takeSnapshot_cases`, `Raft.start_cases`,
      `Raft.electionStart_spec`, `Raft.electionWin_cases`,
      `Raft.becomeLeader_spec`, `Raft.make_spec`
-/

------------------------------------------------------------
-- Logs And Indices
------------------------------------------------------------

namespace RaftLab

namespace Raft

variable {C : Type} {n : Nat}

theorem logAt_zero_eq_some_iff
    {rf : Raft C n}
    {first : LogEntry C} :
    rf.logAt 0 = some first ↔
      ∃ rest, rf.log = first :: rest := by
  unfold logAt
  cases hLog : rf.log with
  | nil => simp
  | cons e es => simp

theorem baseIndex_of_log
    {rf : Raft C n}
    {first : LogEntry C}
    {rest : List (LogEntry C)}
    (hLog : rf.log = first :: rest) :
    rf.baseIndex = some first.index := by
  simp [baseIndex, logAt, hLog]

theorem localIndex_of_log
    {rf : Raft C n}
    {first : LogEntry C}
    {rest : List (LogEntry C)}
    (hLog : rf.log = first :: rest)
    (i : Int) :
    rf.localIndex i = some (i - first.index) := by
  simp [localIndex, baseIndex_of_log hLog]

theorem globalIndex_of_log
    {rf : Raft C n}
    {first : LogEntry C}
    {rest : List (LogEntry C)}
    (hLog : rf.log = first :: rest)
    (i : Int) :
    rf.globalIndex i = some (i + first.index) := by
  simp [globalIndex, baseIndex_of_log hLog]

theorem globalLogLen_of_log
    {rf : Raft C n}
    {first : LogEntry C}
    {rest : List (LogEntry C)}
    (hLog : rf.log = first :: rest) :
    rf.globalLogLen =
      some (rf.log.length + first.index) := by
  simp [globalLogLen, baseIndex_of_log hLog]

theorem exists_log_of_globalLogLen
    {rf : Raft C n}
    {len : Int}
    (hLen : rf.globalLogLen = some len) :
    ∃ first rest, rf.log = first :: rest ∧
      len = rf.log.length + first.index := by
  cases hLog : rf.log with
  | nil =>
      simp [globalLogLen, baseIndex, logAt, hLog] at hLen
  | cons first rest =>
      rw [globalLogLen_of_log hLog, Option.some.injEq] at hLen
      exact ⟨first, rest, rfl, by rw [← hLen, hLog]⟩

theorem lastLogTerm_eq_getLast?
    (rf : Raft C n) :
    rf.lastLogTerm =
      rf.log.getLast?.map (fun e => e.term) := by
  unfold lastLogTerm logAt
  cases hLog : rf.log with
  | nil => simp [GoSlice.at?]
  | cons e es =>
      have hIndex :
          ((((e :: es).length : Nat) : Int) - 1) =
            ((es.length : Nat) : Int) := by
        simp
      rw [hIndex, GoSlice.at?_natCast,
        List.getLast?_eq_getElem?]
      simp

theorem hasTermAt_eq_some_iff
    {rf : Raft C n}
    {i term : Int}
    {b : Bool} :
    rf.hasTermAt i term = some b ↔
      ∃ e, rf.logAt i = some e ∧
        decide (e.term = term) = b := by
  simp [hasTermAt, Option.map_eq_some_iff]

------------------------------------------------------------
-- Persisting Keeps The Memory
------------------------------------------------------------

/- The seven fields that survive a crash. -/
def durable
    (rf : Raft C n) :
    RaftState × Int × List (LogEntry C) × Option Int ×
      Int × Int × Bytes :=
  (rf.state, rf.currentTerm, rf.log, rf.votedFor,
    rf.snapshotIndex, rf.snapshotTerm, rf.snapshot)

@[simp] theorem persist_me (rf : Raft C n) :
    rf.persist.me = rf.me := rfl

@[simp] theorem persist_state (rf : Raft C n) :
    rf.persist.state = rf.state := rfl

@[simp] theorem persist_currentTerm (rf : Raft C n) :
    rf.persist.currentTerm = rf.currentTerm := rfl

@[simp] theorem persist_log (rf : Raft C n) :
    rf.persist.log = rf.log := rfl

@[simp] theorem persist_votedFor (rf : Raft C n) :
    rf.persist.votedFor = rf.votedFor := rfl

@[simp] theorem persist_snapshot (rf : Raft C n) :
    rf.persist.snapshot = rf.snapshot := rfl

@[simp] theorem persist_snapshotIndex (rf : Raft C n) :
    rf.persist.snapshotIndex = rf.snapshotIndex := rfl

@[simp] theorem persist_snapshotTerm (rf : Raft C n) :
    rf.persist.snapshotTerm = rf.snapshotTerm := rfl

@[simp] theorem persist_commitIndex (rf : Raft C n) :
    rf.persist.commitIndex = rf.commitIndex := rfl

@[simp] theorem persist_lastApplied (rf : Raft C n) :
    rf.persist.lastApplied = rf.lastApplied := rfl

@[simp] theorem persist_nextIndex (rf : Raft C n) :
    rf.persist.nextIndex = rf.nextIndex := rfl

@[simp] theorem persist_matchIndex (rf : Raft C n) :
    rf.persist.matchIndex = rf.matchIndex := rfl

@[simp] theorem persist_applyQueue (rf : Raft C n) :
    rf.persist.applyQueue = rf.applyQueue := rfl

------------------------------------------------------------
-- RequestVote
------------------------------------------------------------

/- How the handler of a vote request ends. -/
inductive RequestVoteCase
    (rf : Raft C n)
    (args : RequestVoteArgs) :
    Raft C n → RequestVoteReply → Prop
  | stale
      (hTerm : args.term < rf.currentTerm) :
      RequestVoteCase rf args rf
        { term := rf.currentTerm, voteGranted := false }
  | refused
      (hTerm : rf.currentTerm ≤ args.term) :
      RequestVoteCase rf args (rf.adoptVoteTerm args)
        { term := rf.currentTerm, voteGranted := false }
  | granted
      (hTerm : rf.currentTerm ≤ args.term)
      (len lastTerm : Int)
      (hLen : rf.globalLogLen = some len)
      (hLast : rf.lastLogTerm = some lastTerm)
      (hUpToDate : isUpToDate args len lastTerm = true)
      (hVoted :
        (rf.adoptVoteTerm args).votedFor = none ∨
          (rf.adoptVoteTerm args).votedFor =
            some args.candiateId) :
      RequestVoteCase rf args
        ((rf.adoptVoteTerm args).giveVote args)
        { term := args.term, voteGranted := true }

theorem requestVote_case
    {rf rf' : Raft C n}
    {args : RequestVoteArgs}
    {reply : RequestVoteReply}
    (hStep : rf.requestVote args = some (rf', reply)) :
    RequestVoteCase rf args rf' reply := by
  unfold requestVote at hStep
  rcases Option.bind_eq_some_iff.mp hStep with
    ⟨len, hLen, hStep⟩
  rcases Option.bind_eq_some_iff.mp hStep with
    ⟨lastTerm, hLast, hStep⟩
  dsimp only at hStep
  split at hStep
  · rename_i hTerm
    cases hStep
    exact .stale hTerm
  · rename_i hTerm
    have hTerm' : rf.currentTerm ≤ args.term := by omega
    split at hStep
    · cases hStep
      exact .refused hTerm'
    · rename_i hUpToDate
      split at hStep
      · cases hStep
        exact .refused hTerm'
      · split at hStep
        · rename_i hVoted
          cases hStep
          exact .granted hTerm' len lastTerm hLen hLast
            (by simpa using hUpToDate) hVoted
        · cases hStep

@[simp] theorem adoptVoteTerm_log
    (rf : Raft C n)
    (args : RequestVoteArgs) :
    (rf.adoptVoteTerm args).log = rf.log := by
  unfold adoptVoteTerm
  split <;> rfl

theorem adoptVoteTerm_currentTerm
    {rf : Raft C n}
    {args : RequestVoteArgs}
    (hTerm : rf.currentTerm ≤ args.term) :
    (rf.adoptVoteTerm args).currentTerm = args.term := by
  unfold adoptVoteTerm
  split
  · rfl
  · omega

@[simp] theorem adoptVoteTerm_me
    (rf : Raft C n)
    (args : RequestVoteArgs) :
    (rf.adoptVoteTerm args).me = rf.me := by
  unfold adoptVoteTerm
  split <;> rfl

------------------------------------------------------------
-- AppendEntries
------------------------------------------------------------

/-
  How the handler of an AppendEntries request ends. `rf` is
  the state before the request, and `rf.syncState args` the
  state after state synchronization.
-/
inductive AppendEntriesCase
    (rf : Raft C n)
    (args : AppendEntriesArgs C) :
    Raft C n → AppendEntriesReply → Prop
  | stale
      (hTerm : args.term < rf.currentTerm)
      (reply : AppendEntriesReply)
      (hSuccess : reply.success = false) :
      AppendEntriesCase rf args rf reply
  | good
      (hTerm : rf.currentTerm ≤ args.term)
      (len : Int)
      (hLen : rf.globalLogLen = some len)
      (hIndex : len - 1 = args.prevLogIndex)
      (hLast : rf.lastLogTerm = some args.prevLogTerm)
      (reply : AppendEntriesReply)
      (hSuccess : reply.success = true) :
      AppendEntriesCase rf args
        ((rf.syncState args).storeEntries
          (rf.log ++ args.entries) args.leaderCommit) reply
  | covered
      (hTerm : rf.currentTerm ≤ args.term)
      (len : Int)
      (hLen : rf.globalLogLen = some len)
      (hIndex : args.prevLogIndex < len - 1)
      (hApplied : args.prevLogIndex = rf.lastApplied)
      (hPrefix :
        rf.prefixCheck args.entries.length 0 args.entries =
          some args.entries.length)
      (reply : AppendEntriesReply)
      (hSuccess : reply.success = true) :
      AppendEntriesCase rf args (rf.syncState args) reply
  | fixed
      (hTerm : rf.currentTerm ≤ args.term)
      (len : Int)
      (hLen : rf.globalLogLen = some len)
      (hIndex : args.prevLogIndex < len - 1)
      (hApplied : args.prevLogIndex = rf.lastApplied)
      (i : Nat)
      (hPrefix :
        rf.prefixCheck args.entries.length 0 args.entries =
          some i)
      (hDiffer : i ≠ args.entries.length)
      (bound : Int)
      (hBound : rf.localIndex (rf.lastApplied + 1) =
        some bound)
      (hRange : 0 ≤ bound ∧ bound ≤ rf.log.length)
      (reply : AppendEntriesReply)
      (hSuccess : reply.success = true) :
      AppendEntriesCase rf args
        ((rf.syncState args).storeEntries
          (rf.log.take bound.toNat ++ args.entries)
          args.leaderCommit) reply
  | rejected
      (hTerm : rf.currentTerm ≤ args.term)
      (len lastTerm : Int)
      (hLen : rf.globalLogLen = some len)
      (hLast : rf.lastLogTerm = some lastTerm)
      (hNotGood :
        ¬ (len - 1 = args.prevLogIndex ∧
          lastTerm = args.prevLogTerm))
      (hNotFix :
        ¬ (args.prevLogIndex < len - 1 ∧
          args.prevLogIndex = rf.lastApplied)) :
      AppendEntriesCase rf args (rf.syncState args)
        { term := args.term
          success := false
          prevLogIndex := len - 1
          prevLogTerm := lastTerm
          lastApplied := rf.lastApplied }

@[simp] theorem syncState_log
    (rf : Raft C n)
    (args : AppendEntriesArgs C) :
    (rf.syncState args).log = rf.log := rfl

@[simp] theorem syncState_lastApplied
    (rf : Raft C n)
    (args : AppendEntriesArgs C) :
    (rf.syncState args).lastApplied = rf.lastApplied := rfl

/- The index functions read nothing but the log. -/
theorem localIndex_syncState
    (rf : Raft C n)
    (args : AppendEntriesArgs C)
    (i : Int) :
    (rf.syncState args).localIndex i = rf.localIndex i := rfl

theorem globalLogLen_syncState
    (rf : Raft C n)
    (args : AppendEntriesArgs C) :
    (rf.syncState args).globalLogLen = rf.globalLogLen := rfl

theorem lastLogTerm_syncState
    (rf : Raft C n)
    (args : AppendEntriesArgs C) :
    (rf.syncState args).lastLogTerm = rf.lastLogTerm := rfl

theorem prefixCheck_syncState
    (rf : Raft C n)
    (args : AppendEntriesArgs C)
    (total i : Nat)
    (entries : List (LogEntry C)) :
    (rf.syncState args).prefixCheck total i entries =
      rf.prefixCheck total i entries := by
  induction entries generalizing i with
  | nil => rfl
  | cons e es ih =>
      simp only [prefixCheck, ih]
      rfl

theorem appendEntries_case
    {rf rf' : Raft C n}
    {args : AppendEntriesArgs C}
    {reply : AppendEntriesReply}
    (hStep : rf.appendEntries args = some (rf', reply)) :
    AppendEntriesCase rf args rf' reply := by
  unfold appendEntries at hStep
  split at hStep
  · rename_i hTerm
    have hTerm' : rf.currentTerm ≤ args.term := hTerm
    unfold syncLog at hStep
    rcases Option.bind_eq_some_iff.mp hStep with
      ⟨len, hLen, hStep⟩
    rcases Option.bind_eq_some_iff.mp hStep with
      ⟨lastTerm, hLast, hStep⟩
    rw [globalLogLen_syncState] at hLen
    rw [lastLogTerm_syncState] at hLast
    dsimp only at hStep
    split at hStep
    · rename_i hGood
      cases hStep
      rw [hGood.2] at hLast
      exact .good hTerm' len hLen hGood.1 hLast _ rfl
    · rename_i hNotGood
      split at hStep
      · rename_i hFix
        rcases Option.bind_eq_some_iff.mp hStep with
          ⟨i, hPrefix, hStep⟩
        rw [prefixCheck_syncState] at hPrefix
        split at hStep
        · rename_i hAll
          cases hStep
          rw [hAll] at hPrefix
          exact .covered hTerm' len hLen hFix.1 hFix.2
            hPrefix _ rfl
        · rename_i hDiffer
          rcases Option.bind_eq_some_iff.mp hStep with
            ⟨bound, hBound, hStep⟩
          rcases Option.bind_eq_some_iff.mp hStep with
            ⟨kept, hKept, hStep⟩
          rcases GoSlice.upTo?_eq_some_iff.mp hKept with
            ⟨hRange, hTake⟩
          cases hStep
          rw [← hTake]
          exact .fixed hTerm' len hLen hFix.1 hFix.2 i
            hPrefix hDiffer bound hBound hRange _ rfl
      · rename_i hNotFix
        split at hStep
        · cases hStep
          exact .rejected hTerm' len lastTerm hLen hLast
            hNotGood hNotFix
        · cases hStep
  · rename_i hTerm
    cases hStep
    exact .stale (by omega) _ rfl

theorem prefixCheck_isSome
    {rf : Raft C n}
    (hLog : rf.log ≠ [])
    (total i : Nat)
    (entries : List (LogEntry C)) :
    ∃ r, rf.prefixCheck total i entries = some r := by
  obtain ⟨first, rest, hCons⟩ :=
    List.exists_cons_of_ne_nil hLog
  induction entries generalizing i with
  | nil => exact ⟨i, rfl⟩
  | cons e es ih =>
      rw [prefixCheck, localIndex_of_log hCons]
      simp only [Option.bind_eq_bind, Option.bind_some]
      split
      · rename_i hLt
        split
        · exact ⟨total, rfl⟩
        · rename_i hNonneg
          have hSome :
              (rf.logAt (i + rf.lastApplied + 1 -
                first.index)).isSome := by
            unfold logAt GoSlice.at?
            rw [if_pos (by omega), List.getElem?_eq_getElem
              (by omega)]
            rfl
          rcases Option.isSome_iff_exists.mp hSome with
            ⟨own, hOwn⟩
          rw [hOwn]
          simp only [Option.bind_some]
          split
          · exact ⟨i, rfl⟩
          · exact ih (i + 1)
      · exact ⟨i, rfl⟩

/-
  The prefix check runs through all entries of a fix package
  when each of them has the term the server has at its index.
-/
theorem prefixCheck_eq_all_iff
    {rf : Raft C n}
    {first : LogEntry C}
    {rest : List (LogEntry C)}
    (hLog : rf.log = first :: rest)
    (hApplied : first.index ≤ rf.lastApplied)
    {total i : Nat}
    {entries : List (LogEntry C)} :
    rf.prefixCheck total i entries =
        some (i + entries.length) ↔
      ∀ (j : Nat) (e : LogEntry C), entries[j]? = some e →
        (rf.logAt (i + j + rf.lastApplied + 1 -
          first.index)).map (fun own => own.term) =
            some e.term := by
  induction entries generalizing i with
  | nil => simp [prefixCheck]
  | cons e es ih =>
      rw [prefixCheck, localIndex_of_log hLog]
      simp only [Option.bind_eq_bind, Option.bind_some,
        List.length_cons]
      -- The position of the first entry, and of the others.
      have hShift : ∀ j : Nat,
          ((i + 1 : Nat) : Int) + j + rf.lastApplied + 1 -
              first.index =
            (i : Int) + ((j + 1 : Nat) : Int) +
              rf.lastApplied + 1 - first.index := by
        intro j
        push_cast
        omega
      constructor
      · intro hAll j e' hEntry
        split at hAll
        · rw [if_neg (by omega)] at hAll
          rcases Option.bind_eq_some_iff.mp hAll with
            ⟨own, hOwn, hAll⟩
          split at hAll
          · cases hAll
          · rename_i hSame
            cases j with
            | zero =>
                cases hEntry
                rw [Int.natCast_zero, Int.add_zero, hOwn]
                have hTerm := not_not.mp hSame
                rw [hTerm]
                rfl
            | succ j =>
                rw [← hShift]
                refine ih.mp ?_ j e' hEntry
                rw [hAll]
                congr 1
                omega
        · cases hAll
      · intro hTerms
        have hFirst := hTerms 0 e rfl
        rw [Int.natCast_zero, Int.add_zero] at hFirst
        rcases Option.map_eq_some_iff.mp hFirst with
          ⟨own, hOwn, hSame⟩
        rcases GoSlice.at?_eq_some_iff.mp hOwn with
          ⟨hNonneg, hGet⟩
        have hLt := (List.getElem?_eq_some_iff.mp hGet).1
        rw [if_pos (by omega), if_neg (by omega), hOwn,
          Option.bind_some, if_neg (by rw [hSame]; simp)]
        have hRest := (ih (i := i + 1)).mpr (by
          intro j e' hEntry
          rw [hShift]
          exact hTerms (j + 1) e' hEntry)
        rw [hRest]
        congr 1
        omega

/-
  The handler does not panic when everything that was cut
  from the log had been applied.
-/
theorem appendEntries_isSome
    {rf : Raft C n}
    {base : Int}
    (hBase : rf.baseIndex = some base)
    (hApplied : base ≤ rf.lastApplied + 1)
    (args : AppendEntriesArgs C) :
    ∃ rf' reply,
      rf.appendEntries args = some (rf', reply) := by
  rcases Option.map_eq_some_iff.mp hBase with
    ⟨first, hFirst, hIndex⟩
  rcases logAt_zero_eq_some_iff.mp hFirst with ⟨rest, hCons⟩
  have hLog : rf.log ≠ [] := by
    rw [hCons]
    exact List.cons_ne_nil _ _
  have hLast : ∃ t, rf.lastLogTerm = some t := by
    rw [lastLogTerm_eq_getLast?, List.getLast?_eq_some_getLast
      hLog]
    exact ⟨_, rfl⟩
  rcases hLast with ⟨lastTerm, hLast⟩
  unfold appendEntries
  split
  · unfold syncLog
    rw [globalLogLen_syncState, lastLogTerm_syncState,
      globalLogLen_of_log hCons, hLast]
    simp only [Option.bind_eq_bind, Option.bind_some]
    split
    · exact ⟨_, _, rfl⟩
    · rename_i hNotGood
      split
      · rename_i hFix
        rcases prefixCheck_isSome hLog args.entries.length 0
          args.entries with ⟨r, hPrefix⟩
        rw [prefixCheck_syncState, hPrefix]
        simp only [Option.bind_some]
        split
        · exact ⟨_, _, rfl⟩
        · rw [localIndex_syncState, localIndex_of_log hCons,
            syncState_lastApplied] at *
          simp only [Option.bind_some]
          unfold GoSlice.upTo?
          rw [if_pos ?_]
          · exact ⟨_, _, rfl⟩
          · rw [syncState_log]
            omega
      · rw [if_pos ?_]
        · exact ⟨_, _, rfl⟩
        · by_contra hNeither
          apply hNotGood
          constructor
          · by_contra hIndex'
            exact hNeither (Or.inl hIndex')
          · by_contra hTerm'
            exact hNeither (Or.inr hTerm')
  · exact ⟨_, _, rfl⟩

------------------------------------------------------------
-- InstallSnapshot
------------------------------------------------------------

/- The state after a snapshot was installed over `log`. -/
def installed
    (rf : Raft C n)
    (args : InstallSnapshotArgs)
    (log : List (LogEntry C)) : Raft C n :=
  { { rf with
      log := log
      state := .follower
      snapshot := args.data
      snapshotIndex := args.lastIncludedIndex
      snapshotTerm := args.lastIncludedTerm }.persist with
    lastApplied := args.lastIncludedInternal
    commitIndex := args.lastIncludedInternal
    applyQueue :=
      [{ commandValid := false
         command := none
         commandIndex := 0
         snapshotValid := true
         snapshot := args.data
         snapshotTerm := args.lastIncludedTerm
         snapshotIndex := args.lastIncludedIndex }] }

/- A snapshot that passes the checks is installed. -/
def installs
    (rf : Raft C n)
    (args : InstallSnapshotArgs) : Bool :=
  decide (rf.currentTerm ≤ args.term) &&
    decide (rf.snapshotIndex < args.lastIncludedIndex)

theorem installs_eq_true_iff
    {rf : Raft C n}
    {args : InstallSnapshotArgs} :
    rf.installs args = true ↔
      rf.currentTerm ≤ args.term ∧
        rf.snapshotIndex < args.lastIncludedIndex := by
  unfold installs
  rw [Bool.and_eq_true, decide_eq_true_iff,
    decide_eq_true_iff]

/- How the handler of an InstallSnapshot request ends. -/
inductive InstallSnapshotCase
    (rf : Raft C n)
    (args : InstallSnapshotArgs) :
    Raft C n → InstallSnapshotReply → Prop
  | refused
      (hRefused :
        args.term < rf.currentTerm ∨
          args.lastIncludedIndex ≤ rf.snapshotIndex) :
      InstallSnapshotCase rf args rf
        { term := rf.currentTerm }
  | kept
      (hTerm : rf.currentTerm ≤ args.term)
      (hNewer : rf.snapshotIndex < args.lastIncludedIndex)
      (l : Nat)
      (hLocal : rf.localIndex args.lastIncludedInternal =
        some (l : Int))
      (own : LogEntry C)
      (hOwn : rf.log[l]? = some own)
      (hOwnTerm : own.term = args.lastIncludedTerm) :
      InstallSnapshotCase rf args
        (rf.installed args
          (snapshotEntry args :: rf.log.drop (l + 1)))
        { term := rf.currentTerm }
  | reset
      (hTerm : rf.currentTerm ≤ args.term)
      (hNewer : rf.snapshotIndex < args.lastIncludedIndex)
      (l : Int)
      (hLocal : rf.localIndex args.lastIncludedInternal =
        some l)
      (hDiffer :
        0 ≤ l →
          ∀ own, rf.log[l.toNat]? = some own →
            own.term ≠ args.lastIncludedTerm) :
      InstallSnapshotCase rf args
        (rf.installed args [snapshotEntry args])
        { term := rf.currentTerm }

theorem snapshotLog_cases
    {rf : Raft C n}
    {args : InstallSnapshotArgs}
    {log : List (LogEntry C)}
    (hLog : rf.snapshotLog args = some log) :
    (∃ (l : Nat) (own : LogEntry C),
      rf.localIndex args.lastIncludedInternal =
        some (l : Int) ∧
      rf.log[l]? = some own ∧
      own.term = args.lastIncludedTerm ∧
      log = snapshotEntry args :: rf.log.drop (l + 1)) ∨
    (∃ l : Int,
      rf.localIndex args.lastIncludedInternal = some l ∧
      (0 ≤ l → ∀ own, rf.log[l.toNat]? = some own →
        own.term ≠ args.lastIncludedTerm) ∧
      log = [snapshotEntry args]) := by
  unfold snapshotLog at hLog
  rcases Option.bind_eq_some_iff.mp hLog with
    ⟨l, hLocal, hLog⟩
  rcases Option.bind_eq_some_iff.mp hLog with
    ⟨keep, hKeep, hLog⟩
  unfold holdsLastIncluded at hKeep
  cases keep with
  | true =>
      left
      split at hKeep
      · rename_i hRange
        rcases hasTermAt_eq_some_iff.mp hKeep with
          ⟨own, hOwn, hTerm⟩
        rcases GoSlice.at?_eq_some_iff.mp hOwn with
          ⟨hNonneg, hGet⟩
        simp only [if_true] at hLog
        rcases Option.bind_eq_some_iff.mp hLog with
          ⟨suffix, hSuffix, hLog⟩
        rcases GoSlice.from?_eq_some_iff.mp hSuffix with
          ⟨_, hDrop⟩
        cases hLog
        refine ⟨l.toNat, own, ?_, hGet, ?_, ?_⟩
        · rw [hLocal, Int.toNat_of_nonneg hNonneg]
        · simpa using hTerm
        · rw [← hDrop, List.drop_drop]
      · simp at hKeep
  | false =>
      right
      simp only [Bool.false_eq_true, if_false] at hLog
      cases hLog
      refine ⟨l, hLocal, ?_, rfl⟩
      intro hNonneg own hOwn
      split at hKeep
      · rcases hasTermAt_eq_some_iff.mp hKeep with
          ⟨own', hOwn', hTerm⟩
        rcases GoSlice.at?_eq_some_iff.mp hOwn' with
          ⟨_, hGet⟩
        rw [hOwn, Option.some.injEq] at hGet
        subst hGet
        simpa using hTerm
      · rename_i hRange
        have hLt := (List.getElem?_eq_some_iff.mp hOwn).1
        exact absurd ⟨hNonneg, by omega⟩ hRange

theorem installSnapshot_case
    {rf rf' : Raft C n}
    {args : InstallSnapshotArgs}
    {reply : InstallSnapshotReply}
    (hStep : rf.installSnapshot args = some (rf', reply)) :
    InstallSnapshotCase rf args rf' reply := by
  unfold installSnapshot at hStep
  dsimp only at hStep
  split at hStep
  · rename_i hTerm
    cases hStep
    exact .refused (Or.inl hTerm)
  · rename_i hTerm
    split at hStep
    · rename_i hLower
      cases hStep
      exact .refused (Or.inr (by omega))
    · rename_i hLower
      split at hStep
      · rename_i hEqual
        cases hStep
        exact .refused (Or.inr (by omega))
      · rename_i hEqual
        rcases Option.bind_eq_some_iff.mp hStep with
          ⟨log, hLog, hStep⟩
        cases hStep
        have hTerm' : rf.currentTerm ≤ args.term := by omega
        have hNewer :
            rf.snapshotIndex < args.lastIncludedIndex := by
          omega
        rcases snapshotLog_cases hLog with
          ⟨l, own, hLocal, hOwn, hOwnTerm, rfl⟩ |
          ⟨l, hLocal, hDiffer, rfl⟩
        · exact .kept hTerm' hNewer l hLocal own hOwn
            hOwnTerm
        · exact .reset hTerm' hNewer l hLocal hDiffer

theorem installSnapshot_isSome
    {rf : Raft C n}
    (hLog : rf.log ≠ [])
    (args : InstallSnapshotArgs) :
    ∃ rf' reply,
      rf.installSnapshot args = some (rf', reply) := by
  rcases List.exists_cons_of_ne_nil hLog with
    ⟨first, rest, hCons⟩
  have hSnapshotLog :
      ∃ log, rf.snapshotLog args = some log := by
    unfold snapshotLog holdsLastIncluded
    rw [localIndex_of_log hCons]
    simp only [Option.bind_eq_bind, Option.bind_some]
    split
    · rename_i hRange
      have hEntry :
          ∃ e, rf.logAt
            (args.lastIncludedInternal - first.index) =
              some e := by
        unfold logAt GoSlice.at?
        rw [if_pos hRange.1, List.getElem?_eq_getElem
          (by omega)]
        exact ⟨_, rfl⟩
      rcases hEntry with ⟨e, hEntry⟩
      rw [hasTermAt, hEntry]
      simp only [Option.map_some, Option.bind_some]
      split
      · unfold GoSlice.from?
        rw [if_pos (by omega)]
        exact ⟨_, rfl⟩
      · exact ⟨_, rfl⟩
    · exact ⟨_, rfl⟩
  rcases hSnapshotLog with ⟨log, hSnapshotLog⟩
  unfold installSnapshot
  simp only [hSnapshotLog, Option.bind_eq_bind,
    Option.bind_some]
  split
  · exact ⟨_, _, rfl⟩
  · split
    · exact ⟨_, _, rfl⟩
    · split
      · exact ⟨_, _, rfl⟩
      · exact ⟨_, _, rfl⟩

------------------------------------------------------------
-- Calls Of The Service
------------------------------------------------------------

/- The state after the log was cut to `first :: rest`. -/
def compacted
    (rf : Raft C n)
    (index : Int)
    (snapshot : Bytes)
    (first : LogEntry C)
    (rest : List (LogEntry C)) : Raft C n :=
  { rf with
    log := { first with type := .noop } :: rest
    snapshot := snapshot
    snapshotIndex := index
    snapshotTerm := first.term }.persist

theorem takeSnapshot_cases
    {rf rf' : Raft C n}
    {index : Int}
    {snapshot : Bytes}
    (hStep : rf.takeSnapshot index snapshot = some rf') :
    rf' = rf ∨
      ∃ (prevIndex : Int) (l : Nat) (first : LogEntry C)
        (rest : List (LogEntry C)),
        rf.internalIndex index = some prevIndex ∧
        rf.snapshotIndex < index ∧
        prevIndex ≤ rf.lastApplied ∧
        rf.localIndex prevIndex = some (l : Int) ∧
        rf.log.drop l = first :: rest ∧
        rf' = rf.compacted index snapshot first rest := by
  unfold takeSnapshot at hStep
  rcases Option.bind_eq_some_iff.mp hStep with
    ⟨prevIndex, hPrev, hStep⟩
  split at hStep
  · cases hStep
    exact Or.inl rfl
  · rename_i hIndex
    split at hStep
    · cases hStep
      exact Or.inl rfl
    · rename_i hApplied
      rcases Option.bind_eq_some_iff.mp hStep with
        ⟨l, hLocal, hStep⟩
      rcases Option.bind_eq_some_iff.mp hStep with
        ⟨suffix, hSuffix, hStep⟩
      rcases GoSlice.from?_eq_some_iff.mp hSuffix with
        ⟨hRange, hDrop⟩
      cases suffix with
      | nil => cases hStep
      | cons first rest =>
          cases hStep
          refine Or.inr ⟨prevIndex, l.toNat, first, rest,
            hPrev, by omega, by omega, ?_, hDrop, rfl⟩
          rw [hLocal, Int.toNat_of_nonneg hRange.1]

/- A leader appends `entry`, the last index being `len`. -/
def appended
    (rf : Raft C n)
    (entry : LogEntry C)
    (len : Int) : Raft C n :=
  { { rf with log := rf.log ++ [entry] }.persist with
    nextIndex := Function.update rf.nextIndex rf.me (len + 1)
    matchIndex := Function.update rf.matchIndex rf.me len }

theorem globalLogLen_append
    {rf rf' : Raft C n}
    {len : Int}
    {entry : LogEntry C}
    (hLen : rf.globalLogLen = some len)
    (hLog : rf'.log = rf.log ++ [entry]) :
    rf'.globalLogLen = some (len + 1) := by
  rcases exists_log_of_globalLogLen hLen with
    ⟨first, rest, hCons, hEq⟩
  have hCons' : rf'.log = first :: (rest ++ [entry]) := by
    rw [hLog, hCons, List.cons_append]
  rw [globalLogLen_of_log hCons', hLog, hEq]
  simp only [List.length_append, List.length_singleton]
  congr 1
  push_cast
  omega

theorem start_cases
    {rf rf' : Raft C n}
    {command : Option C}
    {out : Int × Int × Bool}
    (hStep : rf.start command = some (rf', out)) :
    (rf.state ≠ .leader ∧ rf' = rf) ∨
      (rf.state = .leader ∧
        ∃ len, rf.globalLogLen = some len ∧
          rf' = rf.appended
            { index := len
              term := rf.currentTerm
              type := .normal
              command := command } len) := by
  unfold start at hStep
  split at hStep
  · rename_i hState
    cases hStep
    exact Or.inl ⟨hState, rfl⟩
  · rename_i hState
    right
    rcases Option.bind_eq_some_iff.mp hStep with
      ⟨len, hLen, hStep⟩
    rcases Option.bind_eq_some_iff.mp hStep with
      ⟨len', hLen', hStep⟩
    rcases Option.bind_eq_some_iff.mp hStep with
      ⟨externIndex, _, hStep⟩
    have hSucc : len' = len + 1 :=
      Option.some.inj
        (hLen'.symm.trans (globalLogLen_append hLen rfl))
    subst hSucc
    cases hStep
    refine ⟨by simpa using hState, len, hLen, ?_⟩
    simp only [appended, persist, Int.add_sub_cancel]

------------------------------------------------------------
-- Elections
------------------------------------------------------------

theorem electionStart_spec
    {rf rf' : Raft C n}
    {args : RequestVoteArgs}
    (hStep : rf.electionStart = some (rf', args)) :
    rf' = { rf with
      votedFor := some (rf.me.val : Int)
      currentTerm := rf.currentTerm + 1 }.persist ∧
    args.term = rf.currentTerm + 1 ∧
    args.candiateId = (rf.me.val : Int) ∧
    rf.globalLogLen = some args.lastLogIndex ∧
    rf.lastLogTerm = some args.lastLogTerm := by
  unfold electionStart at hStep
  rcases Option.bind_eq_some_iff.mp hStep with
    ⟨len, hLen, hStep⟩
  rcases Option.bind_eq_some_iff.mp hStep with
    ⟨lastTerm, hLast, hStep⟩
  cases hStep
  exact ⟨rfl, rfl, rfl, hLen, hLast⟩

/- The entry a new leader appends. -/
def noopEntry
    (rf : Raft C n)
    (len : Int) : LogEntry C where
  index := len
  term := rf.currentTerm
  type := .noop
  command := none

/- The state of the winner of an election. -/
def promoted
    (rf : Raft C n)
    (len : Int) : Raft C n :=
  { { rf with
      state := .leader
      log := rf.log ++ [rf.noopEntry len] }.persist with
    nextIndex :=
      fun i => if i = rf.me then len + 1 else len
    matchIndex :=
      fun i => if i = rf.me then len else 0 }

theorem becomeLeader_spec
    {rf rf' : Raft C n}
    (hStep : rf.becomeLeader = some rf') :
    ∃ len, rf.globalLogLen = some len ∧
      rf' = rf.promoted len := by
  unfold becomeLeader at hStep
  rcases Option.bind_eq_some_iff.mp hStep with
    ⟨len, hLen, hStep⟩
  rcases Option.bind_eq_some_iff.mp hStep with
    ⟨len', hLen', hStep⟩
  have hLen₀ : rf.globalLogLen = some len := hLen
  have hSucc : len' = len + 1 :=
    Option.some.inj
      (hLen'.symm.trans (globalLogLen_append hLen₀ rfl))
  subst hSucc
  cases hStep
  refine ⟨len, hLen₀, ?_⟩
  simp only [promoted, noopEntry, persist,
    Int.add_sub_cancel]
  rfl

theorem electionWin_cases
    {rf rf' : Raft C n}
    {ballot : Int}
    {won : Bool}
    (hStep : rf.electionWin ballot = some (rf', won)) :
    (won = true ∧ rf.state = .candiate ∧
      ((n / 2 + 1 : Nat) : Int) ≤ ballot ∧
      ∃ len, rf.globalLogLen = some len ∧
        rf' = rf.promoted len) ∨
    (won = false ∧ rf' = rf) := by
  unfold electionWin at hStep
  split at hStep
  · rename_i hWin
    rcases Option.bind_eq_some_iff.mp hStep with
      ⟨rf₁, hLeader, hStep⟩
    cases hStep
    exact Or.inl ⟨rfl, hWin.1, hWin.2,
      becomeLeader_spec hLeader⟩
  · cases hStep
    exact Or.inr ⟨rfl, rfl⟩

------------------------------------------------------------
-- The Apply Loop
------------------------------------------------------------

/- The message that applies the command of `entry`. -/
def commandMsg
    (entry : LogEntry C)
    (external : Int) : ApplyMsg C where
  commandValid := true
  command := entry.command
  commandIndex := external
  snapshotValid := false
  snapshot := []
  snapshotTerm := 0
  snapshotIndex := 0

theorem applyIteration_cases
    {rf rf' : Raft C n}
    (hStep : rf.applyIteration = some (some rf')) :
    ∃ (l : Nat) (entry : LogEntry C),
      rf.localIndex (rf.lastApplied + 1) = some (l : Int) ∧
      0 < l ∧
      rf.log[l]? = some entry ∧
      rf.lastApplied + 1 ≤ rf.commitIndex ∧
      ((entry.type = .normal ∧
        ∃ external,
          rf.externalIndex (rf.lastApplied + 1) =
            some external ∧
          rf' = { rf with
            applyQueue := rf.applyQueue ++
              [commandMsg entry external]
            lastApplied := rf.lastApplied + 1 }) ∨
      (entry.type = .noop ∧
        rf' = { rf with
          lastApplied := rf.lastApplied + 1 })) := by
  unfold applyIteration at hStep
  rcases Option.bind_eq_some_iff.mp hStep with
    ⟨len, hLen, hStep⟩
  rcases Option.bind_eq_some_iff.mp hStep with
    ⟨l, hLocal, hStep⟩
  split at hStep
  · rename_i hGuard
    rcases hGuard with ⟨hCommit, _, hPos⟩
    rcases Option.bind_eq_some_iff.mp hStep with
      ⟨entry, hEntry, hStep⟩
    rcases GoSlice.at?_eq_some_iff.mp hEntry with
      ⟨hNonneg, hGet⟩
    refine ⟨l.toNat, entry, ?_, by omega, hGet, hCommit, ?_⟩
    · rw [hLocal, Int.toNat_of_nonneg hNonneg]
    · cases hType : entry.type with
      | normal =>
          left
          rw [hType] at hStep
          rcases Option.bind_eq_some_iff.mp hStep with
            ⟨external, hExternal, hStep⟩
          cases hStep
          exact ⟨rfl, external, hExternal, rfl⟩
      | noop =>
          right
          rw [hType] at hStep
          cases hStep
          exact ⟨rfl, rfl⟩
  · cases hStep

/- What every iteration preserves, the loop preserves. -/
theorem applyEntries_induct
    {P : Raft C n → Prop}
    (hIteration :
      ∀ rf rf', P rf → rf.applyIteration = some (some rf') →
        P rf')
    {rf rf' : Raft C n}
    (hStart : P rf)
    (hStep : rf.applyEntries = some rf') :
    P rf' := by
  have hLoop :
      ∀ (fuel : Nat) (rf rf' : Raft C n), P rf →
        applyLoop fuel rf = some rf' → P rf' := by
    intro fuel
    induction fuel with
    | zero =>
        intro rf rf' hP hRun
        cases hRun
        exact hP
    | succ fuel ih =>
        intro rf rf' hP hRun
        rw [applyLoop] at hRun
        rcases Option.bind_eq_some_iff.mp hRun with
          ⟨next, hNext, hRun⟩
        cases next with
        | none =>
            cases hRun
            exact hP
        | some rf₁ =>
            exact ih rf₁ rf' (hIteration rf rf₁ hP hNext)
              hRun
  exact hLoop _ rf rf' hStart hStep

------------------------------------------------------------
-- Replication
------------------------------------------------------------

/-
  A request carries everything after some position `p` of
  the sender's log, and the term at `p`.
-/
theorem syncArgs_spec
    {rf : Raft C n}
    {server : Fin n}
    {args : AppendEntriesArgs C}
    {newNextIndex : Int}
    (hArgs : rf.syncArgs server =
      some (args, newNextIndex)) :
    ∃ (first : LogEntry C) (rest : List (LogEntry C))
      (p : Nat) (prevLog : LogEntry C),
      rf.log = first :: rest ∧
      rf.log[p]? = some prevLog ∧
      newNextIndex = rf.log.length + first.index ∧
      args =
        { term := rf.currentTerm
          leaderId := (rf.me.val : Int)
          prevLogIndex := first.index + p
          prevLogTerm := prevLog.term
          entries := rf.log.drop (p + 1)
          leaderCommit := rf.commitIndex } := by
  unfold syncArgs at hArgs
  rcases Option.bind_eq_some_iff.mp hArgs with
    ⟨firstIndex, hFirst, hArgs⟩
  rcases Option.bind_eq_some_iff.mp hArgs with
    ⟨len, hLen, hArgs⟩
  rcases exists_log_of_globalLogLen hLen with
    ⟨first, rest, hLog, hLenEq⟩
  rw [globalIndex_of_log hLog, Option.some.injEq] at hFirst
  dsimp only at hArgs
  generalize
    (if rf.nextIndex server < firstIndex then firstIndex
      else if rf.nextIndex server > len then len
      else rf.nextIndex server) = next at hArgs
  rw [localIndex_of_log hLog, localIndex_of_log hLog] at hArgs
  rcases Option.bind_eq_some_iff.mp hArgs with
    ⟨l, hl, hArgs⟩
  rcases Option.bind_eq_some_iff.mp hArgs with
    ⟨prevLog, hPrev, hArgs⟩
  rcases Option.bind_eq_some_iff.mp hArgs with
    ⟨l', hl', hArgs⟩
  rcases Option.bind_eq_some_iff.mp hArgs with
    ⟨entries, hEntries, hArgs⟩
  rw [Option.some.injEq] at hl hl'
  rcases GoSlice.at?_eq_some_iff.mp hPrev with
    ⟨hNonneg, hGet⟩
  rcases GoSlice.from?_eq_some_iff.mp hEntries with
    ⟨hRange, hDrop⟩
  cases hArgs
  have hSucc : l'.toNat = l.toNat + 1 := by omega
  refine ⟨first, rest, l.toNat, prevLog, hLog, hGet, hLenEq,
    ?_⟩
  congr 1
  · omega
  · rw [← hDrop, hSucc]

theorem mem_syncEntries
    {rf : Raft C n}
    {servers : List (Fin n)}
    {requests : List (Fin n × AppendEntriesArgs C × Int)}
    (hSync : rf.syncEntries servers = some requests)
    {server : Fin n}
    {args : AppendEntriesArgs C}
    {newNextIndex : Int}
    (hMem : (server, args, newNextIndex) ∈ requests) :
    server ≠ rf.me ∧
      rf.syncArgs server = some (args, newNextIndex) := by
  induction servers generalizing requests with
  | nil =>
      cases hSync
      cases hMem
  | cons s servers ih =>
      rw [syncEntries] at hSync
      split at hSync
      · exact ih hSync hMem
      · rename_i hOther
        rcases Option.bind_eq_some_iff.mp hSync with
          ⟨request, hRequest, hSync⟩
        rcases Option.bind_eq_some_iff.mp hSync with
          ⟨requests', hRest, hSync⟩
        cases hSync
        rcases List.mem_cons.mp hMem with hEq | hTail
        · cases hEq
          exact ⟨hOther, hRequest⟩
        · exact ih hRest hTail

/- The InstallSnapshot request a leader builds. -/
def snapshotArgs
    (rf : Raft C n)
    (first : LogEntry C) : InstallSnapshotArgs where
  term := rf.currentTerm
  leaderId := (rf.me.val : Int)
  lastIncludedInternal := first.index
  lastIncludedIndex := rf.snapshotIndex
  lastIncludedTerm := first.term
  data := rf.snapshot

theorem handleFailedReply_nextIndex
    {rf rf' : Raft C n}
    {server : Fin n}
    {args : AppendEntriesArgs C}
    {reply : AppendEntriesReply}
    (hStep : rf.handleFailedReply server args reply =
      some (.nextIndex rf')) :
    ∃ next, rf' = { rf with
      nextIndex :=
        Function.update rf.nextIndex server next } := by
  unfold handleFailedReply at hStep
  split at hStep
  · cases hStep
  · rcases Option.bind_eq_some_iff.mp hStep with
      ⟨hit, _, hStep⟩
    split at hStep
    · cases hStep
      exact ⟨_, rfl⟩
    · rcases Option.bind_eq_some_iff.mp hStep with
        ⟨hit', _, hStep⟩
      split at hStep
      · cases hStep
        exact ⟨_, rfl⟩
      · rcases Option.bind_eq_some_iff.mp hStep with
          ⟨l, _, hStep⟩
        rcases Option.bind_eq_some_iff.mp hStep with
          ⟨applied, _, hStep⟩
        rcases Option.bind_eq_some_iff.mp hStep with
          ⟨first, _, hStep⟩
        split at hStep <;> cases hStep

theorem handleFailedReply_snapshot
    {rf : Raft C n}
    {server : Fin n}
    {args : AppendEntriesArgs C}
    {reply : AppendEntriesReply}
    {snapshot : InstallSnapshotArgs}
    (hStep : rf.handleFailedReply server args reply =
      some (.snapshot snapshot)) :
    ∃ first, rf.logAt 0 = some first ∧
      snapshot = rf.snapshotArgs first := by
  unfold handleFailedReply at hStep
  split at hStep
  · cases hStep
  · rcases Option.bind_eq_some_iff.mp hStep with
      ⟨hit, _, hStep⟩
    split at hStep
    · cases hStep
    · rcases Option.bind_eq_some_iff.mp hStep with
        ⟨hit', _, hStep⟩
      split at hStep
      · cases hStep
      · rcases Option.bind_eq_some_iff.mp hStep with
          ⟨l, _, hStep⟩
        rcases Option.bind_eq_some_iff.mp hStep with
          ⟨applied, _, hStep⟩
        rcases Option.bind_eq_some_iff.mp hStep with
          ⟨first, hFirst, hStep⟩
        split at hStep
        · cases hStep
          exact ⟨first, hFirst, rfl⟩
        · cases hStep

theorem commitCheck_cases
    {rf rf' : Raft C n}
    (hStep : rf.commitCheck = some rf') :
    (rf' = rf ∧
      ∀ N, rf.commitTarget = some (some N) →
        N = rf.commitIndex) ∨
      ∃ N, rf.commitTarget = some (some N) ∧
        rf' = { rf with commitIndex := N } := by
  unfold commitCheck at hStep
  rcases Option.bind_eq_some_iff.mp hStep with
    ⟨target, hTarget, hStep⟩
  cases target with
  | none =>
      cases hStep
      refine Or.inl ⟨rfl, ?_⟩
      intro N hSome
      rw [hTarget] at hSome
      cases hSome
  | some N =>
      dsimp only at hStep
      split at hStep
      · rcases Option.bind_eq_some_iff.mp hStep with
          ⟨_, _, hStep⟩
        cases hStep
        exact Or.inr ⟨N, hTarget, rfl⟩
      · next hSame =>
          cases hStep
          refine Or.inl ⟨rfl, ?_⟩
          intro N' hSome
          rw [hTarget] at hSome
          cases hSome
          exact (not_not.mp hSame).symm

------------------------------------------------------------
-- Make
------------------------------------------------------------

/-
  `Make` reads the disk and then resets the volatile fields;
  the queue holds at most the persisted snapshot.
-/
theorem make_spec
    {me : Fin n}
    {persister : Persister C}
    {rf : Raft C n}
    (hMake : make me persister = some rf) :
    ∃ rf₀ len,
      (fresh me persister).readPersist
        persister.raftstate = some rf₀ ∧
      rf₀.globalLogLen = some len ∧
      rf.durable = rf₀.durable ∧
      rf.me = rf₀.me ∧
      rf.persister = rf₀.persister ∧
      rf.commitIndex = rf₀.commitIndex ∧
      (rf.lastApplied = rf₀.lastApplied ∨
        rf₀.baseIndex = some rf.lastApplied) ∧
      (∀ i, rf.nextIndex i = len) ∧
      (∀ i, rf.matchIndex i = 0) ∧
      ∀ msg ∈ rf.applyQueue, msg.commandValid = false := by
  unfold make at hMake
  rcases Option.bind_eq_some_iff.mp hMake with
    ⟨rf₀, hRead, hMake⟩
  rcases Option.bind_eq_some_iff.mp hMake with
    ⟨base, hBase, hMake⟩
  have hQueue : rf₀.applyQueue = [] := by
    unfold readPersist at hRead
    split at hRead
    · cases hRead
      rfl
    · rcases Option.bind_eq_some_iff.mp hRead with
        ⟨_, _, hRead⟩
      cases hRead
      rfl
    · cases hRead
      rfl
  dsimp only at hMake
  split at hMake
  · rcases Option.bind_eq_some_iff.mp hMake with
      ⟨len, hLen, hMake⟩
    cases hMake
    refine ⟨rf₀, len, hRead, hLen, rfl, rfl, rfl, rfl,
      Or.inr hBase, fun _ => rfl, fun _ => rfl, ?_⟩
    intro msg hMsg
    rw [List.mem_singleton] at hMsg
    rw [hMsg]
  · rcases Option.bind_eq_some_iff.mp hMake with
      ⟨len, hLen, hMake⟩
    cases hMake
    refine ⟨rf₀, len, hRead, hLen, rfl, rfl, rfl, rfl,
      Or.inl rfl, fun _ => rfl, fun _ => rfl, ?_⟩
    intro msg hMsg
    rw [hQueue] at hMsg
    cases hMsg

end Raft

end RaftLab
