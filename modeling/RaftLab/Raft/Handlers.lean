import RaftLab.Raft.State

/-
  The critical sections of the Raft package.

  Every definition below is what one goroutine does between
  taking and releasing `rf.mu`: the three RPC handlers, the
  calls of the service, and the critical sections of the
  ticker, of an election, of the apply loop and of the
  goroutines of a leader.

  Key definitions include:
    * `Raft.requestVote`, `Raft.appendEntries`,
      `Raft.installSnapshot`
    * `Raft.takeSnapshot`, `Raft.start`
    * `Raft.tickerTimeout`, `Raft.electionStart`,
      `Raft.electionWin`
    * `Raft.applyEntries`, `Raft.syncEntries`,
      `Raft.handleSuccess`, `Raft.handleFailedReply`,
      `Raft.handleSnapshotReply`, `Raft.commitCheck`
-/

------------------------------------------------------------
-- RequestVote
------------------------------------------------------------

namespace RaftLab

namespace Raft

variable {C : Type} {n : Nat}

/- The up-to-date comparison of a vote request. -/
def isUpToDate
    (args : RequestVoteArgs)
    (lastLogIndex lastLogTerm : Int) : Bool :=
  decide (args.lastLogTerm > lastLogTerm) ||
    (decide (args.lastLogTerm = lastLogTerm) &&
      decide (args.lastLogIndex ≥ lastLogIndex))

/- Adopt the higher term of a vote request. -/
def adoptVoteTerm
    (rf : Raft C n)
    (args : RequestVoteArgs) : Raft C n :=
  if args.term > rf.currentTerm then
    { rf with
      currentTerm := args.term
      votedFor := none
      state := .follower }.persist
  else
    rf

/- Record a vote for the sender of a request. -/
def giveVote
    (rf : Raft C n)
    (args : RequestVoteArgs) : Raft C n :=
  { rf with
    currentTerm := args.term
    votedFor := some args.candiateId
    state := .follower }.persist

/-
  The reply carries the term from before the request unless
  the vote is granted.
-/
def requestVote
    (rf : Raft C n)
    (args : RequestVoteArgs) :
    Option (Raft C n × RequestVoteReply) := do
  let lastLogIndex ← rf.globalLogLen
  let lastLogTerm ← rf.lastLogTerm
  let refusal : RequestVoteReply :=
    { term := rf.currentTerm, voteGranted := false }
  if args.term < rf.currentTerm then
    return (rf, refusal)
  else
    let rf := rf.adoptVoteTerm args
    if isUpToDate args lastLogIndex lastLogTerm = false then
      return (rf, refusal)
    else if rf.votedFor ≠ none ∧
        rf.votedFor ≠ some args.candiateId then
      return (rf, refusal)
    else if rf.votedFor = none ∨
        rf.votedFor = some args.candiateId then
      return (rf.giveVote args,
        { term := args.term, voteGranted := true })
    else
      none

------------------------------------------------------------
-- AppendEntries
------------------------------------------------------------

/- State synchronization with the sender of the request. -/
def syncState
    (rf : Raft C n)
    (args : AppendEntriesArgs C) : Raft C n :=
  { rf with
    votedFor :=
      if args.term > rf.currentTerm then none
      else rf.votedFor
    currentTerm := args.term
    state := .follower }.persist

/-
  The prefix check of a fix package: the position of the
  first entry that differs in its term from the follower's
  or lies beyond the follower's log, or the number of
  entries if there is none. `i` is the position of the
  first entry of the list still to be checked.
-/
def prefixCheck
    (rf : Raft C n)
    (total : Nat) :
    Nat → List (LogEntry C) → Option Nat
| i, [] => some i
| i, e :: es => do
    let l ← rf.localIndex (i + rf.lastApplied + 1)
    if l < rf.log.length then
      if l < 0 then
        return total
      else
        let own ← rf.logAt l
        if e.term ≠ own.term then
          return i
        else
          rf.prefixCheck total (i + 1) es
    else
      return i

/- Replace the log, persist it and take over the commit. -/
def storeEntries
    (rf : Raft C n)
    (log : List (LogEntry C))
    (leaderCommit : Int) : Raft C n :=
  { { rf with log := log }.persist with
    commitIndex := leaderCommit }

/- Log synchronization, after state synchronization. -/
def syncLog
    (rf : Raft C n)
    (args : AppendEntriesArgs C) :
    Option (Raft C n × AppendEntriesReply) := do
  let len ← rf.globalLogLen
  let prevLogIndex := len - 1
  let prevLogTerm ← rf.lastLogTerm
  let reply : AppendEntriesReply :=
    { term := rf.currentTerm
      success := true
      prevLogIndex := prevLogIndex
      prevLogTerm := prevLogTerm
      lastApplied := rf.lastApplied }
  -- Good case
  if prevLogIndex = args.prevLogIndex ∧
      prevLogTerm = args.prevLogTerm then
    return (rf.storeEntries (rf.log ++ args.entries)
      args.leaderCommit, reply)
  -- fix package from leader
  else if prevLogIndex > args.prevLogIndex ∧
      args.prevLogIndex = rf.lastApplied then
    let i ← rf.prefixCheck args.entries.length 0
      args.entries
    if i = args.entries.length then
      return (rf, reply)
    else
      let bound ← rf.localIndex (rf.lastApplied + 1)
      let kept ← GoSlice.upTo? rf.log bound
      return (rf.storeEntries (kept ++ args.entries)
        args.leaderCommit, reply)
  -- Bad case
  else if prevLogIndex ≠ args.prevLogIndex ∨
      prevLogTerm ≠ args.prevLogTerm then
    return (rf, { reply with success := false })
  else
    none

def appendEntries
    (rf : Raft C n)
    (args : AppendEntriesArgs C) :
    Option (Raft C n × AppendEntriesReply) :=
  if args.term ≥ rf.currentTerm then
    (rf.syncState args).syncLog args
  else
    some (rf,
      { term := rf.currentTerm
        success := false
        prevLogIndex := 0
        prevLogTerm := 0
        lastApplied := 0 })

------------------------------------------------------------
-- InstallSnapshot
------------------------------------------------------------

/- The entry that stands for everything in a snapshot. -/
def snapshotEntry
    (args : InstallSnapshotArgs) : LogEntry C where
  index := args.lastIncludedInternal
  term := args.lastIncludedTerm
  type := .noop
  command := none

/- Whether the log holds the last entry of the snapshot. -/
def holdsLastIncluded
    (rf : Raft C n)
    (args : InstallSnapshotArgs)
    (l : Int) : Option Bool :=
  if l ≥ 0 ∧ l < rf.log.length then
    rf.hasTermAt l args.lastIncludedTerm
  else
    some false

/- The log left by Figure 13, step 6. -/
def snapshotLog
    (rf : Raft C n)
    (args : InstallSnapshotArgs) :
    Option (List (LogEntry C)) := do
  let l ← rf.localIndex args.lastIncludedInternal
  if ← rf.holdsLastIncluded args l then
    let suffix ← GoSlice.from? rf.log l
    return snapshotEntry args :: suffix.drop 1
  else
    return [snapshotEntry args]

/-
  A higher term in the request is neither adopted nor
  persisted.
-/
def installSnapshot
    (rf : Raft C n)
    (args : InstallSnapshotArgs) :
    Option (Raft C n × InstallSnapshotReply) := do
  let reply : InstallSnapshotReply :=
    { term := rf.currentTerm }
  if args.term < rf.currentTerm then
    return (rf, reply)
  else if args.lastIncludedIndex < rf.snapshotIndex then
    return (rf, reply)
  else if args.lastIncludedIndex = rf.snapshotIndex then
    return (rf, reply)
  else
    let log ← rf.snapshotLog args
    let rf :=
      { rf with
        log := log
        state := .follower
        snapshot := args.data
        snapshotIndex := args.lastIncludedIndex
        snapshotTerm := args.lastIncludedTerm }.persist
    return ({ rf with
      lastApplied := args.lastIncludedInternal
      commitIndex := args.lastIncludedInternal
      applyQueue :=
        [{ commandValid := false
           command := none
           commandIndex := 0
           snapshotValid := true
           snapshot := args.data
           snapshotTerm := args.lastIncludedTerm
           snapshotIndex := args.lastIncludedIndex }] },
      reply)

------------------------------------------------------------
-- Calls Of The Service
------------------------------------------------------------

/- `Snapshot(index, snapshot)`. -/
def takeSnapshot
    (rf : Raft C n)
    (index : Int)
    (snapshot : Bytes) : Option (Raft C n) := do
  let prevIndex ← rf.internalIndex index
  if rf.snapshotIndex ≥ index then
    return rf
  else if rf.lastApplied < prevIndex then
    return rf
  else
    let l ← rf.localIndex prevIndex
    match ← GoSlice.from? rf.log l with
    | [] => none
    | first :: rest =>
        return { rf with
          log := { first with type := .noop } :: rest
          snapshot := snapshot
          snapshotIndex := index
          snapshotTerm := first.term }.persist

/-
  `Start(command)`, with the index, the term and whether the
  server believes it is the leader.
-/
def start
    (rf : Raft C n)
    (command : Option C) :
    Option (Raft C n × (Int × Int × Bool)) := do
  if rf.state ≠ .leader then
    return (rf, (-1, -1, false))
  else
    let newLog : LogEntry C :=
      { index := ← rf.globalLogLen
        term := rf.currentTerm
        type := .normal
        command := command }
    let rf := { rf with log := rf.log ++ [newLog] }.persist
    let len ← rf.globalLogLen
    let rf :=
      { rf with
        nextIndex := Function.update rf.nextIndex rf.me len
        matchIndex :=
          Function.update rf.matchIndex rf.me (len - 1) }
    let externIndex ← rf.externalIndex (len - 1)
    return (rf, (externIndex, rf.currentTerm, true))

------------------------------------------------------------
-- Elections
------------------------------------------------------------

/- The ticker's first critical section, after a timeout. -/
def tickerTimeout (rf : Raft C n) : Raft C n :=
  { rf with state := .candiate }.persist

/- The first critical section of `election`. -/
def electionStart
    (rf : Raft C n) :
    Option (Raft C n × RequestVoteArgs) := do
  let rf :=
    { rf with
      votedFor := some (rf.me.val : Int)
      currentTerm := rf.currentTerm + 1 }.persist
  let lastLogIndex ← rf.globalLogLen
  let lastLogTerm ← rf.lastLogTerm
  return (rf,
    { term := rf.currentTerm
      candiateId := (rf.me.val : Int)
      lastLogIndex := lastLogIndex
      lastLogTerm := lastLogTerm })

/- What the winner of an election does to its state. -/
def becomeLeader (rf : Raft C n) : Option (Raft C n) := do
  let rf := { rf with state := .leader }.persist
  let len ← rf.globalLogLen
  let newLog : LogEntry C :=
    { index := len
      term := rf.currentTerm
      type := .noop
      command := none }
  let rf := { rf with log := rf.log ++ [newLog] }.persist
  let len' ← rf.globalLogLen
  return { rf with
    nextIndex := fun i => if i = rf.me then len' else len
    matchIndex :=
      fun i => if i = rf.me then len' - 1 else 0 }

/-
  The last critical section of `election`, entered with the
  number of ballots loaded before; `true` when it won.
-/
def electionWin
    (rf : Raft C n)
    (ballot : Int) : Option (Raft C n × Bool) := do
  if rf.state = .candiate ∧
      ballot ≥ ((n / 2 + 1 : Nat) : Int) then
    return (← rf.becomeLeader, true)
  else
    return (rf, false)

------------------------------------------------------------
-- The Apply Loop
------------------------------------------------------------

/-
  One iteration of the inner loop of `applyEntries`, or
  `some none` when it breaks.
-/
def applyIteration
    (rf : Raft C n) : Option (Option (Raft C n)) := do
  let i := rf.lastApplied + 1
  let len ← rf.globalLogLen
  let l ← rf.localIndex i
  if i ≤ rf.commitIndex ∧ i < len ∧ l > 0 then
    let entry ← rf.logAt l
    match entry.type with
    | .normal =>
        let external ← rf.externalIndex i
        return some { rf with
          applyQueue := rf.applyQueue ++
            [{ commandValid := true
               command := entry.command
               commandIndex := external
               snapshotValid := false
               snapshot := []
               snapshotTerm := 0
               snapshotIndex := 0 }]
          lastApplied := i }
    | .noop =>
        return some { rf with lastApplied := i }
  else
    return none

def applyLoop : Nat → Raft C n → Option (Raft C n)
| 0, rf => some rf
| fuel + 1, rf => do
    match ← rf.applyIteration with
    | none => return rf
    | some rf' => applyLoop fuel rf'

/-
  Each iteration raises `lastApplied` by one and stops at
  `commitIndex`, which bounds their number.
-/
def applyEntries (rf : Raft C n) : Option (Raft C n) :=
  applyLoop (rf.commitIndex - rf.lastApplied).toNat rf

------------------------------------------------------------
-- Replication
------------------------------------------------------------

/-
  The request `syncEntries` builds for one peer, and the
  `newNextIndex` its goroutine keeps.
-/
def syncArgs
    (rf : Raft C n)
    (server : Fin n) :
    Option (AppendEntriesArgs C × Int) := do
  let first ← rf.globalIndex 1
  let len ← rf.globalLogLen
  let next := rf.nextIndex server
  let realNextIndex :=
    if next < first then first
    else if next > len then len
    else next
  let prevLog ← rf.logAt
    (← rf.localIndex (realNextIndex - 1))
  let entries ← GoSlice.from? rf.log
    (← rf.localIndex realNextIndex)
  return (
    { term := rf.currentTerm
      leaderId := (rf.me.val : Int)
      prevLogIndex := realNextIndex - 1
      prevLogTerm := prevLog.term
      entries := entries
      leaderCommit := rf.commitIndex }, len)

/- The requests for all peers in `servers` but `rf.me`. -/
def syncEntries
    (rf : Raft C n) :
    List (Fin n) →
      Option (List (Fin n × AppendEntriesArgs C × Int))
| [] => some []
| server :: servers =>
    if server = rf.me then
      rf.syncEntries servers
    else do
      let request ← rf.syncArgs server
      let requests ← rf.syncEntries servers
      return (server, request) :: requests

/- A successful reply, handled under the lock. -/
def handleSuccess
    (rf : Raft C n)
    (server : Fin n)
    (newNextIndex : Int) : Raft C n :=
  { rf with
    nextIndex :=
      Function.update rf.nextIndex server newNextIndex
    matchIndex :=
      if rf.matchIndex server ≤ newNextIndex - 1 then
        Function.update rf.matchIndex server
          (newNextIndex - 1)
      else
        rf.matchIndex }

/- How the first half of `handleFailedReply` ends. -/
inductive FailedReply (C : Type) (n : Nat)
  | cancel
  | nextIndex (rf : Raft C n)
  | snapshot (args : InstallSnapshotArgs)

/- Cases 1 and 2 of a failed reply. -/
def replyMatchesLog
    (rf : Raft C n)
    (args : AppendEntriesArgs C)
    (reply : AppendEntriesReply) : Option Bool := do
  let l ← rf.localIndex reply.prevLogIndex
  let len ← rf.globalLogLen
  if l + 1 > 0 then
    if reply.prevLogTerm = args.prevLogTerm ∧
        reply.prevLogIndex < args.prevLogIndex then
      return true
    else if reply.prevLogIndex ≠ args.prevLogIndex ∧
        reply.prevLogIndex < len then
      rf.hasTermAt l reply.prevLogTerm
    else
      return false
  else
    return false

/- Cases 3 and 4 of a failed reply. -/
def replyNeedsFix
    (rf : Raft C n)
    (args : AppendEntriesArgs C)
    (reply : AppendEntriesReply) : Option Bool := do
  let l ← rf.localIndex reply.prevLogIndex
  let applied ← rf.localIndex (reply.lastApplied + 1)
  let len ← rf.globalLogLen
  if applied ≥ 0 ∧ l ≥ 0 then
    if reply.prevLogIndex ≥ args.prevLogIndex ∨
        reply.prevLogIndex ≥ len then
      return true
    else
      return !(← rf.hasTermAt l reply.prevLogTerm)
  else
    return false

/- `handleFailedReply`, up to the sending of a snapshot. -/
def handleFailedReply
    (rf : Raft C n)
    (server : Fin n)
    (args : AppendEntriesArgs C)
    (reply : AppendEntriesReply) :
    Option (FailedReply C n) := do
  -- Case 0
  if rf.currentTerm < reply.term then
    return .cancel
  else if ← rf.replyMatchesLog args reply then
    return .nextIndex { rf with
      nextIndex := Function.update rf.nextIndex server
        (reply.prevLogIndex + 1) }
  else if ← rf.replyNeedsFix args reply then
    return .nextIndex { rf with
      nextIndex := Function.update rf.nextIndex server
        (reply.lastApplied + 1) }
  else
    -- Case 5
    let l ← rf.localIndex reply.prevLogIndex
    let applied ← rf.localIndex (reply.lastApplied + 1)
    let first ← rf.logAt 0
    if l + 1 < 0 ∨ applied < 0 ∨ l < 0 then
      return .snapshot
        { term := rf.currentTerm
          leaderId := (rf.me.val : Int)
          lastIncludedInternal := first.index
          lastIncludedIndex := rf.snapshotIndex
          lastIncludedTerm := first.term
          data := rf.snapshot }
    else
      none

/-
  The reply to an InstallSnapshot request; `none` when the
  leader tasks are cancelled.
-/
def handleSnapshotReply
    (rf : Raft C n)
    (server : Fin n)
    (args : InstallSnapshotArgs)
    (reply : InstallSnapshotReply) : Option (Raft C n) :=
  if rf.currentTerm < reply.term then
    none
  else
    some { rf with
      nextIndex := Function.update rf.nextIndex server
        (args.lastIncludedIndex + 1) }

------------------------------------------------------------
-- Commitment
------------------------------------------------------------

/- How many entries of `matchIndex` are at least `N`. -/
def matchCount (rf : Raft C n) (N : Int) : Nat :=
  (Finset.univ.filter
    (fun i : Fin n => N ≤ rf.matchIndex i)).card

/- The loop of `commitCheck` over `N`. -/
def commitSearch
    (rf : Raft C n)
    (len : Int) :
    Nat → Int → Int → Bool → Int × Bool
| 0, _, newCommitIndex, changed => (newCommitIndex, changed)
| fuel + 1, N, newCommitIndex, changed =>
    if newCommitIndex < len then
      if rf.matchCount N ≥ n / 2 + 1 then
        rf.commitSearch len fuel (N + 1) N true
      else
        (newCommitIndex, changed)
    else
      (newCommitIndex, changed)

/-
  The condition under which `commitCheck` takes over the
  index its loop found.
-/
def commitAllowed
    (rf : Raft C n)
    (len newCommitIndex : Int)
    (changed : Bool) : Option Bool := do
  let l ← rf.localIndex newCommitIndex
  if changed = false then
    return false
  else if l < 0 then
    return true
  else if newCommitIndex < len then
    rf.hasTermAt l rf.currentTerm
  else
    return false

/-
  The commit index one pass of `commitCheck` moves to, if
  any. The loop moves `newCommitIndex` up by one in each
  iteration after the first, which bounds their number.
-/
def commitTarget (rf : Raft C n) : Option (Option Int) := do
  let len ← rf.globalLogLen
  let N := rf.commitIndex + 1
  let found :=
    rf.commitSearch len
      ((len - rf.commitIndex).toNat + 1) N N false
  if ← rf.commitAllowed len found.1 found.2 then
    return some found.1
  else
    return none

/-
  One pass of `commitCheck`. The arguments of the debug
  message are evaluated whether it is printed or not.
-/
def commitCheck (rf : Raft C n) : Option (Raft C n) := do
  match ← rf.commitTarget with
  | none => return rf
  | some newCommitIndex =>
      if rf.commitIndex ≠ newCommitIndex then
        let _ ← rf.externalIndex newCommitIndex
        return { rf with commitIndex := newCommitIndex }
      else
        return rf

end Raft

end RaftLab
