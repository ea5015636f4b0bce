import RaftLab.Raft.Handlers

/-
  One Raft server with its goroutines.

  A `Node` is a `Raft` structure together with the goroutines
  running on it and the variables they share: cancel tokens,
  ballot counts and the term an election was started for. A
  step of a node is one critical section, one atomic load or
  store, or one queue operation. Waiting on a condition
  variable or a timer is not a step; any goroutine may be
  woken at any time.

  A request counts as sent when it is built: the load of the
  cancel token in front of the loop that sends it is left
  out, so a request that the token stops may be delivered.
  Retries are further deliveries of the same request, and the
  goroutine that sends it only waits for one reply.

  What a step shows to the outside is recorded as a list of
  `Effect`s: votes given, elections won, requests, replies
  and messages put on `applyCh`.

  Key definitions include:
    * `Thread`, `Effect`, `Event`
    * `Node`, `Node.make`, `Node.step`
-/

------------------------------------------------------------
-- Goroutines
------------------------------------------------------------

namespace RaftLab

/-
  A goroutine between two of its steps. `k` is the number of
  the cancel token it was given.
-/
inductive Thread (C : Type) (n : Nat)
  -- `election`, before its first critical section
  | election (k : Nat)
  -- `election`, at the top of its polling loop
  | electionLoop (k : Nat)
  -- `ballotCount` has been loaded
  | electionBallot (k : Nat) (ballot : Int)
  -- `cancelToken` has been loaded and was not set
  | electionChecked (k : Nat) (ballot : Int)
  -- the lock is released, `serveAsLeader` not yet started
  | electionWon
  -- waiting for the reply to a vote request
  | requestVote (k : Nat) (server : Fin n)
      (args : RequestVoteArgs)
  -- about to cancel the election
  | voteCancel (k : Nat)
  -- about to add a ballot
  | voteGranted (k : Nat) (server : Fin n)
  -- the loop of `serveAsLeader`
  | serveAsLeader (term : Int) (k : Nat)
  -- `commitCheck`, at the top of its loop
  | commitCheck (k : Nat)
  -- `commitCheck`, waiting with the token found unset
  | commitWait (k : Nat)
  -- `syncEntries`, waiting for the lock
  | syncEntries (k : Nat)
  -- waiting for the reply to an AppendEntries request
  | appendEntries (k : Nat) (server : Fin n)
      (args : AppendEntriesArgs C) (newNextIndex : Int)
  -- the reply has arrived and the token was not set
  | appendReplied (k : Nat) (server : Fin n)
      (args : AppendEntriesArgs C) (newNextIndex : Int)
      (reply : AppendEntriesReply)
  -- waiting for the reply to an InstallSnapshot request
  | installSnapshot (k : Nat) (server : Fin n)
      (args : InstallSnapshotArgs)
  -- the reply has arrived and the token was not set
  | installReplied (k : Nat) (server : Fin n)
      (args : InstallSnapshotArgs)
      (reply : InstallSnapshotReply)
deriving DecidableEq

/- What a step of a server shows to the outside. -/
inductive Effect (C : Type) (n : Nat)
  -- the server gave its vote in `term`
  | vote (term : Int) (candiate : Int)
  -- the server became the leader of `term`
  | elected (term : Int)
  | requestVote (server : Fin n) (args : RequestVoteArgs)
  | appendEntries (server : Fin n)
      (args : AppendEntriesArgs C)
  | installSnapshot (server : Fin n)
      (args : InstallSnapshotArgs)
  | voteReply (args : RequestVoteArgs)
      (reply : RequestVoteReply)
  | appendReply (args : AppendEntriesArgs C)
      (reply : AppendEntriesReply)
  | snapshotReply (args : InstallSnapshotArgs)
      (reply : InstallSnapshotReply)
  -- the message was put on `applyCh`
  | applyCh (msg : ApplyMsg C)
deriving DecidableEq

/- What can happen to a server next. -/
inductive Event (C : Type) (n : Nat)
  | requestVote (args : RequestVoteArgs)
  | appendEntries (args : AppendEntriesArgs C)
  | installSnapshot (args : InstallSnapshotArgs)
  | start (command : Option C)
  | takeSnapshot (index : Int) (snapshot : Bytes)
  | tickerTimeout
  | tickerCancel
  -- goroutine `i` takes a step that needs no reply
  | run (i : Nat)
  -- goroutine `i` receives the reply it waits for
  | voteReply (i : Nat) (reply : RequestVoteReply)
  | appendReply (i : Nat) (reply : AppendEntriesReply)
  | snapshotReply (i : Nat) (reply : InstallSnapshotReply)
  | applyEntries
  | dequeue
  | applyCh
  -- a crash, followed by `Make` on the persisted state
  | restart
deriving DecidableEq

/-
  A server and its goroutines. `ticker` is the token the
  ticker's inner loop watches, and `inHand` the message that
  has been dequeued and not yet put on `applyCh`.
-/
structure Node (C : Type) (n : Nat) where
  rf : Raft C n
  cancelToken : Nat → Bool
  ballotCount : Nat → Int
  votedForTerm : Nat → Int
  nextToken : Nat
  ticker : Option Nat
  threads : List (Thread C n)
  inHand : Option (ApplyMsg C)

namespace Node

variable {C : Type} {n : Nat}

------------------------------------------------------------
-- Starting
------------------------------------------------------------

/- A server started by `Make` with the given state. -/
def boot (rf : Raft C n) : Node C n where
  rf := rf
  cancelToken := fun _ => false
  ballotCount := fun _ => 0
  votedForTerm := fun _ => 0
  nextToken := 1
  ticker := none
  threads :=
    if rf.state = .leader then
      [.serveAsLeader rf.currentTerm 0, .commitCheck 0]
    else
      []
  inHand := none

/- `Make`, with the goroutines it starts. -/
def make
    (me : Fin n)
    (persister : Persister C) : Option (Node C n) :=
  (Raft.make me persister).map boot

/- A server that starts on an empty persister. -/
def initial (me : Fin n) : Node C n :=
  boot
    { Raft.fresh me Persister.makePersister with
      nextIndex := fun _ => 1 }

theorem make_makePersister (me : Fin n) :
    make (C := C) me Persister.makePersister =
      some (initial me) := rfl

------------------------------------------------------------
-- Goroutine Steps
------------------------------------------------------------

/- All peers but the server itself. -/
def otherPeers (nd : Node C n) : List (Fin n) :=
  (List.finRange n).filter (fun i => decide (i ≠ nd.rf.me))

/- Set a cancel token. -/
def cancel
    (nd : Node C n)
    (k : Nat) : Node C n :=
  { nd with
    cancelToken := Function.update nd.cancelToken k true }

/- The first critical section of `election`. -/
def runElection
    (nd : Node C n)
    (rest : List (Thread C n))
    (k : Nat) :
    Option (Node C n × List (Effect C n)) := do
  let (rf, args) ← nd.rf.electionStart
  return (
    { nd with
      rf := rf
      ballotCount := Function.update nd.ballotCount k 1
      votedForTerm :=
        Function.update nd.votedForTerm k args.term
      threads :=
        .electionLoop k ::
          (nd.otherPeers.map
            (fun i => .requestVote k i args) ++ rest) },
    .vote args.term (rf.me.val : Int) ::
      nd.otherPeers.map (fun i => .requestVote i args))

/- The last critical section of `election`. -/
def runElectionChecked
    (nd : Node C n)
    (rest : List (Thread C n))
    (k : Nat)
    (ballot : Int) :
    Option (Node C n × List (Effect C n)) := do
  let (rf, won) ← nd.rf.electionWin ballot
  if won then
    return (
      { nd with rf := rf, threads := .electionWon :: rest },
      [.elected rf.currentTerm])
  else
    return (
      { nd with
        rf := rf
        threads := .electionLoop k :: rest }, [])

/- The critical section of `syncEntries`. -/
def runSyncEntries
    (nd : Node C n)
    (rest : List (Thread C n))
    (k : Nat) :
    Option (Node C n × List (Effect C n)) := do
  if nd.cancelToken k then
    return ({ nd with threads := rest }, [])
  else
    let requests ← nd.rf.syncEntries (List.finRange n)
    return (
      { nd with
        threads :=
          requests.map (fun r =>
            .appendEntries k r.1 r.2.1 r.2.2) ++ rest },
      requests.map (fun r => .appendEntries r.1 r.2.1))

/- The critical section after an AppendEntries reply. -/
def runAppendReplied
    (nd : Node C n)
    (rest : List (Thread C n))
    (k : Nat)
    (server : Fin n)
    (args : AppendEntriesArgs C)
    (newNextIndex : Int)
    (reply : AppendEntriesReply) :
    Option (Node C n × List (Effect C n)) := do
  if reply.success then
    return (
      { nd with
        rf := nd.rf.handleSuccess server newNextIndex
        threads := rest }, [])
  else
    match ← nd.rf.handleFailedReply server args reply with
    | .cancel =>
        return ({ nd.cancel k with threads := rest }, [])
    | .nextIndex rf =>
        return ({ nd with rf := rf, threads := rest }, [])
    | .snapshot snapshotArgs =>
        return (
          { nd with
            threads :=
              .installSnapshot k server snapshotArgs ::
                rest },
          [.installSnapshot server snapshotArgs])

/-
  A step of a goroutine that needs no reply, where `rest`
  are the other goroutines.
-/
def runThread
    (nd : Node C n)
    (rest : List (Thread C n)) :
    Thread C n → Option (Node C n × List (Effect C n))
| .election k => nd.runElection rest k
| .electionLoop k =>
    some ({ nd with
      threads :=
        .electionBallot k (nd.ballotCount k) :: rest }, [])
| .electionBallot k ballot =>
    if nd.cancelToken k then
      some ({ nd with threads := rest }, [])
    else
      some ({ nd with
        threads := .electionChecked k ballot :: rest }, [])
| .electionChecked k ballot =>
    nd.runElectionChecked rest k ballot
-- `rf.currentTerm` is read after the lock is released
| .electionWon =>
    some ({ nd with
      nextToken := nd.nextToken + 1
      threads :=
        .serveAsLeader nd.rf.currentTerm nd.nextToken ::
          .commitCheck nd.nextToken :: rest }, [])
| .voteCancel k =>
    some ({ nd.cancel k with threads := rest }, [])
| .voteGranted k _ =>
    some ({ nd with
      ballotCount := Function.update nd.ballotCount k
        (nd.ballotCount k + 1)
      threads := rest }, [])
| .serveAsLeader term k =>
    if nd.cancelToken k ∨ nd.rf.state ≠ .leader ∨
        nd.rf.currentTerm ≠ term then
      some ({ nd.cancel k with threads := rest }, [])
    else
      some ({ nd with
        threads :=
          .syncEntries k ::
            .serveAsLeader term k :: rest }, [])
| .commitCheck k =>
    if nd.cancelToken k then
      some ({ nd with threads := rest }, [])
    else
      some ({ nd with threads := .commitWait k :: rest }, [])
| .commitWait k => do
    let rf ← nd.rf.commitCheck
    return ({ nd with
      rf := rf
      threads := .commitCheck k :: rest }, [])
| .syncEntries k => nd.runSyncEntries rest k
| .appendReplied k server args newNextIndex reply =>
    nd.runAppendReplied rest k server args newNextIndex
      reply
| .installReplied k server args reply =>
    match nd.rf.handleSnapshotReply server args reply with
    | none => some ({ nd.cancel k with threads := rest }, [])
    | some rf =>
        some ({ nd with rf := rf, threads := rest }, [])
| .requestVote _ _ _ => none
| .appendEntries _ _ _ _ => none
| .installSnapshot _ _ _ => none

/-
  A goroutine receives the reply to its vote request and
  loads the cancel token.
-/
def receiveVote
    (nd : Node C n)
    (rest : List (Thread C n))
    (reply : RequestVoteReply) :
    Thread C n → Option (Node C n)
| .requestVote k server _ =>
    if nd.cancelToken k then
      some { nd with threads := rest }
    else if reply.voteGranted = false ∧
        reply.term > nd.votedForTerm k then
      some { nd with threads := .voteCancel k :: rest }
    else if reply.voteGranted then
      some { nd with
        threads := .voteGranted k server :: rest }
    else
      some { nd with threads := rest }
| _ => none

/- The same for an AppendEntries request. -/
def receiveAppend
    (nd : Node C n)
    (rest : List (Thread C n))
    (reply : AppendEntriesReply) :
    Thread C n → Option (Node C n)
| .appendEntries k server args newNextIndex =>
    if nd.cancelToken k then
      some { nd with threads := rest }
    else
      some { nd with
        threads :=
          .appendReplied k server args newNextIndex reply ::
            rest }
| _ => none

/- The same for an InstallSnapshot request. -/
def receiveSnapshot
    (nd : Node C n)
    (rest : List (Thread C n))
    (reply : InstallSnapshotReply) :
    Thread C n → Option (Node C n)
| .installSnapshot k server args =>
    if nd.cancelToken k then
      some { nd with threads := rest }
    else
      some { nd with
        threads :=
          .installReplied k server args reply :: rest }
| _ => none

------------------------------------------------------------
-- Steps
------------------------------------------------------------

/- The handler of a vote request, with its effects. -/
def handleRequestVote
    (nd : Node C n)
    (args : RequestVoteArgs) :
    Option (Node C n × List (Effect C n)) := do
  let (rf, reply) ← nd.rf.requestVote args
  return ({ nd with rf := rf },
    if reply.voteGranted then
      [.vote args.term args.candiateId,
        .voteReply args reply]
    else
      [.voteReply args reply])

/- Steps without effects. -/
def silent
    (nd : Option (Node C n)) :
    Option (Node C n × List (Effect C n)) :=
  nd.map (fun nd => (nd, []))

/- One step of a server. -/
def step
    (nd : Node C n) :
    Event C n → Option (Node C n × List (Effect C n))
| .requestVote args => nd.handleRequestVote args
| .appendEntries args => do
    let (rf, reply) ← nd.rf.appendEntries args
    return ({ nd with rf := rf }, [.appendReply args reply])
| .installSnapshot args => do
    let (rf, reply) ← nd.rf.installSnapshot args
    return ({ nd with rf := rf },
      [.snapshotReply args reply])
| .start command => do
    let (rf, _) ← nd.rf.start command
    return ({ nd with rf := rf }, [])
| .takeSnapshot index snapshot => do
    let rf ← nd.rf.takeSnapshot index snapshot
    return ({ nd with rf := rf }, [])
-- `time.Since(rf.lastHeartBeat)` may exceed any timeout
| .tickerTimeout =>
    if nd.ticker = none ∧ nd.rf.state ≠ .leader then
      some ({ nd with
        rf := nd.rf.tickerTimeout
        nextToken := nd.nextToken + 1
        ticker := some nd.nextToken
        threads := .election nd.nextToken :: nd.threads },
        [])
    else
      none
| .tickerCancel =>
    nd.ticker.map
      (fun k => ({ nd.cancel k with ticker := none }, []))
| .run i => do
    let thread ← nd.threads[i]?
    nd.runThread (nd.threads.eraseIdx i) thread
| .voteReply i reply => do
    let thread ← nd.threads[i]?
    silent (nd.receiveVote (nd.threads.eraseIdx i) reply
      thread)
| .appendReply i reply => do
    let thread ← nd.threads[i]?
    silent (nd.receiveAppend (nd.threads.eraseIdx i) reply
      thread)
| .snapshotReply i reply => do
    let thread ← nd.threads[i]?
    silent (nd.receiveSnapshot (nd.threads.eraseIdx i) reply
      thread)
| .applyEntries => do
    let rf ← nd.rf.applyEntries
    return ({ nd with rf := rf }, [])
| .dequeue =>
    match nd.inHand, nd.rf.applyQueue with
    | none, msg :: queue =>
        some ({ nd with
          rf := { nd.rf with applyQueue := queue }
          inHand := some msg }, [])
    | _, _ => none
| .applyCh =>
    nd.inHand.map
      (fun msg =>
        ({ nd with inHand := none }, [.applyCh msg]))
| .restart =>
    silent (make nd.rf.me nd.rf.persister)

end Node

end RaftLab
