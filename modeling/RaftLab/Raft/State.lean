import Mathlib.Algebra.GroupWithZero.Nat
import Mathlib.Data.Fintype.Card
import RaftLab.Lib.GoSlice

/-
  The data model of the Raft package: log entries, the state
  of one server, its persister and the RPC messages.

  Go's `int` is modelled by `Int`, a slice by `List`, and
  `interface{}` commands by `Option C` with `none` for nil.
  A server of a cluster of `n` peers is a `Raft C n`; the
  arrays indexed by peers are functions on `Fin n`. The
  functions of this development that return `Option` return
  `none` exactly where the Go code panics on an index out of
  range or calls `log.Fatalf`.

  Condition variables, timers and debug output are left out:
  which goroutine runs next is chosen by the environment.

  Key definitions include:
    * `LogEntry`, `ApplyMsg`, `Persister`, `Raft`
    * the RPC argument and reply structures
    * `Raft.localIndex`, `Raft.globalIndex`,
      `Raft.globalLogLen`, `Raft.internalIndex`,
      `Raft.externalIndex`
    * `Raft.persist`, `Raft.readPersist`, `Raft.make`
-/

------------------------------------------------------------
-- Logs And Messages
------------------------------------------------------------

namespace RaftLab

inductive RaftState
  | follower
  | candiate
  | leader
deriving DecidableEq, Repr

inductive LogType
  | normal
  | noop
deriving DecidableEq, Repr

structure LogEntry (C : Type) where
  term : Int
  type : LogType
  index : Int
  command : Option C
deriving DecidableEq, Repr

/- Snapshots are opaque bytes. -/
abbrev Bytes : Type := List UInt8

structure ApplyMsg (C : Type) where
  commandValid : Bool
  command : Option C
  commandIndex : Int
  snapshotValid : Bool
  snapshot : Bytes
  snapshotTerm : Int
  snapshotIndex : Int
deriving DecidableEq, Repr

structure RequestVoteArgs where
  term : Int
  candiateId : Int
  lastLogIndex : Int
  lastLogTerm : Int
deriving DecidableEq, Repr

structure RequestVoteReply where
  term : Int
  voteGranted : Bool
deriving DecidableEq, Repr

structure AppendEntriesArgs (C : Type) where
  term : Int
  leaderId : Int
  prevLogIndex : Int
  prevLogTerm : Int
  entries : List (LogEntry C)
  leaderCommit : Int
deriving DecidableEq, Repr

structure AppendEntriesReply where
  term : Int
  success : Bool
  prevLogIndex : Int
  prevLogTerm : Int
  lastApplied : Int
deriving DecidableEq, Repr

structure InstallSnapshotArgs where
  term : Int
  leaderId : Int
  lastIncludedInternal : Int
  lastIncludedIndex : Int
  lastIncludedTerm : Int
  data : Bytes
deriving DecidableEq, Repr

structure InstallSnapshotReply where
  term : Int
deriving DecidableEq, Repr

------------------------------------------------------------
-- The Persister
------------------------------------------------------------

/-
  One value in a labgob stream. labgob is taken to decode
  what it encoded, so a stream is the list of the values
  encoded into it, each tagged with its Go type.
-/
inductive GobValue (C : Type)
  | state (s : RaftState)
  | int (i : Int)
  | log (l : List (LogEntry C))
deriving DecidableEq, Repr

structure Persister (C : Type) where
  raftstate : List (GobValue C)
  snapshot : Bytes
deriving DecidableEq, Repr

/- A persister that nothing was saved to yet. -/
def Persister.makePersister {C : Type} : Persister C where
  raftstate := []
  snapshot := []

------------------------------------------------------------
-- One Server
------------------------------------------------------------

structure Raft (C : Type) (n : Nat) where
  me : Fin n
  persister : Persister C
  state : RaftState
  currentTerm : Int
  log : List (LogEntry C)
  votedFor : Option Int
  snapshot : Bytes
  snapshotIndex : Int
  snapshotTerm : Int
  commitIndex : Int
  lastApplied : Int
  nextIndex : Fin n → Int
  matchIndex : Fin n → Int
  applyQueue : List (ApplyMsg C)

namespace Raft

variable {C : Type} {n : Nat}

/- `rf.log[i]`. -/
def logAt (rf : Raft C n) (i : Int) : Option (LogEntry C) :=
  GoSlice.at? rf.log i

/- `rf.log[0].Index`. -/
def baseIndex (rf : Raft C n) : Option Int :=
  (rf.logAt 0).map (fun e => e.index)

/- `rf.log[len(rf.log)-1].Term`. -/
def lastLogTerm (rf : Raft C n) : Option Int :=
  (rf.logAt ((rf.log.length : Int) - 1)).map
    (fun e => e.term)

/- Whether `rf.log[i].Term` is `term`. -/
def hasTermAt
    (rf : Raft C n)
    (i term : Int) : Option Bool :=
  (rf.logAt i).map (fun e => decide (e.term = term))

def localIndex
    (rf : Raft C n)
    (globalIndex : Int) : Option Int :=
  rf.baseIndex.map (fun base => globalIndex - base)

def globalIndex
    (rf : Raft C n)
    (localIndex : Int) : Option Int :=
  rf.baseIndex.map (fun base => localIndex + base)

def globalLogLen (rf : Raft C n) : Option Int :=
  rf.baseIndex.map (fun base => rf.log.length + base)

/-
  The loop of `internalIndex`: `i` is the position of the
  next entry, `index` the last position visited and `cnt`
  the number of commands counted so far.
-/
def internalIndexLoop
    (target : Int) :
    List (LogEntry C) → Nat → Nat → Int → Nat
| [], _, index, _ => index
| e :: es, i, _, cnt =>
    let cnt := if e.type ≠ .noop then cnt + 1 else cnt
    if cnt = target then
      i
    else
      internalIndexLoop target es (i + 1) i cnt

def internalIndex
    (rf : Raft C n)
    (externalIndex : Int) : Option Int :=
  rf.globalIndex
    (internalIndexLoop
      (externalIndex - rf.snapshotIndex) rf.log 0 0 0)

/-
  The loop reads `rf.log[1]` up to `rf.log[target]`, so it
  panics when `target` lies beyond the log.
-/
def externalIndex
    (rf : Raft C n)
    (internalIndex : Int) : Option Int := do
  let target ← rf.localIndex internalIndex
  if target < rf.log.length then
    return (((rf.log.take (target + 1).toNat).drop 1).countP
      (fun e => decide (e.type ≠ .noop)) : Nat) +
        rf.snapshotIndex
  else
    none

------------------------------------------------------------
-- Persistence
------------------------------------------------------------

/- The integer that stands for `votedFor` on disk. -/
def votedForCode : Option Int → Int
| none => -1
| some candiate => candiate

def persist (rf : Raft C n) : Raft C n :=
  { rf with
    persister :=
      { raftstate :=
          [.state rf.state, .int rf.currentTerm,
            .log rf.log, .int rf.snapshotIndex,
            .int rf.snapshotTerm,
            .int (votedForCode rf.votedFor)]
        snapshot := rf.snapshot } }

/-
  The decoder reads the six values in the order `persist`
  writes them and gives up, changing nothing, at the first
  one that does not decode.
-/
def readPersist
    (rf : Raft C n)
    (data : List (GobValue C)) : Option (Raft C n) :=
  match data with
  | [] => some rf
  | .state state :: .int currentTerm :: .log log ::
      .int snapshotIndex :: .int snapshotTerm ::
      .int tmp :: _ => do
      let base ← (GoSlice.at? log 0).map (fun e => e.index)
      return { rf with
        state := state
        currentTerm := currentTerm
        log := log
        votedFor := if tmp = -1 then none else some tmp
        snapshot := rf.persister.snapshot
        snapshotIndex := snapshotIndex
        snapshotTerm := snapshotTerm
        lastApplied := base }
  | _ => some rf

/- The server as `Make` builds it before reading the disk. -/
def fresh
    (me : Fin n)
    (persister : Persister C) : Raft C n where
  me := me
  persister := persister
  state := .follower
  currentTerm := 1
  log :=
    [{ term := 1, type := .noop, index := 0,
       command := none }]
  votedFor := none
  snapshot := []
  snapshotIndex := 0
  snapshotTerm := 0
  commitIndex := 0
  lastApplied := 1
  nextIndex := fun _ => 0
  matchIndex := fun _ => 0
  applyQueue := []

/-
  `Make`, up to the goroutines it starts. It holds the lock
  until the second half, which runs in a goroutine, is done.
-/
def make
    (me : Fin n)
    (persister : Persister C) : Option (Raft C n) := do
  let rf ← (fresh me persister).readPersist
    persister.raftstate
  let base ← rf.baseIndex
  let rf :=
    if rf.snapshot.length ≠ 0 then
      { rf with
        applyQueue :=
          [{ commandValid := false
             command := none
             commandIndex := 0
             snapshotValid := true
             snapshot := rf.snapshot
             snapshotTerm := rf.snapshotTerm
             snapshotIndex := rf.snapshotIndex }]
        lastApplied := base }
    else
      rf
  let next ← rf.globalLogLen
  return { rf with
    nextIndex := fun _ => next
    matchIndex := fun _ => 0 }

end Raft

end RaftLab
