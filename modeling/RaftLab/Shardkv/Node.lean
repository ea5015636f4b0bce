import RaftLab.Shardkv.MoveShards
import RaftLab.Shardkv.Requests

/-
  One shardkv server with its goroutines
  (src/shardkv/server.go).

  A `Node` is a `ShardKV` together with the RPC handlers that
  run on it and the goroutine pollConfig, which in MoveShards
  has one goroutine for each source. A step of a node is one
  critical section under kv.mu or one reply of an RPC. Where
  pollConfig goes on with the lock in its hands, the model has
  two steps; this only adds interleavings.

  Raft is a log that the group shares: Start hands over an
  entry with an index behind everything that Raft has delivered
  to the server, and an entry is delivered at that index or
  never. The answer of GetState is an input. A snapshot that
  Raft delivers holds the state after some prefix of the log,
  possibly one before entries already delivered.

  Main declarations:
    * `Shardkv.Poll`, `Shardkv.Pull`, `Shardkv.Delete`
    * `Shardkv.Node`, `Shardkv.Node.start`
    * `Shardkv.World`, `Shardkv.Event`, `Shardkv.Effect`
    * `Shardkv.Node.step`
-/

------------------------------------------------------------
-- Goroutines
------------------------------------------------------------

namespace RaftLab

namespace Shardkv

open Shardctrler (Shard Config NShards)

inductive PullState where
  -- asking the servers of the source
  | pulling
  -- waiting for sendApplyMovementLock
  | replied
      (mp : String → Option String)
      (sessions : Sessions)
  -- in ApplyMovement, with the lock
  | moving (call : Call)
  | done

/- The goroutine of MoveShards that pulls from one source. -/
structure Pull where
  src : Int
  shards : Shard → Bool
  state : PullState

inductive DeleteState where
  | sending
  | sent (request : Request)
  | done

/- The goroutine of MoveShards that sends DeleteShards. -/
structure Delete where
  src : Int
  shards : Shard → Bool
  state : DeleteState

/-
  Where pollConfig is. `latest` is the configuration that its
  outer loop has queried, `next` the one it changes to.
-/
inductive Poll where
  | idle
  -- at the test of the inner loop
  | changing (latest : Config)
  -- phase 1, in UpdateShardVec
  | updating (latest next : Config) (call : Call)
  -- phase 1 has left its loop
  | updated (latest next : Config) (updateOK : Bool)
  -- phase 2, waiting for the pulls
  | moving
      (latest oldConfig next : Config)
      (pulls : List Pull)
      (applyMovementFail : Bool)
  -- phase 2, waiting for the deletions
  | deleting
      (latest oldConfig next : Config)
      (deletes : List Delete)
  -- MoveShards has returned true
  | moved (latest next : Config)
  -- phase 3, in ChangeConfig
  | committing (latest next : Config) (call : Call)

/- The gids that MoveShards enters in receiveFrom. -/
def sources
    (gid : Int)
    (oldConfig newConfig : Config) : List Int :=
  (((List.finRange NShards).filter
    (gains gid oldConfig newConfig)).map
      oldConfig.shards).dedup

/- One goroutine for each source -/
def newPulls
    (gid : Int)
    (oldConfig newConfig : Config) : List Pull :=
  (sources gid oldConfig newConfig).map fun src => {
    src := src
    shards :=
      (receiveFrom gid oldConfig newConfig src).getD
        fun _ => false
    state := .pulling }

def newDeletes (pulls : List Pull) : List Delete :=
  pulls.map fun pull => {
    src := pull.src
    shards := pull.shards
    state := .sending }

/- newShardVec in phase 1 of pollConfig -/
def newShardVec
    (gid : Int)
    (config next : Config)
    (i : Shard) : Bool :=
  (decide (config.shards i = gid) ||
      decide (config.shards i = 0)) &&
    decide (next.shards i = gid)

def PullState.isPulling : PullState → Bool
| .pulling => true
| _ => false

def PullState.isMoving : PullState → Bool
| .moving _ => true
| _ => false

def PullState.isDone : PullState → Bool
| .done => true
| _ => false

def DeleteState.isDone : DeleteState → Bool
| .done => true
| _ => false

------------------------------------------------------------
-- Nodes
------------------------------------------------------------

/-
  A server and its goroutines. `delivered` is the highest
  index that Raft has delivered to it.
-/
structure Node where
  kv : ShardKV
  uid : Int
  localReqNum : Int
  dead : Bool
  delivered : Nat
  handlers : List Call
  poll : Poll

/- StartServer -/
def Node.start (gid uid : Int) : Node where
  kv := ShardKV.start gid
  uid := uid
  localReqNum := 1
  dead := false
  delivered := 0
  handlers := []
  poll := .idle

/- A reply that RequestMapAndSession gave on some server. -/
structure PullRecord where
  gid : Int
  args : RequestMapAndSessionArgs
  reply : RequestMapAndSessionReply

/- A reply that handleNormalRPC gave on some server. -/
structure Answer where
  gid : Int
  request : Request
  reply : Reply

/-
  What a server reads of the world: its gid, the history of
  the controller, the log of its group and the entries handed
  to Raft, and the replies sent so far.
-/
structure World where
  gid : Int
  configs : List Config
  log : List Op
  started : List (Nat × Op)
  pulls : List PullRecord
  answers : List Answer

/- nrand gives numbers that no entry has. -/
def World.fresh (w : World) (number : Int) : Bool :=
  decide (0 ≤ number) &&
    w.started.all fun entry =>
      decide (entry.2.number ≠ number)

/- What a step shows to the outside. -/
inductive Effect where
  | start (index : Nat) (op : Op)
  | answer (request : Request) (reply : Reply)
  | pulled
      (args : RequestMapAndSessionArgs)
      (reply : RequestMapAndSessionReply)
  | delete (target : Int) (request : Request)
  -- the entry is delivered for the first time
  | commit (op : Op)

inductive Event where
  -- an RPC handler takes a step
  | handler (k : Nat) (step : CallStep)
  | requestMapAndSession
      (isLeader : Bool)
      (args : RequestMapAndSessionArgs)
  -- pollConfig
  | query (isLeader : Bool)
  | next (isLeader : Bool)
  | pollCall (step : CallStep)
  | lock
  | wait (isLeader : Bool)
  -- pull goroutine `k`; `r` is the reply it receives
  | pullReply (k r : Nat)
  | pullLock (k : Nat)
  | pullCall (k : Nat) (step : CallStep)
  | pullStop (k : Nat)
  -- delete goroutine `k`; `r` is the reply it receives
  | deleteSend (k : Nat)
  | deleteReply (k r : Nat)
  | deleteStop (k : Nat)
  -- handleApplyMsg, with an entry already delivered elsewhere,
  -- with a new one, or with a snapshot
  | apply
  | commit (k : Nat)
  | install (snapshotIndex : Nat)
  | kill

namespace Node

------------------------------------------------------------
-- Calls Of A Node
------------------------------------------------------------

/-
  Let a call take a step. It goes on (with the entry that it
  starts, if any) or returns.
-/
def runCall
    (w : World)
    (nd : Node)
    (call : Call)
    (step : CallStep) :
    Option ((Call × List Effect) ⊕ Option Reply) :=
  match call.step nd.kv nd.dead step with
  | some (.started op index) =>
      if nd.delivered < index.toNat ∧ w.fresh op.number then
        some (.inl ({ call with phase := .waiting op index },
          [.start index.toNat op]))
      else
        none
  | some (.returned reply) => some (.inr reply)
  | none => none

/- An RPC arrives. -/
def receive (nd : Node) (request : Request) : Node :=
  { nd with handlers := nd.handlers ++ [Call.new request] }

def stepHandler
    (w : World)
    (nd : Node)
    (k : Nat)
    (step : CallStep) : Option (Node × List Effect) :=
  nd.handlers[k]?.bind fun call =>
    (nd.runCall w call step).map fun
      | .inl (call', effects) =>
          ({ nd with handlers := nd.handlers.set k call' },
            effects)
      | .inr reply =>
          ({ nd with handlers := nd.handlers.eraseIdx k },
            match reply with
            | some reply => [.answer call.request reply]
            | none => [])

------------------------------------------------------------
-- pollConfig
------------------------------------------------------------

/- The outer loop: a leader queries the latest configuration. -/
def stepQuery
    (w : World)
    (nd : Node)
    (isLeader : Bool) : Option (Node × List Effect) :=
  match nd.poll with
  | .idle =>
      if nd.dead || !isLeader then
        none
      else
        (Shardctrler.query w.configs (-1)).map fun latest =>
          ({ nd with poll := .changing latest }, [])
  | _ => none

/- A request of the server itself, with a new number. -/
def ownRequest (nd : Node) (args : Args) : Request where
  id := nd.uid
  reqNum := nd.localReqNum
  args := args

/- The test of the inner loop, and phase 1 up to its RPC. -/
def stepNext
    (w : World)
    (nd : Node)
    (isLeader : Bool) : Option (Node × List Effect) :=
  match nd.poll with
  | .changing latest =>
      if nd.kv.config.num < latest.num then
        if !isLeader || nd.dead then
          some ({ nd with poll := .idle }, [])
        else
          (Shardctrler.query w.configs
            (nd.kv.config.num + 1)).map fun next =>
              let request := nd.ownRequest
                (.updateShardVec next.num
                  (newShardVec w.gid nd.kv.config next))
              ({ nd with
                localReqNum := nd.localReqNum + 1
                poll := .updating latest next
                  (Call.new request) }, [])
      else
        some ({ nd with poll := .idle }, [])
  | _ => none

/- The RPC loops of phases 1 and 3. -/
def stepPollCall
    (w : World)
    (nd : Node)
    (step : CallStep) : Option (Node × List Effect) :=
  match nd.poll with
  | .updating latest next call =>
      (nd.runCall w call step).map fun
        | .inl (call', effects) =>
            ({ nd with
              poll := .updating latest next call' }, effects)
        | .inr reply =>
            ({ nd with
              poll :=
                match retryResult reply with
                | some updateOK =>
                    .updated latest next updateOK
                | none =>
                    .updating latest next
                      (Call.new call.request) }, [])
  | .committing latest next call =>
      (nd.runCall w call step).map fun
        | .inl (call', effects) =>
            ({ nd with
              poll := .committing latest next call' },
              effects)
        | .inr reply =>
            ({ nd with
              poll :=
                match retryResult reply with
                | some _ => .changing latest
                | none =>
                    .committing latest next
                      (Call.new call.request) }, [])
  | _ => none

/-
  After phase 1: MoveShards up to its goroutines. After phase
  2: phase 3 up to its RPC.
-/
def stepLock (w : World) (nd : Node) :
    Option (Node × List Effect) :=
  match nd.poll with
  | .updated latest next updateOK =>
      if !updateOK || decide (nd.kv.config.num ≥ next.num) ||
          nd.dead then
        some ({ nd with poll := .changing latest }, [])
      else if nd.kv.config.num = 0 ∨
          nd.kv.config.num = next.num then
        some ({ nd with poll := .moved latest next }, [])
      else
        some ({ nd with
          poll := .moving latest nd.kv.config next
            (newPulls w.gid nd.kv.config next) false }, [])
  | .moved latest next =>
      let request := nd.ownRequest (.changeConfig next)
      some ({ nd with
        localReqNum := nd.localReqNum + 1
        poll := .committing latest next
          (Call.new request) }, [])
  | _ => none

/- wg.Wait(), for the pulls and for the deletions -/
def stepWait (nd : Node) (isLeader : Bool) :
    Option (Node × List Effect) :=
  match nd.poll with
  | .moving latest oldConfig next pulls fail =>
      if pulls.all fun pull => pull.state.isDone then
        if !isLeader || nd.dead || fail then
          some ({ nd with poll := .changing latest }, [])
        else
          some ({ nd with
            poll := .deleting latest oldConfig next
              (newDeletes pulls) }, [])
      else
        none
  | .deleting latest _ next deletes =>
      if deletes.all fun delete => delete.state.isDone then
        some ({ nd with poll := .moved latest next }, [])
      else
        none
  | _ => none

------------------------------------------------------------
-- The Goroutines Of MoveShards
------------------------------------------------------------

/- RequestMapAndSession is answered with OK. -/
def stepPullReply
    (w : World)
    (nd : Node)
    (k r : Nat) : Option (Node × List Effect) :=
  match nd.poll with
  | .moving latest oldConfig next pulls fail =>
      match pulls[k]?, w.pulls[r]? with
      | some pull, some record =>
          if pull.state.isPulling = true ∧
              pull.src ∈ oldConfig.groups.keys ∧
              record.gid = pull.src ∧
              record.args.shards = pull.shards ∧
              record.args.configNum = next.num ∧
              record.reply.err = .ok then
            some ({ nd with
              poll := .moving latest oldConfig next
                (pulls.set k { pull with
                  state := .replied record.reply.mp
                    record.reply.sessions }) fail }, [])
          else
            none
      | _, _ => none
  | _ => none

/- The movement is built, by one goroutine at a time. -/
def stepPullLock
    (nd : Node)
    (k : Nat) : Option (Node × List Effect) :=
  match nd.poll with
  | .moving latest oldConfig next pulls fail =>
      match pulls[k]? with
      | some pull =>
          match pull.state with
          | .replied mp sessions =>
              if pulls.any fun pull => pull.state.isMoving then
                none
              else
                let request := nd.ownRequest
                  (.applyMovement mp sessions next
                    pull.shards)
                some ({ nd with
                  localReqNum := nd.localReqNum + 1
                  poll := .moving latest oldConfig next
                    (pulls.set k { pull with
                      state := .moving
                        (Call.new request) }) fail }, [])
          | _ => none
      | none => none
  | _ => none

/- The loop of ApplyMovement. -/
def stepPullCall
    (w : World)
    (nd : Node)
    (k : Nat)
    (step : CallStep) : Option (Node × List Effect) :=
  match nd.poll with
  | .moving latest oldConfig next pulls fail =>
      match pulls[k]? with
      | some pull =>
          match pull.state with
          | .moving call =>
              (nd.runCall w call step).map fun
                | .inl (call', effects) =>
                    ({ nd with
                      poll := .moving latest oldConfig next
                        (pulls.set k { pull with
                          state := .moving call' })
                        fail }, effects)
                | .inr reply =>
                    match retryResult reply with
                    | some moveOK =>
                        ({ nd with
                          poll := .moving latest oldConfig
                            next
                            (pulls.set k { pull with
                              state := .done })
                            (fail || !moveOK) }, [])
                    | none =>
                        ({ nd with
                          poll := .moving latest oldConfig
                            next
                            (pulls.set k { pull with
                              state := .moving
                                (Call.new call.request) })
                            fail }, [])
          | _ => none
      | none => none
  | _ => none

/- A killed server gives up pulling. -/
def stepPullStop (nd : Node) (k : Nat) :
    Option (Node × List Effect) :=
  match nd.poll with
  | .moving latest oldConfig next pulls fail =>
      match pulls[k]? with
      | some pull =>
          if nd.dead ∧ pull.state.isPulling = true then
            some ({ nd with
              poll := .moving latest oldConfig next
                (pulls.set k { pull with state := .done })
                fail }, [])
          else
            none
      | none => none
  | _ => none

/-
  DeleteShards is sent; when no server has answered OK, again
  with a new number.
-/
def stepDeleteSend (nd : Node) (k : Nat) :
    Option (Node × List Effect) :=
  match nd.poll with
  | .deleting latest oldConfig next deletes =>
      match deletes[k]? with
      | some delete =>
          if !delete.state.isDone ∧
              delete.src ∈ oldConfig.groups.keys then
            let request := nd.ownRequest
              (.deleteShards delete.shards next.num)
            some ({ nd with
              localReqNum := nd.localReqNum + 1
              poll := .deleting latest oldConfig next
                (deletes.set k { delete with
                  state := .sent request }) },
              [.delete delete.src request])
          else
            none
      | none => none
  | _ => none

/- DeleteShards is answered with OK. -/
def stepDeleteReply
    (w : World)
    (nd : Node)
    (k r : Nat) : Option (Node × List Effect) :=
  match nd.poll with
  | .deleting latest oldConfig next deletes =>
      match deletes[k]?, w.answers[r]? with
      | some delete, some answer =>
          match delete.state with
          | .sent request =>
              if answer.gid = delete.src ∧
                  answer.request.id = request.id ∧
                  answer.request.reqNum = request.reqNum ∧
                  answer.reply.err = .ok then
                some ({ nd with
                  poll := .deleting latest oldConfig next
                    (deletes.set k { delete with
                      state := .done }) }, [])
              else
                none
          | _ => none
      | _, _ => none
  | _ => none

/- A killed server gives up deleting. -/
def stepDeleteStop (nd : Node) (k : Nat) :
    Option (Node × List Effect) :=
  match nd.poll with
  | .deleting latest oldConfig next deletes =>
      match deletes[k]? with
      | some delete =>
          if nd.dead then
            some ({ nd with
              poll := .deleting latest oldConfig next
                (deletes.set k { delete with
                  state := .done }) }, [])
          else
            none
      | none => none
  | _ => none

------------------------------------------------------------
-- handleApplyMsg
------------------------------------------------------------

/- Raft delivers the next entry. -/
def deliver (nd : Node) (op : Op) : Node :=
  { nd with
    kv := (nd.kv.handleApplyMsg false
      (.command (nd.kv.lastApplied + 1) op)).1
    delivered :=
      max nd.delivered (nd.kv.lastApplied + 1).toNat }

def stepApply (w : World) (nd : Node) :
    Option (Node × List Effect) :=
  w.log[nd.kv.lastApplied.toNat]?.map fun op =>
    (nd.deliver op, [])

/- An entry handed to Raft is delivered at its own index. -/
def stepCommit (w : World) (nd : Node) (k : Nat) :
    Option (Node × List Effect) :=
  w.started[k]?.bind fun entry =>
    if entry.1 = w.log.length + 1 ∧
        nd.kv.lastApplied = w.log.length then
      some (nd.deliver entry.2, [.commit entry.2])
    else
      none

def stepInstall
    (w : World)
    (nd : Node)
    (snapshotIndex : Nat) : Option (Node × List Effect) :=
  if snapshotIndex ≤ w.log.length then
    some ({ nd with
      kv := (nd.kv.handleApplyMsg false
        (.snapshot snapshotIndex
          (stateAt w.gid w.log snapshotIndex).snapshot)).1
      delivered := max nd.delivered snapshotIndex }, [])
  else
    none

------------------------------------------------------------
-- Steps
------------------------------------------------------------

def step (w : World) (nd : Node) :
    Event → Option (Node × List Effect)
| .handler k step => nd.stepHandler w k step
| .requestMapAndSession isLeader args =>
    some (nd, [.pulled args
      (nd.kv.requestMapAndSession isLeader args)])
| .query isLeader => nd.stepQuery w isLeader
| .next isLeader => nd.stepNext w isLeader
| .pollCall step => nd.stepPollCall w step
| .lock => nd.stepLock w
| .wait isLeader => nd.stepWait isLeader
| .pullReply k r => nd.stepPullReply w k r
| .pullLock k => nd.stepPullLock k
| .pullCall k step => nd.stepPullCall w k step
| .pullStop k => nd.stepPullStop k
| .deleteSend k => nd.stepDeleteSend k
| .deleteReply k r => nd.stepDeleteReply w k r
| .deleteStop k => nd.stepDeleteStop k
| .apply => nd.stepApply w
| .commit k => nd.stepCommit w k
| .install snapshotIndex => nd.stepInstall w snapshotIndex
| .kill => some ({ nd with dead := true }, [])

end Node

end Shardkv

end RaftLab
