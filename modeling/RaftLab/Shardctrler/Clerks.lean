import RaftLab.Lib.Transition
import RaftLab.Service.Replies
import RaftLab.Shardctrler.Server

/-
  Clerks of the shard controller and the servers they call
  (src/shardctrler/client.go, and handleNomalRPC and
  waittingForCommit in src/shardctrler/server.go).

  The lock of a clerk covers only the allocation of a request
  number, so a clerk may have any number of calls open. A
  request may reach any server, late and more than once. Raft
  is a log that grows by started entries at the index that
  Start returned; each server is sent its commands in order,
  and snapshots of any prefix. The index and the number from
  nrand are inputs, and nrand does not repeat a number. A
  handler that finds its server killed leaves its loop with
  the reply as it was made, whose empty Err is ERR_OK; once
  the server is deleted from the network to be started again,
  the replies of its handlers are dropped.

  Main declarations:
    * `Shardctrler.ShardCtrler.handleNomalRPC`
    * `Shardctrler.ShardCtrler.waittingForCommit`
    * `Shardctrler.World`, `Shardctrler.World.step`
    * `Shardctrler.World.system`
    * `Shardctrler.Event.regular`
-/

------------------------------------------------------------
-- Requests And Replies
------------------------------------------------------------

namespace RaftLab

namespace Shardctrler

inductive Err where
  | ok
  | failedToCommit
  | commitTimeout
deriving DecidableEq, Repr

/- The arguments of an RPC, with getId and getReqNum. -/
structure Request where
  id : Int
  reqNum : Int
  args : Args
deriving DecidableEq

/- The configuration is set for a Query only. -/
structure Reply where
  wrongLeader : Bool
  err : Err
  config : Option Config

def Reply.ofErr (err : Err) : Reply where
  wrongLeader := false
  err := err
  config := none

/- The test in the loops of the clerk. -/
def Reply.returns (reply : Reply) : Bool :=
  !reply.wrongLeader && decide (reply.err = .ok)

/- The entry that handleNomalRPC builds. -/
def Request.op (request : Request) (number : Int) : Op where
  number := number
  reqNum := request.reqNum
  ckId := request.id
  args := request.args

/- Answered at once, or ready to be started. -/
inductive Outcome where
  | answered (reply : Reply)
  | start (op : Op)

namespace ShardCtrler

/- A Query below -1 panics. -/
def successCommit
    (sc : ShardCtrler) :
    Args → Option Reply
| .query num =>
    (query sc.configs num).map fun config =>
      { Reply.ofErr .ok with config := some config }
| _ => some (Reply.ofErr .ok)

/- handleNomalRPC up to Start -/
def handleNomalRPC
    (sc : ShardCtrler)
    (number : Int)
    (request : Request) : Option Outcome :=
  if sc.ckSessions.completed Op.reqNum Op.number
      sc.logRecord request.id request.reqNum then
    (sc.successCommit request.args).map .answered
  else
    some (.start (request.op number))

/- One round of waittingForCommit, which may be the last. -/
def waittingForCommit
    (sc : ShardCtrler)
    (op : Op)
    (index : Int)
    (args : Args) : Option (Option Reply) :=
  match pollRecord Op.number sc.logRecord sc.lastApplied
      index op with
  | .finished => (sc.successCommit args).map some
  | .failed => some (some (Reply.ofErr .failedToCommit))
  | .again => some none

end ShardCtrler

------------------------------------------------------------
-- Clerks, Servers And The Log
------------------------------------------------------------

structure Clerk where
  id : Int
  reqNum : Int

/- MakeClerk, with the id that nrand() returned. -/
def Clerk.make (id : Int) : Clerk where
  id := id
  reqNum := 1

/- A handler that polls for the entry it has started. -/
structure Waiting where
  request : Request
  op : Op
  index : Int

structure Controller where
  sc : ShardCtrler
  waiting : List Waiting
  dead : Bool

def Controller.start : Controller where
  sc := ShardCtrler.start
  waiting := []
  dead := false

/-
  `calls` are the requests of all calls so far, `returned`
  those whose call has returned. `started` are the entries
  given to Start, with the index it returned.
-/
structure World (n m : Nat) where
  clerks : Fin n → Clerk
  calls : List Request
  returned : List Request
  started : List (Int × Op)
  log : List Op
  servers : Fin m → Controller

inductive Event (n m : Nat) where
  -- a goroutine calls Join, Leave, Move or Query
  | call (c : Fin n) (args : Args)
  -- a request reaches a server; `index` is what Start returns
  | request
      (s : Fin m)
      (i : Nat)
      (number : Int)
      (index : Option Int)
      (arrives : Bool)
  -- a started entry is committed
  | commit (i : Nat)
  | command (s : Fin m) (full : Bool)
  | snapshot (s : Fin m) (k : Nat)
  | poll (s : Fin m) (i : Nat) (arrives : Bool)
  | timeout (s : Fin m) (i : Nat)
  | kill (s : Fin m)
  -- a handler finds its server killed
  | exit (s : Fin m) (i : Nat) (arrives : Bool)
  -- started again; the handlers are gone
  | restart (s : Fin m)

/- What the state after the first `k` commands encodes to. -/
def snapshotAt (log : List Op) (k : Nat) : Option Snapshot :=
  (ShardCtrler.deliver (fun _ => false) (log.take k)).map
    fun sc => {
      configs := sc.configs
      ckSessions := sc.ckSessions }

namespace World

variable {n m : Nat}

def initial (ids : Fin n → Int) : World n m where
  clerks c := Clerk.make (ids c)
  calls := []
  returned := []
  started := []
  log := []
  servers _ := Controller.start

/- The lines under the lock of the clerk. -/
def call
    (w : World n m)
    (c : Fin n)
    (args : Args) : World n m :=
  let ck := w.clerks c
  { w with
    clerks := Function.update w.clerks c
      { ck with reqNum := ck.reqNum + 1 }
    calls := w.calls ++ [{
      id := ck.id
      reqNum := ck.reqNum
      args := args }] }

/- A call returns if a reply arrives that ends its loop. -/
def reply
    (w : World n m)
    (request : Request)
    (reply : Reply)
    (arrives : Bool) : World n m :=
  if arrives && reply.returns then
    { w with returned := w.returned ++ [request] }
  else
    w

def setServer
    (w : World n m)
    (s : Fin m)
    (ctl : Controller) : World n m :=
  { w with servers := Function.update w.servers s ctl }

/- Start accepts an entry, and its handler polls. -/
def start
    (w : World n m)
    (s : Fin m)
    (request : Request)
    (op : Op)
    (index : Int) : World n m :=
  let ctl := w.servers s
  { w with
    started := w.started ++ [(index, op)]
    servers := Function.update w.servers s
      { ctl with
        waiting := ctl.waiting ++ [{
          request := request
          op := op
          index := index }] } }

/- The handler at place `i` of a server is gone. -/
def leave
    (w : World n m)
    (s : Fin m)
    (i : Nat) : World n m :=
  let ctl := w.servers s
  w.setServer s
    { ctl with waiting := ctl.waiting.eraseIdx i }

/- applyCh delivers a message. -/
def deliver
    (w : World n m)
    (s : Fin m)
    (full : Bool)
    (msg : Delivery) : Option (World n m) :=
  let ctl := w.servers s
  (ctl.sc.handleApplyMsg full msg).map fun result =>
    w.setServer s { ctl with sc := result.1 }

def fresh (w : World n m) (number : Int) : Bool :=
  w.started.all fun entry => entry.2.number ≠ number

def step : Event n m → World n m → Option (World n m)
| .call c args, w => some (w.call c args)
| .request s i number index arrives, w =>
    w.calls[i]?.bind fun request =>
      ((w.servers s).sc.handleNomalRPC number request).bind
        fun
        | .answered reply =>
            some (w.reply request reply arrives)
        | .start op =>
            match index with
            | none => some (w.reply request
                { Reply.ofErr .ok with wrongLeader := true }
                arrives)
            | some index =>
                if w.fresh number then
                  some (w.start s request op index)
                else
                  none
| .commit i, w =>
    w.started[i]?.bind fun entry =>
      if entry.1 = w.log.length + 1 then
        some { w with log := w.log ++ [entry.2] }
      else
        none
| .command s full, w =>
    let lastApplied := (w.servers s).sc.lastApplied
    w.log[lastApplied.toNat]?.bind fun op =>
      w.deliver s full (.command (lastApplied + 1) op)
| .snapshot s k, w =>
    if k ≤ w.log.length then
      (snapshotAt w.log k).bind fun snapshot =>
        w.deliver s false (.snapshot k snapshot)
    else
      none
| .poll s i arrives, w =>
    (w.servers s).waiting[i]?.bind fun h =>
      ((w.servers s).sc.waittingForCommit h.op h.index
        h.request.args).map fun
        | some reply =>
            (w.leave s i).reply h.request reply arrives
        | none => w
| .timeout s i, w =>
    (w.servers s).waiting[i]?.map fun h =>
      (w.leave s i).reply h.request
        (Reply.ofErr .commitTimeout) true
| .kill s, w =>
    some (w.setServer s { w.servers s with dead := true })
| .exit s i arrives, w =>
    if (w.servers s).dead then
      -- Nobody has set the Err of this reply.
      (w.servers s).waiting[i]?.map fun h =>
        (w.leave s i).reply h.request (Reply.ofErr .ok)
          arrives
    else
      none
| .restart s, w => some (w.setServer s Controller.start)

/- Clerks with distinct ids, and servers that have started. -/
def system (n m : Nat) : System (World n m) (Event n m) where
  init w := ∃ ids : Fin n → Int,
    Function.Injective ids ∧ w = initial ids
  step := step

end World

------------------------------------------------------------
-- The Order In The Log
------------------------------------------------------------

/- Two entries of one request. -/
def Op.sameRequest (op op' : Op) : Bool :=
  decide (op.ckId = op'.ckId) &&
    decide (op.reqNum = op'.reqNum)

/-
  An update enters the log with a larger number than its
  client's last entry, unless the log has its request.
-/
def inOrder (log : List Op) (op : Op) : Bool :=
  !op.writes ||
    rises Op.ckId Op.reqNum log op ||
    log.any op.sameRequest

/-
  Updates enter the log in order, and no reply to an update
  arrives from a handler that has found its server killed.
-/
def Event.regular
    {n m : Nat}
    (w : World n m) :
    Event n m → Bool
| .commit i =>
    w.started[i]?.all fun entry => inOrder w.log entry.2
| .exit s i arrives =>
    !arrives ||
      (w.servers s).waiting[i]?.all fun h => !h.op.writes
| _ => true

end Shardctrler

end RaftLab
