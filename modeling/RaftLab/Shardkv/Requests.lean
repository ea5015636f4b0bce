import RaftLab.Shardkv.Entries

/-
  How a shardkv server handles a request that goes through
  its log (handleNormalRPC, waittingForCommit and successCommit
  in src/shardkv/server.go).

  A call is one critical section that answers at once or starts
  an entry, and then polls until the entry has been applied.
  The answers of GetState and Start are inputs, as is the
  number from nrand. A reply is one record with the fields that
  any of the replies has.

  Main declarations:
    * `Shardkv.Request`, `Shardkv.Reply`, `Shardkv.Request.op`
    * `Shardkv.ShardKV.handleNormalRPC`
    * `Shardkv.ShardKV.waittingForCommit`
    * `Shardkv.Call`, `Shardkv.Call.step`, `Shardkv.CallStep`
-/

------------------------------------------------------------
-- Requests And Replies
------------------------------------------------------------

namespace RaftLab

namespace Shardkv

open Shardctrler (Shard Config)

/- The arguments of an RPC: getId, getReqNum and the rest. -/
structure Request where
  id : Int
  reqNum : Int
  args : Args

/- Value is set for a Get, Num for a ChangeConfig. -/
structure Reply where
  err : Err
  value : String
  num : Int
deriving DecidableEq

def Reply.ofErr (err : Err) : Reply where
  err := err
  value := ""
  num := 0

def ShardKV.successCommit (kv : ShardKV) : Args → Reply
| .get key =>
    { Reply.ofErr .ok with value := (kv.mp key).getD "" }
| .changeConfig _ =>
    { Reply.ofErr .ok with num := kv.config.num }
| _ => Reply.ofErr .ok

/- The entry that handleNormalRPC builds. -/
def Request.op (request : Request) (number : Int) : Op where
  number := number
  reqNum := request.reqNum
  ckId := request.id
  shardNum := key2shard request.args.getKey
  args := request.args

------------------------------------------------------------
-- handleNormalRPC
------------------------------------------------------------

/- Answered at once, or ready to be started. -/
inductive Outcome where
  | answered (reply : Reply)
  | start (op : Op)

/-
  The request has completed before: the session has its
  number, and the record of the log has the session's entry.
-/
def ShardKV.completed
    (kv : ShardKV)
    (request : Request) : Bool :=
  match kv.ckSessions (uniKey request.id
      (key2shard request.args.getKey)) with
  | some session =>
      session.lastOpVaild &&
        decide (session.lastOpReqNum = request.reqNum) &&
        match kv.logRecord session.lastOpIndex with
        | some op => decide (op.number = session.lastOpNumber)
        | none => false
  | none => false

/- handleNormalRPC up to Start -/
def ShardKV.handleNormalRPC
    (kv : ShardKV)
    (isLeader : Bool)
    (number : Int)
    (request : Request) : Outcome :=
  if !isLeader then
    .answered (Reply.ofErr .wrongLeader)
  else if 0 ≤ request.id ∧
      !kv.shardVec (key2shard request.args.getKey) then
    .answered (Reply.ofErr .wrongGroup)
  else if kv.completed request then
    .answered (kv.successCommit request.args)
  else
    .start (request.op number)

/- One poll of waittingForCommit: `none` is another round. -/
def ShardKV.waittingForCommit
    (kv : ShardKV)
    (op : Op)
    (index : Int)
    (args : Args) : Option Reply :=
  if index ≤ kv.lastApplied then
    match kv.logRecord index with
    | some finishedOp =>
        if finishedOp.number = op.number then
          some (kv.successCommit args)
        else
          some (Reply.ofErr .failedToCommit)
    | none => none
  else
    none

------------------------------------------------------------
-- Calls
------------------------------------------------------------

/- Before the critical section, or polling for an entry. -/
inductive Phase where
  | calling
  | waiting (op : Op) (index : Int)

structure Call where
  request : Request
  phase : Phase

def Call.new (request : Request) : Call where
  request := request
  phase := .calling

/- What a call does next. -/
inductive CallStep where
  -- the critical section; `index` is what Start returns
  | enter
      (isLeader : Bool)
      (number : Int)
      (index : Option Int)
  | poll
  | timeout
  -- the server is found killed
  | stop
deriving DecidableEq

inductive CallResult where
  | started (op : Op) (index : Int)
  -- returned, without a reply if the server was killed
  | returned (reply : Option Reply)

def Call.step
    (kv : ShardKV)
    (dead : Bool)
    (call : Call) :
    CallStep → Option CallResult
| .enter isLeader number index =>
    match call.phase with
    | .calling =>
        match kv.handleNormalRPC isLeader number
            call.request with
        | .answered reply => some (.returned (some reply))
        | .start op =>
            match index with
            | some index => some (.started op index)
            | none =>
                some (.returned
                  (some (Reply.ofErr .wrongLeader)))
    | .waiting _ _ => none
| .poll =>
    match call.phase with
    | .calling => none
    | .waiting op index =>
        (kv.waittingForCommit op index
          call.request.args).map fun reply =>
            .returned (some reply)
| .timeout =>
    match call.phase with
    | .calling => none
    | .waiting _ _ =>
        some (.returned (some (Reply.ofErr .commitTimeout)))
| .stop => if dead then some (.returned none) else none

/-
  The retry loops of ApplyMovement and pollConfig: `some ok`
  leaves the loop, `none` calls again.
-/
def retryResult : Option Reply → Option Bool
| some reply =>
    if reply.err = .ok then some true
    else if reply.err = .wrongLeader then some false
    else none
| none => some false

------------------------------------------------------------
-- What A Call Can Do
------------------------------------------------------------

/- What is left when the check of the shard has passed. -/
theorem ShardKV.served_of_checked
    {kv : ShardKV}
    {request : Request}
    (hChecked : ¬ (0 ≤ request.id ∧
      (!kv.shardVec (key2shard request.args.getKey)) =
        true))
    (hClient : 0 ≤ request.id) :
    kv.shardVec (key2shard request.args.getKey) = true := by
  cases hServed :
      kv.shardVec (key2shard request.args.getKey) with
  | true => rfl
  | false =>
      exfalso
      apply hChecked
      rw [hServed]
      exact ⟨hClient, rfl⟩

theorem ShardKV.handleNormalRPC_start
    {kv : ShardKV}
    {isLeader : Bool}
    {number : Int}
    {request : Request}
    {op : Op}
    (hStart : kv.handleNormalRPC isLeader number request =
      .start op) :
    op = request.op number ∧
      (0 ≤ request.id →
        kv.shardVec (key2shard request.args.getKey) =
          true) := by
  unfold ShardKV.handleNormalRPC at hStart
  split at hStart
  · cases hStart
  · split at hStart
    · cases hStart
    · next hChecked =>
        split at hStart
        · cases hStart
        · cases hStart
          exact ⟨rfl, ShardKV.served_of_checked hChecked⟩

theorem ShardKV.handleNormalRPC_ok
    {kv : ShardKV}
    {isLeader : Bool}
    {number : Int}
    {request : Request}
    {reply : Reply}
    (hAnswered :
      kv.handleNormalRPC isLeader number request =
        .answered reply)
    (hOk : reply.err = .ok) :
    reply = kv.successCommit request.args ∧
      kv.completed request = true ∧
      (0 ≤ request.id →
        kv.shardVec (key2shard request.args.getKey) =
          true) := by
  unfold ShardKV.handleNormalRPC at hAnswered
  split at hAnswered
  · cases hAnswered
    cases hOk
  · split at hAnswered
    · cases hAnswered
      cases hOk
    · next hChecked =>
        split at hAnswered
        · next hCompleted =>
            cases hAnswered
            exact ⟨rfl, hCompleted,
              ShardKV.served_of_checked hChecked⟩
        · cases hAnswered

/- A call starts an entry from its critical section. -/
theorem Call.step_started
    {kv : ShardKV}
    {dead : Bool}
    {call : Call}
    {step : CallStep}
    {op : Op}
    {index : Int}
    (hStep : call.step kv dead step =
      some (.started op index)) :
    ∃ isLeader number,
      call.phase = .calling ∧
      step = .enter isLeader number (some index) ∧
      op = call.request.op number ∧
      (0 ≤ call.request.id →
        kv.shardVec
          (key2shard call.request.args.getKey) = true) := by
  unfold Call.step at hStep
  split at hStep
  · next isLeader number start =>
      split at hStep
      · next hPhase =>
          split at hStep
          · cases hStep
          · next op' hStart =>
              rcases ShardKV.handleNormalRPC_start hStart
                with ⟨hOp, hServed⟩
              split at hStep
              · cases hStep
                exact ⟨isLeader, number, hPhase, rfl, hOp,
                  hServed⟩
              · cases hStep
      · cases hStep
  · split at hStep
    · cases hStep
    · rcases Option.map_eq_some_iff.mp hStep with
        ⟨reply, _, hReturned⟩
      cases hReturned
  · split at hStep
    · cases hStep
    · cases hStep
  · split at hStep
    · cases hStep
    · cases hStep

/-
  A call that returns OK has found its entry applied, or a
  completed request whose shard is served.
-/
theorem Call.step_ok
    {kv : ShardKV}
    {dead : Bool}
    {call : Call}
    {step : CallStep}
    {reply : Reply}
    (hStep : call.step kv dead step =
      some (.returned (some reply)))
    (hOk : reply.err = .ok) :
    reply = kv.successCommit call.request.args ∧
      ((∃ op index finishedOp,
          call.phase = .waiting op index ∧
          index ≤ kv.lastApplied ∧
          kv.logRecord index = some finishedOp ∧
          finishedOp.number = op.number) ∨
        (kv.completed call.request = true ∧
          (0 ≤ call.request.id →
            kv.shardVec
              (key2shard call.request.args.getKey) =
                true))) := by
  unfold Call.step at hStep
  split at hStep
  · split at hStep
    · split at hStep
      · next reply' hAnswered =>
          cases hStep
          rcases ShardKV.handleNormalRPC_ok hAnswered hOk with
            ⟨hReply, hCompleted⟩
          exact ⟨hReply, Or.inr hCompleted⟩
      · split at hStep
        · cases hStep
        · cases hStep
          cases hOk
    · cases hStep
  · split at hStep
    · cases hStep
    · next op index hPhase =>
        rcases Option.map_eq_some_iff.mp hStep with
          ⟨reply', hPoll, hReturned⟩
        cases hReturned
        unfold ShardKV.waittingForCommit at hPoll
        split at hPoll
        · next hApplied =>
            split at hPoll
            · next finishedOp hRecord =>
                split at hPoll
                · next hNumber =>
                    cases hPoll
                    exact ⟨rfl, Or.inl ⟨op, index,
                      finishedOp, hPhase, hApplied, hRecord,
                      hNumber⟩⟩
                · cases hPoll
                  cases hOk
            · cases hPoll
        · cases hPoll
  · split at hStep
    · cases hStep
    · cases hStep
      cases hOk
  · split at hStep
    · cases hStep
    · cases hStep

end Shardkv

end RaftLab
