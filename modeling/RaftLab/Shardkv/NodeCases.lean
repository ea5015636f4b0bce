import RaftLab.Shardkv.Node

/-
  What a step of a shardkv server can do.

  Main declarations:
    * `Shardkv.NodeStep`
    * `Shardkv.Node.step_cases`
-/

------------------------------------------------------------
-- Steps Of A Node
------------------------------------------------------------

namespace RaftLab

namespace Shardkv

open Shardctrler (Shard Config)

/- The answer a handler gives, unless it was stopped. -/
def answerOf (request : Request) :
    Option Reply → List Effect
| some reply => [.answer request reply]
| none => []

/- A call that goes on polling for the entry it started. -/
def Call.waitingFor
    (call : Call)
    (number index : Int) : Call :=
  { call with
    phase := .waiting (call.request.op number) index }

inductive NodeStep (w : World) (nd : Node) :
    Node → List Effect → Prop
  | handlerStarted
      (k : Nat) (call : Call) (number index : Int)
      (hCall : nd.handlers[k]? = some call)
      (hIndex : nd.delivered < index.toNat)
      (hFresh : w.fresh number = true)
      (hServed : 0 ≤ call.request.id →
        nd.kv.shardVec
          (key2shard call.request.args.getKey) = true) :
      NodeStep w nd
        { nd with
          handlers := nd.handlers.set k
            (call.waitingFor number index) }
        [.start index.toNat (call.request.op number)]
  | handlerReturned
      (k : Nat) (call : Call) (step : CallStep)
      (reply : Option Reply)
      (hCall : nd.handlers[k]? = some call)
      (hStep : call.step nd.kv nd.dead step =
        some (.returned reply)) :
      NodeStep w nd
        { nd with handlers := nd.handlers.eraseIdx k }
        (answerOf call.request reply)
  | pulled
      (isLeader : Bool) (args : RequestMapAndSessionArgs) :
      NodeStep w nd nd
        [.pulled args
          (nd.kv.requestMapAndSession isLeader args)]
  | queried
      (latest : Config)
      (hPoll : nd.poll = .idle)
      (hLatest : Shardctrler.query w.configs (-1) =
        some latest) :
      NodeStep w nd { nd with poll := .changing latest } []
  | gaveUp
      (latest : Config)
      (hPoll : nd.poll = .changing latest) :
      NodeStep w nd { nd with poll := .idle } []
  | updating
      (latest next : Config)
      (hPoll : nd.poll = .changing latest)
      (hLt : nd.kv.config.num < latest.num)
      (hNext : Shardctrler.query w.configs
        (nd.kv.config.num + 1) = some next) :
      NodeStep w nd
        { nd with
          localReqNum := nd.localReqNum + 1
          poll := .updating latest next
            (Call.new (nd.ownRequest
              (.updateShardVec next.num
                (newShardVec w.gid nd.kv.config next)))) }
        []
  | updateStarted
      (latest next : Config) (call : Call)
      (number index : Int)
      (hPoll : nd.poll = .updating latest next call)
      (hIndex : nd.delivered < index.toNat)
      (hFresh : w.fresh number = true) :
      NodeStep w nd
        { nd with
          poll := .updating latest next
            (call.waitingFor number index) }
        [.start index.toNat (call.request.op number)]
  | updateRetried
      (latest next : Config) (call : Call)
      (hPoll : nd.poll = .updating latest next call) :
      NodeStep w nd
        { nd with
          poll := .updating latest next
            (Call.new call.request) } []
  | updateDone
      (latest next : Config) (call : Call)
      (updateOK : Bool)
      (hPoll : nd.poll = .updating latest next call) :
      NodeStep w nd
        { nd with
          poll := .updated latest next updateOK } []
  | notMoving
      (latest next : Config) (updateOK : Bool)
      (hPoll : nd.poll = .updated latest next updateOK) :
      NodeStep w nd { nd with poll := .changing latest } []
  | nothingToMove
      (latest next : Config)
      (hPoll : nd.poll = .updated latest next true)
      (hLt : nd.kv.config.num < next.num)
      (hZero : nd.kv.config.num = 0) :
      NodeStep w nd
        { nd with poll := .moved latest next } []
  | moving
      (latest next : Config)
      (hPoll : nd.poll = .updated latest next true)
      (hLt : nd.kv.config.num < next.num)
      (hZero : nd.kv.config.num ≠ 0) :
      NodeStep w nd
        { nd with
          poll := .moving latest nd.kv.config next
            (newPulls w.gid nd.kv.config next) false } []
  | pullReplied
      (latest oldConfig next : Config) (pulls : List Pull)
      (fail : Bool) (k : Nat) (pull : Pull)
      (record : PullRecord)
      (hPoll : nd.poll =
        .moving latest oldConfig next pulls fail)
      (hPull : pulls[k]? = some pull)
      (hState : pull.state = .pulling)
      (hKey : pull.src ∈ oldConfig.groups.keys)
      (hRecord : record ∈ w.pulls)
      (hGid : record.gid = pull.src)
      (hShards : record.args.shards = pull.shards)
      (hNum : record.args.configNum = next.num)
      (hOk : record.reply.err = .ok) :
      NodeStep w nd
        { nd with
          poll := .moving latest oldConfig next
            (pulls.set k { pull with
              state := .replied record.reply.mp
                record.reply.sessions }) fail } []
  | pullLocked
      (latest oldConfig next : Config) (pulls : List Pull)
      (fail : Bool) (k : Nat) (pull : Pull)
      (mp : String → Option String) (sessions : Sessions)
      (hPoll : nd.poll =
        .moving latest oldConfig next pulls fail)
      (hPull : pulls[k]? = some pull)
      (hState : pull.state = .replied mp sessions)
      (hFree : ∀ p ∈ pulls, p.state.isMoving = false) :
      NodeStep w nd
        { nd with
          localReqNum := nd.localReqNum + 1
          poll := .moving latest oldConfig next
            (pulls.set k { pull with
              state := .moving (Call.new (nd.ownRequest
                (.applyMovement mp sessions next
                  pull.shards))) }) fail } []
  | pullStarted
      (latest oldConfig next : Config) (pulls : List Pull)
      (fail : Bool) (k : Nat) (pull : Pull) (call : Call)
      (number index : Int)
      (hPoll : nd.poll =
        .moving latest oldConfig next pulls fail)
      (hPull : pulls[k]? = some pull)
      (hState : pull.state = .moving call)
      (hIndex : nd.delivered < index.toNat)
      (hFresh : w.fresh number = true) :
      NodeStep w nd
        { nd with
          poll := .moving latest oldConfig next
            (pulls.set k { pull with
              state := .moving
                (call.waitingFor number index) }) fail }
        [.start index.toNat (call.request.op number)]
  | pullRetried
      (latest oldConfig next : Config) (pulls : List Pull)
      (fail : Bool) (k : Nat) (pull : Pull) (call : Call)
      (hPoll : nd.poll =
        .moving latest oldConfig next pulls fail)
      (hPull : pulls[k]? = some pull)
      (hState : pull.state = .moving call) :
      NodeStep w nd
        { nd with
          poll := .moving latest oldConfig next
            (pulls.set k { pull with
              state := .moving (Call.new call.request) })
            fail } []
  | pullReturned
      (latest oldConfig next : Config) (pulls : List Pull)
      (fail : Bool) (k : Nat) (pull : Pull) (call : Call)
      (step : CallStep) (reply : Option Reply)
      (moveOK : Bool)
      (hPoll : nd.poll =
        .moving latest oldConfig next pulls fail)
      (hPull : pulls[k]? = some pull)
      (hState : pull.state = .moving call)
      (hStep : call.step nd.kv nd.dead step =
        some (.returned reply))
      (hRetry : retryResult reply = some moveOK) :
      NodeStep w nd
        { nd with
          poll := .moving latest oldConfig next
            (pulls.set k { pull with state := .done })
            (fail || !moveOK) } []
  | pullStopped
      (latest oldConfig next : Config) (pulls : List Pull)
      (fail : Bool) (k : Nat) (pull : Pull)
      (hPoll : nd.poll =
        .moving latest oldConfig next pulls fail)
      (hPull : pulls[k]? = some pull)
      (hState : pull.state = .pulling)
      (hDead : nd.dead = true) :
      NodeStep w nd
        { nd with
          poll := .moving latest oldConfig next
            (pulls.set k { pull with state := .done })
            fail } []
  | moveFailed
      (latest oldConfig next : Config) (pulls : List Pull)
      (fail : Bool)
      (hPoll : nd.poll =
        .moving latest oldConfig next pulls fail) :
      NodeStep w nd { nd with poll := .changing latest } []
  | deleting
      (latest oldConfig next : Config) (pulls : List Pull)
      (hPoll : nd.poll =
        .moving latest oldConfig next pulls false)
      (hDone : ∀ pull ∈ pulls, pull.state = .done)
      (hAlive : nd.dead = false) :
      NodeStep w nd
        { nd with
          poll := .deleting latest oldConfig next
            (newDeletes pulls) } []
  | deleteSent
      (latest oldConfig next : Config)
      (deletes : List Delete) (k : Nat) (delete : Delete)
      (hPoll : nd.poll =
        .deleting latest oldConfig next deletes)
      (hDelete : deletes[k]? = some delete) :
      NodeStep w nd
        { nd with
          localReqNum := nd.localReqNum + 1
          poll := .deleting latest oldConfig next
            (deletes.set k { delete with
              state := .sent (nd.ownRequest
                (.deleteShards delete.shards next.num)) }) }
        [.delete delete.src (nd.ownRequest
          (.deleteShards delete.shards next.num))]
  | deleteDone
      (latest oldConfig next : Config)
      (deletes : List Delete) (k : Nat) (delete : Delete)
      (hPoll : nd.poll =
        .deleting latest oldConfig next deletes)
      (hDelete : deletes[k]? = some delete) :
      NodeStep w nd
        { nd with
          poll := .deleting latest oldConfig next
            (deletes.set k { delete with
              state := .done }) } []
  | moved
      (latest oldConfig next : Config)
      (deletes : List Delete)
      (hPoll : nd.poll =
        .deleting latest oldConfig next deletes) :
      NodeStep w nd
        { nd with poll := .moved latest next } []
  | committing
      (latest next : Config)
      (hPoll : nd.poll = .moved latest next) :
      NodeStep w nd
        { nd with
          localReqNum := nd.localReqNum + 1
          poll := .committing latest next
            (Call.new (nd.ownRequest
              (.changeConfig next))) } []
  | commitStarted
      (latest next : Config) (call : Call)
      (number index : Int)
      (hPoll : nd.poll = .committing latest next call)
      (hIndex : nd.delivered < index.toNat)
      (hFresh : w.fresh number = true) :
      NodeStep w nd
        { nd with
          poll := .committing latest next
            (call.waitingFor number index) }
        [.start index.toNat (call.request.op number)]
  | commitRetried
      (latest next : Config) (call : Call)
      (hPoll : nd.poll = .committing latest next call) :
      NodeStep w nd
        { nd with
          poll := .committing latest next
            (Call.new call.request) } []
  | commitDone
      (latest next : Config) (call : Call)
      (hPoll : nd.poll = .committing latest next call) :
      NodeStep w nd { nd with poll := .changing latest } []
  | applied
      (op : Op)
      (hOp : w.log[nd.kv.lastApplied.toNat]? = some op) :
      NodeStep w nd (nd.deliver op) []
  | committed
      (index : Nat) (op : Op)
      (hEntry : (index, op) ∈ w.started)
      (hIndex : index = w.log.length + 1)
      (hApplied : nd.kv.lastApplied = w.log.length) :
      NodeStep w nd (nd.deliver op) [.commit op]
  | installed
      (snapshotIndex : Nat)
      (hLe : snapshotIndex ≤ w.log.length) :
      NodeStep w nd
        { nd with
          kv := (nd.kv.handleApplyMsg false
            (.snapshot snapshotIndex
              (stateAt w.gid w.log
                snapshotIndex).snapshot)).1
          delivered := max nd.delivered snapshotIndex } []
  | killed :
      NodeStep w nd { nd with dead := true } []

namespace Node

variable {w : World} {nd nd' : Node} {effects : List Effect}

/- A call of the node goes on or returns. -/
theorem runCall_cases
    {call : Call}
    {step : CallStep}
    {result : (Call × List Effect) ⊕ Option Reply}
    (hRun : nd.runCall w call step = some result) :
    (∃ number index,
      nd.delivered < Int.toNat index ∧
      w.fresh number = true ∧
      (0 ≤ call.request.id →
        nd.kv.shardVec
          (key2shard call.request.args.getKey) = true) ∧
      result = .inl (call.waitingFor number index,
        [.start index.toNat (call.request.op number)])) ∨
    ∃ reply,
      call.step nd.kv nd.dead step =
        some (.returned reply) ∧
      result = .inr reply := by
  unfold runCall at hRun
  split at hRun
  · next op index hStep =>
      rcases Call.step_started hStep with
        ⟨isLeader, number, _, _, rfl, hServed⟩
      split at hRun
      · next hGuard =>
          cases hRun
          exact Or.inl ⟨number, index, hGuard.1, hGuard.2,
            hServed, rfl⟩
      · cases hRun
  · next reply hStep =>
      cases hRun
      exact Or.inr ⟨reply, hStep, rfl⟩
  · cases hRun

theorem stepHandler_cases
    {k : Nat}
    {step : CallStep}
    (hStep : nd.stepHandler w k step = some (nd', effects)) :
    NodeStep w nd nd' effects := by
  unfold stepHandler at hStep
  rcases Option.bind_eq_some_iff.mp hStep with
    ⟨call, hCall, hMap⟩
  rcases Option.map_eq_some_iff.mp hMap with
    ⟨result, hRun, hNext⟩
  rcases runCall_cases hRun with
    ⟨number, index, hIndex, hFresh, hServed, rfl⟩ |
    ⟨reply, hReturned, rfl⟩
  · cases hNext
    exact .handlerStarted k call number index hCall hIndex
      hFresh hServed
  · have hReturns := NodeStep.handlerReturned (w := w) k call
      step reply hCall hReturned
    cases reply with
    | none =>
        cases hNext
        exact hReturns
    | some reply =>
        cases hNext
        exact hReturns

theorem stepQuery_cases
    {isLeader : Bool}
    (hStep : nd.stepQuery w isLeader = some (nd', effects)) :
    NodeStep w nd nd' effects := by
  unfold stepQuery at hStep
  split at hStep
  · next hPoll =>
      split at hStep
      · cases hStep
      · rcases Option.map_eq_some_iff.mp hStep with
          ⟨latest, hLatest, hNext⟩
        cases hNext
        exact .queried latest hPoll hLatest
  · cases hStep

theorem stepNext_cases
    {isLeader : Bool}
    (hStep : nd.stepNext w isLeader = some (nd', effects)) :
    NodeStep w nd nd' effects := by
  unfold stepNext at hStep
  split at hStep
  · next latest hPoll =>
      split at hStep
      · next hLt =>
          split at hStep
          · cases hStep
            exact .gaveUp latest hPoll
          · rcases Option.map_eq_some_iff.mp hStep with
              ⟨next, hNext, hResult⟩
            cases hResult
            exact .updating latest next hPoll hLt hNext
      · cases hStep
        exact .gaveUp latest hPoll
  · cases hStep

theorem stepPollCall_cases
    {step : CallStep}
    (hStep : nd.stepPollCall w step = some (nd', effects)) :
    NodeStep w nd nd' effects := by
  unfold stepPollCall at hStep
  split at hStep
  · next latest next call hPoll =>
      rcases Option.map_eq_some_iff.mp hStep with
        ⟨result, hRun, hNext⟩
      rcases runCall_cases hRun with
        ⟨number, index, hIndex, hFresh, _, rfl⟩ |
        ⟨reply, _, rfl⟩
      · cases hNext
        exact .updateStarted latest next call number index
          hPoll hIndex hFresh
      · cases hRetry : retryResult reply with
        | none =>
            simp only [hRetry] at hNext
            cases hNext
            exact .updateRetried latest next call hPoll
        | some updateOK =>
            simp only [hRetry] at hNext
            cases hNext
            exact .updateDone latest next call updateOK hPoll
  · next latest next call hPoll =>
      rcases Option.map_eq_some_iff.mp hStep with
        ⟨result, hRun, hNext⟩
      rcases runCall_cases hRun with
        ⟨number, index, hIndex, hFresh, _, rfl⟩ |
        ⟨reply, _, rfl⟩
      · cases hNext
        exact .commitStarted latest next call number index
          hPoll hIndex hFresh
      · cases hRetry : retryResult reply with
        | none =>
            simp only [hRetry] at hNext
            cases hNext
            exact .commitRetried latest next call hPoll
        | some ok =>
            simp only [hRetry] at hNext
            cases hNext
            exact .commitDone latest next call hPoll
  · cases hStep

theorem stepLock_cases
    (hStep : nd.stepLock w = some (nd', effects)) :
    NodeStep w nd nd' effects := by
  unfold stepLock at hStep
  split at hStep
  · next latest next updateOK hPoll =>
      split at hStep
      · cases hStep
        exact .notMoving latest next updateOK hPoll
      · next hGuard =>
          simp only [Bool.or_eq_true, Bool.not_eq_true',
            decide_eq_true_eq, not_or, Bool.not_eq_false,
            Int.not_le, ge_iff_le] at hGuard
          rcases hGuard with ⟨⟨hOk, hLt⟩, _⟩
          rw [hOk] at hPoll
          split at hStep
          · next hEnds =>
              cases hStep
              refine .nothingToMove latest next hPoll hLt ?_
              omega
          · next hMoves =>
              cases hStep
              refine .moving latest next hPoll hLt ?_
              omega
  · next latest next hPoll =>
      cases hStep
      exact .committing latest next hPoll
  · cases hStep

theorem stepWait_cases
    {isLeader : Bool}
    (hStep : nd.stepWait isLeader = some (nd', effects)) :
    NodeStep w nd nd' effects := by
  unfold stepWait at hStep
  split at hStep
  · next latest oldConfig next pulls fail hPoll =>
      split at hStep
      · next hAll =>
          split at hStep
          · cases hStep
            exact .moveFailed latest oldConfig next pulls fail
              hPoll
          · next hGuard =>
              simp only [Bool.or_eq_true, Bool.not_eq_true',
                not_or, Bool.not_eq_false,
                Bool.not_eq_true] at hGuard
              rcases hGuard with ⟨⟨_, hAlive⟩, hFail⟩
              rw [hFail] at hPoll
              cases hStep
              refine .deleting latest oldConfig next pulls
                hPoll ?_ hAlive
              intro pull hMem
              have hDone := List.all_eq_true.mp hAll pull hMem
              cases hState : pull.state with
              | done => rfl
              | _ =>
                  rw [hState] at hDone
                  cases hDone
      · cases hStep
  · next latest oldConfig next deletes hPoll =>
      split at hStep
      · cases hStep
        exact .moved latest oldConfig next deletes hPoll
      · cases hStep
  · cases hStep

theorem stepPullReply_cases
    {k r : Nat}
    (hStep : nd.stepPullReply w k r = some (nd', effects)) :
    NodeStep w nd nd' effects := by
  unfold stepPullReply at hStep
  split at hStep
  · next latest oldConfig next pulls fail hPoll =>
      split at hStep
      · next pull record hPull hRecord =>
          split at hStep
          · next hGuard =>
              rcases hGuard with
                ⟨hPulling, hKey, hGid, hShards, hNum, hOk⟩
              cases hStep
              refine .pullReplied latest oldConfig next pulls
                fail k pull record hPoll hPull ?_ hKey
                (List.mem_of_getElem? hRecord) hGid hShards
                hNum hOk
              cases hState : pull.state with
              | pulling => rfl
              | _ =>
                  rw [hState] at hPulling
                  cases hPulling
          · cases hStep
      · cases hStep
  · cases hStep

theorem stepPullLock_cases
    {k : Nat}
    (hStep : nd.stepPullLock k = some (nd', effects)) :
    NodeStep w nd nd' effects := by
  unfold stepPullLock at hStep
  split at hStep
  · next latest oldConfig next pulls fail hPoll =>
      split at hStep
      · next pull hPull =>
          split at hStep
          · next mp sessions hState =>
              split at hStep
              · cases hStep
              · next hFree =>
                  cases hStep
                  refine .pullLocked latest oldConfig next
                    pulls fail k pull mp sessions hPoll hPull
                    hState ?_
                  intro p hMem
                  cases hMoving : p.state.isMoving with
                  | false => rfl
                  | true =>
                      exfalso
                      apply hFree
                      exact List.any_eq_true.mpr
                        ⟨p, hMem, hMoving⟩
          · cases hStep
      · cases hStep
  · cases hStep

theorem stepPullCall_cases
    {k : Nat}
    {step : CallStep}
    (hStep : nd.stepPullCall w k step =
      some (nd', effects)) :
    NodeStep w nd nd' effects := by
  unfold stepPullCall at hStep
  split at hStep
  · next latest oldConfig next pulls fail hPoll =>
      split at hStep
      · next pull hPull =>
          split at hStep
          · next call hState =>
              rcases Option.map_eq_some_iff.mp hStep with
                ⟨result, hRun, hNext⟩
              rcases runCall_cases hRun with
                ⟨number, index, hIndex, hFresh, _, rfl⟩ |
                ⟨reply, hReturned, rfl⟩
              · cases hNext
                exact .pullStarted latest oldConfig next
                  pulls fail k pull call number index hPoll
                  hPull hState hIndex hFresh
              · cases hRetry : retryResult reply with
                | none =>
                    simp only [hRetry] at hNext
                    cases hNext
                    exact .pullRetried latest oldConfig next
                      pulls fail k pull call hPoll hPull
                      hState
                | some moveOK =>
                    simp only [hRetry] at hNext
                    cases hNext
                    exact .pullReturned latest oldConfig next
                      pulls fail k pull call step reply
                      moveOK hPoll hPull hState hReturned
                      hRetry
          · cases hStep
      · cases hStep
  · cases hStep

theorem stepPullStop_cases
    {k : Nat}
    (hStep : nd.stepPullStop k = some (nd', effects)) :
    NodeStep w nd nd' effects := by
  unfold stepPullStop at hStep
  split at hStep
  · next latest oldConfig next pulls fail hPoll =>
      split at hStep
      · next pull hPull =>
          split at hStep
          · next hGuard =>
              rcases hGuard with ⟨hDead, hPulling⟩
              cases hStep
              refine .pullStopped latest oldConfig next pulls
                fail k pull hPoll hPull ?_ hDead
              cases hState : pull.state with
              | pulling => rfl
              | _ =>
                  rw [hState] at hPulling
                  cases hPulling
          · cases hStep
      · cases hStep
  · cases hStep

theorem stepDeleteSend_cases
    {k : Nat}
    (hStep : nd.stepDeleteSend k = some (nd', effects)) :
    NodeStep w nd nd' effects := by
  unfold stepDeleteSend at hStep
  split at hStep
  · next latest oldConfig next deletes hPoll =>
      split at hStep
      · next delete hDelete =>
          split at hStep
          · cases hStep
            exact .deleteSent latest oldConfig next deletes k
              delete hPoll hDelete
          · cases hStep
      · cases hStep
  · cases hStep

theorem stepDeleteReply_cases
    {k r : Nat}
    (hStep : nd.stepDeleteReply w k r =
      some (nd', effects)) :
    NodeStep w nd nd' effects := by
  unfold stepDeleteReply at hStep
  split at hStep
  · next latest oldConfig next deletes hPoll =>
      split at hStep
      · next delete answer hDelete hAnswer =>
          split at hStep
          · split at hStep
            · cases hStep
              exact .deleteDone latest oldConfig next deletes
                k delete hPoll hDelete
            · cases hStep
          · cases hStep
      · cases hStep
  · cases hStep

theorem stepDeleteStop_cases
    {k : Nat}
    (hStep : nd.stepDeleteStop k = some (nd', effects)) :
    NodeStep w nd nd' effects := by
  unfold stepDeleteStop at hStep
  split at hStep
  · next latest oldConfig next deletes hPoll =>
      split at hStep
      · next delete hDelete =>
          split at hStep
          · cases hStep
            exact .deleteDone latest oldConfig next deletes k
              delete hPoll hDelete
          · cases hStep
      · cases hStep
  · cases hStep

theorem stepApply_cases
    (hStep : nd.stepApply w = some (nd', effects)) :
    NodeStep w nd nd' effects := by
  unfold stepApply at hStep
  rcases Option.map_eq_some_iff.mp hStep with
    ⟨op, hOp, hNext⟩
  cases hNext
  exact .applied op hOp

theorem stepCommit_cases
    {k : Nat}
    (hStep : nd.stepCommit w k = some (nd', effects)) :
    NodeStep w nd nd' effects := by
  unfold stepCommit at hStep
  rcases Option.bind_eq_some_iff.mp hStep with
    ⟨⟨index, op⟩, hEntry, hNext⟩
  split at hNext
  · next hGuard =>
      cases hNext
      exact .committed index op (List.mem_of_getElem? hEntry)
        hGuard.1 hGuard.2
  · cases hNext

theorem stepInstall_cases
    {snapshotIndex : Nat}
    (hStep : nd.stepInstall w snapshotIndex =
      some (nd', effects)) :
    NodeStep w nd nd' effects := by
  unfold stepInstall at hStep
  split at hStep
  · next hLe =>
      cases hStep
      exact .installed snapshotIndex hLe
  · cases hStep

/- Every step of a node is one of these. -/
theorem step_cases
    {event : Event}
    (hStep : nd.step w event = some (nd', effects)) :
    NodeStep w nd nd' effects := by
  cases event with
  | handler k step => exact stepHandler_cases hStep
  | requestMapAndSession isLeader args =>
      cases hStep
      exact .pulled isLeader args
  | query isLeader => exact stepQuery_cases hStep
  | next isLeader => exact stepNext_cases hStep
  | pollCall step => exact stepPollCall_cases hStep
  | lock => exact stepLock_cases hStep
  | wait isLeader => exact stepWait_cases hStep
  | pullReply k r => exact stepPullReply_cases hStep
  | pullLock k => exact stepPullLock_cases hStep
  | pullCall k step => exact stepPullCall_cases hStep
  | pullStop k => exact stepPullStop_cases hStep
  | deleteSend k => exact stepDeleteSend_cases hStep
  | deleteReply k r => exact stepDeleteReply_cases hStep
  | deleteStop k => exact stepDeleteStop_cases hStep
  | apply => exact stepApply_cases hStep
  | commit k => exact stepCommit_cases hStep
  | install snapshotIndex => exact stepInstall_cases hStep
  | kill =>
      cases hStep
      exact .killed

end Node

end Shardkv

end RaftLab
