import RaftLab.Shardkv.Answers

/-
  DeleteShards is sent only after the shards have arrived.

  MoveShards waits for all of its pulls, and it goes on to the
  deletions only when no ApplyMovement has failed. An OK of
  ApplyMovement means that an entry of this request was applied
  by the group: the request carries the largest number of its
  server, so the first of its entries was not skipped.

  Main declarations:
    * `Shardkv.FromReply`, `Shardkv.Moved`
    * `Shardkv.Poll.Moves`, `Shardkv.Cluster.Moves`
    * `Shardkv.deletes_after_movement`
-/

------------------------------------------------------------
-- Movements
------------------------------------------------------------

namespace RaftLab

namespace Shardkv

open Shardctrler (Shard Config)

variable {I : Type}

/- The data came in a reply without error of the source. -/
def FromReply
    (c : Cluster I)
    (src : Int)
    (next : Config)
    (shards : Shard → Bool)
    (mp : String → Option String)
    (sessions : Sessions) : Prop :=
  ∃ record ∈ c.pulls,
    record.gid = src ∧
    record.args.shards = shards ∧
    record.args.configNum = next.num ∧
    record.reply.err = .ok ∧
    record.reply.mp = mp ∧
    record.reply.sessions = sessions

/- The log has an entry that moved the shards here. -/
def Moved
    (c : Cluster I)
    (gid src : Int)
    (next : Config)
    (shards : Shard → Bool) : Prop :=
  ∃ n op mp sessions,
    (c.groups gid).log[n]? = some op ∧
    op.args = .applyMovement mp sessions next shards ∧
    (stateAt gid (c.groups gid).log n).stable (n + 1) op =
      false ∧
    FromReply c src next shards mp sessions

/- What a pull has achieved. -/
def PullState.Moves
    (c : Cluster I)
    (gid : Int)
    (dead fail : Bool)
    (src : Int)
    (next : Config)
    (shards : Shard → Bool) :
    PullState → Prop
| .pulling => True
| .replied mp sessions =>
    FromReply c src next shards mp sessions
| .moving call =>
    ∃ mp sessions,
      call.request.args =
        .applyMovement mp sessions next shards ∧
      FromReply c src next shards mp sessions
| .done =>
    dead = true ∨ fail = true ∨ Moved c gid src next shards

def Poll.Moves
    (c : Cluster I)
    (gid : Int)
    (dead : Bool) :
    Poll → Prop
| .moving _ _ next pulls fail =>
    ∀ pull ∈ pulls,
      pull.state.Moves c gid dead fail pull.src next
        pull.shards
| .deleting _ _ next deletes =>
    ∀ delete ∈ deletes,
      Moved c gid delete.src next delete.shards
| _ => True

------------------------------------------------------------
-- Growing Clusters
------------------------------------------------------------

theorem FromReply.mono
    {c c' : Cluster I}
    (hExtends : c.Extends c')
    {src : Int}
    {next : Config}
    {shards : Shard → Bool}
    {mp : String → Option String}
    {sessions : Sessions}
    (hReply : FromReply c src next shards mp sessions) :
    FromReply c' src next shards mp sessions := by
  rcases hReply with ⟨record, hMem, hRecord⟩
  exact ⟨record, hExtends.pulls record hMem, hRecord⟩

theorem Moved.mono
    {c c' : Cluster I}
    (hExtends : c.Extends c')
    {gid src : Int}
    {next : Config}
    {shards : Shard → Bool}
    (hMoved : Moved c gid src next shards) :
    Moved c' gid src next shards := by
  rcases hMoved with
    ⟨n, op, mp, sessions, hAt, hArgs, hStable, hReply⟩
  have hLt := (List.getElem?_eq_some_iff.mp hAt).1
  refine ⟨n, op, mp, sessions, ?_, hArgs, ?_,
    hReply.mono hExtends⟩
  · rcases hExtends.log gid with ⟨ops, hOps⟩
    rw [hOps, List.getElem?_append_left hLt]
    exact hAt
  · rw [hExtends.stateAt (by omega)]
    exact hStable

theorem PullState.Moves.mono
    {c c' : Cluster I}
    (hExtends : c.Extends c')
    {gid : Int}
    {dead dead' fail fail' : Bool}
    (hDead : dead = true → dead' = true)
    (hFail : fail = true → fail' = true)
    {src : Int}
    {next : Config}
    {shards : Shard → Bool}
    {state : PullState}
    (hMoves : state.Moves c gid dead fail src next shards) :
    state.Moves c' gid dead' fail' src next shards := by
  cases state with
  | pulling => exact trivial
  | replied mp sessions =>
      exact FromReply.mono hExtends hMoves
  | moving call =>
      rcases hMoves with ⟨mp, sessions, hArgs, hReply⟩
      exact ⟨mp, sessions, hArgs, hReply.mono hExtends⟩
  | done =>
      rcases hMoves with hD | hF | hMoved
      · exact Or.inl (hDead hD)
      · exact Or.inr (Or.inl (hFail hF))
      · exact Or.inr (Or.inr (hMoved.mono hExtends))

theorem Poll.Moves.mono
    {c c' : Cluster I}
    (hExtends : c.Extends c')
    {gid : Int}
    {dead dead' : Bool}
    (hDead : dead = true → dead' = true)
    {poll : Poll}
    (hMoves : poll.Moves c gid dead) :
    poll.Moves c' gid dead' := by
  cases poll with
  | moving latest oldConfig next pulls fail =>
      intro pull hMem
      exact (hMoves pull hMem).mono hExtends hDead
        fun hFail => hFail
  | deleting latest oldConfig next deletes =>
      intro delete hMem
      exact (hMoves delete hMem).mono hExtends
  | _ => exact trivial

/- One of the pulls goes on. -/
theorem Poll.Moves.setPull
    {c : Cluster I}
    {gid : Int}
    {dead : Bool}
    {latest oldConfig next : Config}
    {pulls : List Pull}
    {fail fail' : Bool}
    (hMoves : (Poll.moving latest oldConfig next pulls
      fail).Moves c gid dead)
    (hFail : fail = true → fail' = true)
    (k : Nat)
    {pull : Pull}
    {state : PullState}
    (hState : state.Moves c gid dead fail' pull.src next
      pull.shards) :
    (Poll.moving latest oldConfig next
      (pulls.set k { pull with state := state })
      fail').Moves c gid dead := by
  intro pull' hMem
  rcases List.mem_or_eq_of_mem_set hMem with hOld | rfl
  · exact (hMoves pull' hOld).mono (Cluster.Extends.refl c)
      (fun hDead => hDead) hFail
  · exact hState

------------------------------------------------------------
-- Applied Movements
------------------------------------------------------------

/-
  A call of pollConfig returns OK: an entry with its arguments
  is in the log and was not skipped.
-/
theorem applied_of_ok
    {c : Cluster I}
    (hRegular : c.Regular)
    {gid : Int}
    {i : I}
    {nd : Node}
    (hNode : (c.groups gid).nodes i = some nd)
    {call : Call}
    (hMem : call ∈ nd.poll.calls)
    {step : CallStep}
    {reply : Reply}
    (hStep : call.step nd.kv nd.dead step =
      some (.returned (some reply)))
    (hOk : reply.err = .ok) :
    ∃ n op,
      (c.groups gid).log[n]? = some op ∧
      op.args = call.request.args ∧
      (stateAt gid (c.groups gid).log n).stable (n + 1) op =
        false := by
  have hDelivers := hRegular.delivers
  have hNamed := hRegular.named
  have hNumbers := hRegular.numbers
  have hId := hNamed.calls gid i nd call hNode hMem
  have hNum := hNumbers.calls gid i nd call hNode hMem
  have hNeg := hNamed.neg _ (hNamed.nodes gid i nd hNode)
  have hBuilt := hRegular.builds.log hDelivers gid
  have hLast : ∀ op ∈ (c.groups gid).log,
      op.ckId = nd.uid → op.reqNum ≤ call.request.reqNum := by
    intro op hOp hUid
    rcases List.mem_iff_getElem?.mp hOp with ⟨j, hAt⟩
    have hLt := hNumbers.entries gid i nd _ hNode
      (hDelivers.log_started gid j op hAt) hUid
    dsimp only at hLt
    omega
  -- Some entry of the log has the number of the request.
  have hEntry : ∃ (n : Nat) (op : Op),
      (c.groups gid).log[n]? = some op ∧
      op.ckId = nd.uid ∧
      op.reqNum = call.request.reqNum := by
    rcases (ok_cases hRegular hNode (Or.inr hMem) hStep
      hOk).2 with
      ⟨n, number, _, hAt, _⟩ | ⟨hCompleted, _⟩
    · exact ⟨n, _, hAt, hId, rfl⟩
    · have hFollows := hDelivers.follows gid i nd hNode
      have hApplied := hFollows.applied_le
      have hDelivered := hFollows.delivered_le
      unfold ShardKV.completed at hCompleted
      split at hCompleted
      · next session hSession =>
          simp only [Bool.and_eq_true, decide_eq_true_eq]
            at hCompleted
          rw [hFollows.state.ckSessions] at hSession
          have hServer : ofClient (uniKey call.request.id
              (key2shard call.request.args.getKey)) =
                false := by
            rw [ofClient_uniKey, hId]
            apply decide_eq_false
            dsimp only at hNeg
            omega
          rcases server_session_origin hBuilt (by omega)
            hServer hSession with ⟨m, op, _, hAt, hKey, hReqNum⟩
          have hCkId := (uniKey_injective hKey).1
          exact ⟨m, op, hAt, by omega, by omega⟩
      · cases hCompleted
  rcases hEntry with ⟨n, op, hAt, hCkId, hReqNum⟩
  rcases exists_first_entry hBuilt hNeg hLast hAt hCkId
    hReqNum with ⟨m, first, hFirst, hUid, hFirstNum, hStable⟩
  have hArgs := hNumbers.same gid i nd call _ hNode hMem
    (hDelivers.log_started gid m first hFirst) hUid hFirstNum
  exact ⟨m, first, hFirst, hArgs, hStable⟩

/- A pull that has returned OK. -/
theorem moved_of_ok
    {c : Cluster I}
    (hRegular : c.Regular)
    {gid : Int}
    {i : I}
    {nd : Node}
    (hNode : (c.groups gid).nodes i = some nd)
    {call : Call}
    (hMem : call ∈ nd.poll.calls)
    {step : CallStep}
    {reply : Reply}
    (hStep : call.step nd.kv nd.dead step =
      some (.returned (some reply)))
    (hOk : reply.err = .ok)
    {src : Int}
    {next : Config}
    {shards : Shard → Bool}
    {mp : String → Option String}
    {sessions : Sessions}
    (hArgs : call.request.args =
      .applyMovement mp sessions next shards)
    (hReply : FromReply c src next shards mp sessions) :
    Moved c gid src next shards := by
  rcases applied_of_ok hRegular hNode hMem hStep hOk with
    ⟨n, op, hAt, hSame, hStable⟩
  exact ⟨n, op, mp, sessions, hAt, hSame.trans hArgs,
    hStable, hReply⟩

/- pollConfig keeps its record when its node takes a step. -/
theorem Poll.Moves.step
    {c : Cluster I}
    (hRegular : c.Regular)
    {gid : Int}
    {i : I}
    {nd nd' : Node}
    {effects : List Effect}
    (hNode : (c.groups gid).nodes i = some nd)
    (hMoves : nd.poll.Moves c gid nd.dead)
    (hStep : NodeStep (c.world gid) nd nd' effects) :
    nd'.poll.Moves c gid nd'.dead := by
  cases hStep with
  | handlerStarted => exact hMoves
  | handlerReturned => exact hMoves
  | pulled => exact hMoves
  | moving latest next =>
      intro pull hMem
      rw [(mem_newPulls hMem).1]
      exact trivial
  | pullReplied latest oldConfig next pulls fail k pull
      record hPoll hPull hState hKey hRecord hGid hShards
      hNum hOk =>
      rw [hPoll] at hMoves
      exact hMoves.setPull (fun hFail => hFail) k
        ⟨record, hRecord, hGid, hShards, hNum, hOk, rfl, rfl⟩
  | pullLocked latest oldConfig next pulls fail k pull mp
      sessions hPoll hPull hState hFree =>
      rw [hPoll] at hMoves
      have hReply := hMoves pull (List.mem_of_getElem? hPull)
      rw [hState] at hReply
      exact hMoves.setPull (fun hFail => hFail) k
        ⟨mp, sessions, rfl, hReply⟩
  | pullStarted latest oldConfig next pulls fail k pull call
      number index hPoll hPull hState =>
      rw [hPoll] at hMoves
      have hMoving := hMoves pull (List.mem_of_getElem? hPull)
      rw [hState] at hMoving
      exact hMoves.setPull (fun hFail => hFail) k hMoving
  | pullRetried latest oldConfig next pulls fail k pull call
      hPoll hPull hState =>
      rw [hPoll] at hMoves
      have hMoving := hMoves pull (List.mem_of_getElem? hPull)
      rw [hState] at hMoving
      exact hMoves.setPull (fun hFail => hFail) k hMoving
  | pullReturned latest oldConfig next pulls fail k pull call
      step reply moveOK hPoll hPull hState hReturned
      hRetry =>
      have hMem : call ∈ nd.poll.calls := by
        rw [hPoll]
        exact Poll.mem_calls_moving.mpr
          ⟨pull, List.mem_of_getElem? hPull, hState⟩
      rw [hPoll] at hMoves
      have hMoving := hMoves pull (List.mem_of_getElem? hPull)
      rw [hState] at hMoving
      rcases hMoving with ⟨mp, sessions, hArgs, hReply⟩
      apply hMoves.setPull (fun hFail => by simp [hFail]) k
      cases moveOK with
      | false => exact Or.inr (Or.inl (by simp))
      | true =>
          -- The loop of ApplyMovement was left with OK.
          cases reply with
          | none => cases hRetry
          | some reply =>
              have hOk : reply.err = .ok := by
                unfold retryResult at hRetry
                by_contra hErr
                simp [hErr] at hRetry
              exact Or.inr (Or.inr (moved_of_ok hRegular
                hNode hMem hReturned hOk hArgs hReply))
  | pullStopped latest oldConfig next pulls fail k pull
      hPoll hPull hState hDead =>
      rw [hPoll] at hMoves
      exact hMoves.setPull (fun hFail => hFail) k
        (Or.inl hDead)
  | deleting latest oldConfig next pulls hPoll hDone
      hAlive =>
      rw [hPoll] at hMoves
      intro delete hMem
      rcases List.mem_map.mp hMem with ⟨pull, hPull, rfl⟩
      have hPulled := hMoves pull hPull
      rw [hDone pull hPull, hAlive] at hPulled
      rcases hPulled with hDead | hFail | hMoved
      · cases hDead
      · cases hFail
      · exact hMoved
  | deleteSent latest oldConfig next deletes k delete hPoll
      hDelete =>
      rw [hPoll] at hMoves
      intro delete' hMem
      rcases List.mem_or_eq_of_mem_set hMem with hOld | rfl
      · exact hMoves delete' hOld
      · exact hMoves delete (List.mem_of_getElem? hDelete)
  | deleteDone latest oldConfig next deletes k delete hPoll
      hDelete =>
      rw [hPoll] at hMoves
      intro delete' hMem
      rcases List.mem_or_eq_of_mem_set hMem with hOld | rfl
      · exact hMoves delete' hOld
      · exact hMoves delete (List.mem_of_getElem? hDelete)
  | applied => exact hMoves
  | committed => exact hMoves
  | installed => exact hMoves
  | killed =>
      exact hMoves.mono (Cluster.Extends.refl c)
        fun _ => rfl
  | _ => exact trivial

------------------------------------------------------------
-- Deletions
------------------------------------------------------------

structure Cluster.Moves (c : Cluster I) : Prop where
  polls : ∀ gid i nd,
    (c.groups gid).nodes i = some nd →
    nd.poll.Moves c gid nd.dead
  deletes : ∀ deletion ∈ c.deletes, ∃ next shards,
    deletion.request.args =
      .deleteShards shards next.num ∧
    Moved c deletion.sender deletion.target next shards

variable [DecidableEq I]

theorem Cluster.Moves.step
    {c c' : Cluster I}
    (hMoves : c.Moves)
    (hRegular : c.Regular)
    (hStep : ClusterStep c c') :
    c'.Moves := by
  have hExtends := Cluster.extends_of_step hStep
  -- What was sent before stays justified.
  have hSent : ∀ deletion ∈ c.deletes, ∃ next shards,
      deletion.request.args =
        .deleteShards shards next.num ∧
      Moved c' deletion.sender deletion.target next
        shards := by
    intro deletion hMem
    rcases hMoves.deletes deletion hMem with
      ⟨next, shards, hArgs, hMoved⟩
    exact ⟨next, shards, hArgs, hMoved.mono hExtends⟩
  have hKept : ∀ gid i nd,
      (c.groups gid).nodes i = some nd →
      nd.poll.Moves c' gid nd.dead := by
    intro gid i nd hNode
    exact (hMoves.polls gid i nd hNode).mono hExtends
      fun hDead => hDead
  cases hStep with
  | control op configs hApply => exact ⟨hKept, hSent⟩
  | start gid i uid hGid hNeg hFresh =>
      constructor
      · intro gid' j nd hNode
        rcases Cluster.node_of_after hNode with
          ⟨rfl, rfl, rfl⟩ | ⟨hOld, _⟩
        · exact trivial
        · exact hKept gid' j nd hOld
      · intro deletion hMem
        apply hSent
        simpa [deletionsOf] using hMem
  | receive gid i nd request hNode hArrives =>
      constructor
      · intro gid' j nd' hNode'
        rcases Cluster.node_of_after hNode' with
          ⟨rfl, rfl, rfl⟩ | ⟨hOld, _⟩
        · exact hKept gid' j nd hNode
        · exact hKept gid' j nd' hOld
      · intro deletion hMem
        apply hSent
        simpa [deletionsOf] using hMem
  | node gid i nd nd' effects hNode hStep =>
      constructor
      · intro gid' j nd'' hNode'
        rcases Cluster.node_of_after hNode' with
          ⟨rfl, rfl, rfl⟩ | ⟨hOld, _⟩
        · have hPoll := Poll.Moves.step hRegular hNode
            (hMoves.polls gid' j nd hNode) hStep
          exact hPoll.mono hExtends fun hDead => hDead
        · exact hKept gid' j nd'' hOld
      · intro deletion hMem
        rw [Cluster.after_deletes, List.mem_append] at hMem
        rcases hMem with hOld | hNew
        · exact hSent deletion hOld
        · rcases hStep.deletions_cases gid with
            hNone | ⟨latest, oldConfig, next, deletes,
              delete, hPoll, hDelete, _, hOne⟩
          · rw [hNone] at hNew
            cases hNew
          · rw [hOne] at hNew
            rw [List.mem_singleton.mp hNew]
            have hDeleting := hKept gid i nd hNode
            rw [hPoll] at hDeleting
            exact ⟨next, delete.shards, rfl,
              hDeleting delete hDelete⟩

theorem moves_of_reachable
    {ok : Cluster I → Action I → Prop}
    {c : Cluster I}
    (hReach : Cluster.system.Reachable ok c) :
    c.Moves := by
  refine System.Reachable.induct
    (P := fun c : Cluster I => c.Moves) ?_ ?_ hReach
  · intro c hInit
    have hEmpty : c = Cluster.empty := hInit
    subst hEmpty
    constructor
    · intro gid i nd hNode
      cases hNode
    · intro deletion hMem
      cases hMem
  · intro c action c' hReach hMoves _ hStep
    exact hMoves.step (regular_of_reachable hReach)
      (Cluster.step_cases hStep)

/-
  Whenever DeleteShards for a configuration and a shard has
  been sent, the log of the sender's group has an entry of
  ApplyMovement for them that was applied, with data from a
  reply without error of the group it was sent to.
-/
theorem deletes_after_movement
    {c : Cluster I}
    (hReach : Cluster.system.Reachable System.always c)
    {deletion : Deletion}
    (hSent : deletion ∈ c.deletes)
    {shards : Shard → Bool}
    {configNum : Int}
    (hArgs : deletion.request.args =
      .deleteShards shards configNum)
    {s : Shard}
    (hShard : shards s = true) :
    ∃ n op mp sessions config moved,
      (c.groups deletion.sender).log[n]? = some op ∧
      op.args =
        .applyMovement mp sessions config moved ∧
      config.num = configNum ∧
      moved s = true ∧
      (stateAt deletion.sender
          (c.groups deletion.sender).log n).stable (n + 1)
        op = false ∧
      ∃ record ∈ c.pulls,
        record.gid = deletion.target ∧
        record.args.shards = moved ∧
        record.args.configNum = configNum ∧
        record.reply.err = .ok ∧
        record.reply.mp = mp ∧
        record.reply.sessions = sessions := by
  rcases (moves_of_reachable hReach).deletes deletion hSent
    with ⟨next, moved, hDelete, n, op, mp, sessions, hAt, hOp,
      hStable, hReply⟩
  rw [hArgs] at hDelete
  cases hDelete
  exact ⟨n, op, mp, sessions, next, shards, hAt, hOp, rfl,
    hShard, hStable, hReply⟩

/- The shards that the second group to join gets. -/
def upperHalf (s : Shard) : Bool :=
  decide (5 ≤ s.val)

/- Group 1 joins and goes to the first configuration. -/
def firstGroup : List (Action Unit) :=
  [joins 1, .start 1 () (-1)] ++
    steps 1 ([.query true] ++ updates 0 ++ changes 1 ++
      [.next true])

/-
  Group 2 joins. Group 1, with `n` entries, goes to the second
  configuration; group 2 follows up to its pull.
-/
def secondGroup (n : Nat) : List (Action Unit) :=
  [joins 2] ++
    steps 1 ([.query true] ++ updates n ++
      [.wait true, .wait true] ++ changes (n + 1)) ++
    [.start 2 () (-2)] ++
    steps 2 ([.query true] ++ updates 0 ++ changes 1 ++
      updates 2)

/- Group 2 pulls its half, and applies it as entry 3. -/
def pullsHalf : List (Action Unit) :=
  steps 1 [.requestMapAndSession true ⟨upperHalf, 2⟩] ++
    steps 2 [.pullReply 0 0, .pullLock 0,
      .pullCall 0 (.enter true 3 (some 4)), .commit 3,
      .pullCall 0 .poll, .wait true]

/- One deletion was sent, by group 2 for shard 9. -/
def deletesNine (c : Cluster Unit) : Bool :=
  match c.deletes with
  | [deletion] =>
      match deletion.request.args with
      | .deleteShards shards configNum =>
          decide (deletion.sender = 2) &&
            decide (configNum = 2) &&
            shards ⟨9, by decide⟩
      | _ => false
  | _ => false

theorem deletes_after_movement_two :
    ∃ (c : Cluster Unit) (deletion : Deletion)
        (shards : Shard → Bool) (s : Shard),
      Cluster.system.Reachable System.always c ∧
      deletion ∈ c.deletes ∧
      deletion.request.args = .deleteShards shards 2 ∧
      shards s = true ∧
      deletion.sender = 2 ∧
      ∃ (n : Nat) (op : Op) (config : Config)
          (mp : String → Option String)
          (sessions : Sessions) (moved : Shard → Bool),
        (c.groups 2).log[n]? = some op ∧
        op.args = .applyMovement mp sessions config moved ∧
        config.num = 2 ∧
        moved s = true := by
  have hExec :
      (Cluster.system.exec
          (firstGroup ++ secondGroup 2 ++ pullsHalf ++
            steps 2 [.deleteSend 0])
          Cluster.empty).any deletesNine = true := by
    decide +kernel
  rcases Cluster.exists_reachable_of_exec hExec with
    ⟨c, hReach, hDeletes⟩
  unfold deletesNine at hDeletes
  split at hDeletes
  · next deletion hOne =>
      split at hDeletes
      · next shards configNum hArgs =>
          simp only [Bool.and_eq_true, decide_eq_true_eq]
            at hDeletes
          rcases hDeletes with ⟨⟨hSender, rfl⟩, hNine⟩
          have hMem : deletion ∈ c.deletes := by
            rw [hOne]
            exact List.mem_cons_self
          rcases deletes_after_movement hReach hMem hArgs
            hNine with ⟨n, op, mp, sessions, config, moved,
              hAt, hOp, hNum, hMoved, _⟩
          rw [hSender] at hAt
          exact ⟨c, deletion, shards, _, hReach, hMem, hArgs,
            hNine, hSender, n, op, config, mp, sessions,
            moved, hAt, hOp, hNum, hMoved⟩
      · cases hDeletes
  · cases hDeletes

end Shardkv

end RaftLab
