import RaftLab.Shardkv.ConfigChanges

/-
  The requests that servers make themselves.

  A server sends UpdateShardVec, ApplyMovement and ChangeConfig
  to its own group and DeleteShards to others, all under its
  uid and numbered from one counter. So the entries of a log
  with the uid of a running server of that group are its own
  ones, their numbers are below the counter, and those with
  the number of its present request have the same arguments.

  Main declarations:
    * `Shardkv.Request.Built`
    * `Shardkv.NodeStep.calls_cases`
    * `Shardkv.Cluster.Named`, `Shardkv.Cluster.Numbers`
    * `Shardkv.Cluster.Builds`
-/

------------------------------------------------------------
-- What A Step Does To The Requests
------------------------------------------------------------

namespace RaftLab

namespace Shardkv

open Shardctrler (Shard Config)

theorem NodeStep.uid_eq
    {w : World}
    {nd nd' : Node}
    {effects : List Effect}
    (hStep : NodeStep w nd nd' effects) :
    nd'.uid = nd.uid := by
  cases hStep with
  | _ => rfl

theorem NodeStep.localReqNum_le
    {w : World}
    {nd nd' : Node}
    {effects : List Effect}
    (hStep : NodeStep w nd nd' effects) :
    nd.localReqNum ≤ nd'.localReqNum := by
  cases hStep with
  | updating => exact Int.le_add_one (le_refl _)
  | pullLocked => exact Int.le_add_one (le_refl _)
  | deleteSent => exact Int.le_add_one (le_refl _)
  | committing => exact Int.le_add_one (le_refl _)
  | _ => exact le_refl _

/- The movements whose data has arrived. -/
def Poll.replies : Poll → List Args
| .moving _ _ next pulls _ =>
    pulls.filterMap fun pull =>
      match pull.state with
      | .replied mp sessions =>
          some (.applyMovement mp sessions next pull.shards)
      | _ => none
| _ => []

theorem Poll.mem_replies_moving
    {latest oldConfig next : Config}
    {pulls : List Pull}
    {fail : Bool}
    {args : Args} :
    args ∈ (Poll.moving latest oldConfig next pulls
        fail).replies ↔
      ∃ pull ∈ pulls, ∃ mp sessions,
        pull.state = .replied mp sessions ∧
        args = .applyMovement mp sessions next
          pull.shards := by
  unfold Poll.replies
  rw [List.mem_filterMap]
  constructor
  · rintro ⟨pull, hMem, hArgs⟩
    cases hState : pull.state with
    | replied mp sessions =>
        rw [hState] at hArgs
        cases hArgs
        exact ⟨pull, hMem, mp, sessions, hState, rfl⟩
    | _ =>
        rw [hState] at hArgs
        cases hArgs
  · rintro ⟨pull, hMem, mp, sessions, hState, rfl⟩
    refine ⟨pull, hMem, ?_⟩
    rw [hState]

/- One of the pulls goes on. -/
theorem Poll.mem_calls_set
    {latest oldConfig next : Config}
    {pulls : List Pull}
    (fail : Bool)
    {fail' : Bool}
    {k : Nat}
    {pull : Pull}
    {call : Call}
    (hMem : call ∈ (Poll.moving latest oldConfig next
      (pulls.set k pull) fail').calls) :
    call ∈ (Poll.moving latest oldConfig next pulls
        fail).calls ∨
      pull.state = .moving call := by
  rcases Poll.mem_calls_moving.mp hMem with
    ⟨pull', hPull', hState'⟩
  rcases List.mem_or_eq_of_mem_set hPull' with hOld | rfl
  · left
    exact Poll.mem_calls_moving.mpr ⟨pull', hOld, hState'⟩
  · right
    exact hState'

theorem Poll.mem_replies_set
    {latest oldConfig next : Config}
    {pulls : List Pull}
    {fail fail' : Bool}
    {k : Nat}
    {pull : Pull}
    {args : Args}
    (hMem : args ∈ (Poll.moving latest oldConfig next
      (pulls.set k pull) fail').replies) :
    args ∈ (Poll.moving latest oldConfig next pulls
        fail).replies ∨
      ∃ mp sessions,
        pull.state = .replied mp sessions ∧
        args = .applyMovement mp sessions next
          pull.shards := by
  rcases Poll.mem_replies_moving.mp hMem with
    ⟨pull', hPull', hReplied⟩
  rcases List.mem_or_eq_of_mem_set hPull' with hOld | rfl
  · left
    exact Poll.mem_replies_moving.mpr ⟨pull', hOld, hReplied⟩
  · right
    exact hReplied

/- The arguments of a new request of pollConfig. -/
def Poll.Makes (poll : Poll) (args : Args) : Prop :=
  (∃ configNum newVec,
    args = .updateShardVec configNum newVec) ∨
  (∃ config, args = .changeConfig config) ∨
  args ∈ poll.replies

/-
  The calls of pollConfig after a step: those from before, or
  a new one, which is then the only one.
-/
theorem NodeStep.calls_cases
    {w : World}
    {nd nd' : Node}
    {effects : List Effect}
    (hStep : NodeStep w nd nd' effects)
    {call' : Call}
    (hMem : call' ∈ nd'.poll.calls) :
    (nd'.localReqNum = nd.localReqNum ∧
      ∃ call ∈ nd.poll.calls, call.Goes effects call') ∨
    (nd'.localReqNum = nd.localReqNum + 1 ∧
      ∃ args,
        call' = Call.new (nd.ownRequest args) ∧
        nd.poll.Makes args ∧
        ∀ call ∈ nd'.poll.calls, call = call') := by
  cases hStep with
  | handlerStarted => exact .inl ⟨rfl, call', hMem, .inl rfl⟩
  | handlerReturned => exact .inl ⟨rfl, call', hMem, .inl rfl⟩
  | pulled => exact .inl ⟨rfl, call', hMem, .inl rfl⟩
  | updating latest next =>
      rw [List.mem_singleton.mp hMem]
      exact .inr ⟨rfl, _, rfl, .inl ⟨_, _, rfl⟩,
        fun call hCall => List.mem_singleton.mp hCall⟩
  | updateStarted latest next call number index hPoll =>
      rw [List.mem_singleton.mp hMem, hPoll]
      exact .inl ⟨rfl, call, List.mem_cons_self,
        .inr (.inr ⟨number, index, rfl, rfl⟩)⟩
  | updateRetried latest next call hPoll =>
      rw [List.mem_singleton.mp hMem, hPoll]
      exact .inl ⟨rfl, call, List.mem_cons_self,
        .inr (.inl rfl)⟩
  | moving latest next =>
      rcases Poll.mem_calls_moving.mp hMem with
        ⟨pull, hPull, hState⟩
      rw [(mem_newPulls hPull).1] at hState
      cases hState
  | pullReplied latest oldConfig next pulls fail k pull
      record hPoll =>
      rw [hPoll]
      rcases Poll.mem_calls_set fail hMem with hOld | hNew
      · exact .inl ⟨rfl, call', hOld, .inl rfl⟩
      · cases hNew
  | pullLocked latest oldConfig next pulls fail k pull mp
      sessions hPoll hPull hState hFree =>
      have hOnly : ∀ call,
          call ∈ (Poll.moving latest oldConfig next
            (pulls.set k { pull with
              state := .moving (Call.new (nd.ownRequest
                (.applyMovement mp sessions next
                  pull.shards))) }) fail).calls →
          call = Call.new (nd.ownRequest
            (.applyMovement mp sessions next
              pull.shards)) := by
        intro call hCall
        rcases Poll.mem_calls_set fail hCall with hOld | hNew
        · rcases Poll.mem_calls_moving.mp hOld with
            ⟨pull', hPull', hMoving⟩
          have hNot := hFree pull' hPull'
          rw [hMoving] at hNot
          cases hNot
        · cases hNew
          rfl
      rw [hPoll, hOnly call' hMem]
      refine .inr ⟨rfl, _, rfl, .inr (.inr ?_), hOnly⟩
      exact Poll.mem_replies_moving.mpr ⟨pull,
        List.mem_of_getElem? hPull, mp, sessions, hState,
        rfl⟩
  | pullStarted latest oldConfig next pulls fail k pull call
      number index hPoll hPull hState =>
      rw [hPoll]
      rcases Poll.mem_calls_set fail hMem with hOld | hNew
      · exact .inl ⟨rfl, call', hOld, .inl rfl⟩
      · cases hNew
        exact .inl ⟨rfl, call, Poll.mem_calls_moving.mpr
          ⟨pull, List.mem_of_getElem? hPull, hState⟩,
          .inr (.inr ⟨number, index, rfl, rfl⟩)⟩
  | pullRetried latest oldConfig next pulls fail k pull call
      hPoll hPull hState =>
      rw [hPoll]
      rcases Poll.mem_calls_set fail hMem with hOld | hNew
      · exact .inl ⟨rfl, call', hOld, .inl rfl⟩
      · cases hNew
        exact .inl ⟨rfl, call, Poll.mem_calls_moving.mpr
          ⟨pull, List.mem_of_getElem? hPull, hState⟩,
          .inr (.inl rfl)⟩
  | pullReturned latest oldConfig next pulls fail k pull call
      step reply moveOK hPoll =>
      rw [hPoll]
      rcases Poll.mem_calls_set fail hMem with hOld | hNew
      · exact .inl ⟨rfl, call', hOld, .inl rfl⟩
      · cases hNew
  | pullStopped latest oldConfig next pulls fail k pull
      hPoll =>
      rw [hPoll]
      rcases Poll.mem_calls_set fail hMem with hOld | hNew
      · exact .inl ⟨rfl, call', hOld, .inl rfl⟩
      · cases hNew
  | committing latest next =>
      rw [List.mem_singleton.mp hMem]
      exact .inr ⟨rfl, _, rfl, .inr (.inl ⟨_, rfl⟩),
        fun call hCall => List.mem_singleton.mp hCall⟩
  | commitStarted latest next call number index hPoll =>
      rw [List.mem_singleton.mp hMem, hPoll]
      exact .inl ⟨rfl, call, List.mem_cons_self,
        .inr (.inr ⟨number, index, rfl, rfl⟩)⟩
  | commitRetried latest next call hPoll =>
      rw [List.mem_singleton.mp hMem, hPoll]
      exact .inl ⟨rfl, call, List.mem_cons_self,
        .inr (.inl rfl)⟩
  | applied => exact .inl ⟨rfl, call', hMem, .inl rfl⟩
  | committed => exact .inl ⟨rfl, call', hMem, .inl rfl⟩
  | installed => exact .inl ⟨rfl, call', hMem, .inl rfl⟩
  | killed => exact .inl ⟨rfl, call', hMem, .inl rfl⟩
  | _ => cases hMem

/- The data of a movement came in a reply without error. -/
theorem NodeStep.replies_cases
    {w : World}
    {nd nd' : Node}
    {effects : List Effect}
    (hStep : NodeStep w nd nd' effects)
    {args : Args}
    (hMem : args ∈ nd'.poll.replies) :
    args ∈ nd.poll.replies ∨
      ∃ record ∈ w.pulls, ∃ next,
        record.reply.err = .ok ∧
        args = .applyMovement record.reply.mp
          record.reply.sessions next
          record.args.shards := by
  cases hStep with
  | handlerStarted => exact .inl hMem
  | handlerReturned => exact .inl hMem
  | pulled => exact .inl hMem
  | moving latest next =>
      rcases Poll.mem_replies_moving.mp hMem with
        ⟨pull, hPull, mp, sessions, hState, _⟩
      rw [(mem_newPulls hPull).1] at hState
      cases hState
  | pullReplied latest oldConfig next pulls fail k pull
      record hPoll hPull hState hKey hRecord hGid hShards
      hNum hOk =>
      rw [hPoll]
      rcases Poll.mem_replies_set hMem with
        hOld | ⟨mp, sessions, hNew, rfl⟩
      · exact .inl hOld
      · cases hNew
        refine .inr ⟨record, hRecord, next, hOk, ?_⟩
        rw [hShards]
  | pullLocked latest oldConfig next pulls fail k pull mp
      sessions hPoll =>
      rw [hPoll]
      rcases Poll.mem_replies_set hMem with
        hOld | ⟨_, _, hNew, _⟩
      · exact .inl hOld
      · cases hNew
  | pullStarted latest oldConfig next pulls fail k pull call
      number index hPoll =>
      rw [hPoll]
      rcases Poll.mem_replies_set hMem with
        hOld | ⟨_, _, hNew, _⟩
      · exact .inl hOld
      · cases hNew
  | pullRetried latest oldConfig next pulls fail k pull call
      hPoll =>
      rw [hPoll]
      rcases Poll.mem_replies_set hMem with
        hOld | ⟨_, _, hNew, _⟩
      · exact .inl hOld
      · cases hNew
  | pullReturned latest oldConfig next pulls fail k pull call
      step reply moveOK hPoll =>
      rw [hPoll]
      rcases Poll.mem_replies_set hMem with
        hOld | ⟨_, _, hNew, _⟩
      · exact .inl hOld
      · cases hNew
  | pullStopped latest oldConfig next pulls fail k pull
      hPoll =>
      rw [hPoll]
      rcases Poll.mem_replies_set hMem with
        hOld | ⟨_, _, hNew, _⟩
      · exact .inl hOld
      · cases hNew
  | applied => exact .inl hMem
  | committed => exact .inl hMem
  | installed => exact .inl hMem
  | killed => exact .inl hMem
  | _ => cases hMem

@[simp]
theorem pullsOf_answerOf
    (gid : Int)
    (request : Request)
    (reply : Option Reply) :
    pullsOf gid (answerOf request reply) = [] := by
  cases reply <;> rfl

/- A step answers at most one pull. -/
theorem NodeStep.pulls_cases
    {w : World}
    {nd nd' : Node}
    {effects : List Effect}
    (hStep : NodeStep w nd nd' effects)
    (gid : Int) :
    pullsOf gid effects = [] ∨
      ∃ isLeader args,
        pullsOf gid effects =
          [⟨gid, args,
            nd.kv.requestMapAndSession isLeader args⟩] := by
  cases hStep with
  | handlerReturned k call step reply hCall hReturned =>
      exact .inl (pullsOf_answerOf _ _ _)
  | pulled isLeader args => exact .inr ⟨isLeader, args, rfl⟩
  | _ => exact .inl rfl

------------------------------------------------------------
-- Uids
------------------------------------------------------------

variable {I : Type}

/- An id that no server of the group has. -/
def Cluster.Foreign
    (c : Cluster I)
    (gid id : Int) : Prop :=
  0 ≤ id ∨ ∃ sender, sender ≠ gid ∧ (id, sender) ∈ c.uids

/- Who uses which id. -/
structure Cluster.Named (c : Cluster I) : Prop where
  neg : ∀ entry ∈ c.uids, entry.1 < 0
  unique : ∀ uid gid gid',
    (uid, gid) ∈ c.uids →
    (uid, gid') ∈ c.uids →
    gid = gid'
  nodes : ∀ gid i nd,
    (c.groups gid).nodes i = some nd →
    (nd.uid, gid) ∈ c.uids
  distinct : ∀ gid i j nd nd',
    (c.groups gid).nodes i = some nd →
    (c.groups gid).nodes j = some nd' →
    nd.uid = nd'.uid →
    i = j
  calls : ∀ gid i nd call,
    (c.groups gid).nodes i = some nd →
    call ∈ nd.poll.calls →
    call.request.id = nd.uid
  deletes : ∀ deletion ∈ c.deletes,
    (deletion.request.id, deletion.sender) ∈ c.uids ∧
      deletion.sender ≠ deletion.target
  started : ∀ gid entry,
    entry ∈ (c.groups gid).started →
    c.Foreign gid entry.2.ckId ∨
      (entry.2.ckId, gid) ∈ c.uids

theorem Cluster.Foreign.mono
    {c c' : Cluster I}
    (hExtends : c.Extends c')
    {gid id : Int}
    (hForeign : c.Foreign gid id) :
    c'.Foreign gid id := by
  rcases hForeign with hClient | ⟨sender, hNe, hMem⟩
  · exact Or.inl hClient
  · exact Or.inr ⟨sender, hNe, hExtends.uids _ hMem⟩

theorem Cluster.Named.foreign
    {c : Cluster I}
    (hNamed : c.Named)
    {gid : Int}
    {request : Request}
    (hArrives : c.Arrives gid request) :
    c.Foreign gid request.id := by
  rcases hArrives with ⟨hClient, _⟩ | ⟨sender, hSent⟩
  · exact Or.inl hClient
  · rcases hNamed.deletes _ hSent with ⟨hId, hNe⟩
    exact Or.inr ⟨sender, hNe, hId⟩

/- A foreign id is not the uid of a server of the group. -/
theorem Cluster.Named.foreign_ne
    {c : Cluster I}
    (hNamed : c.Named)
    {gid : Int}
    {i : I}
    {nd : Node}
    (hNode : (c.groups gid).nodes i = some nd)
    {id : Int}
    (hForeign : c.Foreign gid id) :
    id ≠ nd.uid := by
  have hMem := hNamed.nodes gid i nd hNode
  rintro rfl
  rcases hForeign with hClient | ⟨sender, hNe, hMem'⟩
  · have hNeg := hNamed.neg _ hMem
    dsimp only at hNeg
    omega
  · exact hNe (hNamed.unique _ _ _ hMem' hMem)

variable [DecidableEq I]

/- A server has taken a step. -/
theorem Cluster.Named.after
    {c : Cluster I}
    (hNamed : c.Named)
    {gid : Int}
    {i : I}
    {nd nd' : Node}
    {effects : List Effect}
    (hNode : (c.groups gid).nodes i = some nd)
    (hUid : nd'.uid = nd.uid)
    (hCalls : ∀ call ∈ nd'.poll.calls,
      call.request.id = nd'.uid)
    (hStarts : ∀ entry ∈ startsOf effects,
      c.Foreign gid entry.2.ckId ∨ entry.2.ckId = nd.uid)
    (hDeletes : ∀ deletion ∈ deletionsOf gid effects,
      deletion.request.id = nd.uid ∧
        deletion.sender = gid ∧ gid ≠ deletion.target) :
    (c.after gid i nd' effects).Named := by
  have hExtends := c.extends_after gid i nd' effects
  constructor
  · exact hNamed.neg
  · exact hNamed.unique
  · intro gid' j nd'' hNode'
    rcases Cluster.node_of_after hNode' with
      ⟨rfl, rfl, rfl⟩ | ⟨hOld, _⟩
    · rw [hUid]
      exact hNamed.nodes gid' j nd hNode
    · exact hNamed.nodes gid' j nd'' hOld
  · intro gid' j k nd₁ nd₂ hNode₁ hNode₂ hSame
    rcases Cluster.node_of_after hNode₁ with
      ⟨rfl, rfl, rfl⟩ | ⟨hOld₁, hNe₁⟩
    · rcases Cluster.node_of_after hNode₂ with
        ⟨_, rfl, rfl⟩ | ⟨hOld₂, hNe₂⟩
      · rfl
      · rw [hUid] at hSame
        exact hNamed.distinct gid' j k nd nd₂ hNode hOld₂
          hSame
    · rcases Cluster.node_of_after hNode₂ with
        ⟨rfl, rfl, rfl⟩ | ⟨hOld₂, hNe₂⟩
      · rw [hUid] at hSame
        exact hNamed.distinct gid' j k nd₁ nd hOld₁ hNode
          hSame
      · exact hNamed.distinct gid' j k nd₁ nd₂ hOld₁ hOld₂
          hSame
  · intro gid' j nd'' call hNode' hMem
    rcases Cluster.node_of_after hNode' with
      ⟨rfl, rfl, rfl⟩ | ⟨hOld, _⟩
    · exact hCalls call hMem
    · exact hNamed.calls gid' j nd'' call hOld hMem
  · intro deletion hMem
    rw [Cluster.after_deletes, List.mem_append] at hMem
    rcases hMem with hOld | hNew
    · exact hNamed.deletes deletion hOld
    · rcases hDeletes deletion hNew with
        ⟨hId, hSender, hNe⟩
      rw [hId, hSender]
      exact ⟨hNamed.nodes gid i nd hNode, hNe⟩
  · intro gid' entry hMem
    rcases Cluster.mem_after_started.mp hMem with
      hOld | ⟨rfl, hNew⟩
    · exact (hNamed.started gid' entry hOld).imp
        (fun hForeign => hForeign.mono hExtends)
        fun hMem => hMem
    · rcases hStarts entry hNew with hForeign | hOwn
      · exact Or.inl (hForeign.mono hExtends)
      · right
        rw [hOwn]
        exact hNamed.nodes gid' i nd hNode

/- A server starts with a new uid. -/
theorem Cluster.Named.start
    {c : Cluster I}
    (hNamed : c.Named)
    {gid uid : Int}
    (i : I)
    (hNeg : uid < 0)
    (hFresh : ∀ entry ∈ c.uids, entry.1 ≠ uid) :
    Cluster.Named
      { c.after gid i (Node.start gid uid) [] with
        uids := c.uids ++ [(uid, gid)] } := by
  have hExtends := c.extends_start gid i
    (Node.start gid uid) uid
  constructor
  · intro entry hMem
    rcases List.mem_append.mp hMem with hOld | hNew
    · exact hNamed.neg entry hOld
    · rw [List.mem_singleton.mp hNew]
      exact hNeg
  · intro uid' gid₁ gid₂ hMem₁ hMem₂
    rcases List.mem_append.mp hMem₁ with hOld₁ | hNew₁
    · rcases List.mem_append.mp hMem₂ with hOld₂ | hNew₂
      · exact hNamed.unique uid' gid₁ gid₂ hOld₁ hOld₂
      · cases List.mem_singleton.mp hNew₂
        exact absurd rfl (hFresh _ hOld₁)
    · cases List.mem_singleton.mp hNew₁
      rcases List.mem_append.mp hMem₂ with hOld₂ | hNew₂
      · exact absurd rfl (hFresh _ hOld₂)
      · cases List.mem_singleton.mp hNew₂
        rfl
  · intro gid' j nd hNode
    rcases Cluster.node_of_after hNode with
      ⟨rfl, rfl, rfl⟩ | ⟨hOld, _⟩
    · exact List.mem_append_right _ List.mem_cons_self
    · exact List.mem_append_left _
        (hNamed.nodes gid' j nd hOld)
  · intro gid' j k nd₁ nd₂ hNode₁ hNode₂ hSame
    rcases Cluster.node_of_after hNode₁ with
      ⟨rfl, rfl, rfl⟩ | ⟨hOld₁, _⟩
    · rcases Cluster.node_of_after hNode₂ with
        ⟨_, rfl, rfl⟩ | ⟨hOld₂, _⟩
      · rfl
      · have hMem := hNamed.nodes gid' k nd₂ hOld₂
        exact absurd hSame.symm (hFresh _ hMem)
    · rcases Cluster.node_of_after hNode₂ with
        ⟨rfl, rfl, rfl⟩ | ⟨hOld₂, _⟩
      · have hMem := hNamed.nodes gid' j nd₁ hOld₁
        exact absurd hSame (hFresh _ hMem)
      · exact hNamed.distinct gid' j k nd₁ nd₂ hOld₁ hOld₂
          hSame
  · intro gid' j nd call hNode hMem
    rcases Cluster.node_of_after hNode with
      ⟨rfl, rfl, rfl⟩ | ⟨hOld, _⟩
    · cases hMem
    · exact hNamed.calls gid' j nd call hOld hMem
  · intro deletion hMem
    change deletion ∈ c.deletes ++ [] at hMem
    rw [List.append_nil] at hMem
    rcases hNamed.deletes deletion hMem with ⟨hId, hNe⟩
    exact ⟨List.mem_append_left _ hId, hNe⟩
  · intro gid' entry hMem
    have hOld := Cluster.mem_after_nil_started.mp hMem
    rcases hNamed.started gid' entry hOld with
      hForeign | hOwn
    · exact Or.inl (hForeign.mono hExtends)
    · exact Or.inr (List.mem_append_left _ hOwn)

theorem Cluster.Named.step
    {c c' : Cluster I}
    (hNamed : c.Named)
    (hPlans : c.Plans)
    (hReceives : c.Receives)
    (hStep : ClusterStep c c') :
    c'.Named := by
  cases hStep with
  | control op configs hApply =>
      exact ⟨hNamed.neg, hNamed.unique, hNamed.nodes,
        hNamed.distinct, hNamed.calls, hNamed.deletes,
        hNamed.started⟩
  | start gid i uid hGid hNeg hFresh =>
      exact hNamed.start i hNeg hFresh
  | receive gid i nd request hNode hArrives =>
      apply hNamed.after hNode
      · rfl
      · intro call hMem
        exact hNamed.calls gid i nd call hNode hMem
      · intro entry hMem
        cases hMem
      · intro deletion hMem
        cases hMem
  | node gid i nd nd' effects hNode hStep =>
      apply hNamed.after hNode hStep.uid_eq
      · intro call hMem
        rw [hStep.uid_eq]
        rcases hStep.calls_cases hMem with
          ⟨_, call', hMem', hGoes⟩ | ⟨_, args, hNew, _⟩
        · rw [hGoes.request]
          exact hNamed.calls gid i nd call' hNode hMem'
        · rw [hNew]
          rfl
      · intro entry hMem
        rcases hStep.starts_cases with
          hNone | ⟨call, number, index, hCall, _, _, hOne⟩
        · rw [hNone] at hMem
          cases hMem
        · rw [hOne] at hMem
          rw [List.mem_singleton.mp hMem]
          rcases hCall with hHandler | hPoll
          · left
            exact hNamed.foreign
              (hReceives gid i nd call hNode hHandler)
          · right
            exact hNamed.calls gid i nd call hNode hPoll
      · intro deletion hMem
        rcases hStep.deletions_cases gid with
          hNone | ⟨latest, oldConfig, next, deletes, delete,
            hPoll, hDelete, _, hOne⟩
        · rw [hNone] at hMem
          cases hMem
        · rw [hOne] at hMem
          rw [List.mem_singleton.mp hMem]
          have hPlanned := hPlans.polls gid i nd hNode
          rw [hPoll] at hPlanned
          have hNe := (hPlanned.2.2 delete hDelete).2
          exact ⟨rfl, rfl, hNe.symm⟩

theorem named_of_reachable
    {ok : Cluster I → Action I → Prop}
    {c : Cluster I}
    (hReach : Cluster.system.Reachable ok c) :
    c.Named := by
  refine System.Reachable.induct
    (P := fun c : Cluster I => c.Named) ?_ ?_ hReach
  · intro c hInit
    have hEmpty : c = Cluster.empty := hInit
    subst hEmpty
    constructor
    · intro entry hMem
      cases hMem
    · intro uid gid gid' hMem
      cases hMem
    · intro gid i nd hNode
      cases hNode
    · intro gid i j nd nd' hNode
      cases hNode
    · intro gid i nd call hNode
      cases hNode
    · intro deletion hMem
      cases hMem
    · intro gid entry hMem
      cases hMem
  · intro c action c' hReach hNamed _ hStep
    exact hNamed.step (plans_of_reachable hReach)
      (receives_of_reachable hReach)
      (Cluster.step_cases hStep)

------------------------------------------------------------
-- Numbers
------------------------------------------------------------

/- The numbers that servers give to their own requests. -/
structure Cluster.Numbers (c : Cluster I) : Prop where
  entries : ∀ gid i nd entry,
    (c.groups gid).nodes i = some nd →
    entry ∈ (c.groups gid).started →
    entry.2.ckId = nd.uid →
    entry.2.reqNum < nd.localReqNum
  calls : ∀ gid i nd call,
    (c.groups gid).nodes i = some nd →
    call ∈ nd.poll.calls →
    call.request.reqNum + 1 = nd.localReqNum
  one : ∀ gid i nd call call',
    (c.groups gid).nodes i = some nd →
    call ∈ nd.poll.calls →
    call' ∈ nd.poll.calls →
    call.request = call'.request
  same : ∀ gid i nd call entry,
    (c.groups gid).nodes i = some nd →
    call ∈ nd.poll.calls →
    entry ∈ (c.groups gid).started →
    entry.2.ckId = nd.uid →
    entry.2.reqNum = call.request.reqNum →
    entry.2.args = call.request.args

/- A step that leaves the requests of its node alone. -/
theorem Cluster.Numbers.quiet
    {c : Cluster I}
    (hNumbers : c.Numbers)
    {gid : Int}
    {i : I}
    {nd : Node}
    (hEntries : ∀ entry ∈ (c.groups gid).started,
      entry.2.ckId = nd.uid →
      entry.2.reqNum < nd.localReqNum)
    (hCalls : nd.poll.calls = [] ∨
      ∃ old, (c.groups gid).nodes i = some old ∧
        nd.poll = old.poll ∧ nd.uid = old.uid ∧
        nd.localReqNum = old.localReqNum) :
    (c.after gid i nd []).Numbers := by
  constructor
  · intro gid' j nd' entry hNode hMem hId
    rw [Cluster.mem_after_nil_started] at hMem
    rcases Cluster.node_of_after hNode with
      ⟨rfl, rfl, rfl⟩ | ⟨hOld, _⟩
    · exact hEntries entry hMem hId
    · exact hNumbers.entries gid' j nd' entry hOld hMem hId
  · intro gid' j nd' call hNode hMem
    rcases Cluster.node_of_after hNode with
      ⟨rfl, rfl, rfl⟩ | ⟨hOld, _⟩
    · rcases hCalls with hNil | ⟨old, hOld, hPoll, _, hNum⟩
      · rw [hNil] at hMem
        cases hMem
      · rw [hPoll] at hMem
        rw [hNum]
        exact hNumbers.calls gid' j old call hOld hMem
    · exact hNumbers.calls gid' j nd' call hOld hMem
  · intro gid' j nd' call call' hNode hMem hMem'
    rcases Cluster.node_of_after hNode with
      ⟨rfl, rfl, rfl⟩ | ⟨hOld, _⟩
    · rcases hCalls with hNil | ⟨old, hOld, hPoll, _, _⟩
      · rw [hNil] at hMem
        cases hMem
      · rw [hPoll] at hMem hMem'
        exact hNumbers.one gid' j old call call' hOld hMem
          hMem'
    · exact hNumbers.one gid' j nd' call call' hOld hMem
        hMem'
  · intro gid' j nd' call entry hNode hMem hEntry hId hNum
    rw [Cluster.mem_after_nil_started] at hEntry
    rcases Cluster.node_of_after hNode with
      ⟨rfl, rfl, rfl⟩ | ⟨hOld, _⟩
    · rcases hCalls with hNil | ⟨old, hOld, hPoll, hUid, _⟩
      · rw [hNil] at hMem
        cases hMem
      · rw [hPoll] at hMem
        rw [hUid] at hId
        exact hNumbers.same gid' j old call entry hOld hMem
          hEntry hId hNum
    · exact hNumbers.same gid' j nd' call entry hOld hMem
        hEntry hId hNum

/-
  The entry that a step of a node starts, if it carries the
  uid of a running server, is for the present request of the
  node itself.
-/
omit [DecidableEq I] in
theorem Cluster.Named.start_own
    {c : Cluster I}
    (hNamed : c.Named)
    (hReceives : c.Receives)
    {gid : Int}
    {i j : I}
    {nd nd' nd'' : Node}
    {effects : List Effect}
    (hNode : (c.groups gid).nodes i = some nd)
    (hStep : NodeStep (c.world gid) nd nd' effects)
    {entry : Nat × Op}
    (hMem : entry ∈ startsOf effects)
    (hOther : (c.groups gid).nodes j = some nd'')
    (hId : entry.2.ckId = nd''.uid) :
    j = i ∧
      ∃ call ∈ nd.poll.calls,
        entry.2.reqNum = call.request.reqNum ∧
        entry.2.args = call.request.args := by
  rcases hStep.starts_cases with
    hNone | ⟨call, number, index, hCall, _, _, hOne⟩
  · rw [hNone] at hMem
    cases hMem
  · rw [hOne] at hMem
    rw [List.mem_singleton.mp hMem] at hId ⊢
    rcases hCall with hHandler | hPoll
    · have hForeign := hNamed.foreign
        (hReceives gid i nd call hNode hHandler)
      exact absurd hId (hNamed.foreign_ne hOther hForeign)
    · have hUid := hNamed.calls gid i nd call hNode hPoll
      have hSame : nd.uid = nd''.uid := hUid.symm.trans hId
      have hI := hNamed.distinct gid i j nd nd'' hNode hOther
        hSame
      exact ⟨hI.symm, call, hPoll, rfl, rfl⟩

theorem Cluster.Numbers.node
    {c : Cluster I}
    (hNumbers : c.Numbers)
    (hNamed : c.Named)
    (hReceives : c.Receives)
    {gid : Int}
    {i : I}
    {nd nd' : Node}
    {effects : List Effect}
    (hNode : (c.groups gid).nodes i = some nd)
    (hStep : NodeStep (c.world gid) nd nd' effects) :
    (c.after gid i nd' effects).Numbers := by
  have hUid := hStep.uid_eq
  have hLe := hStep.localReqNum_le
  constructor
  · intro gid' j nd'' entry hNode' hMem hId
    rcases Cluster.mem_after_started.mp hMem with
      hOldEntry | ⟨rfl, hNew⟩
    · rcases Cluster.node_of_after hNode' with
        ⟨rfl, rfl, rfl⟩ | ⟨hOld, _⟩
      · rw [hUid] at hId
        have hLt := hNumbers.entries gid' j nd entry hNode
          hOldEntry hId
        omega
      · exact hNumbers.entries gid' j nd'' entry hOld
          hOldEntry hId
    · rcases Cluster.node_of_after hNode' with
        ⟨_, rfl, rfl⟩ | ⟨hOld, hNe⟩
      · rw [hUid] at hId
        rcases hNamed.start_own hReceives hNode hStep hNew hNode hId
          with ⟨_, call, hCall, hNum, _⟩
        have hCallNum := hNumbers.calls gid' j nd call hNode
          hCall
        omega
      · rcases hNamed.start_own hReceives hNode hStep hNew hOld hId with
          ⟨hI, _⟩
        exact absurd ⟨rfl, hI⟩ hNe
  · intro gid' j nd'' call hNode' hMem
    rcases Cluster.node_of_after hNode' with
      ⟨rfl, rfl, rfl⟩ | ⟨hOld, _⟩
    · rcases hStep.calls_cases hMem with
        ⟨hNum, call', hMem', hGoes⟩ | ⟨hNum, args, hNew, _⟩
      · rw [hGoes.request, hNum]
        exact hNumbers.calls gid' j nd call' hNode hMem'
      · rw [hNew, hNum]
        rfl
    · exact hNumbers.calls gid' j nd'' call hOld hMem
  · intro gid' j nd'' call call' hNode' hMem hMem'
    rcases Cluster.node_of_after hNode' with
      ⟨rfl, rfl, rfl⟩ | ⟨hOld, _⟩
    · rcases hStep.calls_cases hMem with
        ⟨hNum, old, hOldMem, hGoes⟩ | ⟨_, _, _, _, hOnly⟩
      · rcases hStep.calls_cases hMem' with
          ⟨_, old', hOldMem', hGoes'⟩ | ⟨hNum', _⟩
        · rw [hGoes.request, hGoes'.request]
          exact hNumbers.one gid' j nd old old' hNode hOldMem
            hOldMem'
        · omega
      · rw [hOnly call' hMem']
    · exact hNumbers.one gid' j nd'' call call' hOld hMem
        hMem'
  · intro gid' j nd'' call entry hNode' hMem hEntry hId hNum
    rcases Cluster.mem_after_started.mp hEntry with
      hOldEntry | ⟨rfl, hNew⟩
    · rcases Cluster.node_of_after hNode' with
        ⟨rfl, rfl, rfl⟩ | ⟨hOld, _⟩
      · rw [hUid] at hId
        rcases hStep.calls_cases hMem with
          ⟨_, call', hMem', hGoes⟩ | ⟨_, args, hOwn, _⟩
        · rw [hGoes.request] at hNum ⊢
          exact hNumbers.same gid' j nd call' entry hNode
            hMem' hOldEntry hId hNum
        · -- A new request has a number that no entry has.
          have hLt := hNumbers.entries gid' j nd entry hNode
            hOldEntry hId
          rw [hNum, hOwn] at hLt
          exact absurd hLt (Int.lt_irrefl _)
      · exact hNumbers.same gid' j nd'' call entry hOld hMem
          hOldEntry hId hNum
    · rcases Cluster.node_of_after hNode' with
        ⟨_, rfl, rfl⟩ | ⟨hOld, hNe⟩
      · rw [hUid] at hId
        rcases hNamed.start_own hReceives hNode hStep hNew hNode hId
          with ⟨_, call', hCall', hNum', hArgs'⟩
        rcases hStep.calls_cases hMem with
          ⟨_, old, hOldMem, hGoes⟩ | ⟨_, args, hOwn, _⟩
        · rw [hArgs', hGoes.request, hNumbers.one gid' j nd call' old
            hNode hCall' hOldMem]
        · have hCallNum := hNumbers.calls gid' j nd call'
            hNode hCall'
          rw [hNum', hOwn] at hNum
          change call'.request.reqNum = nd.localReqNum at hNum
          omega
      · rcases hNamed.start_own hReceives hNode hStep hNew hOld hId with
          ⟨hI, _⟩
        exact absurd ⟨rfl, hI⟩ hNe

theorem Cluster.Numbers.step
    {c c' : Cluster I}
    (hNumbers : c.Numbers)
    (hNamed : c.Named)
    (hReceives : c.Receives)
    (hStep : ClusterStep c c') :
    c'.Numbers := by
  cases hStep with
  | control op configs hApply =>
      exact ⟨hNumbers.entries, hNumbers.calls, hNumbers.one,
        hNumbers.same⟩
  | start gid i uid hGid hNeg hFresh =>
      have hQuiet : (c.after gid i (Node.start gid uid)
          []).Numbers := by
        apply hNumbers.quiet
        · intro entry hMem hId
          change entry.2.ckId = uid at hId
          exfalso
          rcases hNamed.started gid entry hMem with
            hForeign | hOwn
          · rcases hForeign with hClient | ⟨_, _, hMem'⟩
            · omega
            · exact hFresh _ hMem' hId
          · exact hFresh _ hOwn hId
        · exact Or.inl rfl
      exact ⟨hQuiet.entries, hQuiet.calls, hQuiet.one,
        hQuiet.same⟩
  | receive gid i nd request hNode hArrives =>
      apply hNumbers.quiet
      · intro entry hMem hId
        exact hNumbers.entries gid i nd entry hNode hMem hId
      · exact Or.inr ⟨nd, hNode, rfl, rfl, rfl⟩
  | node gid i nd nd' effects hNode hStep =>
      exact hNumbers.node hNamed hReceives hNode hStep

theorem numbers_of_reachable
    {ok : Cluster I → Action I → Prop}
    {c : Cluster I}
    (hReach : Cluster.system.Reachable ok c) :
    c.Numbers := by
  refine System.Reachable.induct
    (P := fun c : Cluster I => c.Numbers) ?_ ?_ hReach
  · intro c hInit
    have hEmpty : c = Cluster.empty := hInit
    subst hEmpty
    constructor
    · intro gid i nd entry hNode
      cases hNode
    · intro gid i nd call hNode
      cases hNode
    · intro gid i nd call call' hNode
      cases hNode
    · intro gid i nd call entry hNode
      cases hNode
  · intro c action c' hReach hNumbers _ hStep
    exact hNumbers.step (named_of_reachable hReach)
      (receives_of_reachable hReach)
      (Cluster.step_cases hStep)

end Shardkv

end RaftLab
