import RaftLab.Shardkv.OwnRequests

/-
  Where entries, movements and sessions come from.

  Every entry that a server hands to Raft is as handleNormalRPC
  builds it: the operations of clients carry the ids of
  clients, and a movement holds pairs and sessions of clients
  of the shards it names. So the session of a server itself
  comes from an entry of the log, and the first entry of each
  of its requests is applied.

  Main declarations:
    * `Shardkv.Request.Built`, `Shardkv.Cluster.Builds`
    * `Shardkv.builds_of_reachable`
    * `Shardkv.session_origin`
    * `Shardkv.exists_first_entry`
-/

------------------------------------------------------------
-- Requests As They Are Built
------------------------------------------------------------

namespace RaftLab

namespace Shardkv

open Shardctrler (Shard Config)

structure Request.Built (request : Request) : Prop where
  id : 0 ≤ request.id ↔ request.args.ofClient = true
  collected : request.args.Collected

theorem Request.Built.op
    {request : Request}
    (hBuilt : request.Built)
    (number : Int) :
    (request.op number).Built where
  shardNum := rfl
  ckId := hBuilt.id
  collected := hBuilt.collected

theorem Request.Built.of_not_client
    {request : Request}
    (hNeg : request.id < 0)
    (hArgs : request.args.ofClient = false)
    (hCollected : request.args.Collected) :
    request.Built where
  id := by
    rw [hArgs]
    constructor
    · intro hNonneg
      omega
    · intro hFalse
      cases hFalse
  collected := hCollected

/- The arguments of what a server sends to its own group. -/
def Args.own : Args → Bool
| .updateShardVec _ _ => true
| .changeConfig _ => true
| .applyMovement _ _ _ _ => true
| _ => false

theorem Args.ofClient_of_own
    {args : Args}
    (hOwn : args.own = true) :
    args.ofClient = false := by
  cases args with
  | updateShardVec configNum newVec => rfl
  | changeConfig config => rfl
  | applyMovement mp sessions config shards => rfl
  | _ => cases hOwn

theorem Poll.Makes.own
    {poll : Poll}
    {args : Args}
    (hMakes : poll.Makes args) :
    args.own = true := by
  rcases hMakes with ⟨_, _, rfl⟩ | ⟨_, rfl⟩ | hReply
  · rfl
  · rfl
  · cases poll with
    | moving latest oldConfig next pulls fail =>
        rcases Poll.mem_replies_moving.mp hReply with
          ⟨_, _, _, _, _, rfl⟩
        rfl
    | _ => cases hReply

/- The data of a reply is a movement for its shards. -/
def PullRecord.Collects (record : PullRecord) : Prop :=
  ∀ config,
    (Args.applyMovement record.reply.mp
      record.reply.sessions config
      record.args.shards).Collected

theorem ShardKV.requestMapAndSession_collects
    {kv : ShardKV}
    (hKeyed : SessionsKeyed kv.ckSessions)
    {isLeader : Bool}
    {args : RequestMapAndSessionArgs}
    (hOk : (kv.requestMapAndSession isLeader args).err =
      .ok)
    (gid : Int) :
    PullRecord.Collects ⟨gid, args,
      kv.requestMapAndSession isLeader args⟩ := by
  rcases ShardKV.requestMapAndSession_ok hOk with
    ⟨_, hMp, hSessions⟩
  intro config
  constructor
  · intro key value hValue
    dsimp only at hValue
    rw [hMp] at hValue
    split at hValue
    · next hAsked => exact hAsked
    · cases hValue
  · intro key session hSession
    rcases (hSessions key session).mp hSession with
      ⟨hOld, hClient, hAsked⟩
    refine ⟨hAsked, ?_⟩
    rcases hKeyed key session hOld with ⟨ckId, rfl⟩
    rw [ofClient_uniKey] at hClient
    exact ⟨ckId, of_decide_eq_true hClient, rfl⟩

------------------------------------------------------------
-- Clusters
------------------------------------------------------------

variable {I : Type}

structure Cluster.Builds (c : Cluster I) : Prop where
  started : ∀ gid entry,
    entry ∈ (c.groups gid).started →
    entry.2.Built
  calls : ∀ gid i nd call,
    (c.groups gid).nodes i = some nd →
    call ∈ nd.poll.calls →
    call.request.Built ∧ call.request.args.own = true
  replies : ∀ gid i nd args,
    (c.groups gid).nodes i = some nd →
    args ∈ nd.poll.replies →
    args.Collected
  deletes : ∀ deletion ∈ c.deletes, deletion.request.Built
  pulls : ∀ record ∈ c.pulls,
    record.reply.err = .ok →
    record.Collects

theorem Cluster.Builds.arrives
    {c : Cluster I}
    (hBuilds : c.Builds)
    {gid : Int}
    {request : Request}
    (hArrives : c.Arrives gid request) :
    request.Built := by
  rcases hArrives with ⟨hId, hClient⟩ | ⟨sender, hSent⟩
  · refine ⟨⟨fun _ => hClient, fun _ => hId⟩, ?_⟩
    cases hArgs : request.args with
    | applyMovement mp sessions config shards =>
        rw [hArgs] at hClient
        cases hClient
    | _ => exact trivial
  · exact hBuilds.deletes _ hSent

theorem Cluster.Builds.log
    {c : Cluster I}
    (hBuilds : c.Builds)
    (hDelivers : c.Delivers)
    (gid : Int) :
    ∀ op ∈ (c.groups gid).log, op.Built := by
  intro op hMem
  rcases List.mem_iff_getElem?.mp hMem with ⟨j, hAt⟩
  exact hBuilds.started gid _
    (hDelivers.log_started gid j op hAt)

/- The sessions of a server lie at their keys. -/
theorem Cluster.Builds.keyed
    {c : Cluster I}
    (hBuilds : c.Builds)
    (hDelivers : c.Delivers)
    {gid : Int}
    {i : I}
    {nd : Node}
    (hNode : (c.groups gid).nodes i = some nd) :
    SessionsKeyed nd.kv.ckSessions := by
  have hState := (hDelivers.follows gid i nd hNode).state
  rw [hState.ckSessions]
  exact stateAt_keyed gid (hBuilds.log hDelivers gid) _

/- The new requests of pollConfig. -/
theorem Cluster.Builds.makes
    {c : Cluster I}
    (hBuilds : c.Builds)
    (hNamed : c.Named)
    {gid : Int}
    {i : I}
    {nd : Node}
    (hNode : (c.groups gid).nodes i = some nd)
    {args : Args}
    (hMakes : nd.poll.Makes args) :
    (nd.ownRequest args).Built := by
  apply Request.Built.of_not_client
  · exact hNamed.neg _ (hNamed.nodes gid i nd hNode)
  · exact Args.ofClient_of_own hMakes.own
  · rcases hMakes with ⟨_, _, rfl⟩ | ⟨_, rfl⟩ | hReply
    · exact trivial
    · exact trivial
    · exact hBuilds.replies gid i nd args hNode hReply

variable [DecidableEq I]

theorem Cluster.Builds.node
    {c : Cluster I}
    (hBuilds : c.Builds)
    (hDelivers : c.Delivers)
    (hReceives : c.Receives)
    (hNamed : c.Named)
    {gid : Int}
    {i : I}
    {nd nd' : Node}
    {effects : List Effect}
    (hNode : (c.groups gid).nodes i = some nd)
    (hStep : NodeStep (c.world gid) nd nd' effects) :
    (c.after gid i nd' effects).Builds := by
  constructor
  · intro gid' entry hMem
    rcases Cluster.mem_after_started.mp hMem with
      hOld | ⟨rfl, hNew⟩
    · exact hBuilds.started gid' entry hOld
    · rcases hStep.starts_cases with
        hNone | ⟨call, number, index, hCall, _, _, hOne⟩
      · rw [hNone] at hNew
        cases hNew
      · rw [hOne] at hNew
        rw [List.mem_singleton.mp hNew]
        apply Request.Built.op
        rcases hCall with hHandler | hPoll
        · exact hBuilds.arrives
            (hReceives gid' i nd call hNode hHandler)
        · exact (hBuilds.calls gid' i nd call hNode hPoll).1
  · intro gid' j nd'' call hNode' hMem
    rcases Cluster.node_of_after hNode' with
      ⟨rfl, rfl, rfl⟩ | ⟨hOld, _⟩
    · rcases hStep.calls_cases hMem with
        ⟨_, call', hMem', hGoes⟩ |
        ⟨_, args, hNew, hMakes, _⟩
      · rw [hGoes.request]
        exact hBuilds.calls gid' j nd call' hNode hMem'
      · rw [hNew]
        exact ⟨hBuilds.makes hNamed hNode hMakes, hMakes.own⟩
    · exact hBuilds.calls gid' j nd'' call hOld hMem
  · intro gid' j nd'' args hNode' hMem
    rcases Cluster.node_of_after hNode' with
      ⟨rfl, rfl, rfl⟩ | ⟨hOld, _⟩
    · rcases hStep.replies_cases hMem with
        hOld | ⟨record, hRecord, next, hOk, rfl⟩
      · exact hBuilds.replies gid' j nd args hNode hOld
      · exact hBuilds.pulls record hRecord hOk next
    · exact hBuilds.replies gid' j nd'' args hOld hMem
  · intro deletion hMem
    rw [Cluster.after_deletes, List.mem_append] at hMem
    rcases hMem with hOld | hNew
    · exact hBuilds.deletes deletion hOld
    · rcases hStep.deletions_cases gid with
        hNone | ⟨_, _, next, _, delete, _, _, _, hOne⟩
      · rw [hNone] at hNew
        cases hNew
      · rw [hOne] at hNew
        rw [List.mem_singleton.mp hNew]
        have hNeg := hNamed.neg _
          (hNamed.nodes gid i nd hNode)
        exact Request.Built.of_not_client hNeg rfl trivial
  · intro record hMem hOk
    rw [Cluster.after_pulls, List.mem_append] at hMem
    rcases hMem with hOld | hNew
    · exact hBuilds.pulls record hOld hOk
    · rcases hStep.pulls_cases gid with
        hNone | ⟨isLeader, args, hOne⟩
      · rw [hNone] at hNew
        cases hNew
      · rw [hOne] at hNew
        rw [List.mem_singleton.mp hNew] at hOk ⊢
        exact ShardKV.requestMapAndSession_collects
          (hBuilds.keyed hDelivers hNode) hOk gid

/- A step that only replaces one node. -/
theorem Cluster.Builds.quiet
    {c : Cluster I}
    (hBuilds : c.Builds)
    {gid : Int}
    {i : I}
    {nd : Node}
    (hCalls : ∀ call ∈ nd.poll.calls,
      call.request.Built ∧ call.request.args.own = true)
    (hReplies : ∀ args ∈ nd.poll.replies, args.Collected) :
    (c.after gid i nd []).Builds := by
  constructor
  · intro gid' entry hMem
    rw [Cluster.mem_after_nil_started] at hMem
    exact hBuilds.started gid' entry hMem
  · intro gid' j nd' call hNode hMem
    rcases Cluster.node_of_after hNode with
      ⟨rfl, rfl, rfl⟩ | ⟨hOld, _⟩
    · exact hCalls call hMem
    · exact hBuilds.calls gid' j nd' call hOld hMem
  · intro gid' j nd' args hNode hMem
    rcases Cluster.node_of_after hNode with
      ⟨rfl, rfl, rfl⟩ | ⟨hOld, _⟩
    · exact hReplies args hMem
    · exact hBuilds.replies gid' j nd' args hOld hMem
  · intro deletion hMem
    change deletion ∈ c.deletes ++ [] at hMem
    rw [List.append_nil] at hMem
    exact hBuilds.deletes deletion hMem
  · intro record hMem
    change record ∈ c.pulls ++ [] at hMem
    rw [List.append_nil] at hMem
    exact hBuilds.pulls record hMem

theorem Cluster.Builds.step
    {c c' : Cluster I}
    (hBuilds : c.Builds)
    (hDelivers : c.Delivers)
    (hReceives : c.Receives)
    (hNamed : c.Named)
    (hStep : ClusterStep c c') :
    c'.Builds := by
  cases hStep with
  | control op configs hApply =>
      exact ⟨hBuilds.started, hBuilds.calls, hBuilds.replies,
        hBuilds.deletes, hBuilds.pulls⟩
  | start gid i uid hGid hNeg hFresh =>
      have hQuiet : (c.after gid i (Node.start gid uid)
          []).Builds := by
        apply hBuilds.quiet
        · intro call hMem
          cases hMem
        · intro args hMem
          cases hMem
      exact ⟨hQuiet.started, hQuiet.calls, hQuiet.replies,
        hQuiet.deletes, hQuiet.pulls⟩
  | receive gid i nd request hNode hArrives =>
      apply hBuilds.quiet
      · intro call hMem
        exact hBuilds.calls gid i nd call hNode hMem
      · intro args hMem
        exact hBuilds.replies gid i nd args hNode hMem
  | node gid i nd nd' effects hNode hStep =>
      exact hBuilds.node hDelivers hReceives hNamed hNode
        hStep

theorem builds_of_reachable
    {ok : Cluster I → Action I → Prop}
    {c : Cluster I}
    (hReach : Cluster.system.Reachable ok c) :
    c.Builds := by
  refine System.Reachable.induct
    (P := fun c : Cluster I => c.Builds) ?_ ?_ hReach
  · intro c hInit
    have hEmpty : c = Cluster.empty := hInit
    subst hEmpty
    constructor
    · intro gid entry hMem
      cases hMem
    · intro gid i nd call hNode
      cases hNode
    · intro gid i nd args hNode
      cases hNode
    · intro deletion hMem
      cases hMem
    · intro record hMem
      cases hMem
  · intro c action c' hReach hBuilds _ hStep
    exact hBuilds.step (delivers_of_reachable hReach)
      (receives_of_reachable hReach)
      (named_of_reachable hReach) (Cluster.step_cases hStep)

------------------------------------------------------------
-- Where Sessions Come From
------------------------------------------------------------

/- The loops over sessions keep one or move one in. -/
theorem applySessions_cases
    {st : Store}
    {ckSessions : Sessions}
    {args : Args}
    (hCollected : args.Collected)
    {key : String}
    {session : Session}
    (hSession : applySessions st ckSessions args key =
      some session) :
    ckSessions key = some session ∨
      (session.lastOpIndex = -1 ∧ ofClient key = true) := by
  cases args with
  | applyMovement mp sessions config shards =>
      unfold applySessions at hSession
      dsimp only at hSession
      split at hSession
      · next moved hMoved =>
          split at hSession
          · exact Or.inl hSession
          · cases hSession
            rcases hCollected.2 key moved hMoved with
              ⟨_, ckId, hId, rfl⟩
            rw [ofClient_uniKey]
            exact Or.inr ⟨rfl, decide_eq_true hId⟩
      · exact Or.inl hSession
  | deleteShards shards configNum =>
      unfold applySessions at hSession
      dsimp only at hSession
      split at hSession
      · next old hOld =>
          split at hSession
          · cases hSession
          · cases hSession
            exact Or.inl hOld
      · cases hSession
  | _ => exact Or.inl hSession

/- A session comes from an entry of the log or was moved in. -/
theorem session_origin
    {gid : Int}
    {log : List Op}
    (hBuilt : ∀ op ∈ log, op.Built)
    {n : Nat}
    (hLe : n ≤ log.length)
    {key : String}
    {session : Session}
    (hSession :
      (stateAt gid log n).ckSessions key = some session) :
    (∃ m op,
      m < n ∧
      log[m]? = some op ∧
      op.uniKey = key ∧
      op.reqNum = session.lastOpReqNum) ∨
    (session.lastOpIndex = -1 ∧ ofClient key = true) := by
  refine stateAt_rec (P := fun n kv =>
    kv.ckSessions key = some session →
    (∃ m op,
      m < n ∧
      log[m]? = some op ∧
      op.uniKey = key ∧
      op.reqNum = session.lastOpReqNum) ∨
    (session.lastOpIndex = -1 ∧ ofClient key = true))
    ?_ ?_ hLe hSession
  · intro hNone
    cases hNone
  · intro n op hAt ih hSome
    have hKept : (stateAt gid log n).ckSessions key =
          some session →
        (∃ m op,
          m < n + 1 ∧
          log[m]? = some op ∧
          op.uniKey = key ∧
          op.reqNum = session.lastOpReqNum) ∨
        (session.lastOpIndex = -1 ∧
          ofClient key = true) := by
      intro hOld
      rcases ih hOld with ⟨m, op', hM, hOp'⟩ | hMoved
      · exact Or.inl ⟨m, op', by omega, hOp'⟩
      · exact Or.inr hMoved
    -- The entry writes the session at its own key.
    have hWritten : ∀ ckSessions,
        ShardKV.setSession ckSessions (n + 1) op key =
          some session →
        (∃ m op,
          m < n + 1 ∧
          log[m]? = some op ∧
          op.uniKey = key ∧
          op.reqNum = session.lastOpReqNum) ∨
        ckSessions key = some session := by
      intro ckSessions hSet
      unfold ShardKV.setSession at hSet
      by_cases hKey : key = op.uniKey
      · rw [hKey, Function.update_self] at hSet
        cases hSet
        exact Or.inl ⟨n, op, by omega, hAt, hKey.symm, rfl⟩
      · rw [Function.update_of_ne hKey] at hSet
        exact Or.inr hSet
    unfold ShardKV.applyCommand at hSome
    dsimp only at hSome
    split at hSome
    · rcases hWritten _ hSome with hNew | hOld
      · exact Or.inl hNew
      · exact hKept hOld
    · split at hSome
      · rcases hWritten _ hSome with hNew | hLoop
        · exact Or.inl hNew
        · have hOp := hBuilt op (List.mem_of_getElem? hAt)
          rcases applySessions_cases hOp.collected hLoop with
            hOld | hMoved
          · exact hKept hOld
          · exact Or.inr hMoved
      · exact hKept hSome

/- That of a server always comes from an entry. -/
theorem server_session_origin
    {gid : Int}
    {log : List Op}
    (hBuilt : ∀ op ∈ log, op.Built)
    {n : Nat}
    (hLe : n ≤ log.length)
    {key : String}
    (hServer : ofClient key = false)
    {session : Session}
    (hSession :
      (stateAt gid log n).ckSessions key = some session) :
    ∃ m op,
      m < n ∧
      log[m]? = some op ∧
      op.uniKey = key ∧
      op.reqNum = session.lastOpReqNum := by
  rcases session_origin hBuilt hLe hSession with
    hEntry | ⟨_, hClient⟩
  · exact hEntry
  · rw [hServer] at hClient
    cases hClient

/-
  A request of a server with the largest number so far: of its
  entries in the log the first is not skipped.
-/
theorem exists_first_entry
    {gid : Int}
    {log : List Op}
    (hBuilt : ∀ op ∈ log, op.Built)
    {uid reqNum : Int}
    (hNeg : uid < 0)
    (hLast : ∀ op ∈ log, op.ckId = uid → op.reqNum ≤ reqNum)
    {n : Nat}
    {op : Op}
    (hAt : log[n]? = some op)
    (hId : op.ckId = uid)
    (hNum : op.reqNum = reqNum) :
    ∃ m first,
      log[m]? = some first ∧
      first.ckId = uid ∧
      first.reqNum = reqNum ∧
      (stateAt gid log m).stable (m + 1) first = false := by
  induction n using Nat.strongRecOn generalizing op with
  | _ n ih =>
      cases hStable :
          (stateAt gid log n).stable (n + 1) op with
      | false => exact ⟨n, op, hAt, hId, hNum, hStable⟩
      | true =>
          -- The session that skips it has an earlier entry.
          unfold ShardKV.stable at hStable
          split at hStable
          · next session hSession =>
              simp only [Bool.and_eq_true,
                decide_eq_true_eq] at hStable
              have hLt := (List.getElem?_eq_some_iff.mp hAt).1
              have hServer : ofClient op.uniKey = false := by
                unfold Op.uniKey
                rw [ofClient_uniKey]
                apply decide_eq_false
                omega
              rcases server_session_origin hBuilt (by omega)
                hServer hSession with ⟨m, op', hM, hAt', hKey, hNum'⟩
              have hId' := (uniKey_injective hKey).1
              have hMax := hLast op'
                (List.mem_of_getElem? hAt') (by omega)
              exact ih m hM hAt' (by omega) (by omega)
          · cases hStable

end Shardkv

end RaftLab
