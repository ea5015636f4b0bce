import RaftLab.Shardkv.Provenance

/-
  What an answer without error says about the log.

  A call that polls waits for an entry that was handed to Raft
  for its request. When it returns OK, that entry stands in the
  log at its index and was applied or skipped there; otherwise
  the call has found the request completed before it started
  anything.

  Main declarations:
    * `Shardkv.Cluster.Waits`, `Shardkv.waits_of_reachable`
    * `Shardkv.Cluster.Regular`,
      `Shardkv.regular_of_reachable`
    * `Shardkv.Finished`, `Shardkv.ok_cases`
-/

------------------------------------------------------------
-- Calls That Wait
------------------------------------------------------------

namespace RaftLab

namespace Shardkv

open Shardctrler (Shard Config)

theorem Call.Goes.waiting
    {effects : List Effect}
    {call call' : Call}
    (hGoes : call.Goes effects call')
    {op : Op}
    {index : Int}
    (hPhase : call'.phase = .waiting op index) :
    call' = call ∨
      ((index.toNat, op) ∈ startsOf effects ∧
        ∃ number, op = call'.request.op number) := by
  rcases hGoes with rfl | rfl | ⟨number, index', rfl, rfl⟩
  · exact Or.inl rfl
  · cases hPhase
  · cases hPhase
    exact Or.inr ⟨List.mem_cons_self, number, rfl⟩

/- A call waits for an entry from before or a new one. -/
theorem NodeStep.waits_cases
    {w : World}
    {nd nd' : Node}
    {effects : List Effect}
    (hStep : NodeStep w nd nd' effects)
    {call : Call}
    (hMem : call ∈ nd'.handlers ∨ call ∈ nd'.poll.calls)
    {op : Op}
    {index : Int}
    (hPhase : call.phase = .waiting op index) :
    (call ∈ nd.handlers ∨ call ∈ nd.poll.calls) ∨
      ((index.toNat, op) ∈ startsOf effects ∧
        ∃ number, op = call.request.op number) := by
  rcases hMem with hHandler | hPoll
  · rcases hStep.handlers_cases hHandler with
      ⟨old, hOld, hGoes⟩
    rcases hGoes.waiting hPhase with rfl | hStarted
    · exact Or.inl (Or.inl hOld)
    · exact Or.inr hStarted
  · rcases hStep.calls_cases hPoll with
      ⟨_, old, hOld, hGoes⟩ | ⟨_, args, hNew, _⟩
    · rcases hGoes.waiting hPhase with rfl | hStarted
      · exact Or.inl (Or.inr hOld)
      · exact Or.inr hStarted
    · rw [hNew] at hPhase
      cases hPhase

variable {I : Type}

/- Calls wait for entries of their own requests. -/
def Cluster.Waits (c : Cluster I) : Prop :=
  ∀ gid i nd call op index,
    (c.groups gid).nodes i = some nd →
    call ∈ nd.handlers ∨ call ∈ nd.poll.calls →
    call.phase = .waiting op index →
    (index.toNat, op) ∈ (c.groups gid).started ∧
      ∃ number, op = call.request.op number

variable [DecidableEq I]

theorem Cluster.Waits.step
    {c c' : Cluster I}
    (hWaits : c.Waits)
    (hStep : ClusterStep c c') :
    c'.Waits := by
  intro gid i nd call op index hNode hMem hPhase
  cases hStep with
  | control op' configs hApply =>
      exact hWaits gid i nd call op index hNode hMem hPhase
  | start gid' j uid hGid hNeg hFresh =>
      have hOwn : (index.toNat, op) ∈
          (c.groups gid).started ∧
          ∃ number, op = call.request.op number := by
        rcases Cluster.node_of_after hNode with
          ⟨rfl, rfl, rfl⟩ | ⟨hOld, _⟩
        · rcases hMem with hMem | hMem
          · cases hMem
          · cases hMem
        · exact hWaits gid i nd call op index hOld hMem hPhase
      exact ⟨Cluster.mem_after_nil_started.mpr hOwn.1,
        hOwn.2⟩
  | receive gid' j old request hOldNode hArrives =>
      rw [Cluster.mem_after_nil_started]
      rcases Cluster.node_of_after hNode with
        ⟨rfl, rfl, rfl⟩ | ⟨hOld, _⟩
      · rcases hMem with hHandler | hPoll
        · rcases List.mem_append.mp hHandler with hOld | hNew
          · exact hWaits gid i old call op index hOldNode
              (Or.inl hOld) hPhase
          · rw [List.mem_singleton.mp hNew] at hPhase
            cases hPhase
        · exact hWaits gid i old call op index hOldNode
            (Or.inr hPoll) hPhase
      · exact hWaits gid i nd call op index hOld hMem hPhase
  | node gid' j old new effects hOldNode hNodeStep =>
      rw [Cluster.mem_after_started]
      rcases Cluster.node_of_after hNode with
        ⟨rfl, rfl, rfl⟩ | ⟨hOld, _⟩
      · rcases hNodeStep.waits_cases hMem hPhase with
          hKept | ⟨hStarted, hOp⟩
        · rcases hWaits gid i old call op index hOldNode hKept
            hPhase with ⟨hEntry, hOp⟩
          exact ⟨Or.inl hEntry, hOp⟩
        · exact ⟨Or.inr ⟨rfl, hStarted⟩, hOp⟩
      · rcases hWaits gid i nd call op index hOld hMem hPhase
          with ⟨hEntry, hOp⟩
        exact ⟨Or.inl hEntry, hOp⟩

theorem waits_of_reachable
    {ok : Cluster I → Action I → Prop}
    {c : Cluster I}
    (hReach : Cluster.system.Reachable ok c) :
    c.Waits := by
  refine System.Reachable.induct
    (P := fun c : Cluster I => c.Waits) ?_ ?_ hReach
  · intro c hInit
    have hEmpty : c = Cluster.empty := hInit
    subst hEmpty
    intro gid i nd call op index hNode
    cases hNode
  · intro c action c' _ hWaits _ hStep
    exact hWaits.step (Cluster.step_cases hStep)

/- What holds in every reachable cluster. -/
structure Cluster.Regular (c : Cluster I) : Prop where
  delivers : c.Delivers
  receives : c.Receives
  plans : c.Plans
  named : c.Named
  numbers : c.Numbers
  builds : c.Builds
  waits : c.Waits

theorem regular_of_reachable
    {ok : Cluster I → Action I → Prop}
    {c : Cluster I}
    (hReach : Cluster.system.Reachable ok c) :
    c.Regular where
  delivers := delivers_of_reachable hReach
  receives := receives_of_reachable hReach
  plans := plans_of_reachable hReach
  named := named_of_reachable hReach
  numbers := numbers_of_reachable hReach
  builds := builds_of_reachable hReach
  waits := waits_of_reachable hReach

------------------------------------------------------------
-- Answers Without Error
------------------------------------------------------------

/-
  An entry of the request stands among the first `applied`
  entries of the log, where it was skipped or applied.
-/
def Finished
    (gid : Int)
    (log : List Op)
    (applied : Nat)
    (request : Request) : Prop :=
  ∃ n number,
    n < applied ∧
    log[n]? = some (request.op number) ∧
    ((stateAt gid log n).stable (n + 1)
        (request.op number) = true ∨
      ((stateAt gid log n).applyOp request.args).2 = true)

omit [DecidableEq I] in
/- The entry that a call has polled for. -/
theorem finished_of_record
    {c : Cluster I}
    (hRegular : c.Regular)
    {gid : Int}
    {i : I}
    {nd : Node}
    (hNode : (c.groups gid).nodes i = some nd)
    {call : Call}
    (hMem : call ∈ nd.handlers ∨ call ∈ nd.poll.calls)
    {op finishedOp : Op}
    {index : Int}
    (hPhase : call.phase = .waiting op index)
    (hApplied : index ≤ nd.kv.lastApplied)
    (hRecord : nd.kv.logRecord index = some finishedOp)
    (hNumber : finishedOp.number = op.number) :
    Finished gid (c.groups gid).log
      nd.kv.lastApplied.toNat call.request := by
  have hDelivers := hRegular.delivers
  rcases hRegular.waits gid i nd call op index hNode hMem
    hPhase with ⟨hStarted, number, rfl⟩
  rcases (hDelivers.follows gid i nd hNode).record index
    finishedOp hRecord with ⟨hPos, entry, hAt, hOp⟩
  have hNonneg := hDelivers.nonneg gid _ hStarted
  rcases hOp with rfl | ⟨rfl, hWhy⟩
  · -- A failed entry is recorded with the number -1.
    dsimp only at hNumber hNonneg
    omega
  · have hEntry := hDelivers.log_started gid _ _ hAt
    have hSame := hDelivers.numbers gid _ _ hEntry hStarted
      hNumber
    cases (Prod.mk.inj hSame).2
    refine ⟨(index - 1).toNat, number, by omega, hAt, ?_⟩
    have hIndex : (((index - 1).toNat : Nat) : Int) + 1 =
        index := by
      omega
    rw [hIndex]
    exact hWhy

omit [DecidableEq I] in
/- A call returns OK: its entry is finished, or completed. -/
theorem ok_cases
    {c : Cluster I}
    (hRegular : c.Regular)
    {gid : Int}
    {i : I}
    {nd : Node}
    (hNode : (c.groups gid).nodes i = some nd)
    {call : Call}
    (hMem : call ∈ nd.handlers ∨ call ∈ nd.poll.calls)
    {step : CallStep}
    {reply : Reply}
    (hStep : call.step nd.kv nd.dead step =
      some (.returned (some reply)))
    (hOk : reply.err = .ok) :
    reply = nd.kv.successCommit call.request.args ∧
      (Finished gid (c.groups gid).log
          nd.kv.lastApplied.toNat call.request ∨
        (nd.kv.completed call.request = true ∧
          (0 ≤ call.request.id →
            nd.kv.shardVec
              (key2shard call.request.args.getKey) =
                true))) := by
  rcases Call.step_ok hStep hOk with ⟨hReply, hWhy⟩
  refine ⟨hReply, ?_⟩
  rcases hWhy with
    ⟨op, index, finishedOp, hPhase, hApplied, hRecord,
      hNumber⟩ | hCompleted
  · left
    exact finished_of_record hRegular hNode hMem hPhase
      hApplied hRecord hNumber
  · exact Or.inr hCompleted

end Shardkv

end RaftLab
