import RaftLab.Shardkv.Cluster

/-
  Servers follow the log of their group.

  In every reachable cluster the state of a running server is
  the one after the entries it has applied, and its record of
  the log holds those entries, an entry that failed with the
  number -1. Every entry of the log was handed to Raft for its
  index, and no two entries handed to Raft have one number.

  Main declarations:
    * `Shardkv.NodeStep.kv_cases`
    * `Shardkv.Follows`, `Shardkv.Cluster.Delivers`
    * `Shardkv.delivers_of_reachable`
    * `Shardkv.Cluster.Receives`,
      `Shardkv.receives_of_reachable`
-/

------------------------------------------------------------
-- A Log That Grows
------------------------------------------------------------

namespace RaftLab

namespace Shardkv

open Shardctrler (Shard Config)

theorem stateAt_append
    (gid : Int)
    (log ops : List Op)
    {n : Nat}
    (hLe : n ≤ log.length) :
    stateAt gid (log ++ ops) n = stateAt gid log n := by
  unfold stateAt
  rw [List.take_append_of_le_length hLe]

theorem stateAt_lastApplied
    (gid : Int)
    {log : List Op}
    {n : Nat}
    (hLe : n ≤ log.length) :
    (stateAt gid log n).lastApplied = n := by
  unfold stateAt
  rw [deliver_lastApplied, List.length_take_of_le hLe]

theorem stateAt_gid
    (gid : Int)
    (log : List Op)
    (n : Nat) :
    (stateAt gid log n).gid = gid :=
  deliver_gid _ gid _

/- What an entry does to the store. -/
theorem ShardKV.applyCommand_store_cases
    (kv : ShardKV)
    (commandIndex : Int)
    (op : Op) :
    (kv.applyCommand commandIndex op).toStore =
        kv.toStore ∨
      (kv.stable commandIndex op = false ∧
        (kv.toStore.applyOp op.args).2 = true ∧
        (kv.applyCommand commandIndex op).toStore =
          (kv.toStore.applyOp op.args).1) := by
  unfold applyCommand
  dsimp only
  split
  · exact Or.inl rfl
  · next hStable =>
      rw [Bool.not_eq_true] at hStable
      split
      · next hApplies =>
          exact Or.inr ⟨hStable, hApplies, rfl⟩
      · exact Or.inl rfl

/- The record that an entry leaves. -/
theorem ShardKV.applyCommand_record
    (kv : ShardKV)
    (commandIndex : Int)
    (op : Op) :
    (kv.applyCommand commandIndex op).logRecord =
        Function.update kv.logRecord commandIndex
          (some { op with number := -1 }) ∨
      ((kv.applyCommand commandIndex op).logRecord =
          Function.update kv.logRecord commandIndex
            (some op) ∧
        (kv.stable commandIndex op = true ∨
          (kv.toStore.applyOp op.args).2 = true)) := by
  unfold applyCommand
  dsimp only
  split
  · next hStable => exact Or.inr ⟨rfl, Or.inl hStable⟩
  · split
    · next hApplies => exact Or.inr ⟨rfl, Or.inr hApplies⟩
    · exact Or.inl rfl

------------------------------------------------------------
-- Nodes That Follow A Log
------------------------------------------------------------

/- An entry of the log as a server records it. -/
structure Recorded
    (gid : Int)
    (log : List Op)
    (index : Int)
    (op : Op) : Prop where
  pos : 1 ≤ index
  entry : ∃ entry,
    log[(index - 1).toNat]? = some entry ∧
    (op = { entry with number := -1 } ∨
      (op = entry ∧
        ((stateAt gid log (index - 1).toNat).stable index
            entry = true ∨
          ((stateAt gid log (index - 1).toNat).applyOp
            entry.args).2 = true)))

theorem Recorded.append
    {gid : Int}
    {log : List Op}
    {index : Int}
    {op : Op}
    (hRecorded : Recorded gid log index op)
    (ops : List Op) :
    Recorded gid (log ++ ops) index op := by
  rcases hRecorded with ⟨hPos, entry, hAt, hOp⟩
  have hLt := (List.getElem?_eq_some_iff.mp hAt).1
  refine ⟨hPos, entry, ?_, ?_⟩
  · rw [List.getElem?_append_left hLt]
    exact hAt
  · rw [stateAt_append gid log ops (Nat.le_of_lt hLt)]
    exact hOp

structure Follows
    (gid : Int)
    (log : List Op)
    (nd : Node) : Prop where
  applied_nonneg : 0 ≤ nd.kv.lastApplied
  applied_le : nd.kv.lastApplied ≤ nd.delivered
  delivered_le : nd.delivered ≤ log.length
  state : nd.kv.Agrees
    (stateAt gid log nd.kv.lastApplied.toNat)
  record : ∀ index op,
    nd.kv.logRecord index = some op →
    Recorded gid log index op

theorem Follows.config
    {gid : Int}
    {log : List Op}
    {nd : Node}
    (hFollows : Follows gid log nd) :
    nd.kv.config =
      (stateAt gid log nd.kv.lastApplied.toNat).config :=
  congrArg Store.config hFollows.state.store

theorem Follows.append
    {gid : Int}
    {log : List Op}
    {nd : Node}
    (hFollows : Follows gid log nd)
    (ops : List Op) :
    Follows gid (log ++ ops) nd where
  applied_nonneg := hFollows.applied_nonneg
  applied_le := hFollows.applied_le
  delivered_le := by
    have hLe := hFollows.delivered_le
    rw [List.length_append]
    omega
  state := by
    have hApplied := hFollows.applied_le
    have hLe := hFollows.delivered_le
    rw [stateAt_append gid log ops (by omega)]
    exact hFollows.state
  record index op hRecord :=
    (hFollows.record index op hRecord).append ops

theorem Follows.of_kv_eq
    {gid : Int}
    {log : List Op}
    {nd nd' : Node}
    (hFollows : Follows gid log nd)
    (hKv : nd'.kv = nd.kv)
    (hDelivered : nd'.delivered = nd.delivered) :
    Follows gid log nd' where
  applied_nonneg := by
    rw [hKv]
    exact hFollows.applied_nonneg
  applied_le := by
    rw [hKv, hDelivered]
    exact hFollows.applied_le
  delivered_le := by
    rw [hDelivered]
    exact hFollows.delivered_le
  state := by
    rw [hKv]
    exact hFollows.state
  record := by
    rw [hKv]
    exact hFollows.record

theorem Follows.start (gid uid : Int) (log : List Op) :
    Follows gid log (Node.start gid uid) where
  applied_nonneg := le_refl _
  applied_le := le_refl _
  delivered_le := Nat.zero_le _
  state := ⟨rfl, rfl, rfl⟩
  record _ _ hRecord := by cases hRecord

@[simp]
theorem ShardKV.applyCommand_lastApplied
    (kv : ShardKV)
    (commandIndex : Int)
    (op : Op) :
    (kv.applyCommand commandIndex op).lastApplied =
      commandIndex := by
  unfold applyCommand
  dsimp only
  split
  · rfl
  · split <;> rfl

/- The next entry of the log is applied. -/
theorem Follows.deliver
    {gid : Int}
    {log : List Op}
    {nd : Node}
    (hFollows : Follows gid log nd)
    {op : Op}
    (hOp : log[nd.kv.lastApplied.toNat]? = some op) :
    Follows gid log (nd.deliver op) := by
  have hNonneg := hFollows.applied_nonneg
  have hLt := (List.getElem?_eq_some_iff.mp hOp).1
  have hLe := hFollows.delivered_le
  have hState := hFollows.state
  have hKv : (nd.deliver op).kv =
      nd.kv.applyCommand (nd.kv.lastApplied + 1) op := rfl
  have hIndex :
      (nd.kv.lastApplied + 1).toNat =
        nd.kv.lastApplied.toNat + 1 := by
    omega
  have hCast :
      ((nd.kv.lastApplied.toNat : Nat) : Int) + 1 =
        nd.kv.lastApplied + 1 := by
    omega
  constructor
  · rw [hKv, ShardKV.applyCommand_lastApplied]
    omega
  · rw [hKv, ShardKV.applyCommand_lastApplied]
    change _ ≤ ((max nd.delivered
      (nd.kv.lastApplied + 1).toNat : Nat) : Int)
    omega
  · change max nd.delivered
      (nd.kv.lastApplied + 1).toNat ≤ log.length
    omega
  · rw [hKv, ShardKV.applyCommand_lastApplied, hIndex,
      stateAt_succ hOp, hCast]
    exact hState.applyCommand (Or.inl rfl) _
  · intro index op' hRecord
    rw [hKv] at hRecord
    have hPrev : (nd.kv.lastApplied + 1 - 1).toNat =
        nd.kv.lastApplied.toNat := by
      omega
    by_cases hHere : index = nd.kv.lastApplied + 1
    · subst hHere
      refine ⟨by omega, op, ?_, ?_⟩
      · rw [hPrev]
        exact hOp
      · rw [hPrev, ← hState.store,
          ← hState.stable_eq (Or.inl rfl)]
        rcases nd.kv.applyCommand_record
          (nd.kv.lastApplied + 1) op with
          hFailed | ⟨hApplied, hWhy⟩
        · rw [hFailed, Function.update_self] at hRecord
          left
          exact (Option.some.inj hRecord).symm
        · rw [hApplied, Function.update_self] at hRecord
          right
          exact ⟨(Option.some.inj hRecord).symm, hWhy⟩
    · apply hFollows.record index op'
      rcases nd.kv.applyCommand_record
        (nd.kv.lastApplied + 1) op with
        hFailed | ⟨hApplied, _⟩
      · rw [hFailed, Function.update_of_ne hHere] at hRecord
        exact hRecord
      · rw [hApplied, Function.update_of_ne hHere] at hRecord
        exact hRecord

/- A snapshot of the log is installed. -/
theorem Follows.install
    {gid : Int}
    {log : List Op}
    {nd : Node}
    (hFollows : Follows gid log nd)
    {snapshotIndex : Nat}
    (hIndex : snapshotIndex ≤ log.length) :
    Follows gid log
      { nd with
        kv := (nd.kv.handleApplyMsg false
          (.snapshot snapshotIndex
            (stateAt gid log snapshotIndex).snapshot)).1
        delivered := max nd.delivered snapshotIndex } := by
  have hGid : nd.kv.gid =
      (stateAt gid log snapshotIndex).gid := by
    rw [stateAt_gid]
    have hSame := congrArg Store.gid hFollows.state.store
    rw [hSame]
    exact stateAt_gid gid log _
  have hLe := hFollows.delivered_le
  constructor
  · change (0 : Int) ≤ snapshotIndex
    omega
  · change (snapshotIndex : Int) ≤
      ((max nd.delivered snapshotIndex : Nat) : Int)
    omega
  · change max nd.delivered snapshotIndex ≤ log.length
    omega
  · exact ShardKV.install_agrees hGid false
      (stateAt_lastApplied gid hIndex)
  · exact hFollows.record

------------------------------------------------------------
-- What A Step Does To The Log
------------------------------------------------------------

@[simp]
theorem commitsOf_answerOf
    (request : Request)
    (reply : Option Reply) :
    commitsOf (answerOf request reply) = [] := by
  cases reply <;> rfl

@[simp]
theorem startsOf_answerOf
    (request : Request)
    (reply : Option Reply) :
    startsOf (answerOf request reply) = [] := by
  cases reply <;> rfl

theorem NodeStep.kv_cases
    {w : World}
    {nd nd' : Node}
    {effects : List Effect}
    (hStep : NodeStep w nd nd' effects) :
    (nd'.kv = nd.kv ∧ nd'.delivered = nd.delivered ∧
      commitsOf effects = []) ∨
    (∃ op,
      w.log[nd.kv.lastApplied.toNat]? = some op ∧
      nd' = nd.deliver op ∧ effects = []) ∨
    (∃ op,
      (w.log.length + 1, op) ∈ w.started ∧
      nd.kv.lastApplied = w.log.length ∧
      nd' = nd.deliver op ∧ effects = [.commit op]) ∨
    (∃ snapshotIndex,
      snapshotIndex ≤ w.log.length ∧
      nd' = { nd with
        kv := (nd.kv.handleApplyMsg false
          (.snapshot snapshotIndex
            (stateAt w.gid w.log
              snapshotIndex).snapshot)).1
        delivered := max nd.delivered snapshotIndex } ∧
      effects = []) := by
  cases hStep with
  | applied op hOp => exact .inr (.inl ⟨op, hOp, rfl, rfl⟩)
  | committed index op hEntry hIndex hApplied =>
      subst hIndex
      exact .inr (.inr (.inl ⟨op, hEntry, hApplied, rfl,
        rfl⟩))
  | installed snapshotIndex hLe =>
      exact .inr (.inr (.inr ⟨snapshotIndex, hLe, rfl, rfl⟩))
  | handlerReturned k call step reply hCall hReturned =>
      exact .inl ⟨rfl, rfl, commitsOf_answerOf _ _⟩
  | _ => exact .inl ⟨rfl, rfl, rfl⟩

/- The calls that pollConfig and its pulls are making. -/
def Poll.calls : Poll → List Call
| .updating _ _ call => [call]
| .committing _ _ call => [call]
| .moving _ _ _ pulls _ =>
    pulls.filterMap fun pull =>
      match pull.state with
      | .moving call => some call
      | _ => none
| _ => []

theorem Poll.mem_calls_moving
    {latest oldConfig next : Config}
    {pulls : List Pull}
    {fail : Bool}
    {call : Call} :
    call ∈ (Poll.moving latest oldConfig next pulls
        fail).calls ↔
      ∃ pull ∈ pulls, pull.state = .moving call := by
  unfold Poll.calls
  rw [List.mem_filterMap]
  constructor
  · rintro ⟨pull, hMem, hCall⟩
    refine ⟨pull, hMem, ?_⟩
    cases hState : pull.state with
    | moving call' =>
        rw [hState] at hCall
        cases hCall
        rfl
    | _ =>
        rw [hState] at hCall
        cases hCall
  · rintro ⟨pull, hMem, hState⟩
    refine ⟨pull, hMem, ?_⟩
    rw [hState]

/- A step starts at most one entry, for one of its calls. -/
theorem NodeStep.starts_cases
    {w : World}
    {nd nd' : Node}
    {effects : List Effect}
    (hStep : NodeStep w nd nd' effects) :
    startsOf effects = [] ∨
      ∃ call number index,
        (call ∈ nd.handlers ∨ call ∈ nd.poll.calls) ∧
        nd.delivered < index ∧
        w.fresh number = true ∧
        startsOf effects =
          [(index, call.request.op number)] := by
  cases hStep with
  | handlerStarted k call number index hCall hIndex hFresh =>
      exact .inr ⟨call, number, index.toNat,
        .inl (List.mem_of_getElem? hCall), hIndex, hFresh,
        rfl⟩
  | updateStarted latest next call number index hPoll hIndex
      hFresh =>
      refine .inr ⟨call, number, index.toNat, .inr ?_,
        hIndex, hFresh, rfl⟩
      rw [hPoll]
      exact List.mem_cons_self
  | commitStarted latest next call number index hPoll hIndex
      hFresh =>
      refine .inr ⟨call, number, index.toNat, .inr ?_,
        hIndex, hFresh, rfl⟩
      rw [hPoll]
      exact List.mem_cons_self
  | pullStarted latest oldConfig next pulls fail k pull call
      number index hPoll hPull hState hIndex hFresh =>
      refine .inr ⟨call, number, index.toNat, .inr ?_,
        hIndex, hFresh, rfl⟩
      rw [hPoll]
      exact Poll.mem_calls_moving.mpr
        ⟨pull, List.mem_of_getElem? hPull, hState⟩
  | handlerReturned k call step reply hCall hReturned =>
      exact .inl (startsOf_answerOf _ _)
  | _ => exact .inl rfl

/- A call that was left alone, called again or started. -/
def Call.Goes
    (effects : List Effect)
    (call call' : Call) : Prop :=
  call' = call ∨ call' = Call.new call.request ∨
    ∃ number index,
      call' = call.waitingFor number index ∧
      effects =
        [.start index.toNat (call.request.op number)]

theorem Call.Goes.request
    {effects : List Effect}
    {call call' : Call}
    (hGoes : call.Goes effects call') :
    call'.request = call.request := by
  rcases hGoes with rfl | rfl | ⟨number, index, rfl, _⟩
  · rfl
  · rfl
  · rfl

/- The handlers after a step are those from before. -/
theorem NodeStep.handlers_cases
    {w : World}
    {nd nd' : Node}
    {effects : List Effect}
    (hStep : NodeStep w nd nd' effects)
    {call' : Call}
    (hMem : call' ∈ nd'.handlers) :
    ∃ call ∈ nd.handlers, call.Goes effects call' := by
  cases hStep with
  | handlerStarted k call number index hCall =>
      rcases List.mem_or_eq_of_mem_set hMem with hOld | rfl
      · exact ⟨call', hOld, .inl rfl⟩
      · exact ⟨call, List.mem_of_getElem? hCall,
          .inr (.inr ⟨number, index, rfl, rfl⟩)⟩
  | handlerReturned k call step reply hCall =>
      exact ⟨call', List.mem_of_mem_eraseIdx hMem, .inl rfl⟩
  | _ => exact ⟨call', hMem, .inl rfl⟩

@[simp]
theorem deletionsOf_answerOf
    (gid : Int)
    (request : Request)
    (reply : Option Reply) :
    deletionsOf gid (answerOf request reply) = [] := by
  cases reply <;> rfl

/- A step sends at most one DeleteShards request. -/
theorem NodeStep.deletions_cases
    {w : World}
    {nd nd' : Node}
    {effects : List Effect}
    (hStep : NodeStep w nd nd' effects)
    (gid : Int) :
    deletionsOf gid effects = [] ∨
      ∃ latest oldConfig next deletes delete,
        nd.poll =
          .deleting latest oldConfig next deletes ∧
        delete ∈ deletes ∧
        nd'.localReqNum = nd.localReqNum + 1 ∧
        deletionsOf gid effects =
          [⟨gid, delete.src, nd.ownRequest
            (.deleteShards delete.shards next.num)⟩] := by
  cases hStep with
  | handlerReturned k call step reply hCall hReturned =>
      exact .inl (deletionsOf_answerOf _ _ _)
  | deleteSent latest oldConfig next deletes k delete hPoll
      hDelete =>
      exact .inr ⟨latest, oldConfig, next, deletes, delete,
        hPoll, List.mem_of_getElem? hDelete, rfl, rfl⟩
  | _ => exact .inl rfl

------------------------------------------------------------
-- Reachable Clusters
------------------------------------------------------------

variable {I : Type} [DecidableEq I]

structure Cluster.Delivers (c : Cluster I) : Prop where
  follows : ∀ gid i nd,
    (c.groups gid).nodes i = some nd →
    Follows gid (c.groups gid).log nd
  log_started : ∀ gid j op,
    (c.groups gid).log[j]? = some op →
    (j + 1, op) ∈ (c.groups gid).started
  numbers : ∀ gid entry entry',
    entry ∈ (c.groups gid).started →
    entry' ∈ (c.groups gid).started →
    entry.2.number = entry'.2.number →
    entry = entry'
  nonneg : ∀ gid entry,
    entry ∈ (c.groups gid).started →
    0 ≤ entry.2.number

theorem World.fresh_iff
    {w : World}
    {number : Int} :
    w.fresh number = true ↔
      0 ≤ number ∧
        ∀ entry ∈ w.started, entry.2.number ≠ number := by
  unfold World.fresh
  simp [List.all_eq_true]

/- A step adds at most one entry to the log. -/
theorem NodeStep.commits_cases
    {w : World}
    {nd nd' : Node}
    {effects : List Effect}
    (hStep : NodeStep w nd nd' effects) :
    commitsOf effects = [] ∨
      ∃ op,
        (w.log.length + 1, op) ∈ w.started ∧
        nd.kv.lastApplied = w.log.length ∧
        nd' = nd.deliver op ∧
        effects = [.commit op] := by
  rcases hStep.kv_cases with
    ⟨_, _, hNone⟩ | ⟨_, _, _, rfl⟩ | hCommit |
    ⟨_, _, _, rfl⟩
  · exact .inl hNone
  · exact .inl rfl
  · exact .inr hCommit
  · exact .inl rfl

/- A node follows the log as its step leaves it. -/
theorem Follows.step
    {w : World}
    {nd nd' : Node}
    {effects : List Effect}
    (hFollows : Follows w.gid w.log nd)
    (hStep : NodeStep w nd nd' effects) :
    Follows w.gid (w.log ++ commitsOf effects) nd' := by
  rcases hStep.kv_cases with
    ⟨hKv, hDelivered, _⟩ | ⟨op, hOp, rfl, _⟩ |
    ⟨op, _, hApplied, rfl, rfl⟩ |
    ⟨snapshotIndex, hLe, rfl, _⟩
  · exact (hFollows.of_kv_eq hKv hDelivered).append _
  · exact (hFollows.deliver hOp).append _
  · apply (hFollows.append [op]).deliver
    have hNat : nd.kv.lastApplied.toNat = w.log.length := by
      omega
    rw [hNat]
    exact List.getElem?_concat_length
  · exact (hFollows.install hLe).append _

/- One step of a node, in the cluster. -/
theorem Cluster.Delivers.node
    {c : Cluster I}
    (hDelivers : c.Delivers)
    {gid : Int}
    {i : I}
    {nd nd' : Node}
    {effects : List Effect}
    (hNode : (c.groups gid).nodes i = some nd)
    (hStep : NodeStep (c.world gid) nd nd' effects) :
    (c.after gid i nd' effects).Delivers := by
  constructor
  · intro gid' j nd'' hNode'
    rcases Cluster.node_of_after hNode' with
      ⟨rfl, rfl, rfl⟩ | ⟨hOld, _⟩
    · rw [Cluster.after_log]
      exact (hDelivers.follows gid' j nd hNode).step hStep
    · rw [Cluster.after_log_eq]
      exact (hDelivers.follows gid' j nd'' hOld).append _
  · intro gid' j op hAt
    apply Cluster.mem_after_started.mpr
    left
    rw [Cluster.after_log_eq] at hAt
    rcases Nat.lt_or_ge j (c.groups gid').log.length with
      hLt | hGe
    · rw [List.getElem?_append_left hLt] at hAt
      exact hDelivers.log_started gid' j op hAt
    · -- The new entry was handed over for this index.
      rw [List.getElem?_append_right hGe] at hAt
      split at hAt
      · next hGid =>
          subst hGid
          rcases hStep.commits_cases with
            hNone | ⟨op', hEntry, _, _, rfl⟩
          · rw [hNone] at hAt
            cases hAt
          · have hOne : (commitsOf [.commit op']).length =
                1 := rfl
            have hLt :=
              (List.getElem?_eq_some_iff.mp hAt).1
            have hJ : j = (c.groups gid').log.length := by
              omega
            subst hJ
            rw [Nat.sub_self] at hAt
            cases hAt
            exact hEntry
      · cases hAt
  · intro gid' entry entry' hMem hMem' hNumber
    rcases hStep.starts_cases with
      hNone | ⟨call, number, index, _, _, hFresh, hOne⟩
    · simp only [Cluster.mem_after_started, hNone,
        List.not_mem_nil, and_false, or_false]
        at hMem hMem'
      exact hDelivers.numbers gid' entry entry' hMem hMem'
        hNumber
    · have hNew := (World.fresh_iff.mp hFresh).2
      simp only [Cluster.mem_after_started, hOne,
        List.mem_singleton] at hMem hMem'
      rcases hMem with hMem | ⟨rfl, rfl⟩
      · rcases hMem' with hMem' | ⟨rfl, rfl⟩
        · exact hDelivers.numbers gid' entry entry' hMem
            hMem' hNumber
        · exact absurd hNumber (hNew entry hMem)
      · rcases hMem' with hMem' | ⟨_, rfl⟩
        · exact absurd hNumber.symm (hNew entry' hMem')
        · rfl
  · intro gid' entry hMem
    rcases Cluster.mem_after_started.mp hMem with
      hOld | ⟨_, hNew⟩
    · exact hDelivers.nonneg gid' entry hOld
    · rcases hStep.starts_cases with
        hNone | ⟨call, number, index, _, _, hFresh, hOne⟩
      · rw [hNone] at hNew
        cases hNew
      · rw [hOne] at hNew
        rw [List.mem_singleton.mp hNew]
        exact (World.fresh_iff.mp hFresh).1

/- A step that only replaces one node. -/
theorem Cluster.Delivers.quiet
    {c : Cluster I}
    (hDelivers : c.Delivers)
    {gid : Int}
    {i : I}
    {nd : Node}
    (hFollows : Follows gid (c.groups gid).log nd) :
    (c.after gid i nd []).Delivers := by
  constructor
  · intro gid' j nd' hNode
    rw [Cluster.after_nil_log]
    rcases Cluster.node_of_after hNode with
      ⟨rfl, rfl, rfl⟩ | ⟨hOld, _⟩
    · exact hFollows
    · exact hDelivers.follows gid' j nd' hOld
  · intro gid' j op hAt
    rw [Cluster.after_nil_log] at hAt
    rw [Cluster.mem_after_nil_started]
    exact hDelivers.log_started gid' j op hAt
  · intro gid' entry entry' hMem hMem'
    rw [Cluster.mem_after_nil_started] at hMem hMem'
    exact hDelivers.numbers gid' entry entry' hMem hMem'
  · intro gid' entry hMem
    rw [Cluster.mem_after_nil_started] at hMem
    exact hDelivers.nonneg gid' entry hMem

theorem Cluster.Delivers.step
    {c c' : Cluster I}
    (hDelivers : c.Delivers)
    (hStep : ClusterStep c c') :
    c'.Delivers := by
  cases hStep with
  | control op configs hApply =>
      exact ⟨hDelivers.follows, hDelivers.log_started,
        hDelivers.numbers, hDelivers.nonneg⟩
  | start gid i uid hGid hNeg hFresh =>
      have hQuiet : (c.after gid i (Node.start gid uid)
          []).Delivers :=
        hDelivers.quiet (Follows.start gid uid _)
      exact ⟨hQuiet.follows, hQuiet.log_started,
        hQuiet.numbers, hQuiet.nonneg⟩
  | receive gid i nd request hNode hArrives =>
      apply hDelivers.quiet
      exact (hDelivers.follows gid i nd hNode).of_kv_eq
        rfl rfl
  | node gid i nd nd' effects hNode hStep =>
      exact hDelivers.node hNode hStep

theorem delivers_of_reachable
    {ok : Cluster I → Action I → Prop}
    {c : Cluster I}
    (hReach : Cluster.system.Reachable ok c) :
    c.Delivers := by
  refine System.Reachable.induct
    (P := fun c : Cluster I => c.Delivers) ?_ ?_ hReach
  · intro c hInit
    have hEmpty : c = Cluster.empty := hInit
    subst hEmpty
    constructor
    · intro gid i nd hNode
      cases hNode
    · intro gid j op hAt
      cases hAt
    · intro gid entry entry' hMem
      cases hMem
    · intro gid entry hMem
      cases hMem
  · intro c action c' _ hDelivers _ hStep
    exact hDelivers.step (Cluster.step_cases hStep)

------------------------------------------------------------
-- Handlers
------------------------------------------------------------

omit [DecidableEq I] in
theorem Cluster.Arrives.mono
    {c c' : Cluster I}
    (hExtends : c.Extends c')
    {gid : Int}
    {request : Request}
    (hArrives : c.Arrives gid request) :
    c'.Arrives gid request := by
  rcases hArrives with hClient | ⟨sender, hSent⟩
  · exact Or.inl hClient
  · exact Or.inr ⟨sender, hExtends.deletes _ hSent⟩

/- Handlers run for requests that may arrive. -/
def Cluster.Receives (c : Cluster I) : Prop :=
  ∀ gid i nd call,
    (c.groups gid).nodes i = some nd →
    call ∈ nd.handlers →
    c.Arrives gid call.request

theorem Cluster.Receives.step
    {c c' : Cluster I}
    (hReceives : c.Receives)
    (hStep : ClusterStep c c') :
    c'.Receives := by
  have hExtends := Cluster.extends_of_step hStep
  intro gid i nd call hNode hMem
  apply Cluster.Arrives.mono hExtends
  cases hStep with
  | control op configs hApply =>
      exact hReceives gid i nd call hNode hMem
  | start gid' j uid hGid hNeg hFresh =>
      rcases Cluster.node_of_after hNode with
        ⟨rfl, rfl, rfl⟩ | ⟨hOld, _⟩
      · cases hMem
      · exact hReceives gid i nd call hOld hMem
  | receive gid' j old request hOldNode hArrives =>
      rcases Cluster.node_of_after hNode with
        ⟨rfl, rfl, rfl⟩ | ⟨hOld, _⟩
      · rcases List.mem_append.mp hMem with hOld | hNew
        · exact hReceives gid i old call hOldNode hOld
        · rw [List.mem_singleton.mp hNew]
          exact hArrives
      · exact hReceives gid i nd call hOld hMem
  | node gid' j old new effects hOldNode hNodeStep =>
      rcases Cluster.node_of_after hNode with
        ⟨rfl, rfl, rfl⟩ | ⟨hOld, _⟩
      · rcases hNodeStep.handlers_cases hMem with
          ⟨call', hMem', hGoes⟩
        rw [hGoes.request]
        exact hReceives gid i old call' hOldNode hMem'
      · exact hReceives gid i nd call hOld hMem

theorem receives_of_reachable
    {ok : Cluster I → Action I → Prop}
    {c : Cluster I}
    (hReach : Cluster.system.Reachable ok c) :
    c.Receives := by
  refine System.Reachable.induct
    (P := fun c : Cluster I => c.Receives) ?_ ?_ hReach
  · intro c hInit
    have hEmpty : c = Cluster.empty := hInit
    subst hEmpty
    intro gid i nd call hNode
    cases hNode
  · intro c action c' _ hReceives _ hStep
    exact hReceives.step (Cluster.step_cases hStep)

end Shardkv

end RaftLab
