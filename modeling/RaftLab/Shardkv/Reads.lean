import RaftLab.Shardkv.Conditions
import RaftLab.Shardkv.Frozen
import RaftLab.Shardkv.Movement

/-
  What a Get returns.

  The ownership of the shard is checked when the entry of a
  Get is applied, and the value is read later, by a poll. In
  between the shard may be frozen, moved and deleted. A Get
  that is skipped as stable is not checked at all.

  Main declarations:
    * `Shardkv.ReadsServed`
    * `Shardkv.getFits`, `Shardkv.pollFits`
    * `Shardkv.reads_of_owned_shard`
    * `Shardkv.read_of_deleted_shard`
-/

------------------------------------------------------------
-- Reads
------------------------------------------------------------

namespace RaftLab

namespace Shardkv

open Shardctrler (Shard Config)

/- Entries with one client, number and shard. -/
def Op.sameRequest (op op' : Op) : Bool :=
  decide (op.ckId = op'.ckId) &&
    decide (op.reqNum = op'.reqNum) &&
    decide (op.shardNum = op'.shardNum)

/-
  The value is that of the key after some entries of the log,
  among them one of the request, with the shard served.
-/
def ReadsServed
    (gid : Int)
    (log : List Op)
    (request : Request)
    (key value : String) : Prop :=
  ∃ n,
    n ≤ log.length ∧
    (∃ m op,
      m < n ∧ log[m]? = some op ∧
      op.sameRequest (request.op 0) = true) ∧
    (stateAt gid log n).shardVec (key2shard key) = true ∧
    ((stateAt gid log n).mp key).getD "" = value

instance
    (gid : Int)
    (log : List Op)
    (request : Request)
    (key value : String) :
    Decidable (ReadsServed gid log request key value) :=
  decidable_of_iff
    (∃ n, n < log.length + 1 ∧
      (∃ m, m < n ∧
        (log[m]?.any fun op =>
          op.sameRequest (request.op 0)) = true) ∧
      (stateAt gid log n).shardVec (key2shard key) = true ∧
      ((stateAt gid log n).mp key).getD "" = value)
    (by
      unfold ReadsServed
      simp only [Nat.lt_succ_iff, Option.any_eq_true,
        exists_and_left])

theorem ReadsServed.append
    {gid : Int}
    {log : List Op}
    {request : Request}
    {key value : String}
    (hReads : ReadsServed gid log request key value)
    (ops : List Op) :
    ReadsServed gid (log ++ ops) request key value := by
  rcases hReads with
    ⟨n, hLe, ⟨m, op, hM, hAt, hSame⟩, hServed, hValue⟩
  refine ⟨n, ?_, ⟨m, op, hM, ?_, hSame⟩, ?_⟩
  · rw [List.length_append]
    omega
  · rw [List.getElem?_append_left (by omega)]
    exact hAt
  · rw [stateAt_append gid log ops hLe]
    exact ⟨hServed, hValue⟩

------------------------------------------------------------
-- The Condition
------------------------------------------------------------

/-
  A Get that is skipped as stable finds its shard served, or
  an entry of the same request has found it so.
-/
def getFits
    (entries : List Op)
    (kv : ShardKV)
    (op : Op) : Bool :=
  match op.args with
  | .get key =>
      !kv.stable (kv.lastApplied + 1) op ||
        kv.shardVec (key2shard key) ||
        (List.range entries.length).any fun m =>
          (entries[m]?.any fun op' => op'.sameRequest op) &&
            (stateAt kv.gid entries m).shardVec
              (key2shard key)
  | _ => true

/- Entry `m` removes the shard while it is not served. -/
def removedAt
    (gid : Int)
    (log : List Op)
    (s : Shard)
    (m : Nat) : Bool :=
  log[m]?.any fun op =>
    (stateAt gid log m).removes (m + 1) op s &&
      !(stateAt gid log m).shardVec s

/-
  After `n` entries: wherever the shard was removed while it
  was not served, it has been served again since.
-/
def keptSinceServed
    (gid : Int)
    (log : List Op)
    (s : Shard)
    (n : Nat) : Bool :=
  (List.range n).all fun m =>
    !removedAt gid log s m ||
      (List.range (n + 1)).any fun k =>
        decide (m < k) && (stateAt gid log k).shardVec s

/- The test of waittingForCommit: the entry was applied. -/
def ShardKV.hasFinished
    (kv : ShardKV)
    (op : Op)
    (index : Int) : Bool :=
  decide (index ≤ kv.lastApplied) &&
    (kv.logRecord index).any fun finishedOp =>
      decide (finishedOp.number = op.number)

variable {I : Type} [DecidableEq I]

/-
  A poll that finds the entry of a Get comes before the shard
  is removed.
-/
def pollFits (c : Cluster I) : Action I → Bool
| .node gid i (.handler k .poll) =>
    ((c.groups gid).nodes i).all fun nd =>
      nd.handlers[k]?.all fun call =>
        match call.request.args, call.phase with
        | .get key, .waiting op index =>
            !nd.kv.hasFinished op index ||
              keptSinceServed gid (c.groups gid).log
                (key2shard key) nd.kv.lastApplied.toNat
        | _, _ => true
| _ => true

def readsFit (c : Cluster I) (action : Action I) : Bool :=
  DeliversOnly getFits c action && pollFits c action

------------------------------------------------------------
-- From The Last Served State On
------------------------------------------------------------

theorem stateAt_take
    (gid : Int)
    (log : List Op)
    {m n : Nat}
    (hLe : m ≤ n) :
    stateAt gid (log.take n) m = stateAt gid log m := by
  unfold stateAt
  rw [List.take_take, Nat.min_eq_left hLe]

/- The operations of clients leave shardVec alone. -/
theorem ShardKV.applyCommand_shardVec_of_client
    {kv : ShardKV}
    {commandIndex : Int}
    {op : Op}
    (hClient : op.args.ofClient = true) :
    (kv.applyCommand commandIndex op).shardVec =
      kv.shardVec := by
  rcases kv.applyCommand_store_cases commandIndex op with
    hSame | ⟨_, _, hApplied⟩
  · rw [hSame]
  · rw [hApplied]
    cases hArgs : op.args with
    | get key => rfl
    | put key value =>
        unfold Store.applyOp
        dsimp only
        split <;> rfl
    | append key value =>
        unfold Store.applyOp
        dsimp only
        split <;> rfl
    | _ =>
        rw [hArgs] at hClient
        cases hClient

/- The entry that stops serving a shard changes no pair. -/
theorem ShardKV.applyCommand_mp_of_frozen
    {kv : ShardKV}
    {commandIndex : Int}
    {op : Op}
    {s : Shard}
    (hServed : kv.shardVec s = true)
    (hAfter :
      (kv.applyCommand commandIndex op).shardVec s = false) :
    (kv.applyCommand commandIndex op).mp = kv.mp := by
  have hChanged : (kv.applyCommand commandIndex op).shardVec ≠
      kv.shardVec := by
    intro hSame
    rw [hSame, hServed] at hAfter
    cases hAfter
  rcases kv.applyCommand_store_cases commandIndex op with
    hSame | ⟨_, _, hApplied⟩
  · rw [hSame]
  · rw [hApplied] at hChanged hAfter ⊢
    cases hArgs : op.args with
    | changeConfig config =>
        unfold Store.applyOp
        dsimp only
        split <;> rfl
    | updateShardVec configNum newVec =>
        unfold Store.applyOp
        dsimp only
        split <;> rfl
    | applyMovement mp sessions config shards =>
        -- A movement only turns shards on.
        rw [hArgs] at hAfter
        change (shards s || kv.shardVec s) = false at hAfter
        rw [hServed, Bool.or_true] at hAfter
        cases hAfter
    | get key => rfl
    | put key value =>
        rw [hArgs] at hChanged
        unfold Store.applyOp at hChanged
        dsimp only at hChanged
        split at hChanged
        · exact absurd rfl hChanged
        · exact absurd rfl hChanged
    | append key value =>
        rw [hArgs] at hChanged
        unfold Store.applyOp at hChanged
        dsimp only at hChanged
        split at hChanged
        · exact absurd rfl hChanged
        · exact absurd rfl hChanged
    | deleteShards shards configNum =>
        rw [hArgs] at hChanged
        exact absurd rfl hChanged

theorem keptSinceServed_iff
    {gid : Int}
    {log : List Op}
    {s : Shard}
    {n : Nat} :
    keptSinceServed gid log s n = true ↔
      ∀ m, m < n →
        removedAt gid log s m = true →
        ∃ k, k ≤ n ∧ m < k ∧
          (stateAt gid log k).shardVec s = true := by
  unfold keptSinceServed
  simp only [List.all_eq_true, List.mem_range,
    Bool.or_eq_true, Bool.not_eq_true', List.any_eq_true,
    Bool.and_eq_true, decide_eq_true_eq, Nat.lt_succ_iff]
  constructor
  · intro hAll m hM hRemoved
    rcases hAll m hM with hNot | hServed
    · rw [hRemoved] at hNot
      cases hNot
    · exact hServed
  · intro hAll m hM
    cases hRemoved : removedAt gid log s m with
    | false => exact Or.inl rfl
    | true => exact Or.inr (hAll m hM hRemoved)

/-
  The pairs of a shard that has been served, and not removed
  since, are those of a state in which it was served.
-/
theorem exists_served_pairs
    {gid : Int}
    {log : List Op}
    (hBuilt : ∀ op ∈ log, op.Built)
    {s : Shard}
    {n₀ n : Nat}
    (hLe : n ≤ log.length)
    (hFirst : n₀ ≤ n)
    (hServed : (stateAt gid log n₀).shardVec s = true)
    (hKept : keptSinceServed gid log s n = true) :
    ∃ k,
      n₀ ≤ k ∧ k ≤ n ∧
      (stateAt gid log k).shardVec s = true ∧
      pairsOf s (stateAt gid log k).mp =
        pairsOf s (stateAt gid log n).mp := by
  induction n with
  | zero =>
      have hZero : n₀ = 0 := by omega
      subst hZero
      exact ⟨0, le_refl _, le_refl _, hServed, rfl⟩
  | succ n ih =>
      cases hNow : (stateAt gid log (n + 1)).shardVec s with
      | true =>
          exact ⟨n + 1, hFirst, le_refl _, hNow, rfl⟩
      | false =>
          have hBefore : n₀ ≤ n := by
            by_contra hGt
            have hEq : n₀ = n + 1 := by omega
            rw [hEq, hNow] at hServed
            cases hServed
          have hSpec := keptSinceServed_iff.mp hKept
          -- The shard is not served after the last entry.
          have hAgain : ∀ k, k ≤ n + 1 →
              (stateAt gid log k).shardVec s = true →
              k ≤ n := by
            intro k hK hServedK
            by_contra hGt
            have hEq : k = n + 1 := by omega
            rw [hEq, hNow] at hServedK
            cases hServedK
          have hKeptBefore :
              keptSinceServed gid log s n = true := by
            apply keptSinceServed_iff.mpr
            intro m hM hRemoved
            rcases hSpec m (by omega) hRemoved with
              ⟨k, hK, hMk, hServedK⟩
            exact ⟨k, hAgain k hK hServedK, hMk, hServedK⟩
          rcases ih (by omega) hBefore hKeptBefore with
            ⟨k, hFirstK, hK, hServedK, hPairs⟩
          refine ⟨k, hFirstK, by omega, hServedK, ?_⟩
          rw [hPairs]
          have hAt := List.getElem?_eq_getElem hLe
          rw [stateAt_succ hAt] at hNow ⊢
          cases hPrev : (stateAt gid log n).shardVec s with
          | true =>
              rw [ShardKV.applyCommand_mp_of_frozen hPrev
                hNow]
          | false =>
              symm
              apply pairsOf_step hPrev
                (hBuilt _ (List.mem_of_getElem? hAt)) hNow
              by_contra hRemoves
              rw [Bool.not_eq_false] at hRemoves
              have hRemoved : removedAt gid log s n =
                  true := by
                unfold removedAt
                rw [hAt, Option.any_some, hRemoves, hPrev]
                rfl
              rcases hSpec n (by omega) hRemoved with
                ⟨k', hK', hNk, hServedK'⟩
              have hFalse := hAgain k' hK' hServedK'
              omega

------------------------------------------------------------
-- Answered Gets
------------------------------------------------------------

theorem getFits_agrees
    (entries : List Op)
    {kv kv' : ShardKV}
    (hAgrees : kv.Agrees kv')
    (op : Op) :
    getFits entries kv op = getFits entries kv' op := by
  unfold getFits
  rw [hAgrees.stable_eq (Or.inl rfl), hAgrees.lastApplied,
    hAgrees.store]

/- The entry of a Get that was finished has an owner's read. -/
theorem served_of_finished
    {gid : Int}
    {log : List Op}
    (hBuilt : ∀ op ∈ log, op.Built)
    (hFits : ∀ n op,
      log[n]? = some op →
      getFits (log.take n) (stateAt gid log n) op = true)
    {n : Nat}
    {request : Request}
    {key : String}
    (hGet : request.args = .get key)
    (hFinished : Finished gid log n request) :
    ∃ k,
      k ≤ n ∧
      (∃ m op,
        m < k ∧ log[m]? = some op ∧
        op.sameRequest (request.op 0) = true) ∧
      (stateAt gid log k).shardVec (key2shard key) =
        true := by
  rcases hFinished with ⟨m, number, hM, hAt, hWhy⟩
  have hLt := (List.getElem?_eq_some_iff.mp hAt).1
  have hShard : (request.op number).shardNum =
      key2shard key := by
    change key2shard request.args.getKey = _
    rw [hGet]
    rfl
  have hArgs : (request.op number).args = .get key := hGet
  have hOwn : (request.op number).sameRequest
      (request.op 0) = true := by
    unfold Op.sameRequest Request.op
    simp
  have hClient : (request.op number).args.ofClient =
      true := by
    rw [hArgs]
    rfl
  cases hServed :
      (stateAt gid log m).shardVec (key2shard key) with
  | true =>
      refine ⟨m + 1, hM, ⟨m, _, by omega, hAt, hOwn⟩, ?_⟩
      rw [stateAt_succ hAt,
        ShardKV.applyCommand_shardVec_of_client hClient]
      exact hServed
  | false =>
      rcases hWhy with hStable | hApplies
      · -- Skipped: the condition names an earlier entry.
        have hFit := hFits m _ hAt
        unfold getFits at hFit
        rw [hArgs, stateAt_lastApplied gid (by omega),
          stateAt_gid] at hFit
        dsimp only at hFit
        rw [hStable, hServed] at hFit
        simp only [Bool.not_true, Bool.or_self,
          Bool.false_or, List.any_eq_true, List.mem_range,
          Bool.and_eq_true] at hFit
        rcases hFit with ⟨m', hM', hSame, hServed'⟩
        rw [List.length_take] at hM'
        cases hOld : (log.take m)[m']? with
        | none =>
            rw [hOld] at hSame
            cases hSame
        | some op =>
            rw [hOld, Option.any_some] at hSame
            rw [List.getElem?_take, if_pos (by omega)] at hOld
            rw [stateAt_take gid log (by omega)] at hServed'
            have hOldClient : op.args.ofClient = true := by
              have hId : op.ckId = request.id := by
                unfold Op.sameRequest at hSame
                simp only [Bool.and_eq_true,
                  decide_eq_true_eq] at hSame
                exact hSame.1.1
              apply (hBuilt op
                (List.mem_of_getElem? hOld)).ckId.mp
              rw [hId]
              exact (hBuilt _
                (List.mem_of_getElem? hAt)).ckId.mpr hClient
            refine ⟨m' + 1, by omega,
              ⟨m', op, by omega, hOld, hSame⟩, ?_⟩
            rw [stateAt_succ hOld,
              ShardKV.applyCommand_shardVec_of_client
                hOldClient]
            exact hServed'
      · rw [hGet] at hApplies
        change (stateAt gid log m).shardVec (key2shard key) =
          true at hApplies
        rw [hServed] at hApplies
        cases hApplies

omit [DecidableEq I] in
/- A request that is completed has an entry in the log. -/
theorem entry_of_completed
    {c : Cluster I}
    (hRegular : c.Regular)
    {gid : Int}
    {i : I}
    {nd : Node}
    (hNode : (c.groups gid).nodes i = some nd)
    {request : Request}
    (hCompleted : nd.kv.completed request = true) :
    ∃ m op,
      m < nd.kv.lastApplied.toNat ∧
      (c.groups gid).log[m]? = some op ∧
      op.sameRequest (request.op 0) = true := by
  have hDelivers := hRegular.delivers
  have hFollows := hDelivers.follows gid i nd hNode
  have hApplied := hFollows.applied_le
  have hDelivered := hFollows.delivered_le
  unfold ShardKV.completed at hCompleted
  split at hCompleted
  · next session hSession =>
      simp only [Bool.and_eq_true, decide_eq_true_eq]
        at hCompleted
      rcases hCompleted with ⟨⟨_, hReqNum⟩, hRecorded⟩
      rw [hFollows.state.ckSessions] at hSession
      rcases session_origin
        (hRegular.builds.log hDelivers gid) (by omega)
        hSession with
        ⟨m, op, hM, hAt, hKey, hNum⟩ | ⟨hMoved, _⟩
      · refine ⟨m, op, hM, hAt, ?_⟩
        rcases uniKey_injective hKey with ⟨hId, hShard⟩
        unfold Op.sameRequest Request.op
        simp [hId, hShard, hNum, hReqNum]
      · -- A session that was moved in has the index -1.
        split at hRecorded
        · next op hRecord =>
            have hPos := (hFollows.record _ _ hRecord).pos
            omega
        · cases hRecorded
  · cases hCompleted

/- A handler that waits returns OK only from a poll. -/
theorem Call.step_eq_poll
    {kv : ShardKV}
    {dead : Bool}
    {call : Call}
    {step : CallStep}
    {reply : Reply}
    (hStep : call.step kv dead step =
      some (.returned (some reply)))
    (hOk : reply.err = .ok)
    {op : Op}
    {index : Int}
    (hPhase : call.phase = .waiting op index) :
    step = .poll := by
  cases step with
  | poll => rfl
  | enter isLeader number index' =>
      unfold Call.step at hStep
      dsimp only at hStep
      rw [hPhase] at hStep
      cases hStep
  | timeout =>
      unfold Call.step at hStep
      dsimp only at hStep
      rw [hPhase] at hStep
      cases hStep
      cases hOk
  | stop =>
      unfold Call.step at hStep
      dsimp only at hStep
      split at hStep
      · cases hStep
      · cases hStep

/- The pairs of a shard determine what a Get reads there. -/
theorem getD_of_pairsOf
    {mp mp' : String → Option String}
    {key : String}
    (hPairs : pairsOf (key2shard key) mp =
      pairsOf (key2shard key) mp') :
    (mp key).getD "" = (mp' key).getD "" := by
  have hKey := congrFun hPairs key
  unfold pairsOf at hKey
  rw [if_pos rfl, if_pos rfl] at hKey
  rw [hKey]

omit [DecidableEq I] in
/- The answer that a handler gives to a Get. -/
theorem read_of_returned
    {c : Cluster I}
    (hRegular : c.Regular)
    {gid : Int}
    (hFits : ∀ n op,
      (c.groups gid).log[n]? = some op →
      getFits ((c.groups gid).log.take n)
        (stateAt gid (c.groups gid).log n) op = true)
    {i : I}
    {nd : Node}
    (hNode : (c.groups gid).nodes i = some nd)
    {k : Nat}
    {call : Call}
    (hCall : nd.handlers[k]? = some call)
    {step : CallStep}
    (hPoll : pollFits c (.node gid i (.handler k step)) =
      true)
    {reply : Reply}
    (hStep : call.step nd.kv nd.dead step =
      some (.returned (some reply)))
    (hOk : reply.err = .ok)
    {key : String}
    (hGet : call.request.args = .get key) :
    ReadsServed gid (c.groups gid).log call.request key
      reply.value := by
  have hDelivers := hRegular.delivers
  have hFollows := hDelivers.follows gid i nd hNode
  have hApplied := hFollows.applied_le
  have hDelivered := hFollows.delivered_le
  have hBuilt := hRegular.builds.log hDelivers gid
  have hMem := List.mem_of_getElem? hCall
  rcases Call.step_ok hStep hOk with ⟨hReply, hWhy⟩
  -- The value comes from the store of the server.
  have hValue : reply.value =
      ((stateAt gid (c.groups gid).log
        nd.kv.lastApplied.toNat).mp key).getD "" := by
    rw [hReply, hGet, ← hFollows.state.store]
    rfl
  rcases hWhy with
    ⟨op, index, finishedOp, hPhase, hLe, hRecord, hNumber⟩ |
      ⟨hCompleted, hServed⟩
  · have hFinished := finished_of_record hRegular hNode
      (Or.inl hMem) hPhase hLe hRecord hNumber
    rcases served_of_finished hBuilt hFits hGet hFinished
      with ⟨n₀, hN₀, ⟨m, op', hM, hAt, hSame⟩, hServed⟩
    have hStepPoll := Call.step_eq_poll hStep hOk hPhase
    subst hStepPoll
    have hKept : keptSinceServed gid (c.groups gid).log
        (key2shard key) nd.kv.lastApplied.toNat = true := by
      unfold pollFits at hPoll
      simp only [hNode, Option.all_some, hCall, hGet,
        hPhase, Bool.or_eq_true, Bool.not_eq_true'] at hPoll
      rcases hPoll with hNot | hKept
      · unfold ShardKV.hasFinished at hNot
        rw [hRecord, Option.any_some] at hNot
        simp [hLe, hNumber] at hNot
      · exact hKept
    rcases exists_served_pairs hBuilt (by omega) hN₀ hServed
      hKept with ⟨n, hFirst, hN, hServedN, hPairs⟩
    refine ⟨n, by omega, ⟨m, op', by omega, hAt, hSame⟩,
      hServedN, ?_⟩
    rw [hValue]
    exact getD_of_pairsOf hPairs
  · rcases entry_of_completed hRegular hNode hCompleted with
      ⟨m, op, hM, hAt, hSame⟩
    refine ⟨nd.kv.lastApplied.toNat, by omega,
      ⟨m, op, hM, hAt, hSame⟩, ?_, hValue.symm⟩
    rw [← hFollows.state.store]
    rw [hGet] at hServed
    apply hServed
    apply (hRegular.builds.arrives
      (hRegular.receives gid i nd call hNode hMem)).id.mpr
    rw [hGet]
    rfl

------------------------------------------------------------
-- Reads Are Of An Owned Shard
------------------------------------------------------------

/-
  In every run whose deliveries and polls are fitting, a Get
  is answered from a state in which its shard was served.
-/
theorem reads_of_owned_shard
    {c : Cluster I}
    (hReach : Cluster.system.Reachable
      (fun c action => readsFit c action = true) c)
    {answer : Answer}
    (hMem : answer ∈ c.answers)
    {key : String}
    (hGet : answer.request.args = .get key)
    (hOk : answer.reply.err = .ok) :
    ReadsServed answer.gid (c.groups answer.gid).log
      answer.request key answer.reply.value := by
  revert answer
  refine System.Reachable.induct (P := fun c : Cluster I =>
    ∀ {answer : Answer},
      answer ∈ c.answers →
      answer.request.args = .get key →
      answer.reply.err = .ok →
      ReadsServed answer.gid (c.groups answer.gid).log
        answer.request key answer.reply.value)
    ?_ ?_ hReach
  · intro c hInit answer hMem
    have hEmpty : c = Cluster.empty := hInit
    subst hEmpty
    cases hMem
  · intro c action c' hReach ih hFits hStep answer hMem hGet
      hOk
    unfold readsFit at hFits
    rw [Bool.and_eq_true] at hFits
    have hExtends :=
      Cluster.extends_of_step (Cluster.step_cases hStep)
    rcases hExtends.log answer.gid with ⟨ops, hLog⟩
    rw [hLog]
    apply ReadsServed.append
    rcases Cluster.answers_cases hStep with
      hSame | ⟨gid, i, k, step, nd, call, reply, hAction,
        hNode, hCall, hReturned, hAnswers⟩
    · rw [hSame] at hMem
      exact ih hMem hGet hOk
    · rw [hAnswers, List.mem_append,
        List.mem_singleton] at hMem
      rcases hMem with hOld | hNew
      · exact ih hOld hGet hOk
      · subst hNew
        rw [hAction] at hFits
        apply read_of_returned (regular_of_reachable hReach)
          (entries_of_reachable
            (fun entries _ _ op hAgrees =>
              getFits_agrees entries hAgrees op)
            (fun c action hOk => ?_) hReach gid)
          hNode hCall hFits.2 hReturned hOk hGet
        unfold readsFit at hOk
        rw [Bool.and_eq_true] at hOk
        exact hOk.1

/- The last answer is OK, to a Get of the key. -/
def lastRead
    (key : String)
    (p : Answer → Bool)
    (c : Cluster Unit) : Bool :=
  c.answers.getLast?.any fun answer =>
    match answer.request.args with
    | .get key' =>
        decide (key' = key) &&
          decide (answer.reply.err = .ok) && p answer
    | _ => false

theorem lastRead_cases
    {key : String}
    {p : Answer → Bool}
    {c : Cluster Unit}
    (hLast : lastRead key p c = true) :
    ∃ answer,
      answer ∈ c.answers ∧
      answer.request.args = .get key ∧
      answer.reply.err = .ok ∧
      p answer = true := by
  unfold lastRead at hLast
  rcases (Option.any_eq_true ..).mp hLast with
    ⟨answer, hAnswer, hP⟩
  refine ⟨answer, List.mem_of_getLast? hAnswer, ?_⟩
  split at hP
  · next key' hArgs =>
      simp only [Bool.and_eq_true, decide_eq_true_eq] at hP
      rcases hP with ⟨⟨hKey, hOk⟩, hP⟩
      rw [hKey] at hArgs
      exact ⟨hArgs, hOk, hP⟩
  · cases hP

/- Group 1 applies a Put, and then a Get. -/
def putsAndGets : List (Action Unit) :=
  firstGroup ++
    [.client 1 () ⟨3, 1, .put "a" "x"⟩] ++
    steps 1 [.handler 0 (.enter true 2 (some 3)),
      .commit 2, .handler 0 .poll] ++
    [.client 1 () ⟨3, 2, .get "a"⟩] ++
    steps 1 [.handler 0 (.enter true 3 (some 4)), .commit 3]

/- Polled at once, the Get reads what was put. -/
theorem reads_of_owned_shard_put :
    ∃ (c : Cluster Unit) (answer : Answer),
      Cluster.system.Reachable
        (fun c action => readsFit c action = true) c ∧
      answer ∈ c.answers ∧
      answer.request.args = .get "a" ∧
      answer.reply.err = .ok ∧
      answer.reply.value = "x" ∧
      ReadsServed answer.gid (c.groups answer.gid).log
        answer.request "a" answer.reply.value := by
  have hExec :
      (Cluster.system.execOk readsFit
          (putsAndGets ++ steps 1 [.handler 0 .poll])
          Cluster.empty).any
        (lastRead "a" fun answer =>
          decide (answer.reply.value = "x")) = true := by
    decide +kernel
  rcases Cluster.exists_reachable_of_execOk hExec with
    ⟨c, hReach, hLast⟩
  rcases lastRead_cases hLast with
    ⟨answer, hMem, hGet, hOk, hValue⟩
  exact ⟨c, answer, hReach, hMem, hGet, hOk,
    of_decide_eq_true hValue,
    reads_of_owned_shard hReach hMem hGet hOk⟩

/-
  The handler polls after the shard was moved to group 2 and
  deleted: it answers with the empty string.
-/
def pollsDeleted : List (Action Unit) :=
  putsAndGets ++ secondGroup 4 ++ pullsHalf ++
    steps 2 [.deleteSend 0] ++ [.deletion 0 ()] ++
    steps 1 [.handler 1 (.enter true 6 (some 7)), .commit 6,
      .handler 0 .poll]

theorem read_of_deleted_shard :
    ¬ ∀ (c : Cluster Unit),
      Cluster.system.Reachable System.always c →
      ∀ answer ∈ c.answers,
      ∀ key,
      answer.request.args = .get key →
      answer.reply.err = .ok →
      ReadsServed answer.gid (c.groups answer.gid).log
        answer.request key answer.reply.value := by
  intro hAll
  have hExec :
      (Cluster.system.exec pollsDeleted Cluster.empty).any
        (fun c => lastRead "a" (fun answer =>
          !decide (ReadsServed answer.gid
            (c.groups answer.gid).log answer.request "a"
            answer.reply.value)) c) = true := by
    decide +kernel
  rcases Cluster.exists_reachable_of_exec hExec with
    ⟨c, hReach, hLast⟩
  rcases lastRead_cases hLast with
    ⟨answer, hMem, hGet, hOk, hNot⟩
  rw [Bool.not_eq_true', decide_eq_false_iff_not] at hNot
  exact hNot (hAll c hReach answer hMem "a" hGet hOk)

end Shardkv

end RaftLab
