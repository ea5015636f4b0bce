import RaftLab.Shardkv.Conditions
import RaftLab.Shardkv.Movement

/-
  What an entry of DeleteShards may remove.

  DeleteShards for configuration n is refused for the shards
  whose shardLastNums is above n. A group that serves a shard
  its configuration gives to it has raised shardLastNums to
  that configuration, which is above n. Two ways of serving a
  shard do not raise it: UpdateShardVec turns on a shard that
  was with nobody, and a movement for an old configuration even
  lowers it.

  Main declarations:
    * `Shardkv.ShardKV.deletesFitting`
    * `Shardkv.Store.Holds`, `Shardkv.stateAt_holds`
    * `Shardkv.Cluster.DeletionsPlanned`
    * `Shardkv.live_data_kept`
    * `Shardkv.live_data_removed`
-/

------------------------------------------------------------
-- The Condition
------------------------------------------------------------

namespace RaftLab

namespace Shardkv

open Shardctrler (Shard Config)

/-
  A movement is for the configuration of the group or a later
  one, and a deletion does not pass the test of shardLastNums
  for a shard that is served while it is with nobody.
-/
def ShardKV.deletesFitting (kv : ShardKV) (op : Op) : Bool :=
  kv.stable (kv.lastApplied + 1) op ||
    match op.args with
    | .applyMovement _ _ config _ =>
        decide (kv.config.num ≤ config.num)
    | .deleteShards shards configNum =>
        decide (∀ s,
          shards s = true →
          kv.shardVec s = true →
          kv.config.shards s = 0 →
          configNum < kv.shardLastNums s)
    | _ => true

theorem ShardKV.deletesFitting_agrees
    {kv kv' : ShardKV}
    (hAgrees : kv.Agrees kv')
    (op : Op) :
    kv.deletesFitting op = kv'.deletesFitting op := by
  unfold deletesFitting
  rw [hAgrees.stable_eq (Or.inl rfl), hAgrees.lastApplied,
    hAgrees.store]

------------------------------------------------------------
-- Served Shards
------------------------------------------------------------

/-
  The shards of the group have its configuration's number, and
  a served shard is one of them, or was with nobody, or has
  arrived for the next configuration.
-/
structure Store.Holds (gid : Int) (st : Store) : Prop where
  last : ∀ s,
    st.config.shards s = gid →
    st.config.num ≤ st.shardLastNums s
  vec : ∀ s,
    st.shardVec s = true →
    st.config.shards s = gid ∨
      st.config.shards s = 0 ∨
      st.config.num < st.shardLastNums s

variable {I : Type}

/- An entry that is applied keeps this. -/
theorem Store.Holds.applyOp
    {c : Cluster I}
    (hPlans : c.Plans)
    {gid : Int}
    {n : Nat}
    (hLe : n ≤ (c.groups gid).log.length)
    (hHolds : (stateAt gid
      (c.groups gid).log n).toStore.Holds gid)
    {args : Args}
    (hPlanned : ArgsPlanned c gid n args)
    (hTimely : ∀ mp sessions config shards,
      args = .applyMovement mp sessions config shards →
      (stateAt gid (c.groups gid).log n).config.num ≤
        config.num) :
    ((stateAt gid (c.groups gid).log n).applyOp
      args).1.Holds gid := by
  have hGid := stateAt_gid gid (c.groups gid).log n
  have hAt := (hPlans.states gid n hLe).2
  generalize hKv : stateAt gid (c.groups gid).log n = kv at *
  cases args with
  | get key => exact hHolds
  | put key value =>
      unfold Store.applyOp
      dsimp only
      split
      · exact ⟨hHolds.last, hHolds.vec⟩
      · exact hHolds
  | append key value =>
      unfold Store.applyOp
      dsimp only
      split
      · exact ⟨hHolds.last, hHolds.vec⟩
      · exact hHolds
  | deleteShards shards configNum =>
      exact ⟨hHolds.last, hHolds.vec⟩
  | changeConfig config =>
      unfold Store.applyOp
      dsimp only
      split
      · constructor
        · intro s hOwner
          dsimp only at hOwner ⊢
          rw [hGid, if_pos hOwner]
        · intro s hServed
          dsimp only at hServed ⊢
          rw [hGid] at hServed
          exact Or.inl (of_decide_eq_true hServed)
      · exact hHolds
  | updateShardVec configNum newVec =>
      unfold Store.applyOp
      dsimp only
      split
      · next hLt =>
          have hUpdate := update_planned hPlans hLe hPlanned
          rw [hKv] at hUpdate
          rcases hUpdate hLt with ⟨_, next, _, rfl⟩
          refine ⟨hHolds.last, ?_⟩
          intro s hServed
          dsimp only at hServed
          unfold newShardVec at hServed
          simp only [Bool.and_eq_true, Bool.or_eq_true,
            decide_eq_true_eq] at hServed
          rcases hServed.1 with hOwn | hNobody
          · exact Or.inl hOwn
          · exact Or.inr (Or.inl hNobody)
      · exact hHolds
  | applyMovement mp sessions config shards =>
      have hNum := hTimely mp sessions config shards rfl
      have hNext := hPlanned.1.num_le
      rw [hKv] at hNext
      constructor
      · intro s hOwner
        change kv.config.shards s = gid at hOwner
        change kv.config.num ≤
          if shards s = true then config.num
          else kv.shardLastNums s
        split
        · exact hNum
        · exact hHolds.last s hOwner
      · intro s hServed
        change (shards s || kv.shardVec s) = true at hServed
        change kv.config.shards s = gid ∨
          kv.config.shards s = 0 ∨
          kv.config.num <
            if shards s = true then config.num
            else kv.shardLastNums s
        split
        · next hMoved =>
            by_cases hSame : config.num = kv.config.num
            · -- The movement is for the present configuration.
              left
              have hConfig := hPlanned.1.config
              rw [hSame, hAt] at hConfig
              cases hConfig
              exact hPlanned.2 s hMoved
            · right
              right
              omega
        · next hStays =>
            rw [Bool.not_eq_true] at hStays
            rw [hStays, Bool.false_or] at hServed
            exact hHolds.vec s hServed

/- Every entry that the log has is planned in its place. -/
theorem Cluster.Plans.entry
    {c : Cluster I}
    (hPlans : c.Plans)
    (hDelivers : c.Delivers)
    {gid : Int}
    {n : Nat}
    {op : Op}
    (hAt : (c.groups gid).log[n]? = some op) :
    ArgsPlanned c gid n op.args :=
  hPlans.started gid (n + 1) op
    (hDelivers.log_started gid n op hAt)

theorem stateAt_holds
    {c : Cluster I}
    (hRegular : c.Regular)
    {gid : Int}
    (hFitting : ∀ n op,
      (c.groups gid).log[n]? = some op →
      (stateAt gid (c.groups gid).log n).deletesFitting op =
        true)
    {n : Nat}
    (hLe : n ≤ (c.groups gid).log.length) :
    (stateAt gid (c.groups gid).log n).Holds gid := by
  have hPlans := hRegular.plans
  induction n with
  | zero =>
      constructor
      · intro s _
        exact le_refl (0 : Int)
      · intro s hServed
        cases hServed
  | succ n ih =>
      have hAt := List.getElem?_eq_getElem hLe
      have hPlanned := hPlans.entry hRegular.delivers hAt
      have hHolds := ih (by omega)
      rw [stateAt_succ hAt]
      rcases (stateAt gid (c.groups gid).log
        n).applyCommand_store_cases (n + 1) _ with
        hSame | ⟨hStable, _, hApplied⟩
      · rw [hSame]
        exact hHolds
      · rw [hApplied]
        refine hHolds.applyOp hPlans (by omega) hPlanned ?_
        intro mp sessions config shards hArgs
        have hFits := hFitting n _ hAt
        unfold ShardKV.deletesFitting at hFits
        rw [stateAt_lastApplied gid (by omega), hStable,
          hArgs] at hFits
        simpa using hFits

------------------------------------------------------------
-- Deletions
------------------------------------------------------------

/-
  The group had reached configuration `num` at or before index
  `bound`.
-/
def Reached
    (c : Cluster I)
    (gid : Int)
    (bound : Nat)
    (num : Int) : Prop :=
  ∃ p,
    p ≤ bound ∧ p ≤ (c.groups gid).log.length ∧
    num ≤ (stateAt gid (c.groups gid).log p).config.num

/-
  DeleteShards is for a configuration that the group has
  reached, and that gives the shards to another group.
-/
def DeletionPlanned
    (c : Cluster I)
    (gid : Int)
    (bound : Nat) :
    Args → Prop
| .deleteShards shards configNum =>
    Reached c gid bound configNum ∧
      ∃ next,
        next.num = configNum ∧
        c.configs[configNum.toNat]? = some next ∧
        ∀ s, shards s = true → next.shards s ≠ gid
| _ => True

theorem Reached.mono
    {c c' : Cluster I}
    (hExtends : c.Extends c')
    {gid : Int}
    {bound bound' : Nat}
    (hLe : bound ≤ bound')
    {num : Int}
    (hReached : Reached c gid bound num) :
    Reached c' gid bound' num := by
  rcases hReached with ⟨p, hP, hLog, hNum⟩
  have hLength := hExtends.length_log gid
  refine ⟨p, by omega, by omega, ?_⟩
  rw [hExtends.stateAt hLog]
  exact hNum

theorem DeletionPlanned.mono
    {c c' : Cluster I}
    (hExtends : c.Extends c')
    {gid : Int}
    {bound bound' : Nat}
    (hLe : bound ≤ bound')
    {args : Args}
    (hPlanned : DeletionPlanned c gid bound args) :
    DeletionPlanned c' gid bound' args := by
  cases args with
  | deleteShards shards configNum =>
      rcases hPlanned with ⟨hReached, next, hNum, hAt, hNot⟩
      exact ⟨hReached.mono hExtends hLe, next, hNum,
        hExtends.getElem?_configs hAt, hNot⟩
  | _ => exact trivial

/- The replies without error, and the entries of groups. -/
structure Cluster.DeletionsPlanned (c : Cluster I) :
    Prop where
  pulls : ∀ record ∈ c.pulls,
    record.reply.err = .ok →
    Reached c record.gid (c.groups record.gid).log.length
      record.args.configNum
  -- or another entry was delivered at this index
  entries : ∀ gid index op,
    (index, op) ∈ (c.groups gid).started →
    (1 ≤ index ∧ index ≤ (c.groups gid).log.length ∧
      (c.groups gid).log[index - 1]? ≠ some op) ∨
    DeletionPlanned c gid (index - 1) op.args

/- What was sent is planned at the end of the log. -/
theorem Cluster.DeletionsPlanned.arrives
    {c : Cluster I}
    (hDeletions : c.DeletionsPlanned)
    (hRegular : c.Regular)
    (hMoves : c.Moves)
    {gid : Int}
    {request : Request}
    (hArrives : c.Arrives gid request) :
    DeletionPlanned c gid (c.groups gid).log.length
      request.args := by
  rcases hArrives with ⟨_, hClient⟩ | ⟨sender, hSent⟩
  · cases hArgs : request.args with
    | deleteShards shards configNum =>
        rw [hArgs] at hClient
        cases hClient
    | _ => exact trivial
  · rcases hMoves.deletes _ hSent with
      ⟨next, shards, hArgs, n, op, mp, sessions, hAt, hOp, _,
        record, hRecord, hGid, _, hNum, hOk, _⟩
    have hPlanned := hRegular.plans.entry hRegular.delivers
      hAt
    rw [hOp] at hPlanned
    have hReached := hDeletions.pulls record hRecord hOk
    dsimp only at hArgs hGid
    rw [hGid, hNum] at hReached
    rw [hArgs]
    refine ⟨hReached, next, rfl, hPlanned.1.config, ?_⟩
    intro s hS hOwner
    have hSender := hPlanned.2 s hS
    have hNe := (hRegular.named.deletes _ hSent).2
    exact hNe (hSender.symm.trans hOwner)

/- A new entry is planned, or comes too late for its index. -/
theorem Cluster.DeletionsPlanned.started
    {c : Cluster I}
    (hDeletions : c.DeletionsPlanned)
    (hRegular : c.Regular)
    (hMoves : c.Moves)
    {gid : Int}
    {i : I}
    {nd : Node}
    (hNode : (c.groups gid).nodes i = some nd)
    {call : Call}
    (hCall : call ∈ nd.handlers ∨ call ∈ nd.poll.calls)
    {number : Int}
    (hFresh : (c.world gid).fresh number = true)
    {index : Nat}
    (hIndex : nd.delivered < index) :
    (1 ≤ index ∧ index ≤ (c.groups gid).log.length ∧
      (c.groups gid).log[index - 1]? ≠
        some (call.request.op number)) ∨
    DeletionPlanned c gid (index - 1) call.request.args := by
  rcases Nat.lt_or_ge (c.groups gid).log.length index with
    hNew | hOld
  · right
    rcases hCall with hHandler | hPoll
    · have hArrives := hRegular.receives gid i nd call hNode
        hHandler
      exact (hDeletions.arrives hRegular hMoves
        hArrives).mono (Cluster.Extends.refl c) (by omega)
    · have hOwn := (hRegular.builds.calls gid i nd call hNode
        hPoll).2
      cases hArgs : call.request.args with
      | deleteShards shards configNum =>
          rw [hArgs] at hOwn
          cases hOwn
      | _ => exact trivial
  · left
    refine ⟨by omega, hOld, ?_⟩
    intro hAt
    have hEntry := hRegular.delivers.log_started gid _ _ hAt
    exact (World.fresh_iff.mp hFresh).2 _ hEntry rfl

/- What is planned stays so when the cluster grows. -/
theorem Cluster.DeletionsPlanned.extend
    {c c' : Cluster I}
    (hDeletions : c.DeletionsPlanned)
    (hExtends : c.Extends c')
    (hPulls : ∀ record ∈ c'.pulls,
      record ∈ c.pulls ∨
        (record.reply.err = .ok →
          Reached c record.gid
            (c.groups record.gid).log.length
            record.args.configNum))
    (hStarted : ∀ gid index op,
      (index, op) ∈ (c'.groups gid).started →
      (index, op) ∈ (c.groups gid).started ∨
        (1 ≤ index ∧ index ≤ (c.groups gid).log.length ∧
          (c.groups gid).log[index - 1]? ≠ some op) ∨
        DeletionPlanned c gid (index - 1) op.args) :
    c'.DeletionsPlanned := by
  constructor
  · intro record hMem hOk
    have hReached : Reached c record.gid
        (c.groups record.gid).log.length
        record.args.configNum := by
      rcases hPulls record hMem with hOld | hNew
      · exact hDeletions.pulls record hOld hOk
      · exact hNew hOk
    exact hReached.mono hExtends
      (hExtends.length_log record.gid)
  · intro gid index op hMem
    have hBefore :
        (1 ≤ index ∧ index ≤ (c.groups gid).log.length ∧
          (c.groups gid).log[index - 1]? ≠ some op) ∨
        DeletionPlanned c gid (index - 1) op.args := by
      rcases hStarted gid index op hMem with hOld | hNew
      · exact hDeletions.entries gid index op hOld
      · exact hNew
    rcases hBefore with ⟨hPos, hLe, hNe⟩ | hPlanned
    · left
      rcases hExtends.log gid with ⟨ops, hOps⟩
      rw [hOps, List.length_append,
        List.getElem?_append_left (by omega)]
      exact ⟨hPos, by omega, hNe⟩
    · right
      exact hPlanned.mono hExtends (le_refl _)

variable [DecidableEq I]

theorem Cluster.DeletionsPlanned.step
    {c c' : Cluster I}
    (hDeletions : c.DeletionsPlanned)
    (hRegular : c.Regular)
    (hMoves : c.Moves)
    (hStep : ClusterStep c c') :
    c'.DeletionsPlanned := by
  refine hDeletions.extend (Cluster.extends_of_step hStep)
    ?_ ?_
  · intro record hMem
    cases hStep with
    | control op configs hApply => exact Or.inl hMem
    | start gid i uid hGid hNeg hFresh =>
        left
        simpa [pullsOf] using hMem
    | receive gid i nd request hNode hArrives =>
        left
        simpa [pullsOf] using hMem
    | node gid i nd nd' effects hNode hStep =>
        rw [Cluster.after_pulls, List.mem_append] at hMem
        rcases hMem with hOld | hNew
        · exact Or.inl hOld
        · right
          intro hOk
          rcases hStep.pulls_cases gid with
            hNone | ⟨isLeader, args, hOne⟩
          · rw [hNone] at hNew
            cases hNew
          · rw [hOne] at hNew
            rw [List.mem_singleton.mp hNew] at hOk ⊢
            have hFollows := hRegular.delivers.follows gid i
              nd hNode
            have hApplied := hFollows.applied_le
            have hDelivered := hFollows.delivered_le
            have hNum :=
              (ShardKV.requestMapAndSession_ok hOk).1
            rw [hFollows.config] at hNum
            dsimp only
            exact ⟨nd.kv.lastApplied.toNat, by omega,
              by omega, hNum⟩
  · intro gid' index op hMem
    cases hStep with
    | control op configs hApply => exact Or.inl hMem
    | start gid i uid hGid hNeg hFresh =>
        exact Or.inl (Cluster.mem_after_nil_started.mp hMem)
    | receive gid i nd request hNode hArrives =>
        exact Or.inl (Cluster.mem_after_nil_started.mp hMem)
    | node gid i nd nd' effects hNode hStep =>
        rcases Cluster.mem_after_started.mp hMem with
          hOld | ⟨rfl, hNew⟩
        · exact Or.inl hOld
        · right
          rcases hStep.starts_cases with
            hNone | ⟨call, number, index', hCall, hIndex,
              hFresh, hOne⟩
          · rw [hNone] at hNew
            cases hNew
          · rw [hOne] at hNew
            cases List.mem_singleton.mp hNew
            exact hDeletions.started hRegular hMoves hNode
              hCall hFresh hIndex

theorem deletionsPlanned_of_reachable
    {ok : Cluster I → Action I → Prop}
    {c : Cluster I}
    (hReach : Cluster.system.Reachable ok c) :
    c.DeletionsPlanned := by
  refine System.Reachable.induct
    (P := fun c : Cluster I => c.DeletionsPlanned) ?_ ?_
    hReach
  · intro c hInit
    have hEmpty : c = Cluster.empty := hInit
    subst hEmpty
    constructor
    · intro record hMem
      cases hMem
    · intro gid index op hMem
      cases hMem
  · intro c action c' hReach hDeletions _ hStep
    exact hDeletions.step (regular_of_reachable hReach)
      (moves_of_reachable hReach) (Cluster.step_cases hStep)

omit [DecidableEq I] in
/- An entry that may be delivered is planned in its place. -/
theorem Cluster.MayDeliver.deletionPlanned
    {c : Cluster I}
    (hDeletions : c.DeletionsPlanned)
    (hDelivers : c.Delivers)
    {gid : Int}
    {nd : Node}
    {op : Op}
    (hDeliver : c.MayDeliver gid nd op) :
    DeletionPlanned c gid nd.kv.lastApplied.toNat
      op.args := by
  rcases hDeliver with hAt | ⟨hApplied, hEntry⟩
  · rcases hDeletions.entries gid _ op
      (hDelivers.log_started gid _ op hAt) with
      ⟨_, _, hNe⟩ | hPlanned
    · exact absurd hAt hNe
    · exact hPlanned
  · rw [hApplied]
    rcases hDeletions.entries gid _ op hEntry with
      ⟨_, hLe, _⟩ | hPlanned
    · omega
    · exact hPlanned

------------------------------------------------------------
-- Live Data
------------------------------------------------------------

omit [DecidableEq I] in
/- A served shard is refused by a planned deletion. -/
theorem Store.Holds.refused
    {c : Cluster I}
    (hRegular : c.Regular)
    {gid : Int}
    {n : Nat}
    (hLe : n ≤ (c.groups gid).log.length)
    (hHolds : (stateAt gid
      (c.groups gid).log n).toStore.Holds gid)
    {shards : Shard → Bool}
    {configNum : Int}
    (hPlanned : DeletionPlanned c gid n
      (.deleteShards shards configNum))
    {s : Shard}
    (hServed :
      (stateAt gid (c.groups gid).log n).shardVec s = true)
    (hNobody :
      (stateAt gid (c.groups gid).log n).config.shards s =
        0 →
      configNum <
        (stateAt gid (c.groups gid).log n).shardLastNums s)
    (hNamed : shards s = true) :
    configNum <
      (stateAt gid (c.groups gid).log n).shardLastNums s := by
  rcases hPlanned with
    ⟨⟨p, hP, _, hReached⟩, next, hNum, hAt, hNot⟩
  have hMono := stateAt_num_mono gid (c.groups gid).log hP
  rcases hHolds.vec s hServed with hOwn | hZero | hLater
  · have hLast := hHolds.last s hOwn
    have hNe : configNum ≠
        (stateAt gid (c.groups gid).log n).config.num := by
      -- The deletion's configuration gives it to another.
      intro hEq
      rw [hEq, (hRegular.plans.states gid n hLe).2] at hAt
      cases hAt
      exact hNot s hNamed hOwn
    omega
  · exact hNobody hZero
  · omega

/- An entry of DeleteShards and a shard that it refuses. -/
theorem ShardKV.applyCommand_refused
    {kv : ShardKV}
    (hKeyed : SessionsKeyed kv.ckSessions)
    (commandIndex : Int)
    {op : Op}
    (hServer : op.ckId < 0)
    {shards : Shard → Bool}
    {configNum : Int}
    (hArgs : op.args = .deleteShards shards configNum)
    {s : Shard}
    (hRefused :
      kv.stable commandIndex op = false →
      shards s = true →
      configNum < kv.shardLastNums s) :
    (∀ key,
      key2shard key = s →
      (kv.applyCommand commandIndex op).mp key =
        kv.mp key) ∧
    ∀ ckId,
      0 ≤ ckId →
      (kv.applyCommand commandIndex op).ckSessions
          (uniKey ckId s) =
        kv.ckSessions (uniKey ckId s) := by
  have hOther : ∀ ckId, 0 ≤ ckId →
      uniKey ckId s ≠ op.uniKey := by
    intro ckId hId hKey
    have hSame := (uniKey_injective hKey).1
    omega
  unfold applyCommand
  dsimp only
  split
  · refine ⟨fun key _ => rfl, ?_⟩
    intro ckId hId
    exact Function.update_of_ne (hOther ckId hId) ..
  · next hStable =>
      rw [Bool.not_eq_true] at hStable
      have hNot : kv.deletedShards shards configNum s =
          false := by
        unfold Store.deletedShards
        cases hNamed : shards s with
        | false => rfl
        | true => simp [hRefused hStable hNamed]
      rw [hArgs]
      constructor
      · intro key hKey
        change (if kv.deletedShards shards configNum
          (key2shard key) = true then none
          else kv.mp key) = kv.mp key
        rw [hKey, hNot]
        rfl
      · intro ckId hId
        change Function.update (applySessions kv.toStore
          kv.ckSessions (.deleteShards shards configNum))
          op.uniKey _ (uniKey ckId s) = _
        rw [Function.update_of_ne (hOther ckId hId)]
        unfold applySessions
        dsimp only
        cases hSession : kv.ckSessions (uniKey ckId s) with
        | none => rfl
        | some session =>
            -- A session at this key is one of the shard.
            rcases hKeyed _ session hSession with
              ⟨ckId', hKey⟩
            have hShard := (uniKey_injective hKey).2
            dsimp only
            rw [← hShard, hNot]
            simp

/-
  In every run whose deliveries are all fitting, an entry of
  DeleteShards leaves the pairs and the sessions of clients of
  the served shards as they are.
-/
theorem live_data_kept
    {c : Cluster I}
    (hReach : Cluster.system.Reachable
      (fun c action =>
        DeliversOnly (fun _ => ShardKV.deletesFitting) c
          action = true) c)
    {gid : Int}
    {i : I}
    {nd : Node}
    (hNode : (c.groups gid).nodes i = some nd)
    {op : Op}
    (hDeliver : c.MayDeliver gid nd op)
    (hFitting : nd.kv.deletesFitting op = true)
    {shards : Shard → Bool}
    {configNum : Int}
    (hArgs : op.args = .deleteShards shards configNum)
    {s : Shard}
    (hServed : nd.kv.shardVec s = true) :
    (∀ key,
      key2shard key = s →
      (nd.deliver op).kv.mp key = nd.kv.mp key) ∧
    ∀ ckId,
      0 ≤ ckId →
      (nd.deliver op).kv.ckSessions (uniKey ckId s) =
        nd.kv.ckSessions (uniKey ckId s) := by
  have hRegular := regular_of_reachable hReach
  have hDelivers := hRegular.delivers
  have hFollows := hDelivers.follows gid i nd hNode
  have hApplied := hFollows.applied_le
  have hDelivered := hFollows.delivered_le
  have hStore := hFollows.state.store
  have hHolds := stateAt_holds hRegular
    (entries_of_reachable
      (fun _ _ _ op hAgrees =>
        ShardKV.deletesFitting_agrees hAgrees op)
      (fun _ _ hOk => hOk) hReach gid)
    (n := nd.kv.lastApplied.toNat) (by omega)
  have hPlanned := hDeliver.deletionPlanned
    (deletionsPlanned_of_reachable hReach) hDelivers
  rw [hArgs] at hPlanned
  have hServer : op.ckId < 0 := by
    have hBuilt := hRegular.builds.started gid _
      (hDeliver.started hDelivers)
    have hNot : ¬ 0 ≤ op.ckId := by
      intro hId
      have hClient := hBuilt.ckId.mp hId
      rw [hArgs] at hClient
      cases hClient
    omega
  apply ShardKV.applyCommand_refused
    (hRegular.builds.keyed hDelivers hNode) _ hServer hArgs
  intro hStable hNamed
  unfold ShardKV.deletesFitting at hFitting
  rw [hStable, hArgs, Bool.false_or,
    decide_eq_true_eq] at hFitting
  rw [hStore] at hServed hFitting ⊢
  exact hHolds.refused hRegular (by omega) hPlanned hServed
    (fun hNobody => hFitting s hNamed hServed hNobody) hNamed

/-
  The next entry of group 1 is DeleteShards, the entry `k`
  that was started, and `p` holds of the server and it.
-/
def deletesNext
    (k : Nat)
    (p : Node → Op → Bool)
    (c : Cluster Unit) : Bool :=
  match (c.groups 1).nodes (), (c.groups 1).started[k]? with
  | some nd, some (index, op) =>
      decide (nd.kv.lastApplied =
          (c.groups 1).log.length) &&
        decide (index = (c.groups 1).log.length + 1) &&
        match op.args with
        | .deleteShards _ _ => p nd op
        | _ => false
  | _, _ => false

theorem deletesNext_cases
    {k : Nat}
    {p : Node → Op → Bool}
    {c : Cluster Unit}
    (hNext : deletesNext k p c = true) :
    ∃ nd op shards configNum,
      (c.groups 1).nodes () = some nd ∧
      c.MayDeliver 1 nd op ∧
      op.args = .deleteShards shards configNum ∧
      p nd op = true := by
  unfold deletesNext at hNext
  split at hNext
  · next nd index op hNode hStarted =>
      simp only [Bool.and_eq_true, decide_eq_true_eq]
        at hNext
      rcases hNext with ⟨⟨hApplied, rfl⟩, hArgs⟩
      split at hArgs
      · next shards configNum hDelete =>
          exact ⟨nd, op, shards, configNum, hNode,
            Or.inr ⟨hApplied, List.mem_of_getElem? hStarted⟩,
            hDelete, hArgs⟩
      · cases hArgs
  · cases hNext

/- Group 2 has its half and asks group 1 to delete it. -/
def deletesHalf : List (Action Unit) :=
  firstGroup ++ secondGroup 2 ++ pullsHalf ++
    steps 2 [.deleteSend 0]

/- The deletion comes while group 1 serves the other half. -/
theorem live_data_kept_half :
    ∃ (c : Cluster Unit) (nd : Node) (op : Op)
        (shards : Shard → Bool) (configNum : Int),
      Cluster.system.Reachable
        (fun c action =>
          DeliversOnly (fun _ => ShardKV.deletesFitting) c
            action = true) c ∧
      (c.groups 1).nodes () = some nd ∧
      c.MayDeliver 1 nd op ∧
      nd.kv.deletesFitting op = true ∧
      op.args = .deleteShards shards configNum ∧
      nd.kv.shardVec (key2shard "d") = true ∧
      (nd.deliver op).kv.mp "d" = nd.kv.mp "d" := by
  have hExec :
      (Cluster.system.execOk
          (DeliversOnly fun _ => ShardKV.deletesFitting)
          (deletesHalf ++ [.deletion 0 ()] ++
            steps 1 [.handler 0 (.enter true 4 (some 5))])
          Cluster.empty).any
        (deletesNext 4 fun nd op =>
          nd.kv.deletesFitting op &&
            nd.kv.shardVec (key2shard "d")) = true := by
    decide +kernel
  rcases Cluster.exists_reachable_of_execOk hExec with
    ⟨c, hReach, hNext⟩
  rcases deletesNext_cases hNext with
    ⟨nd, op, shards, configNum, hNode, hDeliver, hArgs, hP⟩
  rw [Bool.and_eq_true] at hP
  have hKept := (live_data_kept hReach hNode hDeliver hP.1
    hArgs hP.2).1 "d" rfl
  exact ⟨c, nd, op, shards, configNum, hReach, hNode,
    hDeliver, hP.1, hArgs, hP.2, hKept⟩

def leaves (gids : List Int) : Action Unit :=
  .control {
    number := 0
    reqNum := 0
    ckId := 0
    args := .leave gids }

/-
  Before the deletion comes both groups leave and group 1
  joins again: it gets every shard from nobody, and a client
  writes to one of the half that was moved.
-/
def reclaimed : List (Action Unit) :=
  deletesHalf ++ [leaves [1, 2]] ++
    steps 1 ([.next true, .query true] ++ updates 4 ++
      [.wait true, .wait true] ++ changes 5) ++
    [joins 1] ++
    steps 1 ([.next true, .query true] ++ updates 6) ++
    [.client 1 () ⟨3, 1, .put "a" "x"⟩] ++
    steps 1 [.handler 0 (.enter true 7 (some 8)),
      .commit 7] ++
    [.deletion 0 ()] ++
    steps 1 [.handler 1 (.enter true 8 (some 9))]

/- The deletion then removes what the client has written. -/
theorem live_data_removed :
    ¬ ∀ (c : Cluster Unit),
      Cluster.system.Reachable System.always c →
      ∀ (gid : Int) (i : Unit) (nd : Node) (op : Op),
      (c.groups gid).nodes i = some nd →
      c.MayDeliver gid nd op →
      ∀ (shards : Shard → Bool) (configNum : Int),
      op.args = .deleteShards shards configNum →
      ∀ s, nd.kv.shardVec s = true →
      (∀ key,
        key2shard key = s →
        (nd.deliver op).kv.mp key = nd.kv.mp key) ∧
      ∀ ckId,
        0 ≤ ckId →
        (nd.deliver op).kv.ckSessions (uniKey ckId s) =
          nd.kv.ckSessions (uniKey ckId s) := by
  intro hAll
  have hExec :
      (Cluster.system.exec reclaimed Cluster.empty).any
        (deletesNext 8 fun nd op =>
          nd.kv.shardVec (key2shard "a") &&
            decide (nd.kv.mp "a" = some "x") &&
            decide ((nd.deliver op).kv.mp "a" = none)) =
        true := by
    decide +kernel
  rcases Cluster.exists_reachable_of_exec hExec with
    ⟨c, hReach, hNext⟩
  rcases deletesNext_cases hNext with
    ⟨nd, op, shards, configNum, hNode, hDeliver, hArgs, hP⟩
  simp only [Bool.and_eq_true, decide_eq_true_eq] at hP
  rcases hP with ⟨⟨hServed, hBefore⟩, hAfter⟩
  have hSame := (hAll c hReach 1 () nd op hNode hDeliver
    shards configNum hArgs _ hServed).1 "a" rfl
  rw [hBefore, hAfter] at hSame
  cases hSame

end Shardkv

end RaftLab
