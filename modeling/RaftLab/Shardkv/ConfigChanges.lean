import RaftLab.Shardkv.Delivery

/-
  How a group goes from one configuration to the next.

  A server plans its next configuration from the state after
  some entries of the log, and the entries it then starts come
  behind them. So when such an entry is delivered, the group
  has at least the configuration the plan was made from; it
  takes effect only if the group still has exactly that one.

  Main declarations:
    * `Shardkv.Planned`, `Shardkv.ArgsPlanned`
    * `Shardkv.Poll.Planned`, `Shardkv.Cluster.Plans`
    * `Shardkv.plans_of_reachable`
    * `Shardkv.config_changes_by_one`
-/

------------------------------------------------------------
-- Configurations Of A State
------------------------------------------------------------

namespace RaftLab

namespace Shardkv

open Shardctrler (Shard Config)

/- What an entry does to the configuration. -/
theorem ShardKV.applyCommand_config
    (kv : ShardKV)
    (commandIndex : Int)
    (op : Op) :
    (kv.applyCommand commandIndex op).config = kv.config ∨
      ∃ config,
        op.args = .changeConfig config ∧
        kv.stable commandIndex op = false ∧
        kv.config.num < config.num ∧
        (kv.applyCommand commandIndex op).config =
          config := by
  unfold applyCommand
  dsimp only
  split
  · exact Or.inl rfl
  · next hStable =>
      rw [Bool.not_eq_true] at hStable
      split
      · cases hArgs : op.args with
        | changeConfig config =>
            unfold Store.applyOp
            dsimp only
            split
            · next hLt =>
                exact Or.inr ⟨config, rfl, hStable, hLt, rfl⟩
            · exact Or.inl rfl
        | get key => exact Or.inl rfl
        | put key value =>
            left
            unfold Store.applyOp
            dsimp only
            split <;> rfl
        | append key value =>
            left
            unfold Store.applyOp
            dsimp only
            split <;> rfl
        | applyMovement mp sessions config shards =>
            exact Or.inl rfl
        | deleteShards shards configNum => exact Or.inl rfl
        | updateShardVec configNum newVec =>
            left
            unfold Store.applyOp
            dsimp only
            split <;> rfl
      · exact Or.inl rfl

/- The number of the configuration never falls. -/
theorem stateAt_num_mono
    (gid : Int)
    (log : List Op)
    {n m : Nat}
    (hLe : n ≤ m) :
    (stateAt gid log n).config.num ≤
      (stateAt gid log m).config.num := by
  induction m with
  | zero =>
      have hZero : n = 0 := by omega
      rw [hZero]
  | succ m ih =>
      by_cases hEq : n = m + 1
      · rw [hEq]
      · have hBefore := ih (by omega)
        cases hAt : log[m]? with
        | none =>
            have hSame : stateAt gid log (m + 1) =
                stateAt gid log m := by
              unfold stateAt
              rw [List.take_add_one, hAt]
              simp
            rw [hSame]
            exact hBefore
        | some op =>
            rw [stateAt_succ hAt]
            rcases (stateAt gid log m).applyCommand_config
              (m + 1) op with hSame |
              ⟨config, _, _, hLt, hNew⟩
            · rw [hSame]
              exact hBefore
            · rw [hNew]
              omega

------------------------------------------------------------
-- Plans
------------------------------------------------------------

variable {I : Type}

/-
  A configuration planned from a state of the group at or
  before index `bound`.
-/
structure Planned
    (c : Cluster I)
    (gid : Int)
    (bound : Nat)
    (next : Config) : Prop where
  pos : 1 ≤ next.num
  config : c.configs[next.num.toNat]? = some next
  timely : ∃ p,
    p ≤ bound ∧ p ≤ (c.groups gid).log.length ∧
    (stateAt gid (c.groups gid).log p).config.num + 1 =
      next.num

/- The same for the arguments of an entry. -/
def ArgsPlanned
    (c : Cluster I)
    (gid : Int)
    (bound : Nat) :
    Args → Prop
| .changeConfig next => Planned c gid bound next
| .updateShardVec configNum newVec =>
    ∃ config next,
      Planned c gid bound next ∧
      next.num = configNum ∧
      c.configs[(configNum - 1).toNat]? = some config ∧
      newVec = newShardVec gid config next
| .applyMovement _ _ next shards =>
    Planned c gid bound next ∧
      ∀ s, shards s = true → next.shards s = gid
| _ => True

/- The arguments that come from outside of the group. -/
def Args.External (args : Args) : Prop :=
  args.ofClient = true ∨
    ∃ shards configNum, args = .deleteShards shards configNum

theorem Args.External.planned
    {args : Args}
    (hExternal : args.External)
    (c : Cluster I)
    (gid : Int)
    (bound : Nat) :
    ArgsPlanned c gid bound args := by
  rcases hExternal with hClient | ⟨shards, configNum, rfl⟩
  · cases args with
    | get key => exact trivial
    | put key value => exact trivial
    | append key value => exact trivial
    | _ => cases hClient
  · exact trivial

theorem Planned.mono
    {c c' : Cluster I}
    (hExtends : c.Extends c')
    {gid : Int}
    {bound bound' : Nat}
    (hLe : bound ≤ bound')
    {next : Config}
    (hPlanned : Planned c gid bound next) :
    Planned c' gid bound' next := by
  rcases hPlanned with ⟨hPos, hConfig, p, hP, hLog, hNum⟩
  refine ⟨hPos, hExtends.getElem?_configs hConfig, p,
    by omega, ?_, ?_⟩
  · have hLength := hExtends.length_log gid
    omega
  · rw [hExtends.stateAt hLog]
    exact hNum

theorem ArgsPlanned.mono
    {c c' : Cluster I}
    (hExtends : c.Extends c')
    {gid : Int}
    {bound bound' : Nat}
    (hLe : bound ≤ bound')
    {args : Args}
    (hPlanned : ArgsPlanned c gid bound args) :
    ArgsPlanned c' gid bound' args := by
  cases args with
  | changeConfig next =>
      exact Planned.mono hExtends hLe hPlanned
  | updateShardVec configNum newVec =>
      rcases hPlanned with
        ⟨config, next, hNext, hNum, hConfig, hVec⟩
      exact ⟨config, next, hNext.mono hExtends hLe, hNum,
        hExtends.getElem?_configs hConfig, hVec⟩
  | applyMovement mp sessions next shards =>
      exact ⟨hPlanned.1.mono hExtends hLe, hPlanned.2⟩
  | _ => exact trivial

/- The shards a group gets from another one, all of them. -/
def Aimed
    (gid : Int)
    (oldConfig next : Config)
    (src : Int)
    (shards : Shard → Bool) : Prop :=
  shards = needed gid oldConfig next src ∧ src ≠ gid

/- What pollConfig holds in its hands. -/
def Poll.Planned
    (c : Cluster I)
    (gid : Int)
    (bound : Nat) :
    Poll → Prop
| .idle => True
| .changing latest => latest ∈ c.configs
| .updating latest next call =>
    latest ∈ c.configs ∧
      Shardkv.Planned c gid bound next ∧
      ArgsPlanned c gid bound call.request.args
| .updated latest next _ =>
    latest ∈ c.configs ∧ Shardkv.Planned c gid bound next
| .moving latest oldConfig next pulls _ =>
    latest ∈ c.configs ∧
      Shardkv.Planned c gid bound next ∧
      ∀ pull ∈ pulls,
        Aimed gid oldConfig next pull.src pull.shards ∧
        ∀ call,
          pull.state = .moving call →
          ArgsPlanned c gid bound call.request.args
| .deleting latest oldConfig next deletes =>
    latest ∈ c.configs ∧
      Shardkv.Planned c gid bound next ∧
      ∀ delete ∈ deletes,
        Aimed gid oldConfig next delete.src delete.shards
| .moved latest next =>
    latest ∈ c.configs ∧ Shardkv.Planned c gid bound next
| .committing latest next call =>
    latest ∈ c.configs ∧
      Shardkv.Planned c gid bound next ∧
      ArgsPlanned c gid bound call.request.args

theorem Poll.Planned.mono
    {c c' : Cluster I}
    (hExtends : c.Extends c')
    {gid : Int}
    {bound bound' : Nat}
    (hLe : bound ≤ bound')
    {poll : Poll}
    (hPlanned : poll.Planned c gid bound) :
    poll.Planned c' gid bound' := by
  have hConfigs : ∀ config,
      config ∈ c.configs → config ∈ c'.configs := by
    rcases hExtends.configs with ⟨more, hMore⟩
    intro config hMem
    rw [hMore]
    exact List.mem_append_left _ hMem
  cases poll with
  | idle => exact trivial
  | changing latest => exact hConfigs latest hPlanned
  | updating latest next call =>
      rcases hPlanned with ⟨hLatest, hNext, hCall⟩
      exact ⟨hConfigs latest hLatest,
        hNext.mono hExtends hLe, hCall.mono hExtends hLe⟩
  | updated latest next updateOK =>
      exact ⟨hConfigs latest hPlanned.1,
        hPlanned.2.mono hExtends hLe⟩
  | moving latest oldConfig next pulls fail =>
      rcases hPlanned with ⟨hLatest, hNext, hPulls⟩
      refine ⟨hConfigs latest hLatest,
        hNext.mono hExtends hLe, ?_⟩
      intro pull hMem
      refine ⟨(hPulls pull hMem).1, ?_⟩
      intro call hState
      exact ((hPulls pull hMem).2 call hState).mono hExtends
        hLe
  | deleting latest oldConfig next deletes =>
      rcases hPlanned with ⟨hLatest, hNext, hDeletes⟩
      exact ⟨hConfigs latest hLatest,
        hNext.mono hExtends hLe, hDeletes⟩
  | moved latest next =>
      exact ⟨hConfigs latest hPlanned.1,
        hPlanned.2.mono hExtends hLe⟩
  | committing latest next call =>
      rcases hPlanned with ⟨hLatest, hNext, hCall⟩
      exact ⟨hConfigs latest hLatest,
        hNext.mono hExtends hLe, hCall.mono hExtends hLe⟩

/- Every call of pollConfig carries a plan. -/
theorem Poll.Planned.call
    {c : Cluster I}
    {gid : Int}
    {bound : Nat}
    {poll : Poll}
    (hPlanned : poll.Planned c gid bound)
    {call : Call}
    (hMem : call ∈ poll.calls) :
    ArgsPlanned c gid bound call.request.args := by
  cases poll with
  | updating latest next call' =>
      rw [List.mem_singleton.mp hMem]
      exact hPlanned.2.2
  | committing latest next call' =>
      rw [List.mem_singleton.mp hMem]
      exact hPlanned.2.2
  | moving latest oldConfig next pulls fail =>
      rcases Poll.mem_calls_moving.mp hMem with
        ⟨pull, hPull, hState⟩
      exact (hPlanned.2.2 pull hPull).2 call hState
  | _ => cases hMem

theorem Poll.Planned.raise
    {c : Cluster I}
    {gid : Int}
    {bound bound' : Nat}
    (hLe : bound ≤ bound')
    {poll : Poll}
    (hPlanned : poll.Planned c gid bound) :
    poll.Planned c gid bound' :=
  hPlanned.mono (Cluster.Extends.refl c) hLe

------------------------------------------------------------
-- Clusters That Plan
------------------------------------------------------------

structure Cluster.Plans (c : Cluster I) : Prop where
  numbered : Shardctrler.Numbered c.configs
  states : ∀ gid n,
    n ≤ (c.groups gid).log.length →
    0 ≤ (stateAt gid (c.groups gid).log n).config.num ∧
      c.configs[(stateAt gid
          (c.groups gid).log n).config.num.toNat]? =
        some (stateAt gid (c.groups gid).log n).config
  started : ∀ gid index op,
    (index, op) ∈ (c.groups gid).started →
    ArgsPlanned c gid (index - 1) op.args
  polls : ∀ gid i nd,
    (c.groups gid).nodes i = some nd →
    nd.poll.Planned c gid nd.delivered
  deletes : ∀ deletion ∈ c.deletes,
    deletion.request.args.External

theorem Cluster.Plans.external
    {c : Cluster I}
    (hPlans : c.Plans)
    {gid : Int}
    {request : Request}
    (hArrives : c.Arrives gid request) :
    request.args.External := by
  rcases hArrives with ⟨_, hClient⟩ | ⟨sender, hSent⟩
  · exact Or.inl hClient
  · exact hPlans.deletes _ hSent

/- The next configuration that a server asks for. -/
theorem Cluster.Plans.next
    {c : Cluster I}
    (hPlans : c.Plans)
    {gid : Int}
    {nd : Node}
    (hFollows : Follows gid (c.groups gid).log nd)
    {latest next : Config}
    (hLatest : latest ∈ c.configs)
    (hLt : nd.kv.config.num < latest.num)
    (hNext : Shardctrler.query c.configs
      (nd.kv.config.num + 1) = some next) :
    Planned c gid nd.delivered next ∧
      c.configs[(next.num - 1).toNat]? =
        some nd.kv.config := by
  have hApplied := hFollows.applied_le
  have hDelivered := hFollows.delivered_le
  have hConfig := hFollows.config
  rcases hPlans.states gid nd.kv.lastApplied.toNat
    (by omega) with ⟨hNonneg, hAt⟩
  rw [← hConfig] at hNonneg hAt
  rcases List.mem_iff_getElem?.mp hLatest with ⟨k, hK⟩
  have hLatestNum := hPlans.numbered.num k latest hK
  have hLength := (List.getElem?_eq_some_iff.mp hK).1
  rw [Shardctrler.query_eq (by omega) (by omega)] at hNext
  have hNum := hPlans.numbered.num _ next hNext
  have hNextNum : next.num = nd.kv.config.num + 1 := by
    omega
  constructor
  · refine ⟨by omega, ?_, nd.kv.lastApplied.toNat,
      by omega, by omega, ?_⟩
    · rw [hNextNum]
      exact hNext
    · rw [← hConfig, hNextNum]
  · have hPrev : next.num - 1 = nd.kv.config.num := by omega
    rw [hPrev]
    exact hAt

/- One of the pulls goes on. -/
theorem Poll.Planned.setPull
    {c : Cluster I}
    {gid : Int}
    {bound : Nat}
    {latest oldConfig next : Config}
    {pulls : List Pull}
    {fail : Bool}
    (hPlanned : (Poll.moving latest oldConfig next pulls
      fail).Planned c gid bound)
    {k : Nat}
    {pull : Pull}
    (hPull : pulls[k]? = some pull)
    {state : PullState}
    (hState : ∀ call,
      state = .moving call →
      ArgsPlanned c gid bound call.request.args)
    (fail' : Bool) :
    (Poll.moving latest oldConfig next
      (pulls.set k { pull with state := state })
      fail').Planned c gid bound := by
  rcases hPlanned with ⟨hLatest, hNext, hPulls⟩
  refine ⟨hLatest, hNext, ?_⟩
  intro pull' hMem
  rcases List.mem_or_eq_of_mem_set hMem with hOld | rfl
  · exact hPulls pull' hOld
  · have hAimed := (hPulls pull
      (List.mem_of_getElem? hPull)).1
    exact ⟨hAimed, hState⟩

theorem Poll.Planned.setDelete
    {c : Cluster I}
    {gid : Int}
    {bound : Nat}
    {latest oldConfig next : Config}
    {deletes : List Delete}
    (hPlanned : (Poll.deleting latest oldConfig next
      deletes).Planned c gid bound)
    {k : Nat}
    {delete : Delete}
    (hDelete : deletes[k]? = some delete)
    (state : DeleteState) :
    (Poll.deleting latest oldConfig next
      (deletes.set k { delete with
        state := state })).Planned c gid bound := by
  rcases hPlanned with ⟨hLatest, hNext, hDeletes⟩
  refine ⟨hLatest, hNext, ?_⟩
  intro delete' hMem
  rcases List.mem_or_eq_of_mem_set hMem with hOld | rfl
  · exact hDeletes delete' hOld
  · exact hDeletes delete (List.mem_of_getElem? hDelete)

theorem needed_spec
    {gid : Int}
    {oldConfig next : Config}
    {src : Int}
    {s : Shard}
    (hNeeded : needed gid oldConfig next src s = true) :
    next.shards s = gid ∧ oldConfig.shards s = src ∧
      src ≠ gid := by
  unfold needed gains at hNeeded
  simp only [Bool.and_eq_true, decide_eq_true_eq] at hNeeded
  rcases hNeeded with ⟨⟨hNe, hGid⟩, hSrc⟩
  refine ⟨hGid, hSrc, ?_⟩
  rw [← hSrc]
  exact hNe

/- The pulls that MoveShards starts with. -/
theorem mem_newPulls
    {gid : Int}
    {oldConfig next : Config}
    {pull : Pull}
    (hMem : pull ∈ newPulls gid oldConfig next) :
    pull.state = .pulling ∧
      Aimed gid oldConfig next pull.src pull.shards := by
  rcases List.mem_map.mp hMem with ⟨src, hSrc, rfl⟩
  refine ⟨rfl, ?_⟩
  rcases List.mem_map.mp (List.mem_dedup.mp hSrc) with
    ⟨i, hFilter, hI⟩
  have hGains := (List.mem_filter.mp hFilter).2
  have hNeeded : needed gid oldConfig next src i = true := by
    unfold needed
    rw [hGains, hI]
    simp
  have hSome : (receiveFrom gid oldConfig next src).isSome =
      true :=
    (receiveFrom_isSome_iff _ _ _ _).mpr ⟨i, hNeeded⟩
  refine ⟨?_, (needed_spec hNeeded).2.2⟩
  rcases Option.isSome_iff_exists.mp hSome with
    ⟨shards, hShards⟩
  dsimp only
  rw [hShards, Option.getD_some]
  exact receiveFrom_shards hShards

/- pollConfig keeps its plans when its node takes a step. -/
theorem Cluster.Plans.poll
    {c : Cluster I}
    (hPlans : c.Plans)
    {gid : Int}
    {nd nd' : Node}
    {effects : List Effect}
    (hFollows : Follows gid (c.groups gid).log nd)
    (hPoll : nd.poll.Planned c gid nd.delivered)
    (hStep : NodeStep (c.world gid) nd nd' effects) :
    nd'.poll.Planned c gid nd'.delivered := by
  cases hStep with
  | handlerStarted => exact hPoll
  | handlerReturned => exact hPoll
  | pulled => exact hPoll
  | queried latest hIdle hLatest =>
      exact Shardctrler.mem_of_query_latest hLatest
  | gaveUp => exact trivial
  | updating latest next hChanging hLt hNext =>
      rw [hChanging] at hPoll
      rcases hPlans.next hFollows hPoll hLt hNext with
        ⟨hPlanned, hConfig⟩
      exact ⟨hPoll, hPlanned, nd.kv.config, next, hPlanned,
        rfl, hConfig, rfl⟩
  | updateStarted latest next call number index hUpdating =>
      rw [hUpdating] at hPoll
      exact hPoll
  | updateRetried latest next call hUpdating =>
      rw [hUpdating] at hPoll
      exact hPoll
  | updateDone latest next call updateOK hUpdating =>
      rw [hUpdating] at hPoll
      exact ⟨hPoll.1, hPoll.2.1⟩
  | notMoving latest next updateOK hUpdated =>
      rw [hUpdated] at hPoll
      exact hPoll.1
  | nothingToMove latest next hUpdated hLt hZero =>
      rw [hUpdated] at hPoll
      exact hPoll
  | moving latest next hUpdated hLt hZero =>
      rw [hUpdated] at hPoll
      refine ⟨hPoll.1, hPoll.2, ?_⟩
      intro pull hMem
      rcases mem_newPulls hMem with ⟨hState, hAimed⟩
      refine ⟨hAimed, ?_⟩
      intro call hMoving
      rw [hState] at hMoving
      cases hMoving
  | pullReplied latest oldConfig next pulls fail k pull
      record hMoving hPull hState =>
      rw [hMoving] at hPoll
      apply hPoll.setPull hPull
      intro call hCall
      cases hCall
  | pullLocked latest oldConfig next pulls fail k pull mp
      sessions hMoving hPull hState hFree =>
      rw [hMoving] at hPoll
      apply hPoll.setPull hPull
      intro call hCall
      cases hCall
      refine ⟨hPoll.2.1, ?_⟩
      intro s hS
      rw [(hPoll.2.2 pull
        (List.mem_of_getElem? hPull)).1.1] at hS
      exact (needed_spec hS).1
  | pullStarted latest oldConfig next pulls fail k pull call
      number index hMoving hPull hState =>
      rw [hMoving] at hPoll
      apply hPoll.setPull hPull
      intro call' hCall
      cases hCall
      exact (hPoll.2.2 pull
        (List.mem_of_getElem? hPull)).2 call hState
  | pullRetried latest oldConfig next pulls fail k pull call
      hMoving hPull hState =>
      rw [hMoving] at hPoll
      apply hPoll.setPull hPull
      intro call' hCall
      cases hCall
      exact (hPoll.2.2 pull
        (List.mem_of_getElem? hPull)).2 call hState
  | pullReturned latest oldConfig next pulls fail k pull call
      step reply moveOK hMoving hPull hState =>
      rw [hMoving] at hPoll
      apply hPoll.setPull hPull
      intro call' hCall
      cases hCall
  | pullStopped latest oldConfig next pulls fail k pull
      hMoving hPull hState =>
      rw [hMoving] at hPoll
      apply hPoll.setPull hPull
      intro call' hCall
      cases hCall
  | moveFailed latest oldConfig next pulls fail hMoving =>
      rw [hMoving] at hPoll
      exact hPoll.1
  | deleting latest oldConfig next pulls hMoving =>
      rw [hMoving] at hPoll
      refine ⟨hPoll.1, hPoll.2.1, ?_⟩
      intro delete hMem
      rcases List.mem_map.mp hMem with ⟨pull, hPull, rfl⟩
      exact (hPoll.2.2 pull hPull).1
  | deleteSent latest oldConfig next deletes k delete
      hDeleting hDelete =>
      rw [hDeleting] at hPoll
      exact hPoll.setDelete hDelete _
  | deleteDone latest oldConfig next deletes k delete
      hDeleting hDelete =>
      rw [hDeleting] at hPoll
      exact hPoll.setDelete hDelete _
  | moved latest oldConfig next deletes hDeleting =>
      rw [hDeleting] at hPoll
      exact ⟨hPoll.1, hPoll.2.1⟩
  | committing latest next hMoved =>
      rw [hMoved] at hPoll
      exact ⟨hPoll.1, hPoll.2, hPoll.2⟩
  | commitStarted latest next call number index hCommitting =>
      rw [hCommitting] at hPoll
      exact hPoll
  | commitRetried latest next call hCommitting =>
      rw [hCommitting] at hPoll
      exact hPoll
  | commitDone latest next call hCommitting =>
      rw [hCommitting] at hPoll
      exact hPoll.1
  | applied op hOp => exact hPoll.raise (le_max_left _ _)
  | committed index op hEntry hIndex hApplied =>
      exact hPoll.raise (le_max_left _ _)
  | installed snapshotIndex hLe =>
      exact hPoll.raise (le_max_left _ _)
  | killed => exact hPoll

------------------------------------------------------------
-- Every Reachable Cluster Plans
------------------------------------------------------------

/- The state after an entry whose plan is in the history. -/
theorem config_after
    {c : Cluster I}
    {gid : Int}
    {kv : ShardKV}
    {bound : Nat}
    {op : Op}
    (hState : 0 ≤ kv.config.num ∧
      c.configs[kv.config.num.toNat]? = some kv.config)
    (hPlanned : ArgsPlanned c gid bound op.args)
    (commandIndex : Int) :
    0 ≤ (kv.applyCommand commandIndex op).config.num ∧
      c.configs[(kv.applyCommand commandIndex
          op).config.num.toNat]? =
        some (kv.applyCommand commandIndex op).config := by
  rcases kv.applyCommand_config commandIndex op with
    hSame | ⟨config, hArgs, _, _, hNew⟩
  · rw [hSame]
    exact hState
  · rw [hArgs] at hPlanned
    have hPos := Planned.pos hPlanned
    rw [hNew]
    exact ⟨by omega, Planned.config hPlanned⟩

variable [DecidableEq I]

/- One step of a node, in the cluster. -/
theorem Cluster.Plans.node
    {c : Cluster I}
    (hPlans : c.Plans)
    (hDelivers : c.Delivers)
    (hReceives : c.Receives)
    {gid : Int}
    {i : I}
    {nd nd' : Node}
    {effects : List Effect}
    (hNode : (c.groups gid).nodes i = some nd)
    (hStep : NodeStep (c.world gid) nd nd' effects) :
    (c.after gid i nd' effects).Plans := by
  have hExtends := c.extends_after gid i nd' effects
  have hFollows := hDelivers.follows gid i nd hNode
  constructor
  · exact hPlans.numbered
  · intro gid' n hLe
    rw [Cluster.after_log_eq] at hLe ⊢
    rcases Nat.lt_or_ge (c.groups gid').log.length n with
      hNew | hOld
    · -- Only the state after the new entry is new.
      by_cases hGid : gid' = gid
      · subst hGid
        rw [if_pos rfl] at hLe ⊢
        rcases hStep.commits_cases with
          hNone | ⟨op, hEntry, _, _, rfl⟩
        · rw [hNone, List.append_nil] at hLe
          omega
        · have hOne : commitsOf [.commit op] = [op] := rfl
          rw [hOne] at hLe ⊢
          rw [List.length_append, List.length_singleton] at hLe
          have hN : n = (c.groups gid').log.length + 1 := by
            omega
          subst hN
          rw [stateAt_succ List.getElem?_concat_length,
            stateAt_append _ _ _ (le_refl _)]
          have hPlanned := hPlans.started gid' _ op hEntry
          exact config_after (hPlans.states gid' _ (le_refl _))
            hPlanned _
      · rw [if_neg hGid, List.append_nil] at hLe
        omega
    · rw [stateAt_append _ _ _ hOld]
      exact hPlans.states gid' n hOld
  · intro gid' index op hMem
    rcases Cluster.mem_after_started.mp hMem with
      hOld | ⟨rfl, hNew⟩
    · exact (hPlans.started gid' index op hOld).mono hExtends
        (le_refl _)
    · rcases hStep.starts_cases with
        hNone | ⟨call, number, index', hCall, hIndex, _, hOne⟩
      · rw [hNone] at hNew
        cases hNew
      · rw [hOne] at hNew
        cases List.mem_singleton.mp hNew
        change ArgsPlanned _ gid' (index - 1)
          call.request.args
        rcases hCall with hHandler | hPoll
        · have hArrives := hReceives gid' i nd call hNode
            hHandler
          exact (hPlans.external hArrives).planned _ _ _
        · have hPlanned := (hPlans.polls gid' i nd
            hNode).call hPoll
          exact hPlanned.mono hExtends (by omega)
  · intro gid' j nd'' hNode'
    rcases Cluster.node_of_after hNode' with
      ⟨rfl, rfl, rfl⟩ | ⟨hOld, _⟩
    · exact (hPlans.poll hFollows
        (hPlans.polls gid' j nd hNode) hStep).mono hExtends
        (le_refl _)
    · exact (hPlans.polls gid' j nd'' hOld).mono hExtends
        (le_refl _)
  · intro deletion hMem
    rw [Cluster.after_deletes, List.mem_append] at hMem
    rcases hMem with hOld | hNew
    · exact hPlans.deletes deletion hOld
    · rcases hStep.deletions_cases gid with
        hNone | ⟨_, _, next, _, delete, _, _, _, hOne⟩
      · rw [hNone] at hNew
        cases hNew
      · rw [hOne] at hNew
        rw [List.mem_singleton.mp hNew]
        exact Or.inr ⟨delete.shards, next.num, rfl⟩

/- A step that only replaces one node. -/
theorem Cluster.Plans.quiet
    {c : Cluster I}
    (hPlans : c.Plans)
    {gid : Int}
    {i : I}
    {nd : Node}
    (hPoll : nd.poll.Planned c gid nd.delivered) :
    (c.after gid i nd []).Plans := by
  have hExtends := c.extends_after gid i nd []
  constructor
  · exact hPlans.numbered
  · intro gid' n hLe
    rw [Cluster.after_nil_log] at hLe ⊢
    exact hPlans.states gid' n hLe
  · intro gid' index op hMem
    rw [Cluster.mem_after_nil_started] at hMem
    exact (hPlans.started gid' index op hMem).mono hExtends
      (le_refl _)
  · intro gid' j nd' hNode
    rcases Cluster.node_of_after hNode with
      ⟨rfl, rfl, rfl⟩ | ⟨hOld, _⟩
    · exact hPoll.mono hExtends (le_refl _)
    · exact (hPlans.polls gid' j nd' hOld).mono hExtends
        (le_refl _)
  · intro deletion hMem
    rw [Cluster.after_deletes] at hMem
    simp only [deletionsOf, List.filterMap_nil,
      List.append_nil] at hMem
    exact hPlans.deletes deletion hMem

omit [DecidableEq I] in
theorem Cluster.Plans.extend
    {c c' : Cluster I}
    (hPlans : c.Plans)
    (hExtends : c.Extends c')
    (hNumbered : Shardctrler.Numbered c'.configs)
    (hGroups : c'.groups = c.groups)
    (hDeletes : c'.deletes = c.deletes) :
    c'.Plans := by
  constructor
  · exact hNumbered
  · intro gid n hLe
    rw [hGroups] at hLe ⊢
    rcases hPlans.states gid n hLe with ⟨hNonneg, hAt⟩
    exact ⟨hNonneg, hExtends.getElem?_configs hAt⟩
  · intro gid index op hMem
    rw [hGroups] at hMem
    exact (hPlans.started gid index op hMem).mono hExtends
      (le_refl _)
  · intro gid i nd hNode
    rw [hGroups] at hNode
    exact (hPlans.polls gid i nd hNode).mono hExtends
      (le_refl _)
  · rw [hDeletes]
    exact hPlans.deletes

theorem Cluster.Plans.step
    {c c' : Cluster I}
    (hPlans : c.Plans)
    (hDelivers : c.Delivers)
    (hReceives : c.Receives)
    (hStep : ClusterStep c c') :
    c'.Plans := by
  have hExtends := Cluster.extends_of_step hStep
  cases hStep with
  | control op configs hApply =>
      exact hPlans.extend hExtends
        (hPlans.numbered.applyOp hApply) rfl rfl
  | start gid i uid hGid hNeg hFresh =>
      have hQuiet : (c.after gid i (Node.start gid uid)
          []).Plans := by
        apply hPlans.quiet
        exact trivial
      refine hQuiet.extend ?_ hQuiet.numbered rfl rfl
      exact ⟨⟨[], by simp⟩, fun gid => ⟨[], by simp⟩,
        fun _ hMem => hMem, fun _ hMem => hMem,
        fun _ hMem => List.mem_append_left _ hMem⟩
  | receive gid i nd request hNode hArrives =>
      apply hPlans.quiet
      exact hPlans.polls gid i nd hNode
  | node gid i nd nd' effects hNode hStep =>
      exact hPlans.node hDelivers hReceives hNode hStep

theorem plans_of_reachable
    {ok : Cluster I → Action I → Prop}
    {c : Cluster I}
    (hReach : Cluster.system.Reachable ok c) :
    c.Plans := by
  refine System.Reachable.induct
    (P := fun c : Cluster I => c.Plans) ?_ ?_ hReach
  · intro c hInit
    have hEmpty : c = Cluster.empty := hInit
    subst hEmpty
    constructor
    · exact Shardctrler.Numbered.start
    · intro gid n hLe
      cases Nat.le_zero.mp hLe
      exact ⟨le_refl _, rfl⟩
    · intro gid index op hMem
      cases hMem
    · intro gid i nd hNode
      cases hNode
    · intro deletion hMem
      cases hMem
  · intro c action c' hReach hPlans _ hStep
    exact hPlans.step (delivers_of_reachable hReach)
      (receives_of_reachable hReach)
      (Cluster.step_cases hStep)

------------------------------------------------------------
-- One Configuration At A Time
------------------------------------------------------------

/- An entry that Raft may deliver to a server next. -/
def Cluster.MayDeliver
    (c : Cluster I)
    (gid : Int)
    (nd : Node)
    (op : Op) : Prop :=
  (c.groups gid).log[nd.kv.lastApplied.toNat]? = some op ∨
    (nd.kv.lastApplied = (c.groups gid).log.length ∧
      ((c.groups gid).log.length + 1, op) ∈
        (c.groups gid).started)

omit [DecidableEq I] in
theorem Cluster.MayDeliver.started
    {c : Cluster I}
    (hDelivers : c.Delivers)
    {gid : Int}
    {nd : Node}
    {op : Op}
    (hDeliver : c.MayDeliver gid nd op) :
    (nd.kv.lastApplied.toNat + 1, op) ∈
      (c.groups gid).started := by
  rcases hDeliver with hAt | ⟨hApplied, hEntry⟩
  · exact hDelivers.log_started gid _ op hAt
  · rw [hApplied]
    exact hEntry

omit [DecidableEq I] in
/- It was planned in the state it is delivered to, or before. -/
theorem Cluster.MayDeliver.planned
    {c : Cluster I}
    (hPlans : c.Plans)
    (hDelivers : c.Delivers)
    {gid : Int}
    {nd : Node}
    {op : Op}
    (hDeliver : c.MayDeliver gid nd op) :
    ArgsPlanned c gid nd.kv.lastApplied.toNat op.args := by
  exact hPlans.started gid _ op (hDeliver.started hDelivers)

omit [DecidableEq I] in
/- A plan is for the next configuration at most. -/
theorem Planned.num_le
    {c : Cluster I}
    {gid : Int}
    {n : Nat}
    {next : Config}
    (hPlanned : Planned c gid n next) :
    next.num ≤
      (stateAt gid (c.groups gid).log n).config.num + 1 := by
  rcases hPlanned.timely with ⟨p, hP, _, hNum⟩
  have hMono := stateAt_num_mono gid (c.groups gid).log hP
  omega

omit [DecidableEq I] in
/-
  An UpdateShardVec that takes effect was computed from the
  configuration installed then.
-/
theorem update_planned
    {c : Cluster I}
    (hPlans : c.Plans)
    {gid : Int}
    {n : Nat}
    (hLe : n ≤ (c.groups gid).log.length)
    {configNum : Int}
    {newVec : Shard → Bool}
    (hPlanned :
      ArgsPlanned c gid n (.updateShardVec configNum newVec))
    (hLt : (stateAt gid (c.groups gid).log n).config.num <
      configNum) :
    configNum =
        (stateAt gid (c.groups gid).log n).config.num + 1 ∧
      ∃ next,
        c.configs[configNum.toNat]? = some next ∧
        newVec = newShardVec gid
          (stateAt gid (c.groups gid).log n).config
          next := by
  rcases hPlanned with
    ⟨config, next, hNext, rfl, hConfig, rfl⟩
  have hNum := hNext.num_le
  refine ⟨by omega, next, hNext.config, ?_⟩
  have hAt := (hPlans.states gid n hLe).2
  have hPrev : next.num - 1 =
      (stateAt gid (c.groups gid).log n).config.num := by
    omega
  rw [hPrev, hAt] at hConfig
  cases hConfig
  rfl

/-
  Whatever entry is delivered to a server: a ChangeConfig that
  takes effect raises the number of the configuration by one,
  and an UpdateShardVec that takes effect is for the next
  number and was computed from the configuration installed
  then and the next one of the controller.
-/
theorem config_changes_by_one
    {c : Cluster I}
    (hReach : Cluster.system.Reachable System.always c)
    {gid : Int}
    {i : I}
    {nd : Node}
    (hNode : (c.groups gid).nodes i = some nd)
    {op : Op}
    (hDeliver : c.MayDeliver gid nd op)
    (hStable :
      nd.kv.stable (nd.kv.lastApplied + 1) op = false) :
    (∀ config,
      op.args = .changeConfig config →
      nd.kv.config.num < config.num →
      (nd.deliver op).kv.config = config ∧
        config.num = nd.kv.config.num + 1) ∧
    ∀ configNum newVec,
      op.args = .updateShardVec configNum newVec →
      nd.kv.config.num < configNum →
      (nd.deliver op).kv.shardVec = newVec ∧
        configNum = nd.kv.config.num + 1 ∧
        ∃ next,
          c.configs[configNum.toNat]? = some next ∧
          ∀ s, newVec s = true ↔
            (nd.kv.config.shards s = gid ∨
              nd.kv.config.shards s = 0) ∧
            next.shards s = gid := by
  have hPlans := plans_of_reachable hReach
  have hDelivers := delivers_of_reachable hReach
  have hFollows := hDelivers.follows gid i nd hNode
  have hPlanned := hDeliver.planned hPlans hDelivers
  have hApplied := hFollows.applied_le
  have hDelivered := hFollows.delivered_le
  have hKv : (nd.deliver op).kv =
      nd.kv.applyCommand (nd.kv.lastApplied + 1) op := rfl
  constructor
  · intro config hArgs hLt
    rw [hArgs] at hPlanned
    have hNum := Planned.num_le hPlanned
    rw [← hFollows.config] at hNum
    constructor
    · rw [hKv]
      simp [ShardKV.applyCommand, hStable, hArgs,
        Store.applyOp, hLt]
    · omega
  · intro configNum newVec hArgs hLt
    rw [hArgs] at hPlanned
    have hUpdate := update_planned hPlans (by omega) hPlanned
    rw [← hFollows.config] at hUpdate
    rcases hUpdate hLt with ⟨hNum, next, hNext, rfl⟩
    refine ⟨?_, hNum, next, hNext, ?_⟩
    · rw [hKv]
      simp [ShardKV.applyCommand, hStable, hArgs,
        Store.applyOp, hLt]
    · intro s
      unfold newShardVec
      simp

/- The controller lets a group join. -/
def joins (gid : Int) : Action Unit :=
  .control {
    number := 0
    reqNum := 0
    ckId := 0
    args := .join (AList.insert gid ["server"] ∅) }

/- Steps of the only server of a group. -/
def steps (gid : Int) (events : List Event) :
    List (Action Unit) :=
  events.map (Action.node gid ())

/- pollConfig commits the entry at position `n` of the log. -/
def commits (n : Nat) : List Event :=
  [.pollCall (.enter true n (some (n + 1))), .commit n,
    .pollCall .poll]

/- Phase 1 with this entry, up to the start of phase 2. -/
def updates (n : Nat) : List Event :=
  [.next true] ++ commits n ++ [.lock]

/- Phase 3 with this entry. -/
def changes (n : Nat) : List Event :=
  [.lock] ++ commits n

/-
  Group 1 joins, and its server goes through the phases of
  the first configuration up to the start of UpdateShardVec.
-/
def firstVec : List (Action Unit) :=
  [joins 1, .start 1 () (-1)] ++
    steps 1 [.query true, .next true,
      .pollCall (.enter true 0 (some 1))]

/- The same up to the start of ChangeConfig. -/
def firstConfig : List (Action Unit) :=
  [joins 1, .start 1 () (-1)] ++
    steps 1 ([.query true] ++ updates 0 ++
      [.lock, .pollCall (.enter true 1 (some 2))])

/- The entry may be delivered next, and `takes` it. -/
def deliversNext
    (k : Nat)
    (takes : ShardKV → Args → Bool)
    (c : Cluster Unit) : Bool :=
  match (c.groups 1).nodes (), (c.groups 1).started[k]? with
  | some nd, some (index, op) =>
      decide (nd.kv.lastApplied =
          (c.groups 1).log.length) &&
        decide (index = (c.groups 1).log.length + 1) &&
        !nd.kv.stable (nd.kv.lastApplied + 1) op &&
        takes nd.kv op.args
  | _, _ => false

theorem exists_deliversNext
    {run : List (Action Unit)}
    {k : Nat}
    {takes : ShardKV → Args → Bool}
    (hExec :
      (Cluster.system.exec run Cluster.empty).any
        (deliversNext k takes) = true) :
    ∃ (c : Cluster Unit) (nd : Node) (op : Op),
      Cluster.system.Reachable System.always c ∧
      (c.groups 1).nodes () = some nd ∧
      c.MayDeliver 1 nd op ∧
      nd.kv.stable (nd.kv.lastApplied + 1) op = false ∧
      takes nd.kv op.args = true := by
  rcases Cluster.exists_reachable_of_exec hExec with
    ⟨c, hReach, hNext⟩
  unfold deliversNext at hNext
  split at hNext
  · next nd index op hNode hStarted =>
      simp only [Bool.and_eq_true, decide_eq_true_eq,
        Bool.not_eq_true'] at hNext
      rcases hNext with ⟨⟨⟨hApplied, rfl⟩, hStable⟩, hTakes⟩
      exact ⟨c, nd, op, hReach, hNode,
        Or.inr ⟨hApplied, List.mem_of_getElem? hStarted⟩,
        hStable, hTakes⟩
  · cases hNext

def takesConfig (kv : ShardKV) : Args → Bool
| .changeConfig config => decide (kv.config.num < config.num)
| _ => false

def takesVec (kv : ShardKV) : Args → Bool
| .updateShardVec configNum _ =>
    decide (kv.config.num < configNum)
| _ => false

/- Both entries of the first configuration take effect. -/
theorem config_changes_by_one_first :
    (∃ (c : Cluster Unit) (nd : Node) (op : Op)
        (config : Config),
      Cluster.system.Reachable System.always c ∧
      (c.groups 1).nodes () = some nd ∧
      c.MayDeliver 1 nd op ∧
      nd.kv.stable (nd.kv.lastApplied + 1) op = false ∧
      op.args = .changeConfig config ∧
      nd.kv.config.num < config.num ∧
      (nd.deliver op).kv.config = config ∧
      config.num = nd.kv.config.num + 1) ∧
    ∃ (c : Cluster Unit) (nd : Node) (op : Op)
        (configNum : Int) (newVec : Shard → Bool),
      Cluster.system.Reachable System.always c ∧
      (c.groups 1).nodes () = some nd ∧
      c.MayDeliver 1 nd op ∧
      nd.kv.stable (nd.kv.lastApplied + 1) op = false ∧
      op.args = .updateShardVec configNum newVec ∧
      nd.kv.config.num < configNum ∧
      (nd.deliver op).kv.shardVec = newVec ∧
      configNum = nd.kv.config.num + 1 := by
  have hConfig :
      (Cluster.system.exec firstConfig Cluster.empty).any
        (deliversNext 1 takesConfig) = true := by
    decide +kernel
  have hVec :
      (Cluster.system.exec firstVec Cluster.empty).any
        (deliversNext 0 takesVec) = true := by
    decide +kernel
  constructor
  · rcases exists_deliversNext hConfig with
      ⟨c, nd, op, hReach, hNode, hDeliver, hStable, hTakes⟩
    unfold takesConfig at hTakes
    split at hTakes
    · next config hArgs =>
        have hLt := of_decide_eq_true hTakes
        exact ⟨c, nd, op, config, hReach, hNode, hDeliver,
          hStable, hArgs, hLt,
          (config_changes_by_one hReach hNode hDeliver
            hStable).1 config hArgs hLt⟩
    · cases hTakes
  · rcases exists_deliversNext hVec with
      ⟨c, nd, op, hReach, hNode, hDeliver, hStable, hTakes⟩
    unfold takesVec at hTakes
    split at hTakes
    · next configNum newVec hArgs =>
        have hLt := of_decide_eq_true hTakes
        rcases (config_changes_by_one hReach hNode hDeliver
          hStable).2 configNum newVec hArgs hLt with
          ⟨hTaken, hNum, _⟩
        exact ⟨c, nd, op, configNum, newVec, hReach, hNode,
          hDeliver, hStable, hArgs, hLt, hTaken, hNum⟩
    · cases hTakes

end Shardkv

end RaftLab
