import RaftLab.Shardkv.Deletion

/-
  Who serves a shard.

  A group that serves a shard has it in its configuration, or
  has taken it over for the next one. It may do so once all
  groups that had the shard in earlier configurations have
  gone on to later ones. A pull makes sure of this, since
  the source answers only from the next configuration on, and
  the source itself was sure of it before. A group that takes
  over a shard from nobody does not ask, a movement of an
  old configuration is applied as if it were of the next one,
  and MoveShards reads the configuration anew: these are the
  steps that are left out.

  Main declarations:
    * `Shardkv.Cleared`, `Shardkv.Cluster.Clears`
    * `Shardkv.Cluster.ownsSingly`
    * `Shardkv.single_owner`, `Shardkv.two_owners`
-/

------------------------------------------------------------
-- Earlier Owners
------------------------------------------------------------

namespace RaftLab

namespace Shardkv

open Shardctrler (Shard Config)

variable {I : Type}

/- The state after all entries applied by any server. -/
def Cluster.latest (c : Cluster I) (gid : Int) : ShardKV :=
  stateAt gid (c.groups gid).log (c.groups gid).log.length

/-
  The groups other than `gid` that had the shard before
  configuration `num` have passed the configurations in which
  they had it.
-/
def Cluster.passed
    (c : Cluster I)
    (gid : Int)
    (s : Shard)
    (num : Int) : Bool :=
  c.configs.all fun config =>
    decide (num ≤ config.num) ||
      decide (config.shards s = 0) ||
      decide (config.shards s = gid) ||
      decide (config.num <
        (c.latest (config.shards s)).config.num)

/- The same, for a configuration that exists. -/
structure Cleared
    (c : Cluster I)
    (gid : Int)
    (s : Shard)
    (num : Int) : Prop where
  bound : num ≤ c.configs.length
  passed : ∀ config ∈ c.configs,
    config.num < num →
    config.shards s ≠ 0 →
    config.shards s ≠ gid →
    config.num < (c.latest (config.shards s)).config.num

theorem Cluster.passed_iff
    {c : Cluster I}
    {gid : Int}
    {s : Shard}
    {num : Int} :
    c.passed gid s num = true ↔
      ∀ config ∈ c.configs,
        config.num < num →
        config.shards s ≠ 0 →
        config.shards s ≠ gid →
        config.num <
          (c.latest (config.shards s)).config.num := by
  unfold Cluster.passed
  simp only [List.all_eq_true, Bool.or_eq_true,
    decide_eq_true_eq, or_assoc]
  constructor
  · intro hAll config hMem hLt hSome hOther
    rcases hAll config hMem with hLe | hZero | hOwn | hPassed
    · omega
    · exact absurd hZero hSome
    · exact absurd hOwn hOther
    · exact hPassed
  · intro hAll config hMem
    by_cases hLe : num ≤ config.num
    · exact Or.inl hLe
    · by_cases hZero : config.shards s = 0
      · exact Or.inr (Or.inl hZero)
      · by_cases hOwn : config.shards s = gid
        · exact Or.inr (Or.inr (Or.inl hOwn))
        · exact Or.inr (Or.inr (Or.inr
            (hAll config hMem (by omega) hZero hOwn)))

/- Groups never go back. -/
theorem Cluster.Extends.latest_num_le
    {c c' : Cluster I}
    (hExtends : c.Extends c')
    (gid : Int) :
    (c.latest gid).config.num ≤
      (c'.latest gid).config.num := by
  have hMono := stateAt_num_mono gid (c'.groups gid).log
    (hExtends.length_log gid)
  rw [hExtends.stateAt (le_refl _)] at hMono
  exact hMono

theorem Cleared.mono
    {c c' : Cluster I}
    (hExtends : c.Extends c')
    (hNumbered : Shardctrler.Numbered c'.configs)
    {gid : Int}
    {s : Shard}
    {num : Int}
    (hCleared : Cleared c gid s num) :
    Cleared c' gid s num := by
  have hBound := hCleared.bound
  rcases hExtends.configs with ⟨more, hMore⟩
  constructor
  · rw [hMore, List.length_append]
    push_cast
    omega
  · intro config hMem hLt hSome hOther
    rcases List.mem_iff_getElem?.mp hMem with ⟨k, hAt⟩
    have hNum := hNumbered.num k config hAt
    -- it is one of those there before
    rw [hMore, List.getElem?_append_left (by omega)] at hAt
    have hPassed := hCleared.passed config
      (List.mem_of_getElem? hAt) hLt hSome hOther
    have hLe := hExtends.latest_num_le (config.shards s)
    omega

/-
  A group that has the shard in a configuration is cleared for
  the next one if it is for this one.
-/
theorem Cleared.next
    {c : Cluster I}
    (hNumbered : Shardctrler.Numbered c.configs)
    {gid : Int}
    {s : Shard}
    {num : Int}
    {config : Config}
    (hCleared : Cleared c gid s num)
    (hAt : c.configs[num.toNat]? = some config)
    (hOwner : config.shards s = gid) :
    Cleared c gid s (num + 1) := by
  have hLength := (List.getElem?_eq_some_iff.mp hAt).1
  constructor
  · omega
  · intro earlier hMem hLt hSome hOther
    by_cases hLast : earlier.num = num
    · -- the group itself had it last
      rcases List.mem_iff_getElem?.mp hMem with ⟨k, hK⟩
      have hNum := hNumbered.num k earlier hK
      have hSame : k = num.toNat := by omega
      rw [hSame, hAt] at hK
      cases hK
      exact absurd hOwner hOther
    · exact hCleared.passed earlier hMem (by omega) hSome
        hOther

/- A group that pulls is cleared if the source was. -/
theorem Cleared.pulled
    {c : Cluster I}
    (hNumbered : Shardctrler.Numbered c.configs)
    {gid src : Int}
    {s : Shard}
    {num : Int}
    {config : Config}
    (hCleared : Cleared c src s num)
    (hAt : c.configs[num.toNat]? = some config)
    (hOwner : config.shards s = src)
    (hPassed : num < (c.latest src).config.num) :
    Cleared c gid s (num + 1) := by
  have hNext := hCleared.next hNumbered hAt hOwner
  refine ⟨hNext.bound, ?_⟩
  intro earlier hMem hLt hSome hOther
  by_cases hSrc : earlier.shards s = src
  · rw [hSrc]
    omega
  · exact hNext.passed earlier hMem hLt hSome hSrc

------------------------------------------------------------
-- Reached Configurations
------------------------------------------------------------

/- An entry raises the number by one at most. -/
theorem stateAt_num_succ
    {c : Cluster I}
    (hRegular : c.Regular)
    {gid : Int}
    {n : Nat}
    (hLt : n < (c.groups gid).log.length) :
    (stateAt gid (c.groups gid).log (n + 1)).config.num ≤
      (stateAt gid (c.groups gid).log n).config.num + 1 := by
  have hAt := List.getElem?_eq_getElem hLt
  have hPlanned := hRegular.plans.entry hRegular.delivers hAt
  rw [stateAt_succ hAt]
  rcases (stateAt gid (c.groups gid).log
    n).applyCommand_config (n + 1) _ with
    hSame | ⟨config, hArgs, _, _, hNew⟩
  · rw [hSame]
    omega
  · rw [hArgs] at hPlanned
    rw [hNew]
    exact Planned.num_le hPlanned

/- So a group has been in every configuration up to its own. -/
theorem exists_stateAt_num
    {c : Cluster I}
    (hRegular : c.Regular)
    {gid num : Int}
    (hNonneg : 0 ≤ num)
    {n : Nat}
    (hLe : n ≤ (c.groups gid).log.length)
    (hReached : num ≤
      (stateAt gid (c.groups gid).log n).config.num) :
    ∃ p, p ≤ (c.groups gid).log.length ∧
      (stateAt gid (c.groups gid).log p).config.num = num := by
  induction n with
  | zero =>
      refine ⟨0, hLe, ?_⟩
      have hZero :
          (stateAt gid (c.groups gid).log 0).config.num =
            0 := rfl
      omega
  | succ n ih =>
      have hSucc := stateAt_num_succ hRegular hLe
      by_cases hBefore : num ≤
          (stateAt gid (c.groups gid).log n).config.num
      · exact ih (by omega) hBefore
      · exact ⟨n + 1, hLe, by omega⟩

/- Groups were cleared for what they have had. -/
def Cluster.StatesCleared (c : Cluster I) : Prop :=
  ∀ gid n s,
    n ≤ (c.groups gid).log.length →
    (stateAt gid (c.groups gid).log n).config.shards s =
      gid →
    Cleared c gid s
      (stateAt gid (c.groups gid).log n).config.num

theorem Cluster.StatesCleared.of_reached
    {c : Cluster I}
    (hStates : c.StatesCleared)
    (hRegular : c.Regular)
    {gid num : Int}
    (hNonneg : 0 ≤ num)
    (hReached : num ≤ (c.latest gid).config.num)
    {config : Config}
    (hAt : c.configs[num.toNat]? = some config)
    {s : Shard}
    (hOwner : config.shards s = gid) :
    Cleared c gid s num := by
  rcases exists_stateAt_num hRegular hNonneg (le_refl _)
    hReached with ⟨p, hLe, hNum⟩
  have hConfig := (hRegular.plans.states gid p hLe).2
  rw [hNum, hAt] at hConfig
  cases hConfig
  have hCleared := hStates gid p s hLe hOwner
  rw [hNum] at hCleared
  exact hCleared

theorem Reached.latest
    {c : Cluster I}
    {gid num : Int}
    {bound : Nat}
    (hReached : Reached c gid bound num) :
    num ≤ (c.latest gid).config.num := by
  rcases hReached with ⟨p, _, hLog, hNum⟩
  have hMono := stateAt_num_mono gid (c.groups gid).log hLog
  exact le_trans hNum hMono

/- A reply without error clears the shards it brings. -/
theorem FromReply.cleared
    {c : Cluster I}
    (hStates : c.StatesCleared)
    (hRegular : c.Regular)
    (hDeletions : c.DeletionsPlanned)
    {gid src : Int}
    {oldConfig next : Config}
    {shards : Shard → Bool}
    {mp : String → Option String}
    {sessions : Sessions}
    (hReply : FromReply c src next shards mp sessions)
    (hPos : 1 ≤ next.num)
    (hOld : c.configs[(next.num - 1).toNat]? =
      some oldConfig)
    (hAimed : Aimed gid oldConfig next src shards)
    {s : Shard}
    (hShard : shards s = true) :
    Cleared c gid s next.num := by
  rcases hReply with
    ⟨record, hMem, rfl, _, hNum, hOk, _, _⟩
  have hReached := (hDeletions.pulls record hMem hOk).latest
  rw [hNum] at hReached
  rw [hAimed.1] at hShard
  have hOwner := (needed_spec hShard).2.1
  have hSource := hStates.of_reached hRegular
    (show 0 ≤ next.num - 1 by omega) (by omega) hOld hOwner
  have hCleared : Cleared c gid s (next.num - 1 + 1) :=
    hSource.pulled hRegular.plans.numbered hOld hOwner
      (by omega)
  rw [Int.sub_add_cancel] at hCleared
  exact hCleared

------------------------------------------------------------
-- Cleared Entries
------------------------------------------------------------

def NextCleared
    (c : Cluster I)
    (gid : Int)
    (next : Config) : Prop :=
  ∀ s, next.shards s = gid → Cleared c gid s next.num

/- An entry that makes the group serve shards. -/
def ArgsCleared
    (c : Cluster I)
    (gid : Int) :
    Args → Prop
| .changeConfig next => NextCleared c gid next
| .applyMovement _ _ next shards =>
    ∀ s, shards s = true → Cleared c gid s next.num
| _ => True

/-
  pollConfig pulls all shards that are new in the next
  configuration, and is cleared for it afterwards.
-/
def Poll.Clears
    (c : Cluster I)
    (gid : Int) :
    Poll → Prop
| .updating _ _ call =>
    ArgsCleared c gid call.request.args
| .moving _ oldConfig next pulls _ =>
    c.configs[(next.num - 1).toNat]? = some oldConfig ∧
      ∀ s,
        next.shards s = gid →
        oldConfig.shards s = gid ∨
          ∃ pull ∈ pulls, pull.shards s = true
| .deleting _ _ next _ => NextCleared c gid next
| .moved _ next => NextCleared c gid next
| .committing _ _ call =>
    ArgsCleared c gid call.request.args
| _ => True

theorem NextCleared.mono
    {c c' : Cluster I}
    (hExtends : c.Extends c')
    (hNumbered : Shardctrler.Numbered c'.configs)
    {gid : Int}
    {next : Config}
    (hNext : NextCleared c gid next) :
    NextCleared c' gid next := by
  intro s hOwner
  exact (hNext s hOwner).mono hExtends hNumbered

theorem ArgsCleared.mono
    {c c' : Cluster I}
    (hExtends : c.Extends c')
    (hNumbered : Shardctrler.Numbered c'.configs)
    {gid : Int}
    {args : Args}
    (hArgs : ArgsCleared c gid args) :
    ArgsCleared c' gid args := by
  cases args with
  | changeConfig next =>
      exact NextCleared.mono hExtends hNumbered hArgs
  | applyMovement mp sessions next shards =>
      intro s hShard
      exact (hArgs s hShard).mono hExtends hNumbered
  | _ => exact trivial

theorem Poll.Clears.mono
    {c c' : Cluster I}
    (hExtends : c.Extends c')
    (hNumbered : Shardctrler.Numbered c'.configs)
    {gid : Int}
    {poll : Poll}
    (hPoll : poll.Clears c gid) :
    poll.Clears c' gid := by
  cases poll with
  | updating latest next call =>
      exact ArgsCleared.mono hExtends hNumbered hPoll
  | moving latest oldConfig next pulls fail =>
      exact ⟨hExtends.getElem?_configs hPoll.1, hPoll.2⟩
  | deleting latest oldConfig next deletes =>
      exact NextCleared.mono hExtends hNumbered hPoll
  | moved latest next =>
      exact NextCleared.mono hExtends hNumbered hPoll
  | committing latest next call =>
      exact ArgsCleared.mono hExtends hNumbered hPoll
  | _ => exact trivial

------------------------------------------------------------
-- The Condition
------------------------------------------------------------

/-
  MoveShards starts from the configuration before the next
  one, which UpdateShardVec was computed from.
-/
def Node.movesFromPrevious (nd : Node) : Event → Bool
| .lock =>
    match nd.poll with
    | .updated _ next true =>
        nd.dead ||
          decide (nd.kv.config.num < next.num →
            nd.kv.config.num + 1 = next.num)
    | _ => true
| _ => true

/- pollConfig leaves phase 1 under the lock only. -/
theorem Node.step_updated
    {w : World}
    {nd nd' : Node}
    {event : Event}
    {effects : List Effect}
    (hStep : nd.step w event = some (nd', effects))
    (hMoves : nd.movesFromPrevious event = true)
    {latest next : Config}
    (hPoll : nd.poll = .updated latest next true)
    (hLt : nd.kv.config.num < next.num) :
    nd'.poll = nd.poll ∨ nd'.poll = .changing latest ∨
      nd.kv.config.num + 1 = next.num := by
  cases event with
  | handler k step =>
      left
      dsimp only [Node.step, stepHandler] at hStep
      rcases Option.bind_eq_some_iff.mp hStep with
        ⟨call, _, hMap⟩
      rcases Option.map_eq_some_iff.mp hMap with
        ⟨⟨call', effects'⟩ | reply, _, hEq⟩
      · cases hEq
        rfl
      · cases hEq
        rfl
  | requestMapAndSession isLeader args =>
      cases hStep
      exact Or.inl rfl
  | lock =>
      simp only [movesFromPrevious, hPoll, Bool.or_eq_true,
        decide_eq_true_eq] at hMoves
      rcases hMoves with hDead | hPrevious
      · right
        left
        simp only [Node.step, stepLock, hPoll, hDead,
          Bool.or_true, if_true, Option.some.injEq,
          Prod.mk.injEq] at hStep
        rw [← hStep.1]
      · exact Or.inr (Or.inr (hPrevious hLt))
  | apply =>
      left
      rcases Option.map_eq_some_iff.mp hStep with
        ⟨op, _, hEq⟩
      cases hEq
      rfl
  | commit k =>
      left
      rcases Option.bind_eq_some_iff.mp hStep with
        ⟨entry, _, hGuard⟩
      split at hGuard
      · cases hGuard
        rfl
      · cases hGuard
  | install snapshotIndex =>
      left
      dsimp only [Node.step, stepInstall] at hStep
      split at hStep
      · cases hStep
        rfl
      · cases hStep
  | kill =>
      cases hStep
      exact Or.inl rfl
  | query isLeader =>
      simp [Node.step, stepQuery, hPoll] at hStep
  | next isLeader =>
      simp [Node.step, stepNext, hPoll] at hStep
  | pollCall step =>
      simp [Node.step, stepPollCall, hPoll] at hStep
  | wait isLeader =>
      simp [Node.step, stepWait, hPoll] at hStep
  | pullReply k r =>
      simp [Node.step, stepPullReply, hPoll] at hStep
  | pullLock k =>
      simp [Node.step, stepPullLock, hPoll] at hStep
  | pullCall k step =>
      simp [Node.step, stepPullCall, hPoll] at hStep
  | pullStop k =>
      simp [Node.step, stepPullStop, hPoll] at hStep
  | deleteSend k =>
      simp [Node.step, stepDeleteSend, hPoll] at hStep
  | deleteReply k r =>
      simp [Node.step, stepDeleteReply, hPoll] at hStep
  | deleteStop k =>
      simp [Node.step, stepDeleteStop, hPoll] at hStep

/-
  A movement is for the configuration of the group or the
  next one, or brings shards that the group has anyway. A
  shard is taken over from nobody when the groups that had it
  before have passed the configurations in which they had it.
-/
def ShardKV.claimsPassed
    (kv : ShardKV)
    (gid : Int)
    (passed : Shard → Int → Bool)
    (op : Op) : Bool :=
  kv.stable (kv.lastApplied + 1) op ||
    match op.args with
    | .applyMovement _ _ config shards =>
        decide (∀ s,
          shards s = true →
          kv.config.num ≤ config.num ∨
            kv.config.shards s = gid)
    | .updateShardVec configNum newVec =>
        decide (kv.config.num < configNum →
          ∀ s,
            newVec s = true →
            kv.config.shards s = 0 →
            passed s configNum = true)
    | _ => true

def Cluster.ownsSingly
    (c : Cluster I)
    (action : Action I) : Bool :=
  (match action with
    | .node gid i event =>
        ((c.groups gid).nodes i).all fun nd =>
          nd.movesFromPrevious event
    | _ => true) &&
  match c.delivering action with
  | some (gid, nd, op) =>
      nd.kv.claimsPassed gid (c.passed gid) op
  | none => true

------------------------------------------------------------
-- pollConfig
------------------------------------------------------------

/- MoveShards pulls every shard that is new. -/
theorem exists_newPull
    {gid : Int}
    {oldConfig next : Config}
    {s : Shard}
    (hNext : next.shards s = gid)
    (hOld : oldConfig.shards s ≠ gid) :
    ∃ pull ∈ newPulls gid oldConfig next,
      pull.shards s = true := by
  have hGains : gains gid oldConfig next s = true := by
    unfold gains
    simp [hNext, hOld]
  have hMem : oldConfig.shards s ∈
      sources gid oldConfig next := by
    apply List.mem_dedup.mpr
    apply List.mem_map.mpr
    exact ⟨s, List.mem_filter.mpr
      ⟨List.mem_finRange s, hGains⟩, rfl⟩
  have hPull : _ ∈ newPulls gid oldConfig next :=
    List.mem_map.mpr ⟨_, hMem, rfl⟩
  refine ⟨_, hPull, ?_⟩
  have hAimed := (mem_newPulls hPull).2.1
  rw [hAimed]
  unfold needed
  rw [hGains]
  simp

/- One of the pulls goes on. -/
theorem Poll.Clears.setPull
    {c : Cluster I}
    {gid : Int}
    {latest oldConfig next : Config}
    {pulls : List Pull}
    {fail : Bool}
    (hPoll : (Poll.moving latest oldConfig next pulls
      fail).Clears c gid)
    {k : Nat}
    {pull : Pull}
    (hPull : pulls[k]? = some pull)
    (state : PullState)
    (fail' : Bool) :
    (Poll.moving latest oldConfig next
      (pulls.set k { pull with state := state })
      fail').Clears c gid := by
  refine ⟨hPoll.1, ?_⟩
  intro s hOwner
  rcases hPoll.2 s hOwner with hOld | ⟨pull', hMem, hShard⟩
  · exact Or.inl hOld
  · right
    rcases List.mem_iff_getElem?.mp hMem with ⟨j, hJ⟩
    have hLt := (List.getElem?_eq_some_iff.mp hPull).1
    by_cases hSame : j = k
    · subst hSame
      rw [hPull] at hJ
      cases hJ
      exact ⟨_, List.mem_set hLt _, hShard⟩
    · refine ⟨pull', List.mem_of_getElem? (i := j) ?_,
        hShard⟩
      rw [List.getElem?_set_ne (fun h => hSame h.symm)]
      exact hJ

/- The first configuration clears everybody. -/
theorem NextCleared.first
    {c : Cluster I}
    (hNumbered : Shardctrler.Numbered c.configs)
    {gid : Int}
    {next : Config}
    (hOne : next.num = 1) :
    NextCleared c gid next := by
  intro s _
  have hZero := hNumbered.zero
  have hLength := (List.getElem?_eq_some_iff.mp hZero).1
  constructor
  · omega
  · intro config hMem hLt hSome _
    rcases List.mem_iff_getElem?.mp hMem with ⟨k, hAt⟩
    have hNum := hNumbered.num k config hAt
    have hK : k = 0 := by omega
    subst hK
    rw [hZero] at hAt
    cases hAt
    exact absurd rfl hSome

/- When all pulls are done, so is the next configuration. -/
theorem NextCleared.of_pulls
    {c : Cluster I}
    (hStates : c.StatesCleared)
    (hRegular : c.Regular)
    (hDeletions : c.DeletionsPlanned)
    {gid : Int}
    {bound : Nat}
    {latest oldConfig next : Config}
    {pulls : List Pull}
    (hPoll : (Poll.moving latest oldConfig next pulls
      false).Clears c gid)
    (hPlanned : (Poll.moving latest oldConfig next pulls
      false).Planned c gid bound)
    (hMoved : ∀ pull ∈ pulls,
      Moved c gid pull.src next pull.shards) :
    NextCleared c gid next := by
  rcases hPlanned with ⟨_, hNext, hAimed⟩
  have hPos := hNext.pos
  intro s hOwner
  rcases hPoll.2 s hOwner with hOld | ⟨pull, hMem, hShard⟩
  · -- the group had it before
    rcases hNext.timely with ⟨p, _, hLog, hNum⟩
    have hMono := stateAt_num_mono gid (c.groups gid).log
      hLog
    have hOwn := hStates.of_reached hRegular
      (show 0 ≤ next.num - 1 by omega)
      (le_trans (by omega) hMono) hPoll.1 hOld
    have hCleared := hOwn.next hRegular.plans.numbered
      hPoll.1 hOld
    rw [Int.sub_add_cancel] at hCleared
    exact hCleared
  · rcases hMoved pull hMem with
      ⟨_, _, mp, sessions, _, _, _, hReply⟩
    exact hReply.cleared hStates hRegular hDeletions hPos
      hPoll.1 (hAimed pull hMem).1 hShard

/- pollConfig keeps this when its node takes a step. -/
theorem Poll.Clears.step
    {c : Cluster I}
    (hStates : c.StatesCleared)
    (hRegular : c.Regular)
    (hDeletions : c.DeletionsPlanned)
    (hMoves : c.Moves)
    {gid : Int}
    {i : I}
    {nd nd' : Node}
    {effects : List Effect}
    (hNode : (c.groups gid).nodes i = some nd)
    (hPoll : nd.poll.Clears c gid)
    (hPrevious : ∀ latest next,
      nd.poll = .updated latest next true →
      nd.kv.config.num < next.num →
      nd'.poll = nd.poll ∨ nd'.poll = .changing latest ∨
        nd.kv.config.num + 1 = next.num)
    (hStep : NodeStep (c.world gid) nd nd' effects) :
    nd'.poll.Clears c gid := by
  have hPlans := hRegular.plans
  have hPlanned := hPlans.polls gid i nd hNode
  have hMoved := hMoves.polls gid i nd hNode
  cases hStep with
  | handlerStarted => exact hPoll
  | handlerReturned => exact hPoll
  | pulled => exact hPoll
  | updateStarted latest next call number index hUpdating =>
      rw [hUpdating] at hPoll
      exact hPoll
  | updateRetried latest next call hUpdating =>
      rw [hUpdating] at hPoll
      exact hPoll
  | nothingToMove latest next hUpdated hLt hZero =>
      rcases hPrevious latest next hUpdated hLt with
        hSame | hChanging | hNum
      · rw [hUpdated] at hSame
        cases hSame
      · cases hChanging
      · exact NextCleared.first hPlans.numbered (by omega)
  | moving latest next hUpdated hLt hZero =>
      rcases hPrevious latest next hUpdated hLt with
        hSame | hChanging | hNum
      · rw [hUpdated] at hSame
        cases hSame
      · cases hChanging
      · have hFollows := hRegular.delivers.follows gid i nd
          hNode
        have hApplied := hFollows.applied_le
        have hDelivered := hFollows.delivered_le
        have hAt := (hPlans.states gid
          nd.kv.lastApplied.toNat (by omega)).2
        rw [← hFollows.config] at hAt
        have hPrev : next.num - 1 = nd.kv.config.num := by
          omega
        constructor
        · rw [hPrev]
          exact hAt
        · intro s hOwner
          by_cases hOld : nd.kv.config.shards s = gid
          · exact Or.inl hOld
          · exact Or.inr (exists_newPull hOwner hOld)
  | pullReplied latest oldConfig next pulls fail k pull
      record hMoving hPull =>
      rw [hMoving] at hPoll
      exact hPoll.setPull hPull _ _
  | pullLocked latest oldConfig next pulls fail k pull mp
      sessions hMoving hPull =>
      rw [hMoving] at hPoll
      exact hPoll.setPull hPull _ _
  | pullStarted latest oldConfig next pulls fail k pull call
      number index hMoving hPull =>
      rw [hMoving] at hPoll
      exact hPoll.setPull hPull _ _
  | pullRetried latest oldConfig next pulls fail k pull call
      hMoving hPull =>
      rw [hMoving] at hPoll
      exact hPoll.setPull hPull _ _
  | pullReturned latest oldConfig next pulls fail k pull call
      step reply moveOK hMoving hPull =>
      rw [hMoving] at hPoll
      exact hPoll.setPull hPull _ _
  | pullStopped latest oldConfig next pulls fail k pull
      hMoving hPull =>
      rw [hMoving] at hPoll
      exact hPoll.setPull hPull _ _
  | deleting latest oldConfig next pulls hMoving hDone
      hAlive =>
      rw [hMoving] at hPoll hPlanned hMoved
      refine NextCleared.of_pulls hStates hRegular hDeletions
        hPoll hPlanned ?_
      intro pull hMem
      have hPulled := hMoved pull hMem
      rw [hDone pull hMem, hAlive] at hPulled
      rcases hPulled with hDead | hFail | hEntry
      · cases hDead
      · cases hFail
      · exact hEntry
  | deleteSent latest oldConfig next deletes k delete
      hDeleting =>
      rw [hDeleting] at hPoll
      exact hPoll
  | deleteDone latest oldConfig next deletes k delete
      hDeleting =>
      rw [hDeleting] at hPoll
      exact hPoll
  | moved latest oldConfig next deletes hDeleting =>
      rw [hDeleting] at hPoll
      exact hPoll
  | committing latest next hMovedTo =>
      rw [hMovedTo] at hPoll
      exact hPoll
  | commitStarted latest next call number index hCommitting =>
      rw [hCommitting] at hPoll
      exact hPoll
  | commitRetried latest next call hCommitting =>
      rw [hCommitting] at hPoll
      exact hPoll
  | applied => exact hPoll
  | committed => exact hPoll
  | installed => exact hPoll
  | killed => exact hPoll
  | _ => exact trivial

/- A call of pollConfig has cleared arguments. -/
theorem ArgsCleared.of_call
    {c : Cluster I}
    (hStates : c.StatesCleared)
    (hRegular : c.Regular)
    (hDeletions : c.DeletionsPlanned)
    (hMoves : c.Moves)
    {gid : Int}
    {i : I}
    {nd : Node}
    (hNode : (c.groups gid).nodes i = some nd)
    (hPoll : nd.poll.Clears c gid)
    {call : Call}
    (hCall : call ∈ nd.poll.calls) :
    ArgsCleared c gid call.request.args := by
  have hPlanned := hRegular.plans.polls gid i nd hNode
  have hMoved := hMoves.polls gid i nd hNode
  cases hCase : nd.poll with
  | moving latest oldConfig next pulls fail =>
      rw [hCase] at hCall hPlanned hMoved hPoll
      rcases Poll.mem_calls_moving.mp hCall with
        ⟨pull, hMem, hState⟩
      have hPull := hMoved pull hMem
      rw [hState] at hPull
      rcases hPull with ⟨mp, sessions, hArgs, hReply⟩
      rw [hArgs]
      intro s hShard
      exact hReply.cleared hStates hRegular hDeletions
        hPlanned.2.1.pos hPoll.1 (hPlanned.2.2 pull hMem).1
        hShard
  | committing latest next call' =>
      rw [hCase] at hCall hPoll
      cases List.mem_singleton.mp hCall
      exact hPoll
  | updating latest next call' =>
      rw [hCase] at hCall hPoll
      cases List.mem_singleton.mp hCall
      exact hPoll
  | _ =>
      rw [hCase] at hCall
      cases hCall

------------------------------------------------------------
-- Served Shards
------------------------------------------------------------

/-
  A group is cleared for the shards it has, and those it
  serves it has, or gets in the next configuration, cleared.
-/
structure Store.Serves
    (c : Cluster I)
    (gid : Int)
    (st : Store) : Prop where
  own : ∀ s,
    st.config.shards s = gid →
    Cleared c gid s st.config.num
  vec : ∀ s,
    st.shardVec s = true →
    st.config.shards s = gid ∨
      ∃ next,
        c.configs[(st.config.num + 1).toNat]? = some next ∧
        next.shards s = gid ∧
        Cleared c gid s (st.config.num + 1)

theorem Store.Serves.mono
    {c c' : Cluster I}
    (hExtends : c.Extends c')
    (hNumbered : Shardctrler.Numbered c'.configs)
    {gid : Int}
    {st : Store}
    (hServes : st.Serves c gid) :
    st.Serves c' gid := by
  constructor
  · intro s hOwner
    exact (hServes.own s hOwner).mono hExtends hNumbered
  · intro s hServed
    rcases hServes.vec s hServed with
      hOwner | ⟨next, hAt, hNext, hCleared⟩
    · exact Or.inl hOwner
    · exact Or.inr ⟨next, hExtends.getElem?_configs hAt,
        hNext, hCleared.mono hExtends hNumbered⟩

/- An entry that is applied keeps this. -/
theorem Store.Serves.applyOp
    {c : Cluster I}
    (hPlans : c.Plans)
    {gid : Int}
    {n : Nat}
    (hLe : n ≤ (c.groups gid).log.length)
    (hServes : (stateAt gid
      (c.groups gid).log n).toStore.Serves c gid)
    {args : Args}
    (hPlanned : ArgsPlanned c gid n args)
    (hCleared : ArgsCleared c gid args)
    (hMoved : ∀ mp sessions config shards,
      args = .applyMovement mp sessions config shards →
      ∀ s,
        shards s = true →
        (stateAt gid (c.groups gid).log n).config.num ≤
            config.num ∨
          (stateAt gid (c.groups gid).log n).config.shards s =
            gid)
    (hTaken : ∀ configNum newVec,
      args = .updateShardVec configNum newVec →
      (stateAt gid (c.groups gid).log n).config.num <
        configNum →
      ∀ s,
        newVec s = true →
        (stateAt gid (c.groups gid).log n).config.shards s =
          0 →
        c.passed gid s configNum = true) :
    ((stateAt gid (c.groups gid).log n).applyOp
      args).1.Serves c gid := by
  have hGid := stateAt_gid gid (c.groups gid).log n
  have hAt := hPlans.states gid n hLe
  generalize hKv : stateAt gid (c.groups gid).log n = kv at *
  cases args with
  | get key => exact hServes
  | put key value =>
      unfold Store.applyOp
      dsimp only
      split
      · exact ⟨hServes.own, hServes.vec⟩
      · exact hServes
  | append key value =>
      unfold Store.applyOp
      dsimp only
      split
      · exact ⟨hServes.own, hServes.vec⟩
      · exact hServes
  | deleteShards shards configNum =>
      exact ⟨hServes.own, hServes.vec⟩
  | changeConfig config =>
      unfold Store.applyOp
      dsimp only
      split
      · constructor
        · exact hCleared
        · intro s hServed
          dsimp only at hServed ⊢
          rw [hGid] at hServed
          exact Or.inl (of_decide_eq_true hServed)
      · exact hServes
  | updateShardVec configNum newVec =>
      unfold Store.applyOp
      dsimp only
      split
      · next hLt =>
          have hUpdate := update_planned hPlans hLe hPlanned
          rw [hKv] at hUpdate
          rcases hUpdate hLt with ⟨hNum, next, hNext, hVec⟩
          refine ⟨hServes.own, ?_⟩
          intro s hServed
          dsimp only at hServed
          have hNew := hServed
          rw [hVec] at hNew
          unfold newShardVec at hNew
          simp only [Bool.and_eq_true, Bool.or_eq_true,
            decide_eq_true_eq] at hNew
          rcases hNew with ⟨hOwn | hNobody, hOwner⟩
          · exact Or.inl hOwn
          · right
            have hPassed := hTaken configNum newVec rfl hLt s
              hServed hNobody
            have hLength :=
              (List.getElem?_eq_some_iff.mp hNext).1
            have hBound : kv.config.num + 1 ≤
                c.configs.length := by
              omega
            rw [hNum] at hNext hPassed
            exact ⟨next, hNext, hOwner, hBound,
              Cluster.passed_iff.mp hPassed⟩
      · exact hServes
  | applyMovement mp sessions config shards =>
      have hNum := hPlanned.1.num_le
      rw [hKv] at hNum
      refine ⟨hServes.own, ?_⟩
      intro s hServed
      change (shards s || kv.shardVec s) = true at hServed
      by_cases hShard : shards s = true
      · rcases hMoved mp sessions config shards rfl s hShard
          with hTimely | hOwn
        · have hConfig := hPlanned.1.config
          by_cases hSame : config.num = kv.config.num
          · -- the movement is for the present configuration
            left
            rw [hSame, hAt.2] at hConfig
            cases hConfig
            exact hPlanned.2 s hShard
          · right
            have hNext : config.num = kv.config.num + 1 := by
              omega
            have hShards := hCleared s hShard
            rw [hNext] at hConfig hShards
            exact ⟨config, hConfig, hPlanned.2 s hShard,
              hShards⟩
        · exact Or.inl hOwn
      · rw [Bool.not_eq_true] at hShard
        rw [hShard, Bool.false_or] at hServed
        exact hServes.vec s hServed

------------------------------------------------------------
-- Every Reachable Cluster
------------------------------------------------------------

structure Cluster.Clears (c : Cluster I) : Prop where
  states : ∀ gid n,
    n ≤ (c.groups gid).log.length →
    (stateAt gid (c.groups gid).log n).toStore.Serves c gid
  started : ∀ gid index op,
    (index, op) ∈ (c.groups gid).started →
    ArgsCleared c gid op.args
  polls : ∀ gid i nd,
    (c.groups gid).nodes i = some nd →
    nd.poll.Clears c gid

theorem Cluster.Clears.statesCleared
    {c : Cluster I}
    (hClears : c.Clears) :
    c.StatesCleared := by
  intro gid n s hLe hOwner
  exact (hClears.states gid n hLe).own s hOwner

/- The state after an entry that meets the condition. -/
theorem Cluster.Clears.entry
    {c : Cluster I}
    (hClears : c.Clears)
    (hRegular : c.Regular)
    {gid : Int}
    {op : Op}
    (hEntry : ((c.groups gid).log.length + 1, op) ∈
      (c.groups gid).started)
    (hPassed : (c.latest gid).claimsPassed gid
      (c.passed gid) op = true) :
    ((c.latest gid).applyCommand
      ((c.groups gid).log.length + 1) op).toStore.Serves c
        gid := by
  have hPlans := hRegular.plans
  have hServes := hClears.states gid _ (le_refl _)
  rcases (c.latest gid).applyCommand_store_cases
    ((c.groups gid).log.length + 1) op with
    hSame | ⟨hStable, _, hApplied⟩
  · rw [hSame]
    exact hServes
  · have hLast : (c.latest gid).lastApplied =
        ((c.groups gid).log.length : Int) :=
      stateAt_lastApplied gid (le_refl _)
    unfold ShardKV.claimsPassed at hPassed
    rw [hLast, hStable, Bool.false_or] at hPassed
    rw [hApplied]
    refine hServes.applyOp hPlans (le_refl _)
      (hPlans.started gid _ op hEntry)
      (hClears.started gid _ op hEntry) ?_ ?_
    · intro mp sessions config shards hArgs
      rw [hArgs] at hPassed
      exact of_decide_eq_true hPassed
    · intro configNum newVec hArgs
      rw [hArgs] at hPassed
      exact of_decide_eq_true hPassed

variable [DecidableEq I]

omit [DecidableEq I] in
/- What ownsSingly says about a step of pollConfig. -/
theorem Cluster.ownsSingly_node
    {c : Cluster I}
    {gid : Int}
    {i : I}
    {event : Event}
    (hOwns : c.ownsSingly (.node gid i event) = true)
    {nd : Node}
    (hNode : (c.groups gid).nodes i = some nd) :
    nd.movesFromPrevious event = true := by
  have hFirst := (Bool.and_eq_true_iff.mp hOwns).1
  dsimp only at hFirst
  rw [hNode, Option.all_some] at hFirst
  exact hFirst

omit [DecidableEq I] in
/- And about a delivery. -/
theorem Cluster.ownsSingly_delivering
    {c : Cluster I}
    {action : Action I}
    (hOwns : c.ownsSingly action = true)
    {gid : Int}
    {nd : Node}
    {op : Op}
    (hDelivering : c.delivering action =
      some (gid, nd, op)) :
    nd.kv.claimsPassed gid (c.passed gid) op = true := by
  have hSecond := (Bool.and_eq_true_iff.mp hOwns).2
  rw [hDelivering] at hSecond
  exact hSecond

theorem Cluster.Clears.poll_step
    {c c' : Cluster I}
    {action : Action I}
    (hClears : c.Clears)
    (hRegular : c.Regular)
    (hDeletions : c.DeletionsPlanned)
    (hMoves : c.Moves)
    (hOwns : c.ownsSingly action = true)
    (hStep : Cluster.system.step action c = some c')
    {gid : Int}
    {j : I}
    {nd : Node}
    (hNode : (c'.groups gid).nodes j = some nd) :
    nd.poll.Clears c gid := by
  have hArrive :
      ∀ gid' i request,
        c.arrive gid' i request = some c' →
        nd.poll.Clears c gid := by
    intro gid' i request hArrive
    rcases Option.map_eq_some_iff.mp hArrive with
      ⟨nd', hOld, rfl⟩
    rcases Cluster.node_of_after hNode with
      ⟨rfl, rfl, rfl⟩ | ⟨hSame, _⟩
    · exact hClears.polls gid j nd' hOld
    · exact hClears.polls gid j nd hSame
  cases action with
  | control op =>
      rcases Option.map_eq_some_iff.mp hStep with
        ⟨configs, _, rfl⟩
      exact hClears.polls gid j nd hNode
  | start gid' i uid =>
      dsimp only [Cluster.system, Cluster.step] at hStep
      split at hStep
      · cases hStep
        rcases Cluster.node_of_after hNode with
          ⟨rfl, rfl, rfl⟩ | ⟨hSame, _⟩
        · exact trivial
        · exact hClears.polls gid j nd hSame
      · cases hStep
  | client gid' i request =>
      dsimp only [Cluster.system, Cluster.step] at hStep
      split at hStep
      · exact hArrive gid' i request hStep
      · cases hStep
  | deletion d i =>
      rcases Option.bind_eq_some_iff.mp hStep with
        ⟨deletion, _, hDelete⟩
      exact hArrive deletion.target i deletion.request hDelete
  | node gid' i event =>
      rcases Option.bind_eq_some_iff.mp hStep with
        ⟨nd', hOld, hMap⟩
      rcases Option.map_eq_some_iff.mp hMap with
        ⟨⟨after, effects⟩, hNext, rfl⟩
      rcases Cluster.node_of_after hNode with
        ⟨rfl, rfl, rfl⟩ | ⟨hSame, _⟩
      · refine Poll.Clears.step hClears.statesCleared hRegular
          hDeletions hMoves hOld
          (hClears.polls gid j nd' hOld) ?_
          (Node.step_cases hNext)
        intro latest next hPoll hLt
        exact Node.step_updated hNext
          (Cluster.ownsSingly_node hOwns hOld) hPoll hLt
      · exact hClears.polls gid j nd hSame

theorem Cluster.Clears.started_step
    {c c' : Cluster I}
    (hClears : c.Clears)
    (hRegular : c.Regular)
    (hDeletions : c.DeletionsPlanned)
    (hMoves : c.Moves)
    (hStep : ClusterStep c c')
    {gid : Int}
    {index : Nat}
    {op : Op}
    (hMem : (index, op) ∈ (c'.groups gid).started) :
    ArgsCleared c gid op.args := by
  cases hStep with
  | control op' configs hApply =>
      exact hClears.started gid index op hMem
  | start gid' i uid hGid hNeg hFresh =>
      exact hClears.started gid index op
        (Cluster.mem_after_nil_started.mp hMem)
  | receive gid' i nd request hNode hArrives =>
      exact hClears.started gid index op
        (Cluster.mem_after_nil_started.mp hMem)
  | node gid' i nd nd' effects hNode hStep =>
      rcases Cluster.mem_after_started.mp hMem with
        hOld | ⟨rfl, hNew⟩
      · exact hClears.started gid index op hOld
      · rcases hStep.starts_cases with
          hNone | ⟨call, number, index', hCall, _, _, hOne⟩
        · rw [hNone] at hNew
          cases hNew
        · rw [hOne] at hNew
          cases List.mem_singleton.mp hNew
          rcases hCall with hHandler | hPoll
          · -- handlers run for clients and deletions
            rcases hRegular.plans.external
              (hRegular.receives gid i nd call hNode
                hHandler) with
              hClient | ⟨shards, configNum, hArgs⟩
            · change ArgsCleared c gid call.request.args
              cases hArgs : call.request.args with
              | changeConfig next =>
                  rw [hArgs] at hClient
                  cases hClient
              | applyMovement mp sessions next shards =>
                  rw [hArgs] at hClient
                  cases hClient
              | _ => exact trivial
            · change ArgsCleared c gid call.request.args
              rw [hArgs]
              exact trivial
          · exact ArgsCleared.of_call hClears.statesCleared
              hRegular hDeletions hMoves hNode
              (hClears.polls gid i nd hNode) hPoll

theorem ShardKV.claimsPassed_agrees
    {kv kv' : ShardKV}
    (hAgrees : kv.Agrees kv')
    (gid : Int)
    (passed : Shard → Int → Bool)
    (op : Op) :
    kv.claimsPassed gid passed op =
      kv'.claimsPassed gid passed op := by
  unfold claimsPassed
  rw [hAgrees.stable_eq (Or.inl rfl), hAgrees.lastApplied,
    hAgrees.store]

theorem Cluster.Clears.state_step
    {c c' : Cluster I}
    {action : Action I}
    (hClears : c.Clears)
    (hRegular : c.Regular)
    (hOwns : c.ownsSingly action = true)
    (hStep : Cluster.system.step action c = some c')
    {gid : Int}
    {n : Nat}
    (hLe : n ≤ (c'.groups gid).log.length) :
    (stateAt gid (c'.groups gid).log n).toStore.Serves c
      gid := by
  have hExtends :=
    Cluster.extends_of_step (Cluster.step_cases hStep)
  rcases Nat.lt_or_ge (c.groups gid).log.length n with
    hNew | hOld
  · rcases Cluster.log_cases hStep with
      hSame | ⟨gid', i, nd, op, hNode, hDelivering, hApplied,
        hEntry, hLog⟩
    · rw [hSame] at hLe
      omega
    · rw [hLog] at hLe ⊢
      by_cases hGid : gid = gid'
      · subst hGid
        rw [if_pos rfl, List.length_append,
          List.length_singleton] at hLe
        have hN : n = (c.groups gid).log.length + 1 := by
          omega
        subst hN
        -- the server is in the latest state
        have hState :=
          (hRegular.delivers.follows gid i nd hNode).state
        have hNat : nd.kv.lastApplied.toNat =
            (c.groups gid).log.length := by
          omega
        rw [hNat] at hState
        have hPassed :=
          Cluster.ownsSingly_delivering hOwns hDelivering
        rw [ShardKV.claimsPassed_agrees hState] at hPassed
        have hAt : ((c.groups gid).log ++ [op])[(c.groups
            gid).log.length]? = some op := by
          simp
        rw [if_pos rfl, stateAt_succ hAt,
          stateAt_append _ _ _ (le_refl _)]
        exact hClears.entry hRegular hEntry hPassed
      · rw [if_neg hGid, List.append_nil] at hLe
        omega
  · rw [hExtends.stateAt hOld]
    exact hClears.states gid n hOld

theorem clears_of_reachable
    {c : Cluster I}
    (hReach : Cluster.system.Reachable
      (fun c action => c.ownsSingly action = true) c) :
    c.Clears := by
  refine System.Reachable.induct
    (P := fun c : Cluster I => c.Clears) ?_ ?_ hReach
  · intro c hInit
    have hEmpty : c = Cluster.empty := hInit
    subst hEmpty
    constructor
    · intro gid n hLe
      cases Nat.le_zero.mp hLe
      constructor
      · intro s _
        refine ⟨Int.zero_le_ofNat 1, ?_⟩
        intro config hMem hLt
        cases List.mem_singleton.mp hMem
        exact absurd hLt (lt_irrefl _)
      · intro s hServed
        cases hServed
    · intro gid index op hMem
      cases hMem
    · intro gid i nd hNode
      cases hNode
  · intro c action c' hReach hClears hOwns hStep
    have hRegular := regular_of_reachable hReach
    have hDeletions := deletionsPlanned_of_reachable hReach
    have hMoves := moves_of_reachable hReach
    have hCases := Cluster.step_cases hStep
    have hExtends := Cluster.extends_of_step hCases
    have hNumbered := (hRegular.plans.step hRegular.delivers
      hRegular.receives hCases).numbered
    constructor
    · intro gid n hLe
      exact (hClears.state_step hRegular hOwns hStep
        hLe).mono hExtends hNumbered
    · intro gid index op hMem
      exact (hClears.started_step hRegular hDeletions hMoves
        hCases hMem).mono hExtends hNumbered
    · intro gid i nd hNode
      exact (hClears.poll_step hRegular hDeletions hMoves
        hOwns hStep hNode).mono hExtends hNumbered

------------------------------------------------------------
-- One Owner
------------------------------------------------------------

/- No server runs for gid 0, which stands for nobody. -/
theorem nobody_of_reachable
    {ok : Cluster I → Action I → Prop}
    {c : Cluster I}
    (hReach : Cluster.system.Reachable ok c) :
    (∀ i, (c.groups 0).nodes i = none) ∧
      (c.groups 0).log = [] := by
  refine System.Reachable.induct
    (P := fun c : Cluster I =>
      (∀ i, (c.groups 0).nodes i = none) ∧
        (c.groups 0).log = []) ?_ ?_ hReach
  · intro c hInit
    have hEmpty : c = Cluster.empty := hInit
    subst hEmpty
    exact ⟨fun _ => rfl, rfl⟩
  · intro c action c' _ ih _ hStep
    have hOther : ∀ gid i nd effects,
        gid ≠ 0 →
        (c.after gid i nd effects).groups 0 =
          c.groups 0 := by
      intro gid i nd effects hGid
      exact Cluster.after_groups_of_ne _ _ _ _ _
        (Ne.symm hGid)
    have hSome : ∀ gid i nd,
        (c.groups gid).nodes i = some nd → gid ≠ 0 := by
      rintro gid i nd hNode rfl
      rw [ih.1 i] at hNode
      cases hNode
    cases Cluster.step_cases hStep with
    | control op configs hApply => exact ih
    | start gid i uid hGid hNeg hFresh =>
        dsimp only
        rw [hOther gid i _ _ hGid]
        exact ih
    | receive gid i nd request hNode hArrives =>
        rw [hOther gid i _ _ (hSome gid i nd hNode)]
        exact ih
    | node gid i nd nd' effects hNode hNodeStep =>
        rw [hOther gid i _ _ (hSome gid i nd hNode)]
        exact ih

omit [DecidableEq I] in
/- The configuration for which a group serves a shard. -/
theorem Cluster.Clears.served
    {c : Cluster I}
    (hClears : c.Clears)
    (hPlans : c.Plans)
    {gid : Int}
    {s : Shard}
    (hServed : (c.latest gid).shardVec s = true) :
    ∃ config ∈ c.configs,
      config.shards s = gid ∧
      (c.latest gid).config.num ≤ config.num ∧
      Cleared c gid s config.num := by
  have hServes := hClears.states gid _ (le_refl _)
  have hState := hPlans.states gid _ (le_refl _)
  rcases hServes.vec s hServed with
    hOwner | ⟨next, hAt, hOwner, hCleared⟩
  · exact ⟨_, List.mem_of_getElem? hState.2, hOwner,
      le_refl _, hServes.own s hOwner⟩
  · have hNum := hPlans.numbered.num _ next hAt
    have hNext : next.num = (c.latest gid).config.num + 1 := by
      have hNonneg := hState.1
      change 0 ≤ (c.latest gid).config.num at hNonneg
      change next.num =
        ((c.latest gid).config.num + 1).toNat at hNum
      omega
    refine ⟨next, List.mem_of_getElem? hAt, hOwner, by omega,
      ?_⟩
    rw [hNext]
    exact hCleared

omit [DecidableEq I] in
/- Of two groups, the one for the earlier configuration is
  no longer there. -/
theorem Cleared.unique
    {c : Cluster I}
    (hNumbered : Shardctrler.Numbered c.configs)
    {gid gid' : Int}
    {s : Shard}
    {config config' : Config}
    (hMem : config ∈ c.configs)
    (hMem' : config' ∈ c.configs)
    (hOwner : config.shards s = gid)
    (hOwner' : config'.shards s = gid')
    (hSome : gid ≠ 0)
    (hPresent : (c.latest gid).config.num ≤ config.num)
    (hCleared : Cleared c gid' s config'.num)
    (hLe : config.num ≤ config'.num) :
    gid = gid' := by
  by_contra hNe
  by_cases hLt : config.num < config'.num
  · have hPassed := hCleared.passed config hMem hLt
      (by rw [hOwner]; exact hSome)
      (by rw [hOwner]; exact hNe)
    rw [hOwner] at hPassed
    omega
  · -- both serve it for one configuration
    rcases List.mem_iff_getElem?.mp hMem with ⟨k, hAt⟩
    rcases List.mem_iff_getElem?.mp hMem' with ⟨k', hAt'⟩
    have hNum := hNumbered.num k config hAt
    have hNum' := hNumbered.num k' config' hAt'
    have hSame : k' = k := by omega
    rw [hSame, hAt] at hAt'
    cases hAt'
    exact hNe (hOwner.symm.trans hOwner')

/-
  In every run in which shards are taken over from nobody only
  after their earlier owners, no movement is applied after its
  configuration, and MoveShards starts from the configuration
  before the next one, two groups never serve one shard.
-/
theorem single_owner
    {c : Cluster I}
    (hReach : Cluster.system.Reachable
      (fun c action => c.ownsSingly action = true) c)
    {gid gid' : Int}
    {s : Shard}
    (hServed : (c.latest gid).shardVec s = true)
    (hServed' : (c.latest gid').shardVec s = true) :
    gid = gid' := by
  have hPlans := plans_of_reachable hReach
  have hClears := clears_of_reachable hReach
  have hSome : ∀ g,
      (c.latest g).shardVec s = true → g ≠ 0 := by
    rintro g hVec rfl
    unfold Cluster.latest at hVec
    rw [(nobody_of_reachable hReach).2] at hVec
    cases hVec
  rcases hClears.served hPlans hServed with
    ⟨config, hMem, hOwner, hPresent, hCleared⟩
  rcases hClears.served hPlans hServed' with
    ⟨config', hMem', hOwner', hPresent', hCleared'⟩
  rcases le_total config.num config'.num with hLe | hLe
  · exact Cleared.unique hPlans.numbered hMem hMem' hOwner
      hOwner' (hSome gid hServed) hPresent hCleared' hLe
  · exact (Cleared.unique hPlans.numbered hMem' hMem hOwner'
      hOwner (hSome gid' hServed') hPresent' hCleared
      hLe).symm

------------------------------------------------------------
-- Runs Of Two Groups
------------------------------------------------------------

def firstShard : Shard :=
  key2shard ""

def lastShard : Shard :=
  Fin.last 9

/- Whether groups 1 and 2 serve the given shards. -/
def serve
    (c : Cluster Unit)
    (s s' : Shard) : Bool :=
  (c.latest 1).shardVec s && (c.latest 2).shardVec s'

/-
  Group 1 has the first configuration when it leaves and group
  2 joins. Group 2 goes through the configurations and gets all
  shards from nobody, while group 1 has not moved.
-/
def claimsFromNobody : List (Action Unit) :=
  firstGroup ++ [leaves [1], joins 2, .start 2 () (-2)] ++
    steps 2 ([.query true] ++ updates 0 ++ changes 1 ++
      updates 2 ++ [.wait true, .wait true] ++ changes 3 ++
      updates 4)

/- Then both groups serve every shard. -/
theorem two_owners :
    ¬ ∀ (c : Cluster Unit),
      Cluster.system.Reachable System.always c →
      ∀ (gid gid' : Int) (s : Shard),
      (c.latest gid).shardVec s = true →
      (c.latest gid').shardVec s = true →
      gid = gid' := by
  intro hClaim
  have hExec :
      (Cluster.system.exec claimsFromNobody
        Cluster.empty).any
          (fun c => serve c firstShard firstShard) =
        true := by
    decide +kernel
  rcases Cluster.exists_reachable_of_exec hExec with
    ⟨c, hReach, hServe⟩
  unfold serve at hServe
  rw [Bool.and_eq_true] at hServe
  have hEq := hClaim c hReach 1 2 firstShard hServe.1
    hServe.2
  cases hEq

/- After a pull, each group serves its half. -/
theorem single_owner_half :
    ∃ c : Cluster Unit,
      Cluster.system.Reachable
        (fun c action => c.ownsSingly action = true) c ∧
      (c.latest 1).shardVec firstShard = true ∧
      (c.latest 2).shardVec lastShard = true ∧
      ∀ gid,
        (c.latest gid).shardVec lastShard = true →
        gid = 2 := by
  have hExec :
      (Cluster.system.execOk Cluster.ownsSingly
          (firstGroup ++ secondGroup 2 ++ pullsHalf)
          Cluster.empty).any
            (fun c => serve c firstShard lastShard) =
        true := by
    decide +kernel
  rcases Cluster.exists_reachable_of_execOk hExec with
    ⟨c, hReach, hServe⟩
  unfold serve at hServe
  rw [Bool.and_eq_true] at hServe
  refine ⟨c, hReach, hServe.1, hServe.2, ?_⟩
  intro gid hServed
  exact single_owner hReach hServed hServe.2

end Shardkv

end RaftLab
