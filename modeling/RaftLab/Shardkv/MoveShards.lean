import RaftLab.Shardctrler.Assignment
import RaftLab.Shardkv.Entries

/-
  The shards that MoveShards pulls, and from whom
  (src/shardkv/server.go).

  MoveShards enters every shard that the new configuration
  gives to the group and the old one does not under the gid
  that has it in the old one. That gid is a group of the old
  configuration unless the shard is unassigned there, which
  happens when every group has left.

  Main declarations:
    * `Shardkv.receiveFrom`, `Shardkv.receiveFrom_shards`
    * `Shardkv.pull_source_iff`
    * `Shardkv.pull_from_nobody`
-/

------------------------------------------------------------
-- receiveFrom
------------------------------------------------------------

namespace RaftLab

namespace Shardkv

open Shardctrler (Shard Config NShards)

/- The group gets this shard. -/
def gains
    (gid : Int)
    (oldConfig newConfig : Config)
    (i : Shard) : Bool :=
  decide (oldConfig.shards i ≠ gid) &&
    decide (newConfig.shards i = gid)

/- Enter a needed shard under the gid that has it. -/
def receiveShard
    (gid : Int)
    (oldConfig newConfig : Config)
    (receiveFrom : Int → Option (Shard → Bool))
    (i : Shard) : Int → Option (Shard → Bool) :=
  if gains gid oldConfig newConfig i then
    let srcGid := oldConfig.shards i
    let shards := (receiveFrom srcGid).getD fun _ => false
    Function.update receiveFrom srcGid
      (some (Function.update shards i true))
  else
    receiveFrom

/- gid -> set of needed shards -/
def receiveFrom
    (gid : Int)
    (oldConfig newConfig : Config) :
    Int → Option (Shard → Bool) :=
  (List.finRange NShards).foldl
    (receiveShard gid oldConfig newConfig) fun _ => none

/- The shards that the group gets from one source. -/
def needed
    (gid : Int)
    (oldConfig newConfig : Config)
    (srcGid : Int)
    (i : Shard) : Bool :=
  gains gid oldConfig newConfig i &&
    decide (oldConfig.shards i = srcGid)

theorem receiveShard_of_needed
    {gid : Int}
    {oldConfig newConfig : Config}
    {srcGid : Int}
    {x : Shard}
    (hNeeded :
      needed gid oldConfig newConfig srcGid x = true)
    (m : Int → Option (Shard → Bool)) :
    receiveShard gid oldConfig newConfig m x srcGid =
      some (Function.update
        ((m srcGid).getD fun _ => false) x true) := by
  unfold needed at hNeeded
  rw [Bool.and_eq_true, decide_eq_true_eq] at hNeeded
  unfold receiveShard
  dsimp only
  rw [if_pos hNeeded.1, hNeeded.2, Function.update_self]

/- The shard is entered elsewhere or not at all. -/
theorem receiveShard_of_not_needed
    {gid : Int}
    {oldConfig newConfig : Config}
    {srcGid : Int}
    {x : Shard}
    (hNeeded :
      ¬ needed gid oldConfig newConfig srcGid x = true)
    (m : Int → Option (Shard → Bool)) :
    receiveShard gid oldConfig newConfig m x srcGid =
      m srcGid := by
  unfold receiveShard
  dsimp only
  split
  · next hGains =>
      apply Function.update_of_ne
      intro hSrc
      apply hNeeded
      unfold needed
      rw [hGains, hSrc]
      simp
  · rfl

/- What the loop has entered after some shards. -/
theorem foldl_receiveShard
    (gid : Int)
    (oldConfig newConfig : Config)
    (shards : List Shard)
    (srcGid : Int) :
    let entered := shards.foldl
      (receiveShard gid oldConfig newConfig)
      (fun _ => none) srcGid
    (entered.isSome = true ↔
      ∃ i ∈ shards,
        needed gid oldConfig newConfig srcGid i = true) ∧
    ∀ i, (entered.getD fun _ => false) i =
      (decide (i ∈ shards) &&
        needed gid oldConfig newConfig srcGid i) := by
  induction shards using List.reverseRecOn with
  | nil => simp
  | append_singleton shards x ih =>
      rw [List.foldl_append, List.foldl_cons, List.foldl_nil]
      rcases ih with ⟨hSome, hShards⟩
      dsimp only
      by_cases hNeeded :
          needed gid oldConfig newConfig srcGid x = true
      · rw [receiveShard_of_needed hNeeded]
        constructor
        · simp [hNeeded]
        · intro i
          rw [Option.getD_some]
          by_cases hEq : i = x
          · subst hEq
            simp [hNeeded]
          · rw [Function.update_of_ne hEq, hShards]
            simp [hEq]
      · rw [receiveShard_of_not_needed hNeeded]
        constructor
        · rw [hSome]
          simp [hNeeded]
        · intro i
          rw [hShards]
          by_cases hEq : i = x
          · subst hEq
            simp [hNeeded]
          · simp [hEq]

/- Exactly the gids with a needed shard are entered. -/
theorem receiveFrom_isSome_iff
    (gid : Int)
    (oldConfig newConfig : Config)
    (srcGid : Int) :
    (receiveFrom gid oldConfig newConfig srcGid).isSome =
        true ↔
      ∃ i, needed gid oldConfig newConfig srcGid i =
        true := by
  have hSpec := (foldl_receiveShard gid oldConfig newConfig
    (List.finRange NShards) srcGid).1
  change (receiveFrom gid oldConfig newConfig
    srcGid).isSome = true ↔ _ at hSpec
  simpa using hSpec

theorem receiveFrom_shards
    {gid : Int}
    {oldConfig newConfig : Config}
    {srcGid : Int}
    {shards : Shard → Bool}
    (hEntered : receiveFrom gid oldConfig newConfig srcGid =
      some shards) :
    shards = needed gid oldConfig newConfig srcGid := by
  have hSpec := (foldl_receiveShard gid oldConfig newConfig
    (List.finRange NShards) srcGid).2
  change ∀ i, ((receiveFrom gid oldConfig newConfig
    srcGid).getD fun _ => false) i = _ at hSpec
  rw [hEntered, Option.getD_some] at hSpec
  funext i
  simpa using hSpec i

------------------------------------------------------------
-- Sources
------------------------------------------------------------

/-
  In every history, each source that MoveShards enters is a
  group of the old configuration exactly when that has any
  group, or the new configuration gives this one nothing.
-/
theorem pull_source_iff
    {configs : List Config}
    (hProduced : Shardctrler.Produced configs)
    {k : Nat}
    {oldConfig newConfig : Config}
    (hOld : configs[k]? = some oldConfig)
    (_hNew : configs[k + 1]? = some newConfig)
    (_hNum : 0 < oldConfig.num)
    (gid : Int) :
    (∀ srcGid,
      (receiveFrom gid oldConfig newConfig srcGid).isSome =
        true →
      srcGid ∈ oldConfig.groups.keys) ↔
      oldConfig.groups.keys ≠ [] ∨
        ∀ i, newConfig.shards i = gid → gid = 0 := by
  have hAssigned := hProduced.assigned oldConfig
    (List.mem_of_getElem? hOld)
  constructor
  · intro hAll
    by_cases hEmpty : oldConfig.groups.keys = []
    · right
      intro i hGiven
      by_contra hGid
      rcases hAssigned with hGroups | ⟨_, hZero⟩
      · have hMem := hGroups i
        rw [hEmpty] at hMem
        cases hMem
      · -- The shard would be pulled from gid 0.
        have hNeeded :
            needed gid oldConfig newConfig 0 i = true := by
          unfold needed gains
          simp [hZero i, hGiven, Ne.symm hGid]
        have hMem := hAll 0
          ((receiveFrom_isSome_iff _ _ _ _).mpr
            ⟨i, hNeeded⟩)
        rw [hEmpty] at hMem
        cases hMem
    · left
      exact hEmpty
  · intro hWhen srcGid hEntered
    rcases (receiveFrom_isSome_iff _ _ _ _).mp hEntered with
      ⟨i, hNeeded⟩
    unfold needed gains at hNeeded
    simp only [Bool.and_eq_true, decide_eq_true_eq]
      at hNeeded
    rcases hNeeded with ⟨⟨hNot, hGiven⟩, hSrc⟩
    rcases hAssigned with hGroups | ⟨hEmpty, hZero⟩
    · rw [← hSrc]
      exact hGroups i
    · rcases hWhen with hSome | hNothing
      · exact absurd hEmpty hSome
      · rw [hZero i, hNothing i hGiven] at hNot
        exact absurd rfl hNot

/- The requests of one client of the controller. -/
def controlRequest
    (reqNum : Int)
    (args : Shardctrler.Args) : Shardctrler.Op where
  number := 10 + reqNum
  reqNum := reqNum
  ckId := 1
  args := args

/- Group 1 joins, then group 2. -/
def joinJoin : List Shardctrler.Op :=
  [controlRequest 1 (.join (AList.insert 1 ["a"] ∅)),
    controlRequest 2 (.join (AList.insert 2 ["b"] ∅))]

/- Group 1 joins and leaves, then group 2 joins. -/
def joinLeaveJoin : List Shardctrler.Op :=
  [controlRequest 1 (.join (AList.insert 1 ["a"] ∅)),
    controlRequest 2 (.leave [1]),
    controlRequest 3 (.join (AList.insert 2 ["b"] ∅))]

/- Two configurations in a row of the history of a log. -/
theorem exists_produced
    {log : List Shardctrler.Op}
    (hMoves : ∀ op ∈ log, ∀ configs,
      Shardctrler.movesToGroup configs op)
    {k : Nat}
    {check : Config → Config → Bool}
    (hCheck :
      (Shardctrler.ShardCtrler.deliver (fun _ => false)
        log).any (fun sc =>
          sc.configs[k]?.any fun oldConfig =>
            sc.configs[k + 1]?.any (check oldConfig)) =
        true) :
    ∃ configs oldConfig newConfig,
      Shardctrler.Produced configs ∧
      configs[k]? = some oldConfig ∧
      configs[k + 1]? = some newConfig ∧
      check oldConfig newConfig = true := by
  rcases (Option.any_eq_true _ _).mp hCheck with
    ⟨sc, hRun, hPair⟩
  rcases (Option.any_eq_true _ _).mp hPair with
    ⟨oldConfig, hOld, hRest⟩
  rcases (Option.any_eq_true _ _).mp hRest with
    ⟨newConfig, hNew, hHolds⟩
  have hProduced : Shardctrler.Produced sc.configs := by
    refine Shardctrler.deliver_produced (fun _ => false) ?_
      hRun
    intro n op sc' hAt _
    exact hMoves op (List.mem_of_getElem? hAt) _
  exact ⟨sc.configs, oldConfig, newConfig, hProduced, hOld,
    hNew, hHolds⟩

/- When group 2 joins, it pulls from group 1 only. -/
theorem pull_source_joinJoin :
    ∃ configs oldConfig newConfig,
      Shardctrler.Produced configs ∧
      configs[1]? = some oldConfig ∧
      configs[2]? = some newConfig ∧
      0 < oldConfig.num ∧
      (receiveFrom 2 oldConfig newConfig 1).isSome = true ∧
      ∀ srcGid,
        (receiveFrom 2 oldConfig newConfig srcGid).isSome =
          true →
        srcGid ∈ oldConfig.groups.keys := by
  have hCheck :
      (Shardctrler.ShardCtrler.deliver (fun _ => false)
        joinJoin).any (fun sc =>
          sc.configs[1]?.any fun oldConfig =>
            sc.configs[1 + 1]?.any fun newConfig =>
              decide (0 < oldConfig.num) &&
                decide (oldConfig.groups.keys ≠ []) &&
                (receiveFrom 2 oldConfig newConfig
                  1).isSome) = true := by
    decide
  rcases exists_produced
    (by simp [joinJoin, controlRequest,
      Shardctrler.movesToGroup]) hCheck with
    ⟨configs, oldConfig, newConfig, hProduced, hOld, hNew,
      hHolds⟩
  simp only [Bool.and_eq_true, decide_eq_true_eq] at hHolds
  rcases hHolds with ⟨⟨hPos, hSome⟩, hPulls⟩
  exact ⟨configs, oldConfig, newConfig, hProduced, hOld,
    hNew, hPos, hPulls,
    (pull_source_iff hProduced hOld hNew hPos 2).mpr
      (Or.inl hSome)⟩

/-
  Group 2 gets every shard from gid 0, which is no group of
  the configuration before.
-/
theorem pull_from_nobody :
    ¬ ∀ (configs : List Config) (k : Nat)
        (oldConfig newConfig : Config),
      Shardctrler.Produced configs →
      configs[k]? = some oldConfig →
      configs[k + 1]? = some newConfig →
      0 < oldConfig.num →
      ∀ gid srcGid,
        (receiveFrom gid oldConfig newConfig srcGid).isSome =
          true →
        srcGid ∈ oldConfig.groups.keys := by
  intro hAll
  have hCheck :
      (Shardctrler.ShardCtrler.deliver (fun _ => false)
        joinLeaveJoin).any (fun sc =>
          sc.configs[2]?.any fun oldConfig =>
            sc.configs[2 + 1]?.any fun newConfig =>
              decide (oldConfig.num = 2) &&
                decide (oldConfig.groups.keys = []) &&
                decide (∀ i, oldConfig.shards i = 0) &&
                decide (∀ i, newConfig.shards i = 2)) =
        true := by
    decide
  rcases exists_produced
    (by simp [joinLeaveJoin, controlRequest,
      Shardctrler.movesToGroup]) hCheck with
    ⟨configs, oldConfig, newConfig, hProduced, hOld, hNew,
      hHolds⟩
  simp only [Bool.and_eq_true, decide_eq_true_eq] at hHolds
  rcases hHolds with ⟨⟨⟨hNum, hKeys⟩, hZero⟩, hTwo⟩
  have hEntered :
      (receiveFrom 2 oldConfig newConfig 0).isSome =
        true := by
    apply (receiveFrom_isSome_iff _ _ _ _).mpr
    refine ⟨key2shard "", ?_⟩
    unfold needed gains
    simp [hZero, hTwo]
  have hMem := hAll configs 2 oldConfig newConfig hProduced
    hOld hNew (by omega) 2 0 hEntered
  rw [hKeys] at hMem
  cases hMem

end Shardkv

end RaftLab
