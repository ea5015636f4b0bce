import RaftLab.Shardctrler.Assignment

/-
  The history of the controller is valid and balanced.

  When the loop of rebalance stops, every shard stands with
  exactly one gid, so the number of shards that a gid gets in
  the new configuration is the length of its slice, and the
  lengths differ by one at most. This does not depend on the
  configuration before, which may have any shards.

  Main declarations:
    * `Shardctrler.Config.shardCount`,
      `Shardctrler.Config.Balanced`
    * `Shardctrler.rebalance_balanced`
    * `Shardctrler.applyOps`
    * `Shardctrler.history_valid_and_balanced`
-/

------------------------------------------------------------
-- Shard Counts
------------------------------------------------------------

namespace RaftLab

namespace Shardctrler

/- How many shards a configuration gives to a gid. -/
def Config.shardCount (config : Config) (gid : Int) : Nat :=
  (List.finRange NShards).countP
    (fun s => decide (config.shards s = gid))

/- The largest and the smallest count differ by at most 1. -/
def Config.Balanced (config : Config) : Prop :=
  ∀ gid ∈ config.groups.keys, ∀ gid' ∈ config.groups.keys,
    config.shardCount gid ≤ config.shardCount gid' + 1

namespace Balance.Complete

variable {gids : List Int} {b : Balance}

theorem count_le_one
    (hComplete : b.Complete gids)
    {gs : GS}
    (hMem : gs ∈ b.GSs)
    (s : Shard) :
    gs.shards.count s ≤ 1 := by
  have hOne := hComplete.copies_eq s
  have hIn : gs.shards.count s ∈
      b.GSs.map fun gs => gs.shards.count s :=
    List.mem_map.mpr ⟨gs, hMem, rfl⟩
  have hLe := List.le_sum_of_mem hIn
  unfold Balance.copies at hOne
  omega

/- A shard stands with one gid only. -/
theorem place_unique
    (hComplete : b.Complete gids)
    {gs gs' : GS}
    (hMem : gs ∈ b.GSs)
    (hMem' : gs' ∈ b.GSs)
    {s : Shard}
    (hShard : s ∈ gs.shards)
    (hShard' : s ∈ gs'.shards) :
    gs = gs' := by
  by_contra hNe
  rcases List.append_of_mem hMem with ⟨low, high, hSplit⟩
  have hOther : gs' ∈ low ++ high := by
    rw [hSplit] at hMem'
    rcases List.mem_append.mp hMem' with hLow | hHigh
    · exact List.mem_append_left _ hLow
    · rcases List.mem_cons.mp hHigh with hSame | hHigh
      · exact absurd hSame.symm hNe
      · exact List.mem_append_right _ hHigh
  have hIn : gs'.shards.count s ∈
      (low ++ high).map fun gs => gs.shards.count s :=
    List.mem_map.mpr ⟨gs', hOther, rfl⟩
  have hLe := List.le_sum_of_mem hIn
  have hPos := List.count_pos_iff.mpr hShard
  have hPos' := List.count_pos_iff.mpr hShard'
  have hOne := hComplete.copies_eq s
  unfold Balance.copies at hOne
  rw [hSplit] at hOne
  simp only [List.map_append, List.map_cons,
    List.sum_append, List.sum_cons] at hOne hLe
  omega

/- The new shards of a gid are those of its slice. -/
theorem newShards_eq_iff
    (hComplete : b.Complete gids)
    (hStop : b.stop = true)
    {gs : GS}
    (hMem : gs ∈ b.GSs)
    (s : Shard) :
    newShards b.GSs s = gs.gid ↔ s ∈ gs.shards := by
  rcases newShards_spec (hComplete.placed hStop s) with
    ⟨gs', hMem', hShard', hGid'⟩
  rw [hGid']
  constructor
  · intro hGid
    have hSame : gs' = gs :=
      List.inj_on_of_nodup_map hComplete.nodup hMem' hMem
        hGid
    rw [← hSame]
    exact hShard'
  · intro hShard
    rw [hComplete.place_unique hMem hMem' hShard hShard']

theorem countP_newShards
    (hComplete : b.Complete gids)
    (hStop : b.stop = true)
    {gs : GS}
    (hMem : gs ∈ b.GSs) :
    (List.finRange NShards).countP
        (fun s => decide (newShards b.GSs s = gs.gid)) =
      gs.shards.length := by
  have hNodup : gs.shards.Nodup :=
    List.nodup_iff_count_le_one.mpr
      (hComplete.count_le_one hMem)
  have hPerm :
      ((List.finRange NShards).filter
        (fun s => decide (newShards b.GSs s = gs.gid))).Perm
          gs.shards := by
    apply (List.perm_ext_iff_of_nodup
      ((List.nodup_finRange NShards).filter _) hNodup).mpr
    intro s
    rw [List.mem_filter, decide_eq_true_eq,
      hComplete.newShards_eq_iff hStop hMem]
    constructor
    · rintro ⟨_, hShard⟩
      exact hShard
    · intro hShard
      exact ⟨List.mem_finRange s, hShard⟩
  rw [List.countP_eq_length_filter]
  exact hPerm.length_eq

/- Where the loop stops, the slices differ by at most 1. -/
theorem length_le
    (hComplete : b.Complete gids)
    (hStop : b.stop = true)
    {gs gs' : GS}
    (hMem : gs ∈ b.GSs)
    (hMem' : gs' ∈ b.GSs) :
    gs.shards.length ≤ gs'.shards.length + 1 := by
  have hOf := hComplete.toFull.extremes_of
  have hMax := hOf.le_max gs hMem
  have hMin := hOf.min_le gs' hMem'
  unfold Balance.stop at hStop
  rw [Bool.and_eq_true, decide_eq_true_eq] at hStop
  omega

end Balance.Complete

theorem rebalance_balanced
    {oldConfig newConfig config : Config}
    (hRebalance :
      rebalance oldConfig newConfig = some config) :
    config.Balanced := by
  unfold rebalance at hRebalance
  split at hRebalance
  · next hEmpty =>
      cases hRebalance
      intro gid hGid
      rw [hEmpty] at hGid
      cases hGid
  · next hGroups =>
      rcases Option.map_eq_some_iff.mp hRebalance with
        ⟨b, hLoop, hConfig⟩
      rcases (Balance.start_complete oldConfig
        hGroups).loop hLoop with ⟨hComplete, hStop⟩
      subst hConfig
      intro gid hGid gid' hGid'
      rcases List.mem_map.mp
        (hComplete.gids_perm.symm.subset hGid) with
        ⟨gs, hMem, rfl⟩
      rcases List.mem_map.mp
        (hComplete.gids_perm.symm.subset hGid') with
        ⟨gs', hMem', rfl⟩
      unfold Config.shardCount
      dsimp only
      rw [hComplete.countP_newShards hStop hMem,
        hComplete.countP_newShards hStop hMem']
      exact hComplete.length_le hStop hMem hMem'

------------------------------------------------------------
-- Sequences Of Operations
------------------------------------------------------------

/- The operations applied to the initial history, in order. -/
def applyOps (ops : List Op) : Option (List Config) :=
  ops.foldlM applyOp [Config.zero]

def Op.rebalances (op : Op) : Bool :=
  match op.args with
  | .join _ => true
  | .leave _ => true
  | _ => false

theorem applyOps_snoc
    (ops : List Op)
    (op : Op) :
    applyOps (ops ++ [op]) =
      (applyOps ops).bind fun configs =>
        applyOp configs op := by
  unfold applyOps
  rw [List.foldlM_append]
  cases ops.foldlM applyOp [Config.zero] with
  | none => rfl
  | some configs =>
      simp [List.foldlM_cons, List.foldlM_nil]

/- What a Join or a Leave adds. -/
theorem applyOp_rebalanced
    {configs configs' : List Config}
    {op : Op}
    (hOp : op.rebalances = true)
    (hApply : applyOp configs op = some configs') :
    ∃ config,
      configs' = configs ++ [config] ∧
      config.Assigned ∧
      config.Balanced := by
  have hAdd : ∀ {edit : Config → Option Config},
      (∀ oldConfig config, edit oldConfig = some config →
        config.Assigned ∧ config.Balanced) →
      addConfig configs edit = some configs' →
      ∃ config,
        configs' = configs ++ [config] ∧
        config.Assigned ∧
        config.Balanced := by
    intro edit hEdit hAdd
    rcases addConfig_cases hAdd with
      ⟨oldConfig, config, _, hConfig, hSnoc⟩
    exact ⟨config, hSnoc, hEdit oldConfig config hConfig⟩
  have hRebalance : ∀ {oldConfig newConfig config},
      rebalance oldConfig newConfig = some config →
      config.Assigned ∧ config.Balanced := by
    intro oldConfig newConfig config h
    exact ⟨(rebalance_assigned h).2.2, rebalance_balanced h⟩
  unfold applyOp at hApply
  unfold Op.rebalances at hOp
  cases hArgs : op.args with
  | join servers =>
      rw [hArgs] at hApply
      exact hAdd (fun _ _ h => hRebalance h) hApply
  | leave gids =>
      rw [hArgs] at hApply
      exact hAdd (fun _ _ h => hRebalance h) hApply
  | move shard gid =>
      rw [hArgs] at hOp
      cases hOp
  | query num =>
      rw [hArgs] at hOp
      cases hOp

theorem applyOp_extends
    {configs configs' : List Config}
    {op : Op}
    (hApply : applyOp configs op = some configs') :
    configs <+: configs' := by
  rcases applyOp_cases hApply with rfl |
    ⟨oldConfig, config, _, rfl, _⟩
  · exact List.prefix_refl _
  · exact List.prefix_append _ _

/- Every sequence with Moves in range is applied to its end. -/
theorem applyOps_isSome
    {ops : List Op}
    (hRange : ∀ op ∈ ops, op.inRange = true) :
    ∃ configs,
      applyOps ops = some configs ∧ Numbered configs := by
  induction ops using List.reverseRecOn with
  | nil => exact ⟨[Config.zero], rfl, Numbered.start⟩
  | append_singleton ops op ih =>
      rcases ih fun x hX =>
        hRange x (List.mem_append_left _ hX) with
        ⟨configs, hOps, hNumbered⟩
      have hNonempty : configs ≠ [] :=
        List.ne_nil_of_length_pos hNumbered.pos
      rcases applyOp_isSome hNonempty
        (hRange op (by simp)) with ⟨configs', hApply, _⟩
      refine ⟨configs', ?_, hNumbered.applyOp hApply⟩
      rw [applyOps_snoc, hOps]
      exact hApply

/- Later operations keep the history. -/
theorem applyOps_extends
    {before after : List Op}
    {configs configs' : List Config}
    (hBefore : applyOps before = some configs)
    (hAll : applyOps (before ++ after) = some configs') :
    configs <+: configs' := by
  induction after using List.reverseRecOn
      generalizing configs' with
  | nil =>
      rw [List.append_nil, hBefore] at hAll
      cases hAll
      exact List.prefix_refl _
  | append_singleton after op ih =>
      rw [← List.append_assoc, applyOps_snoc] at hAll
      rcases Option.bind_eq_some_iff.mp hAll with
        ⟨middle, hMiddle, hApply⟩
      exact (ih hMiddle).trans (applyOp_extends hApply)

/-
  Every sequence of operations whose Moves are in range is
  applied to its end (rebalance always stops). The history is
  numbered from 0, it only grows, and what a Join or a Leave
  adds gives every shard to a group, evenly.
-/
theorem history_valid_and_balanced
    {ops : List Op}
    (hRange : ∀ op ∈ ops, op.inRange = true) :
    ∃ configs,
      applyOps ops = some configs ∧
      (∀ (i : Nat) (config : Config),
        configs[i]? = some config → config.num = i) ∧
      ∀ before op after,
        ops = before ++ op :: after →
        ∃ old new,
          applyOps before = some old ∧
          applyOps (before ++ [op]) = some new ∧
          old <+: new ∧
          new <+: configs ∧
          (op.rebalances = true →
            ∃ config,
              new = old ++ [config] ∧
              config.Assigned ∧
              config.Balanced) := by
  rcases applyOps_isSome hRange with
    ⟨configs, hOps, hNumbered⟩
  refine ⟨configs, hOps, hNumbered.num, ?_⟩
  rintro before op after rfl
  have hBefore : ∀ x ∈ before, x.inRange = true := by
    intro x hX
    exact hRange x (List.mem_append_left _ hX)
  have hUpTo : ∀ x ∈ before ++ [op], x.inRange = true := by
    intro x hX
    rcases List.mem_append.mp hX with hX | hX
    · exact hBefore x hX
    · rw [List.mem_singleton.mp hX]
      exact hRange op (by simp)
  rcases applyOps_isSome hBefore with ⟨old, hOld, _⟩
  rcases applyOps_isSome hUpTo with ⟨new, hNew, _⟩
  have hApply : applyOp old op = some new := by
    rw [applyOps_snoc, hOld] at hNew
    exact hNew
  have hWhole :
      applyOps (before ++ [op] ++ after) = some configs := by
    rw [List.append_assoc]
    exact hOps
  refine ⟨old, new, hOld, hNew, applyOp_extends hApply,
    applyOps_extends hNew hWhole, ?_⟩
  intro hOp
  exact applyOp_rebalanced hOp hApply

/- A group with one server. -/
def oneServer (gid : Int) (server : String) : Groups :=
  AList.singleton gid [server]

/-
  Two groups join, shard 0 is moved to a gid that never
  joined, and the first group leaves.
-/
def movedAway : List Op :=
  [{ number := 1, reqNum := 1, ckId := 1,
     args := .join (oneServer 1 "a") },
    { number := 2, reqNum := 2, ckId := 1,
      args := .join (oneServer 2 "b") },
    { number := 3, reqNum := 3, ckId := 1,
      args := .move 0 9 },
    { number := 4, reqNum := 4, ckId := 1,
      args := .leave [1] }]

theorem history_valid_and_balanced_moved :
    ∃ configs old config,
      applyOps movedAway = some configs ∧
      (∀ (i : Nat) (config : Config),
        configs[i]? = some config → config.num = i) ∧
      old ++ [config] <+: configs ∧
      config.shardCount 2 = 10 ∧
      config.Assigned ∧
      config.Balanced := by
  have hRange : ∀ op ∈ movedAway, op.inRange = true := by
    decide
  rcases history_valid_and_balanced hRange with
    ⟨configs, hOps, hNum, hHistory⟩
  rcases hHistory (movedAway.take 3) _ [] rfl with
    ⟨old, new, _, hNew, _, hPrefix, hRebalanced⟩
  rcases hRebalanced rfl with
    ⟨config, rfl, hAssigned, hBalanced⟩
  have hCount :
      (applyOps movedAway).bind (fun configs =>
        configs.getLast?.map (fun config =>
          config.shardCount 2)) = some 10 := by
    decide +kernel
  have hLast : applyOps movedAway =
      some (old ++ [config]) := hNew
  rw [hLast, Option.bind_some, List.getLast?_concat] at hCount
  exact ⟨configs, old, config, hOps, hNum, hPrefix,
    Option.some.inj hCount, hAssigned, hBalanced⟩

end Shardctrler

end RaftLab
