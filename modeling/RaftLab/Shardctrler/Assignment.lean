import RaftLab.Shardctrler.Server

/-
  Where rebalance puts the shards.

  Through the whole of rebalance every shard stands in exactly
  one place: among the orphans or with one gid. When the loop
  ends there are no orphans, so every shard belongs to a group
  of the new configuration, unless there are no groups at all.

  Main declarations:
    * `Shardctrler.Balance.copies`
    * `Shardctrler.Balance.Complete`
    * `Shardctrler.rebalance_assigned`
    * `Shardctrler.Config.Assigned`, `Shardctrler.Produced`
    * `Shardctrler.Numbered`
    * `Shardctrler.Produced.assigned`,
      `Shardctrler.deliver_produced`
-/

------------------------------------------------------------
-- Counting A Shard
------------------------------------------------------------

namespace RaftLab

namespace Shardctrler

/- How often a shard stands on the two slices. -/
def Balance.copies (b : Balance) (s : Shard) : Nat :=
  b.orphanShards.count s +
    (b.GSs.map fun gs => gs.shards.count s).sum

/- The slices hold every shard once, for the given gids. -/
structure Balance.Complete
    (gids : List Int)
    (b : Balance) : Prop extends b.Full where
  gids_perm : (b.GSs.map GS.gid).Perm gids
  copies_eq : ∀ s, b.copies s = 1

/- A write of one gid changes the count by the difference. -/
theorem Balance.sum_count_setShards
    {GSs : List GS}
    (hNodup : (GSs.map GS.gid).Nodup)
    {gs : GS}
    (hMem : gs ∈ GSs)
    (shards : List Shard)
    (s : Shard) :
    ((setShards GSs gs.gid shards).map
        fun gs => gs.shards.count s).sum +
      gs.shards.count s =
    (GSs.map fun gs => gs.shards.count s).sum +
      shards.count s :=
  sum_setShards (fun gs => gs.shards.count s) hNodup hMem
    shards

theorem count_dropLast
    {shards : List Shard}
    {last : Shard}
    (hLast : shards.getLast? = some last)
    (s : Shard) :
    shards.dropLast.count s + [last].count s =
      shards.count s := by
  rw [← List.count_append,
    List.dropLast_append_getLast? last hLast]

------------------------------------------------------------
-- One Iteration
------------------------------------------------------------

theorem gid_ne_of_apart
    {GSs : List GS}
    (hNodup : (GSs.map GS.gid).Nodup)
    {low high : GS}
    (hLow : low ∈ GSs)
    (hHigh : high ∈ GSs)
    (hApart : low.shards.length + 2 ≤ high.shards.length) :
    high.gid ≠ low.gid := by
  intro hGid
  have hSame : high = low :=
    List.inj_on_of_nodup_map hNodup hHigh hLow hGid
  rw [hSame] at hApart
  omega

/- What an iteration that does not stop does. -/
theorem Balance.step_cases
    {b b' : Balance}
    (hFull : b.Full)
    (hStop : b.stop = false)
    (hStep : b.step = some b') :
    (∃ gs orphan,
      gs ∈ b.GSs ∧
      (∀ gs' ∈ b.GSs,
        gs.shards.length ≤ gs'.shards.length) ∧
      b.orphanShards.getLast? = some orphan ∧
      b' = {
        GSs := setShards b.GSs gs.gid
          (gs.shards ++ [orphan])
        orphanShards := b.orphanShards.dropLast }) ∨
    (∃ low high movedShard,
      low ∈ b.GSs ∧
      high ∈ b.GSs ∧
      (∀ gs ∈ b.GSs,
        low.shards.length ≤ gs.shards.length ∧
          gs.shards.length ≤ high.shards.length) ∧
      low.shards.length + 2 ≤ high.shards.length ∧
      b.orphanShards = [] ∧
      high.shards.getLast? = some movedShard ∧
      b' = { b with
        GSs := setShards
          (setShards b.GSs low.gid
            (low.shards ++ [movedShard]))
          high.gid high.shards.dropLast }) := by
  rcases hFull.extremes_of.min_mem with
    ⟨low, hLow, hLowGid, hLowLen⟩
  rcases hFull.extremes_of.max_mem with
    ⟨high, hHigh, hHighGid, hHighLen⟩
  unfold Balance.step at hStep
  dsimp only at hStep
  rw [← hLowGid, ← hHighGid, shardsOf_eq hFull.nodup hLow,
    shardsOf_eq hFull.nodup hHigh] at hStep
  cases hLast : b.orphanShards.getLast? with
  | some orphan =>
      rw [hLast] at hStep
      left
      refine ⟨low, orphan, hLow, ?_, rfl,
        (Option.some.inj hStep).symm⟩
      rw [hLowLen]
      exact hFull.extremes_of.min_le
  | none =>
      rw [hLast] at hStep
      dsimp only at hStep
      cases hMoved : high.shards.getLast? with
      | none =>
          rw [hMoved] at hStep
          cases hStep
      | some movedShard =>
          rw [hMoved] at hStep
          right
          have hNone := List.getLast?_eq_none_iff.mp hLast
          refine ⟨low, high, movedShard, hLow, hHigh, ?_, ?_,
            hNone, hMoved, (Option.some.inj hStep).symm⟩
          · intro gs hMem
            rw [hLowLen, hHighLen]
            exact ⟨hFull.extremes_of.min_le gs hMem,
              hFull.extremes_of.le_max gs hMem⟩
          · -- Without orphans the loop only goes on when the
            -- two counts are more than one apart.
            have hEmpty : b.orphanShards.isEmpty = true := by
              rw [hNone]
              rfl
            unfold Balance.stop at hStop
            rw [hEmpty, Bool.and_true,
              decide_eq_false_iff_not] at hStop
            omega

/- An iteration moves shards around and keeps each once. -/
theorem Balance.Complete.step
    {gids : List Int}
    {b b' : Balance}
    (hComplete : b.Complete gids)
    (hStop : b.stop = false)
    (hStep : b.step = some b') :
    b'.Complete gids := by
  have hFull := hComplete.toFull
  have hFull' : b'.Full := by
    rcases Balance.step_spread hFull hStop with
      ⟨next, hNext, hNextFull, _⟩
    rw [hStep] at hNext
    cases hNext
    exact hNextFull
  rcases Balance.step_cases hFull hStop hStep with
    ⟨gs, orphan, hMem, _, hLast, rfl⟩ |
    ⟨low, high, movedShard, hLow, hHigh, _, hApart, _, hMoved,
      rfl⟩
  · refine ⟨hFull', ?_, ?_⟩
    · dsimp only
      rw [setShards_gids]
      exact hComplete.gids_perm
    · intro s
      have hSum := sum_count_setShards hFull.nodup hMem
        (gs.shards ++ [orphan]) s
      have hDrop := count_dropLast hLast s
      have hOne := hComplete.copies_eq s
      rw [List.count_append] at hSum
      unfold Balance.copies at hOne ⊢
      dsimp only
      omega
  · refine ⟨hFull', ?_, ?_⟩
    · dsimp only
      rw [setShards_gids, setShards_gids]
      exact hComplete.gids_perm
    · intro s
      have hNe := gid_ne_of_apart hFull.nodup hLow hHigh
        hApart
      have hGiven := sum_count_setShards hFull.nodup hLow
        (low.shards ++ [movedShard]) s
      have hGivenNodup :
          ((setShards b.GSs low.gid
            (low.shards ++ [movedShard])).map
              GS.gid).Nodup := by
        rw [setShards_gids]
        exact hFull.nodup
      have hTaken := sum_count_setShards hGivenNodup
        (mem_setShards_of_ne hHigh hNe _)
        high.shards.dropLast s
      have hDrop := count_dropLast hMoved s
      have hOne := hComplete.copies_eq s
      rw [List.count_append] at hGiven
      unfold Balance.copies at hOne ⊢
      dsimp only
      omega

/- The loop ends with every shard once and no orphans. -/
theorem Balance.Complete.loop
    {gids : List Int}
    {fuel : Nat}
    {b b' : Balance}
    (hComplete : b.Complete gids)
    (hLoop : b.loop fuel = some b') :
    b'.Complete gids ∧ b'.stop = true := by
  induction fuel generalizing b with
  | zero => cases hLoop
  | succ fuel ih =>
      unfold Balance.loop at hLoop
      cases hStop : b.stop with
      | true =>
          rw [hStop] at hLoop
          cases hLoop
          exact ⟨hComplete, hStop⟩
      | false =>
          rw [hStop] at hLoop
          rcases Option.bind_eq_some_iff.mp hLoop with
            ⟨next, hStep, hRest⟩
          exact ih (hComplete.step hStop hStep) hRest

------------------------------------------------------------
-- Before The Loop
------------------------------------------------------------

theorem Balance.addOld_copies
    (oldConfig : Config)
    {b : Balance}
    (hNodup : (b.GSs.map GS.gid).Nodup)
    (shardNum s : Shard) :
    (b.addOld oldConfig shardNum).copies s =
      b.copies s + [shardNum].count s := by
  unfold Balance.addOld
  dsimp only
  split
  · unfold Balance.copies
    dsimp only
    rw [List.count_append]
    omega
  · next hKept =>
      rw [not_or, not_not] at hKept
      rcases List.mem_map.mp hKept.2 with ⟨gs, hMem, hGid⟩
      have hSum := sum_count_setShards hNodup hMem
        (gs.shards ++ [shardNum]) s
      rw [List.count_append] at hSum
      rw [← hGid, shardsOf_eq hNodup hMem]
      unfold Balance.copies
      dsimp only
      omega

theorem Balance.foldl_addOld_copies
    (oldConfig : Config)
    (shards : List Shard)
    {b : Balance}
    (hNodup : (b.GSs.map GS.gid).Nodup)
    (s : Shard) :
    (shards.foldl (Balance.addOld oldConfig) b).copies s =
      b.copies s + shards.count s := by
  induction shards generalizing b with
  | nil => rfl
  | cons shard shards ih =>
      rcases Balance.addOld_total oldConfig hNodup shard with
        ⟨hGids, _⟩
      have hNodup' :
          ((b.addOld oldConfig shard).GSs.map
            GS.gid).Nodup := by
        rw [hGids]
        exact hNodup
      have hFirst := Balance.addOld_copies oldConfig hNodup
        shard s
      have hCons :
          (shard :: shards).count s =
            [shard].count s + shards.count s := by
        rw [← List.count_append]
        rfl
      rw [List.foldl_cons, ih hNodup', hFirst, hCons]
      omega

/- A shard of the old configuration that a gid keeps. -/
def keeps
    (oldConfig : Config)
    (gid : Int)
    (shard : Shard) : Bool :=
  decide (gid ≠ 0 ∧ oldConfig.shards shard = gid)

/- A shard that no gid of the list keeps. -/
def orphaned
    (oldConfig : Config)
    (gids : List Int)
    (shard : Shard) : Bool :=
  decide (oldConfig.shards shard = 0 ∨
    oldConfig.shards shard ∉ gids)

theorem Balance.addOld_eq
    (oldConfig : Config)
    {b : Balance}
    (hNodup : (b.GSs.map GS.gid).Nodup)
    (shard : Shard) :
    b.addOld oldConfig shard = {
      GSs := b.GSs.map fun gs => { gs with
        shards := gs.shards ++
          [shard].filter (keeps oldConfig gs.gid) }
      orphanShards := b.orphanShards ++
        [shard].filter
          (orphaned oldConfig (b.GSs.map GS.gid)) } := by
  unfold Balance.addOld
  dsimp only
  split
  · next hOrphan =>
      have hKept : ∀ gs ∈ b.GSs,
          keeps oldConfig gs.gid shard = false := by
        intro gs hMem
        rw [keeps, decide_eq_false_iff_not]
        rintro ⟨hNonzero, hGid⟩
        rw [hGid] at hOrphan
        exact hOrphan.elim hNonzero
          fun hGone => hGone (List.mem_map_of_mem hMem)
      have hSame : (b.GSs.map fun gs => { gs with
          shards := gs.shards ++
            [shard].filter (keeps oldConfig gs.gid) }) =
          b.GSs := by
        conv_rhs => rw [← List.map_id b.GSs]
        apply List.map_congr_left
        intro gs hMem
        simp [hKept gs hMem]
      have hHere :
          orphaned oldConfig (b.GSs.map GS.gid) shard =
            true :=
        decide_eq_true hOrphan
      rw [hSame, List.filter_cons_of_pos hHere,
        List.filter_nil]
  · next hKept =>
      have hNot :
          ¬ orphaned oldConfig (b.GSs.map GS.gid) shard =
            true := by
        rw [orphaned, decide_eq_true_eq]
        exact hKept
      rw [not_or, not_not] at hKept
      rw [List.filter_cons_of_neg hNot, List.filter_nil,
        List.append_nil]
      congr 1
      apply List.map_congr_left
      intro gs hMem
      by_cases hGid : gs.gid = oldConfig.shards shard
      · have hNonzero : gs.gid ≠ 0 := by
          rw [hGid]
          exact hKept.1
        have hShards := shardsOf_eq hNodup hMem
        rw [hGid] at hShards
        rw [if_pos hGid, hShards]
        simp [keeps, hNonzero, hGid.symm]
      · rw [if_neg hGid]
        simp [keeps, Ne.symm hGid]

/- What all shards of a list are put to. -/
theorem Balance.foldl_addOld_eq
    (oldConfig : Config)
    (shards : List Shard)
    {b : Balance}
    (hNodup : (b.GSs.map GS.gid).Nodup) :
    shards.foldl (Balance.addOld oldConfig) b = {
      GSs := b.GSs.map fun gs => { gs with
        shards := gs.shards ++
          shards.filter (keeps oldConfig gs.gid) }
      orphanShards := b.orphanShards ++
        shards.filter
          (orphaned oldConfig (b.GSs.map GS.gid)) } := by
  induction shards generalizing b with
  | nil => simp
  | cons shard shards ih =>
      have hGids :
          (b.addOld oldConfig shard).GSs.map GS.gid =
            b.GSs.map GS.gid :=
        (Balance.addOld_total oldConfig hNodup shard).1
      have hNodup' :
          ((b.addOld oldConfig shard).GSs.map
            GS.gid).Nodup := by
        rw [hGids]
        exact hNodup
      have hCons : ∀ p : Shard → Bool,
          (shard :: shards).filter p =
            [shard].filter p ++ shards.filter p := by
        intro p
        rw [← List.filter_append]
        rfl
      rw [List.foldl_cons, ih hNodup', hGids,
        Balance.addOld_eq oldConfig hNodup]
      simp only [hCons, List.map_map, Function.comp_def,
        List.append_assoc]

/- The slices before they are sorted, gids in some order. -/
def Balance.fill
    (oldConfig : Config)
    (gids : List Int) : Balance :=
  (List.finRange NShards).foldl (Balance.addOld oldConfig) {
    GSs := gids.map fun gid => {
      gid := gid
      shards := [] }
    orphanShards := [] }

theorem Balance.fill_eq
    (oldConfig : Config)
    {gids : List Int}
    (hNodup : gids.Nodup) :
    Balance.fill oldConfig gids = {
      GSs := gids.map fun gid => {
        gid := gid
        shards := (List.finRange NShards).filter
          (keeps oldConfig gid) }
      orphanShards := (List.finRange NShards).filter
        (orphaned oldConfig gids) } := by
  have hGids : (gids.map fun gid => ({
      gid := gid
      shards := [] } : GS)).map GS.gid = gids := by
    simp [Function.comp_def]
  unfold Balance.fill
  rw [Balance.foldl_addOld_eq]
  · dsimp only
    rw [hGids, List.map_map]
    rfl
  · dsimp only
    rw [hGids]
    exact hNodup

theorem Balance.start_eq
    (oldConfig newConfig : Config) :
    Balance.start oldConfig newConfig =
      { Balance.fill oldConfig newConfig.groups.keys with
        GSs := (Balance.fill oldConfig
          newConfig.groups.keys).GSs.insertionSort
            fun x y => x.gid ≤ y.gid } :=
  rfl

theorem Balance.start_complete
    {newConfig : Config}
    (oldConfig : Config)
    (hGroups : newConfig.groups.keys ≠ []) :
    (Balance.start oldConfig newConfig).Complete
      newConfig.groups.keys := by
  let empty : Balance := {
    GSs := newConfig.groups.keys.map fun gid => {
      gid := gid
      shards := [] }
    orphanShards := [] }
  let filled := (List.finRange NShards).foldl
    (Balance.addOld oldConfig) empty
  have hGids :
      empty.GSs.map GS.gid = newConfig.groups.keys := by
    simp [empty, Function.comp_def]
  have hNodup : (empty.GSs.map GS.gid).Nodup := by
    rw [hGids]
    exact newConfig.groups.keys_nodup
  have hSorted :
      ((Balance.start oldConfig newConfig).GSs).Perm
        filled.GSs :=
    List.perm_insertionSort _ _
  refine ⟨Balance.start_full oldConfig hGroups, ?_, ?_⟩
  · have hFilled := (Balance.foldl_addOld_total oldConfig
      (List.finRange NShards) hNodup).1
    have hPerm := hSorted.map GS.gid
    rw [hFilled, hGids] at hPerm
    exact hPerm
  · intro s
    have hEmpty : empty.copies s = 0 := by
      simp [empty, Balance.copies, Function.comp_def]
    have hFilled := Balance.foldl_addOld_copies oldConfig
      (List.finRange NShards) hNodup s
    have hOnce : (List.finRange NShards).count s = 1 :=
      List.count_eq_one_of_mem (List.nodup_finRange _)
        (List.mem_finRange s)
    have hSum := (hSorted.map
      fun gs => gs.shards.count s).sum_eq
    rw [hEmpty, hOnce] at hFilled
    unfold Balance.copies at hFilled ⊢
    rw [hSum]
    exact hFilled

------------------------------------------------------------
-- The New Shards
------------------------------------------------------------

theorem newShards_snoc
    (GSs : List GS)
    (gs : GS)
    (s : Shard) :
    newShards (GSs ++ [gs]) s =
      if s ∈ gs.shards then gs.gid
      else newShards GSs s := by
  have hInner : ∀ (shards : List Shard) (f : Shard → Int),
      shards.foldl
          (fun f shard => Function.update f shard gs.gid)
          f s =
        if s ∈ shards then gs.gid else f s := by
    intro shards
    induction shards with
    | nil =>
        intro f
        simp
    | cons shard shards ih =>
        intro f
        rw [List.foldl_cons, ih]
        by_cases hEq : s = shard
        · subst hEq
          simp
        · simp [hEq]
  unfold newShards
  rw [List.foldl_append]
  exact hInner gs.shards _

/- A shard on the slice gets the gid of one of its places. -/
theorem newShards_spec
    {GSs : List GS}
    {s : Shard}
    (hPlaced : ∃ gs ∈ GSs, s ∈ gs.shards) :
    ∃ gs ∈ GSs, s ∈ gs.shards ∧
      newShards GSs s = gs.gid := by
  induction GSs using List.reverseRecOn with
  | nil =>
      rcases hPlaced with ⟨gs, hMem, _⟩
      cases hMem
  | append_singleton GSs gs ih =>
      rw [newShards_snoc]
      by_cases hHere : s ∈ gs.shards
      · rw [if_pos hHere]
        exact ⟨gs, List.mem_append_right _ List.mem_cons_self,
          hHere, rfl⟩
      · rw [if_neg hHere]
        have hBefore : ∃ gs' ∈ GSs, s ∈ gs'.shards := by
          rcases hPlaced with ⟨gs', hMem, hShard⟩
          rcases List.mem_append.mp hMem with hMem | hMem
          · exact ⟨gs', hMem, hShard⟩
          · rw [List.mem_singleton.mp hMem] at hShard
            exact absurd hShard hHere
        rcases ih hBefore with ⟨gs', hMem, hShard, hGid⟩
        exact ⟨gs', List.mem_append_left _ hMem, hShard, hGid⟩

/- Without orphans every shard is with some gid. -/
theorem Balance.Complete.placed
    {gids : List Int}
    {b : Balance}
    (hComplete : b.Complete gids)
    (hStop : b.stop = true)
    (s : Shard) :
    ∃ gs ∈ b.GSs, s ∈ gs.shards := by
  have hNone : b.orphanShards = [] := by
    unfold Balance.stop at hStop
    rw [Bool.and_eq_true] at hStop
    exact List.isEmpty_iff.mp hStop.2
  have hOne := hComplete.copies_eq s
  unfold Balance.copies at hOne
  rw [hNone, List.count_nil, Nat.zero_add] at hOne
  by_contra hNot
  push Not at hNot
  have hZero :
      (b.GSs.map fun gs => gs.shards.count s).sum = 0 := by
    apply List.sum_eq_zero
    intro n hMem
    rcases List.mem_map.mp hMem with ⟨gs, hGs, rfl⟩
    exact List.count_eq_zero.mpr (hNot gs hGs)
  omega

------------------------------------------------------------
-- Assigned Configurations
------------------------------------------------------------

/-
  Every shard belongs to a group, or there are no groups and
  all shards are unassigned.
-/
def Config.Assigned (config : Config) : Prop :=
  (∀ s, config.shards s ∈ config.groups.keys) ∨
    (config.groups.keys = [] ∧ ∀ s, config.shards s = 0)

theorem rebalance_assigned
    {oldConfig newConfig config : Config}
    (hRebalance :
      rebalance oldConfig newConfig = some config) :
    config.num = newConfig.num ∧
      config.groups = newConfig.groups ∧
      config.Assigned := by
  unfold rebalance at hRebalance
  split at hRebalance
  · next hEmpty =>
      cases hRebalance
      exact ⟨rfl, rfl, Or.inr ⟨hEmpty, fun _ => rfl⟩⟩
  · next hGroups =>
      rcases Option.map_eq_some_iff.mp hRebalance with
        ⟨b, hLoop, hConfig⟩
      rcases (Balance.start_complete oldConfig
        hGroups).loop hLoop with ⟨hComplete, hStop⟩
      subst hConfig
      refine ⟨rfl, rfl, Or.inl ?_⟩
      intro s
      apply hComplete.gids_perm.subset
      rcases newShards_spec (hComplete.placed hStop s) with
        ⟨gs, hMem, _, hGid⟩
      dsimp only
      rw [hGid]
      exact List.mem_map_of_mem hMem

/- A Move to a group of the last configuration. -/
def movesToGroup (configs : List Config) (op : Op) : Prop :=
  match op.args with
  | .move _ gid =>
      ∀ config,
        configs.getLast? = some config →
        gid ∈ config.groups.keys
  | _ => True

/-
  The histories that Joins, Leaves and Moves to existing
  groups produce.
-/
inductive Produced : List Config → Prop
  | zero : Produced [Config.zero]
  | apply
      {configs configs' : List Config}
      {op : Op}
      (hBefore : Produced configs)
      (hMove : movesToGroup configs op)
      (hApply : applyOp configs op = some configs') :
      Produced configs'

/- A configuration that is added was edited from the last. -/
theorem addConfig_cases
    {configs configs' : List Config}
    {edit : Config → Option Config}
    (hAdd : addConfig configs edit = some configs') :
    ∃ oldConfig config,
      configs.getLast? = some oldConfig ∧
      edit oldConfig = some config ∧
      configs' = configs ++ [config] := by
  unfold addConfig at hAdd
  rcases Option.bind_eq_some_iff.mp hAdd with
    ⟨oldConfig, hLast, hEdit⟩
  rcases Option.map_eq_some_iff.mp hEdit with
    ⟨config, hConfig, hSnoc⟩
  exact ⟨oldConfig, config, hLast, hConfig, hSnoc.symm⟩

/- What an operation adds to the history. -/
theorem applyOp_cases
    {configs configs' : List Config}
    {op : Op}
    (hApply : applyOp configs op = some configs') :
    configs' = configs ∨
      ∃ oldConfig config,
        configs.getLast? = some oldConfig ∧
        configs' = configs ++ [config] ∧
        config.num = oldConfig.num + 1 ∧
        (config.Assigned ∨
          ∃ s gid,
            op.args = .move s gid ∧
            moveShard oldConfig.next s gid =
              some config) := by
  unfold applyOp at hApply
  cases hArgs : op.args with
  | query num =>
      rw [hArgs] at hApply
      left
      exact (Option.some.inj hApply).symm
  | join servers =>
      rw [hArgs] at hApply
      rcases addConfig_cases hApply with
        ⟨oldConfig, config, hLast, hEdit, hSnoc⟩
      rcases rebalance_assigned hEdit with
        ⟨hNum, _, hAssigned⟩
      right
      exact ⟨oldConfig, config, hLast, hSnoc, hNum,
        Or.inl hAssigned⟩
  | leave gids =>
      rw [hArgs] at hApply
      rcases addConfig_cases hApply with
        ⟨oldConfig, config, hLast, hEdit, hSnoc⟩
      rcases rebalance_assigned hEdit with
        ⟨hNum, _, hAssigned⟩
      right
      exact ⟨oldConfig, config, hLast, hSnoc, hNum,
        Or.inl hAssigned⟩
  | move s gid =>
      rw [hArgs] at hApply
      rcases addConfig_cases hApply with
        ⟨oldConfig, config, hLast, hEdit, hSnoc⟩
      right
      refine ⟨oldConfig, config, hLast, hSnoc, ?_,
        Or.inr ⟨s, gid, rfl, hEdit⟩⟩
      unfold moveShard at hEdit
      split at hEdit
      · cases hEdit
        rfl
      · cases hEdit

/- A Move to an existing group keeps a shard with a group. -/
theorem moveShard_assigned
    {oldConfig config : Config}
    (hAssigned : oldConfig.Assigned)
    {s gid : Int}
    (hGid : gid ∈ oldConfig.groups.keys)
    (hMove : moveShard oldConfig.next s gid = some config) :
    config.Assigned := by
  unfold moveShard at hMove
  split at hMove
  · cases hMove
    rcases hAssigned with hAll | ⟨hEmpty, _⟩
    · left
      intro s'
      dsimp only
      by_cases hEq : s' = ⟨s.toNat, by omega⟩
      · rw [hEq, Function.update_self]
        exact hGid
      · rw [Function.update_of_ne hEq]
        exact hAll s'
    · rw [hEmpty] at hGid
      cases hGid
  · cases hMove

/- Every configuration of a produced history is assigned. -/
theorem Produced.assigned
    {configs : List Config}
    (hProduced : Produced configs) :
    ∀ config ∈ configs, config.Assigned := by
  induction hProduced with
  | zero =>
      intro config hMem
      rw [List.mem_singleton.mp hMem]
      exact Or.inr ⟨rfl, fun _ => rfl⟩
  | @apply configs configs' op hBefore hMove hApply ih =>
      rcases applyOp_cases hApply with rfl |
        ⟨oldConfig, new, hLast, rfl, _, hNew⟩
      · exact ih
      · intro config hMem
        rcases List.mem_append.mp hMem with hMem | hMem
        · exact ih config hMem
        · rw [List.mem_singleton.mp hMem]
          rcases hNew with hAssigned | ⟨s, gid, hArgs, hNew⟩
          · exact hAssigned
          · unfold movesToGroup at hMove
            rw [hArgs] at hMove
            exact moveShard_assigned
              (ih oldConfig (List.mem_of_getLast? hLast))
              (hMove oldConfig hLast) hNew

/- A controller whose log moves shards to existing groups. -/
theorem deliver_produced
    (full : Int → Bool)
    {log : List Op}
    (hMoves : ∀ n op sc,
      log[n]? = some op →
      ShardCtrler.deliver full (log.take n) = some sc →
      movesToGroup sc.configs op)
    {sc : ShardCtrler}
    (hRun : ShardCtrler.deliver full log = some sc) :
    Produced sc.configs := by
  induction log using List.reverseRecOn generalizing sc with
  | nil =>
      cases hRun
      exact Produced.zero
  | append_singleton log op ih =>
      rw [deliver_snoc] at hRun
      rcases Option.bind_eq_some_iff.mp hRun with
        ⟨before, hBefore, hNext⟩
      have hProduced : Produced before.configs := by
        refine ih ?_ hBefore
        intro n op' sc' hAt hTake
        have hLt : n < log.length :=
          (List.getElem?_eq_some_iff.mp hAt).1
        apply hMoves n op' sc'
        · rw [List.getElem?_append_left hLt]
          exact hAt
        · rw [List.take_append_of_le_length
            (Nat.le_of_lt hLt)]
          exact hTake
      have hMove : movesToGroup before.configs op := by
        apply hMoves log.length op before
        · exact List.getElem?_concat_length
        · rw [List.take_left]
          exact hBefore
      rw [ShardCtrler.deliverOp_eq] at hNext
      rcases Option.map_eq_some_iff.mp hNext with
        ⟨configs, hApply, rfl⟩
      split at hApply
      · cases hApply
        exact hProduced
      · exact hProduced.apply hMove hApply

------------------------------------------------------------
-- Numbered Histories
------------------------------------------------------------

/- configs[k].Num = k, from the initial configuration on. -/
structure Numbered (configs : List Config) : Prop where
  zero : configs[0]? = some Config.zero
  num : ∀ (k : Nat) (config : Config),
    configs[k]? = some config → config.num = k

theorem Numbered.start : Numbered [Config.zero] where
  zero := rfl
  num k config hAt := by
    cases k with
    | zero =>
        cases hAt
        rfl
    | succ k => cases hAt

theorem Numbered.pos
    {configs : List Config}
    (hNumbered : Numbered configs) :
    0 < configs.length :=
  (List.getElem?_eq_some_iff.mp hNumbered.zero).1

theorem Numbered.applyOp
    {configs configs' : List Config}
    (hNumbered : Numbered configs)
    {op : Op}
    (hApply : applyOp configs op = some configs') :
    Numbered configs' := by
  have hPos := hNumbered.pos
  rcases applyOp_cases hApply with rfl |
    ⟨oldConfig, config, hLast, rfl, hNum, _⟩
  · exact hNumbered
  · rw [List.getLast?_eq_getElem?] at hLast
    have hOld := hNumbered.num _ _ hLast
    constructor
    · rw [List.getElem?_append_left hPos]
      exact hNumbered.zero
    · intro k new hAt
      rcases Nat.lt_or_ge k configs.length with hLt | hGe
      · rw [List.getElem?_append_left hLt] at hAt
        exact hNumbered.num k new hAt
      · rw [List.getElem?_append_right hGe] at hAt
        have hLt := (List.getElem?_eq_some_iff.mp hAt).1
        rw [List.length_singleton] at hLt
        have hK : k = configs.length := by omega
        subst hK
        rw [Nat.sub_self] at hAt
        cases hAt
        omega

/- Query(-1) answers a configuration of the history. -/
theorem mem_of_query_latest
    {configs : List Config}
    {config : Config}
    (hQuery : query configs (-1) = some config) :
    config ∈ configs := by
  unfold query at hQuery
  rw [if_pos (Or.inl rfl)] at hQuery
  exact List.mem_of_getLast? hQuery

/- Query(k) answers configuration k if it exists. -/
theorem query_eq
    {configs : List Config}
    {num : Int}
    (hNonneg : 0 ≤ num)
    (hLt : num < configs.length) :
    query configs num = configs[num.toNat]? := by
  unfold query
  rw [if_neg (by omega), if_neg (by omega)]

end Shardctrler

end RaftLab
