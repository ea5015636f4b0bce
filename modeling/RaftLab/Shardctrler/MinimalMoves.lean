import RaftLab.Lib.EvenShares
import RaftLab.Shardctrler.Balanced

/-
  rebalance moves as few shards as possible.

  The loop gives orphans to a smallest gid and then moves
  shards from a largest to a smallest one. Both kinds of
  iteration are fair to the shards that the gids had, and the
  slice of a gid is always cut off from its old shards or
  grown behind them. So no balanced assignment to the same
  gids leaves more shards where they were.

  Main declarations:
    * `Shardctrler.oldShards`
    * `Shardctrler.Balance.Frugal`,
      `Shardctrler.Balance.Frugal.loop`
    * `Shardctrler.movedShards`
    * `Shardctrler.rebalance_moves_least`
-/

------------------------------------------------------------
-- The Slice Of A Gid
------------------------------------------------------------

namespace RaftLab

namespace Shardctrler

theorem shardsOf_setShards
    {GSs : List GS}
    {gs : GS}
    (hMem : gs ∈ GSs)
    (shards : List Shard)
    (gid : Int) :
    shardsOf (setShards GSs gs.gid shards) gid =
      if gid = gs.gid then shards else shardsOf GSs gid := by
  unfold shardsOf setShards
  rw [List.find?_map]
  have hSame :
      ((fun x : GS => decide (x.gid = gid)) ∘ fun x : GS =>
        if x.gid = gs.gid then { x with shards := shards }
        else x) = fun x => decide (x.gid = gid) := by
    funext x
    simp only [Function.comp]
    split <;> rfl
  rw [hSame]
  cases hFind : GSs.find? fun x => decide (x.gid = gid) with
  | none =>
      have hNe := List.find?_eq_none.mp hFind gs hMem
      rw [decide_eq_true_eq] at hNe
      rw [if_neg (Ne.symm hNe)]
      rfl
  | some found =>
      have hGid := List.find?_some hFind
      rw [decide_eq_true_eq] at hGid
      rw [Option.map_some, ← hGid]
      by_cases hHere : found.gid = gs.gid
      · rw [if_pos hHere, if_pos hHere]
      · rw [if_neg hHere, if_neg hHere]

/- The shards that a gid has in the old configuration. -/
def oldShards (oldConfig : Config) (gid : Int) :
    List Shard :=
  (List.finRange NShards).filter (keeps oldConfig gid)

/- A slice cut off from the old shards or grown on them. -/
def CutOrGrown (shards old : List Shard) : Prop :=
  shards <+: old ∨ old <+: shards

namespace CutOrGrown

variable {shards old : List Shard}

/- A slice that is long enough has all old shards. -/
theorem append
    (hShards : CutOrGrown shards old)
    (hLong : old.length ≤ shards.length)
    (shard : Shard) :
    CutOrGrown (shards ++ [shard]) old := by
  have hOld : old <+: shards := by
    rcases hShards with hCut | hGrown
    · rw [hCut.eq_of_length_le hLong]
    · exact hGrown
  exact Or.inr (hOld.trans (List.prefix_append _ _))

/- One that is not longer has nothing else. -/
theorem dropLast
    (hShards : CutOrGrown shards old)
    (hShort : shards.length ≤ old.length) :
    CutOrGrown shards.dropLast old := by
  have hCut : shards <+: old := by
    rcases hShards with hCut | hGrown
    · exact hCut
    · rw [hGrown.eq_of_length_le hShort]
  exact Or.inl ((List.dropLast_prefix shards).trans hCut)

end CutOrGrown

------------------------------------------------------------
-- The Loop
------------------------------------------------------------

/-
  What the gids have was fairly taken over from what they had,
  and nothing was taken away while there are orphans.
-/
structure Balance.Frugal
    (oldConfig : Config)
    (gids : List Int)
    (b : Balance) : Prop where
  fair : Fair gids.toFinset
    (fun gid => (oldShards oldConfig gid).length)
    fun gid => (shardsOf b.GSs gid).length
  filling : b.orphanShards ≠ [] → ∀ gid ∈ gids,
    (oldShards oldConfig gid).length ≤
      (shardsOf b.GSs gid).length
  slices : ∀ gid ∈ gids,
    CutOrGrown (shardsOf b.GSs gid) (oldShards oldConfig gid)

namespace Balance

variable {oldConfig : Config} {gids : List Int}
variable {b b' : Balance}

/- The slices of the gids are those on GSs. -/
theorem Complete.exists_slice
    (hComplete : b.Complete gids)
    {gid : Int}
    (hGid : gid ∈ gids) :
    ∃ gs ∈ b.GSs,
      gs.gid = gid ∧ shardsOf b.GSs gid = gs.shards := by
  rcases List.mem_map.mp
    (hComplete.gids_perm.symm.subset hGid) with
    ⟨gs, hMem, rfl⟩
  exact ⟨gs, hMem, rfl, shardsOf_eq hComplete.nodup hMem⟩

theorem Complete.gid_mem
    (hComplete : b.Complete gids)
    {gs : GS}
    (hMem : gs ∈ b.GSs) :
    gs.gid ∈ gids :=
  hComplete.gids_perm.subset (List.mem_map_of_mem hMem)

/- The last orphan goes to a smallest gid. -/
theorem Frugal.give
    (hFrugal : b.Frugal oldConfig gids)
    (hComplete : b.Complete gids)
    {gs : GS}
    {orphan : Shard}
    (hMem : gs ∈ b.GSs)
    (hMin : ∀ gs' ∈ b.GSs,
      gs.shards.length ≤ gs'.shards.length)
    (hLast : b.orphanShards.getLast? = some orphan) :
    Balance.Frugal oldConfig gids {
      GSs := setShards b.GSs gs.gid (gs.shards ++ [orphan])
      orphanShards := b.orphanShards.dropLast } := by
  have hOrphans : b.orphanShards ≠ [] := by
    intro hNone
    rw [hNone] at hLast
    cases hLast
  have hKept := hFrugal.filling hOrphans
  have hHere := shardsOf_eq hComplete.nodup hMem
  have hSet := shardsOf_setShards hMem
    (gs.shards ++ [orphan])
  refine ⟨?_, ?_, ?_⟩
  · refine hFrugal.fair.give gs.gid ?_ ?_ ?_ ?_
    · intro gid hGid
      rcases hComplete.exists_slice
        (List.mem_toFinset.mp hGid) with
        ⟨gs', hMem', _, hSlice⟩
      rw [hHere, hSlice]
      exact hMin gs' hMem'
    · intro gid hGid
      exact hKept gid (List.mem_toFinset.mp hGid)
    · dsimp only
      rw [hSet, if_pos rfl, hHere, List.length_append]
      rfl
    · intro gid hNe
      dsimp only
      rw [hSet, if_neg hNe]
  · intro _ gid hGid
    have hBefore := hKept gid hGid
    dsimp only
    rw [hSet]
    split
    · next hSame =>
        rw [hSame] at hBefore ⊢
        rw [hHere] at hBefore
        rw [List.length_append]
        omega
    · exact hBefore
  · intro gid hGid
    dsimp only
    rw [hSet]
    split
    · next hSame =>
        subst hSame
        have hBefore := hFrugal.slices gs.gid hGid
        have hLong := hKept gs.gid hGid
        rw [hHere] at hBefore hLong
        exact hBefore.append hLong orphan
    · exact hFrugal.slices gid hGid

/- A shard goes from a largest to a smallest gid. -/
theorem Frugal.move
    (hFrugal : b.Frugal oldConfig gids)
    (hComplete : b.Complete gids)
    {low high : GS}
    (hLow : low ∈ b.GSs)
    (hHigh : high ∈ b.GSs)
    (hExtreme : ∀ gs ∈ b.GSs,
      low.shards.length ≤ gs.shards.length ∧
        gs.shards.length ≤ high.shards.length)
    (hApart : low.shards.length + 2 ≤ high.shards.length)
    (hNone : b.orphanShards = [])
    (movedShard : Shard) :
    Balance.Frugal oldConfig gids { b with
      GSs := setShards
        (setShards b.GSs low.gid
          (low.shards ++ [movedShard]))
        high.gid high.shards.dropLast } := by
  have hNe := gid_ne_of_apart hComplete.nodup hLow hHigh
    hApart
  have hLowHere := shardsOf_eq hComplete.nodup hLow
  have hHighHere := shardsOf_eq hComplete.nodup hHigh
  have hLowGid := hComplete.gid_mem hLow
  have hHighGid := hComplete.gid_mem hHigh
  have hSet : ∀ gid,
      shardsOf (setShards
        (setShards b.GSs low.gid
          (low.shards ++ [movedShard]))
        high.gid high.shards.dropLast) gid =
      if gid = high.gid then high.shards.dropLast
      else if gid = low.gid then low.shards ++ [movedShard]
      else shardsOf b.GSs gid := by
    intro gid
    rw [shardsOf_setShards
      (mem_setShards_of_ne hHigh hNe _),
      shardsOf_setShards hLow]
  have hExtreme' : ∀ gid ∈ gids,
      low.shards.length ≤ (shardsOf b.GSs gid).length ∧
        (shardsOf b.GSs gid).length ≤
          high.shards.length := by
    intro gid hGid
    rcases hComplete.exists_slice hGid with
      ⟨gs, hMem, _, hSlice⟩
    rw [hSlice]
    exact hExtreme gs hMem
  refine ⟨?_, ?_, ?_⟩
  · refine hFrugal.fair.move low.gid high.gid
      (List.mem_toFinset.mpr hLowGid)
      (List.mem_toFinset.mpr hHighGid) ?_ ?_ ?_ ?_ ?_ ?_
    · intro gid hGid
      rw [hLowHere]
      exact (hExtreme' gid (List.mem_toFinset.mp hGid)).1
    · intro gid hGid
      rw [hHighHere]
      exact (hExtreme' gid (List.mem_toFinset.mp hGid)).2
    · rw [hLowHere, hHighHere]
      exact hApart
    · dsimp only
      rw [hSet, if_neg (Ne.symm hNe), if_pos rfl, hLowHere,
        List.length_append]
      rfl
    · dsimp only
      rw [hSet, if_pos rfl, hHighHere, List.length_dropLast]
      omega
    · intro gid hNotLow hNotHigh
      dsimp only
      rw [hSet, if_neg hNotHigh, if_neg hNotLow]
  · intro hOrphans
    exact absurd hNone hOrphans
  · intro gid hGid
    dsimp only
    rw [hSet]
    split
    · next hSame =>
        subst hSame
        have hBefore := hFrugal.slices high.gid hGid
        rw [hHighHere] at hBefore
        apply hBefore.dropLast
        -- A gid that had grown would be among the smallest.
        by_contra hGrown
        have hNear := hFrugal.fair.gained high.gid
          (List.mem_toFinset.mpr hGid)
          (by rw [hHighHere]; omega) low.gid
          (List.mem_toFinset.mpr hLowGid)
        rw [hHighHere, hLowHere] at hNear
        omega
    · split
      · next hSame =>
          subst hSame
          have hBefore := hFrugal.slices low.gid hGid
          rw [hLowHere] at hBefore
          apply hBefore.append
          -- One that was cut would be among the largest.
          by_contra hCut
          have hNear := hFrugal.fair.lost low.gid
            (List.mem_toFinset.mpr hGid)
            (by rw [hLowHere]; omega) high.gid
            (List.mem_toFinset.mpr hHighGid)
          rw [hHighHere, hLowHere] at hNear
          omega
      · exact hFrugal.slices gid hGid

theorem Frugal.step
    (hFrugal : b.Frugal oldConfig gids)
    (hComplete : b.Complete gids)
    (hStop : b.stop = false)
    (hStep : b.step = some b') :
    b'.Frugal oldConfig gids := by
  rcases Balance.step_cases hComplete.toFull hStop hStep with
    ⟨gs, orphan, hMem, hMin, hLast, rfl⟩ |
    ⟨low, high, movedShard, hLow, hHigh, hExtreme, hApart,
      hNone, _, rfl⟩
  · exact hFrugal.give hComplete hMem hMin hLast
  · exact hFrugal.move hComplete hLow hHigh hExtreme hApart
      hNone movedShard

theorem Frugal.loop
    {fuel : Nat}
    (hFrugal : b.Frugal oldConfig gids)
    (hComplete : b.Complete gids)
    (hLoop : b.loop fuel = some b') :
    b'.Frugal oldConfig gids := by
  induction fuel generalizing b with
  | zero => cases hLoop
  | succ fuel ih =>
      unfold Balance.loop at hLoop
      cases hStop : b.stop with
      | true =>
          rw [hStop] at hLoop
          cases hLoop
          exact hFrugal
      | false =>
          rw [hStop] at hLoop
          rcases Option.bind_eq_some_iff.mp hLoop with
            ⟨next, hStep, hRest⟩
          exact ih (hFrugal.step hComplete hStop hStep)
            (hComplete.step hStop hStep) hRest

/- Before the loop every gid has its old shards. -/
theorem start_shardsOf
    {newConfig : Config}
    (oldConfig : Config)
    (hGroups : newConfig.groups.keys ≠ [])
    {gid : Int}
    (hGid : gid ∈ newConfig.groups.keys) :
    shardsOf (Balance.start oldConfig newConfig).GSs gid =
      oldShards oldConfig gid := by
  have hNodup := (Balance.start_full oldConfig hGroups).nodup
  let gs : GS := {
    gid := gid
    shards := oldShards oldConfig gid }
  have hMem :
      gs ∈ (Balance.start oldConfig newConfig).GSs := by
    rw [Balance.start_eq]
    apply (List.mem_insertionSort _).mpr
    rw [Balance.fill_eq oldConfig newConfig.groups.keys_nodup]
    exact List.mem_map.mpr ⟨gid, hGid, rfl⟩
  exact shardsOf_eq hNodup hMem

theorem start_frugal
    {newConfig : Config}
    (oldConfig : Config)
    (hGroups : newConfig.groups.keys ≠ []) :
    (Balance.start oldConfig newConfig).Frugal oldConfig
      newConfig.groups.keys := by
  have hShards : ∀ gid ∈ newConfig.groups.keys,
      shardsOf (Balance.start oldConfig newConfig).GSs gid =
        oldShards oldConfig gid := by
    intro gid hGid
    exact start_shardsOf oldConfig hGroups hGid
  refine ⟨Fair.of_eq ?_, ?_, ?_⟩
  · intro gid hGid
    rw [hShards gid (List.mem_toFinset.mp hGid)]
  · intro _ gid hGid
    rw [hShards gid hGid]
  · intro gid hGid
    rw [hShards gid hGid]
    exact Or.inl (List.prefix_refl _)

end Balance

------------------------------------------------------------
-- Counting Moves
------------------------------------------------------------

theorem card_filter_eq_countP (p : Shard → Bool) :
    (Finset.univ.filter fun s => p s = true).card =
      (List.finRange NShards).countP p := by
  rw [List.countP_eq_length_filter,
    ← List.toFinset_card_of_nodup
      ((List.nodup_finRange NShards).filter p)]
  congr 1
  ext s
  simp

/- The share of a gid is the count of its shards. -/
theorem share_eq_shardCount (config : Config) (gid : Int) :
    share config.shards gid = config.shardCount gid := by
  unfold share Config.shardCount
  rw [← card_filter_eq_countP]
  simp

theorem share_eq_length_oldShards
    (oldConfig : Config)
    {gid : Int}
    (hNonzero : gid ≠ 0) :
    share oldConfig.shards gid =
      (oldShards oldConfig gid).length := by
  unfold share oldShards
  rw [← List.countP_eq_length_filter,
    ← card_filter_eq_countP]
  simp [keeps, hNonzero]

/- How many shards have another gid than before. -/
def movedShards (before after : Shard → Int) : Nat :=
  (List.finRange NShards).countP
    (fun s => decide (after s ≠ before s))

/- A shard is moved or the assignments agree on it. -/
theorem movedShards_add_agreements
    (before after : Shard → Int) :
    movedShards before after + agreements after before =
      NShards := by
  have hSplit := List.length_eq_countP_add_countP
    (fun s => decide (after s = before s))
    (l := List.finRange NShards)
  have hAgree : agreements after before =
      (List.finRange NShards).countP
        (fun s => decide (after s = before s)) := by
    unfold agreements
    rw [← card_filter_eq_countP]
    simp
  rw [List.length_finRange] at hSplit
  unfold movedShards
  rw [hAgree, Nat.add_comm]
  simpa using hSplit.symm

/- A balanced configuration has even shares. -/
theorem Config.Balanced.evenOn
    {config : Config}
    (hBalanced : config.Balanced) :
    EvenOn config.groups.keys.toFinset
      (share config.shards) := by
  intro gid hGid gid' hGid'
  rw [share_eq_shardCount, share_eq_shardCount]
  exact hBalanced gid (List.mem_toFinset.mp hGid) gid'
    (List.mem_toFinset.mp hGid')

namespace Balance

variable {oldConfig : Config} {gids : List Int}
variable {b : Balance}

theorem Complete.share_newShards
    (hComplete : b.Complete gids)
    (hStop : b.stop = true)
    {gid : Int}
    (hGid : gid ∈ gids) :
    share (newShards b.GSs) gid =
      (shardsOf b.GSs gid).length := by
  rcases hComplete.exists_slice hGid with
    ⟨gs, hMem, rfl, hSlice⟩
  rw [hSlice, ← hComplete.countP_newShards hStop hMem]
  unfold share
  rw [← card_filter_eq_countP]
  simp

/- The old shards and the slice of a gid overlap entirely. -/
theorem Frugal.min_share_le
    (hFrugal : b.Frugal oldConfig gids)
    (hComplete : b.Complete gids)
    (hStop : b.stop = true)
    {gid : Int}
    (hGid : gid ∈ gids)
    (hNonzero : gid ≠ 0) :
    min (share oldConfig.shards gid)
        (share (newShards b.GSs) gid) ≤
      (Finset.univ.filter fun s =>
        newShards b.GSs s = gid ∧
          oldConfig.shards s = gid).card := by
  rcases hComplete.exists_slice hGid with
    ⟨gs, hMem, rfl, hSlice⟩
  have hOld : ∀ s, s ∈ oldShards oldConfig gs.gid ↔
      oldConfig.shards s = gs.gid := by
    intro s
    simp [oldShards, keeps, hNonzero]
  have hNew := hComplete.newShards_eq_iff hStop hMem
  have hBoth := hFrugal.slices gs.gid hGid
  rw [hSlice] at hBoth
  rcases hBoth with hCut | hGrown
  · apply le_trans (min_le_right _ _)
    apply Finset.card_le_card
    intro s hShare
    simp only [Finset.mem_filter, Finset.mem_univ,
      true_and] at hShare ⊢
    exact ⟨hShare, (hOld s).mp
      (hCut.subset ((hNew s).mp hShare))⟩
  · apply le_trans (min_le_left _ _)
    apply Finset.card_le_card
    intro s hShare
    simp only [Finset.mem_filter, Finset.mem_univ,
      true_and] at hShare ⊢
    exact ⟨(hNew s).mpr
      (hGrown.subset ((hOld s).mpr hShare)), hShare⟩

end Balance

/-
  rebalance gives every shard to a group, evenly, and no even
  assignment to the groups moves fewer shards.
-/
theorem rebalance_moves_least
    (oldConfig newConfig : Config)
    (hGroups : newConfig.groups.keys ≠ [])
    (hZero : (0 : Int) ∉ newConfig.groups.keys) :
    ∃ config,
      rebalance oldConfig newConfig = some config ∧
      (∀ s, config.shards s ∈ newConfig.groups.keys) ∧
      config.Balanced ∧
      ∀ shards : Shard → Int,
        (∀ s, shards s ∈ newConfig.groups.keys) →
        Config.Balanced { newConfig with shards := shards } →
        movedShards oldConfig.shards config.shards ≤
          movedShards oldConfig.shards shards := by
  rcases rebalance_isSome oldConfig newConfig with
    ⟨newShards, hRebalance⟩
  have hBalanced := rebalance_balanced hRebalance
  have hInto : ∀ s,
      newShards s ∈ newConfig.groups.keys := by
    rcases (rebalance_assigned hRebalance).2.2 with
      hInto | ⟨hEmpty, _⟩
    · exact hInto
    · exact absurd hEmpty hGroups
  refine ⟨_, hRebalance, hInto, hBalanced, ?_⟩
  intro shards hInto' hBalanced'
  rw [rebalance, if_neg hGroups] at hRebalance
  rcases Option.map_eq_some_iff.mp hRebalance with
    ⟨b, hLoop, hConfig⟩
  cases hConfig
  have hStart := Balance.start_complete oldConfig hGroups
  rcases hStart.loop hLoop with ⟨hComplete, hStop⟩
  have hFrugal := (Balance.start_frugal oldConfig
    hGroups).loop hStart hLoop
  have hNonzero : ∀ gid ∈ newConfig.groups.keys,
      gid ≠ 0 := by
    rintro gid hGid rfl
    exact hZero hGid
  have hAgree :
      agreements shards oldConfig.shards ≤
        agreements (newShards b.GSs) oldConfig.shards := by
    apply agreements_le_of_fair
      (K := newConfig.groups.keys.toFinset)
    · intro s
      exact List.mem_toFinset.mpr (hInto s)
    · intro s
      exact List.mem_toFinset.mpr (hInto' s)
    · exact hBalanced.evenOn
    · exact hBalanced'.evenOn
    · apply hFrugal.fair.congr
      · intro gid hGid
        exact share_eq_length_oldShards oldConfig
          (hNonzero gid (List.mem_toFinset.mp hGid))
      · intro gid hGid
        exact hComplete.share_newShards hStop
          (List.mem_toFinset.mp hGid)
    · intro gid hGid
      have hGid := List.mem_toFinset.mp hGid
      exact hFrugal.min_share_le hComplete hStop hGid
        (hNonzero gid hGid)
  have hMoved := movedShards_add_agreements oldConfig.shards
    (newShards b.GSs)
  have hMoved' := movedShards_add_agreements oldConfig.shards
    shards
  dsimp only
  omega

/- Gid 1 has six shards, gid 2 three, and one has gid 4. -/
def crowdedConfig : Config where
  num := 3
  shards := fun s =>
    if s.val < 6 then 1 else if s.val < 9 then 2 else 4
  groups := ∅

/- Gid 4 is gone and gid 3 has joined. -/
def joinedConfig : Config where
  num := 4
  shards := fun _ => 0
  groups := List.toAList [⟨1, ["a"]⟩, ⟨2, ["b"]⟩, ⟨3, ["c"]⟩]

theorem rebalance_moves_least_joined :
    (joinedConfig.groups.keys ≠ [] ∧
      (0 : Int) ∉ joinedConfig.groups.keys) ∧
    ∃ config,
      rebalance crowdedConfig joinedConfig = some config ∧
      (∀ s, config.shards s ∈ joinedConfig.groups.keys) ∧
      config.Balanced ∧
      ∀ shards : Shard → Int,
        (∀ s, shards s ∈ joinedConfig.groups.keys) →
        Config.Balanced
          { joinedConfig with shards := shards } →
        movedShards crowdedConfig.shards config.shards ≤
          movedShards crowdedConfig.shards shards :=
  ⟨⟨by decide, by decide⟩,
    rebalance_moves_least crowdedConfig joinedConfig
      (by decide) (by decide)⟩

end Shardctrler

end RaftLab
