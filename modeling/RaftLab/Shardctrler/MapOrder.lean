import RaftLab.Shardctrler.Balanced

/-
  Replicas that range over maps in different orders.

  rebalance first builds its table of gids and the map from
  gids to places in the order in which `range` happens to
  visit the groups, and sorts the table by a sort that need
  not be stable. Here all these choices are explicit, and so
  is the map gid2Index, which is rebuilt after the sort. The
  table refines the slices that are addressed by gid, and
  after the sort nothing is left of the order, so replicas
  compute the same configurations whatever they chose.

  Main declarations:
    * `Shardctrler.Enumeration`, `Shardctrler.SliceSort`,
      `Shardctrler.Choices`
    * `Shardctrler.Table`, `Shardctrler.rebalanceIn`,
      `Shardctrler.applyOpsIn`
    * `Shardctrler.Config.Same`
    * `Shardctrler.configs_independent_of_order`
-/

------------------------------------------------------------
-- Choices Of A Replica
------------------------------------------------------------

namespace RaftLab

namespace Shardctrler

/- The order in which a range loop visits the keys. -/
structure Enumeration where
  order : Groups → List Int
  perm : ∀ groups, (order groups).Perm groups.keys

/- Some sort by gid, as sort.Slice may do it. -/
structure SliceSort where
  sort : List GS → List GS
  perm : ∀ GSs, (sort GSs).Perm GSs
  sorted : ∀ GSs,
    (sort GSs).Pairwise fun x y => ¬ y.gid < x.gid

/- What a replica is free to choose in one call of applyOp. -/
structure Choices where
  -- for key, value := range oldConfig.Groups
  copyOrder : Enumeration
  -- for key, value := range joinArgs.Servers
  joinOrder : Enumeration
  -- for gid := range newConfig.Groups
  groupOrder : Enumeration
  sortSlice : SliceSort

------------------------------------------------------------
-- The Table Of rebalance
------------------------------------------------------------

/- GSs and gid2Index -/
structure Table where
  GSs : List GS
  gid2Index : Int → Option Nat

namespace Table

def empty : Table where
  GSs := []
  gid2Index := fun _ => none

/- One iteration of the loop over the new groups. -/
def addGroup (t : Table) (gid : Int) : Table where
  GSs := t.GSs ++ [{ gid := gid, shards := [] }]
  gid2Index :=
    Function.update t.gid2Index gid (some t.GSs.length)

/- gid2Index[gid], where a missing key reads as 0 -/
def index (t : Table) (gid : Int) : Nat :=
  (t.gid2Index gid).getD 0

/- GSs[gid2Index[gid]].Shards -/
def getShards
    (t : Table)
    (gid : Int) : Option (List Shard) :=
  t.GSs[t.index gid]?.map GS.shards

/- GSs[gid2Index[gid]].Shards = shards -/
def putShards
    (t : Table)
    (gid : Int)
    (shards : List Shard) : Option Table :=
  t.GSs[t.index gid]?.map fun gs =>
    { t with
      GSs := t.GSs.set (t.index gid)
        { gs with shards := shards } }

/- gid2Index[gs.Gid] = i -/
def setIndex
    (gid2Index : Int → Option Nat)
    (entry : GS × Nat) : Int → Option Nat :=
  Function.update gid2Index entry.1.gid (some entry.2)

/- The sort, and the loop that sets gid2Index again. -/
def sortBy (t : Table) (sortSlice : SliceSort) : Table where
  GSs := sortSlice.sort t.GSs
  gid2Index :=
    (sortSlice.sort t.GSs).zipIdx.foldl setIndex t.gid2Index

end Table

/- The table and the orphans. -/
structure Work where
  table : Table
  orphanShards : List Shard

namespace Work

/- The two slices without the index. -/
def balance (w : Work) : Balance where
  GSs := w.table.GSs
  orphanShards := w.orphanShards

def addOld
    (oldConfig : Config)
    (w : Work)
    (shardNum : Shard) : Option Work :=
  let gid := oldConfig.shards shardNum
  let orphan : Work := { w with
    orphanShards := w.orphanShards ++ [shardNum] }
  if gid = 0 then
    some orphan
  else if w.table.gid2Index gid = none then
    some orphan
  else
    (w.table.getShards gid).bind fun shards =>
      (w.table.putShards gid (shards ++ [shardNum])).map
        fun table => { w with table := table }

/- The same iteration as `Balance.step`. -/
def step (w : Work) : Option Work :=
  let e := extremes w.table.GSs
  (w.table.getShards e.minGid).bind fun minShards =>
    (w.table.getShards e.maxGid).bind fun maxShards =>
      match w.orphanShards.getLast? with
      | some orphan =>
          (w.table.putShards e.minGid
            (minShards ++ [orphan])).map fun table => {
              table := table
              orphanShards := w.orphanShards.dropLast }
      | none =>
          maxShards.getLast?.bind fun movedShard =>
            (w.table.putShards e.minGid
              (minShards ++ [movedShard])).bind fun table =>
                (table.putShards e.maxGid
                  maxShards.dropLast).map fun table =>
                    { w with table := table }

def loop : Nat → Work → Option Work
| 0, _ => none
| fuel + 1, w =>
    if w.balance.stop then
      some w
    else
      w.step.bind (loop fuel)

end Work

def rebalanceIn
    (choices : Choices)
    (oldConfig newConfig : Config) : Option Config :=
  let table :=
    (choices.groupOrder.order newConfig.groups).foldl
      Table.addGroup Table.empty
  if table.GSs = [] then
    some { newConfig with shards := fun _ => 0 }
  else
    ((List.finRange NShards).foldlM (Work.addOld oldConfig)
      { table := table, orphanShards := [] }).bind fun w =>
        let w : Work := { w with
          table := w.table.sortBy choices.sortSlice }
        (w.loop (w.balance.spread + 1)).map fun w =>
          { newConfig with shards := newShards w.table.GSs }

------------------------------------------------------------
-- Operations
------------------------------------------------------------

/- Set the keys of `order` to what `source` has for them. -/
def insertAll
    (source : Groups)
    (order : List Int)
    (groups : Groups) : Groups :=
  order.foldl
    (fun groups key =>
      match source.lookup key with
      | some value => AList.insert key value groups
      | none => groups)
    groups

/- The copy of a configuration that an operation edits. -/
def Config.copyIn
    (choices : Choices)
    (oldConfig : Config) : Config :=
  { oldConfig.next with
    groups := insertAll oldConfig.groups
      (choices.copyOrder.order oldConfig.groups) ∅ }

def applyOpIn
    (choices : Choices)
    (configs : List Config)
    (op : Op) : Option (List Config) :=
  match op.args with
  | .join servers =>
      addConfig configs fun oldConfig =>
        let newConfig := oldConfig.copyIn choices
        rebalanceIn choices oldConfig { newConfig with
          groups := insertAll servers
            (choices.joinOrder.order servers)
            newConfig.groups }
  | .leave gids =>
      addConfig configs fun oldConfig =>
        let newConfig := oldConfig.copyIn choices
        rebalanceIn choices oldConfig { newConfig with
          groups := leaveGroups newConfig.groups gids }
  | .move shard gid =>
      addConfig configs fun oldConfig =>
        moveShard (oldConfig.copyIn choices) shard gid
  | .query _ => some configs

/-
  A replica that applies the operations in order, with its
  own choices at each of them.
-/
def applyOpsIn
    (choices : Nat → Choices)
    (ops : List Op) : Option (List Config) :=
  ops.zipIdx.foldlM
    (fun configs entry =>
      applyOpIn (choices entry.2) configs entry.1)
    [Config.zero]

------------------------------------------------------------
-- The Index Is Right
------------------------------------------------------------

/- Every gid of the table is found at its place. -/
structure Table.Indexed (t : Table) : Prop where
  nodup : (t.GSs.map GS.gid).Nodup
  here : ∀ (i : Nat) (gs : GS),
    t.GSs[i]? = some gs → t.gid2Index gs.gid = some i
  gone : ∀ gid, gid ∉ t.GSs.map GS.gid →
    t.gid2Index gid = none

namespace Table.Indexed

variable {t : Table}

theorem empty : Table.empty.Indexed where
  nodup := List.nodup_nil
  here := by
    intro i gs hAt
    cases hAt
  gone := fun _ _ => rfl

theorem addGroup
    (hIndexed : t.Indexed)
    {gid : Int}
    (hFresh : gid ∉ t.GSs.map GS.gid) :
    (t.addGroup gid).Indexed := by
  have hGids : (t.addGroup gid).GSs.map GS.gid =
      t.GSs.map GS.gid ++ [gid] := by
    simp [Table.addGroup]
  refine ⟨?_, ?_, ?_⟩
  · rw [hGids, List.nodup_append]
    refine ⟨hIndexed.nodup, List.nodup_singleton _, ?_⟩
    rintro x hX y hY rfl
    rw [List.mem_singleton.mp hY] at hX
    exact hFresh hX
  · intro i gs hAt
    unfold Table.addGroup at hAt ⊢
    dsimp only at hAt ⊢
    rcases Nat.lt_or_ge i t.GSs.length with hLt | hGe
    · rw [List.getElem?_append_left hLt] at hAt
      have hNe : gs.gid ≠ gid := by
        rintro rfl
        exact hFresh
          (List.mem_map_of_mem (List.mem_of_getElem? hAt))
      rw [Function.update_of_ne hNe]
      exact hIndexed.here i gs hAt
    · rw [List.getElem?_append_right hGe] at hAt
      have hEnd := (List.getElem?_eq_some_iff.mp hAt).1
      rw [List.length_singleton] at hEnd
      have hI : i = t.GSs.length := by omega
      subst hI
      rw [Nat.sub_self] at hAt
      cases hAt
      rw [Function.update_self]
  · intro gid' hGone
    rw [hGids, List.mem_append, not_or,
      List.mem_singleton] at hGone
    unfold Table.addGroup
    dsimp only
    rw [Function.update_of_ne hGone.2]
    exact hIndexed.gone gid' hGone.1

theorem foldl_addGroup
    (hIndexed : t.Indexed)
    {order : List Int}
    (hNodup : order.Nodup)
    (hFresh : ∀ gid ∈ order, gid ∉ t.GSs.map GS.gid) :
    (order.foldl Table.addGroup t).Indexed ∧
      (order.foldl Table.addGroup t).GSs =
        t.GSs ++ order.map fun gid => {
          gid := gid
          shards := [] } := by
  induction order generalizing t with
  | nil => exact ⟨hIndexed, by simp⟩
  | cons gid order ih =>
      rw [List.nodup_cons] at hNodup
      have hHead := hFresh gid List.mem_cons_self
      have hRest : ∀ gid' ∈ order,
          gid' ∉ (t.addGroup gid).GSs.map GS.gid := by
        intro gid' hMem hIn
        simp only [Table.addGroup, List.map_append,
          List.map_cons, List.map_nil, List.mem_append,
          List.mem_singleton] at hIn
        rcases hIn with hOld | rfl
        · exact hFresh gid' (List.mem_cons_of_mem _ hMem)
            hOld
        · exact hNodup.1 hMem
      rcases ih (hIndexed.addGroup hHead) hNodup.2 hRest with
        ⟨hNext, hGSs⟩
      refine ⟨hNext, ?_⟩
      rw [List.foldl_cons, hGSs]
      simp [Table.addGroup]

theorem exists_place
    {gid : Int}
    (hGid : gid ∈ t.GSs.map GS.gid) :
    ∃ (i : Nat) (gs : GS),
      t.GSs[i]? = some gs ∧ gs.gid = gid := by
  rcases List.mem_map.mp hGid with ⟨gs, hMem, hEq⟩
  rcases List.mem_iff_getElem?.mp hMem with ⟨i, hAt⟩
  exact ⟨i, gs, hAt, hEq⟩

theorem gid2Index_eq_none_iff
    (hIndexed : t.Indexed)
    {gid : Int} :
    t.gid2Index gid = none ↔ gid ∉ t.GSs.map GS.gid := by
  constructor
  · intro hNone hGid
    rcases exists_place hGid with ⟨i, gs, hAt, rfl⟩
    rw [hIndexed.here i gs hAt] at hNone
    cases hNone
  · exact hIndexed.gone gid

/- Reading through the index is reading by gid. -/
theorem getShards_eq
    (hIndexed : t.Indexed)
    {gid : Int}
    (hGid : gid ∈ t.GSs.map GS.gid) :
    t.getShards gid = some (shardsOf t.GSs gid) := by
  rcases exists_place hGid with ⟨i, gs, hAt, rfl⟩
  rw [Table.getShards, Table.index, hIndexed.here i gs hAt,
    Option.getD_some, hAt, Option.map_some,
    shardsOf_eq hIndexed.nodup (List.mem_of_getElem? hAt)]

/- Writing through the index is writing by gid. -/
theorem putShards_eq
    (hIndexed : t.Indexed)
    {gid : Int}
    (hGid : gid ∈ t.GSs.map GS.gid)
    (shards : List Shard) :
    t.putShards gid shards =
      some { t with
        GSs := setShards t.GSs gid shards } := by
  rcases exists_place hGid with ⟨i, gs, hAt, rfl⟩
  rw [Table.putShards, Table.index, hIndexed.here i gs hAt,
    Option.getD_some, hAt, Option.map_some]
  congr 2
  apply List.ext_getElem?
  intro j
  unfold setShards
  rw [List.getElem?_map, List.getElem?_set]
  have hLt := (List.getElem?_eq_some_iff.mp hAt).1
  by_cases hSame : i = j
  · subst hSame
    rw [if_pos rfl, if_pos hLt, hAt, Option.map_some,
      if_pos rfl]
  · rw [if_neg hSame]
    cases hOther : t.GSs[j]? with
    | none => rfl
    | some gs' =>
        have hNe : gs'.gid ≠ gs.gid := by
          intro hEq
          have hPlace := hIndexed.here j gs' hOther
          rw [hEq, hIndexed.here i gs hAt] at hPlace
          exact hSame (Option.some.inj hPlace)
        rw [Option.map_some, if_neg hNe]

/- The index depends on the gids only. -/
theorem of_gids
    (hIndexed : t.Indexed)
    {GSs : List GS}
    (hGids : GSs.map GS.gid = t.GSs.map GS.gid) :
    ({ t with GSs := GSs } : Table).Indexed := by
  refine ⟨?_, ?_, ?_⟩
  · rw [hGids]
    exact hIndexed.nodup
  · intro i gs hAt
    have hPlace := congrArg (fun l => l[i]?) hGids
    dsimp only at hPlace hAt ⊢
    rw [List.getElem?_map, List.getElem?_map, hAt,
      Option.map_some] at hPlace
    rcases Option.map_eq_some_iff.mp hPlace.symm with
      ⟨gs', hAt', hEq⟩
    rw [← hEq]
    exact hIndexed.here i gs' hAt'
  · intro gid hGone
    rw [hGids] at hGone
    exact hIndexed.gone gid hGone

end Table.Indexed

------------------------------------------------------------
-- The Index After The Sort
------------------------------------------------------------

/- The loop over the sorted table sets every gid's place. -/
theorem reindex_apply
    (GSs : List GS)
    (k : Nat)
    (hNodup : (GSs.map GS.gid).Nodup)
    (gid2Index : Int → Option Nat)
    (gid : Int) :
    (GSs.zipIdx k).foldl Table.setIndex gid2Index gid =
      if gid ∈ GSs.map GS.gid then
        some (k + (GSs.map GS.gid).idxOf gid)
      else gid2Index gid := by
  induction GSs generalizing k gid2Index with
  | nil => simp
  | cons gs GSs ih =>
      rw [List.map_cons, List.nodup_cons] at hNodup
      rw [List.zipIdx_cons, List.foldl_cons,
        ih (k + 1) hNodup.2, List.map_cons]
      by_cases hHere : gid = gs.gid
      · subst hHere
        rw [if_neg hNodup.1, if_pos List.mem_cons_self,
          List.idxOf_cons_self, Table.setIndex,
          Function.update_self, Nat.add_zero]
      · by_cases hLater : gid ∈ GSs.map GS.gid
        · rw [if_pos hLater,
            if_pos (List.mem_cons_of_mem _ hLater),
            List.idxOf_cons_ne _ (Ne.symm hHere)]
          congr 1
          omega
        · have hNot : gid ∉ gs.gid :: GSs.map GS.gid := by
            rw [List.mem_cons, not_or]
            exact ⟨hHere, hLater⟩
          rw [if_neg hLater, if_neg hNot, Table.setIndex,
            Function.update_of_ne hHere]

theorem Table.Indexed.sortBy
    {t : Table}
    (hIndexed : t.Indexed)
    (sortSlice : SliceSort) :
    (t.sortBy sortSlice).Indexed := by
  have hPerm := (sortSlice.perm t.GSs).map GS.gid
  have hNodup : ((sortSlice.sort t.GSs).map
      GS.gid).Nodup :=
    hPerm.nodup_iff.mpr hIndexed.nodup
  refine ⟨hNodup, ?_, ?_⟩
  · intro i gs hAt
    have hAt' : (sortSlice.sort t.GSs)[i]? = some gs := hAt
    have hPlace : ((sortSlice.sort t.GSs).map
        GS.gid)[i]? = some gs.gid := by
      rw [List.getElem?_map, hAt', Option.map_some]
    rcases List.getElem?_eq_some_iff.mp hPlace with
      ⟨hLt, hEq⟩
    unfold Table.sortBy
    dsimp only
    rw [reindex_apply _ _ hNodup,
      if_pos (List.mem_of_getElem? hPlace), Nat.zero_add,
      ← hEq, hNodup.idxOf_getElem i hLt]
  · intro gid hGone
    unfold Table.sortBy at hGone ⊢
    dsimp only at hGone ⊢
    rw [reindex_apply _ _ hNodup, if_neg hGone]
    apply hIndexed.gone
    intro hOld
    exact hGone (hPerm.symm.subset hOld)

------------------------------------------------------------
-- The Table Refines The Slices
------------------------------------------------------------

namespace Work

variable {w : Work}

theorem addOld_refines
    (hIndexed : w.table.Indexed)
    (oldConfig : Config)
    (shard : Shard) :
    ∃ w', w.addOld oldConfig shard = some w' ∧
      w'.balance = w.balance.addOld oldConfig shard ∧
      w'.table.Indexed := by
  unfold addOld Balance.addOld
  dsimp only
  by_cases hZero : oldConfig.shards shard = 0
  · rw [if_pos hZero, if_pos (Or.inl hZero)]
    exact ⟨_, rfl, rfl, hIndexed⟩
  · rw [if_neg hZero]
    by_cases hGone : w.table.gid2Index
        (oldConfig.shards shard) = none
    · have hNot : oldConfig.shards shard ∉
          w.balance.GSs.map GS.gid :=
        hIndexed.gid2Index_eq_none_iff.mp hGone
      rw [if_pos hGone, if_pos (Or.inr hNot)]
      exact ⟨_, rfl, rfl, hIndexed⟩
    · have hGid : oldConfig.shards shard ∈
          w.table.GSs.map GS.gid := by
        by_contra hNot
        exact hGone (hIndexed.gone _ hNot)
      have hKept : ¬ (oldConfig.shards shard = 0 ∨
          oldConfig.shards shard ∉
            w.balance.GSs.map GS.gid) := by
        rw [not_or, not_not]
        exact ⟨hZero, hGid⟩
      rw [if_neg hGone, if_neg hKept,
        hIndexed.getShards_eq hGid, Option.bind_some,
        hIndexed.putShards_eq hGid]
      exact ⟨_, rfl, rfl,
        hIndexed.of_gids (setShards_gids _ _ _)⟩

theorem foldlM_addOld_refines
    (hIndexed : w.table.Indexed)
    (oldConfig : Config)
    (shards : List Shard) :
    ∃ w', shards.foldlM (addOld oldConfig) w = some w' ∧
      w'.balance =
        shards.foldl (Balance.addOld oldConfig) w.balance ∧
      w'.table.Indexed := by
  induction shards generalizing w with
  | nil => exact ⟨w, rfl, rfl, hIndexed⟩
  | cons shard shards ih =>
      rcases addOld_refines hIndexed oldConfig shard with
        ⟨w', hAdd, hBalance, hIndexed'⟩
      rcases ih hIndexed' with ⟨w'', hRest, hEq, hIndexed''⟩
      refine ⟨w'', ?_, ?_, hIndexed''⟩
      · rw [List.foldlM_cons, hAdd]
        exact hRest
      · rw [hEq, hBalance, List.foldl_cons]

theorem step_refines
    (hIndexed : w.table.Indexed)
    (hFull : w.balance.Full)
    {b : Balance}
    (hStep : w.balance.step = some b) :
    ∃ w', w.step = some w' ∧
      w'.balance = b ∧
      w'.table.Indexed := by
  have hOf := hFull.extremes_of
  have hMin : (extremes w.table.GSs).minGid ∈
      w.table.GSs.map GS.gid := by
    rcases hOf.min_mem with ⟨gs, hMem, hGid, _⟩
    exact List.mem_map.mpr ⟨gs, hMem, hGid⟩
  have hMax : (extremes w.table.GSs).maxGid ∈
      w.table.GSs.map GS.gid := by
    rcases hOf.max_mem with ⟨gs, hMem, hGid, _⟩
    exact List.mem_map.mpr ⟨gs, hMem, hGid⟩
  unfold Balance.step at hStep
  dsimp only [balance] at hStep
  unfold step
  dsimp only
  rw [hIndexed.getShards_eq hMin, hIndexed.getShards_eq hMax]
  simp only [Option.bind_some]
  cases hLast : w.orphanShards.getLast? with
  | some orphan =>
      rw [hLast] at hStep
      cases hStep
      dsimp only
      rw [hIndexed.putShards_eq hMin]
      exact ⟨_, rfl, rfl,
        hIndexed.of_gids (setShards_gids _ _ _)⟩
  | none =>
      rw [hLast] at hStep
      dsimp only at hStep ⊢
      cases hMoved : (shardsOf w.table.GSs
          (extremes w.table.GSs).maxGid).getLast? with
      | none =>
          rw [hMoved] at hStep
          cases hStep
      | some movedShard =>
          rw [hMoved] at hStep
          cases hStep
          rw [Option.bind_some, hIndexed.putShards_eq hMin,
            Option.bind_some]
          have hGiven := hIndexed.of_gids
            (setShards_gids w.table.GSs
              (extremes w.table.GSs).minGid
              (shardsOf w.table.GSs
                (extremes w.table.GSs).minGid ++
                  [movedShard]))
          have hMax' : (extremes w.table.GSs).maxGid ∈
              (setShards w.table.GSs
                (extremes w.table.GSs).minGid
                (shardsOf w.table.GSs
                  (extremes w.table.GSs).minGid ++
                    [movedShard])).map GS.gid := by
            rw [setShards_gids]
            exact hMax
          rw [hGiven.putShards_eq hMax']
          exact ⟨_, rfl, rfl,
            hGiven.of_gids (setShards_gids _ _ _)⟩

theorem loop_refines
    {fuel : Nat}
    (hIndexed : w.table.Indexed)
    (hFull : w.balance.Full)
    {b : Balance}
    (hLoop : w.balance.loop fuel = some b) :
    ∃ w', w.loop fuel = some w' ∧ w'.balance = b := by
  induction fuel generalizing w with
  | zero => cases hLoop
  | succ fuel ih =>
      unfold loop
      unfold Balance.loop at hLoop
      cases hStop : w.balance.stop with
      | true =>
          rw [hStop] at hLoop
          exact ⟨w, rfl, Option.some.inj hLoop⟩
      | false =>
          rw [hStop] at hLoop
          rcases Option.bind_eq_some_iff.mp hLoop with
            ⟨next, hStep, hRest⟩
          have hFull' : next.Full := by
            rcases Balance.step_spread hFull hStop with
              ⟨next', hStep', hNext, _⟩
            rw [hStep] at hStep'
            cases hStep'
            exact hNext
          rcases step_refines hIndexed hFull hStep with
            ⟨w', hWork, rfl, hIndexed'⟩
          rw [hWork]
          exact ih hIndexed' hFull' hRest

end Work

------------------------------------------------------------
-- Nothing Is Left Of The Order
------------------------------------------------------------

theorem insertionSort_sorted (GSs : List GS) :
    (GSs.insertionSort fun x y => x.gid ≤ y.gid).Pairwise
      fun x y => ¬ y.gid < x.gid :=
  (List.pairwise_insertionSort
    (fun x y : GS => x.gid ≤ y.gid) GSs).imp
      fun h => not_lt.mpr h

/-
  Gids are distinct, so there is one sorted list of them, and
  each comes with the shards it keeps.
-/
theorem sort_fill_eq
    (sortSlice : SliceSort)
    {oldConfig oldConfig' newConfig : Config}
    (hShards : oldConfig.shards = oldConfig'.shards)
    {order : List Int}
    (hOrder : order.Perm newConfig.groups.keys) :
    ({ GSs := sortSlice.sort
        (Balance.fill oldConfig order).GSs
       orphanShards :=
        (Balance.fill oldConfig order).orphanShards } :
          Balance) =
      Balance.start oldConfig' newConfig := by
  have hNodup := newConfig.groups.keys_nodup
  have hKeeps : keeps oldConfig = keeps oldConfig' := by
    unfold keeps
    rw [hShards]
  have hOrphaned : orphaned oldConfig order =
      orphaned oldConfig' newConfig.groups.keys := by
    unfold orphaned
    simp only [hShards, hOrder.mem_iff]
  rw [Balance.start_eq,
    Balance.fill_eq oldConfig (hOrder.nodup_iff.mpr hNodup),
    Balance.fill_eq oldConfig' hNodup, hKeeps, hOrphaned]
  congr 1
  let kept : Int → GS := fun gid => {
    gid := gid
    shards := (List.finRange NShards).filter
      (keeps oldConfig' gid) }
  have hPerm := hOrder.map kept
  have hInsertion := List.perm_insertionSort
    (fun x y : GS => x.gid ≤ y.gid)
    (newConfig.groups.keys.map kept)
  have hSort := sortSlice.perm (order.map kept)
  refine List.Perm.eq_of_pairwise ?_ (sortSlice.sorted _)
    (insertionSort_sorted _)
    (hSort.trans (hPerm.trans hInsertion.symm))
  intro x y hX hY hLe hGe
  rcases List.mem_map.mp (hSort.subset hX) with
    ⟨gid, _, rfl⟩
  rcases List.mem_map.mp (hInsertion.subset hY) with
    ⟨gid', _, rfl⟩
  have hGid : gid = gid' :=
    le_antisymm (not_lt.mp hLe) (not_lt.mp hGe)
  rw [hGid]

/- A replica computes the shards that `rebalance` does. -/
theorem rebalanceIn_eq
    (choices : Choices)
    {oldConfig oldConfig' newConfig newConfig' : Config}
    (hShards : oldConfig.shards = oldConfig'.shards)
    (hKeys : newConfig.groups.keys.Perm
      newConfig'.groups.keys) :
    ∃ shards,
      rebalanceIn choices oldConfig newConfig =
        some { newConfig with shards := shards } ∧
      rebalance oldConfig' newConfig' =
        some { newConfig' with shards := shards } := by
  have hOrder : (choices.groupOrder.order
      newConfig.groups).Perm newConfig'.groups.keys :=
    (choices.groupOrder.perm newConfig.groups).trans hKeys
  have hNodup : (choices.groupOrder.order
      newConfig.groups).Nodup :=
    hOrder.nodup_iff.mpr newConfig'.groups.keys_nodup
  unfold rebalanceIn
  generalize choices.groupOrder.order newConfig.groups =
    order at hOrder hNodup
  rcases Table.Indexed.empty.foldl_addGroup hNodup
    (fun _ _ hMem => by cases hMem) with
    ⟨hIndexed, hGSs⟩
  have hGSs' : (order.foldl Table.addGroup
      Table.empty).GSs = order.map fun gid => {
        gid := gid
        shards := [] } := hGSs
  dsimp only
  by_cases hEmpty : order = []
  · have hNoKeys : newConfig'.groups.keys = [] := by
      rw [hEmpty] at hOrder
      exact List.nil_perm.mp hOrder
    rw [if_pos (by rw [hGSs', hEmpty]; rfl)]
    refine ⟨fun _ => 0, rfl, ?_⟩
    unfold rebalance
    rw [if_pos hNoKeys]
  · have hGroups : newConfig'.groups.keys ≠ [] := by
      intro hNoKeys
      rw [hNoKeys] at hOrder
      exact hEmpty (List.perm_nil.mp hOrder)
    have hNonempty : (order.foldl Table.addGroup
        Table.empty).GSs ≠ [] := by
      rw [hGSs']
      simpa using hEmpty
    rw [if_neg hNonempty]
    rcases Work.foldlM_addOld_refines
      (w := { table := order.foldl Table.addGroup Table.empty
              orphanShards := [] })
      hIndexed oldConfig (List.finRange NShards) with
      ⟨w, hFilled, hBalance, hIndexed'⟩
    have hFill : w.balance = Balance.fill oldConfig order := by
      rw [hBalance]
      unfold Balance.fill Work.balance
      rw [hGSs']
    have hStart : (Work.balance { w with
        table := w.table.sortBy choices.sortSlice }) =
          Balance.start oldConfig' newConfig' := by
      rw [← sort_fill_eq choices.sortSlice hShards hOrder,
        ← hFill]
      rfl
    have hFull :=
      Balance.start_full oldConfig' hGroups
    rcases Balance.loop_isSome hFull (Nat.lt_succ_self _)
      with ⟨b, hLoop, _⟩
    rcases Work.loop_refines
      (w := { w with
        table := w.table.sortBy choices.sortSlice })
      (hIndexed'.sortBy choices.sortSlice)
      (by rw [hStart]; exact hFull)
      (by rw [hStart]; exact hLoop) with
      ⟨w', hWork, hEnd⟩
    refine ⟨newShards b.GSs, ?_, ?_⟩
    · rw [hFilled, Option.bind_some, hStart, hWork,
        Option.map_some, ← hEnd]
      rfl
    · unfold rebalance
      rw [if_neg hGroups]
      dsimp only
      rw [hLoop]
      rfl

------------------------------------------------------------
-- Configurations As Values
------------------------------------------------------------

/- A configuration as a Go value: a map has no order. -/
structure ConfigValue where
  num : Int
  shards : Shard → Int
  groups : Int → Option (List String)

def Config.value (config : Config) : ConfigValue where
  num := config.num
  shards := config.shards
  groups := fun gid => config.groups.lookup gid

theorem keys_perm_of_lookup
    {groups groups' : Groups}
    (hLookup :
      ∀ gid, groups.lookup gid = groups'.lookup gid) :
    groups.keys.Perm groups'.keys := by
  apply (List.perm_ext_iff_of_nodup groups.keys_nodup
    groups'.keys_nodup).mpr
  intro gid
  rw [← AList.mem_keys, ← AList.mem_keys,
    ← AList.lookup_isSome, ← AList.lookup_isSome,
    hLookup gid]

theorem lookup_insertAll
    (source : Groups)
    {order : List Int}
    (hOrder : ∀ key ∈ order, key ∈ source)
    (groups : Groups)
    (gid : Int) :
    (insertAll source order groups).lookup gid =
      if gid ∈ order then source.lookup gid
      else groups.lookup gid := by
  induction order generalizing groups with
  | nil => simp [insertAll]
  | cons key order ih =>
      have hRest : ∀ key' ∈ order, key' ∈ source := by
        intro key' hMem
        exact hOrder key' (List.mem_cons_of_mem _ hMem)
      rcases Option.isSome_iff_exists.mp
        (AList.lookup_isSome.mpr
          (hOrder key List.mem_cons_self)) with
        ⟨value, hValue⟩
      have hCons : insertAll source (key :: order) groups =
          insertAll source order
            (AList.insert key value groups) := by
        simp [insertAll, hValue]
      rw [hCons, ih hRest]
      by_cases hHere : gid = key
      · subst hHere
        rw [AList.lookup_insert, hValue,
          if_pos List.mem_cons_self]
        split <;> rfl
      · rw [AList.lookup_insert_ne hHere]
        simp [hHere]

/- All keys of a map are copied, in whatever order. -/
theorem lookup_insertAll_perm
    {source : Groups}
    {order : List Int}
    (hOrder : order.Perm source.keys)
    (groups : Groups)
    (gid : Int) :
    (insertAll source order groups).lookup gid =
      if gid ∈ source then source.lookup gid
      else groups.lookup gid := by
  rw [lookup_insertAll source
    (fun key hMem => hOrder.subset hMem)]
  simp only [hOrder.mem_iff, AList.mem_keys]

theorem joinGroups_eq
    (groups servers : Groups) :
    joinGroups groups servers =
      insertAll servers servers.keys groups := by
  unfold joinGroups insertAll AList.keys List.keys
  rw [List.foldl_map]
  apply List.foldl_ext
  intro groups entry hMem
  have hValue : servers.lookup entry.1 = some entry.2 :=
    AList.mem_lookup_iff.mpr hMem
  rw [hValue]

theorem lookup_leaveGroups
    {groups groups' : Groups}
    (hLookup :
      ∀ gid, groups.lookup gid = groups'.lookup gid)
    (gids : List Int)
    (gid : Int) :
    (leaveGroups groups gids).lookup gid =
      (leaveGroups groups' gids).lookup gid := by
  induction gids generalizing groups groups' with
  | nil => exact hLookup gid
  | cons key gids ih =>
      apply ih
      intro gid'
      by_cases hHere : gid' = key
      · subst hHere
        rw [AList.lookup_erase, AList.lookup_erase]
      · rw [AList.lookup_erase_ne hHere,
          AList.lookup_erase_ne hHere]
        exact hLookup gid'

theorem lookup_copyIn
    (choices : Choices)
    (config : Config)
    (gid : Int) :
    (config.copyIn choices).groups.lookup gid =
      config.groups.lookup gid := by
  unfold Config.copyIn
  dsimp only
  rw [lookup_insertAll_perm
    (choices.copyOrder.perm config.groups)]
  split
  · rfl
  · next hGone =>
      rw [AList.lookup_eq_none.mpr hGone, AList.lookup_empty]

------------------------------------------------------------
-- Replicas Agree
------------------------------------------------------------

/- The values of a history. -/
def values (configs : List Config) : List ConfigValue :=
  configs.map Config.value

theorem addConfig_value
    {configs configs' : List Config}
    (hConfigs : values configs = values configs')
    {edit edit' : Config → Option Config}
    (hEdit : ∀ config config',
      config.value = config'.value →
      (edit config).map Config.value =
        (edit' config').map Config.value) :
    (addConfig configs edit).map values =
      (addConfig configs' edit').map values := by
  have hLast : configs.getLast?.map Config.value =
      configs'.getLast?.map Config.value := by
    rw [← List.getLast?_map, ← List.getLast?_map]
    exact congrArg List.getLast? hConfigs
  unfold addConfig
  cases hOld : configs.getLast? with
  | none =>
      rw [hOld, Option.map_none] at hLast
      rw [Option.map_eq_none_iff.mp hLast.symm]
      rfl
  | some config =>
      rw [hOld, Option.map_some] at hLast
      rcases Option.map_eq_some_iff.mp hLast.symm with
        ⟨config', hOld', hValue⟩
      have hNew := hEdit config config' hValue.symm
      rw [hOld', Option.bind_some, Option.bind_some]
      cases hResult : edit config with
      | none =>
          rw [hResult, Option.map_none] at hNew
          rw [Option.map_eq_none_iff.mp hNew.symm]
          rfl
      | some new =>
          rw [hResult, Option.map_some] at hNew
          rcases Option.map_eq_some_iff.mp hNew.symm with
            ⟨new', hResult', hSame⟩
          rw [hResult']
          simp only [Option.map_some, values,
            List.map_append, List.map_cons, List.map_nil,
            hSame]
          have hMap : configs.map Config.value =
              configs'.map Config.value := hConfigs
          rw [hMap]

/- Rebalancing gives the same value in every order. -/
theorem rebalanceIn_value
    (choices : Choices)
    {oldConfig oldConfig' newConfig newConfig' : Config}
    (hShards : oldConfig.shards = oldConfig'.shards)
    (hNum : newConfig.num = newConfig'.num)
    (hLookup : ∀ gid, newConfig.groups.lookup gid =
      newConfig'.groups.lookup gid) :
    (rebalanceIn choices oldConfig newConfig).map
        Config.value =
      (rebalance oldConfig' newConfig').map
        Config.value := by
  rcases rebalanceIn_eq choices hShards
    (keys_perm_of_lookup hLookup) with
    ⟨shards, hIn, hModel⟩
  rw [hIn, hModel, Option.map_some, Option.map_some]
  unfold Config.value
  simp only [hNum, hLookup]

theorem moveShard_value
    {config config' : Config}
    (hValue : config.value = config'.value)
    (shard gid : Int) :
    (moveShard config shard gid).map Config.value =
      (moveShard config' shard gid).map Config.value := by
  have hNum := congrArg ConfigValue.num hValue
  have hShards := congrArg ConfigValue.shards hValue
  have hGroups := congrArg ConfigValue.groups hValue
  unfold Config.value at hNum hShards hGroups
  dsimp only at hNum hShards hGroups
  unfold moveShard
  split
  · simp only [Option.map_some, Config.value, hNum, hShards,
      hGroups]
  · rfl

/- One operation, with the choices of a replica. -/
theorem applyOpIn_value
    (choices : Choices)
    {configs configs' : List Config}
    (hConfigs : values configs = values configs')
    (op : Op) :
    (applyOpIn choices configs op).map values =
      (applyOp configs' op).map values := by
  have hParts : ∀ {config config' : Config},
      config.value = config'.value →
      config.num = config'.num ∧
        config.shards = config'.shards ∧
        ∀ gid, config.groups.lookup gid =
          config'.groups.lookup gid := by
    intro config config' hValue
    exact ⟨congrArg ConfigValue.num hValue,
      congrArg ConfigValue.shards hValue,
      congrFun (congrArg ConfigValue.groups hValue)⟩
  unfold applyOpIn applyOp
  cases op.args with
  | join servers =>
      apply addConfig_value hConfigs
      intro config config' hValue
      rcases hParts hValue with ⟨hNum, hShards, hLookup⟩
      refine rebalanceIn_value choices hShards
        (congrArg (fun num : Int => num + 1) hNum) ?_
      intro gid
      dsimp only
      rw [joinGroups_eq, lookup_insertAll_perm
        (choices.joinOrder.perm servers),
        lookup_insertAll_perm (List.Perm.refl _),
        lookup_copyIn, hLookup]
  | leave gids =>
      apply addConfig_value hConfigs
      intro config config' hValue
      rcases hParts hValue with ⟨hNum, hShards, hLookup⟩
      refine rebalanceIn_value choices hShards
        (congrArg (fun num : Int => num + 1) hNum) ?_
      apply lookup_leaveGroups
      intro gid
      rw [lookup_copyIn, hLookup]
  | move shard gid =>
      apply addConfig_value hConfigs
      intro config config' hValue
      rcases hParts hValue with ⟨hNum, hShards, hLookup⟩
      apply moveShard_value
      unfold Config.value
      simp only [lookup_copyIn, hLookup]
      simp only [Config.copyIn, Config.next, hNum, hShards]
  | query num =>
      simp only [Option.map_some, hConfigs]

theorem applyOpsIn_snoc
    (choices : Nat → Choices)
    (ops : List Op)
    (op : Op) :
    applyOpsIn choices (ops ++ [op]) =
      (applyOpsIn choices ops).bind fun configs =>
        applyOpIn (choices ops.length) configs op := by
  unfold applyOpsIn
  rw [List.zipIdx_append, List.foldlM_append]
  cases ops.zipIdx.foldlM
      (fun configs entry =>
        applyOpIn (choices entry.2) configs entry.1)
      [Config.zero] with
  | none => rfl
  | some configs =>
      simp [List.foldlM_cons, List.foldlM_nil]

/- A replica computes the history of the model. -/
theorem applyOpsIn_value
    (choices : Nat → Choices)
    (ops : List Op) :
    (applyOpsIn choices ops).map values =
      (applyOps ops).map values := by
  induction ops using List.reverseRecOn with
  | nil => rfl
  | append_singleton ops op ih =>
      rw [applyOpsIn_snoc, applyOps_snoc]
      cases hRun : applyOpsIn choices ops with
      | none =>
          rw [hRun, Option.map_none] at ih
          rw [Option.map_eq_none_iff.mp ih.symm]
          rfl
      | some configs =>
          rw [hRun, Option.map_some] at ih
          rcases Option.map_eq_some_iff.mp ih.symm with
            ⟨configs', hRun', hValues⟩
          rw [hRun', Option.bind_some, Option.bind_some]
          exact applyOpIn_value _ hValues.symm op

/-
  Two replicas that apply the same operations compute the
  same configurations, whatever orders and sorts they use.
-/
theorem configs_independent_of_order
    (choices choices' : Nat → Choices)
    (ops : List Op) :
    (applyOpsIn choices ops).map values =
      (applyOpsIn choices' ops).map values := by
  rw [applyOpsIn_value, applyOpsIn_value]

/- A range loop that visits the keys as they are stored. -/
def Enumeration.forward : Enumeration where
  order := AList.keys
  perm := fun _ => List.Perm.refl _

def Enumeration.backward : Enumeration where
  order := fun groups => groups.keys.reverse
  perm := fun groups => groups.keys.reverse_perm

def SliceSort.insertion : SliceSort where
  sort := fun GSs => GSs.insertionSort
    fun x y => x.gid ≤ y.gid
  perm := List.perm_insertionSort _
  sorted := insertionSort_sorted

def Choices.along (order : Enumeration) : Choices where
  copyOrder := order
  joinOrder := order
  groupOrder := order
  sortSlice := SliceSort.insertion

/- The shards of the last configuration, in both orders. -/
example :
    let last := fun order : Enumeration =>
      (applyOpsIn (fun _ => Choices.along order)
        (movedAway.take 3)).bind fun configs =>
          configs.getLast?.map fun config =>
            (List.finRange NShards).map config.shards
    last Enumeration.forward = last Enumeration.backward ∧
      last Enumeration.forward =
        some [9, 1, 1, 1, 1, 2, 2, 2, 2, 2] := by
  decide +kernel

end Shardctrler

end RaftLab
