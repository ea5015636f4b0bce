import Mathlib.Algebra.Order.BigOperators.Group.List
import Mathlib.Algebra.Order.Ring.Nat
import Mathlib.Data.List.AList
import Mathlib.Data.List.Sort
import Mathlib.Data.Fintype.Pi
import Mathlib.Tactic.Linarith

/-
  Configurations of the shard controller and the rebalancing
  of shards over groups (src/shardctrler/common.go and
  rebalance in src/shardctrler/server.go).

  A Go map from gids to servers is an association list with
  distinct keys, whose order is the order in which `range`
  visits the keys. A panic is `none`. The conversion to
  sort.IntSlice in rebalance sorts nothing and is left out.

  Main declarations:
    * `Shardctrler.Config`
    * `Shardctrler.Balance`, `Shardctrler.Balance.step`
    * `Shardctrler.rebalance`, `Shardctrler.rebalance_isSome`
-/

------------------------------------------------------------
-- Configurations
------------------------------------------------------------

namespace RaftLab

namespace Shardctrler

/- The number of shards. -/
def NShards : Nat := 10

abbrev Shard : Type := Fin NShards

/- gid -> servers[] -/
abbrev Groups : Type := AList fun _ : Int => List String

structure Config where
  num : Int
  shards : Shard → Int
  groups : Groups
deriving DecidableEq

/- Config #0: no groups, all shards assigned to gid 0. -/
def Config.zero : Config where
  num := 0
  shards := fun _ => 0
  groups := ∅

------------------------------------------------------------
-- Gids And Their Shards
------------------------------------------------------------

/- Gid and Shards -/
structure GS where
  gid : Int
  shards : List Shard
deriving DecidableEq

/- GSs[gid2Index[gid]].Shards -/
def shardsOf (GSs : List GS) (gid : Int) : List Shard :=
  match GSs.find? fun gs => gs.gid = gid with
  | some gs => gs.shards
  | none => []

/- GSs[gid2Index[gid]].Shards = shards -/
def setShards
    (GSs : List GS)
    (gid : Int)
    (shards : List Shard) : List GS :=
  GSs.map fun gs =>
    if gs.gid = gid then { gs with shards := shards } else gs

/- The two slices that the loop of rebalance works on. -/
structure Balance where
  GSs : List GS
  orphanShards : List Shard
deriving DecidableEq

/-
  One shard of the old configuration: an orphan if its gid is
  0 or gone, otherwise kept by its gid.
-/
def Balance.addOld
    (oldConfig : Config)
    (b : Balance)
    (shardNum : Shard) : Balance :=
  let gid := oldConfig.shards shardNum
  if gid = 0 ∨ gid ∉ b.GSs.map GS.gid then
    { b with orphanShards := b.orphanShards ++ [shardNum] }
  else
    { b with
      GSs := setShards b.GSs gid
        (shardsOf b.GSs gid ++ [shardNum]) }

/- The slices before the loop, with GSs sorted by gid. -/
def Balance.start (oldConfig newConfig : Config) : Balance :=
  let empty : Balance := {
    GSs := newConfig.groups.keys.map fun gid => {
      gid := gid
      shards := [] }
    orphanShards := [] }
  let b := (List.finRange NShards).foldl
    (Balance.addOld oldConfig) empty
  { b with
    GSs := b.GSs.insertionSort fun x y => x.gid ≤ y.gid }

------------------------------------------------------------
-- The Loop Of rebalance
------------------------------------------------------------

structure Extremes where
  minShardsNum : Nat
  minGid : Int
  maxShardsNum : Nat
  maxGid : Int
deriving DecidableEq

/- One iteration of the walk over GSs, with its two tests. -/
def Extremes.visit (e : Extremes) (gs : GS) : Extremes where
  minShardsNum :=
    if gs.shards.length ≤ e.minShardsNum then
      gs.shards.length
    else e.minShardsNum
  minGid :=
    if gs.shards.length ≤ e.minShardsNum then gs.gid
    else e.minGid
  maxShardsNum :=
    if e.maxShardsNum ≤ gs.shards.length then
      gs.shards.length
    else e.maxShardsNum
  maxGid :=
    if e.maxShardsNum ≤ gs.shards.length then gs.gid
    else e.maxGid

/- The last gids with the fewest and with the most shards. -/
def extremes (GSs : List GS) : Extremes :=
  GSs.foldl Extremes.visit {
    minShardsNum := 10000000000
    minGid := 0
    maxShardsNum := 0
    maxGid := 0 }

/- The stop condition. -/
def Balance.stop (b : Balance) : Bool :=
  let e := extremes b.GSs
  decide ((e.maxShardsNum : Int) - e.minShardsNum ≤ 1) &&
    b.orphanShards.isEmpty

/-
  One iteration that does not stop: give the last orphan, or
  else the last shard of the largest gid, to the smallest.
-/
def Balance.step (b : Balance) : Option Balance :=
  let e := extremes b.GSs
  let minShards := shardsOf b.GSs e.minGid
  let maxShards := shardsOf b.GSs e.maxGid
  match b.orphanShards.getLast? with
  | some orphan =>
      some {
        GSs := setShards b.GSs e.minGid
          (minShards ++ [orphan])
        orphanShards := b.orphanShards.dropLast }
  | none =>
      match maxShards.getLast? with
      | some movedShard =>
          some { b with
            GSs := setShards
              (setShards b.GSs e.minGid
                (minShards ++ [movedShard]))
              e.maxGid maxShards.dropLast }
      | none => none

/- The loop, for at most `fuel` iterations. -/
def Balance.loop : Nat → Balance → Option Balance
| 0, _ => none
| fuel + 1, b =>
    if b.stop then
      some b
    else
      b.step.bind (Balance.loop fuel)

/- All shards on the two slices. -/
def Balance.total (b : Balance) : Nat :=
  b.orphanShards.length +
    (b.GSs.map fun gs => gs.shards.length).sum

/-
  How far the gids are from holding every shard, squared:
  every iteration lowers it.
-/
def Balance.spread (b : Balance) : Nat :=
  (b.GSs.map fun gs =>
    (b.total - gs.shards.length) ^ 2).sum

/- newShards -/
def newShards (GSs : List GS) : Shard → Int :=
  GSs.foldl
    (fun shards gs =>
      gs.shards.foldl
        (fun shards shard =>
          Function.update shards shard gs.gid)
        shards)
    fun _ => 0

def rebalance (oldConfig newConfig : Config) :
    Option Config :=
  if newConfig.groups.keys = [] then
    some { newConfig with shards := fun _ => 0 }
  else
    let b := Balance.start oldConfig newConfig
    (b.loop (b.spread + 1)).map fun b =>
      { newConfig with shards := newShards b.GSs }

------------------------------------------------------------
-- Reading And Writing One Gid
------------------------------------------------------------

theorem setShards_gids
    (GSs : List GS)
    (gid : Int)
    (shards : List Shard) :
    (setShards GSs gid shards).map GS.gid =
      GSs.map GS.gid := by
  unfold setShards
  rw [List.map_map]
  apply List.map_congr_left
  intro gs _
  by_cases hGid : gs.gid = gid
  · simp [hGid]
  · simp [hGid]

/- Writes for another gid keep an element. -/
theorem mem_setShards_of_ne
    {GSs : List GS}
    {gs : GS}
    {gid : Int}
    (hMem : gs ∈ GSs)
    (hNe : gs.gid ≠ gid)
    (shards : List Shard) :
    gs ∈ setShards GSs gid shards := by
  unfold setShards
  apply List.mem_map.mpr
  exact ⟨gs, hMem, if_neg hNe⟩

theorem shardsOf_eq
    {GSs : List GS}
    (hNodup : (GSs.map GS.gid).Nodup)
    {gs : GS}
    (hMem : gs ∈ GSs) :
    shardsOf GSs gs.gid = gs.shards := by
  unfold shardsOf
  cases hFind : GSs.find? fun x => x.gid = gs.gid with
  | none =>
      have hNone := List.find?_eq_none.mp hFind gs hMem
      simp at hNone
  | some found =>
      have hGid : found.gid = gs.gid := by
        simpa using List.find?_some hFind
      have hSame : found = gs :=
        List.inj_on_of_nodup_map hNodup
          (List.mem_of_find?_eq_some hFind) hMem hGid
      rw [hSame]

/- A write changes one summand of a sum over the gids. -/
theorem sum_setShards
    (f : GS → Nat)
    {GSs : List GS}
    (hNodup : (GSs.map GS.gid).Nodup)
    {gs : GS}
    (hMem : gs ∈ GSs)
    (shards : List Shard) :
    ((setShards GSs gs.gid shards).map f).sum + f gs =
      (GSs.map f).sum + f { gs with shards := shards } := by
  induction GSs with
  | nil => cases hMem
  | cons x GSs ih =>
      rw [List.map_cons, List.nodup_cons] at hNodup
      rcases hNodup with ⟨hFresh, hNodup⟩
      rcases List.mem_cons.mp hMem with hEq | hMem
      · subst hEq
        -- No later element has the gid that is written.
        have hRest : setShards GSs gs.gid shards = GSs := by
          conv_rhs => rw [← List.map_id GSs]
          apply List.map_congr_left
          intro y hY
          apply if_neg
          intro hGid
          apply hFresh
          rw [← hGid]
          exact List.mem_map_of_mem hY
        have hCons :
            setShards (gs :: GSs) gs.gid shards =
              { gs with shards := shards } ::
                setShards GSs gs.gid shards := by
          simp [setShards]
        rw [hCons, hRest]
        simp only [List.map_cons, List.sum_cons]
        omega
      · have hNe : x.gid ≠ gs.gid := by
          intro hGid
          apply hFresh
          rw [hGid]
          exact List.mem_map_of_mem hMem
        have hCons :
            setShards (x :: GSs) gs.gid shards =
              x :: setShards GSs gs.gid shards := by
          simp [setShards, hNe]
        have hIH := ih hNodup hMem
        rw [hCons]
        simp only [List.map_cons, List.sum_cons]
        omega

------------------------------------------------------------
-- The Loop Ends
------------------------------------------------------------

/- What the walk over GSs finds. -/
structure Extremes.Of (e : Extremes) (GSs : List GS) :
    Prop where
  min_mem : ∃ gs ∈ GSs,
    gs.gid = e.minGid ∧ gs.shards.length = e.minShardsNum
  max_mem : ∃ gs ∈ GSs,
    gs.gid = e.maxGid ∧ gs.shards.length = e.maxShardsNum
  min_le : ∀ gs ∈ GSs, e.minShardsNum ≤ gs.shards.length
  le_max : ∀ gs ∈ GSs, gs.shards.length ≤ e.maxShardsNum

theorem Extremes.Of.visit
    {e : Extremes}
    {GSs : List GS}
    (hOf : e.Of GSs)
    (gs : GS) :
    (e.visit gs).Of (GSs ++ [gs]) := by
  rcases hOf with ⟨⟨x, hX, hXGid, hXLen⟩,
    ⟨y, hY, hYGid, hYLen⟩, hMin, hMax⟩
  have hLast : gs ∈ GSs ++ [gs] := by simp
  have hOld : ∀ z ∈ GSs, z ∈ GSs ++ [gs] := by
    intro z hZ
    exact List.mem_append_left _ hZ
  unfold Extremes.visit
  constructor
  · by_cases hLow : gs.shards.length ≤ e.minShardsNum
    · exact ⟨gs, hLast, by simp [hLow]⟩
    · exact ⟨x, hOld x hX, by simp [hLow, hXGid, hXLen]⟩
  · by_cases hHigh : e.maxShardsNum ≤ gs.shards.length
    · exact ⟨gs, hLast, by simp [hHigh]⟩
    · exact ⟨y, hOld y hY, by simp [hHigh, hYGid, hYLen]⟩
  · intro z hZ
    rcases List.mem_append.mp hZ with hZ | hZ
    · have hBound := hMin z hZ
      dsimp only
      split <;> omega
    · rw [List.mem_singleton.mp hZ]
      dsimp only
      split <;> omega
  · intro z hZ
    rcases List.mem_append.mp hZ with hZ | hZ
    · have hBound := hMax z hZ
      dsimp only
      split <;> omega
    · rw [List.mem_singleton.mp hZ]
      dsimp only
      split <;> omega

/- The walk finds the smallest and the largest gid. -/
theorem extremes_of
    {GSs : List GS}
    (hNonempty : GSs ≠ [])
    (hSmall : ∀ gs ∈ GSs,
      gs.shards.length ≤ 10000000000) :
    (extremes GSs).Of GSs := by
  induction GSs using List.reverseRecOn with
  | nil => exact absurd rfl hNonempty
  | append_singleton GSs gs ih =>
      have hFold :
          extremes (GSs ++ [gs]) =
            (extremes GSs).visit gs := by
        unfold extremes
        rw [List.foldl_append]
        rfl
      rw [hFold]
      by_cases hEmpty : GSs = []
      · subst hEmpty
        have hLen := hSmall gs (by simp)
        constructor <;>
          simp [extremes, Extremes.visit, hLen]
      · apply Extremes.Of.visit
        apply ih hEmpty
        intro x hX
        exact hSmall x (List.mem_append_left _ hX)

/-
  The slices of the loop: there is a gid, gids are distinct,
  and every shard is somewhere.
-/
structure Balance.Full (b : Balance) : Prop where
  nonempty : b.GSs ≠ []
  nodup : (b.GSs.map GS.gid).Nodup
  total_eq : b.total = NShards

theorem Balance.length_le_total
    {b : Balance}
    {gs : GS}
    (hMem : gs ∈ b.GSs) :
    b.orphanShards.length + gs.shards.length ≤ b.total := by
  have hLen :
      gs.shards.length ∈
        b.GSs.map fun gs => gs.shards.length :=
    List.mem_map.mpr ⟨gs, hMem, rfl⟩
  have hLe := List.le_sum_of_mem hLen
  unfold Balance.total
  omega

theorem Balance.Full.extremes_of
    {b : Balance}
    (hFull : b.Full) :
    (extremes b.GSs).Of b.GSs := by
  apply Shardctrler.extremes_of hFull.nonempty
  intro gs hMem
  have hLe := Balance.length_le_total hMem
  rw [hFull.total_eq] at hLe
  unfold NShards at hLe
  omega

theorem Balance.Full.of_write
    {b b' : Balance}
    (hFull : b.Full)
    (hGids : b'.GSs.map GS.gid = b.GSs.map GS.gid)
    (hTotal : b'.total = b.total) :
    b'.Full where
  nonempty := by
    intro hNil
    apply hFull.nonempty
    rw [hNil] at hGids
    exact List.map_eq_nil_iff.mp hGids.symm
  nodup := by
    rw [hGids]
    exact hFull.nodup
  total_eq := by
    rw [hTotal]
    exact hFull.total_eq

/- The same for a summand that only counts the shards. -/
theorem Balance.sum_length_setShards
    {GSs : List GS}
    (hNodup : (GSs.map GS.gid).Nodup)
    {gs : GS}
    (hMem : gs ∈ GSs)
    (shards : List Shard)
    (g : Nat → Nat) :
    ((setShards GSs gs.gid shards).map
        fun gs => g gs.shards.length).sum +
      g gs.shards.length =
    (GSs.map fun gs => g gs.shards.length).sum +
      g shards.length :=
  sum_setShards (fun gs => g gs.shards.length) hNodup hMem
    shards

/- Giving an orphan away lowers the spread. -/
theorem Balance.step_orphan
    {b : Balance}
    (hFull : b.Full)
    {orphan : Shard}
    (hLast : b.orphanShards.getLast? = some orphan) :
    ∃ b',
      b.step = some b' ∧
      b'.Full ∧
      b'.spread < b.spread := by
  rcases hFull.extremes_of.min_mem with
    ⟨gs, hMem, hGid, _⟩
  have hLe := Balance.length_le_total hMem
  have hOrphans : b.orphanShards ≠ [] := by
    intro hNil
    rw [hNil] at hLast
    cases hLast
  have hPos := List.length_pos_iff.mpr hOrphans
  let b' : Balance := {
    GSs := setShards b.GSs gs.gid (gs.shards ++ [orphan])
    orphanShards := b.orphanShards.dropLast }
  have hStep : b.step = some b' := by
    simp only [Balance.step, hLast, ← hGid,
      shardsOf_eq hFull.nodup hMem, b']
  have hSum := sum_length_setShards hFull.nodup hMem
    (gs.shards ++ [orphan])
  have hTotal : b'.total = b.total := by
    have hLen := hSum id
    simp only [id, List.length_append,
      List.length_singleton] at hLen
    simp only [Balance.total, List.length_dropLast, b']
    omega
  refine ⟨b', hStep, ?_, ?_⟩
  · exact hFull.of_write (setShards_gids _ _ _) hTotal
  · have hSquares := hSum fun n => (b.total - n) ^ 2
    have hLower :
        (b.total - (gs.shards.length + 1)) ^ 2 <
          (b.total - gs.shards.length) ^ 2 := by
      apply Nat.pow_lt_pow_left
      · omega
      · decide
    simp only [List.length_append, List.length_singleton]
      at hSquares
    have hGSs : b'.GSs = setShards b.GSs gs.gid
      (gs.shards ++ [orphan]) := rfl
    unfold Balance.spread
    rw [hTotal, hGSs]
    omega

theorem squares_move_lt
    (total low high : Nat)
    (hUneven : low + 1 < high)
    (hHigh : high ≤ total) :
    (total - (low + 1)) ^ 2 + (total - (high - 1)) ^ 2 <
      (total - low) ^ 2 + (total - high) ^ 2 := by
  rcases Nat.exists_eq_add_of_le hHigh with ⟨y, rfl⟩
  rcases Nat.exists_eq_add_of_lt hUneven with ⟨k, rfl⟩
  have h₁ : low + 1 + k + 1 + y - (low + 1) = k + 1 + y := by
    omega
  have h₂ :
      low + 1 + k + 1 + y - (low + 1 + k + 1 - 1) =
        y + 1 := by
    omega
  have h₃ : low + 1 + k + 1 + y - low = k + 2 + y := by
    omega
  have h₄ :
      low + 1 + k + 1 + y - (low + 1 + k + 1) = y := by
    omega
  rw [h₁, h₂, h₃, h₄]
  nlinarith

/- Moving a shard to the smallest gid lowers the spread. -/
theorem Balance.step_move
    {b : Balance}
    (hFull : b.Full)
    (hNone : b.orphanShards.getLast? = none)
    (hUneven : (extremes b.GSs).minShardsNum + 1 <
      (extremes b.GSs).maxShardsNum) :
    ∃ b',
      b.step = some b' ∧
      b'.Full ∧
      b'.spread < b.spread := by
  rcases hFull.extremes_of.min_mem with
    ⟨low, hLow, hLowGid, hLowLen⟩
  rcases hFull.extremes_of.max_mem with
    ⟨high, hHigh, hHighGid, hHighLen⟩
  have hLowLe := Balance.length_le_total hLow
  have hHighLe := Balance.length_le_total hHigh
  have hNe : high.gid ≠ low.gid := by
    intro hGid
    have hSame : high = low :=
      List.inj_on_of_nodup_map hFull.nodup hHigh hLow hGid
    rw [hSame] at hHighLen
    omega
  cases hMoved : high.shards.getLast? with
  | none =>
      rw [List.getLast?_eq_none_iff.mp hMoved] at hHighLen
      simp at hHighLen
      omega
  | some movedShard =>
      let given := setShards b.GSs low.gid
        (low.shards ++ [movedShard])
      let b' : Balance := { b with
        GSs := setShards given high.gid
          high.shards.dropLast }
      have hStep : b.step = some b' := by
        simp only [Balance.step, hNone, ← hLowGid,
          ← hHighGid, shardsOf_eq hFull.nodup hLow,
          shardsOf_eq hFull.nodup hHigh, hMoved, b', given]
      have hGivenGids :
          given.map GS.gid = b.GSs.map GS.gid :=
        setShards_gids _ _ _
      have hGivenNodup : (given.map GS.gid).Nodup := by
        rw [hGivenGids]
        exact hFull.nodup
      have hGiven := sum_length_setShards hFull.nodup hLow
        (low.shards ++ [movedShard])
      have hTaken := sum_length_setShards hGivenNodup
        (mem_setShards_of_ne hHigh hNe _)
        high.shards.dropLast
      have hTotal : b'.total = b.total := by
        have hGivenLen := hGiven id
        have hTakenLen := hTaken id
        simp only [id, List.length_append,
          List.length_singleton] at hGivenLen
        simp only [id, List.length_dropLast] at hTakenLen
        simp only [Balance.total, b', given] at *
        omega
      refine ⟨b', hStep, ?_, ?_⟩
      · apply hFull.of_write _ hTotal
        exact (setShards_gids _ _ _).trans hGivenGids
      · have hGivenSq := hGiven fun n => (b.total - n) ^ 2
        have hTakenSq := hTaken fun n => (b.total - n) ^ 2
        simp only [List.length_append,
          List.length_singleton] at hGivenSq
        simp only [List.length_dropLast] at hTakenSq
        have hLower := squares_move_lt b.total
          low.shards.length high.shards.length
          (by omega) (by omega)
        have hGSs : b'.GSs = setShards given high.gid
          high.shards.dropLast := rfl
        unfold Balance.spread
        rw [hTotal, hGSs]
        simp only [given] at *
        omega

/- An iteration that does not stop lowers the spread. -/
theorem Balance.step_spread
    {b : Balance}
    (hFull : b.Full)
    (hStop : b.stop = false) :
    ∃ b',
      b.step = some b' ∧
      b'.Full ∧
      b'.spread < b.spread := by
  cases hLast : b.orphanShards.getLast? with
  | some orphan => exact Balance.step_orphan hFull hLast
  | none =>
      apply Balance.step_move hFull hLast
      have hEmpty : b.orphanShards.isEmpty = true := by
        rw [List.getLast?_eq_none_iff.mp hLast]
        rfl
      unfold Balance.stop at hStop
      rw [hEmpty, Bool.and_true, decide_eq_false_iff_not]
        at hStop
      omega

theorem Balance.loop_isSome
    {fuel : Nat}
    {b : Balance}
    (hFull : b.Full)
    (hFuel : b.spread < fuel) :
    ∃ b', b.loop fuel = some b' ∧ b'.Full := by
  induction fuel generalizing b with
  | zero => omega
  | succ fuel ih =>
      unfold Balance.loop
      cases hStop : b.stop with
      | true => exact ⟨b, rfl, hFull⟩
      | false =>
          rcases Balance.step_spread hFull hStop with
            ⟨b', hStep, hFull', hLower⟩
          rw [hStep]
          exact ih hFull' (by omega)

------------------------------------------------------------
-- The Slices Before The Loop
------------------------------------------------------------

/- Every shard of the old configuration is put somewhere. -/
theorem Balance.addOld_total
    (oldConfig : Config)
    {b : Balance}
    (hNodup : (b.GSs.map GS.gid).Nodup)
    (shardNum : Shard) :
    (b.addOld oldConfig shardNum).GSs.map GS.gid =
        b.GSs.map GS.gid ∧
      (b.addOld oldConfig shardNum).total =
        b.total + 1 := by
  unfold Balance.addOld
  dsimp only
  split
  · constructor
    · rfl
    · simp only [Balance.total, List.length_append,
        List.length_singleton]
      omega
  · next hKept =>
      rw [not_or, not_not] at hKept
      rcases List.mem_map.mp hKept.2 with ⟨gs, hMem, hGid⟩
      have hSum := sum_length_setShards hNodup hMem
        (gs.shards ++ [shardNum]) id
      constructor
      · exact setShards_gids _ _ _
      · rw [← hGid, shardsOf_eq hNodup hMem]
        simp only [id, List.length_append,
          List.length_singleton] at hSum
        simp only [Balance.total]
        omega

theorem Balance.foldl_addOld_total
    (oldConfig : Config)
    (shards : List Shard)
    {b : Balance}
    (hNodup : (b.GSs.map GS.gid).Nodup) :
    (shards.foldl (Balance.addOld oldConfig) b).GSs.map
        GS.gid = b.GSs.map GS.gid ∧
      (shards.foldl (Balance.addOld oldConfig) b).total =
        b.total + shards.length := by
  induction shards generalizing b with
  | nil => exact ⟨rfl, rfl⟩
  | cons shard shards ih =>
      rcases Balance.addOld_total oldConfig hNodup shard with
        ⟨hGids, hTotal⟩
      have hNodup' :
          ((b.addOld oldConfig shard).GSs.map
            GS.gid).Nodup := by
        rw [hGids]
        exact hNodup
      rcases ih hNodup' with ⟨hGids', hTotal'⟩
      rw [List.foldl_cons, List.length_cons]
      constructor
      · exact hGids'.trans hGids
      · omega

theorem Balance.start_full
    {newConfig : Config}
    (oldConfig : Config)
    (hGroups : newConfig.groups.keys ≠ []) :
    (Balance.start oldConfig newConfig).Full := by
  let empty : Balance := {
    GSs := newConfig.groups.keys.map fun gid => {
      gid := gid
      shards := [] }
    orphanShards := [] }
  have hGids :
      empty.GSs.map GS.gid = newConfig.groups.keys := by
    simp [empty, Function.comp_def]
  have hNodup : (empty.GSs.map GS.gid).Nodup := by
    rw [hGids]
    exact newConfig.groups.keys_nodup
  have hTotal : empty.total = 0 := by
    simp [empty, Balance.total, Function.comp_def]
  rcases Balance.foldl_addOld_total oldConfig
    (List.finRange NShards) hNodup with
    ⟨hFilledGids, hFilledTotal⟩
  let filled := (List.finRange NShards).foldl
    (Balance.addOld oldConfig) empty
  have hSorted :
      ((Balance.start oldConfig newConfig).GSs).Perm
        filled.GSs :=
    List.perm_insertionSort _ _
  have hFilled :
      filled.GSs.map GS.gid = newConfig.groups.keys :=
    hFilledGids.trans hGids
  constructor
  · intro hNil
    rw [hNil] at hSorted
    rw [List.nil_perm.mp hSorted] at hFilled
    exact hGroups hFilled.symm
  · rw [(hSorted.map GS.gid).nodup_iff, hFilled]
    exact newConfig.groups.keys_nodup
  · have hSum := (hSorted.map
      fun gs => gs.shards.length).sum_eq
    have hEq : filled.total = NShards := by
      rw [hTotal, List.length_finRange, Nat.zero_add]
        at hFilledTotal
      exact hFilledTotal
    rw [← hEq]
    unfold Balance.total
    rw [hSum]
    rfl

/- rebalance ends, and writes nothing but the shards. -/
theorem rebalance_isSome
    (oldConfig newConfig : Config) :
    ∃ shards,
      rebalance oldConfig newConfig =
        some { newConfig with shards := shards } := by
  unfold rebalance
  split
  · exact ⟨_, rfl⟩
  · next hGroups =>
      have hFull := Balance.start_full oldConfig hGroups
      rcases Balance.loop_isSome hFull
        (Nat.lt_succ_self _) with ⟨b, hLoop, _⟩
      refine ⟨newShards b.GSs, ?_⟩
      simp only
      rw [hLoop]
      rfl

end Shardctrler

end RaftLab
