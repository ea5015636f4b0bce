import Mathlib.Data.Int.LeastGreatest
import Mathlib.Data.Finset.Max
import RaftLab.Raft.IndexSafety

/-
  What one pass of commitCheck finds.

  The loop of commitCheck looks at one position after the
  other as long as a majority has it, and stops there or one
  position behind the log. So it finds the largest position
  that a majority has, if that lies after the commit index
  and in the log, and nothing otherwise. Positions below the
  base may lie far behind, and `matchIndex` may lie beyond
  the log. An int of the source is taken as unbounded: the
  loop is not followed to where N++ would overflow.

  Main declarations:
    * `Raft.MajorityMatch`, `Raft.exists_majorityMatch`
    * `Raft.commitSearch_eq`
    * `Raft.commitTarget_eq_some_iff`
    * `Raft.commit_search_exact`
-/

------------------------------------------------------------
-- What A Majority Has
------------------------------------------------------------

namespace RaftLab

variable {C : Type} {n : Nat}

namespace Raft

variable {rf : Raft C n}
variable {first : LogEntry C}
variable {rest : List (LogEntry C)}
variable {M : Int}

/- The largest `N` that a majority of `matchIndex` reaches. -/
def MajorityMatch (rf : Raft C n) (M : Int) : Prop :=
  IsGreatest {N | n / 2 + 1 ≤ rf.matchCount N} M

theorem matchCount_anti
    (rf : Raft C n)
    {N N' : Int}
    (hLe : N ≤ N') :
    rf.matchCount N' ≤ rf.matchCount N := by
  unfold matchCount
  apply Finset.card_le_card
  intro i hMem
  rw [Finset.mem_filter] at hMem ⊢
  exact ⟨hMem.1, le_trans hLe hMem.2⟩

theorem MajorityMatch.reached_iff
    (hM : rf.MajorityMatch M)
    (N : Int) :
    n / 2 + 1 ≤ rf.matchCount N ↔ N ≤ M := by
  constructor
  · intro hReached
    exact hM.2 hReached
  · intro hLe
    exact le_trans hM.1 (rf.matchCount_anti hLe)

/- There is such a position, as there are peers. -/
theorem exists_majorityMatch (rf : Raft C n) :
    ∃ M, rf.MajorityMatch M := by
  have hPeers : 0 < n := rf.me.pos
  have hNonempty : (Finset.univ : Finset (Fin n)).Nonempty :=
    ⟨rf.me, Finset.mem_univ _⟩
  rcases Finset.exists_max_image Finset.univ rf.matchIndex
    hNonempty with ⟨high, _, hHigh⟩
  rcases Finset.exists_min_image Finset.univ rf.matchIndex
    hNonempty with ⟨low, _, hLow⟩
  have hBounded : ∀ N : Int,
      n / 2 + 1 ≤ rf.matchCount N →
        N ≤ rf.matchIndex high := by
    intro N hReached
    have hSome : 0 < rf.matchCount N := by omega
    rcases Finset.card_pos.mp hSome with ⟨i, hMem⟩
    exact le_trans (Finset.mem_filter.mp hMem).2
      (hHigh i (Finset.mem_univ i))
  have hReached :
      n / 2 + 1 ≤ rf.matchCount (rf.matchIndex low) := by
    unfold matchCount
    rw [Finset.filter_true_of_mem hLow, Finset.card_univ,
      Fintype.card_fin]
    omega
  rcases Int.exists_greatest_of_bdd ⟨_, hBounded⟩
    ⟨_, hReached⟩ with ⟨M, hM, hGreatest⟩
  exact ⟨M, hM, hGreatest⟩

------------------------------------------------------------
-- The Loop
------------------------------------------------------------

/- The loop after an iteration that found something. -/
theorem commitSearch_found
    (hM : rf.MajorityMatch M)
    {len found : Int}
    {fuel : Nat}
    (hLe : found ≤ min M len)
    (hFuel : min M len - found < fuel) :
    rf.commitSearch len fuel (found + 1) found true =
      (min M len, true) := by
  induction fuel generalizing found with
  | zero => omega
  | succ fuel ih =>
      unfold commitSearch
      split
      · split
        · next hReached =>
            have hNext := (hM.reached_iff _).mp hReached
            exact ih (by omega) (by omega)
        · next hReached =>
            have hNext := mt (hM.reached_iff _).mpr hReached
            rw [Prod.mk.injEq]
            exact ⟨by omega, rfl⟩
      · rw [Prod.mk.injEq]
        exact ⟨by omega, rfl⟩

/- The loop from the commit index on; it has ended. -/
theorem commitSearch_eq
    (hM : rf.MajorityMatch M)
    {len : Int}
    {fuel : Nat}
    (hFuel : len - rf.commitIndex < fuel) :
    rf.commitSearch len fuel (rf.commitIndex + 1)
        (rf.commitIndex + 1) false =
      if rf.commitIndex < M ∧ rf.commitIndex + 1 < len then
        (min M len, true)
      else
        (rf.commitIndex + 1, false) := by
  cases fuel with
  | zero =>
      rw [if_neg (by omega)]
      rfl
  | succ fuel =>
      unfold commitSearch
      by_cases hInside : rf.commitIndex + 1 < len
      · rw [if_pos hInside]
        split
        · next hReached =>
            have hNext := (hM.reached_iff _).mp hReached
            rw [if_pos ⟨by omega, hInside⟩]
            exact commitSearch_found hM (by omega) (by omega)
        · next hReached =>
            have hNext := mt (hM.reached_iff _).mpr hReached
            rw [if_neg (by omega)]
      · rw [if_neg hInside, if_neg (by omega)]

------------------------------------------------------------
-- The Pass
------------------------------------------------------------

/-
  The position is in a snapshot, or its entry is of the
  current term.
-/
def InSnapshotOrTerm
    (rf : Raft C n)
    (M : Int) : Prop :=
  ∃ l, rf.localIndex M = some l ∧
    (l < 0 ∨
      ∃ e, rf.logAt l = some e ∧ e.term = rf.currentTerm)

theorem commitAllowed_iff
    (hLog : rf.log = first :: rest)
    {N : Int}
    (hInside : N < rf.log.length + first.index) :
    rf.commitAllowed (rf.log.length + first.index) N true =
        some true ↔
      rf.InSnapshotOrTerm N := by
  unfold commitAllowed InSnapshotOrTerm
  rw [localIndex_of_log hLog]
  simp only [Option.bind_eq_bind, Option.bind_some,
    Bool.true_eq_false, if_false, Option.some.injEq]
  constructor
  · intro hAllowed
    refine ⟨_, rfl, ?_⟩
    split at hAllowed
    · next hBelow => exact Or.inl hBelow
    · rcases hasTermAt_eq_some_iff.mp hAllowed with
        ⟨e, hEntry, hTerm⟩
      exact Or.inr ⟨e, hEntry, of_decide_eq_true hTerm⟩
  · rintro ⟨l, rfl, hBelow | ⟨e, hEntry, hTerm⟩⟩
    · rw [if_pos hBelow]
      rfl
    · rw [if_neg, if_pos hInside]
      · exact hasTermAt_eq_some_iff.mpr
          ⟨e, hEntry, decide_eq_true hTerm⟩
      · have hRange := (GoSlice.at?_eq_some_iff.mp hEntry).1
        omega

/- Nothing was found, or it lies behind the log. -/
theorem commitAllowed_eq_false
    (hLog : rf.log = first :: rest)
    {N : Int}
    {changed : Bool}
    (hNone : changed = false ∨
      N = rf.log.length + first.index) :
    rf.commitAllowed (rf.log.length + first.index) N changed =
      some false := by
  unfold commitAllowed
  rw [localIndex_of_log hLog]
  simp only [Option.bind_eq_bind, Option.bind_some]
  rcases hNone with rfl | rfl
  · rfl
  · split
    · rfl
    · rw [if_neg (by omega), if_neg (by omega)]
      rfl

/- The commit index that a pass moves to. -/
theorem commitTarget_eq_some_iff
    (hLog : rf.log = first :: rest)
    (hM : rf.MajorityMatch M)
    {N : Int} :
    rf.commitTarget = some (some N) ↔
      N = M ∧ rf.commitIndex < M ∧
        M < rf.log.length + first.index ∧
        rf.InSnapshotOrTerm M := by
  unfold commitTarget
  rw [globalLogLen_of_log hLog]
  simp only [Option.bind_eq_bind, Option.bind_some]
  rw [commitSearch_eq hM (by omega)]
  by_cases hFound : rf.commitIndex < M ∧
      rf.commitIndex + 1 < rf.log.length + first.index
  · rw [if_pos hFound]
    dsimp only
    rcases Int.lt_or_le M (rf.log.length + first.index) with
      hInside | hBehind
    · rw [Int.min_eq_left (by omega)]
      have hAllowed := commitAllowed_iff hLog hInside
      constructor
      · intro hTarget
        rcases Option.bind_eq_some_iff.mp hTarget with
          ⟨allowed, hAllow, hTarget⟩
        split at hTarget
        · next hTrue =>
            cases hTarget
            rw [hTrue] at hAllow
            exact ⟨rfl, hFound.1, hInside,
              hAllowed.mp hAllow⟩
        · cases hTarget
      · rintro ⟨rfl, _, _, hTerm⟩
        rw [hAllowed.mpr hTerm]
        rfl
    · rw [Int.min_eq_right hBehind,
        commitAllowed_eq_false hLog (Or.inr rfl)]
      constructor
      · intro hTarget
        cases hTarget
      · rintro ⟨_, _, hInside, _⟩
        omega
  · rw [if_neg hFound,
      commitAllowed_eq_false hLog (Or.inl rfl)]
    constructor
    · intro hTarget
      cases hTarget
    · rintro ⟨_, hBefore, hInside, _⟩
      exact absurd ⟨hBefore, by omega⟩ hFound

/-
  One pass ends, and moves the commit index to the largest
  position that a majority has, if it lies after the commit
  index and in the log, and is in the snapshot or of the
  current term. Otherwise it changes nothing.
-/
theorem commit_search_exact
    (hLog : rf.log = first :: rest) :
    ∃ M, rf.MajorityMatch M ∧
      (∀ (len : Int) (fuel fuel' : Nat),
        len - rf.commitIndex < fuel →
        len - rf.commitIndex < fuel' →
        rf.commitSearch len fuel (rf.commitIndex + 1)
            (rf.commitIndex + 1) false =
          rf.commitSearch len fuel' (rf.commitIndex + 1)
            (rf.commitIndex + 1) false) ∧
      ∃ rf', rf.commitCheck = some rf' ∧
        rf.commitIndex ≤ rf'.commitIndex ∧
        (rf.commitIndex < M →
          M < rf.log.length + first.index →
          rf.InSnapshotOrTerm M →
            rf' = { rf with commitIndex := M }) ∧
        (¬ (rf.commitIndex < M ∧
            M < rf.log.length + first.index ∧
            rf.InSnapshotOrTerm M) →
          rf' = rf) := by
  rcases rf.exists_majorityMatch with ⟨M, hM⟩
  have hTarget := fun {N} =>
    commitTarget_eq_some_iff (N := N) hLog hM
  refine ⟨M, hM, ?_, ?_⟩
  · intro len fuel fuel' hFuel hFuel'
    rw [commitSearch_eq hM hFuel, commitSearch_eq hM hFuel']
  · rcases commitCheck_isSome hLog with ⟨rf', hCheck⟩
    refine ⟨rf', hCheck, ?_⟩
    rcases commitCheck_cases hCheck with
      ⟨rfl, hNone⟩ | ⟨N, hFound, rfl⟩
    · refine ⟨le_refl _, ?_, fun _ => rfl⟩
      intro hAfter hInside hTerm
      have hSame := hNone M
        (hTarget.mpr ⟨rfl, hAfter, hInside, hTerm⟩)
      omega
    · rcases hTarget.mp hFound with ⟨rfl, hAfter, hRest⟩
      refine ⟨le_of_lt hAfter, fun _ _ _ => rfl, ?_⟩
      intro hNot
      exact absurd ⟨hAfter, hRest⟩ hNot

/- A leader whose second entry two of three servers have. -/
def countedByTwo (me : Fin 3) : Raft Nat 3 :=
  { Raft.fresh me Persister.makePersister with
    state := .leader
    log :=
      [{ term := 1, type := .noop, index := 0,
         command := none },
        { term := 1, type := .normal, index := 1,
          command := some 7 }]
    matchIndex := fun i => if i = Fin.last 2 then 0 else 1 }

theorem commit_search_exact_two :
    ∃ rf', (countedByTwo 0).commitCheck = some rf' ∧
      (countedByTwo 0).commitIndex < rf'.commitIndex ∧
      rf'.commitIndex = 1 := by
  have hLog : (countedByTwo 0).log = _ :: _ := rfl
  rcases commit_search_exact hLog with
    ⟨M, _, _, rf', hCheck, _⟩
  have hIndex : ((countedByTwo 0).commitCheck.map
      (fun rf => rf.commitIndex)) = some 1 := by
    decide
  rw [hCheck, Option.map_some, Option.some.injEq] at hIndex
  refine ⟨rf', hCheck, ?_, hIndex⟩
  rw [hIndex]
  decide

end Raft

end RaftLab
