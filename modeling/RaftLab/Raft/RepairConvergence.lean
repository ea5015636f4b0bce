import RaftLab.Raft.Repair

/-
  When log repair converges.

  The exchange converges except in one position: when the
  first entry the follower has not applied is exactly the
  one the leader has cut its log at, the follower holds it,
  and the leader does not hold the follower's last entry.
  There the leader answers every failed reply with
  `nextIndex = lastApplied + 1`, and `syncEntries` moves
  that index up past its cut again.

  Main declarations:
    * `Raft.RepairStuck`
    * `RepairSetting.converges_of_applied`,
      `RepairSetting.converges_of_snapshot`
    * `RepairSetting.repair_converges_iff`
-/

------------------------------------------------------------
-- Convergence
------------------------------------------------------------

namespace RaftLab

variable {C : Type} {n : Nat}

namespace RepairSetting

variable {leader follower follower' : Raft C n}
variable {full full' : List (LogEntry C)}
variable {b b' a : Nat}
variable {server : Fin n}

theorem nextPosition_update
    {next : Fin n → Int}
    {x : Nat}
    (hLow : b ≤ x)
    (hHigh : x < full.length) :
    nextPosition
      { leader with
        nextIndex := Function.update next server
          ((x : Int) + 1) } server full b = x := by
  unfold nextPosition Raft.prevPosition
  simp only [Function.update_self]
  rw [if_neg (by omega), if_neg (by omega)]
  omega

/- The leader's next request will be accepted. -/
theorem converges_of_accepts
    (hSetting :
      RepairSetting leader follower full full' b b' a)
    (hAccepts :
      Accepts full full' a
        (nextPosition leader server full b)) :
    Raft.RepairConverges server leader follower := by
  rcases hSetting.round_cases rfl rfl with
    ⟨_, leader', follower', hRound, hAgree⟩ | ⟨hNot, _⟩
  · exact .of_success hRound hAgree
  · exact absurd hAccepts hNot

/- The leader holds the follower's last entry. -/
theorem converges_of_match
    (hSetting :
      RepairSetting leader follower full full' b b' a)
    {l : Nat}
    (hl : full'.length - 1 = l)
    (hLow : b ≤ l)
    (hMatch : termAt full l = termAt full' l) :
    Raft.RepairConverges server leader follower := by
  have hHeld := hSetting.follower_cut.lt_length
  have hHigh : l < full.length := by
    rcases exists_termAt
      (show l < full'.length by omega) with ⟨t, ht⟩
    rw [ht] at hMatch
    rcases termAt_eq_some_iff.mp hMatch with ⟨e, hEntry, _⟩
    exact (List.getElem?_eq_some_iff.mp hEntry).1
  rcases hSetting.round_cases rfl hl with
    ⟨_, leader', follower', hRound, hAgree⟩ |
    ⟨hNot, follower', first, hSetting', _, _, hRound⟩
  · exact .of_success hRound hAgree
  · have hNe :
        l ≠ nextPosition leader server full b := by
      intro hEq
      exact hNot (Or.inl ⟨by omega, by rw [← hEq, hMatch]⟩)
    rw [if_pos ⟨hLow, Or.inr ⟨hNe, hMatch⟩⟩] at hRound
    refine .of_again hRound ?_
    apply (hSetting'.of_nextIndex _).converges_of_accepts
    rw [nextPosition_update hLow hHigh]
    exact Or.inl ⟨hl.symm, hMatch⟩

/- The leader has not cut its log above `lastApplied`. -/
theorem converges_of_applied
    (hSetting :
      RepairSetting leader follower full full' b b' a)
    {l : Nat}
    (hl : full'.length - 1 = l)
    (hLow : b ≤ l)
    (hApplied : b ≤ a) :
    Raft.RepairConverges server leader follower := by
  have hHeld := hSetting.follower_cut.lt_length
  have hLt := hSetting.committed_lt
  by_cases hMatch : termAt full l = termAt full' l
  · exact hSetting.converges_of_match hl hLow hMatch
  · have hMore : a < l := by
      by_contra hLess
      exact hMatch
        (hSetting.termAt_eq (by omega) (by omega))
    -- once the leader goes back to `lastApplied`, its fix
    -- package is accepted
    have hFix :
        ∀ {follower' : Raft C n} {next : Fin n → Int},
          RepairSetting leader follower' full full' b b' a →
          Raft.RepairConverges server
            { leader with
              nextIndex := Function.update next server
                ((a : Int) + 1) } follower' := by
      intro follower' next hSetting'
      apply (hSetting'.of_nextIndex _).converges_of_accepts
      have hPosition :
          nextPosition
            { leader with
              nextIndex := Function.update next server
                ((a : Int) + 1) } server full b = a :=
        nextPosition_update hApplied hLt
      rw [hPosition]
      exact Or.inr ⟨rfl, by omega⟩
    rcases hSetting.round_cases rfl hl with
      ⟨_, leader', follower', hRound, hAgree⟩ |
      ⟨_, follower', first, hSetting', _, _, hRound⟩
    · exact .of_success hRound hAgree
    · split at hRound
      · rename_i hBack
        -- the leader goes back to the follower's last entry
        -- first, which is not its own
        have hLess :
            l < nextPosition leader server full b := by
          rcases hBack.2 with hTerm | hSame
          · exact hTerm.2
          · exact absurd hSame.2 hMatch
        have hBound := (Raft.prevPosition_bounds
          hSetting.leader_cut.lt_length
          (leader.nextIndex server)).2
        have hBound' :
            nextPosition leader server full b <
              full.length := hBound
        refine .of_again hRound ?_
        rcases (hSetting'.of_nextIndex
          (Function.update leader.nextIndex server
            ((l : Int) + 1))).round_cases
            (nextPosition_update hLow (by omega)) hl with
          ⟨_, leader', follower'', hRound', hAgree⟩ |
          ⟨_, follower'', first', hSetting'', _, _, hRound'⟩
        · exact .of_success hRound' hAgree
        · rw [if_neg, if_pos ⟨by omega, hLow⟩] at hRound'
          · refine .of_again hRound' (hFix ?_)
            exact hSetting''.of_nextIndex leader.nextIndex
          · rintro ⟨_, hTerm | hSame⟩
            · omega
            · exact hSame.1 rfl
      · rw [if_pos ⟨by omega, hLow⟩] at hRound
        exact .of_again hRound (hFix hSetting')

------------------------------------------------------------
-- Snapshots
------------------------------------------------------------

/-
  A follower whose log ends below the leader's cut, or who
  has not applied what the leader cut off, has an older
  snapshot.
-/
theorem snapshotIndex_lt
    (hSetting :
      RepairSetting leader follower full full' b b' a)
    (hOlder : b' < b) :
    follower.snapshotIndex < leader.snapshotIndex := by
  have hLeader := hSetting.leader_cut
  have hFollower := hSetting.follower_cut
  have hHeld := hFollower.lt_length
  have hLt := hLeader.lt_length
  have hLe := hSetting.cut_le
  rw [hLeader.snapshotIndex, hFollower.snapshotIndex]
  -- the follower's snapshot counts the leader's commands
  have hSame :
      commandCount full' b' = commandCount full b' := by
    apply commandCount_congr
    rcases hSetting.committed with ⟨rest, hRest⟩
    rw [← hRest, List.take_append_of_le_length
      (by rw [List.length_take]; omega), List.take_take,
      Nat.min_eq_left (by omega)]
  rcases hLeader.command with hZero | ⟨cut, hCut, hNormal⟩
  · omega
  have hPred : b - 1 + 1 = b := by omega
  have hCount := commandCount_succ
    (show full[b - 1 + 1]? = some cut by rw [hPred, hCut])
  have hStep :
      (if cut.type ≠ .noop then 1 else 0) = 1 := by
    rw [hNormal]
    rfl
  rw [hPred, hStep] at hCount
  have hMono :=
    commandCount_mono full (show b' ≤ b - 1 by omega)
  omega

/- Installing the snapshot leaves a follower cut at `b`. -/
theorem install_cases
    (hSetting :
      RepairSetting leader follower full full' b b' a)
    (hOlder : b' < b)
    (hTerm : follower.currentTerm = leader.currentTerm)
    {first : LogEntry C}
    (hFirst : leader.logAt 0 = some first) :
    ∃ follower' full'',
      follower.installSnapshot
          (leader.snapshotArgs first) =
        some (follower', { term := leader.currentTerm }) ∧
      RepairSetting leader follower' full full'' b b b := by
  have hLeader := hSetting.leader_cut
  have hFollower := hSetting.follower_cut
  have hLt := hLeader.lt_length
  have hNewer := hSetting.snapshotIndex_lt hOlder
  rcases hLeader.head with
    ⟨first', hLog, hIndex, hCutTerm, _⟩
  have hFirstEq : first' = first := by
    rcases Raft.logAt_zero_eq_some_iff.mp hFirst with
      ⟨rest, hRest⟩
    rw [hLog] at hRest
    exact (List.cons.inj hRest).1
  subst hFirstEq
  -- the setting after the snapshot was installed over a log
  -- that agrees with the leader's up to `b`
  have hInstalled :
      ∀ full'' : List (LogEntry C),
        full.take (b + 1) = full''.take (b + 1) →
        LogMatching full full'' →
        RepairSetting leader
          (follower.installed (leader.snapshotArgs first')
            (Raft.snapshotEntry (leader.snapshotArgs first')
              :: full''.drop (b + 1))) full full'' b b b := by
    intro full'' hTake hMatching
    have hCommand'' :
        b = 0 ∨
          ∃ cut, full''[b]? = some cut ∧
            cut.type = .normal := by
      rw [← getElem?_of_take_eq hTake (Nat.lt_succ_self b)]
      exact hLeader.command
    have hCutTerm'' :
        termAt full'' b = some first'.term := by
      rw [← termAt_of_take_eq hTake (Nat.lt_succ_self b)]
      exact hCutTerm
    have hCount : leader.snapshotIndex =
        (commandCount full'' b : Int) := by
      rw [hLeader.snapshotIndex, commandCount_congr hTake]
    exact
      { leader_cut := hLeader
        follower_cut := Raft.CutAt.of_installed hCommand''
          hIndex hCutTerm'' hCount
        lastApplied := hIndex
        cut_le := le_refl b
        committed_lt := hLt
        committed := by
          rw [← hTake]
          exact List.take_prefix _ _
        matching := hMatching
        term_le := le_of_eq hTerm
        last_term := hSetting.last_term }
  rcases Raft.installSnapshot_isSome hFollower.log_ne_nil
    (leader.snapshotArgs first') with
    ⟨follower', reply, hInstall⟩
  have hCase := Raft.installSnapshot_case hInstall
  rw [hInstall]
  cases hCase with
  | refused hRefused =>
      rcases hRefused with hLower | hOld
      · have hLower' :
            leader.currentTerm < follower.currentTerm :=
          hLower
        omega
      · have hOld' :
            leader.snapshotIndex ≤ follower.snapshotIndex :=
          hOld
        omega
  | kept _ _ l hLocal own hOwn hOwnTerm =>
      have hl : l = b - b' := by
        rw [hFollower.localIndex, Option.some.injEq] at hLocal
        have hLocal' : first'.index - (b' : Int) = (l : Int) :=
          hLocal
        omega
      have hHeld : full'[b]? = some own := by
        rw [← hFollower.logAt_eq hOlder, Raft.logAt,
          GoSlice.at?_eq_some_iff]
        refine ⟨by omega, ?_⟩
        have hNat : ((b : Int) - b').toNat = l := by omega
        rw [hNat]
        exact hOwn
      have hTake := hSetting.matching b first'.term hCutTerm
        (termAt_eq_some_iff.mpr ⟨own, hHeld, hOwnTerm⟩)
      have hDrop :
          follower.log.drop (l + 1) = full'.drop (b + 1) := by
        have hSub : l + 1 = b + 1 - b' := by omega
        rw [hSub, hFollower.drop_eq (by omega)]
      rw [hDrop, hTerm]
      exact ⟨_, full', rfl,
        hInstalled full' hTake hSetting.matching⟩
  | reset =>
      have hTake :
          full.take (b + 1) =
            (full.take (b + 1)).take (b + 1) := by
        rw [List.take_take, Nat.min_self]
      have hNil :
          (full.take (b + 1)).drop (b + 1) = [] := by
        apply List.drop_eq_nil_of_le
        rw [List.length_take]
        omega
      have hNew := hInstalled (full.take (b + 1)) hTake
        (LogMatching.of_extends (List.take_prefix _ _))
      rw [hNil] at hNew
      rw [hTerm]
      exact ⟨_, full.take (b + 1), rfl, hNew⟩

/- A round that sends the snapshot is the last but one. -/
theorem converges_of_snapshot
    (hSetting :
      RepairSetting leader follower full full' b b' a)
    (hOlder : b' < b)
    (hTerm : follower.currentTerm = leader.currentTerm)
    {first : LogEntry C}
    (hFirst : leader.logAt 0 = some first) :
    ∃ leader' follower',
      Raft.repairFailed server leader follower
          (.snapshot (leader.snapshotArgs first)) =
        some (.again leader' follower') ∧
      Raft.RepairConverges server leader' follower' := by
  rcases hSetting.install_cases hOlder hTerm hFirst with
    ⟨follower', full'', hInstall, hSetting'⟩
  refine ⟨{ leader with
      nextIndex := Function.update leader.nextIndex server
        ((leader.snapshotArgs first).lastIncludedIndex + 1) },
    follower', ?_, ?_⟩
  · have hReply :
        ¬ leader.currentTerm < leader.currentTerm :=
      lt_irrefl _
    simp only [Raft.repairFailed, hInstall,
      Option.bind_eq_bind, Option.bind_some,
      Raft.handleSnapshotReply, hReply, if_false]
    rfl
  · have hHeld := hSetting'.follower_cut.lt_length
    exact (hSetting'.of_nextIndex _).converges_of_applied rfl
      (by omega) (le_refl b)

end RepairSetting

------------------------------------------------------------
-- When The Exchange Converges
------------------------------------------------------------

/-
  The follower's first unapplied entry is the one the leader
  cut its log at, the follower holds it, and the leader does
  not hold the follower's last entry.
-/
def Raft.RepairStuck
    (leader follower : Raft C n) : Prop :=
  ∃ base len lastTerm : Int,
    leader.baseIndex = some base ∧
    follower.globalLogLen = some len ∧
    follower.lastLogTerm = some lastTerm ∧
    follower.lastApplied + 1 = base ∧
    base < len ∧
    ∀ own, leader.logAt (len - 1 - base) = some own →
      own.term ≠ lastTerm

namespace RepairSetting

variable {leader follower follower' : Raft C n}
variable {full full' : List (LogEntry C)}
variable {b b' a : Nat}
variable {server : Fin n}

/- The same in terms of the full logs. -/
theorem stuck_iff
    (hSetting :
      RepairSetting leader follower full full' b b' a)
    {l : Nat}
    (hl : full'.length - 1 = l) :
    leader.RepairStuck follower ↔
      a + 1 = b ∧ b ≤ l ∧ termAt full l ≠ termAt full' l := by
  have hLeader := hSetting.leader_cut
  have hFollower := hSetting.follower_cut
  have hHeld := hFollower.lt_length
  rcases exists_termAt
    (show l < full'.length by omega) with ⟨t, ht⟩
  have hIndex :
      (full'.length : Int) - 1 - b = (l : Int) - b := by
    omega
  constructor
  · rintro ⟨base, len, lastTerm, hBase, hLen, hLast,
      hApplied, hLt, hNone⟩
    rw [hLeader.baseIndex, Option.some.injEq] at hBase
    rw [hFollower.globalLogLen, Option.some.injEq] at hLen
    rw [hFollower.lastLogTerm, hl, ht,
      Option.some.injEq] at hLast
    rw [hSetting.lastApplied] at hApplied
    subst hBase hLen hLast
    refine ⟨by omega, by omega, ?_⟩
    intro hSame
    have hTerm := hLeader.logAt_term
      (show b ≤ l by omega)
    rw [hSame, ht] at hTerm
    rcases Option.map_eq_some_iff.mp hTerm with
      ⟨own, hOwn, hOwnTerm⟩
    rw [hIndex] at hNone
    exact hNone own hOwn hOwnTerm
  · rintro ⟨hApplied, hLow, hDiffer⟩
    refine ⟨b, full'.length, t, hLeader.baseIndex,
      hFollower.globalLogLen, ?_, ?_, by omega, ?_⟩
    · rw [hFollower.lastLogTerm, hl, ht]
    · rw [hSetting.lastApplied]
      omega
    · intro own hOwn hOwnTerm
      rw [hIndex] at hOwn
      have hTerm := hLeader.logAt_term hLow
      rw [hOwn, Option.map_some, hOwnTerm] at hTerm
      exact hDiffer (by rw [← hTerm, ht])

/- Elsewhere the exchange converges. -/
theorem converges_of_not_stuck
    (hSetting :
      RepairSetting leader follower full full' b b' a)
    (hNotStuck : ¬ leader.RepairStuck follower) :
    Raft.RepairConverges server leader follower := by
  have hHeld := hSetting.follower_cut.lt_length
  have hLe := hSetting.cut_le
  obtain ⟨l, hl⟩ : ∃ l, full'.length - 1 = l := ⟨_, rfl⟩
  rw [hSetting.stuck_iff hl] at hNotStuck
  by_cases hApplied : b ≤ l ∧ b ≤ a
  · exact hSetting.converges_of_applied hl hApplied.1
      hApplied.2
  by_cases hMatch :
      b ≤ l ∧ termAt full l = termAt full' l
  · exact hSetting.converges_of_match hl hMatch.1 hMatch.2
  -- in the remaining cases the leader sends its snapshot
  have hNoFix : ¬ (b ≤ a + 1 ∧ b ≤ l) := by
    rintro ⟨hLow, hHigh⟩
    have hDiffer : termAt full l ≠ termAt full' l :=
      fun hSame => hMatch ⟨hHigh, hSame⟩
    exact hNotStuck ⟨by omega, hHigh, hDiffer⟩
  have hOlder : b' < b := by omega
  rcases hSetting.round_cases rfl hl with
    ⟨_, leader', follower', hRound, hAgree⟩ |
    ⟨_, follower', first, hSetting', hTerm, hFirst, hRound⟩
  · exact .of_success hRound hAgree
  · split at hRound
    · rename_i hBack
      have hLess :
          l < nextPosition leader server full b := by
        rcases hBack.2 with hSame | hSame
        · exact hSame.2
        · exact absurd ⟨hBack.1, hSame.2⟩ hMatch
      have hBound :
          nextPosition leader server full b < full.length :=
        (Raft.prevPosition_bounds
          hSetting.leader_cut.lt_length
          (leader.nextIndex server)).2
      refine .of_again hRound ?_
      rcases (hSetting'.of_nextIndex
        (Function.update leader.nextIndex server
          ((l : Int) + 1))).round_cases
          (nextPosition_update hBack.1 (by omega)) hl with
        ⟨_, leader', follower'', hRound', hAgree⟩ |
        ⟨_, follower'', first', hSetting'', hTerm', hFirst',
          hRound'⟩
      · exact .of_success hRound' hAgree
      · rw [if_neg, if_neg hNoFix] at hRound'
        · rcases hSetting''.converges_of_snapshot hOlder
            hTerm' hFirst' with
            ⟨leader₂, follower₂, hSend, hRest⟩
          rw [hSend] at hRound'
          exact .of_again hRound' hRest
        · rintro ⟨_, hSame | hSame⟩
          · omega
          · exact hSame.1 rfl
    · rcases hSetting'.converges_of_snapshot hOlder hTerm
        hFirst with ⟨leader₂, follower₂, hSend, hRest⟩
      rw [hSend] at hRound
      exact .of_again hRound hRest

/-
  A stuck exchange stays stuck: no round succeeds, and each
  leaves the same setting with another `nextIndex`.
-/
theorem repair_eq_none_of_stuck
    (hStuck :
      a + 1 = b ∧ b ≤ full'.length - 1 ∧
        termAt full (full'.length - 1) ≠
          termAt full' (full'.length - 1))
    (rounds : Nat) :
    ∀ leader follower : Raft C n,
      RepairSetting leader follower full full' b b' a →
        Raft.repair server rounds leader follower =
          none := by
  induction rounds with
  | zero =>
      intro leader follower _
      rfl
  | succ rounds ih =>
      intro leader follower hSetting
      have hBound :
          b ≤ nextPosition leader server full b :=
        (Raft.prevPosition_bounds
          hSetting.leader_cut.lt_length
          (leader.nextIndex server)).1
      rcases hSetting.round_cases
        (p := nextPosition leader server full b) rfl rfl with
        ⟨hAccepts, _⟩ |
        ⟨_, follower', first, hSetting', _, _, hRound⟩
      · rcases hAccepts with ⟨hEq, hSame⟩ | ⟨hEq, _⟩
        · rw [hEq] at hSame
          exact absurd hSame hStuck.2.2
        · omega
      · rw [if_pos (show b ≤ a + 1 ∧
            b ≤ full'.length - 1 from
              ⟨by omega, hStuck.2.1⟩)] at hRound
        rw [Raft.repair, hRound]
        split
        · exact ih _ _ (hSetting'.of_nextIndex _)
        · exact ih _ _ (hSetting'.of_nextIndex _)

theorem not_converges_of_stuck
    (hSetting :
      RepairSetting leader follower full full' b b' a)
    (hStuck : leader.RepairStuck follower) :
    ¬ Raft.RepairConverges server leader follower := by
  rw [hSetting.stuck_iff rfl] at hStuck
  rintro ⟨rounds, leader', follower', hRepair, _⟩
  rw [repair_eq_none_of_stuck hStuck rounds leader follower
    hSetting] at hRepair
  cases hRepair

/-
  Log repair converges exactly when the exchange is not
  stuck, whatever `nextIndex` is at the start.
-/
theorem repair_converges_iff
    (hSetting :
      RepairSetting leader follower full full' b b' a)
    (server : Fin n) :
    Raft.RepairConverges server leader follower ↔
      ¬ leader.RepairStuck follower := by
  constructor
  · intro hConverges hStuck
    exact hSetting.not_converges_of_stuck hStuck hConverges
  · exact hSetting.converges_of_not_stuck

------------------------------------------------------------
-- A Follower One Entry Behind The Cut
------------------------------------------------------------

/-
  The common part of the two logs: the start, the no-op of
  the leader of term 2 and its first command.
-/
def sharedLog : List (LogEntry Nat) :=
  [{ term := 1, type := .noop, index := 0, command := none },
    { term := 2, type := .noop, index := 1,
      command := none },
    { term := 2, type := .normal, index := 2,
      command := some 7 }]

/- The leader of term 3 has appended its no-op. -/
def leaderFull : List (LogEntry Nat) :=
  sharedLog ++
    [{ term := 3, type := .noop, index := 3,
       command := none }]

/- The follower holds a second command of term 2. -/
def followerFull : List (LogEntry Nat) :=
  sharedLog ++
    [{ term := 2, type := .normal, index := 3,
       command := some 8 }]

/- The leader, cut at its first command. -/
def cutLeader (me : Fin 3) : Raft Nat 3 :=
  { Raft.fresh me Persister.makePersister with
    state := .leader
    currentTerm := 3
    log :=
      { term := 2, type := .noop, index := 2,
        command := some 7 } :: leaderFull.drop 3
    snapshotIndex := 1
    snapshotTerm := 2
    nextIndex := fun _ => 3 }

/- The follower, which has applied the entries up to `a`. -/
def slowFollower (me : Fin 3) (a : Nat) : Raft Nat 3 :=
  { Raft.fresh me Persister.makePersister with
    currentTerm := 2
    log := followerFull
    lastApplied := (a : Int) }

theorem slowFollower_matching :
    LogMatching leaderFull followerFull := by
  intro i t hTerm hTerm'
  match i with
  | 0 => rfl
  | 1 => rfl
  | 2 => rfl
  | 3 =>
      cases hTerm
      cases hTerm'
  | i + 4 => cases hTerm

theorem slowFollower_setting
    {a : Nat}
    (hApplied : a ≤ 2) :
    RepairSetting (cutLeader 0) (slowFollower 1 a) leaderFull
      followerFull 2 0 a where
  leader_cut :=
    ⟨⟨_, rfl, rfl, rfl, rfl⟩, Or.inr ⟨_, rfl, rfl⟩, rfl⟩
  follower_cut :=
    ⟨⟨_, rfl, rfl, rfl, rfl⟩, Or.inl rfl, rfl⟩
  lastApplied := rfl
  cut_le := Nat.zero_le a
  committed_lt := by
    have hLength : leaderFull.length = 4 := rfl
    omega
  committed := by
    unfold followerFull leaderFull
    rw [List.take_append_of_le_length
      (by simp [sharedLog]; omega)]
    exact (List.take_prefix _ _).trans
      (List.prefix_append _ _)
  matching := slowFollower_matching
  term_le := show (2 : Int) ≤ 3 by decide
  last_term := rfl

/-
  The follower has applied position 1, and the leader is cut
  at position 2: the exchange never ends.
-/
theorem repair_diverges :
    ¬ ∀ (leader follower : Raft Nat 3)
        (full full' : List (LogEntry Nat))
        (b b' a : Nat) (server : Fin 3),
      RepairSetting leader follower full full' b b' a →
        Raft.RepairConverges server leader follower := by
  intro hClaim
  have hSetting := slowFollower_setting (show 1 ≤ 2 by decide)
  have hStuck :
      (cutLeader 0).RepairStuck (slowFollower 1 1) := by
    rw [hSetting.stuck_iff rfl]
    decide
  exact hSetting.not_converges_of_stuck hStuck
    (hClaim _ _ _ _ _ _ _ 1 hSetting)

/- One entry more applied, and it converges. -/
theorem repair_converges_applied_two :
    RepairSetting (cutLeader 0) (slowFollower 1 2) leaderFull
        followerFull 2 0 2 ∧
      Raft.RepairConverges 1 (cutLeader 0)
        (slowFollower 1 2) := by
  have hSetting := slowFollower_setting (show 2 ≤ 2 by decide)
  refine ⟨hSetting, ?_⟩
  rw [hSetting.repair_converges_iff, hSetting.stuck_iff rfl]
  decide

end RepairSetting

end RaftLab
