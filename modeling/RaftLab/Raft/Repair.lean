import RaftLab.Raft.FullLog

/-
  Repairing the log of one follower.

  A round of the exchange is: the leader builds a request,
  the follower answers it, and the leader changes its
  `nextIndex` or sends its snapshot. `repair` runs rounds
  until a request succeeds.

  `RepairSetting` describes a leader and a follower as they
  can meet, in terms of their logs before any compaction,
  and `RepairSetting.round_cases` says what one round does
  to them.

  Main declarations:
    * `Raft.repairRound`, `Raft.repair`
    * `Raft.AgreesWith`, `Raft.RepairConverges`
    * `RepairSetting`
    * `RepairSetting.round_cases`
-/

------------------------------------------------------------
-- The Exchange
------------------------------------------------------------

namespace RaftLab

variable {C : Type} {n : Nat}

/- How a round ends. -/
inductive RepairOutcome (C : Type) (n : Nat)
  | success (leader follower : Raft C n)
  | again (leader follower : Raft C n)

namespace Raft

/-
  The rest of a round in which the request was rejected. It
  ends with `none` where the code panics or cancels the
  leader's tasks.
-/
def repairFailed
    (server : Fin n)
    (leader follower : Raft C n) :
    FailedReply C n → Option (RepairOutcome C n)
| .cancel => none
| .nextIndex leader => some (.again leader follower)
| .snapshot snapshot => do
    let (follower, reply) ←
      follower.installSnapshot snapshot
    let leader ←
      leader.handleSnapshotReply server snapshot reply
    return .again leader follower

/- One round. -/
def repairRound
    (server : Fin n)
    (leader follower : Raft C n) :
    Option (RepairOutcome C n) := do
  let (args, newNextIndex) ← leader.syncArgs server
  let (follower, reply) ← follower.appendEntries args
  if reply.success then
    return .success
      (leader.handleSuccess server newNextIndex) follower
  else
    repairFailed server leader follower
      (← leader.handleFailedReply server args reply)

/- At most `rounds` rounds, up to the first success. -/
def repair
    (server : Fin n) :
    Nat → Raft C n → Raft C n →
      Option (Raft C n × Raft C n)
| 0, _, _ => none
| rounds + 1, leader, follower => do
    match ← repairRound server leader follower with
    | .success leader follower => return (leader, follower)
    | .again leader follower =>
        repair server rounds leader follower

/-
  The follower agrees with the leader at every index of the
  leader's log: it has the index in its snapshot, or holds
  an entry of the same term there, which is the same entry
  unless one of the two logs is cut at it.
-/
def AgreesWith
    (follower leader : Raft C n) : Prop :=
  ∃ b b' : Int,
    leader.baseIndex = some b ∧
    follower.baseIndex = some b' ∧
    ∀ i e, leader.logAt (i - b) = some e →
      i < b' ∨
        ∃ e', follower.logAt (i - b') = some e' ∧
          e'.term = e.term ∧ (b < i → b' < i → e' = e)

/-
  After finitely many rounds a request succeeds and the
  follower agrees with the leader.
-/
def RepairConverges
    (server : Fin n)
    (leader follower : Raft C n) : Prop :=
  ∃ rounds leader' follower',
    repair server rounds leader follower =
      some (leader', follower') ∧
    follower'.AgreesWith leader'

theorem RepairConverges.of_success
    {server : Fin n}
    {leader follower leader' follower' : Raft C n}
    (hRound : repairRound server leader follower =
      some (.success leader' follower'))
    (hAgree : follower'.AgreesWith leader') :
    RepairConverges server leader follower := by
  refine ⟨1, leader', follower', ?_, hAgree⟩
  rw [repair, hRound]
  rfl

theorem RepairConverges.of_again
    {server : Fin n}
    {leader follower leader' follower' : Raft C n}
    (hRound : repairRound server leader follower =
      some (.again leader' follower'))
    (hRest : RepairConverges server leader' follower') :
    RepairConverges server leader follower := by
  rcases hRest with
    ⟨rounds, leader'', follower'', hRepair, hAgree⟩
  refine ⟨rounds + 1, leader'', follower'', ?_, hAgree⟩
  rw [repair, hRound]
  exact hRepair

/- A follower that holds the whole log of the leader. -/
theorem CutAt.agreesWith
    {leader follower : Raft C n}
    {full full' : List (LogEntry C)}
    {b b' : Nat}
    (hLeader : leader.CutAt full b)
    (hFollower : follower.CutAt full' b')
    (hPrefix : full <+: full') :
    follower.AgreesWith leader := by
  refine ⟨b, b', hLeader.baseIndex, hFollower.baseIndex,
    ?_⟩
  intro i e hEntry
  rcases GoSlice.at?_eq_some_iff.mp hEntry with ⟨hPos, _⟩
  rcases Int.eq_ofNat_of_zero_le
    (show 0 ≤ i by omega) with ⟨k, rfl⟩
  by_cases hCut : k < b'
  · left
    omega
  · right
    have hTerm := hLeader.logAt_term (i := k) (by omega)
    rw [hEntry, Option.map_some] at hTerm
    rcases termAt_eq_some_iff.mp hTerm.symm with
      ⟨own, hOwn, hOwnTerm⟩
    have hOwn' : full'[k]? = some own :=
      getElem?_of_extends hPrefix hOwn
    have hTerm' := hFollower.logAt_term (i := k) (by omega)
    rw [termAt_eq_some_iff.mpr ⟨own, hOwn', rfl⟩] at hTerm'
    rcases Option.map_eq_some_iff.mp hTerm' with
      ⟨e', hEntry', hSame⟩
    refine ⟨e', hEntry', hSame.trans hOwnTerm, ?_⟩
    intro hAfter hAfter'
    rw [hLeader.logAt_eq (by omega)] at hEntry
    rw [hFollower.logAt_eq (by omega)] at hEntry'
    rw [hOwn] at hEntry
    rw [hOwn'] at hEntry'
    exact Option.some.inj (hEntry'.symm.trans hEntry)

------------------------------------------------------------
-- Requests And Failed Replies On Full Logs
------------------------------------------------------------

/-
  The position before the entries that `syncEntries` sends
  when `nextIndex` is `next`, for a log of length `len` cut
  at `b`.
-/
def prevPosition
    (b len : Nat)
    (next : Int) : Nat :=
  if next < b + 1 then b
  else if next > len then len - 1
  else (next - 1).toNat

theorem prevPosition_bounds
    {b len : Nat}
    (hLt : b < len)
    (next : Int) :
    b ≤ prevPosition b len next ∧
      prevPosition b len next < len := by
  unfold prevPosition
  split
  · omega
  · split
    · omega
    · omega

theorem CutAt.syncArgs_eq
    {leader : Raft C n}
    {full : List (LogEntry C)}
    {b : Nat}
    (hLeader : leader.CutAt full b)
    (server : Fin n) :
    ∃ t,
      termAt full (prevPosition b full.length
        (leader.nextIndex server)) = some t ∧
      leader.syncArgs server =
        some (
          { term := leader.currentTerm
            leaderId := (leader.me.val : Int)
            prevLogIndex :=
              (prevPosition b full.length
                (leader.nextIndex server) : Int)
            prevLogTerm := t
            entries :=
              full.drop (prevPosition b full.length
                (leader.nextIndex server) + 1)
            leaderCommit := leader.commitIndex },
          (full.length : Int)) := by
  have hLt := hLeader.lt_length
  have hLength := hLeader.length_log
  rcases prevPosition_bounds hLt
    (leader.nextIndex server) with ⟨hLow, hHigh⟩
  have hReal :
      (if leader.nextIndex server < 1 + (b : Int) then
          1 + (b : Int)
        else if leader.nextIndex server >
            (full.length : Int) then
          (full.length : Int)
        else
          leader.nextIndex server) =
        (prevPosition b full.length
          (leader.nextIndex server) : Int) + 1 := by
    unfold prevPosition
    by_cases hBelow : leader.nextIndex server < (b : Int) + 1
    · rw [if_pos (by omega), if_pos hBelow]
      omega
    · rw [if_neg (by omega), if_neg hBelow]
      by_cases hAbove :
          leader.nextIndex server > (full.length : Int)
      · rw [if_pos hAbove, if_pos hAbove]
        omega
      · rw [if_neg hAbove, if_neg hAbove]
        omega
  generalize
    prevPosition b full.length (leader.nextIndex server) =
      p at hLow hHigh hReal ⊢
  rcases exists_termAt hHigh with ⟨t, hTerm⟩
  refine ⟨t, hTerm, ?_⟩
  have hPrev := hLeader.logAt_term hLow
  rw [hTerm] at hPrev
  rcases Option.map_eq_some_iff.mp hPrev with
    ⟨prevLog, hPrevLog, hPrevTerm⟩
  have hFrom :
      GoSlice.from? leader.log ((p : Int) + 1 - b) =
        some (full.drop (p + 1)) := by
    rw [GoSlice.from?_eq_some_iff]
    constructor
    · omega
    · have hNat : ((p : Int) + 1 - b).toNat = p + 1 - b := by
        omega
      rw [hNat, hLeader.drop_eq (by omega)]
  unfold syncArgs
  simp only [hLeader.globalIndex, hLeader.globalLogLen,
    Option.bind_eq_bind, Option.bind_some, hReal,
    hLeader.localIndex, Int.add_sub_cancel, hPrevLog, hFrom,
    hPrevTerm]
  rfl

section FailedReply

variable {leader : Raft C n}
variable {full : List (LogEntry C)}
variable {b p l a : Nat}
variable {args : AppendEntriesArgs C}
variable {reply : AppendEntriesReply}

theorem CutAt.replyMatchesLog_eq
    (hLeader : leader.CutAt full b)
    (hPrev : args.prevLogIndex = (p : Int))
    (hLast : reply.prevLogIndex = (l : Int)) :
    leader.replyMatchesLog args reply =
      some (decide (b ≤ l ∧
        ((reply.prevLogTerm = args.prevLogTerm ∧ l < p) ∨
          (l ≠ p ∧
            termAt full l = some reply.prevLogTerm)))) := by
  unfold replyMatchesLog
  simp only [hLeader.localIndex, hLeader.globalLogLen,
    Option.bind_eq_bind, Option.bind_some, hPrev, hLast]
  by_cases hCut : b ≤ l
  · rw [if_pos (by omega)]
    by_cases hSame :
        reply.prevLogTerm = args.prevLogTerm ∧ l < p
    · rw [if_pos (by omega)]
      simp [hCut, hSame]
    · rw [if_neg (by omega)]
      by_cases hHeld : l ≠ p ∧ l < full.length
      · rw [if_pos (by omega)]
        rcases exists_termAt hHeld.2 with ⟨t, hTerm⟩
        rw [hLeader.hasTermAt hCut hTerm]
        simp [hCut, hSame, hHeld.1, hTerm]
      · rw [if_neg (by omega)]
        have hNot :
            ¬ (l ≠ p ∧
              termAt full l = some reply.prevLogTerm) := by
          rintro ⟨hNe, hTerm⟩
          rcases termAt_eq_some_iff.mp hTerm with
            ⟨e, hEntry, _⟩
          exact hHeld ⟨hNe,
            (List.getElem?_eq_some_iff.mp hEntry).1⟩
        rw [decide_eq_false]
        · rfl
        · rintro ⟨_, hEither⟩
          exact hEither.elim hSame hNot
  · rw [if_neg (by omega)]
    simp [hCut]

theorem CutAt.replyNeedsFix_eq
    (hLeader : leader.CutAt full b)
    (hPrev : args.prevLogIndex = (p : Int))
    (hLast : reply.prevLogIndex = (l : Int))
    (hApplied : reply.lastApplied = (a : Int)) :
    leader.replyNeedsFix args reply =
      some (decide (b ≤ a + 1 ∧ b ≤ l ∧
        (p ≤ l ∨
          termAt full l ≠ some reply.prevLogTerm))) := by
  unfold replyNeedsFix
  simp only [hLeader.localIndex, hLeader.globalLogLen,
    Option.bind_eq_bind, Option.bind_some, hPrev, hLast,
    hApplied]
  by_cases hCut : b ≤ a + 1 ∧ b ≤ l
  · rw [if_pos (by omega)]
    by_cases hFar : p ≤ l ∨ full.length ≤ l
    · rw [if_pos (by omega)]
      have hEither :
          p ≤ l ∨
            termAt full l ≠ some reply.prevLogTerm := by
        rcases hFar with hNear | hBeyond
        · exact Or.inl hNear
        · right
          unfold termAt
          rw [List.getElem?_eq_none hBeyond]
          simp
      rw [decide_eq_true ⟨hCut.1, hCut.2, hEither⟩]
      rfl
    · rw [if_neg (by omega)]
      rcases exists_termAt
        (show l < full.length by omega) with ⟨t, hTerm⟩
      rw [hLeader.hasTermAt hCut.2 hTerm, hTerm]
      have hNear : ¬ p ≤ l := fun h => hFar (Or.inl h)
      simp [hCut.1, hCut.2, hNear]
  · rw [if_neg (by omega)]
    rw [decide_eq_false]
    · rfl
    · rintro ⟨hLow, hHigh, _⟩
      exact hCut ⟨hLow, hHigh⟩

/- What the leader does after a failed reply. -/
theorem CutAt.handleFailedReply_eq
    (hLeader : leader.CutAt full b)
    (server : Fin n)
    (reply : AppendEntriesReply)
    (hTerm : reply.term ≤ leader.currentTerm)
    (hPrev : args.prevLogIndex = (p : Int))
    (hLast : reply.prevLogIndex = (l : Int))
    (hApplied : reply.lastApplied = (a : Int)) :
    ∃ first, leader.logAt 0 = some first ∧
      leader.handleFailedReply server args reply =
        some (
          if b ≤ l ∧
              ((reply.prevLogTerm = args.prevLogTerm ∧
                  l < p) ∨
                (l ≠ p ∧ termAt full l =
                  some reply.prevLogTerm)) then
            .nextIndex { leader with
              nextIndex := Function.update leader.nextIndex
                server ((l : Int) + 1) }
          else if b ≤ a + 1 ∧ b ≤ l then
            .nextIndex { leader with
              nextIndex := Function.update leader.nextIndex
                server ((a : Int) + 1) }
          else
            .snapshot (leader.snapshotArgs first)) := by
  rcases hLeader.head with ⟨first, hLog, _⟩
  have hFirst : leader.logAt 0 = some first :=
    logAt_zero_eq_some_iff.mpr ⟨_, hLog⟩
  refine ⟨first, hFirst, ?_⟩
  unfold handleFailedReply
  rw [if_neg (by omega),
    hLeader.replyMatchesLog_eq hPrev hLast,
    hLeader.replyNeedsFix_eq hPrev hLast hApplied]
  simp only [Option.bind_eq_bind, Option.bind_some,
    decide_eq_true_eq, hLast, hApplied, hLeader.localIndex,
    hFirst]
  split
  · rfl
  · rename_i hNoMatch
    by_cases hFix : b ≤ a + 1 ∧ b ≤ l
    · have hEither :
          p ≤ l ∨
            termAt full l ≠ some reply.prevLogTerm := by
        by_contra hNeither
        have hLess : l < p := by
          by_contra hGe
          exact hNeither (Or.inl (by omega))
        have hSame :
            termAt full l = some reply.prevLogTerm := by
          by_contra hDiffer
          exact hNeither (Or.inr hDiffer)
        exact hNoMatch
          ⟨hFix.2, Or.inr ⟨by omega, hSame⟩⟩
      rw [if_pos ⟨hFix.1, hFix.2, hEither⟩, if_pos hFix]
      rfl
    · have hNoFix :
          ¬ (b ≤ a + 1 ∧ b ≤ l ∧
            (p ≤ l ∨
              termAt full l ≠ some reply.prevLogTerm)) := by
        rintro ⟨hLow, hHigh, _⟩
        exact hFix ⟨hLow, hHigh⟩
      rw [if_neg hNoFix, if_neg hFix, if_pos (by omega)]
      rfl

end FailedReply

end Raft

------------------------------------------------------------
-- The Setting
------------------------------------------------------------

/-
  A leader and a follower as they can meet. `full` and
  `full'` are their logs before any compaction, cut at `b`
  and `b'`, and `a` is the follower's `lastApplied`. What
  the follower holds up to `a` is part of the leader's log,
  which reaches at least to `a`.
-/
structure RepairSetting
    (leader follower : Raft C n)
    (full full' : List (LogEntry C))
    (b b' a : Nat) : Prop where
  leader_cut : leader.CutAt full b
  follower_cut : follower.CutAt full' b'
  lastApplied : follower.lastApplied = (a : Int)
  cut_le : b' ≤ a
  committed_lt : a < full.length
  committed : full'.take (a + 1) <+: full
  matching : LogMatching full full'
  term_le : follower.currentTerm ≤ leader.currentTerm
  last_term :
    termAt full (full.length - 1) = some leader.currentTerm

namespace RepairSetting

variable {leader follower follower' : Raft C n}
variable {full full' : List (LogEntry C)}
variable {b b' a : Nat}

/- `nextIndex` is not part of the setting. -/
theorem of_nextIndex
    (hSetting :
      RepairSetting leader follower full full' b b' a)
    (next : Fin n → Int) :
    RepairSetting { leader with nextIndex := next } follower
      full full' b b' a :=
  { hSetting with
    leader_cut := hSetting.leader_cut.of_log_eq rfl rfl }

/- The follower adopts the leader's term. -/
theorem of_syncState
    (hSetting :
      RepairSetting leader follower full full' b b' a)
    {args : AppendEntriesArgs C}
    (hTerm : args.term = leader.currentTerm) :
    RepairSetting leader (follower.syncState args) full
      full' b b' a :=
  { hSetting with
    follower_cut := hSetting.follower_cut.of_log_eq rfl rfl
    term_le := le_of_eq hTerm }

/- Where the follower has applied entries, it agrees. -/
theorem termAt_eq
    (hSetting :
      RepairSetting leader follower full full' b b' a)
    {i : Nat}
    (hApplied : i ≤ a)
    (hHeld : i < full'.length) :
    termAt full i = termAt full' i := by
  rcases exists_termAt hHeld with ⟨t, hTerm⟩
  rw [hTerm]
  apply termAt_of_extends hSetting.committed
  unfold termAt at hTerm ⊢
  rw [List.getElem?_take_of_lt (by omega)]
  exact hTerm

/- A follower that holds more than it has applied. -/
theorem take_eq
    (hSetting :
      RepairSetting leader follower full full' b b' a)
    (hLt : a < full'.length) :
    full.take (a + 1) = full'.take (a + 1) := by
  rcases hSetting.committed with ⟨rest, hRest⟩
  have hLen : (full'.take (a + 1)).length = a + 1 := by
    rw [List.length_take]
    omega
  rw [← hRest, List.take_append_of_le_length (by omega),
    List.take_take, Nat.min_self]

/-
  A successful request leaves a follower that holds the
  whole log of the leader.
-/
theorem agrees_of_success
    (hSetting :
      RepairSetting leader follower full full' b b' a)
    {p : Nat}
    {t : Int}
    {args : AppendEntriesArgs C}
    {reply : AppendEntriesReply}
    (hPrev : args.prevLogIndex = (p : Int))
    (hPrevTerm : args.prevLogTerm = t)
    (hp : termAt full p = some t)
    (hEntries : args.entries = full.drop (p + 1))
    (hCase :
      follower.AppendEntriesCase args follower' reply)
    (hSuccess : reply.success = true) :
    ∃ full'', follower'.CutAt full'' b' ∧
      full <+: full'' := by
  have hFollower := hSetting.follower_cut
  have hHeld := hFollower.lt_length
  have hLe := hSetting.cut_le
  cases hCase with
  | stale hStale _ hFailed =>
      rw [hFailed] at hSuccess
      cases hSuccess
  | good _ len hLen hIndex hLast =>
      rw [hFollower.globalLogLen, Option.some.injEq] at hLen
      rw [hFollower.lastLogTerm, hPrevTerm] at hLast
      have hp' : full'.length - 1 = p := by omega
      rw [hp'] at hLast
      -- the last entry of the follower is the leader's
      have hTake := hSetting.matching p t hp hLast
      have hWhole : full'.take (p + 1) = full' := by
        apply List.take_of_length_le
        omega
      refine ⟨full' ++ args.entries,
        hFollower.of_append rfl rfl, ?_⟩
      rw [hEntries, ← hWhole, ← hTake,
        List.take_append_drop]
  | covered _ len hLen hIndex hApplied hPrefix =>
      rw [hFollower.globalLogLen, Option.some.injEq] at hLen
      rw [hSetting.lastApplied] at hApplied
      have hpa : p = a := by omega
      subst hpa
      refine ⟨full', hFollower.of_log_eq rfl rfl, ?_⟩
      have hLt := lt_length_of_termAt hp
      have hAll := hFollower.take_of_prefixCheck
        hSetting.lastApplied hLe hSetting.matching.symm
        (hSetting.take_eq (by omega)).symm hLt (le_refl _)
        (by rw [List.take_length]; exact hEntries) hPrefix
      rw [List.take_length] at hAll
      rw [← hAll]
      exact List.take_prefix _ _
  | fixed _ len hLen hIndex hApplied i hPrefix hDiffer bound
      hBound =>
      rw [hFollower.globalLogLen, Option.some.injEq] at hLen
      rw [hFollower.localIndex, Option.some.injEq,
        hSetting.lastApplied] at hBound
      rw [hSetting.lastApplied] at hApplied
      have hpa : p = a := by omega
      subst hpa
      have hNat : bound.toNat = p + 1 - b' := by omega
      refine ⟨full'.take (p + 1) ++ args.entries, ?_, ?_⟩
      · apply hFollower.of_replaced (by omega) (by omega)
        · rw [← hNat]
          rfl
        · rfl
      · rw [hEntries, ← hSetting.take_eq (by omega),
          List.take_append_drop]
  | rejected => cases hSuccess

------------------------------------------------------------
-- One Round
------------------------------------------------------------

/-
  A request whose entries follow position `p` is accepted:
  `p` is the follower's last position and holds the same
  term, or `p` is the last position it has applied and not
  its last one.
-/
def Accepts
    (full full' : List (LogEntry C))
    (a p : Nat) : Prop :=
  (p = full'.length - 1 ∧ termAt full p = termAt full' p) ∨
    (p = a ∧ a < full'.length - 1)

variable {server : Fin n}

/- The position before the entries of the next request. -/
def nextPosition
    (leader : Raft C n)
    (server : Fin n)
    (full : List (LogEntry C))
    (b : Nat) : Nat :=
  Raft.prevPosition b full.length (leader.nextIndex server)

/-
  What a round does: the request is accepted, or the leader
  acts on the follower's last position and term and on its
  `lastApplied`.
-/
theorem round_cases
    (hSetting :
      RepairSetting leader follower full full' b b' a)
    {p l : Nat}
    (hp : nextPosition leader server full b = p)
    (hl : full'.length - 1 = l) :
    (Accepts full full' a p ∧
      ∃ leader' follower',
        Raft.repairRound server leader follower =
          some (.success leader' follower') ∧
        follower'.AgreesWith leader') ∨
    (¬ Accepts full full' a p ∧
      ∃ follower' first,
        RepairSetting leader follower' full full' b b' a ∧
        follower'.currentTerm = leader.currentTerm ∧
        leader.logAt 0 = some first ∧
        Raft.repairRound server leader follower =
          Raft.repairFailed server leader follower'
            (if b ≤ l ∧
                ((termAt full' l = termAt full p ∧ l < p) ∨
                  (l ≠ p ∧
                    termAt full l = termAt full' l)) then
              .nextIndex { leader with
                nextIndex := Function.update
                  leader.nextIndex server ((l : Int) + 1) }
            else if b ≤ a + 1 ∧ b ≤ l then
              .nextIndex { leader with
                nextIndex := Function.update
                  leader.nextIndex server ((a : Int) + 1) }
            else
              .snapshot (leader.snapshotArgs first))) := by
  have hLeader := hSetting.leader_cut
  have hFollower := hSetting.follower_cut
  have hHeld := hFollower.lt_length
  have hLe := hSetting.cut_le
  rcases hLeader.syncArgs_eq server with ⟨t, ht, hArgs⟩
  have hp' :
      Raft.prevPosition b full.length
        (leader.nextIndex server) = p := hp
  rw [hp'] at ht hArgs
  generalize hArgsDef :
    ({ term := leader.currentTerm
       leaderId := (leader.me.val : Int)
       prevLogIndex := (p : Int)
       prevLogTerm := t
       entries := full.drop (p + 1)
       leaderCommit := leader.commitIndex } :
      AppendEntriesArgs C) = args at hArgs
  have hTerm : args.term = leader.currentTerm := by
    rw [← hArgsDef]
  have hPrev : args.prevLogIndex = (p : Int) := by
    rw [← hArgsDef]
  have hPrevTerm : args.prevLogTerm = t := by
    rw [← hArgsDef]
  have hEntries : args.entries = full.drop (p + 1) := by
    rw [← hArgsDef]
  have hApplied : (b' : Int) ≤ follower.lastApplied + 1 := by
    rw [hSetting.lastApplied]
    omega
  rcases Raft.appendEntries_isSome hFollower.baseIndex
    hApplied args with ⟨follower', reply, hAppend⟩
  have hCase := Raft.appendEntries_case hAppend
  have hRound :
      Raft.repairRound server leader follower =
        if reply.success then
          some (.success
            (leader.handleSuccess server full.length)
            follower')
        else
          (leader.handleFailedReply server args reply).bind
            (Raft.repairFailed server leader follower') := by
    unfold Raft.repairRound
    simp only [hArgs, hAppend, Option.bind_eq_bind,
      Option.bind_some]
    rfl
  by_cases hSuccess : reply.success = true
  · left
    have hAgree : follower'.AgreesWith leader := by
      rcases hSetting.agrees_of_success hPrev hPrevTerm ht
        hEntries hCase hSuccess with ⟨full'', hCut, hExt⟩
      exact hLeader.agreesWith hCut hExt
    refine ⟨?_, leader.handleSuccess server full.length,
      follower', ?_, hAgree⟩
    · cases hCase with
      | stale _ _ hFailed =>
          rw [hFailed] at hSuccess
          cases hSuccess
      | good _ len hLen hIndex hLast =>
          rw [hFollower.globalLogLen,
            Option.some.injEq] at hLen
          have hEq : p = full'.length - 1 := by omega
          left
          refine ⟨hEq, ?_⟩
          rw [hFollower.lastLogTerm, hPrevTerm] at hLast
          rw [ht, hEq, hLast]
      | covered _ len hLen hIndex hEq =>
          rw [hFollower.globalLogLen,
            Option.some.injEq] at hLen
          rw [hSetting.lastApplied] at hEq
          exact Or.inr ⟨by omega, by omega⟩
      | fixed _ len hLen hIndex hEq =>
          rw [hFollower.globalLogLen,
            Option.some.injEq] at hLen
          rw [hSetting.lastApplied] at hEq
          exact Or.inr ⟨by omega, by omega⟩
      | rejected => cases hSuccess
    · rw [hRound, if_pos hSuccess]
  · right
    rw [if_neg hSuccess] at hRound
    cases hCase with
    | stale hStale =>
        have hNotHigher := hSetting.term_le
        omega
    | good _ _ _ _ _ _ hOk => exact absurd hOk hSuccess
    | covered _ _ _ _ _ _ _ hOk => exact absurd hOk hSuccess
    | fixed _ _ _ _ _ _ _ _ _ _ _ _ hOk =>
        exact absurd hOk hSuccess
    | rejected _ len lastTerm hLen hLast hNotGood hNotFix =>
        rw [hFollower.globalLogLen,
          Option.some.injEq] at hLen
        rw [hFollower.lastLogTerm, hl] at hLast
        rw [hPrev, hPrevTerm] at hNotGood
        rw [hPrev, hSetting.lastApplied] at hNotFix
        have hNotAccepted : ¬ Accepts full full' a p := by
          rintro (⟨hEq, hSame⟩ | ⟨hEq, hMore⟩)
          · apply hNotGood
            rw [ht, hEq, hl, hLast,
              Option.some.injEq] at hSame
            exact ⟨by omega, hSame.symm⟩
          · exact hNotFix ⟨by omega, by omega⟩
        have hLastIndex : len - 1 = (l : Int) := by omega
        have hReplyTerm : args.term ≤ leader.currentTerm :=
          le_of_eq hTerm
        rcases hLeader.handleFailedReply_eq server
          { term := args.term
            success := false
            prevLogIndex := len - 1
            prevLogTerm := lastTerm
            lastApplied := follower.lastApplied }
          hReplyTerm hPrev hLastIndex hSetting.lastApplied
          with ⟨first, hFirst, hFailed⟩
        refine ⟨hNotAccepted, follower.syncState args,
          first, hSetting.of_syncState hTerm, hTerm, hFirst,
          ?_⟩
        rw [hRound, hFailed, Option.bind_some]
        simp only [hPrevTerm, hLast, ht, Option.some.injEq]

end RepairSetting

end RaftLab
