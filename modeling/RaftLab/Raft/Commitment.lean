import RaftLab.Raft.CommitSearch
import RaftLab.Raft.LeaderCompleteness

/-
  What servers take for committed is committed.

  A part of a log is settled at a server that has it, if it
  was chosen by the server's term, or in any term if it lies
  below the cut of the log. No step takes away what is
  settled: logs are cut by leaders, which have all that was
  chosen before their terms, and a snapshot covers a chosen
  log. The commit index of every server, the one in every
  request, all snapshots and all commands that were applied
  are settled.

  Main declarations:
    * `Cluster.Settled`, `Cluster.HistoryStep.settled`
    * `Node.commitsAsLeader`
    * `Cluster.Commitments`
-/

------------------------------------------------------------
-- Settled Logs
------------------------------------------------------------

namespace RaftLab

variable {C : Type} {n : Nat}

namespace Cluster

/- Server `i` has `part` of a log, which was chosen. -/
structure Settled
    (c : Cluster C n)
    (g : LogHistory C n)
    (i : Fin n)
    (part : List (LogEntry C)) : Prop where
  held : part <+: g.full i
  chosen :
    (c.replication g).CommittedBy (c.nodes i).rf.currentTerm
      part ∨
    ∃ h, (c.replication g).CommittedBy h part ∧
      ∀ b : Nat, (c.nodes i).rf.SuffixOf (g.full i) b →
        part.length ≤ b + 1

/- The commands that server `i` has applied. -/
def Applies
    (c : Cluster C n)
    (i : Fin n)
    (msg : ApplyMsg C) : Prop :=
  msg ∈ (c.nodes i).rf.applyQueue ∨
    (c.nodes i).inHand = some msg ∨
    (i, .applyCh msg) ∈ c.trace

/-
  The message is about the last entry of a settled part, and
  carries its number.
-/
def AppliedFrom
    (c : Cluster C n)
    (g : LogHistory C n)
    (i : Fin n)
    (msg : ApplyMsg C) : Prop :=
  ∃ part e, c.Settled g i (part ++ [e]) ∧
    e.type = .normal ∧
    msg.command = e.command ∧
    msg.commandIndex =
      (commandCount (part ++ [e]) part.length : Int)

/-
  What is committed: what servers have cut away, as far as
  candidates and leaders are concerned by their own terms,
  what their commit indices say, what leaders send, and what
  servers apply.
-/
structure Commitments
    (c : Cluster C n)
    (g : LogHistory C n) : Prop where
  cuts :
    ∀ i (b : Nat), (c.nodes i).rf.SuffixOf (g.full i) b →
      ∃ h, (c.replication g).CommittedBy h
        ((g.full i).take (b + 1))
  candidates :
    ∀ i, (c.nodes i).Campaigns → c.Blocked i ∨
      ∀ b : Nat, (c.nodes i).rf.SuffixOf (g.full i) b →
        (c.replication g).CommittedBy
          (c.nodes i).rf.currentTerm
          ((g.full i).take (b + 1))
  leaders :
    ∀ i, (c.nodes i).rf.state = .leader →
      ∀ b : Nat, (c.nodes i).rf.SuffixOf (g.full i) b →
        (c.replication g).CommittedBy
          (c.nodes i).rf.currentTerm
          ((g.full i).take (b + 1))
  commits :
    ∀ i, ∃ part, c.Settled g i part ∧
      (part.length : Int) = (c.nodes i).rf.commitIndex + 1
  appends :
    ∀ i j args, (i, .appendEntries j args) ∈ c.trace →
      ∃ part, part <+: g.leaderLog args.term ∧
        (c.replication g).CommittedBy args.term part ∧
        (part.length : Int) = args.leaderCommit + 1 ∧
        (part.length : Int) ≤
          args.prevLogIndex + 1 + args.entries.length
  snapshots :
    ∀ i j args, (i, .installSnapshot j args) ∈ c.trace →
      ∃ part, part <+: g.leaderLog args.term ∧
        (c.replication g).CommittedBy args.term part ∧
        (part.length : Int) = args.lastIncludedInternal + 1
  applied :
    ∀ i msg, c.Applies i msg → msg.commandValid = true →
      c.AppliedFrom g i msg

section Settled

variable {c : Cluster C n}
variable {g : LogHistory C n}
variable {i : Fin n}
variable {part part' : List (LogEntry C)}

theorem Settled.exists_committedBy
    (hSettled : c.Settled g i part) :
    ∃ h, (c.replication g).CommittedBy h part := by
  rcases hSettled.chosen with hTerm | ⟨h, hAny, _⟩
  · exact ⟨_, hTerm⟩
  · exact ⟨h, hAny⟩

theorem Settled.of_extends
    (hSettled : c.Settled g i part)
    (hPrefix : part' <+: part) :
    c.Settled g i part' := by
  refine ⟨hPrefix.trans hSettled.held, ?_⟩
  rcases hSettled.chosen with hTerm | ⟨h, hAny, hShort⟩
  · exact Or.inl (hTerm.of_extends hPrefix)
  · refine Or.inr ⟨h, hAny.of_extends hPrefix, ?_⟩
    intro b hSuffix
    exact le_trans hPrefix.length_le (hShort b hSuffix)

/- What lies below a cut of the server's term is of it. -/
theorem Settled.committedBy
    (hSettled : c.Settled g i part)
    {b : Nat}
    (hSuffix : (c.nodes i).rf.SuffixOf (g.full i) b)
    (hCut : (c.replication g).CommittedBy
      (c.nodes i).rf.currentTerm
      ((g.full i).take (b + 1))) :
    (c.replication g).CommittedBy
      (c.nodes i).rf.currentTerm part := by
  rcases hSettled.chosen with hTerm | ⟨h, _, hShort⟩
  · exact hTerm
  · apply hCut.of_extends
    rw [List.prefix_take_iff]
    exact ⟨hSettled.held, hShort b hSuffix⟩

/- What a server has cut away is settled. -/
theorem Commitments.settled_cut
    (hCommitments : c.Commitments g)
    {b : Nat}
    (hSuffix : (c.nodes i).rf.SuffixOf (g.full i) b) :
    c.Settled g i ((g.full i).take (b + 1)) := by
  rcases hCommitments.cuts i b hSuffix with ⟨h, hCut⟩
  refine ⟨List.take_prefix _ _, Or.inr ⟨h, hCut, ?_⟩⟩
  intro b' hSuffix'
  rw [hSuffix'.cut_unique hSuffix, List.length_take]
  omega

/- The start of all logs is settled from the beginning. -/
theorem settled_start
    (hLog : LedLog g.leaderLog (g.full i))
    (hOne : g.leaderLog 1 = [startEntry])
    (hTerm : 1 ≤ (c.nodes i).rf.currentTerm) :
    c.Settled g i [startEntry] := by
  refine ⟨hLog.head, Or.inl ⟨1, 1, hTerm, ⟨?_, ?_⟩, ?_⟩⟩
  · refine ⟨Nat.zero_lt_one, startEntry, ?_, rfl⟩
    change (g.leaderLog 1)[0]? = some startEntry
    rw [hOne]
    rfl
  · refine ⟨Finset.univ, Majority.univ i.pos, ?_⟩
    intro j _
    exact Or.inr (Or.inr ⟨rfl, le_refl 1⟩)
  · change [startEntry] <+: (g.leaderLog 1).take 1
    rw [hOne]
    exact List.prefix_refl _

end Settled

------------------------------------------------------------
-- Steps Keep What Is Settled
------------------------------------------------------------

variable [DecidableEq C]
variable {ok : Cluster C n → Fin n × Event C n → Prop}
variable {c : Cluster C n}
variable {g : LogHistory C n}

namespace HistoryStep

variable {i : Fin n}
variable {event : Event C n}
variable {nd' : Node C n}
variable {effects : List (Effect C n)}
variable {part : List (LogEntry C)}

/- A snapshot that arrives covers a chosen log. -/
theorem snapshot_committed
    (hStep : HistoryStep ok c g i event nd' effects)
    (hCommitments : c.Commitments g)
    {args : InstallSnapshotArgs}
    {d : Nat}
    (hEvent : event = .installSnapshot args)
    (hInternal : args.lastIncludedInternal = (d : Int)) :
    (c.replication g).CommittedBy args.term
      ((g.leaderLog args.term).take (d + 1)) := by
  subst hEvent
  rcases deliverable_installSnapshot.mp hStep.deliver with
    ⟨j, hSent⟩
  rcases hCommitments.snapshots j i args hSent with
    ⟨snapshot, hLeader, hCommitted, hLength⟩
  have hEq := List.prefix_iff_eq_take.mp hLeader
  have hCount : snapshot.length = d + 1 := by omega
  rw [hCount] at hEq
  rw [← hEq]
  exact hCommitted

/- The server still has what is settled after its step. -/
theorem settled_held
    (hStep : HistoryStep ok c g i event nd' effects)
    (hSound : (c.replication g).Sound)
    (hCommitments : c.Commitments g)
    {b b' : Nat}
    {full : List (LogEntry C)}
    (hSuffix : (c.nodes i).rf.SuffixOf (g.full i) b)
    (hChange : LogChange g (c.nodes i).rf i b event nd'.rf
      full b')
    (hSettled : c.Settled g i part) :
    part <+: full ∧
      (part.length ≤ b + 1 → part.length ≤ b' + 1) := by
  have hHeld := hSettled.held
  cases hChange with
  | kept => exact ⟨hHeld, id⟩
  | extended e =>
      exact ⟨hHeld.trans (List.prefix_append _ _), id⟩
  | compacted _ _ _ _ _ _ _ _ hLe =>
      exact ⟨hHeld, fun _ => by omega⟩
  | stored args hEvent p k hStored hAfter =>
      refine ⟨?_, id⟩
      have hStart := hStored.start_lt
      have hEnd := hStored.end_le
      rcases hSettled.chosen with hTerm | ⟨_, _, hShort⟩
      · -- the leader that stores entries has it too
        have hNe : g.leaderLog args.term ≠ [] := by
          intro hNil
          rw [hNil, List.length_nil] at hEnd
          omega
        exact Replication.extends_take_of_loses hHeld
          (hTerm.extends_leader hSound hStored.term_le hNe)
          hStored.loses
      · have hLe := hShort b hSuffix
        have hTake : part <+: (g.full i).take (p + 1) := by
          rw [List.prefix_take_iff]
          exact ⟨hHeld, by omega⟩
        rw [hStored.agrees] at hTake
        exact hTake.trans
          (List.take_prefix_take_left (by omega))
  | installed _ _ _ _ _ hLe =>
      exact ⟨hHeld, fun _ => by omega⟩
  | reset args hEvent b' hInstalls hLt hDiffer =>
      have hCommitted := hStep.snapshot_committed hCommitments
        hEvent hInstalls.internal_eq
      rcases hSettled.exists_committedBy with ⟨h, hAny⟩
      rcases hAny.comparable hSound hCommitted with
        hBelow | hAbove
      · exact ⟨hBelow, fun _ =>
          le_trans hBelow.length_le (List.length_take_le _ _)⟩
      · -- the server would have had the whole snapshot
        exfalso
        apply hDiffer
        have hEq := List.prefix_iff_eq_take.mp
          (hAbove.trans hHeld)
        rw [List.length_take,
          Nat.min_eq_left (by omega)] at hEq
        exact hEq.symm

theorem settled
    (hStep : HistoryStep ok c g i event nd' effects)
    (hKept : ElectionsKept ok)
    (hNumbered : c.Numbered g)
    (hComplete : c.Complete g)
    (hCommitments : c.Commitments g)
    {j : Fin n}
    (hSettled : c.Settled g j part) :
    (c.after i nd' effects).Settled
      (g.after i event (c.nodes i).rf nd'.rf) j part := by
  have hRep := hStep.replication_step hKept.toLogsKept
  have hTerm := hStep.term_le j
  by_cases hj : j = i
  · subst hj
    rcases hStep.logChange hKept.toLogsKept
      (hKept.takes c _ hStep.accepted) hNumbered with
      ⟨b, b', hSuffix, hNew, hChange⟩
    rcases hStep.settled_held hComplete.sound hCommitments
      hSuffix hChange hSettled with ⟨hHeld, hBelow⟩
    refine ⟨hHeld, ?_⟩
    rcases hSettled.chosen with hOwn | ⟨h, hAny, hShort⟩
    · exact Or.inl (hRep.committedBy (hOwn.mono hTerm))
    · refine Or.inr ⟨h, hRep.committedBy hAny, ?_⟩
      intro b₁ hSuffix₁
      rw [after_nodes_self] at hSuffix₁
      rw [hSuffix₁.cut_unique hNew]
      exact hBelow (hShort b hSuffix)
  · refine ⟨?_, ?_⟩
    · rw [full_other hj]
      exact hSettled.held
    · rw [full_other hj]
      rcases hSettled.chosen with hOwn | ⟨h, hAny, hShort⟩
      · exact Or.inl (hRep.committedBy (hOwn.mono hTerm))
      · refine Or.inr ⟨h, hRep.committedBy hAny, ?_⟩
        rw [after_nodes_of_ne hj]
        exact hShort

------------------------------------------------------------
-- Cuts
------------------------------------------------------------

/- The service asks for snapshots of applied commands. -/
theorem snapshot_settled
    (hStep : HistoryStep ok c g i event nd' effects)
    (hCommitments : c.Commitments g)
    {index : Int}
    {snapshot : Bytes}
    (hEvent : event = .takeSnapshot index snapshot) :
    ∃ x : Nat, x < (g.full i).length ∧
      c.Settled g i ((g.full i).take (x + 1)) ∧
      index = (commandCount (g.full i) x : Int) := by
  subst hEvent
  rcases deliverable_takeSnapshot hStep.deliver with
    ⟨msg, hSent, hValid, rfl⟩
  rcases hCommitments.applied i msg (Or.inr (Or.inr hSent))
    hValid with ⟨before, e, hSettled, _, _, hIndex⟩
  have hEq := List.prefix_iff_eq_take.mp hSettled.held
  have hLength : (before ++ [e]).length =
      before.length + 1 := by
    rw [List.length_append]
    rfl
  have hLe := hSettled.held.length_le
  rw [hLength] at hEq hLe
  refine ⟨before.length, by omega, ?_, ?_⟩
  · rw [← hEq]
    exact hSettled
  · rw [hIndex]
    congr 1
    apply commandCount_congr
    rw [← hEq, ← hLength, List.take_length]

/-
  The cut after a step was settled before, or it was taken
  over from a leader.
-/
theorem cut_settled
    (hStep : HistoryStep ok c g i event nd' effects)
    (hNumbered : c.Numbered g)
    (hCommitments : c.Commitments g)
    {b b' : Nat}
    {full : List (LogEntry C)}
    (hSuffix : (c.nodes i).rf.SuffixOf (g.full i) b)
    (hChange : LogChange g (c.nodes i).rf i b event nd'.rf
      full b') :
    c.Settled g i (full.take (b' + 1)) ∨
      (nd'.rf.state = .follower ∧
        ∃ h, (c.replication g).CommittedBy h
          (full.take (b' + 1))) := by
  have hCut := hCommitments.settled_cut hSuffix
  have hLength := hSuffix.lt_length
  cases hChange with
  | kept => exact Or.inl hCut
  | extended e =>
      left
      rw [List.take_append_of_le_length (by omega)]
      exact hCut
  | compacted index snapshot hEvent hNewer _ _ _ hPrev =>
      left
      rcases hStep.snapshot_settled hCommitments hEvent with
        ⟨x, _, hSettled, hIndex⟩
      rcases hSuffix.internalIndex
        (hNumbered.servers i b hSuffix) hNewer
        (le_of_eq hIndex) with ⟨d, _, hLe, hFound, _⟩
      rw [hPrev, Option.some.injEq] at hFound
      apply hSettled.of_extends
      exact List.take_prefix_take_left (by omega)
  | stored args hEvent p k hStored hAfter =>
      left
      have hStart := hStored.start_lt
      have hTake := congrArg (List.take (b + 1))
        hStored.agrees
      rw [List.take_take, List.take_take,
        Nat.min_eq_left (by omega)] at hTake
      rw [List.take_take, Nat.min_eq_left (by omega),
        ← hTake]
      exact hCut
  | installed args hEvent _ hInstalls hLt hLe hTake =>
      refine Or.inr ⟨hInstalls.follower, args.term, ?_⟩
      rw [hTake]
      exact hStep.snapshot_committed hCommitments hEvent
        hInstalls.internal_eq
  | reset args hEvent _ hInstalls hLt hDiffer =>
      refine Or.inr ⟨hInstalls.follower, args.term, ?_⟩
      rw [List.take_take, Nat.min_self]
      exact hStep.snapshot_committed hCommitments hEvent
        hInstalls.internal_eq

theorem cuts_after
    (hStep : HistoryStep ok c g i event nd' effects)
    (hKept : ElectionsKept ok)
    (hNumbered : c.Numbered g)
    (hCommitments : c.Commitments g)
    (j : Fin n)
    (b' : Nat)
    (hSuffix' : ((c.after i nd' effects).nodes
      j).rf.SuffixOf
        ((g.after i event (c.nodes i).rf nd'.rf).full j)
        b') :
    ∃ h, ((c.after i nd' effects).replication
      (g.after i event (c.nodes i).rf nd'.rf)).CommittedBy h
        (((g.after i event (c.nodes i).rf nd'.rf).full
          j).take (b' + 1)) := by
  have hRep := hStep.replication_step hKept.toLogsKept
  by_cases hj : j = i
  · subst hj
    rw [after_nodes_self] at hSuffix'
    rcases hStep.logChange hKept.toLogsKept
      (hKept.takes c _ hStep.accepted) hNumbered with
      ⟨b, b₁, hSuffix, hNew, hChange⟩
    rw [hSuffix'.cut_unique hNew]
    rcases hStep.cut_settled hNumbered hCommitments hSuffix
      hChange with hSettled | ⟨_, h, hCommitted⟩
    · rcases hSettled.exists_committedBy with ⟨h, hAny⟩
      exact ⟨h, hRep.committedBy hAny⟩
    · exact ⟨h, hRep.committedBy hCommitted⟩
  · rw [after_nodes_of_ne hj, full_other hj] at hSuffix'
    rw [full_other hj]
    rcases hCommitments.cuts j b' hSuffix' with ⟨h, hCut⟩
    exact ⟨h, hRep.committedBy hCut⟩

/- The cut of the server that has moved, if it leads on. -/
theorem own_cut_settled
    (hStep : HistoryStep ok c g i event nd' effects)
    (hKept : ElectionsKept ok)
    (hNumbered : c.Numbered g)
    (hCommitments : c.Commitments g)
    (hState : nd'.rf.state ≠ .follower)
    {b' : Nat}
    (hSuffix' : nd'.rf.SuffixOf
      ((g.after i event (c.nodes i).rf nd'.rf).full i) b') :
    c.Settled g i
      (((g.after i event (c.nodes i).rf nd'.rf).full i).take
        (b' + 1)) := by
  rcases hStep.logChange hKept.toLogsKept
    (hKept.takes c _ hStep.accepted) hNumbered with
    ⟨b, b₁, hSuffix, hNew, hChange⟩
  rw [hSuffix'.cut_unique hNew]
  rcases hStep.cut_settled hNumbered hCommitments hSuffix
    hChange with hSettled | ⟨hFollower, _⟩
  · exact hSettled
  · exact absurd hFollower hState

/- A candidate that wins is not blocked. -/
theorem not_blocked_of_win
    (hStep : HistoryStep ok c g i event nd' effects)
    (hKept : ElectionsKept ok)
    {t : Int}
    (hMem : (.elected t : Effect C n) ∈ effects) :
    (c.nodes i).Campaigns ∧ (c.nodes i).rf.currentTerm = t ∧
      ¬ c.Blocked i := by
  rcases votes_of_win hStep.reach
    (hKept.wins c _ hStep.accepted) hStep.node hMem with
    ⟨Q, hQ, hVotes⟩
  have hWins := hKept.candidacies c _ hStep.accepted
  rcases hStep.raftStep.win_of_elected hMem with
    ⟨rfl, k, token, ballot, rfl, hThread, hCandiate,
      hBallot⟩
  refine ⟨Node.campaigns_of_win hWins hThread hCandiate
    hBallot, rfl, ?_⟩
  rintro ⟨Q', hQ', hAll⟩
  rcases hQ.exists_common hQ' with ⟨j, hj, hj'⟩
  exact (hAll j hj').2 (hVotes j hj)

/- What a leader has cut away is chosen by its term. -/
theorem leaders_after
    (hStep : HistoryStep ok c g i event nd' effects)
    (hKept : ElectionsKept ok)
    (hNumbered : c.Numbered g)
    (hCommitments : c.Commitments g)
    (j : Fin n)
    (hLeader : ((c.after i nd' effects).nodes j).rf.state =
      .leader)
    (b' : Nat)
    (hSuffix' : ((c.after i nd' effects).nodes
      j).rf.SuffixOf
        ((g.after i event (c.nodes i).rf nd'.rf).full j)
        b') :
    ((c.after i nd' effects).replication
      (g.after i event (c.nodes i).rf nd'.rf)).CommittedBy
        ((c.after i nd' effects).nodes j).rf.currentTerm
        (((g.after i event (c.nodes i).rf nd'.rf).full
          j).take (b' + 1)) := by
  have hRep := hStep.replication_step hKept.toLogsKept
  by_cases hj : j = i
  · subst hj
    rw [after_nodes_self] at hLeader hSuffix' ⊢
    apply hRep.committedBy
    have hSettled := hStep.own_cut_settled hKept hNumbered
      hCommitments (by rw [hLeader]; decide) hSuffix'
    rcases (hStep.led hKept.toLogsKept).holds j with
      ⟨b, hSuffix, _⟩
    rcases hStep.leader_cases hKept.toLogsKept hLeader with
      hWon | ⟨hBefore, hTerm⟩
    · rcases hStep.not_blocked_of_win hKept hWon with
        ⟨hCampaigns, hTerm, hNot⟩
      rcases hCommitments.candidates j hCampaigns with
        hBlocked | hCut
      · exact absurd hBlocked hNot
      · rw [← hTerm]
        exact hSettled.committedBy hSuffix (hCut b hSuffix)
    · rw [← hTerm]
      exact hSettled.committedBy hSuffix
        (hCommitments.leaders j hBefore b hSuffix)
  · rw [after_nodes_of_ne hj] at hLeader
    rw [after_nodes_of_ne hj, full_other hj] at hSuffix'
    rw [after_nodes_of_ne hj, full_other hj]
    exact hRep.committedBy
      (hCommitments.leaders j hLeader b' hSuffix')

/- A term with a log of its own was won, but for the first. -/
theorem won_of_chosen
    (hStep : HistoryStep ok c g i event nd' effects)
    (hKept : LogsKept ok)
    {t : Int}
    {m : Nat}
    (hChosen : (c.replication g).Chosen t m)
    (hGt : 1 < t) :
    ∃ j, c.Won j t := by
  by_contra hNone
  have hUnled := (hStep.led hKept).unled t
    (fun j hWon => hNone ⟨j, hWon⟩)
  apply hChosen.1.ne_nil
  change g.leaderLog t = []
  rw [hUnled]
  exact if_neg (by omega)

/- A candidate is blocked, or it has what was chosen. -/
theorem candidates_after
    (hStep : HistoryStep ok c g i event nd' effects)
    (hKept : ElectionsKept ok)
    (hNumbered : c.Numbered g)
    (hCommitments : c.Commitments g)
    (j : Fin n)
    (hCampaigns :
      ((c.after i nd' effects).nodes j).Campaigns) :
    (c.after i nd' effects).Blocked j ∨
      ∀ b' : Nat, ((c.after i nd' effects).nodes
        j).rf.SuffixOf
          ((g.after i event (c.nodes i).rf nd'.rf).full j)
          b' →
        ((c.after i nd' effects).replication
          (g.after i event (c.nodes i).rf
            nd'.rf)).CommittedBy
          ((c.after i nd' effects).nodes j).rf.currentTerm
          (((g.after i event (c.nodes i).rf nd'.rf).full
            j).take (b' + 1)) := by
  have hRep := hStep.replication_step hKept.toLogsKept
  by_cases hj : j = i
  · subst hj
    rw [after_nodes_self] at hCampaigns ⊢
    rcases (hStep.led hKept.toLogsKept).holds j with
      ⟨b, hSuffix, _⟩
    rcases (hStep.led_after hKept.toLogsKept).holds j with
      ⟨b₁, hNew, _⟩
    rw [after_nodes_self] at hNew
    have hSettled := hStep.own_cut_settled hKept hNumbered
      hCommitments (by rw [hCampaigns.1]; decide) hNew
    -- one cut stands for all
    have hUnique :
        ∀ {t : Int},
          (c.replication g).CommittedBy t
            (((g.after j event (c.nodes j).rf nd'.rf).full
              j).take (b₁ + 1)) →
          ∀ b' : Nat, nd'.rf.SuffixOf
            ((g.after j event (c.nodes j).rf nd'.rf).full j)
            b' →
          ((c.after j nd' effects).replication
            (g.after j event (c.nodes j).rf
              nd'.rf)).CommittedBy t
            (((g.after j event (c.nodes j).rf nd'.rf).full
              j).take (b' + 1)) := by
      intro t hCut b' hSuffix'
      rw [hSuffix'.cut_unique hNew]
      exact hRep.committedBy hCut
    rcases Node.campaigns_cases hStep.node hCampaigns with
      ⟨_, _, args, _, _, hStart⟩ | ⟨hBefore, hTerm⟩
    · rcases hSettled.exists_committedBy with
        ⟨h, t, m, _, hChosen, hLog⟩
      by_cases hLate : t ≤ nd'.rf.currentTerm
      · exact Or.inr
          (hUnique ⟨t, m, hLate, hChosen, hLog⟩)
      · left
        have hPos := (ownElections_of_reachable hKept.wins
          hStep.reach_after j).term_pos
        rw [after_nodes_self] at hPos
        rcases hStep.won_of_chosen hKept.toLogsKept hChosen
          (by omega) with ⟨k, hWon⟩
        exact hStep.blocked_of_start hKept.toReplicationKept
          hStart hWon (not_le.mp hLate)
    · rcases hCommitments.candidates j hBefore with
        hBlocked | hCut
      · left
        apply hStep.blocked _ hBlocked
        rw [after_nodes_self]
        exact hTerm
      · right
        apply hUnique
        rw [hTerm]
        exact hSettled.committedBy hSuffix (hCut b hSuffix)
  · rw [after_nodes_of_ne hj] at hCampaigns
    rw [after_nodes_of_ne hj, full_other hj]
    rcases hCommitments.candidates j hCampaigns with
      hBlocked | hCut
    · left
      apply hStep.blocked _ hBlocked
      rw [after_nodes_of_ne hj]
    · right
      intro b' hSuffix'
      exact hRep.committedBy (hCut b' hSuffix')

end HistoryStep

end Cluster

------------------------------------------------------------
-- Commit Indices
------------------------------------------------------------

/- Only a leader moves its commit index by itself. -/
def Node.commitsAsLeader
    (nd : Node C n) :
    Event C n → Bool
| .run i =>
    match nd.threads[i]?, nd.rf.commitTarget with
    | some (.commitWait _), some (some _) =>
        decide (nd.rf.state = .leader)
    | _, _ => true
| _ => true

theorem Raft.commitIndex_of_make
    {me : Fin n}
    {persister : Persister C}
    {rf : Raft C n}
    (hMake : make me persister = some rf) :
    rf.commitIndex = 0 := by
  rcases make_spec hMake with
    ⟨rf₀, _, hRead, _, _, _, _, hCommit, _⟩
  rw [hCommit]
  unfold readPersist at hRead
  split at hRead
  · cases hRead
    rfl
  · rcases Option.bind_eq_some_iff.mp hRead with ⟨_, _, hRead⟩
    cases hRead
    rfl
  · cases hRead
    rfl

/- What a step does to the commit index. -/
theorem RaftStep.commitIndex_cases
    {nd : Node C n}
    {event : Event C n}
    {rf' : Raft C n}
    {effects : List (Effect C n)}
    (hStep : RaftStep nd event rf' effects) :
    rf'.commitIndex = nd.rf.commitIndex ∨
      event.replicates = true ∨
      rf'.commitIndex = 0 ∨
      ∃ i k, event = .run i ∧
        nd.threads[i]? = some (.commitWait k) ∧
        nd.rf.commitTarget = some (some rf'.commitIndex) := by
  cases hStep with
  | requestVote args _ _ reply hCase =>
      left
      cases hCase with
      | stale => rfl
      | refused =>
          unfold Raft.adoptVoteTerm
          split <;> rfl
      | granted =>
          unfold Raft.giveVote Raft.adoptVoteTerm
          split <;> rfl
  | appendEntries args hEvent =>
      rw [hEvent]
      exact Or.inr (Or.inl rfl)
  | installSnapshot args hEvent =>
      rw [hEvent]
      exact Or.inr (Or.inl rfl)
  | election i k hEvent hThread _ args hStart =>
      left
      rw [(Raft.electionStart_spec hStart).1]
      rfl
  | commit i k hEvent hThread N hTarget =>
      exact Or.inr (Or.inr (Or.inr
        ⟨i, k, hEvent, hThread, hTarget⟩))
  | applyEntries _ hApply =>
      exact Or.inl (Raft.commitIndex_applyEntries hApply)
  | restart hEvent _ hMake =>
      exact Or.inr (Or.inr (Or.inl
        (Raft.commitIndex_of_make hMake)))
  | _ => exact Or.inl rfl

namespace Cluster

variable [DecidableEq C]
variable {ok : Cluster C n → Fin n × Event C n → Prop}
variable {c : Cluster C n}
variable {g : LogHistory C n}

/-
  The run conditions for commitment: those for the safety of
  leaders, and leaders count replies of their own term, and
  only leaders commit.
-/
structure CommitsKept
    (ok : Cluster C n → Fin n × Event C n → Prop) :
    Prop extends ElectionsKept ok where
  counts :
    ∀ c a, ok c a →
      (c.nodes a.1).countsOwnReplies a.2 = true
  commits :
    ∀ c a, ok c a →
      (c.nodes a.1).commitsAsLeader a.2 = true

/- A leader that counts a majority has a chosen log. -/
omit [DecidableEq C] in
theorem Matched.committedBy
    (hMatched : c.Matched g)
    (hLed : LogsLed c g)
    {i : Fin n}
    (hLeader : (c.nodes i).rf.state = .leader)
    {N : Nat}
    (hPos : 0 < N)
    (hCount : n / 2 + 1 ≤ (c.nodes i).rf.matchCount (N : Int))
    (hTerm : termAt (g.full i) N =
      some (c.nodes i).rf.currentTerm) :
    (c.replication g).CommittedBy
      (c.nodes i).rf.currentTerm
      ((g.full i).take (N + 1)) := by
  have hOwn := hLed.leader i _ ⟨hLeader, rfl⟩
  refine ⟨_, N + 1, le_refl _, ⟨⟨?_, ?_⟩, ?_⟩, ?_⟩
  · exact Nat.succ_pos N
  · rcases termAt_eq_some_iff.mp hTerm with
      ⟨e, hEntry, hEq⟩
    refine ⟨e, ?_, hEq⟩
    change (g.leaderLog _)[N]? = some e
    rw [hOwn]
    exact hEntry
  · refine ⟨_, hCount, ?_⟩
    intro j hMem
    exact hMatched i _ ⟨hLeader, rfl⟩ j N hPos
      (Finset.mem_filter.mp hMem).2
  · change _ <+: (g.leaderLog _).take (N + 1)
    rw [hOwn]

/- A commit of a leader is settled. -/
omit [DecidableEq C] in
theorem Matched.settled_commit
    (hMatched : c.Matched g)
    (hLed : LogsLed c g)
    (hCommitments : c.Commitments g)
    {i : Fin n}
    (hStart : c.Settled g i [startEntry])
    (hLeader : (c.nodes i).rf.state = .leader)
    {N : Int}
    (hTarget : (c.nodes i).rf.commitTarget =
      some (some N)) :
    ∃ part, c.Settled g i part ∧
      (part.length : Int) = N + 1 := by
  rcases hLed.holds i with ⟨b, hSuffix, _⟩
  rcases hSuffix.head with ⟨first, hLog, hIndex, _⟩
  have hLength := hSuffix.length_log
  have hLt := hSuffix.lt_length
  rcases (c.nodes i).rf.exists_majorityMatch with ⟨M, hM⟩
  rcases (Raft.commitTarget_eq_some_iff hLog hM).mp hTarget
    with ⟨rfl, hMoves, hInside, l, hLocal, hAllowed⟩
  rcases hCommitments.commits i with ⟨before, _, hBefore⟩
  rw [hSuffix.localIndex, Option.some.injEq] at hLocal
  by_cases hZero : N = 0
  · rw [hZero]
    exact ⟨_, hStart, rfl⟩
  · rcases Int.eq_ofNat_of_zero_le (show 0 ≤ N by omega) with
      ⟨k, rfl⟩
    refine ⟨(g.full i).take (k + 1), ?_, ?_⟩
    · rcases hAllowed with hBelow | ⟨e, hEntry, hTerm⟩
      · -- the snapshot of the leader covers it
        apply (hCommitments.settled_cut hSuffix).of_extends
        exact List.take_prefix_take_left (by omega)
      · refine ⟨List.take_prefix _ _, Or.inl ?_⟩
        apply hMatched.committedBy hLed hLeader (by omega)
          hM.1
        have hRange := (GoSlice.at?_eq_some_iff.mp hEntry).1
        have hAt := hSuffix.logAt_term
          (show b ≤ k by omega)
        rw [hLocal, hEntry] at hAt
        rw [← hAt, ← hTerm]
        rfl
    · rw [List.length_take, Nat.min_eq_left (by omega)]
      push_cast
      rfl

namespace HistoryStep

variable {i : Fin n}
variable {event : Event C n}
variable {nd' : Node C n}
variable {effects : List (Effect C n)}

/- What a request says is committed is settled once stored. -/
theorem settled_stored
    (hStep : HistoryStep ok c g i event nd' effects)
    (hKept : CommitsKept ok)
    (hCommitments : c.Commitments g)
    {args : AppendEntriesArgs C}
    (hEvent : event = .appendEntries args)
    {p k : Nat}
    (hStored : (c.nodes i).rf.Stored nd'.rf args (g.full i)
      (g.leaderLog args.term) p k)
    (hFull : (g.after i event (c.nodes i).rf nd'.rf).full i =
      (g.leaderLog args.term).take k) :
    ∃ part, (c.after i nd' effects).Settled
        (g.after i event (c.nodes i).rf nd'.rf) i part ∧
      (part.length : Int) = nd'.rf.commitIndex + 1 := by
  have hRep := hStep.replication_step hKept.toLogsKept
  have hEnd := hStored.end_eq
  subst hEvent
  rcases deliverable_appendEntries.mp hStep.deliver with
    ⟨j, hSent⟩
  rcases hCommitments.appends j i args hSent with
    ⟨part, hLeader, hCommitted, hLength, hLe⟩
  refine ⟨part, ⟨?_, Or.inl ?_⟩, ?_⟩
  · rw [hFull, List.prefix_take_iff]
    exact ⟨hLeader, by omega⟩
  · rw [after_nodes_self, hStored.term_eq]
    exact hRep.committedBy hCommitted
  · rw [hStored.commit_eq]
    exact hLength

/- A snapshot that is taken over is settled. -/
theorem settled_installed
    (hStep : HistoryStep ok c g i event nd' effects)
    (hKept : CommitsKept ok)
    (hCommitments : c.Commitments g)
    {args : InstallSnapshotArgs}
    (hEvent : event = .installSnapshot args)
    {b' : Nat}
    (hInstalls : (c.nodes i).rf.Installs nd'.rf args b')
    (hLt : b' < (g.leaderLog args.term).length)
    (hNew : nd'.rf.SuffixOf
      ((g.after i event (c.nodes i).rf nd'.rf).full i) b')
    (hTake : ((g.after i event (c.nodes i).rf nd'.rf).full
        i).take (b' + 1) =
      (g.leaderLog args.term).take (b' + 1)) :
    ∃ part, (c.after i nd' effects).Settled
        (g.after i event (c.nodes i).rf nd'.rf) i part ∧
      (part.length : Int) = nd'.rf.commitIndex + 1 := by
  have hRep := hStep.replication_step hKept.toLogsKept
  have hCommitted := hStep.snapshot_committed hCommitments
    hEvent hInstalls.internal_eq
  have hLength : ((g.leaderLog args.term).take
      (b' + 1)).length = b' + 1 := by
    rw [List.length_take, Nat.min_eq_left hLt]
  refine ⟨_, ⟨?_, Or.inr
    ⟨args.term, hRep.committedBy hCommitted, ?_⟩⟩, ?_⟩
  · rw [← hTake]
    exact List.take_prefix _ _
  · intro b₁ hSuffix₁
    rw [after_nodes_self] at hSuffix₁
    rw [hLength, hSuffix₁.cut_unique hNew]
  · rw [hLength, hInstalls.commit_eq]
    push_cast
    rfl

/- A commit index that a server moves by itself. -/
theorem settled_own
    (hStep : HistoryStep ok c g i event nd' effects)
    (hKept : CommitsKept ok)
    (hNumbered : c.Numbered g)
    (hComplete : c.Complete g)
    (hCommitments : c.Commitments g)
    (hOwn : event.replicates = false) :
    ∃ part, (c.after i nd' effects).Settled
        (g.after i event (c.nodes i).rf nd'.rf) i part ∧
      (part.length : Int) = nd'.rf.commitIndex + 1 := by
  have hLed := hStep.led hKept.toLogsKept
  have hStays :
      ∀ part, c.Settled g i part →
        (c.after i nd' effects).Settled
          (g.after i event (c.nodes i).rf nd'.rf) i part := by
    intro part hSettled
    exact hStep.settled hKept.toElectionsKept hNumbered
      hComplete hCommitments hSettled
  have hStart : c.Settled g i [startEntry] :=
    settled_start (hLed.led i)
      (leaderLog_one hKept.toReplicationKept hStep.history)
      (ownElections_of_reachable hKept.wins hStep.reach
        i).term_pos
  rcases hStep.raftStep.commitIndex_cases with
    hSame | hReplicates | hZero |
    ⟨k, token, hEvent, hThread, hTarget⟩
  · rcases hCommitments.commits i with
      ⟨part, hSettled, hLength⟩
    rw [hSame]
    exact ⟨part, hStays part hSettled, hLength⟩
  · rw [hOwn] at hReplicates
    cases hReplicates
  · rw [hZero]
    exact ⟨_, hStays _ hStart, rfl⟩
  · have hLeads := hKept.commits c _ hStep.accepted
    simp only [Node.commitsAsLeader, hEvent, hThread, hTarget,
      decide_eq_true_eq] at hLeads
    have hMatched : c.Matched g :=
      matched_of_history hKept.toLogsKept hKept.counts
        hStep.history
    rcases hMatched.settled_commit hLed hCommitments hStart
      hLeads hTarget with ⟨part, hSettled, hLength⟩
    exact ⟨part, hStays part hSettled, hLength⟩

theorem commits_after
    (hStep : HistoryStep ok c g i event nd' effects)
    (hKept : CommitsKept ok)
    (hNumbered : c.Numbered g)
    (hComplete : c.Complete g)
    (hCommitments : c.Commitments g)
    (j : Fin n) :
    ∃ part, (c.after i nd' effects).Settled
        (g.after i event (c.nodes i).rf nd'.rf) j part ∧
      (part.length : Int) =
        ((c.after i nd' effects).nodes j).rf.commitIndex +
          1 := by
  by_cases hj : j = i
  · subst hj
    rw [after_nodes_self]
    by_cases hOwn : event.replicates = true
    · rcases hStep.logChange hKept.toLogsKept
        (hKept.takes c _ hStep.accepted) hNumbered with
        ⟨b, b', hSuffix, hNew, hChange⟩
      have hSame :
          nd'.rf.commitIndex = (c.nodes j).rf.commitIndex →
          ∃ part, (c.after j nd' effects).Settled
              (g.after j event (c.nodes j).rf nd'.rf) j
              part ∧
            (part.length : Int) =
              nd'.rf.commitIndex + 1 := by
        intro hCommit
        rcases hCommitments.commits j with
          ⟨part, hSettled, hLength⟩
        rw [hCommit]
        exact ⟨part, hStep.settled hKept.toElectionsKept
          hNumbered hComplete hCommitments hSettled, hLength⟩
      generalize hFull :
        (g.after j event (c.nodes j).rf nd'.rf).full j = full
          at hNew hChange
      cases hChange with
      | kept _ hCommit => exact hSame (hCommit hOwn)
      | extended e _ hCommit => exact hSame hCommit
      | compacted index snapshot hEvent =>
          rw [hEvent] at hOwn
          cases hOwn
      | stored args hEvent p k hStored =>
          exact hStep.settled_stored hKept hCommitments
            hEvent hStored hFull
      | installed args hEvent _ hInstalls hLt _ hTake =>
          rw [← hFull] at hNew hTake
          exact hStep.settled_installed hKept hCommitments
            hEvent hInstalls hLt hNew hTake
      | reset args hEvent _ hInstalls hLt =>
          rw [← hFull] at hNew
          apply hStep.settled_installed hKept hCommitments
            hEvent hInstalls hLt hNew
          rw [hFull, List.take_take, Nat.min_self]
    · exact hStep.settled_own hKept hNumbered hComplete
        hCommitments (Bool.eq_false_of_not_eq_true hOwn)
  · rw [after_nodes_of_ne hj]
    rcases hCommitments.commits j with
      ⟨part, hSettled, hLength⟩
    exact ⟨part, hStep.settled hKept.toElectionsKept
      hNumbered hComplete hCommitments hSettled, hLength⟩

------------------------------------------------------------
-- Messages Of Leaders
------------------------------------------------------------

/- What a leader has settled is chosen by its term. -/
theorem committed_of_leader
    (hStep : HistoryStep ok c g i event nd' effects)
    (hKept : LogsKept ok)
    (hCommitments : c.Commitments g)
    {t : Int}
    (hLeader : c.LeaderOf i t)
    {part : List (LogEntry C)}
    (hSettled : c.Settled g i part) :
    (c.replication g).CommittedBy t part := by
  rcases (hStep.led hKept).holds i with ⟨b, hSuffix, _⟩
  rw [← hLeader.2]
  exact hSettled.committedBy hSuffix
    (hCommitments.leaders i hLeader.1 b hSuffix)

theorem appends_after
    (hStep : HistoryStep ok c g i event nd' effects)
    (hKept : LogsKept ok)
    (hCommitments : c.Commitments g)
    (j k : Fin n)
    (args : AppendEntriesArgs C)
    (hMem : (j, .appendEntries k args) ∈
      (c.after i nd' effects).trace) :
    ∃ part, part <+: (g.after i event (c.nodes i).rf
        nd'.rf).leaderLog args.term ∧
      ((c.after i nd' effects).replication
        (g.after i event (c.nodes i).rf nd'.rf)).CommittedBy
          args.term part ∧
      (part.length : Int) = args.leaderCommit + 1 ∧
      (part.length : Int) ≤
        args.prevLogIndex + 1 + args.entries.length := by
  have hRep := hStep.replication_step hKept
  have hGrows := hStep.grows hKept args.term
  rcases mem_after_trace.mp hMem with hOld | ⟨rfl, hNew⟩
  · rcases hCommitments.appends j k args hOld with
      ⟨part, hLeader, hCommitted, hRest⟩
    exact ⟨part, hLeader.trans hGrows,
      hRep.committedBy hCommitted, hRest⟩
  · rcases hStep.sent hKept hNew rfl with
      ⟨⟨next, hArgs⟩, hLeader, hOwn⟩
    rcases (hStep.led hKept).holds j with ⟨b, hSuffix, _⟩
    rcases hSuffix.syncArgs hArgs with
      ⟨_, p, hLt, hPrev, _, hEntries, _, hCommit⟩
    rcases hCommitments.commits j with
      ⟨part, hSettled, hLength⟩
    have hLe := hSettled.held.length_le
    refine ⟨part, ?_, ?_, ?_, ?_⟩
    · apply List.IsPrefix.trans _ hGrows
      rw [hOwn]
      exact hSettled.held
    · exact hRep.committedBy (hStep.committed_of_leader hKept
        hCommitments hLeader hSettled)
    · rw [hCommit]
      exact hLength
    · rw [hPrev, hEntries, List.length_drop]
      omega

theorem snapshots_after
    (hStep : HistoryStep ok c g i event nd' effects)
    (hKept : LogsKept ok)
    (hCommitments : c.Commitments g)
    (j k : Fin n)
    (args : InstallSnapshotArgs)
    (hMem : (j, .installSnapshot k args) ∈
      (c.after i nd' effects).trace) :
    ∃ part, part <+: (g.after i event (c.nodes i).rf
        nd'.rf).leaderLog args.term ∧
      ((c.after i nd' effects).replication
        (g.after i event (c.nodes i).rf nd'.rf)).CommittedBy
          args.term part ∧
      (part.length : Int) =
        args.lastIncludedInternal + 1 := by
  have hRep := hStep.replication_step hKept
  have hGrows := hStep.grows hKept args.term
  rcases mem_after_trace.mp hMem with hOld | ⟨rfl, hNew⟩
  · rcases hCommitments.snapshots j k args hOld with
      ⟨part, hLeader, hCommitted, hRest⟩
    exact ⟨part, hLeader.trans hGrows,
      hRep.committedBy hCommitted, hRest⟩
  · rcases hStep.sent hKept hNew rfl with
      ⟨⟨first, hFirst, hArgs⟩, hLeader, hOwn⟩
    rcases (hStep.led hKept).holds j with ⟨b, hSuffix, _⟩
    have hLt := hSuffix.lt_length
    have hBase := hSuffix.baseIndex
    rw [Raft.baseIndex, hFirst, Option.map_some,
      Option.some.injEq] at hBase
    refine ⟨(g.full j).take (b + 1), ?_, ?_, ?_⟩
    · apply List.IsPrefix.trans _ hGrows
      rw [hOwn]
      exact List.take_prefix _ _
    · exact hRep.committedBy (hStep.committed_of_leader hKept
        hCommitments hLeader
        (hCommitments.settled_cut hSuffix))
    · rw [hArgs, List.length_take,
        Nat.min_eq_left (by omega)]
      change _ = first.index + 1
      rw [hBase]
      push_cast
      rfl

end HistoryStep

end Cluster

end RaftLab
