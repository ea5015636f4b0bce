import RaftLab.Raft.StateMachineSafety

/-
  What becomes of the entries of a log over a run.

  The log of a leader only grows while it leads. An entry
  that a server has committed stays in its log, whatever
  requests it handles and however often it restarts, is the
  same on all servers that commit its index, and is in the
  log of all leaders of later terms. A server may compact
  its log; then its snapshot covers the index.

  The run conditions are those under which logs match and
  state machines are safe.

  Main declarations:
    * `Raft.Keeps`
    * `Cluster.run_history`
    * `Cluster.leader_append_only`
    * `Cluster.leader_completeness`
    * `Cluster.committed_entries_kept`
    * `Cluster.committed_entries_agree`
-/

------------------------------------------------------------
-- Entries Of A Server
------------------------------------------------------------

namespace RaftLab

variable {C : Type} {n : Nat}

/- The entry is held, or compacted into the snapshot. -/
def Raft.Keeps
    (rf : Raft C n)
    (p : Int)
    (e : LogEntry C) : Prop :=
  rf.heldAt p = some e ∨
    ∃ base, rf.baseIndex = some base ∧ p ≤ base

theorem Raft.SuffixOf.keeps
    {rf : Raft C n}
    {full : List (LogEntry C)}
    {b : Nat}
    (hSuffix : rf.SuffixOf full b)
    {k : Nat}
    {e : LogEntry C}
    (hEntry : full[k]? = some e) :
    rf.Keeps (k : Int) e := by
  by_cases hLt : b < k
  · left
    unfold Raft.heldAt
    rw [hSuffix.baseIndex]
    simp only [Option.bind_eq_bind, Option.bind_some]
    rw [if_pos (by omega), hSuffix.logAt_eq hLt]
    exact hEntry
  · exact Or.inr ⟨b, hSuffix.baseIndex, by omega⟩

namespace Cluster

variable [DecidableEq C]
variable {ok : Cluster C n → Fin n × Event C n → Prop}
variable {c c' : Cluster C n}
variable {i j : Fin n}
variable {p : Int}
variable {e e' : LogEntry C}

------------------------------------------------------------
-- Runs With History
------------------------------------------------------------

/- A run goes on with the history that it has. -/
theorem run_history
    {P : Cluster C n → LogHistory C n → Prop}
    {g : LogHistory C n}
    (hHistory : (logSystem C n).Reachable
      (fun p a => ok p.1 a) (c, g))
    (hStart : P c g)
    (hStep :
      ∀ c g i event nd' effects,
        HistoryStep ok c g i event nd' effects → P c g →
          P (c.after i nd' effects)
            (g.after i event (c.nodes i).rf nd'.rf))
    (hRun : (system C n).Run ok c c') :
    ∃ g', (logSystem C n).Reachable
      (fun p a => ok p.1 a) (c', g') ∧ P c' g' := by
  induction hRun with
  | refl => exact ⟨g, hHistory, hStart⟩
  | tail _ hOk hNext ih =>
      rename_i c₁ c₂ a _
      rcases a with ⟨i, event⟩
      rcases ih with ⟨g₁, hReach, hP⟩
      rcases system_step_cases hNext with
        ⟨nd', effects, hDeliver, hNode, rfl⟩
      have hHistoryStep :
          HistoryStep ok c₁ g₁ i event nd' effects :=
        ⟨hReach, hOk, hDeliver, hNode⟩
      exact ⟨_, hHistoryStep.history_after,
        hStep c₁ g₁ i event nd' effects hHistoryStep hP⟩

/-
  `part` is a part of the log of server `i` that was chosen
  by term `h`, with `e` at index `p`.
-/
structure Commits
    (c : Cluster C n)
    (g : LogHistory C n)
    (i : Fin n)
    (h : Int)
    (p : Int)
    (e : LogEntry C)
    (part : List (LogEntry C)) : Prop where
  entry : ∃ k : Nat, p = (k : Int) ∧ part[k]? = some e
  settled : c.Settled g i part
  chosen : (c.replication g).CommittedBy h part

/- A log that extends the part has the entry. -/
omit [DecidableEq C] in
theorem Commits.keeps
    {g : LogHistory C n}
    {h : Int}
    {part full : List (LogEntry C)}
    (hCommits : c.Commits g i h p e part)
    (hPrefix : part <+: full)
    {rf : Raft C n}
    (hHolds : rf.Holds full) :
    rf.Keeps p e := by
  rcases hCommits.entry with ⟨k, rfl, hEntry⟩
  rcases hHolds with ⟨b, hSuffix, _⟩
  exact hSuffix.keeps (getElem?_of_extends hPrefix hEntry)

/- A committed entry that is held is chosen by its term. -/
omit [DecidableEq C] in
theorem exists_commits
    {g : LogHistory C n}
    (hLed : LogsLed c g)
    (hCommitments : c.Commitments g)
    (hHeld : (c.nodes i).rf.heldAt p = some e)
    (hCommitted : p ≤ (c.nodes i).rf.commitIndex) :
    ∃ part, c.Commits g i (c.nodes i).rf.currentTerm p e
      part := by
  rcases hLed.holds i with ⟨b, hSuffix, _⟩
  rcases hSuffix.getElem?_of_heldAt hHeld with
    ⟨k, rfl, hEntry⟩
  have hAbove := hSuffix.lt_of_heldAt hHeld
  rcases hCommitments.commits i with
    ⟨part, hSettled, hLength⟩
  have hLt : k < part.length := by omega
  rcases hSettled.held with ⟨rest, hFull⟩
  rw [← hFull, List.getElem?_append_left hLt] at hEntry
  refine ⟨part, ⟨k, rfl, hEntry⟩, hSettled, ?_⟩
  rcases hSettled.chosen with hTerm | ⟨h, _, hShort⟩
  · exact hTerm
  · -- all of the part would lie below the cut
    have hBelow := hShort b hSuffix
    omega

/- What is known of a state with its history. -/
structure Recorded
    (c : Cluster C n)
    (g : LogHistory C n) : Prop where
  led : LogsLed c g
  complete : c.Complete g
  commitments : c.Commitments g

theorem recorded_of_history
    {g : LogHistory C n}
    (hHistory : (logSystem C n).Reachable
      (fun p a => StaysInRole p.1 a) (c, g)) :
    c.Recorded g := by
  have hKept : CommitsKept (StaysInRole (C := C) (n := n)) :=
    commitsKept_staysInRole
  rcases commitments_of_history hKept hHistory with
    ⟨_, hComplete, hCommitments⟩
  exact ⟨logsLed_of_reachable hKept.toLogsKept hHistory,
    hComplete, hCommitments⟩

/-
  The part stays with the server and stays chosen to the end
  of the run.
-/
theorem commits_of_run
    (hReach : (system C n).Reachable StaysInRole c)
    (hRun : (system C n).Run StaysInRole c c')
    (hHeld : (c.nodes i).rf.heldAt p = some e)
    (hCommitted : p ≤ (c.nodes i).rf.commitIndex) :
    ∃ g' part, c'.Recorded g' ∧
      c'.Commits g' i (c.nodes i).rf.currentTerm p e
        part := by
  have hKept : CommitsKept (StaysInRole (C := C) (n := n)) :=
    commitsKept_staysInRole
  rcases hReach.exists_history LogHistory.start
      LogHistory.record with ⟨g, hHistory⟩
  have hRecorded := recorded_of_history hHistory
  rcases exists_commits hRecorded.led hRecorded.commitments
    hHeld hCommitted with ⟨part, hCommits⟩
  rcases run_history
    (P := fun c₁ g₁ => c₁.Commits g₁ i
      (c.nodes i).rf.currentTerm p e part)
    hHistory hCommits (by
      intro c₁ g₁ k event nd' effects hStep hBefore
      rcases commitments_of_history hKept hStep.history with
        ⟨hNumbered, hComplete, hCommitments⟩
      exact ⟨hBefore.entry,
        hStep.settled hKept.toElectionsKept hNumbered
          hComplete hCommitments hBefore.settled,
        (hStep.replication_step
          hKept.toLogsKept).committedBy hBefore.chosen⟩)
    hRun with ⟨g', hHistory', hCommits'⟩
  exact ⟨g', part, recorded_of_history hHistory', hCommits'⟩

------------------------------------------------------------
-- Leaders
------------------------------------------------------------

/-
  While a server leads a term it keeps all entries that it
  has, and so does whoever leads the term later.
-/
theorem leader_append_only
    (hReach : (system C n).Reachable MatchingFixes c)
    (hRun : (system C n).Run MatchingFixes c c')
    {t : Int}
    (hLeader : c.LeaderOf i t)
    (hLeader' : c'.LeaderOf j t)
    (hHeld : (c.nodes i).rf.heldAt p = some e) :
    (c'.nodes j).rf.Keeps p e := by
  have hKept : LogsKept (MatchingFixes (C := C) (n := n)) :=
    logsKept_matchingFixes
  rcases hReach.exists_history LogHistory.start
      LogHistory.record with ⟨g, hHistory⟩
  have hLed := logsLed_of_reachable hKept hHistory
  rcases hLed.holds i with ⟨b, hSuffix, _⟩
  rcases hSuffix.getElem?_of_heldAt hHeld with
    ⟨k, rfl, hEntry⟩
  rw [← hLed.leader i t hLeader] at hEntry
  -- the log of the leader of the term grows in every step
  rcases run_history
    (P := fun _ g' => (g'.leaderLog t)[k]? = some e)
    hHistory hEntry (by
      intro c₁ g₁ m event nd' effects hStep hAt
      exact getElem?_of_extends (hStep.grows hKept t) hAt)
    hRun with ⟨g', hHistory', hEntry'⟩
  have hLed' := logsLed_of_reachable hKept hHistory'
  rw [hLed'.leader j t hLeader'] at hEntry'
  rcases hLed'.holds j with ⟨b', hSuffix', _⟩
  exact hSuffix'.keeps hEntry'

/-
  An entry that a server has committed is in the log of
  every leader, at that time or later, whose term is not
  behind the term of the server.
-/
theorem leader_completeness
    (hReach : (system C n).Reachable StaysInRole c)
    (hRun : (system C n).Run StaysInRole c c')
    (hHeld : (c.nodes i).rf.heldAt p = some e)
    (hCommitted : p ≤ (c.nodes i).rf.commitIndex)
    {t : Int}
    (hLeader : c'.LeaderOf j t)
    (hTerm : (c.nodes i).rf.currentTerm ≤ t) :
    (c'.nodes j).rf.Keeps p e := by
  rcases commits_of_run hReach hRun hHeld hCommitted with
    ⟨g', part, hRecorded, hCommits⟩
  have hLed := hRecorded.led
  have hLog := hLed.leader j t hLeader
  have hSome : g'.leaderLog t ≠ [] := by
    intro hNil
    have hHead := (hLed.led j).head
    rw [← hLog, hNil] at hHead
    simp at hHead
  have hPrefix := hCommits.chosen.extends_leader
    hRecorded.complete.sound hTerm hSome
  refine hCommits.keeps ?_ (hLed.holds j)
  rw [← hLog]
  exact hPrefix

------------------------------------------------------------
-- Committed Entries
------------------------------------------------------------

/-
  A server keeps the entries that it has committed. This
  spans restarts, after which `commitIndex` is 0 again.
-/
theorem committed_entries_kept
    (hReach : (system C n).Reachable StaysInRole c)
    (hRun : (system C n).Run StaysInRole c c')
    (hHeld : (c.nodes i).rf.heldAt p = some e)
    (hCommitted : p ≤ (c.nodes i).rf.commitIndex) :
    (c'.nodes i).rf.Keeps p e := by
  rcases commits_of_run hReach hRun hHeld hCommitted with
    ⟨g', part, hRecorded, hCommits⟩
  exact hCommits.keeps hCommits.settled.held
    (hRecorded.led.holds i)

/-
  Two servers that have committed an index, at that time or
  later, have the same entry there: its term, its type and
  its command.
-/
theorem committed_entries_agree
    (hReach : (system C n).Reachable StaysInRole c)
    (hRun : (system C n).Run StaysInRole c c')
    (hHeld : (c.nodes i).rf.heldAt p = some e)
    (hCommitted : p ≤ (c.nodes i).rf.commitIndex)
    (hHeld' : (c'.nodes j).rf.heldAt p = some e')
    (hCommitted' : p ≤ (c'.nodes j).rf.commitIndex) :
    e = e' := by
  rcases commits_of_run hReach hRun hHeld hCommitted with
    ⟨g', part, hRecorded, hCommits⟩
  rcases exists_commits hRecorded.led hRecorded.commitments
    hHeld' hCommitted' with ⟨part', hCommits'⟩
  rcases hCommits.entry with ⟨k, rfl, hEntry⟩
  rcases hCommits'.entry with ⟨k', hIndex, hEntry'⟩
  rw [Int.natCast_inj] at hIndex
  subst hIndex
  rcases hCommits.chosen.comparable
    hRecorded.complete.sound hCommits'.chosen with
    hExtends | hExtends
  · rw [getElem?_of_extends hExtends hEntry] at hEntry'
    exact Option.some.inj hEntry'
  · rw [getElem?_of_extends hExtends hEntry'] at hEntry
    exact (Option.some.inj hEntry).symm

------------------------------------------------------------
-- Runs Of Three Servers
------------------------------------------------------------

/- Two runs, one after the other, found by execution. -/
omit [DecidableEq C] in
theorem exists_two_runs
    {M : System (Cluster C n) (Fin n × Event C n)}
    {ok : Cluster C n → Fin n × Event C n → Bool}
    {first second : List (Fin n × Event C n)}
    {s : Cluster C n}
    {P Q : Cluster C n → Bool}
    (hExec : ((M.execOk ok first s).bind fun t =>
      if P t then M.execOk ok second t else none).any Q =
        true) :
    ∃ t u, M.Run (fun s a => ok s a = true) s t ∧
      M.Run (fun s a => ok s a = true) t u ∧
      P t = true ∧ Q u = true := by
  rw [Option.any_eq_true] at hExec
  rcases hExec with ⟨u, hBind, hQ⟩
  rcases Option.bind_eq_some_iff.mp hBind with
    ⟨t, hFirst, hRest⟩
  split at hRest
  · rename_i hP
    exact ⟨t, u, System.execOk_run first hFirst,
      System.execOk_run second hRest, hP, hQ⟩
  · cases hRest

/- Command 7, where server 0 has put it. -/
def sevenOfTwo : LogEntry Nat where
  term := 2
  type := .normal
  index := 2
  command := some 7

/- Server `i` has committed command 7. -/
def hasCommitted
    (c : Cluster Nat 3)
    (i : Fin 3) : Bool :=
  decide ((c.nodes i).rf.heldAt 2 = some sevenOfTwo) &&
    decide (2 ≤ (c.nodes i).rf.commitIndex)

/-
  Server 1 restarts and wins term 3 with the vote of server
  2, to which it shows the entry that it has kept.
-/
def restartWins {n : Nat} [NeZero n] :
    List (Fin n × Event Nat n) :=
  [(1, .restart), (1, .tickerTimeout), (1, .run 0),
    (2, .requestVote
      { initialLogRequest 3 1 with
        lastLogIndex := 3, lastLogTerm := 2 }),
    (1, .voteReply 2 { term := 3, voteGranted := true }),
    (1, .run 0), (1, .run 0), (1, .run 0), (1, .run 0)]

/-
  Server 1 has committed command 7 in the term of server 0,
  restarts, and leads the next term.
-/
theorem restart_after_commit :
    ∃ c c' : Cluster Nat 3,
      (system Nat 3).Reachable StaysInRole c ∧
      (system Nat 3).Run StaysInRole c c' ∧
      ((hasCommitted c 1 &&
        decide ((c.nodes 1).rf.currentTerm = 2)) = true) ∧
      ((hasCommitted c' 0 && isLeaderOf c' 1 3 &&
        decide ((c'.nodes 1).rf.commitIndex = 0)) = true) := by
  have hExec :
      (((system Nat 3).execOk (fun c a => c.staysInRole a)
        (twoBallots ++ bothApplySeven)
        (initial Nat 3)).bind fun c =>
          if hasCommitted c 1 &&
              decide ((c.nodes 1).rf.currentTerm = 2) then
            (system Nat 3).execOk
              (fun c a => c.staysInRole a) restartWins c
          else
            none).any (fun c =>
              hasCommitted c 0 && isLeaderOf c 1 3 &&
                decide ((c.nodes 1).rf.commitIndex = 0)) =
        true := by
    decide +kernel
  rcases exists_two_runs hExec with
    ⟨c, c', hFirst, hSecond, hBefore, hAfter⟩
  exact ⟨c, c', (initial_reachable StaysInRole).trans hFirst,
    hSecond, hBefore, hAfter⟩

theorem hasCommitted_iff
    {c : Cluster Nat 3}
    {i : Fin 3} :
    hasCommitted c i = true ↔
      (c.nodes i).rf.heldAt 2 = some sevenOfTwo ∧
        2 ≤ (c.nodes i).rf.commitIndex := by
  simp [hasCommitted]

/- The leader of the next term has the committed entry. -/
theorem leader_completeness_restart :
    ∃ c c' : Cluster Nat 3,
      (system Nat 3).Run StaysInRole c c' ∧
      2 ≤ (c.nodes 1).rf.commitIndex ∧
      (c.nodes 1).rf.currentTerm = 2 ∧
      c'.LeaderOf 1 3 ∧
      (c'.nodes 1).rf.commitIndex = 0 ∧
      (c'.nodes 1).rf.Keeps 2 sevenOfTwo := by
  rcases restart_after_commit with
    ⟨c, c', hReach, hRun, hBefore, hAfter⟩
  simp only [Bool.and_eq_true, hasCommitted_iff,
    isLeaderOf_iff, decide_eq_true_eq] at hBefore hAfter
  rcases hBefore with ⟨⟨hHeld, hIndex⟩, hTerm⟩
  rcases hAfter with ⟨⟨_, hLeader⟩, hRestarted⟩
  exact ⟨c, c', hRun, hIndex, hTerm, hLeader, hRestarted,
    leader_completeness hReach hRun hHeld hIndex hLeader
      (by omega)⟩

theorem committed_entries_kept_restart :
    ∃ c c' : Cluster Nat 3,
      (system Nat 3).Run StaysInRole c c' ∧
      2 ≤ (c.nodes 1).rf.commitIndex ∧
      (c'.nodes 1).rf.commitIndex = 0 ∧
      (c'.nodes 1).rf.Keeps 2 sevenOfTwo := by
  rcases restart_after_commit with
    ⟨c, c', hReach, hRun, hBefore, hAfter⟩
  simp only [Bool.and_eq_true, hasCommitted_iff,
    decide_eq_true_eq] at hBefore hAfter
  rcases hBefore with ⟨⟨hHeld, hIndex⟩, _⟩
  exact ⟨c, c', hRun, hIndex, hAfter.2,
    committed_entries_kept hReach hRun hHeld hIndex⟩

theorem committed_entries_agree_restart :
    ∃ (c c' : Cluster Nat 3) (e e' : LogEntry Nat),
      (c.nodes 1).rf.heldAt 2 = some e ∧
      (c'.nodes 0).rf.heldAt 2 = some e' ∧ e = e' := by
  rcases restart_after_commit with
    ⟨c, c', hReach, hRun, hBefore, hAfter⟩
  simp only [Bool.and_eq_true, hasCommitted_iff,
    decide_eq_true_eq] at hBefore hAfter
  rcases hBefore with ⟨⟨hHeld, hIndex⟩, _⟩
  rcases hAfter with ⟨⟨⟨hHeld', hIndex'⟩, _⟩, _⟩
  exact ⟨c, c', _, _, hHeld, hHeld',
    committed_entries_agree hReach hRun hHeld hIndex hHeld'
      hIndex'⟩

/- Server 0 leads term 2 and replicates its entry. -/
theorem leader_append_only_seven :
    ∃ c c' : Cluster Nat 3,
      (system Nat 3).Run MatchingFixes c c' ∧
      c.LeaderOf 0 2 ∧ c'.LeaderOf 0 2 ∧
      (c'.nodes 0).rf.Keeps 2 sevenOfTwo := by
  have hExec :
      (((system Nat 3).execOk (fun c a => c.matchingFixes a)
        (twoBallots ++ bothApplySeven.take 2)
        (initial Nat 3)).bind fun c =>
          if isLeaderOf c 0 2 && decide
              ((c.nodes 0).rf.heldAt 2 = some sevenOfTwo) then
            (system Nat 3).execOk
              (fun c a => c.matchingFixes a)
              (bothApplySeven.drop 2) c
          else
            none).any (fun c => isLeaderOf c 0 2) =
        true := by
    decide +kernel
  rcases exists_two_runs hExec with
    ⟨c, c', hFirst, hRun, hBefore, hAfter⟩
  rw [isLeaderOf_iff] at hAfter
  rw [Bool.and_eq_true, isLeaderOf_iff,
    decide_eq_true_eq] at hBefore
  have hReach : (system Nat 3).Reachable MatchingFixes c :=
    (initial_reachable MatchingFixes).trans hFirst
  exact ⟨c, c', hRun, hBefore.1, hAfter,
    leader_append_only hReach hRun hBefore.1 hAfter
      hBefore.2⟩

end Cluster

end RaftLab
