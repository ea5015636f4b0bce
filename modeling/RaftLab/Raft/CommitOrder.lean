import RaftLab.Raft.CommitSearch
import RaftLab.Raft.LogHistory

/-
  The commit index of a follower.

  `AppendEntries` copies the commit index of every request
  whose entries it stores, and never compares it with its
  own. A request that was built before the leader committed
  may arrive after one that was built later, and then takes
  the commit index back. In runs where the requests that are
  stored carry no smaller commit index than the receiver's,
  it grows from one restart or installed snapshot to the
  next.

  Main declarations:
    * `Raft.takesCommit`, `Node.takesNewerCommit`
    * `RaftStep.commitIndex_le`
    * `Cluster.commitIndex_grows`
-/

------------------------------------------------------------
-- Requests That Set The Commit Index
------------------------------------------------------------

namespace RaftLab

variable {C : Type} {n : Nat}

/- The request continues the log at its end. -/
def Raft.isGoodCase
    (rf : Raft C n)
    (args : AppendEntriesArgs C) : Bool :=
  rf.globalLogLen.any
      (fun len => decide (len - 1 = args.prevLogIndex)) &&
    rf.lastLogTerm.any
      (fun term => decide (term = args.prevLogTerm))

/-
  The handler stores the entries of the request, and with
  them its commit index.
-/
def Raft.takesCommit
    (rf : Raft C n)
    (args : AppendEntriesArgs C) : Bool :=
  decide (rf.currentTerm ≤ args.term) &&
    (rf.isGoodCase args ||
      rf.takesFix args &&
        !decide
          (rf.prefixCheck args.entries.length 0
            args.entries = some args.entries.length))

/-
  A stored request carries no smaller commit index than the
  one it replaces.
-/
def Node.takesNewerCommit
    (nd : Node C n) :
    Event C n → Bool
| .appendEntries args =>
    !nd.rf.takesCommit args ||
      decide (nd.rf.commitIndex ≤ args.leaderCommit)
| _ => true

/-
  The event neither restarts the server nor installs a
  snapshot on it.
-/
def Node.keepsIncarnation
    (nd : Node C n) :
    Event C n → Bool
| .restart => false
| .installSnapshot args => !nd.rf.installs args
| _ => true

theorem Node.leaderCommit_ge
    {nd : Node C n}
    {args : AppendEntriesArgs C}
    (hNewer :
      nd.takesNewerCommit (.appendEntries args) = true)
    (hTakes : nd.rf.takesCommit args = true) :
    nd.rf.commitIndex ≤ args.leaderCommit := by
  simpa [takesNewerCommit, hTakes] using hNewer

/- What the handler does to the commit index. -/
theorem Raft.AppendEntriesCase.commitIndex_cases
    {rf rf' : Raft C n}
    {args : AppendEntriesArgs C}
    {reply : AppendEntriesReply}
    (hCase : AppendEntriesCase rf args rf' reply) :
    rf'.commitIndex = rf.commitIndex ∨
      rf.takesCommit args = true ∧
        rf'.commitIndex = args.leaderCommit := by
  cases hCase with
  | stale => exact Or.inl rfl
  | good hTerm len hLen hIndex hLast =>
      refine Or.inr ⟨?_, rfl⟩
      simp [takesCommit, isGoodCase, hTerm, hLen, hIndex,
        hLast]
  | covered => exact Or.inl rfl
  | fixed hTerm len hLen hIndex hApplied i hPrefix hDiffer =>
      refine Or.inr ⟨?_, rfl⟩
      have hFix := Raft.takesFix_of hTerm hLen hIndex hApplied
      simp [takesCommit, hTerm, hFix, hPrefix, hDiffer]
  | rejected => exact Or.inl rfl

/- Among all steps, only a restart, an installed snapshot or
  an older request takes the commit index back. -/
theorem RaftStep.commitIndex_le
    {nd : Node C n}
    {event : Event C n}
    {rf' : Raft C n}
    {effects : List (Effect C n)}
    (hStep : RaftStep nd event rf' effects)
    (hLog : nd.rf.log ≠ [])
    (hNewer : nd.takesNewerCommit event = true)
    (hKeeps : nd.keepsIncarnation event = true) :
    nd.rf.commitIndex ≤ rf'.commitIndex := by
  cases hStep with
  | requestVote args _ _ reply hCase =>
      cases hCase with
      | stale => exact le_refl _
      | refused =>
          unfold Raft.adoptVoteTerm
          split <;> exact le_refl _
      | granted =>
          unfold Raft.giveVote Raft.adoptVoteTerm
          split <;> exact le_refl _
  | appendEntries args hEvent _ reply hCase =>
      subst hEvent
      rcases hCase.commitIndex_cases with hSame |
        ⟨hTakes, hCommit⟩
      · exact le_of_eq hSame.symm
      · rw [hCommit]
        exact Node.leaderCommit_ge hNewer hTakes
  | installSnapshot args hEvent _ reply hCase =>
      subst hEvent
      have hRefused : nd.rf.installs args = false := by
        simpa [Node.keepsIncarnation] using hKeeps
      cases hCase with
      | refused => exact le_refl _
      | kept hTerm hNewer' =>
          rw [Raft.installs_eq_true_iff.mpr
            ⟨hTerm, hNewer'⟩] at hRefused
          cases hRefused
      | reset hTerm hNewer' =>
          rw [Raft.installs_eq_true_iff.mpr
            ⟨hTerm, hNewer'⟩] at hRefused
          cases hRefused
  | election i k hEvent hThread _ args hStart =>
      rw [(Raft.electionStart_spec hStart).1]
      exact le_refl _
  | commit i k hEvent hThread N hTarget =>
      rcases List.exists_cons_of_ne_nil hLog with
        ⟨first, rest, hCons⟩
      rcases nd.rf.exists_majorityMatch with ⟨M, hM⟩
      rcases (Raft.commitTarget_eq_some_iff hCons hM).mp
        hTarget with ⟨rfl, hLt, _⟩
      exact le_of_lt hLt
  | applyEntries _ hApply =>
      rw [Raft.commitIndex_applyEntries hApply]
  | restart hEvent =>
      subst hEvent
      cases hKeeps
  | _ => exact le_refl _

------------------------------------------------------------
-- Runs
------------------------------------------------------------

namespace Cluster

variable [DecidableEq C]

def takesNewerCommit
    (c : Cluster C n)
    (a : Fin n × Event C n) : Bool :=
  (c.nodes a.1).takesNewerCommit a.2

def TakesNewerCommit
    (c : Cluster C n)
    (a : Fin n × Event C n) : Prop :=
  takesNewerCommit c a = true

/-
  The steps within one incarnation of server `i`, between
  two installed snapshots.
-/
def WithinIncarnation
    (i : Fin n)
    (c : Cluster C n)
    (a : Fin n × Event C n) : Prop :=
  TakesNewerCommit c a ∧
    (a.1 = i → (c.nodes i).keepsIncarnation a.2 = true)

theorem commitIndex_le_of_step
    {ok : Cluster C n → Fin n × Event C n → Prop}
    {c c' : Cluster C n}
    (hReach : (system C n).Reachable ok c)
    {i : Fin n}
    {a : Fin n × Event C n}
    (hOk : WithinIncarnation i c a)
    (hStep : (system C n).step a c = some c') :
    (c.nodes i).rf.commitIndex ≤
      (c'.nodes i).rf.commitIndex := by
  have hCluster : (system C n).Reachable System.always c :=
    hReach.mono fun _ _ _ => trivial
  rcases a with ⟨j, event⟩
  rcases system_step_cases hStep with
    ⟨nd', effects, _, hNode, rfl⟩
  dsimp only
  by_cases hSame : i = j
  · subst hSame
    rw [Function.update_self]
    rcases (indexSafe_of_reachable hCluster).nodes i with
      ⟨first, rest, hIndexed⟩
    have hLog : (c.nodes i).rf.log ≠ [] := by
      rw [hIndexed.log]
      exact List.cons_ne_nil _ _
    exact (Node.step_raftStep hNode).commitIndex_le hLog
      hOk.1 (hOk.2 rfl)
  · rw [Function.update_of_ne hSame]

/-
  In a run whose stored requests carry no smaller commit
  index than the receiver's, handling a request never takes
  the commit index back, and it grows along every part of
  the run within one incarnation.
-/
theorem commitIndex_grows
    {c : Cluster C n}
    (hReach : (system C n).Reachable TakesNewerCommit c)
    (i : Fin n) :
    (∀ args c',
      TakesNewerCommit c (i, .appendEntries args) →
      (system C n).step (i, .appendEntries args) c =
        some c' →
      (c.nodes i).rf.commitIndex ≤
        (c'.nodes i).rf.commitIndex) ∧
    ∀ d, (system C n).Run (WithinIncarnation i) c d →
      (c.nodes i).rf.commitIndex ≤
        (d.nodes i).rf.commitIndex := by
  constructor
  · intro args c' hOk hStep
    exact commitIndex_le_of_step hReach
      ⟨hOk, fun _ => rfl⟩ hStep
  · intro d hRun
    refine System.Run.induct
      (P := fun d : Cluster C n =>
        (c.nodes i).rf.commitIndex ≤
          (d.nodes i).rf.commitIndex) (le_refl _) ?_ hRun
    intro d a d' hBefore hLe hOk hStep
    have hReach' :=
      hReach.trans (hBefore.mono fun _ _ hWithin => hWithin.1)
    exact le_trans hLe
      (commitIndex_le_of_step hReach' hOk hStep)

------------------------------------------------------------
-- A Request That Comes Late
------------------------------------------------------------

/- The no-op server 0 appends when it wins term 2. -/
def noopOfTwo : LogEntry Nat where
  term := 2
  type := .noop
  index := 1
  command := none

/- A request of server 0 for what follows index `p`. -/
def heartbeatOfTwo
    (p : Nat)
    (prevLogTerm leaderCommit : Int) :
    AppendEntriesArgs Nat where
  term := 2
  leaderId := 0
  prevLogIndex := p
  prevLogTerm := prevLogTerm
  entries := [noopOfTwo].drop p
  leaderCommit := leaderCommit

/-
  Server 0 wins term 2 and replicates its no-op to server 1.
  It builds a heartbeat before it commits the no-op and
  another one after that.
-/
def twoHeartbeats {n : Nat} [NeZero n] :
    List (Fin n × Event Nat n) :=
  leaderServes ++
    [(0, .run 0),
      (1, .appendEntries (heartbeatOfTwo 0 1 0)),
      (0, .appendReply 0
        { term := 2, success := true, prevLogIndex := 0,
          prevLogTerm := 1, lastApplied := 1 }),
      (0, .run 0), (0, .run 1), (0, .run 0),
      (0, .run 4), (0, .run 0), (0, .run 3), (0, .run 0)]

/-
  Server 1 handles the second heartbeat. Then the first one
  arrives, and its commit index goes back from 1 to 0.
-/
theorem late_heartbeat_uncommits :
    ¬ ∀ c : Cluster Nat 3,
      (system Nat 3).Reachable System.always c →
        ∀ i args c',
          (system Nat 3).step (i, .appendEntries args) c =
            some c' →
          (c.nodes i).rf.commitIndex ≤
            (c'.nodes i).rf.commitIndex := by
  intro hClaim
  have hExec :
      ((system Nat 3).exec
        (twoHeartbeats ++
          [(1, .appendEntries (heartbeatOfTwo 1 2 1))])
        (initial Nat 3)).any (fun c =>
          ((system Nat 3).step
            (1, .appendEntries (heartbeatOfTwo 1 2 0)) c).any
              (fun c' => decide
                ((c'.nodes 1).rf.commitIndex <
                  (c.nodes 1).rf.commitIndex))) = true := by
    decide +kernel
  rcases System.exists_run_of_exec hExec with ⟨c, hRun, hc⟩
  rcases (Option.any_eq_true _ _).mp hc with
    ⟨c', hStep, hLower⟩
  have hReach :=
    (initial_reachable System.always).trans hRun
  exact not_le_of_gt (of_decide_eq_true hLower)
    (hClaim c hReach 1 _ c' hStep)

/- When the first one arrives first, it does not. -/
theorem commitIndex_grows_heartbeat :
    ∃ c c' : Cluster Nat 3,
      (system Nat 3).Reachable TakesNewerCommit c ∧
      (system Nat 3).step
        (1, .appendEntries (heartbeatOfTwo 1 2 1)) c =
          some c' ∧
      (c'.nodes 1).rf.commitIndex = 1 ∧
      (c.nodes 1).rf.commitIndex ≤
        (c'.nodes 1).rf.commitIndex := by
  have hExec :
      ((system Nat 3).execOk takesNewerCommit
        (twoHeartbeats ++
          [(1, .appendEntries (heartbeatOfTwo 1 2 0))])
        (initial Nat 3)).any (fun c =>
          takesNewerCommit c
            (1, .appendEntries (heartbeatOfTwo 1 2 1)) &&
          ((system Nat 3).step
            (1, .appendEntries (heartbeatOfTwo 1 2 1)) c).any
              (fun c' => decide
                ((c'.nodes 1).rf.commitIndex = 1))) =
        true := by
    decide +kernel
  rcases System.exists_run_of_execOk hExec with ⟨c, hRun, hc⟩
  rw [Bool.and_eq_true] at hc
  rcases hc with ⟨hOk, hc⟩
  rcases (Option.any_eq_true _ _).mp hc with
    ⟨c', hStep, hCommit⟩
  have hReach : (system Nat 3).Reachable TakesNewerCommit c :=
    (initial_reachable TakesNewerCommit).trans hRun
  exact ⟨c, c', hReach, hStep, of_decide_eq_true hCommit,
    (commitIndex_grows hReach 1).1 _ c' hOk hStep⟩

end Cluster

end RaftLab
