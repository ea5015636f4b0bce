import RaftLab.Raft.ApplyStream
import RaftLab.Raft.Commitment

/-
  No two servers apply different commands.

  A command that a server applies is the last entry of a
  settled part of a log, and its index is the number of
  commands up to there. Settled parts of logs are chosen, so
  they never diverge, and the commands of two servers with
  the same index are the same.

  Main declarations:
    * `Cluster.HistoryStep.applied_after`
    * `Cluster.HistoryStep.commitments`
    * `Cluster.state_machine_safety`
-/

------------------------------------------------------------
-- Messages Of A Step
------------------------------------------------------------

namespace RaftLab

variable {C : Type} {n : Nat}

/- New commands are queued by the apply loop only. -/
theorem RaftStep.queue_cases
    {nd : Node C n}
    {event : Event C n}
    {rf' : Raft C n}
    {effects : List (Effect C n)}
    (hStep : RaftStep nd event rf' effects)
    {msg : ApplyMsg C}
    (hMem : msg ∈ rf'.applyQueue) :
    msg ∈ nd.rf.applyQueue ∨ msg.commandValid = false ∨
      nd.rf.applyEntries = some rf' := by
  cases hStep with
  | requestVote args _ _ reply hCase =>
      left
      cases hCase with
      | stale => exact hMem
      | refused =>
          unfold Raft.adoptVoteTerm at hMem
          split at hMem <;> exact hMem
      | granted =>
          unfold Raft.giveVote Raft.adoptVoteTerm at hMem
          split at hMem <;> exact hMem
  | appendEntries args _ _ reply hCase =>
      left
      cases hCase <;> exact hMem
  | installSnapshot args _ _ reply hCase =>
      cases hCase with
      | refused => exact Or.inl hMem
      | kept =>
          rw [List.mem_singleton.mp hMem]
          exact Or.inr (Or.inl rfl)
      | reset =>
          rw [List.mem_singleton.mp hMem]
          exact Or.inr (Or.inl rfl)
  | election i k _ _ _ args hStart =>
      left
      rw [(Raft.electionStart_spec hStart).1] at hMem
      exact hMem
  | applyEntries _ hApply => exact Or.inr (Or.inr hApply)
  | dequeue head queue hQueue =>
      left
      rw [hQueue]
      exact List.mem_cons_of_mem _ hMem
  | restart _ _ hMake =>
      right; left
      rcases Raft.make_queue hMake with
        ⟨_, hNone⟩ | ⟨only, hOne, hInvalid, _⟩
      · rw [hNone] at hMem
        cases hMem
      · rw [hOne, List.mem_singleton] at hMem
        rw [hMem]
        exact hInvalid
  | _ => exact Or.inl hMem

/- A message on applyCh was in the hand of the sender. -/
theorem RaftStep.inHand_of_effect
    {nd : Node C n}
    {event : Event C n}
    {rf' : Raft C n}
    {effects : List (Effect C n)}
    (hStep : RaftStep nd event rf' effects)
    {msg : ApplyMsg C}
    (hMem : (.applyCh msg : Effect C n) ∈ effects) :
    nd.inHand = some msg := by
  cases hStep with
  | requestVote args _ _ reply hCase =>
      unfold voteEffects at hMem
      split at hMem <;> simp at hMem
  | applyCh sent hHand =>
      rw [List.mem_singleton] at hMem
      cases hMem
      exact hHand
  | _ => simp at hMem

/- A message in hand comes from the queue. -/
theorem Node.inHand_cases
    {nd nd' : Node C n}
    {event : Event C n}
    {effects : List (Effect C n)}
    (hStep : nd.step event = some (nd', effects))
    {msg : ApplyMsg C}
    (hHand : nd'.inHand = some msg) :
    nd.inHand = some msg ∨ msg ∈ nd.rf.applyQueue := by
  by_cases hDequeue : event = .dequeue
  · subst hDequeue
    right
    rw [Node.step] at hStep
    split at hStep
    · next head queue _ hQueue =>
        cases hStep
        cases hHand
        rw [hQueue]
        exact List.mem_cons_self
    · cases hStep
  · by_cases hSend : event = .applyCh
    · subst hSend
      rcases Option.map_eq_some_iff.mp hStep with
        ⟨_, _, hStep⟩
      cases hStep
      cases hHand
    · by_cases hRestart : event = .restart
      · subst hRestart
        rcases silent_eq_some_iff.mp hStep with ⟨hMake, _⟩
        rcases Option.map_eq_some_iff.mp hMake with
          ⟨rf', _, rfl⟩
        cases hHand
      · rw [step_inHand hStep hDequeue hSend hRestart]
          at hHand
        exact Or.inl hHand

namespace Cluster

variable [DecidableEq C]
variable {ok : Cluster C n → Fin n × Event C n → Prop}
variable {c : Cluster C n}
variable {g : LogHistory C n}
variable {i : Fin n}

/- One entry of the log is applied. -/
omit [DecidableEq C] in
theorem Commitments.applyIteration
    (hCommitments : c.Commitments g)
    {b : Nat}
    {rf rf' : Raft C n}
    (hSuffix : rf.SuffixOf (g.full i) b)
    (hNumber : rf.snapshotIndex =
      (commandCount (g.full i) b : Int))
    (hCommit : rf.commitIndex = (c.nodes i).rf.commitIndex)
    (hApplied : (b : Int) ≤ rf.lastApplied)
    (hIteration : rf.applyIteration = some (some rf'))
    {msg : ApplyMsg C}
    (hMem : msg ∈ rf'.applyQueue) :
    msg ∈ rf.applyQueue ∨ c.AppliedFrom g i msg := by
  rcases Raft.applyIteration_cases hIteration with
    ⟨l, entry, hLocal, hPos, hAt, hCommitted, hNext⟩
  rcases Int.eq_ofNat_of_zero_le
    (show 0 ≤ rf.lastApplied by omega) with ⟨a, hA⟩
  rw [hSuffix.localIndex, Option.some.injEq] at hLocal
  have hEntry : (g.full i)[a + 1]? = some entry := by
    rw [← hSuffix.logAt_eq (show b < a + 1 by omega)]
    have hEq : (((a + 1 : Nat) : Int) - b) = (l : Int) := by
      push_cast
      omega
    unfold Raft.logAt
    rw [hEq, GoSlice.at?_natCast]
    exact hAt
  have hLt := (List.getElem?_eq_some_iff.mp hEntry).1
  rcases hNext with
    ⟨hNormal, external, hExternal, rfl⟩ | ⟨_, rfl⟩
  · rcases List.mem_append.mp hMem with hOld | hNew
    · exact Or.inl hOld
    · right
      rw [List.mem_singleton.mp hNew]
      have hIndex := hSuffix.externalIndex hNumber
        (show b ≤ a + 1 by omega) hLt
      push_cast at hIndex
      rw [hA] at hExternal
      rw [hExternal, Option.some.injEq] at hIndex
      have hTake : (g.full i).take (a + 1 + 1) =
          (g.full i).take (a + 1) ++ [entry] := by
        rw [List.take_add_one, hEntry]
        rfl
      have hLength : ((g.full i).take (a + 1)).length =
          a + 1 := by
        rw [List.length_take]
        omega
      rcases hCommitments.commits i with
        ⟨part, hSettled, hReached⟩
      refine ⟨(g.full i).take (a + 1), entry, ?_, hNormal,
        rfl, ?_⟩
      · rw [← hTake]
        apply hSettled.of_extends
        apply List.prefix_of_prefix_length_le
          (List.take_prefix _ _) hSettled.held
        rw [List.length_take]
        omega
      · rw [hLength, ← hTake]
        change external = _
        rw [hIndex]
        congr 1
        apply commandCount_congr
        rw [List.take_take, Nat.min_self]
  · exact Or.inl hMem

/- All entries that the apply loop applies are settled. -/
omit [DecidableEq C] in
theorem Commitments.applyEntries
    (hCommitments : c.Commitments g)
    (hNumbered : c.Numbered g)
    (hLed : LogsLed c g)
    {rf' : Raft C n}
    (hApply : (c.nodes i).rf.applyEntries = some rf')
    {msg : ApplyMsg C}
    (hMem : msg ∈ rf'.applyQueue) :
    msg ∈ (c.nodes i).rf.applyQueue ∨
      c.AppliedFrom g i msg := by
  rcases hLed.holds i with ⟨b, hSuffix, hApplied⟩
  have hNumber := hNumbered.servers i b hSuffix
  have hAll := Raft.applyEntries_induct
    (P := fun r =>
      r.SuffixOf (g.full i) b ∧
      r.snapshotIndex = (commandCount (g.full i) b : Int) ∧
      r.commitIndex = (c.nodes i).rf.commitIndex ∧
      (b : Int) ≤ r.lastApplied ∧
      ∀ msg ∈ r.applyQueue,
        msg ∈ (c.nodes i).rf.applyQueue ∨
          c.AppliedFrom g i msg)
    (by
      rintro r r' ⟨hSuffix, hNumber, hCommit, hApplied, ih⟩
        hIteration
      have hNew : ∀ msg ∈ r'.applyQueue,
          msg ∈ (c.nodes i).rf.applyQueue ∨
            c.AppliedFrom g i msg := by
        intro msg hMem
        rcases hCommitments.applyIteration hSuffix hNumber
          hCommit hApplied hIteration hMem with hOld | hNew
        · exact ih msg hOld
        · exact Or.inr hNew
      rcases Raft.applyIteration_cases hIteration with
        ⟨_, _, _, _, _, _, ⟨_, _, _, rfl⟩ | ⟨_, rfl⟩⟩
      · exact ⟨hSuffix.of_log_eq rfl, hNumber, hCommit,
          by dsimp only; omega, hNew⟩
      · exact ⟨hSuffix.of_log_eq rfl, hNumber, hCommit,
          by dsimp only; omega, hNew⟩)
    ⟨hSuffix, hNumber, rfl, hApplied, fun _ => Or.inl⟩ hApply
  exact hAll.2.2.2.2 msg hMem

------------------------------------------------------------
-- Commitments After A Step
------------------------------------------------------------

namespace HistoryStep

variable {event : Event C n}
variable {nd' : Node C n}
variable {effects : List (Effect C n)}

theorem appliedFrom
    (hStep : HistoryStep ok c g i event nd' effects)
    (hKept : ElectionsKept ok)
    (hNumbered : c.Numbered g)
    (hComplete : c.Complete g)
    (hCommitments : c.Commitments g)
    {j : Fin n}
    {msg : ApplyMsg C}
    (hApplied : c.AppliedFrom g j msg) :
    (c.after i nd' effects).AppliedFrom
      (g.after i event (c.nodes i).rf nd'.rf) j msg := by
  rcases hApplied with ⟨part, e, hSettled, hRest⟩
  exact ⟨part, e, hStep.settled hKept hNumbered hComplete
    hCommitments hSettled, hRest⟩

/- A message after the step was there, or is settled. -/
theorem applies_cases
    (hStep : HistoryStep ok c g i event nd' effects)
    (hKept : LogsKept ok)
    (hNumbered : c.Numbered g)
    (hCommitments : c.Commitments g)
    {j : Fin n}
    {msg : ApplyMsg C}
    (hApplies : (c.after i nd' effects).Applies j msg)
    (hValid : msg.commandValid = true) :
    c.AppliedFrom g j msg := by
  have hBefore : c.Applies j msg → c.AppliedFrom g j msg :=
    fun hOld => hCommitments.applied j msg hOld hValid
  by_cases hj : j = i
  · subst hj
    unfold Applies at hApplies
    rw [after_nodes_self] at hApplies
    rcases hApplies with hQueue | hHand | hTrace
    · rcases hStep.raftStep.queue_cases hQueue with
        hOld | hInvalid | hApply
      · exact hBefore (Or.inl hOld)
      · rw [hInvalid] at hValid
        cases hValid
      · rcases hCommitments.applyEntries hNumbered
          (hStep.led hKept) hApply hQueue with hOld | hNew
        · exact hBefore (Or.inl hOld)
        · exact hNew
    · rcases Node.inHand_cases hStep.node hHand with
        hOld | hQueue
      · exact hBefore (Or.inr (Or.inl hOld))
      · exact hBefore (Or.inl hQueue)
    · rcases mem_after_trace.mp hTrace with hOld | ⟨_, hNew⟩
      · exact hBefore (Or.inr (Or.inr hOld))
      · exact hBefore (Or.inr (Or.inl
          (hStep.raftStep.inHand_of_effect hNew)))
  · apply hBefore
    unfold Applies at hApplies ⊢
    rw [after_nodes_of_ne hj] at hApplies
    rcases hApplies with hQueue | hHand | hTrace
    · exact Or.inl hQueue
    · exact Or.inr (Or.inl hHand)
    · rcases mem_after_trace.mp hTrace with hOld | ⟨hSelf, _⟩
      · exact Or.inr (Or.inr hOld)
      · exact absurd hSelf hj

theorem commitments
    (hStep : HistoryStep ok c g i event nd' effects)
    (hKept : CommitsKept ok)
    (hNumbered : c.Numbered g)
    (hComplete : c.Complete g)
    (hCommitments : c.Commitments g) :
    (c.after i nd' effects).Commitments
      (g.after i event (c.nodes i).rf nd'.rf) where
  cuts := hStep.cuts_after hKept.toElectionsKept hNumbered
    hCommitments
  candidates := hStep.candidates_after hKept.toElectionsKept
    hNumbered hCommitments
  leaders := hStep.leaders_after hKept.toElectionsKept
    hNumbered hCommitments
  commits := hStep.commits_after hKept hNumbered hComplete
    hCommitments
  appends := hStep.appends_after hKept.toLogsKept hCommitments
  snapshots := hStep.snapshots_after hKept.toLogsKept
    hCommitments
  applied := by
    intro j msg hApplies hValid
    exact hStep.appliedFrom hKept.toElectionsKept hNumbered
      hComplete hCommitments (hStep.applies_cases
        hKept.toLogsKept hNumbered hCommitments hApplies
        hValid)

end HistoryStep

/- Before the first step only the start is committed. -/
omit [DecidableEq C] in
theorem Commitments.initial :
    (Cluster.initial C n).Commitments LogHistory.start := by
  have hStart : ∀ i, (Cluster.initial C n).Settled
      LogHistory.start i [startEntry] := by
    intro i
    exact settled_start LedLog.start rfl (le_refl 1)
  have hCut : ∀ i (b : Nat),
      ((Cluster.initial C n).nodes i).rf.SuffixOf
        (LogHistory.start.full i) b → b = 0 := by
    intro i b hSuffix
    have hZero : Raft.SuffixOf
        ((Cluster.initial C n).nodes i).rf [startEntry] 0 :=
      ⟨startEntry, rfl, rfl, rfl, rfl⟩
    exact hSuffix.cut_unique hZero
  constructor
  · intro i b hSuffix
    rw [hCut i b hSuffix]
    exact (hStart i).exists_committedBy
  · intro i hCampaigns
    cases hCampaigns.1
  · intro i hLeader
    cases hLeader
  · intro i
    exact ⟨_, hStart i, rfl⟩
  · intro i j args hMem
    cases hMem
  · intro i j args hMem
    cases hMem
  · intro i msg hApplies
    rcases hApplies with hQueue | hHand | hTrace
    · cases hQueue
    · cases hHand
    · cases hTrace

/- In a run that keeps the conditions all of this holds. -/
theorem commitments_of_history
    (hKept : CommitsKept ok)
    {p : Cluster C n × LogHistory C n}
    (hReach : (logSystem C n).Reachable
      (fun p a => ok p.1 a) p) :
    p.1.Numbered p.2 ∧ p.1.Complete p.2 ∧
      p.1.Commitments p.2 := by
  refine history_induct
    (P := fun c g =>
      c.Numbered g ∧ c.Complete g ∧ c.Commitments g) ?_ ?_
    hReach
  · exact ⟨Numbered.initial, Complete.initial,
      Commitments.initial⟩
  · rintro c g i event nd' effects hStep
      ⟨hNumbered, hComplete, hCommitments⟩
    refine ⟨?_, ?_, ?_⟩
    · apply hStep.numbered hKept.toLogsKept
        (hKept.takes c _ hStep.accepted) hNumbered
      intro index snapshot hEvent _
      rcases hStep.snapshot_settled hCommitments hEvent with
        ⟨x, _, _, hIndex⟩
      exact ⟨x, le_of_eq hIndex⟩
    · exact hStep.complete hKept.toElectionsKept hNumbered
        hComplete
    · exact hStep.commitments hKept hNumbered hComplete
        hCommitments

------------------------------------------------------------
-- State Machine Safety
------------------------------------------------------------

/- A command is found by its number. -/
omit [DecidableEq C] in
theorem command_unique
    {part part' : List (LogEntry C)}
    {e e' : LogEntry C}
    (hPrefix : part ++ [e] <+: part' ++ [e'])
    (hNormal : e'.type = .normal)
    (hCount : commandCount (part ++ [e]) part.length =
      commandCount (part' ++ [e']) part'.length) :
    e = e' := by
  have hLe := hPrefix.length_le
  rw [List.length_append, List.length_append] at hLe
  have hEq := List.prefix_iff_eq_take.mp hPrefix
  have hLength : (part ++ [e]).length = part.length + 1 := by
    rw [List.length_append]
    rfl
  rw [hLength] at hEq
  have hSame : commandCount (part ++ [e]) part.length =
      commandCount (part' ++ [e']) part.length := by
    apply commandCount_congr
    rw [← hEq, ← hLength, List.take_length]
  by_cases hShort : part.length < part'.length
  · -- the last command counts
    exfalso
    have hPos : part'.length - 1 + 1 = part'.length := by
      omega
    have hEntry : (part' ++ [e'])[part'.length - 1 + 1]? =
        some e' := by
      rw [hPos]
      simp
    have hSucc := commandCount_succ hEntry
    have hMono := commandCount_mono (part' ++ [e'])
      (show part.length ≤ part'.length - 1 by omega)
    rw [if_pos (by rw [hNormal]; decide), hPos] at hSucc
    omega
  · have hBoth : part ++ [e] = part' ++ [e'] := by
      apply hPrefix.eq_of_length
      rw [List.length_append, List.length_append]
      simp only [List.length_singleton] at hLe ⊢
      omega
    have hLast := (List.append_inj' hBoth rfl).2
    exact (List.cons.inj hLast).1

/-
  No goroutine acts for a term or a role that is not its
  own, and no fix package is taken whose start the follower
  does not have.
-/
def staysInRole
    (c : Cluster C n)
    (a : Fin n × Event C n) : Bool :=
  (c.nodes a.1).leaderKeepsTerm a.2 &&
    (c.nodes a.1).winsOwnCandidacy a.2 &&
      (c.nodes a.1).buildsAsLeader a.2 &&
        (c.nodes a.1).countsOwnReplies a.2 &&
          (c.nodes a.1).commitsAsLeader a.2 &&
            (c.nodes a.1).takesMatchingFix a.2

def StaysInRole
    (c : Cluster C n)
    (a : Fin n × Event C n) : Prop :=
  c.staysInRole a = true

omit [DecidableEq C] in
theorem staysInRole_iff
    {a : Fin n × Event C n} :
    StaysInRole c a ↔
      (c.nodes a.1).leaderKeepsTerm a.2 = true ∧
      (c.nodes a.1).winsOwnCandidacy a.2 = true ∧
      (c.nodes a.1).buildsAsLeader a.2 = true ∧
      (c.nodes a.1).countsOwnReplies a.2 = true ∧
      (c.nodes a.1).commitsAsLeader a.2 = true ∧
      (c.nodes a.1).takesMatchingFix a.2 = true := by
  simp only [StaysInRole, staysInRole, Bool.and_eq_true,
    and_assoc]

theorem commitsKept_staysInRole :
    CommitsKept (StaysInRole (C := C) (n := n)) := by
  have hParts := fun (c : Cluster C n)
    (a : Fin n × Event C n) (hOk : StaysInRole c a) =>
      staysInRole_iff.mp hOk
  have hWins :
      ∀ (c : Cluster C n) (a : Fin n × Event C n),
        StaysInRole c a →
          (c.nodes a.1).winsOwnTerm a.2 = true := by
    intro c a hOk
    exact Node.winsOwnTerm_of_candidacy (hParts c a hOk).2.1
  refine
    { keeps := fun c a hOk => (hParts c a hOk).1
      candidacies := fun c a hOk => (hParts c a hOk).2.1
      builds := fun c a hOk => (hParts c a hOk).2.2.1
      counts := fun c a hOk => (hParts c a hOk).2.2.2.1
      commits := fun c a hOk => (hParts c a hOk).2.2.2.2.1
      takes := fun c a hOk => (hParts c a hOk).2.2.2.2.2
      fixes := fun c a hOk => Node.fixesMatchingLog_of_takes
        (hParts c a hOk).2.2.2.2.2
      fresh := ?_
      wins := hWins }
  intro c c' i event nd' effects t hReach hOk hStep hNode
    hMem j
  exact not_elected_before_win hWins hReach hOk hStep hNode
    hMem

/-
  Two servers that put commands with the same index on
  applyCh put the same command there, in every run in which
  all goroutines stay in their roles.
-/
theorem state_machine_safety
    (hReach : (system C n).Reachable StaysInRole c)
    {i j : Fin n}
    {msg msg' : ApplyMsg C}
    (hMem : (i, .applyCh msg) ∈ c.trace)
    (hMem' : (j, .applyCh msg') ∈ c.trace)
    (hValid : msg.commandValid = true)
    (hValid' : msg'.commandValid = true)
    (hIndex : msg.commandIndex = msg'.commandIndex) :
    msg.command = msg'.command := by
  rcases hReach.exists_history LogHistory.start
      LogHistory.record with ⟨g, hHistory⟩
  rcases commitments_of_history
    (commitsKept_staysInRole (C := C) (n := n))
    (p := (c, g)) hHistory with ⟨_, hComplete, hCommitments⟩
  rcases hCommitments.applied i msg (Or.inr (Or.inr hMem))
    hValid with
    ⟨part, e, hSettled, hNormal, hCommand, hNumber⟩
  rcases hCommitments.applied j msg' (Or.inr (Or.inr hMem'))
    hValid' with
    ⟨part', e', hSettled', hNormal', hCommand', hNumber'⟩
  have hCount : commandCount (part ++ [e]) part.length =
      commandCount (part' ++ [e']) part'.length := by
    omega
  rcases hSettled.exists_committedBy with ⟨h, hChosen⟩
  rcases hSettled'.exists_committedBy with ⟨h', hChosen'⟩
  have hSame : e = e' := by
    rcases hChosen.comparable hComplete.sound hChosen' with
      hExtends | hExtends
    · exact command_unique hExtends hNormal' hCount
    · exact (command_unique hExtends hNormal
        hCount.symm).symm
  rw [hCommand, hCommand', hSame]

------------------------------------------------------------
-- Runs Of Three Servers
------------------------------------------------------------

/- The first command. -/
def firstCommand (command : Nat) : ApplyMsg Nat where
  commandValid := true
  command := some command
  commandIndex := 1
  snapshotValid := false
  snapshot := []
  snapshotTerm := 0
  snapshotIndex := 0

/- A reply of a server that has applied nothing. -/
def replyOf
    (term : Int)
    (success : Bool)
    (prevLogIndex prevLogTerm : Int) :
    AppendEntriesReply where
  term := term
  success := success
  prevLogIndex := prevLogIndex
  prevLogTerm := prevLogTerm
  lastApplied := 1

/-
  Server 1, leader of term 3, replicates command 8 to server
  2, commits it and applies it.
-/
def appliesEight {n : Nat} [NeZero n] :
    List (Fin n × Event Nat n) :=
  [(1, .start (some 8)),
    (1, .run 0), (1, .run 0), (1, .run 0),
    (2, .appendEntries (requestAfter 0 1)),
    (1, .appendReply 1 (replyOf 3 true 0 1)),
    (1, .run 0), (1, .run 2), (1, .run 0),
    (1, .applyEntries), (1, .dequeue), (1, .applyCh)]

/- The entries of server 0, the other leader of term 3. -/
def entriesOfOther : List (LogEntry Nat) :=
  [{ term := 3, type := .noop, index := 1, command := none },
    { term := 3, type := .normal, index := 2,
      command := some 7 }]

/- A request of server 0 for what follows index `p`. -/
def requestOfOther
    (p : Nat)
    (prevLogTerm : Int) : AppendEntriesArgs Nat where
  term := 3
  leaderId := 0
  prevLogIndex := p
  prevLogTerm := prevLogTerm
  entries := entriesOfOther.drop p
  leaderCommit := 0

/-
  Server 0 has command 7 where server 2 has command 8, but
  of the same term. It takes the log of server 2 for its
  own, has an empty request confirmed, commits and applies.
-/
def appliesSeven {n : Nat} [NeZero n] :
    List (Fin n × Event Nat n) :=
  [(0, .start (some 7)),
    (0, .run 0), (0, .run 0), (0, .run 0),
    (2, .appendEntries (requestOfOther 0 1)),
    (0, .appendReply 1 (replyOf 3 false 2 3)),
    (0, .run 0), (0, .run 1), (0, .run 0),
    (2, .appendEntries (requestOfOther 2 3)),
    (0, .appendReply 1 (replyOf 3 true 2 3)),
    (0, .run 0), (0, .run 3), (0, .run 0),
    (0, .applyEntries), (0, .dequeue), (0, .applyCh)]

/- Whether server `i` has applied `command` as the first. -/
def hasApplied
    (c : Cluster Nat 3)
    (i : Fin 3)
    (command : Nat) : Bool :=
  decide ((i, .applyCh (firstCommand command)) ∈ c.trace)

/-
  Servers 0 and 1 both lead term 3 after the late win. Server
  1 applies command 8 as number 1, server 0 command 7.
-/
theorem late_win_applies_two_commands :
    ¬ ∀ c : Cluster Nat 3,
      (system Nat 3).Reachable System.always c →
        ∀ i j msg msg',
          (i, .applyCh msg) ∈ c.trace →
          (j, .applyCh msg') ∈ c.trace →
          msg.commandValid = true →
          msg'.commandValid = true →
          msg.commandIndex = msg'.commandIndex →
          msg.command = msg'.command := by
  intro hClaim
  have hExec :
      ((system Nat 3).exec
        (twoBallots ++ lateWin ++ appliesEight ++
          appliesSeven)
        (initial Nat 3)).any (fun c =>
          hasApplied c 1 8 && hasApplied c 0 7) = true := by
    decide +kernel
  rcases System.exists_run_of_exec hExec with
    ⟨c, hRun, hBoth⟩
  rw [Bool.and_eq_true, hasApplied, hasApplied,
    decide_eq_true_eq, decide_eq_true_eq] at hBoth
  have hReach :=
    (initial_reachable System.always).trans hRun
  have hSame := hClaim c hReach 1 0 _ _ hBoth.1 hBoth.2 rfl
    rfl rfl
  cases hSame

/- A heartbeat of server 0 that commits command 7. -/
def commitsSeven : AppendEntriesArgs Nat where
  term := 2
  leaderId := 0
  prevLogIndex := 2
  prevLogTerm := 2
  entries := []
  leaderCommit := 2

/-
  Server 0 wins term 2 in time and replicates command 7 to
  server 1. Both apply it.
-/
def bothApplySeven {n : Nat} [NeZero n] :
    List (Fin n × Event Nat n) :=
  [(0, .run 0), (0, .start (some 7)),
    (0, .run 0), (0, .run 0), (0, .run 0),
    (1, .appendEntries (requestOfTwo 2)),
    (0, .appendReply 0 (replyOf 2 true 0 1)),
    (0, .run 0), (0, .run 2), (0, .run 0),
    (0, .applyEntries), (0, .dequeue), (0, .applyCh),
    (0, .run 2), (0, .run 0),
    (1, .appendEntries commitsSeven),
    (1, .applyEntries), (1, .dequeue), (1, .applyCh)]

theorem state_machine_safety_both_apply :
    ∃ (c : Cluster Nat 3) (msg msg' : ApplyMsg Nat),
      (system Nat 3).Reachable StaysInRole c ∧
        (0, .applyCh msg) ∈ c.trace ∧
        (1, .applyCh msg') ∈ c.trace ∧
        msg.commandValid = true ∧
        msg'.commandValid = true ∧
        msg.commandIndex = msg'.commandIndex ∧
        msg.command = msg'.command := by
  have hExec :
      ((system Nat 3).execOk (fun c a => c.staysInRole a)
        (twoBallots ++ bothApplySeven)
        (initial Nat 3)).any (fun c =>
          hasApplied c 0 7 && hasApplied c 1 7) = true := by
    decide +kernel
  rcases System.exists_run_of_execOk hExec with
    ⟨c, hRun, hBoth⟩
  rw [Bool.and_eq_true, hasApplied, hasApplied,
    decide_eq_true_eq, decide_eq_true_eq] at hBoth
  have hReach : (system Nat 3).Reachable StaysInRole c :=
    (initial_reachable StaysInRole).trans hRun
  exact ⟨c, _, _, hReach, hBoth.1, hBoth.2, rfl, rfl, rfl,
    state_machine_safety hReach hBoth.1 hBoth.2 rfl rfl rfl⟩

end Cluster

end RaftLab
