import RaftLab.Raft.Election

/-
  Who sends AppendEntries and InstallSnapshot.

  `serveAsLeader` checks that the server still leads its
  term, but the request is built in a later critical section
  from the term and the log the server has by then. If every
  request is built by a server in state leader, the requests
  of a term come from its elected leader and from the log it
  had as a leader. The code does not ensure this: a server
  that was deposed in between sends its old log in the name
  of a term it never led.

  Main declarations:
    * `Effect.leaderTerm`, `Effect.BuiltFrom`
    * `Node.buildsAsLeader`, `Cluster.SentWhileLeading`
    * `Cluster.leader_messages`
-/

------------------------------------------------------------
-- Requests Of Leaders
------------------------------------------------------------

namespace RaftLab

variable {C : Type} {n : Nat}

/- The term in whose name a leader's request is sent. -/
def Effect.leaderTerm : Effect C n → Option Int
| .appendEntries _ args => some args.term
| .installSnapshot _ args => some args.term
| _ => none

/- The request is the one `rf` builds from its own log. -/
def Effect.BuiltFrom
    (rf : Raft C n) :
    Effect C n → Prop
| .appendEntries server args =>
    ∃ newNextIndex,
      rf.syncArgs server = some (args, newNextIndex)
| .installSnapshot _ args =>
    ∃ first, rf.logAt 0 = some first ∧
      args = rf.snapshotArgs first
| _ => False

/- Neither of cases 0 to 4 of a failed reply applies. -/
def Raft.reachesCaseFive
    (rf : Raft C n)
    (args : AppendEntriesArgs C)
    (reply : AppendEntriesReply) : Bool :=
  decide (reply.term ≤ rf.currentTerm) &&
    decide (rf.replyMatchesLog args reply ≠ some true) &&
      decide (rf.replyNeedsFix args reply ≠ some true)

/- A goroutine that builds a request finds a leader. -/
def Node.buildsAsLeader
    (nd : Node C n) :
    Event C n → Bool
| .run i =>
    match nd.threads[i]? with
    | some (.syncEntries k) =>
        nd.cancelToken k || decide (nd.rf.state = .leader)
    | some (.appendReplied _ _ args _ reply) =>
        reply.success ||
          !nd.rf.reachesCaseFive args reply ||
            decide (nd.rf.state = .leader)
    | _ => true
| _ => true

theorem Raft.reachesCaseFive_of_snapshot
    {rf : Raft C n}
    {server : Fin n}
    {args : AppendEntriesArgs C}
    {reply : AppendEntriesReply}
    {snapshot : InstallSnapshotArgs}
    (hFailed : rf.handleFailedReply server args reply =
      some (.snapshot snapshot)) :
    rf.reachesCaseFive args reply = true := by
  unfold Raft.handleFailedReply at hFailed
  split at hFailed
  · cases hFailed
  · rename_i hTerm
    rcases Option.bind_eq_some_iff.mp hFailed with
      ⟨hit, hMatches, hFailed⟩
    split at hFailed
    · cases hFailed
    · rename_i hNoMatch
      rcases Option.bind_eq_some_iff.mp hFailed with
        ⟨hit', hFix, hFailed⟩
      split at hFailed
      · cases hFailed
      · rename_i hNoFix
        simp only [Raft.reachesCaseFive, hMatches, hFix,
          Bool.and_eq_true, decide_eq_true_eq, ne_eq,
          Option.some.injEq]
        exact ⟨⟨by omega, hNoMatch⟩, hNoFix⟩

namespace RaftStep

variable {nd : Node C n}
variable {event : Event C n}
variable {rf' : Raft C n}
variable {effects : List (Effect C n)}

/-
  Requests of leaders are built in two places only: by
  `syncEntries` whose token is not set, and in case 5 of
  `handleFailedReply`.
-/
theorem request_cases
    (hStep : RaftStep nd event rf' effects)
    {effect : Effect C n}
    {t : Int}
    (hMem : effect ∈ effects)
    (hTerm : effect.leaderTerm = some t) :
    (∃ i k server args newNextIndex,
      event = .run i ∧
      nd.threads[i]? = some (.syncEntries k) ∧
      nd.cancelToken k = false ∧
      effect = .appendEntries server args ∧
      nd.rf.syncArgs server = some (args, newNextIndex)) ∨
    (∃ i k server args newNextIndex reply snapshot,
      event = .run i ∧
      nd.threads[i]? =
        some (.appendReplied k server args newNextIndex
          reply) ∧
      reply.success = false ∧
      effect = .installSnapshot server snapshot ∧
      nd.rf.handleFailedReply server args reply =
        some (.snapshot snapshot)) := by
  cases hStep with
  | requestVote args _ _ reply hCase =>
      unfold voteEffects at hMem
      split at hMem
      · simp only [List.mem_cons, List.not_mem_nil,
          or_false] at hMem
        rcases hMem with rfl | rfl <;> cases hTerm
      · rw [List.mem_singleton] at hMem
        subst hMem
        cases hTerm
  | election =>
      rcases List.mem_cons.mp hMem with rfl | hMem
      · cases hTerm
      · rcases List.mem_map.mp hMem with ⟨_, _, rfl⟩
        cases hTerm
  | sync i k hEvent hThread hToken requests hSync =>
      rcases List.mem_map.mp hMem with
        ⟨⟨server, args, next⟩, hRequest, rfl⟩
      exact Or.inl ⟨i, k, server, args, next, hEvent,
        hThread, hToken, rfl,
        (Raft.mem_syncEntries hSync hRequest).2⟩
  | sendSnapshot i k server args next reply hEvent hThread
      hRefused snapshot hFailed =>
      rw [List.mem_singleton] at hMem
      exact Or.inr ⟨i, k, server, args, next, reply,
        snapshot, hEvent, hThread, hRefused, hMem, hFailed⟩
  | start => cases hMem
  | takeSnapshot => cases hMem
  | tickerTimeout => cases hMem
  | commit => cases hMem
  | success => cases hMem
  | nextIndex => cases hMem
  | applyEntries => cases hMem
  | dequeue => cases hMem
  | idle => cases hMem
  | restart => cases hMem
  | _ =>
      rw [List.mem_singleton] at hMem
      subst hMem
      cases hTerm

/- A request is built from the state before the step. -/
theorem builtFrom
    (hStep : RaftStep nd event rf' effects)
    {effect : Effect C n}
    {t : Int}
    (hMem : effect ∈ effects)
    (hTerm : effect.leaderTerm = some t) :
    effect.BuiltFrom nd.rf ∧ t = nd.rf.currentTerm := by
  rcases hStep.request_cases hMem hTerm with
    ⟨_, _, server, args, next, _, _, _, rfl, hArgs⟩ |
    ⟨_, _, server, args, next, reply, snapshot, _, _, _,
      rfl, hFailed⟩
  · rcases Raft.syncArgs_spec hArgs with
      ⟨_, _, _, _, _, _, _, rfl⟩
    cases hTerm
    exact ⟨⟨next, hArgs⟩, rfl⟩
  · rcases Raft.handleFailedReply_snapshot hFailed with
      ⟨first, hFirst, rfl⟩
    cases hTerm
    exact ⟨⟨first, hFirst, rfl⟩, rfl⟩

/- Under the condition, only leaders build requests. -/
theorem leader_of_request
    (hStep : RaftStep nd event rf' effects)
    (hBuilds : nd.buildsAsLeader event = true)
    {effect : Effect C n}
    {t : Int}
    (hMem : effect ∈ effects)
    (hTerm : effect.leaderTerm = some t) :
    nd.rf.state = .leader := by
  rcases hStep.request_cases hMem hTerm with
    ⟨i, k, _, _, _, rfl, hThread, hToken, _, _⟩ |
    ⟨i, k, server, args, next, reply, snapshot, rfl,
      hThread, hRefused, _, hFailed⟩
  · simpa [Node.buildsAsLeader, hThread, hToken]
      using hBuilds
  · have hFive := Raft.reachesCaseFive_of_snapshot hFailed
    simpa [Node.buildsAsLeader, hThread, hRefused, hFive]
      using hBuilds

end RaftStep

------------------------------------------------------------
-- Requests In The Cluster
------------------------------------------------------------

namespace Cluster

variable [DecidableEq C]
variable {ok : Cluster C n → Fin n × Event C n → Prop}
variable {c c' : Cluster C n}

/-
  Every request of a leader in the trace of `c` names a term
  that its sender was elected in, and was built from the log
  the sender had at a moment of the run when it was the
  leader of that term.
-/
def LeaderMessages
    (ok : Cluster C n → Fin n × Event C n → Prop)
    (c : Cluster C n) : Prop :=
  ∀ i effect t, (i, effect) ∈ c.trace →
    effect.leaderTerm = some t →
      (i, .elected t) ∈ c.trace ∧
        ∃ c₀, (system C n).Reachable ok c₀ ∧
          (system C n).Run ok c₀ c ∧ c₀.LeaderOf i t ∧
            effect.BuiltFrom (c₀.nodes i).rf

/- Only leaders build requests, and keep their term. -/
def SentWhileLeading
    (c : Cluster C n)
    (a : Fin n × Event C n) : Prop :=
  ((c.nodes a.1).leaderKeepsTerm a.2 &&
    (c.nodes a.1).buildsAsLeader a.2) = true

theorem LeaderMessages.step
    {i : Fin n}
    {event : Event C n}
    (hMessages : LeaderMessages ok c)
    (hReach : (system C n).Reachable ok c)
    (hElected : c.LeadersElected)
    (hBuilds : (c.nodes i).buildsAsLeader event = true)
    (hOk : ok c (i, event))
    (hStep : (system C n).step (i, event) c = some c') :
    LeaderMessages ok c' := by
  have hNext : (system C n).Run ok c c' :=
    System.Run.single hOk hStep
  rcases system_step_cases hStep with
    ⟨nd', effects, _, hNode, hEq⟩
  have hRaft := Node.step_raftStep hNode
  intro j effect t hMem hTerm
  rw [hEq] at hMem
  rcases mem_trace_iff.mp hMem with hOld | ⟨rfl, hNew⟩
  · rcases hMessages j effect t hOld hTerm with
      ⟨hWon, c₀, hReach₀, hRun, hLeader, hBuilt⟩
    exact ⟨trace_mono hNext hWon, c₀, hReach₀,
      hRun.trans hNext, hLeader, hBuilt⟩
  · rcases hRaft.builtFrom hNew hTerm with ⟨hBuilt, hNow⟩
    have hState := hRaft.leader_of_request hBuilds hNew hTerm
    have hLeader : c.LeaderOf j t := ⟨hState, hNow.symm⟩
    exact ⟨trace_mono hNext (hElected j t hLeader), c,
      hReach, hNext, hLeader, hBuilt⟩

theorem leaderMessages_of_reachable
    (hKeeps :
      ∀ c a, ok c a →
        (c.nodes a.1).leaderKeepsTerm a.2 = true)
    (hBuilds :
      ∀ c a, ok c a →
        (c.nodes a.1).buildsAsLeader a.2 = true)
    (hReach : (system C n).Reachable ok c) :
    LeaderMessages ok c := by
  refine System.Reachable.induct
    (P := fun c : Cluster C n => LeaderMessages ok c)
    ?_ ?_ hReach
  · intro c hInit
    rw [system_init_iff] at hInit
    subst hInit
    intro i effect t hMem
    cases hMem
  · rintro c ⟨i, event⟩ c' hReach ih hOk hStep
    exact ih.step hReach
      (leadersElected_of_reachable hKeeps hReach)
      (hBuilds c (i, event) hOk) hOk hStep

/-
  Leader messages come from leaders, in every run in which
  requests are built in state leader.
-/
theorem leader_messages
    (hReach : (system C n).Reachable SentWhileLeading c) :
    LeaderMessages SentWhileLeading c := by
  refine leaderMessages_of_reachable ?_ ?_ hReach
  · intro c a hOk
    exact (Bool.and_eq_true_iff.mp hOk).1
  · intro c a hOk
    exact (Bool.and_eq_true_iff.mp hOk).2

------------------------------------------------------------
-- Runs Of Three Servers
------------------------------------------------------------

/-
  Server 0 wins term 2, and its `serveAsLeader` starts a
  `syncEntries` goroutine.
-/
def leaderServes {n : Nat} [NeZero n] :
    List (Fin n × Event Nat n) :=
  twoBallots ++ [(0, .run 0), (0, .run 0), (0, .run 0)]

/-
  Before that goroutine takes the lock, a vote request of
  server 1 moves server 0 to term 3.
-/
def deposed {n : Nat} [NeZero n] :
    List (Fin n × Event Nat n) :=
  [(1, .tickerTimeout), (1, .run 0),
    (0, .requestVote (initialLogRequest 3 1))]

/- Whether server 0 sent a leader's request for `t`. -/
def sentInTerm
    {n : Nat}
    [NeZero n]
    (c : Cluster Nat n)
    (t : Int) : Bool :=
  c.trace.any (fun x =>
    decide (x.1 = 0 ∧ x.2.leaderTerm = some t))

theorem sentInTerm_iff
    {c : Cluster Nat 3}
    {t : Int} :
    sentInTerm c t = true ↔
      ∃ effect, (0, effect) ∈ c.trace ∧
        effect.leaderTerm = some t := by
  unfold sentInTerm
  rw [List.any_eq_true]
  constructor
  · rintro ⟨⟨i, effect⟩, hMem, hSent⟩
    rw [decide_eq_true_eq] at hSent
    rcases hSent with ⟨rfl, hTerm⟩
    exact ⟨effect, hMem, hTerm⟩
  · rintro ⟨effect, hMem, hTerm⟩
    exact ⟨(0, effect), hMem,
      decide_eq_true ⟨rfl, hTerm⟩⟩

/-
  Server 0 sends its log in the name of term 3, which it was
  never elected in.
-/
theorem deposed_leader_sends :
    ¬ ∀ c : Cluster Nat 3,
      (system Nat 3).Reachable System.always c →
        LeaderMessages System.always c := by
  intro hClaim
  have hExec :
      (((system Nat 3).exec
        (leaderServes ++ deposed ++ [(0, .run 0)])
        (initial Nat 3)).any
          (fun c => sentInTerm c 3 &&
            decide ((0, .elected 3) ∉ c.trace))) =
        true := by
    decide
  rcases System.exists_run_of_exec hExec with
    ⟨c, hRun, hSent⟩
  rw [Bool.and_eq_true, sentInTerm_iff,
    decide_eq_true_eq] at hSent
  rcases hSent with ⟨⟨effect, hMem, hTerm⟩, hNever⟩
  have hReach :=
    (initial_reachable System.always).trans hRun
  exact hNever (hClaim c hReach 0 effect 3 hMem hTerm).1

/- Without the vote request, server 0 sends in term 2. -/
theorem leader_messages_term_two :
    ∃ c : Cluster Nat 3,
      (system Nat 3).Reachable SentWhileLeading c ∧
        (∃ effect, (0, effect) ∈ c.trace ∧
          effect.leaderTerm = some 2) ∧
        LeaderMessages SentWhileLeading c := by
  have hExec :
      (((system Nat 3).execOk
        (fun c a => (c.nodes a.1).leaderKeepsTerm a.2 &&
          (c.nodes a.1).buildsAsLeader a.2)
        (leaderServes ++ [(0, .run 0)])
        (initial Nat 3)).any
          (fun c => sentInTerm c 2)) = true := by
    decide
  rcases System.exists_run_of_execOk hExec with
    ⟨c, hRun, hSent⟩
  rw [sentInTerm_iff] at hSent
  have hReach : (system Nat 3).Reachable SentWhileLeading c :=
    (initial_reachable SentWhileLeading).trans hRun
  exact ⟨c, hReach, hSent, leader_messages hReach⟩

end Cluster

end RaftLab
