import RaftLab.Raft.Acceptance

/-
  The replies a leader counts.

  A goroutine that waits for a reply remembers how far the
  request reaches. A leader that handles a successful reply
  takes this over into `matchIndex`, without looking at the
  term the request was sent in. If it is the leader's own
  term, `matchIndex` only counts what was accepted.

  Main declarations:
    * `Spawned`, `Node.step_spawned`
    * `Node.countsOwnReplies`
    * `Cluster.RepliesBacked`, `Cluster.Matched`
-/

------------------------------------------------------------
-- Goroutines Of A Leader
------------------------------------------------------------

namespace RaftLab

variable {C : Type} {n : Nat}

/- The goroutine waits for a reply or is about to use it. -/
def Thread.replicates : Thread C n → Bool
| .appendEntries _ _ _ _ => true
| .appendReplied _ _ _ _ _ => true
| _ => false

/- How a goroutine that replicates comes about. -/
inductive Spawned
    (nd : Node C n)
    (event : Event C n) :
    Thread C n → Prop
  | sent
      (k : Nat)
      (server : Fin n)
      (args : AppendEntriesArgs C)
      (next : Int)
      (hArgs : nd.rf.syncArgs server = some (args, next)) :
      Spawned nd event (.appendEntries k server args next)
  | replied
      (i k : Nat)
      (server : Fin n)
      (args : AppendEntriesArgs C)
      (next : Int)
      (reply : AppendEntriesReply)
      (hEvent : event = .appendReply i reply)
      (hThread : nd.threads[i]? =
        some (.appendEntries k server args next)) :
      Spawned nd event
        (.appendReplied k server args next reply)

namespace Node

variable {nd nd' : Node C n}
variable {effects : List (Effect C n)}

/- All goroutines after the step that replicate. -/
def SpawnsOnly
    (nd : Node C n)
    (event : Event C n)
    (threads : List (Thread C n)) : Prop :=
  ∀ thread ∈ threads, thread.replicates = true →
    thread ∈ nd.threads ∨ Spawned nd event thread

theorem SpawnsOnly.rest
    (nd : Node C n)
    (event : Event C n)
    (i : Nat) :
    nd.SpawnsOnly event (nd.threads.eraseIdx i) :=
  fun _ hMem _ => Or.inl (List.mem_of_mem_eraseIdx hMem)

theorem SpawnsOnly.cons
    {event : Event C n}
    {thread : Thread C n}
    {threads : List (Thread C n)}
    (hOther : thread.replicates = false)
    (hRest : nd.SpawnsOnly event threads) :
    nd.SpawnsOnly event (thread :: threads) := by
  intro thread' hMem hReplicates
  rcases List.mem_cons.mp hMem with rfl | hMem
  · rw [hOther] at hReplicates
    cases hReplicates
  · exact hRest thread' hMem hReplicates

theorem SpawnsOnly.append
    {event : Event C n}
    {spawned threads : List (Thread C n)}
    (hSpawned : nd.SpawnsOnly event spawned)
    (hRest : nd.SpawnsOnly event threads) :
    nd.SpawnsOnly event (spawned ++ threads) := by
  intro thread hMem hReplicates
  rcases List.mem_append.mp hMem with hNew | hOld
  · exact hSpawned thread hNew hReplicates
  · exact hRest thread hOld hReplicates

theorem runThread_spawned
    {i : Nat}
    {thread : Thread C n}
    (hRun : nd.runThread (nd.threads.eraseIdx i) thread =
      some (nd', effects)) :
    nd.SpawnsOnly (.run i) nd'.threads := by
  have hRest := SpawnsOnly.rest nd (.run i) i
  cases thread with
  | election k =>
      rcases Option.bind_eq_some_iff.mp hRun with
        ⟨⟨rf', args⟩, _, hRun⟩
      cases hRun
      refine .cons rfl (.append ?_ hRest)
      intro thread hMem hReplicates
      rcases List.mem_map.mp hMem with ⟨_, _, rfl⟩
      cases hReplicates
  | electionLoop k =>
      cases hRun
      exact .cons rfl hRest
  | electionBallot k ballot =>
      rw [runThread] at hRun
      split at hRun
      · cases hRun
        exact hRest
      · cases hRun
        exact .cons rfl hRest
  | electionChecked k ballot =>
      rcases Option.bind_eq_some_iff.mp hRun with
        ⟨⟨rf', won⟩, _, hRun⟩
      cases won <;>
      · cases hRun
        exact .cons rfl hRest
  | electionWon =>
      cases hRun
      exact .cons rfl (.cons rfl hRest)
  | requestVote k server args => cases hRun
  | voteCancel k =>
      cases hRun
      exact hRest
  | voteGranted k server =>
      cases hRun
      exact hRest
  | serveAsLeader term k =>
      rw [runThread] at hRun
      split at hRun
      · cases hRun
        exact hRest
      · cases hRun
        exact .cons rfl (.cons rfl hRest)
  | commitCheck k =>
      rw [runThread] at hRun
      split at hRun
      · cases hRun
        exact hRest
      · cases hRun
        exact .cons rfl hRest
  | commitWait k =>
      rcases Option.bind_eq_some_iff.mp hRun with
        ⟨rf', _, hRun⟩
      cases hRun
      exact .cons rfl hRest
  | syncEntries k =>
      rw [runThread, runSyncEntries] at hRun
      split at hRun
      · cases hRun
        exact hRest
      · rcases Option.bind_eq_some_iff.mp hRun with
          ⟨requests, hSync, hRun⟩
        cases hRun
        refine .append ?_ hRest
        intro thread hMem _
        rcases List.mem_map.mp hMem with
          ⟨⟨server, args, next⟩, hRequest, rfl⟩
        exact Or.inr (.sent k server args next
          (Raft.mem_syncEntries hSync hRequest).2)
  | appendEntries k server args next => cases hRun
  | appendReplied k server args next reply =>
      rw [runThread, runAppendReplied] at hRun
      split at hRun
      · cases hRun
        exact hRest
      · rcases Option.bind_eq_some_iff.mp hRun with
          ⟨outcome, _, hRun⟩
        cases outcome with
        | cancel =>
            cases hRun
            exact hRest
        | nextIndex rf' =>
            cases hRun
            exact hRest
        | snapshot snapshot =>
            cases hRun
            exact .cons rfl hRest
  | installSnapshot k server args => cases hRun
  | installReplied k server args reply =>
      rw [runThread] at hRun
      split at hRun <;>
      · cases hRun
        exact hRest

theorem receiveVote_spawned
    {event : Event C n}
    {i : Nat}
    {reply : RequestVoteReply}
    {thread : Thread C n}
    (hReceive :
      nd.receiveVote (nd.threads.eraseIdx i) reply thread =
        some nd') :
    nd.SpawnsOnly event nd'.threads := by
  have hRest := SpawnsOnly.rest nd event i
  unfold receiveVote at hReceive
  split at hReceive
  · split at hReceive
    · cases hReceive
      exact hRest
    · split at hReceive
      · cases hReceive
        exact .cons rfl hRest
      · split at hReceive
        · cases hReceive
          exact .cons rfl hRest
        · cases hReceive
          exact hRest
  · cases hReceive

theorem receiveAppend_spawned
    {i : Nat}
    {reply : AppendEntriesReply}
    {thread : Thread C n}
    (hThread : nd.threads[i]? = some thread)
    (hReceive :
      nd.receiveAppend (nd.threads.eraseIdx i) reply thread =
        some nd') :
    nd.SpawnsOnly (.appendReply i reply) nd'.threads := by
  have hRest := SpawnsOnly.rest nd (.appendReply i reply) i
  unfold receiveAppend at hReceive
  split at hReceive
  · rename_i k server args next
    split at hReceive
    · cases hReceive
      exact hRest
    · cases hReceive
      intro thread hMem hReplicates
      rcases List.mem_cons.mp hMem with rfl | hMem
      · exact Or.inr (.replied i k server args next reply rfl
          hThread)
      · exact hRest thread hMem hReplicates
  · cases hReceive

theorem receiveSnapshot_spawned
    {event : Event C n}
    {i : Nat}
    {reply : InstallSnapshotReply}
    {thread : Thread C n}
    (hReceive :
      nd.receiveSnapshot (nd.threads.eraseIdx i) reply
        thread = some nd') :
    nd.SpawnsOnly event nd'.threads := by
  have hRest := SpawnsOnly.rest nd event i
  unfold receiveSnapshot at hReceive
  split at hReceive
  · split at hReceive
    · cases hReceive
      exact hRest
    · cases hReceive
      exact .cons rfl hRest
  · cases hReceive

/- Where the goroutines that replicate come from. -/
theorem step_spawned
    {event : Event C n}
    (hStep : nd.step event = some (nd', effects)) :
    nd.SpawnsOnly event nd'.threads := by
  have hSame : nd.SpawnsOnly event nd.threads :=
    fun _ hMem _ => Or.inl hMem
  cases event with
  | requestVote args =>
      rcases Option.bind_eq_some_iff.mp hStep with
        ⟨_, _, hStep⟩
      cases hStep
      exact hSame
  | appendEntries args =>
      rcases Option.bind_eq_some_iff.mp hStep with
        ⟨_, _, hStep⟩
      cases hStep
      exact hSame
  | installSnapshot args =>
      rcases Option.bind_eq_some_iff.mp hStep with
        ⟨_, _, hStep⟩
      cases hStep
      exact hSame
  | start command =>
      rcases Option.bind_eq_some_iff.mp hStep with
        ⟨_, _, hStep⟩
      cases hStep
      exact hSame
  | takeSnapshot index snapshot =>
      rcases Option.bind_eq_some_iff.mp hStep with
        ⟨_, _, hStep⟩
      cases hStep
      exact hSame
  | tickerTimeout =>
      rw [Node.step] at hStep
      split at hStep
      · cases hStep
        exact .cons rfl hSame
      · cases hStep
  | tickerCancel =>
      rcases Option.map_eq_some_iff.mp hStep with
        ⟨_, _, hStep⟩
      cases hStep
      exact hSame
  | run i =>
      rcases Option.bind_eq_some_iff.mp hStep with
        ⟨thread, _, hRun⟩
      exact runThread_spawned hRun
  | voteReply i reply =>
      rcases Option.bind_eq_some_iff.mp hStep with
        ⟨thread, _, hSilent⟩
      exact receiveVote_spawned
        (silent_eq_some_iff.mp hSilent).1
  | appendReply i reply =>
      rcases Option.bind_eq_some_iff.mp hStep with
        ⟨thread, hThread, hSilent⟩
      exact receiveAppend_spawned hThread
        (silent_eq_some_iff.mp hSilent).1
  | snapshotReply i reply =>
      rcases Option.bind_eq_some_iff.mp hStep with
        ⟨thread, _, hSilent⟩
      exact receiveSnapshot_spawned
        (silent_eq_some_iff.mp hSilent).1
  | applyEntries =>
      rcases Option.bind_eq_some_iff.mp hStep with
        ⟨_, _, hStep⟩
      cases hStep
      exact hSame
  | dequeue =>
      rw [Node.step] at hStep
      split at hStep
      · cases hStep
        exact hSame
      · cases hStep
  | applyCh =>
      rcases Option.map_eq_some_iff.mp hStep with
        ⟨_, _, hStep⟩
      cases hStep
      exact hSame
  | restart =>
      rcases silent_eq_some_iff.mp hStep with ⟨hMake, _⟩
      rcases Option.map_eq_some_iff.mp hMake with
        ⟨rf', _, rfl⟩
      intro thread hMem hReplicates
      unfold boot at hMem
      dsimp only at hMem
      split at hMem
      · simp only [List.mem_cons, List.not_mem_nil,
          or_false] at hMem
        rcases hMem with rfl | rfl <;> cases hReplicates
      · cases hMem

end Node

------------------------------------------------------------
-- Replies In The Trace
------------------------------------------------------------

namespace Cluster

variable [DecidableEq C]
variable {ok : Cluster C n → Fin n × Event C n → Prop}

/-
  A goroutine that waits knows how far its request reaches,
  and one that has a reply has it from the server it asked.
-/
structure RepliesBacked (c : Cluster C n) : Prop where
  waiting :
    ∀ i k server args (next : Int),
      .appendEntries k server args next ∈
        (c.nodes i).threads →
      next = args.prevLogIndex + 1 + args.entries.length
  replied :
    ∀ i k server args (next : Int) reply,
      .appendReplied k server args next reply ∈
        (c.nodes i).threads →
      next = args.prevLogIndex + 1 + args.entries.length ∧
        (server, .appendReply args reply) ∈ c.trace

omit [DecidableEq C] in
theorem next_of_syncArgs
    {rf : Raft C n}
    {full : List (LogEntry C)}
    (hHolds : rf.Holds full)
    {server : Fin n}
    {args : AppendEntriesArgs C}
    {next : Int}
    (hArgs : rf.syncArgs server = some (args, next)) :
    next = args.prevLogIndex + 1 + args.entries.length := by
  rcases hHolds with ⟨b, hSuffix, _⟩
  rcases hSuffix.syncArgs hArgs with
    ⟨hNext, p, hLt, hPrev, _, hEntries, _⟩
  rw [hNext, hPrev, hEntries, List.length_drop]
  omega

theorem repliesBacked_of_history
    (hKept : LogsKept ok)
    {p : Cluster C n × LogHistory C n}
    (hReach : (logSystem C n).Reachable
      (fun p a => ok p.1 a) p) :
    p.1.RepliesBacked := by
  refine history_induct
    (P := fun c _ => c.RepliesBacked) ?_ ?_ hReach
  · constructor
    · intro i k server args next hMem
      cases hMem
    · intro i k server args next reply hMem
      cases hMem
  · intro c g i event nd' effects hStep ih
    have hHolds := (hStep.led hKept).holds i
    have hSpawned := Node.step_spawned hStep.node
    constructor
    · intro j k server args next hMem
      by_cases hj : j = i
      · subst hj
        rw [after_nodes_self] at hMem
        rcases hSpawned _ hMem rfl with hOld | hNew
        · exact ih.waiting j k server args next hOld
        · cases hNew with
          | sent _ _ _ _ hArgs =>
              exact next_of_syncArgs hHolds hArgs
      · rw [after_nodes_of_ne hj] at hMem
        exact ih.waiting j k server args next hMem
    · intro j k server args next reply hMem
      by_cases hj : j = i
      · subst hj
        rw [after_nodes_self] at hMem
        rcases hSpawned _ hMem rfl with hOld | hNew
        · rcases ih.replied j k server args next reply hOld
            with ⟨hNext, hReply⟩
          exact ⟨hNext, trace_subset_after hReply⟩
        · cases hNew with
          | replied idx _ _ _ _ _ hEvent hThread =>
              subst hEvent
              refine ⟨ih.waiting j k server args next
                (List.mem_of_getElem? hThread), ?_⟩
              rcases deliverable_appendReply hStep.deliver
                with ⟨token', server', args', next',
                  hThread', hReply⟩
              rw [hThread, Option.some.injEq] at hThread'
              cases hThread'
              exact trace_subset_after hReply
      · rw [after_nodes_of_ne hj] at hMem
        rcases ih.replied j k server args next reply hMem
          with ⟨hNext, hReply⟩
        exact ⟨hNext, trace_subset_after hReply⟩

end Cluster

------------------------------------------------------------
-- Match Indices
------------------------------------------------------------

/- A leader counts a reply to a request of its own term. -/
def Node.countsOwnReplies
    (nd : Node C n) :
    Event C n → Bool
| .run i =>
    match nd.threads[i]? with
    | some (.appendReplied _ _ args _ reply) =>
        !reply.success ||
          decide (nd.rf.state = .leader →
            nd.rf.currentTerm = args.term)
    | _ => true
| _ => true

/-
  A match index is kept or reset, covers an entry that the
  server itself has just appended, or comes from a reply.
-/
theorem RaftStep.matchIndex_cases
    {nd : Node C n}
    {event : Event C n}
    {rf' : Raft C n}
    {effects : List (Effect C n)}
    (hStep : RaftStep nd event rf' effects)
    (j : Fin n) :
    (rf'.matchIndex j = nd.rf.matchIndex j ∧
      ∀ t, .elected t ∉ effects) ∨
    rf'.matchIndex j = 0 ∨
    (j = nd.rf.me ∧ ∃ len e,
      nd.rf.globalLogLen = some len ∧
      rf'.log = nd.rf.log ++ [e] ∧
      rf'.matchIndex j = len) ∨
    (∃ i k args next reply,
      event = .run i ∧
      nd.threads[i]? =
        some (.appendReplied k j args next reply) ∧
      reply.success = true ∧
      rf'.matchIndex j = next - 1) := by
  cases hStep with
  | requestVote args _ rf' reply hCase =>
      left
      constructor
      · cases hCase with
        | stale => rfl
        | refused =>
            unfold Raft.adoptVoteTerm
            split <;> rfl
        | granted =>
            unfold Raft.adoptVoteTerm
            split <;> rfl
      · intro t hMem
        unfold voteEffects at hMem
        split at hMem <;> simp at hMem
  | appendEntries args _ rf' reply hCase =>
      left
      refine ⟨?_, by simp⟩
      cases hCase <;> rfl
  | installSnapshot args _ rf' reply hCase =>
      left
      refine ⟨?_, by simp⟩
      cases hCase <;> rfl
  | start command hEvent hLeader len hLen =>
      by_cases hj : j = nd.rf.me
      · subst hj
        refine Or.inr (Or.inr (Or.inl ⟨rfl, len, _, hLen,
          rfl, ?_⟩))
        exact Function.update_self ..
      · left
        refine ⟨?_, by simp⟩
        exact Function.update_of_ne hj ..
  | election i k hEvent hThread rf' args hStart =>
      left
      refine ⟨?_, by simp⟩
      rw [(Raft.electionStart_spec hStart).1]
      rfl
  | win i k ballot hEvent hThread hCandiate hBallot len
      hLen =>
      by_cases hj : j = nd.rf.me
      · exact Or.inr (Or.inr (Or.inl ⟨hj, len, _, hLen,
          rfl, if_pos hj⟩))
      · exact Or.inr (Or.inl (if_neg hj))
  | sync =>
      left
      exact ⟨rfl, by simp⟩
  | success i k server args next reply hEvent hThread
      hSuccess =>
      by_cases hj : j = server ∧
          nd.rf.matchIndex server ≤ next - 1
      · rcases hj with ⟨rfl, hLe⟩
        refine Or.inr (Or.inr (Or.inr ⟨i, k, args, next,
          reply, hEvent, hThread, hSuccess, ?_⟩))
        simp only [Raft.handleSuccess, if_pos hLe,
          Function.update_self]
      · left
        refine ⟨?_, by simp⟩
        simp only [Raft.handleSuccess]
        split
        · rename_i hLe
          have hNe : j ≠ server := fun hEq => hj ⟨hEq, hLe⟩
          rw [Function.update_of_ne hNe]
        · rfl
  | applyEntries rf' hApply =>
      left
      refine ⟨?_, by simp⟩
      refine congrFun (Raft.applyEntries_induct
        (P := fun r => r.matchIndex = nd.rf.matchIndex) ?_ rfl
        hApply) j
      intro r r' hSame hIteration
      rcases Raft.applyIteration_cases hIteration with
        ⟨l, entry, _, _, _, _, ⟨_, _, _, rfl⟩ | ⟨_, rfl⟩⟩
      · exact hSame
      · exact hSame
  | restart _ rf' hMake =>
      rcases Raft.make_spec hMake with
        ⟨_, _, _, _, _, _, _, _, _, _, hZero, _⟩
      exact Or.inr (Or.inl (hZero j))
  | _ =>
      left
      exact ⟨rfl, by simp⟩

namespace Cluster

variable [DecidableEq C]
variable {ok : Cluster C n → Fin n × Event C n → Prop}

/- What a leader counts was accepted in its term. -/
def Matched
    (c : Cluster C n)
    (g : LogHistory C n) : Prop :=
  ∀ i t, c.LeaderOf i t → ∀ j (N : Nat), 0 < N →
    (N : Int) ≤ (c.nodes i).rf.matchIndex j →
      c.Accepted g j t (N + 1)

/- A leader after a step that did not just win led before. -/
theorem HistoryStep.leader_before
    {c : Cluster C n}
    {g : LogHistory C n}
    {i : Fin n}
    {event : Event C n}
    {nd' : Node C n}
    {effects : List (Effect C n)}
    (hStep : HistoryStep ok c g i event nd' effects)
    (hKept : LogsKept ok)
    (hLeader : nd'.rf.state = .leader)
    (hNotWon : ∀ t, .elected t ∉ effects) :
    c.LeaderOf i nd'.rf.currentTerm := by
  have hKeeps := hKept.keeps c _ hStep.accepted
  rcases hStep.raftStep.leader_cases
      (persisted hStep.reach i) hLeader with
    hNew | ⟨hWas, hSame | ⟨k, token, hEvent, hThread⟩⟩
  · exact absurd hNew (hNotWon _)
  · exact ⟨hWas, hSame.symm⟩
  · subst hEvent
    simp only [Node.leaderKeepsTerm, hThread,
      decide_eq_true_eq] at hKeeps
    exact absurd hWas hKeeps

theorem matched_of_history
    (hKept : LogsKept ok)
    (hCounts :
      ∀ c a, ok c a →
        (c.nodes a.1).countsOwnReplies a.2 = true)
    {p : Cluster C n × LogHistory C n}
    (hReach : (logSystem C n).Reachable
      (fun p a => ok p.1 a) p) :
    p.1.Matched p.2 := by
  refine history_induct
    (P := fun c g => c.Matched g) ?_ ?_ hReach
  · intro i t hLeader
    cases hLeader.1
  · intro c g i event nd' effects hStep ih j t hLeader k N
      hPos hMatch
    have hMono := (hStep.replication_step hKept).accepted_mono
    have hWon := leadersElected_of_reachable hKept.keeps
      hStep.reach_after j t hLeader
    by_cases hj : j = i
    · subst hj
      have hLog := (hStep.led_after hKept).leader j t hLeader
      rcases (hStep.led_after hKept).holds j with
        ⟨b, hSuffix, _⟩
      rw [after_nodes_self] at hSuffix hMatch
      have hState := hLeader.1
      have hTerm := hLeader.2
      rw [after_nodes_self] at hState hTerm
      rcases hStep.raftStep.matchIndex_cases k with
        ⟨hSame, hNotWon⟩ | hZero |
        ⟨hMe, len, e, hLen, hAppend, hNew⟩ |
        ⟨idx, token, args, next, reply, hEvent, hThread,
          hSuccess, hNext⟩
      · -- the server led before and counts what it counted
        have hBefore := hStep.leader_before hKept hState
          hNotWon
        rw [hTerm] at hBefore
        rw [hSame] at hMatch
        exact hMono k t _ (ih j t hBefore k N hPos hMatch)
      · omega
      · -- its own log reaches that far
        have hLength := Raft.globalLogLen_append hLen hAppend
        rw [hSuffix.globalLogLen,
          Option.some.injEq] at hLength
        rw [me_eq hStep.reach j] at hMe
        subst hMe
        refine Or.inr (Or.inl ⟨hWon, ?_⟩)
        rw [hLog]
        omega
      · -- a reply to a request of this term
        have hOwn := hCounts c _ hStep.accepted
        subst hEvent
        simp only [Node.countsOwnReplies, hThread, hSuccess,
          Bool.not_true, Bool.false_or,
          decide_eq_true_eq] at hOwn
        have hBefore : c.LeaderOf j nd'.rf.currentTerm := by
          apply hStep.leader_before hKept hState
          intro u hMem
          rcases hStep.raftStep.win_of_elected hMem with
            ⟨_, idx', token', ballot, hEvent', hThread', _⟩
          cases hEvent'
          rw [hThread] at hThread'
          cases hThread'
        have hArgs := hOwn hBefore.1
        rcases (repliesBacked_of_history hKept
            hStep.history).replied j token k args next reply
            (List.mem_of_getElem? hThread) with
          ⟨hReach, hReply⟩
        refine Or.inl ⟨args, reply, trace_subset_after hReply,
          hSuccess, ?_, ?_⟩
        · rw [← hArgs, hBefore.2, hTerm]
        · push_cast
          omega
    · have hBefore : c.LeaderOf j t := by
        unfold LeaderOf at hLeader ⊢
        rw [after_nodes_of_ne hj] at hLeader
        exact hLeader
      rw [after_nodes_of_ne hj] at hMatch
      exact hMono k t _ (ih j t hBefore k N hPos hMatch)

end Cluster

end RaftLab
