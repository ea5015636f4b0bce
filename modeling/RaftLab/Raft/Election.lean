import RaftLab.Raft.Ballots
import RaftLab.Raft.Cluster

/-
  Elections in a cluster.

  A term has at most one leader in every run in which no
  election goroutine acts on a term that is not its own: the
  first critical section of `election` is not entered by a
  leader, and the last one does not win after the server has
  moved on to another term. The code checks neither, and a
  run that does win late has two leaders in one term.

  Main declarations:
    * `Cluster.LeaderOf`
    * `Node.leaderKeepsTerm`, `Node.winsOwnTerm`,
      `Cluster.FreshElections`
    * `Cluster.ballots_of_reachable`
    * `Cluster.elected_unique`
    * `Cluster.election_safety`
-/

------------------------------------------------------------
-- Votes And Replies In The Trace
------------------------------------------------------------

namespace RaftLab

variable {C : Type} {n : Nat}

namespace RaftStep

variable {nd : Node C n}
variable {event : Event C n}
variable {rf' : Raft C n}
variable {effects : List (Effect C n)}

/- A granting reply is sent together with the vote. -/
theorem vote_of_voteReply
    (hStep : RaftStep nd event rf' effects)
    {args : RequestVoteArgs}
    {reply : RequestVoteReply}
    (hMem : (.voteReply args reply : Effect C n) ∈ effects)
    (hGranted : reply.voteGranted = true) :
    (.vote args.term args.candiateId : Effect C n) ∈
      effects := by
  cases hStep with
  | requestVote args' _ _ reply' hCase =>
      unfold voteEffects at hMem ⊢
      split at hMem
      · rename_i hGranted'
        rw [if_pos hGranted']
        simp only [List.mem_cons, reduceCtorEq,
          Effect.voteReply.injEq, List.not_mem_nil,
          or_false, false_or] at hMem
        rw [hMem.1]
        exact List.mem_cons_self
      · rename_i hRefused
        simp only [List.mem_cons, Effect.voteReply.injEq,
          List.not_mem_nil, or_false] at hMem
        rw [hMem.2] at hGranted
        exact absurd hGranted hRefused
  | election =>
      simp at hMem
  | sync => simp at hMem
  | _ => simp at hMem

/- Only the last critical section of `election` wins. -/
theorem win_of_elected
    (hStep : RaftStep nd event rf' effects)
    {t : Int}
    (hMem : (.elected t : Effect C n) ∈ effects) :
    t = nd.rf.currentTerm ∧
      ∃ i k ballot,
        event = .run i ∧
        nd.threads[i]? = some (.electionChecked k ballot) ∧
        nd.rf.state = .candiate ∧
        ((n / 2 + 1 : Nat) : Int) ≤ ballot := by
  cases hStep with
  | requestVote args _ _ reply hCase =>
      unfold voteEffects at hMem
      split at hMem <;> simp at hMem
  | election => simp at hMem
  | win i k ballot hEvent hThread hCandiate hBallot =>
      simp only [List.mem_cons, Effect.elected.injEq,
        List.not_mem_nil, or_false] at hMem
      exact ⟨hMem, i, k, ballot, hEvent, hThread, hCandiate,
        hBallot⟩
  | sync => simp at hMem
  | _ => simp at hMem

/- The winner of a term leads it. -/
theorem leader_of_elected
    (hStep : RaftStep nd event rf' effects)
    {t : Int}
    (hMem : (.elected t : Effect C n) ∈ effects) :
    rf'.state = .leader ∧ rf'.currentTerm = t := by
  cases hStep with
  | requestVote args _ _ reply hCase =>
      unfold voteEffects at hMem
      split at hMem <;> simp at hMem
  | election => simp at hMem
  | win i k ballot hEvent hThread hCandiate hBallot =>
      rw [List.mem_singleton] at hMem
      cases hMem
      exact ⟨rfl, rfl⟩
  | sync => simp at hMem
  | _ => simp at hMem

/-
  A leader after a step has just won, or was the leader of
  the same term before, or was a leader whose own election
  goroutine raised its term.
-/
theorem leader_cases
    (hStep : RaftStep nd event rf' effects)
    (hRf : nd.rf.Persisted)
    (hLeader : rf'.state = .leader) :
    (.elected rf'.currentTerm : Effect C n) ∈ effects ∨
      nd.rf.state = .leader ∧
        (rf'.currentTerm = nd.rf.currentTerm ∨
          ∃ i k, event = .run i ∧
            nd.threads[i]? = some (.election k)) := by
  cases hStep with
  | requestVote args _ rf' reply hCase =>
      cases hCase with
      | stale => exact Or.inr ⟨hLeader, Or.inl rfl⟩
      | refused hTerm =>
          unfold Raft.adoptVoteTerm at hLeader ⊢
          split
          · rename_i hHigher
            rw [if_pos hHigher] at hLeader
            cases hLeader
          · rename_i hSame
            rw [if_neg hSame] at hLeader
            exact Or.inr ⟨hLeader, Or.inl rfl⟩
      | granted => cases hLeader
  | appendEntries args _ rf' reply hCase =>
      cases hCase with
      | stale => exact Or.inr ⟨hLeader, Or.inl rfl⟩
      | good => cases hLeader
      | covered => cases hLeader
      | fixed => cases hLeader
      | rejected => cases hLeader
  | installSnapshot args _ rf' reply hCase =>
      cases hCase with
      | refused => exact Or.inr ⟨hLeader, Or.inl rfl⟩
      | kept => cases hLeader
      | reset => cases hLeader
  | tickerTimeout => cases hLeader
  | election i k hEvent hThread rf' args hStart =>
      rw [(Raft.electionStart_spec hStart).1] at hLeader
      exact Or.inr ⟨hLeader,
        Or.inr ⟨i, k, hEvent, hThread⟩⟩
  | win => exact Or.inl (List.mem_singleton.mpr rfl)
  | applyEntries rf' hApply =>
      have hDurable := (Raft.applyEntries_volatile hApply).1
      simp only [Raft.durable, Prod.mk.injEq] at hDurable
      rw [hDurable.1] at hLeader
      exact Or.inr ⟨hLeader, Or.inl hDurable.2.1⟩
  | restart _ rf' hMake =>
      rcases Raft.make_durable hRf with
        ⟨rf'', hMake', hDurable, _⟩
      have hEq : rf' = rf'' :=
        Option.some.inj (hMake.symm.trans hMake')
      simp only [← hEq, Raft.durable,
        Prod.mk.injEq] at hDurable
      rw [hDurable.1] at hLeader
      exact Or.inr ⟨hLeader, Or.inl hDurable.2.1⟩
  | _ => exact Or.inr ⟨hLeader, Or.inl rfl⟩

end RaftStep

/- An election starts with a vote of the server itself. -/
theorem Node.self_vote
    {nd nd' : Node C n}
    {i k : Nat}
    {rf' : Raft C n}
    {args : RequestVoteArgs}
    {effects : List (Effect C n)}
    (hStep : nd.step (.run i) = some (nd', effects))
    (hThread : nd.threads[i]? = some (.election k))
    (hStart : nd.rf.electionStart = some (rf', args)) :
    (.vote args.term (nd.rf.me.val : Int) : Effect C n) ∈
      effects := by
  rw [Node.step, hThread, Option.bind_eq_bind,
    Option.bind_some, Node.runThread, Node.runElection,
    hStart] at hStep
  cases hStep
  rw [(Raft.electionStart_spec hStart).1]
  exact List.mem_cons_self

------------------------------------------------------------
-- Ballots In The Cluster
------------------------------------------------------------

namespace Cluster

variable [DecidableEq C]
variable {ok : Cluster C n → Fin n × Event C n → Prop}
variable {c c' : Cluster C n}

/- Peer `j` voted for server `i` in term `t`. -/
def Voted
    (c : Cluster C n)
    (i j : Fin n)
    (t : Int) : Prop :=
  (j, .vote t (i.val : Int)) ∈ c.trace

/-
  Every ballot of every server stands for a vote, and so
  does every granting reply.
-/
structure BallotsBacked (c : Cluster C n) : Prop where
  ballots : ∀ i, Ballots (c.Voted i) (c.nodes i)
  replies :
    ∀ j args reply, (j, .voteReply args reply) ∈ c.trace →
      reply.voteGranted = true →
        (j, .vote args.term args.candiateId) ∈ c.trace

theorem BallotsBacked.step
    {i : Fin n}
    {event : Event C n}
    (hBacked : c.BallotsBacked)
    (hMe : ∀ j, (c.nodes j).rf.me = j)
    (hStep : (system C n).step (i, event) c = some c') :
    c'.BallotsBacked := by
  rcases system_step_cases hStep with
    ⟨nd', effects, hDeliver, hNode, rfl⟩
  have hRaft := Node.step_raftStep hNode
  have hElection := Node.step_electionStep hNode
  constructor
  · intro j
    by_cases hj : j = i
    · subst hj
      have hVoted :
          ∀ p t, c.Voted j p t →
            (p, .vote t (j.val : Int)) ∈
              c.trace ++ effects.map (fun e => (j, e)) := by
        intro p t hOld
        exact mem_trace_iff.mpr (Or.inl hOld)
      dsimp only
      rw [Function.update_self]
      refine (hBacked.ballots j).step hElection hVoted
        hRaft.me_eq ?_ ?_
      · intro k token args hEvent hThread hStart
        subst hEvent
        refine mem_trace_iff.mpr (Or.inr ⟨hMe j, ?_⟩)
        have hVote := Node.self_vote hNode hThread hStart
        rw [hMe j] at hVote
        exact hVote
      · intro k token server args reply hEvent hThread
          hGranted hCandiate
        subst hEvent
        rcases deliverable_voteReply hDeliver with
          ⟨token', server', args', hThread', hReply⟩
        rw [hThread, Option.some.injEq] at hThread'
        cases hThread'
        have hVote :=
          hBacked.replies server args reply hReply hGranted
        rw [hCandiate, hMe j] at hVote
        exact mem_trace_iff.mpr (Or.inl hVote)
    · dsimp only
      rw [Function.update_of_ne hj]
      have hOld := hBacked.ballots j
      refine hOld.of_sublist ?_ rfl rfl rfl (le_refl _)
        (List.Sublist.refl _)
      intro p t hVote
      exact mem_trace_iff.mpr (Or.inl hVote)
  · intro j args reply hMem hGranted
    rcases mem_trace_iff.mp hMem with hOld | ⟨rfl, hNew⟩
    · exact mem_trace_iff.mpr
        (Or.inl (hBacked.replies j args reply hOld hGranted))
    · exact mem_trace_iff.mpr
        (Or.inr ⟨rfl, hRaft.vote_of_voteReply hNew hGranted⟩)

theorem ballots_of_reachable
    (hReach : (system C n).Reachable ok c) :
    c.BallotsBacked := by
  refine System.Reachable.induct
    (P := fun c : Cluster C n => c.BallotsBacked)
    ?_ ?_ hReach
  · intro c hInit
    rw [system_init_iff] at hInit
    subst hInit
    constructor
    · intro i
      exact Ballots.of_no_elections rfl
        (Node.electionThreads_boot _)
    · intro j args reply hMem
      cases hMem
  · rintro c ⟨i, event⟩ c' hReach ih _ hStep
    exact ih.step (me_eq hReach) hStep

------------------------------------------------------------
-- At Most One Leader Per Term
------------------------------------------------------------

/- Server `i` is the leader of term `t`. -/
def LeaderOf
    (c : Cluster C n)
    (i : Fin n)
    (t : Int) : Prop :=
  (c.nodes i).rf.state = .leader ∧
    (c.nodes i).rf.currentTerm = t

end Cluster

/- A leader does not start an election of its own. -/
def Node.leaderKeepsTerm
    (nd : Node C n) :
    Event C n → Bool
| .run i =>
    match nd.threads[i]? with
    | some (.election _) => decide (nd.rf.state ≠ .leader)
    | _ => true
| _ => true

/-
  An election goroutine that is about to win was started for
  the term the server is in.
-/
def Node.winsOwnTerm
    (nd : Node C n) :
    Event C n → Bool
| .run i =>
    match nd.threads[i]? with
    | some (.electionChecked k ballot) =>
        decide (nd.rf.state = .candiate →
          ((n / 2 + 1 : Nat) : Int) ≤ ballot →
            nd.votedForTerm k = nd.rf.currentTerm)
    | _ => true
| _ => true

/- No election goroutine acts on a term not its own. -/
def Node.freshElection
    (nd : Node C n)
    (event : Event C n) : Bool :=
  nd.leaderKeepsTerm event && nd.winsOwnTerm event

namespace Cluster

variable [DecidableEq C]
variable {ok : Cluster C n → Fin n × Event C n → Prop}
variable {c c' : Cluster C n}

def FreshElections
    (c : Cluster C n)
    (a : Fin n × Event C n) : Prop :=
  (c.nodes a.1).freshElection a.2 = true

/- Every leader was elected in its term. -/
def LeadersElected (c : Cluster C n) : Prop :=
  ∀ i t, c.LeaderOf i t → (i, .elected t) ∈ c.trace

theorem LeadersElected.step
    {i : Fin n}
    {event : Event C n}
    (hElected : c.LeadersElected)
    (hReach : (system C n).Reachable ok c)
    (hKeeps : (c.nodes i).leaderKeepsTerm event = true)
    (hStep : (system C n).step (i, event) c = some c') :
    c'.LeadersElected := by
  have hRf := persisted hReach i
  rcases system_step_cases hStep with
    ⟨nd', effects, hDeliver, hNode, rfl⟩
  have hRaft := Node.step_raftStep hNode
  intro j t hLeader
  by_cases hj : j = i
  · subst hj
    rcases hLeader with ⟨hState, hTerm⟩
    dsimp only at hState hTerm
    rw [Function.update_self] at hState hTerm
    rcases hRaft.leader_cases hRf hState with
      hNew | ⟨hWas, hSame | ⟨k, token, hEvent, hThread⟩⟩
    · rw [hTerm] at hNew
      exact mem_trace_iff.mpr (Or.inr ⟨rfl, hNew⟩)
    · have hOld : c.LeaderOf j t :=
        ⟨hWas, hSame.symm.trans hTerm⟩
      exact mem_trace_iff.mpr (Or.inl (hElected j t hOld))
    · subst hEvent
      simp only [Node.leaderKeepsTerm, hThread,
        decide_eq_true_eq] at hKeeps
      exact absurd hWas hKeeps
  · have hOld : c.LeaderOf j t := by
      unfold LeaderOf at hLeader ⊢
      dsimp only at hLeader
      rw [Function.update_of_ne hj] at hLeader
      exact hLeader
    exact mem_trace_iff.mpr (Or.inl (hElected j t hOld))

theorem leadersElected_of_reachable
    (hKeeps :
      ∀ c a, ok c a →
        (c.nodes a.1).leaderKeepsTerm a.2 = true)
    (hReach : (system C n).Reachable ok c) :
    c.LeadersElected := by
  refine System.Reachable.induct
    (P := fun c : Cluster C n => c.LeadersElected)
    ?_ ?_ hReach
  · intro c hInit
    rw [system_init_iff] at hInit
    subst hInit
    intro i t hLeader
    cases hLeader.1
  · rintro c ⟨i, event⟩ c' hReach ih hOk hStep
    exact ih.step hReach (hKeeps c (i, event) hOk) hStep

/- A majority voted for every elected server in its term. -/
def ElectionsBacked (c : Cluster C n) : Prop :=
  ∀ i t, (i, .elected t) ∈ c.trace →
    ∃ Q : Finset (Fin n), Majority Q ∧
      ∀ j ∈ Q, c.Voted i j t

/- A server that wins its own term has a majority of votes. -/
theorem votes_of_win
    {i : Fin n}
    {event : Event C n}
    {nd' : Node C n}
    {effects : List (Effect C n)}
    {t : Int}
    (hReach : (system C n).Reachable ok c)
    (hOwn : (c.nodes i).winsOwnTerm event = true)
    (hNode : (c.nodes i).step event = some (nd', effects))
    (hMem : (.elected t : Effect C n) ∈ effects) :
    ∃ Q : Finset (Fin n), Majority Q ∧
      ∀ j ∈ Q, c.Voted i j t := by
  rcases (Node.step_raftStep hNode).win_of_elected hMem with
    ⟨hTerm, k, token, ballot, hEvent, hThread,
      hCandiate, hBallot⟩
  subst hEvent
  -- the ballots were loaded in the term that is won
  simp only [Node.winsOwnTerm, hThread,
    decide_eq_true_eq] at hOwn
  have hOwnTerm := hOwn hCandiate hBallot
  have hLoaded := ((ballots_of_reachable hReach).ballots
    i).loaded token ballot
      (Or.inr (List.mem_of_getElem? hThread))
  rcases hLoaded.majority hBallot with ⟨Q, hQ, hAll⟩
  refine ⟨Q, hQ, ?_⟩
  intro j hj
  have hVote := hAll j hj
  rw [hOwnTerm, ← hTerm] at hVote
  exact hVote

theorem ElectionsBacked.step
    {i : Fin n}
    {event : Event C n}
    (hElections : c.ElectionsBacked)
    (hReach : (system C n).Reachable ok c)
    (hOwn : (c.nodes i).winsOwnTerm event = true)
    (hStep : (system C n).step (i, event) c = some c') :
    c'.ElectionsBacked := by
  rcases system_step_cases hStep with
    ⟨nd', effects, hDeliver, hNode, rfl⟩
  intro j t hMem
  have hBefore :
      ∃ Q : Finset (Fin n), Majority Q ∧
        ∀ p ∈ Q, c.Voted j p t := by
    rcases mem_trace_iff.mp hMem with hOld | ⟨rfl, hNew⟩
    · exact hElections j t hOld
    · exact votes_of_win hReach hOwn hNode hNew
  rcases hBefore with ⟨Q, hQ, hAll⟩
  refine ⟨Q, hQ, ?_⟩
  intro p hp
  exact mem_trace_iff.mpr (Or.inl (hAll p hp))

theorem electionsBacked_of_reachable
    (hOwn :
      ∀ c a, ok c a → (c.nodes a.1).winsOwnTerm a.2 = true)
    (hReach : (system C n).Reachable ok c) :
    c.ElectionsBacked := by
  refine System.Reachable.induct
    (P := fun c : Cluster C n => c.ElectionsBacked)
    ?_ ?_ hReach
  · intro c hInit
    rw [system_init_iff] at hInit
    subst hInit
    intro i t hMem
    cases hMem
  · rintro c ⟨i, event⟩ c' hReach ih hOk hStep
    exact ih.step hReach (hOwn c (i, event) hOk) hStep

/- A term is won by at most one server. -/
theorem elected_unique
    (hOwn :
      ∀ c a, ok c a → (c.nodes a.1).winsOwnTerm a.2 = true)
    (hReach : (system C n).Reachable ok c)
    {i j : Fin n}
    {t : Int}
    (hi : (i, .elected t) ∈ c.trace)
    (hj : (j, .elected t) ∈ c.trace) :
    i = j := by
  have hElections := electionsBacked_of_reachable hOwn hReach
  rcases hElections i t hi with ⟨Q, hQ, hVotesI⟩
  rcases hElections j t hj with ⟨R, hR, hVotesJ⟩
  rcases hQ.exists_common hR with ⟨p, hpQ, hpR⟩
  have hSame :=
    vote_unique hReach (hVotesI p hpQ) (hVotesJ p hpR)
  exact Fin.ext (by omega)

theorem trace_mono
    (hRun : (system C n).Run ok c c')
    {x : Fin n × Effect C n}
    (hMem : x ∈ c.trace) :
    x ∈ c'.trace := by
  refine System.Run.induct
    (P := fun u : Cluster C n => x ∈ u.trace) hMem ?_ hRun
  rintro u ⟨i, event⟩ u' _ ih _ hStep
  rcases system_step_cases hStep with
    ⟨nd', effects, _, _, rfl⟩
  exact List.mem_append_left _ ih

/-
  Election safety: whenever a server is the leader of a term
  at some moment of a run, and a server is the leader of the
  same term at a later moment, they are the same server.
-/
theorem election_safety
    (hReach : (system C n).Reachable FreshElections c)
    (hRun : (system C n).Run FreshElections c c')
    {i j : Fin n}
    {t : Int}
    (hi : c.LeaderOf i t)
    (hj : c'.LeaderOf j t) :
    i = j := by
  have hReach' := hReach.trans hRun
  have hKeeps :
      ∀ c a, FreshElections (C := C) (n := n) c a →
        (c.nodes a.1).leaderKeepsTerm a.2 = true := by
    intro c a hFresh
    exact (Bool.and_eq_true_iff.mp hFresh).1
  have hOwn :
      ∀ c a, FreshElections (C := C) (n := n) c a →
        (c.nodes a.1).winsOwnTerm a.2 = true := by
    intro c a hFresh
    exact (Bool.and_eq_true_iff.mp hFresh).2
  have hBefore := trace_mono hRun
    (leadersElected_of_reachable hKeeps hReach i t hi)
  have hAfter :=
    leadersElected_of_reachable hKeeps hReach' j t hj
  exact elected_unique hOwn hReach' hBefore hAfter

------------------------------------------------------------
-- Runs Of Three Servers
------------------------------------------------------------

/- A candidate whose log is still the initial one. -/
def initialLogRequest
    (term candiate : Int) : RequestVoteArgs where
  term := term
  candiateId := candiate
  lastLogIndex := 1
  lastLogTerm := 1

/-
  Server 0 starts election 1 for term 2, and server 1 votes
  for it. The election goroutine loads two ballots and finds
  the token unset, but does not yet take the lock.
-/
def twoBallots {n : Nat} [NeZero n] :
    List (Fin n × Event Nat n) :=
  [(0, .tickerTimeout), (0, .run 0),
    (1, .requestVote (initialLogRequest 2 0)),
    (0, .voteReply 1 { term := 2, voteGranted := true }),
    (0, .run 0), (0, .run 0), (0, .run 0)]

/-
  The ticker of server 0 cancels that election and starts
  another one, for term 3. Server 1 wins term 3 with the
  vote of server 2. Then the first election of server 0
  takes the lock.
-/
def lateWin {n : Nat} [NeZero n] :
    List (Fin n × Event Nat n) :=
  [(0, .tickerCancel), (0, .tickerTimeout), (0, .run 0),
    (1, .tickerTimeout), (1, .run 0),
    (2, .requestVote (initialLogRequest 3 1)),
    (1, .voteReply 2 { term := 3, voteGranted := true }),
    (1, .run 0), (1, .run 0), (1, .run 0), (1, .run 0),
    (0, .run 3)]

/- Whether server `i` is the leader of term `t`. -/
def isLeaderOf
    (c : Cluster Nat 3)
    (i : Fin 3)
    (t : Int) : Bool :=
  decide ((c.nodes i).rf.state = .leader) &&
    decide ((c.nodes i).rf.currentTerm = t)

theorem isLeaderOf_iff
    {c : Cluster Nat 3}
    {i : Fin 3}
    {t : Int} :
    isLeaderOf c i t = true ↔ c.LeaderOf i t := by
  simp [isLeaderOf, LeaderOf]

/- Servers 0 and 1 are both leaders of term 3. -/
theorem two_leaders_of_one_term :
    ¬ ∀ (c c' : Cluster Nat 3) (i j : Fin 3) (t : Int),
      (system Nat 3).Reachable System.always c →
      (system Nat 3).Run System.always c c' →
      c.LeaderOf i t → c'.LeaderOf j t → i = j := by
  intro hSafe
  have hExec :
      (((system Nat 3).exec (twoBallots ++ lateWin)
        (initial Nat 3)).any
          (fun c => isLeaderOf c 0 3 && isLeaderOf c 1 3)) =
        true := by
    decide
  rcases System.exists_run_of_exec hExec with
    ⟨c, hRun, hBoth⟩
  rw [Bool.and_eq_true, isLeaderOf_iff,
    isLeaderOf_iff] at hBoth
  have hReach :=
    (initial_reachable System.always).trans hRun
  have hEq := hSafe c c 0 1 3 hReach (System.Run.refl c)
    hBoth.1 hBoth.2
  cases hEq

/- Without the late win, server 0 alone leads term 2. -/
theorem election_safety_term_two :
    ∃ c : Cluster Nat 3,
      (system Nat 3).Reachable FreshElections c ∧
        c.LeaderOf 0 2 ∧ ∀ j, c.LeaderOf j 2 → 0 = j := by
  have hExec :
      (((system Nat 3).execOk
        (fun c a => (c.nodes a.1).freshElection a.2)
        (twoBallots ++ [(0, .run 0)]) (initial Nat 3)).any
          (fun c => isLeaderOf c 0 2)) = true := by
    decide
  rcases System.exists_run_of_execOk hExec with
    ⟨c, hRun, hLeader⟩
  rw [isLeaderOf_iff] at hLeader
  have hReach : (system Nat 3).Reachable FreshElections c :=
    (initial_reachable FreshElections).trans hRun
  refine ⟨c, hReach, hLeader, ?_⟩
  intro j hj
  exact election_safety hReach (System.Run.refl c) hLeader hj

end Cluster

end RaftLab
