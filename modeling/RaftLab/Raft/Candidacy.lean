import RaftLab.Raft.OwnElections

/-
  Candidates and the requests they send.

  The ticker makes a server a candidate some time before the
  goroutine it starts raises the term. A server campaigns if
  no such goroutine is waiting, and one is polling ballots
  of the current term. A campaign begins with the start of
  an election; as long as it lasts the term does not change,
  and no vote is given for it that it did not ask for.

  Main declarations:
    * `Node.Campaigns`, `Node.winsOwnCandidacy`
    * `Node.campaigns_cases`
    * `Cluster.requested_of_reachable`
    * `Cluster.voted_le`
-/

------------------------------------------------------------
-- Campaigns
------------------------------------------------------------

namespace RaftLab

variable {C : Type} {n : Nat}

/- An election that has not had its first critical section. -/
def Thread.startsElection : Thread C n → Bool
| .election _ => true
| _ => false

namespace Node

def Campaigns (nd : Node C n) : Prop :=
  nd.rf.state = .candiate ∧
    (∀ k, .election k ∉ nd.threads) ∧
    ∃ k, nd.Polls k ∧
      nd.votedForTerm k = nd.rf.currentTerm

/-
  An election goroutine that is about to win was started for
  the term the server is in, and no other one waits to start
  the next election.
-/
def winsOwnCandidacy
    (nd : Node C n) :
    Event C n → Bool
| .run i =>
    match nd.threads[i]? with
    | some (.electionChecked k ballot) =>
        decide (nd.rf.state = .candiate →
          ((n / 2 + 1 : Nat) : Int) ≤ ballot →
            nd.votedForTerm k = nd.rf.currentTerm ∧
              nd.threads.all
                (fun thread => !thread.startsElection) =
                  true)
    | _ => true
| _ => true

theorem winsOwnTerm_of_candidacy
    {nd : Node C n}
    {event : Event C n}
    (hWins : nd.winsOwnCandidacy event = true) :
    nd.winsOwnTerm event = true := by
  cases event with
  | run i =>
      rw [winsOwnCandidacy] at hWins
      rw [winsOwnTerm]
      split
      · next k ballot hThread =>
          rw [hThread] at hWins
          simp only [decide_eq_true_eq] at hWins ⊢
          intro hCandiate hBallot
          exact (hWins hCandiate hBallot).1
      · rfl
  | _ => rfl

/- Only a server that campaigns wins. -/
theorem campaigns_of_win
    {nd : Node C n}
    {i k : Nat}
    {ballot : Int}
    (hWins : nd.winsOwnCandidacy (.run i) = true)
    (hThread : nd.threads[i]? =
      some (.electionChecked k ballot))
    (hCandiate : nd.rf.state = .candiate)
    (hBallot : ((n / 2 + 1 : Nat) : Int) ≤ ballot) :
    nd.Campaigns := by
  simp only [winsOwnCandidacy, hThread,
    decide_eq_true_eq] at hWins
  rcases hWins hCandiate hBallot with ⟨hTerm, hAll⟩
  refine ⟨hCandiate, ?_, k,
    ⟨_, List.mem_of_getElem? hThread, rfl⟩, hTerm⟩
  intro k' hMem
  have hNot := List.all_eq_true.mp hAll _ hMem
  cases hNot

end Node

------------------------------------------------------------
-- Steps Of A Campaign
------------------------------------------------------------

/- A server becomes a candidate by its ticker only. -/
theorem RaftStep.candiate_cases
    {nd : Node C n}
    {event : Event C n}
    {rf' : Raft C n}
    {effects : List (Effect C n)}
    (hStep : RaftStep nd event rf' effects)
    (hCandiate : rf'.state = .candiate) :
    event = .tickerTimeout ∨ event = .restart ∨
      (∃ i k args, event = .run i ∧
        nd.threads[i]? = some (.election k) ∧
        nd.rf.electionStart = some (rf', args)) ∨
      (nd.rf.state = .candiate ∧
        rf'.currentTerm = nd.rf.currentTerm) := by
  cases hStep with
  | requestVote args _ rf' reply hCase =>
      right; right; right
      cases hCase with
      | stale => exact ⟨hCandiate, rfl⟩
      | refused hTerm =>
          unfold Raft.adoptVoteTerm at hCandiate ⊢
          split
          · next hHigher =>
              rw [if_pos hHigher] at hCandiate
              cases hCandiate
          · next hSame =>
              rw [if_neg hSame] at hCandiate
              exact ⟨hCandiate, rfl⟩
      | granted => cases hCandiate
  | appendEntries args _ rf' reply hCase =>
      right; right; right
      cases hCase with
      | stale => exact ⟨hCandiate, rfl⟩
      | good => cases hCandiate
      | covered => cases hCandiate
      | fixed => cases hCandiate
      | rejected => cases hCandiate
  | installSnapshot args _ rf' reply hCase =>
      right; right; right
      cases hCase with
      | refused => exact ⟨hCandiate, rfl⟩
      | kept => cases hCandiate
      | reset => cases hCandiate
  | tickerTimeout hEvent => exact Or.inl hEvent
  | election i k hEvent hThread rf' args hStart =>
      exact Or.inr (Or.inr (Or.inl
        ⟨i, k, args, hEvent, hThread, hStart⟩))
  | win => cases hCandiate
  | applyEntries rf' hApply =>
      have hDurable := (Raft.applyEntries_volatile hApply).1
      simp only [Raft.durable, Prod.mk.injEq] at hDurable
      rw [hDurable.1] at hCandiate
      exact Or.inr (Or.inr (Or.inr
        ⟨hCandiate, hDurable.2.1⟩))
  | restart hEvent => exact Or.inr (Or.inl hEvent)
  | _ => exact Or.inr (Or.inr (Or.inr ⟨hCandiate, rfl⟩))

/-
  If no goroutine waits to start an election, and one polls
  ballots, then it was so before or an election has started.
-/
theorem ElectionStep.polls_cases
    {nd nd' : Node C n}
    {event : Event C n}
    (hStep : ElectionStep nd event nd')
    (hNone : ∀ k, .election k ∉ nd'.threads)
    {k : Nat}
    (hPolls : nd'.Polls k) :
    (∃ i k args, event = .run i ∧
      nd.threads[i]? = some (.election k) ∧
      nd.rf.electionStart = some (nd'.rf, args)) ∨
    ((∀ k', .election k' ∉ nd.threads) ∧ nd.Polls k ∧
      nd'.votedForTerm = nd.votedForTerm) := by
  -- a goroutine other than the one that moves is kept
  have hKept :
      ∀ {i : Nat} {before : Thread C n},
        nd.threads[i]? = some before →
        before.startsElection = false →
        (∀ thread ∈ nd.threads.eraseIdx i,
          thread ∈ nd'.threads) →
        ∀ k', .election k' ∉ nd.threads := by
    intro i before hThread hBefore hRest k' hMem
    apply hNone k'
    apply hRest
    apply ElectionStep.mem_eraseIdx_of_ne hThread hMem
    rintro rfl
    cases hBefore
  cases hStep with
  | other _ hVotes _ hThreads hPending =>
      right
      refine ⟨?_, Node.polls_of_sublist hThreads hPolls,
        hVotes⟩
      intro k' hMem
      exact hNone k' (hPending k' hMem)
  | timeout _ _ _ hThreads =>
      exfalso
      apply hNone nd.nextToken
      rw [hThreads]
      exact List.mem_cons_self
  | start i k args hEvent hThread hStart =>
      exact Or.inl ⟨i, k, args, hEvent, hThread, hStart⟩
  | poll i k₁ before after hThread hBefore hAfter _ hVotes _
      hThreads =>
      right
      refine ⟨?_, ?_, hVotes⟩
      · apply hKept hThread
        · cases before <;> cases hBefore <;> rfl
        · intro thread hMem
          rw [hThreads]
          exact List.mem_cons_of_mem _ hMem
      · refine Node.polls_of_cons hThreads ?_ hPolls
        intro j hPoll
        have hSame : after.polls = some k₁ := by
          rcases hAfter with rfl | rfl | ⟨b, _, rfl⟩ <;> rfl
        rw [hSame, Option.some.injEq] at hPoll
        rw [← hPoll]
        exact ⟨before, List.mem_of_getElem? hThread, hBefore⟩
  | granted i k₁ server args reply _ hThread _ _ hVotes _
      hThreads =>
      right
      refine ⟨?_, ?_, hVotes⟩
      · apply hKept hThread rfl
        intro thread hMem
        rw [hThreads]
        exact List.mem_cons_of_mem _ hMem
      · refine Node.polls_of_cons hThreads ?_ hPolls
        intro j hPoll
        cases hPoll
  | count i k₁ server hThread _ hVotes _ hThreads =>
      right
      refine ⟨?_, ?_, hVotes⟩
      · apply hKept hThread rfl
        intro thread hMem
        rw [hThreads]
        exact hMem
      · rcases hPolls with ⟨thread, hMem, hPoll⟩
        rw [hThreads] at hMem
        exact ⟨thread, List.mem_of_mem_eraseIdx hMem, hPoll⟩
  | restart _ hThreads =>
      exfalso
      rcases hPolls with ⟨thread, hMem, hPoll⟩
      have hElection := (Node.mem_electionThreads
        (Thread.slot_of_polls hPoll)).mpr hMem
      rw [hThreads] at hElection
      cases hElection

/-
  A server that campaigns after a step has just started an
  election, or it campaigned in the same term before.
-/
theorem Node.campaigns_cases
    {nd nd' : Node C n}
    {event : Event C n}
    {effects : List (Effect C n)}
    (hStep : nd.step event = some (nd', effects))
    (hCampaigns : nd'.Campaigns) :
    (∃ i k args, event = .run i ∧
      nd.threads[i]? = some (.election k) ∧
      nd.rf.electionStart = some (nd'.rf, args)) ∨
    (nd.Campaigns ∧
      nd'.rf.currentTerm = nd.rf.currentTerm) := by
  rcases hCampaigns with ⟨hState, hNone, k, hPolls, hTerm⟩
  rcases (Node.step_raftStep hStep).candiate_cases hState
    with rfl | rfl | hStart | ⟨hBefore, hSame⟩
  · -- the ticker leaves a goroutine that waits
    exfalso
    rw [Node.step] at hStep
    split at hStep
    · cases hStep
      exact hNone nd.nextToken List.mem_cons_self
    · cases hStep
  · -- Make polls no ballots
    exfalso
    rcases Option.map_eq_some_iff.mp hStep with
      ⟨nd'', hMake, hEq⟩
    cases hEq
    rcases Option.map_eq_some_iff.mp hMake with
      ⟨rf', _, rfl⟩
    rcases hPolls with ⟨thread, hMem, hPoll⟩
    have hElection := (Node.mem_electionThreads
      (Thread.slot_of_polls hPoll)).mpr hMem
    rw [Node.electionThreads_boot] at hElection
    cases hElection
  · exact Or.inl hStart
  · rcases (Node.step_electionStep hStep).polls_cases hNone
      hPolls with hStart | ⟨hNone', hPolls', hVotes⟩
    · exact Or.inl hStart
    · right
      refine ⟨⟨hBefore, hNone', k, hPolls', ?_⟩, hSame⟩
      rw [← hVotes, hTerm, hSame]

------------------------------------------------------------
-- Requests And Votes
------------------------------------------------------------

/- A vote is given for a request, or to oneself. -/
theorem RaftStep.vote_cases
    {nd : Node C n}
    {event : Event C n}
    {rf' : Raft C n}
    {effects : List (Effect C n)}
    (hStep : RaftStep nd event rf' effects)
    {t x : Int}
    (hMem : (.vote t x : Effect C n) ∈ effects) :
    (∃ args reply, event = .requestVote args ∧
      t = args.term ∧ x = args.candiateId ∧
      reply.voteGranted = true ∧
      nd.rf.RequestVoteCase args rf' reply) ∨
    (∃ args, x = (nd.rf.me.val : Int) ∧ t = args.term ∧
      nd.rf.electionStart = some (rf', args)) := by
  cases hStep with
  | requestVote args hEvent _ reply hCase =>
      rcases mem_voteEffects_vote hMem with
        ⟨hGranted, hTerm, hName⟩
      exact Or.inl ⟨args, reply, hEvent, hTerm, hName,
        hGranted, hCase⟩
  | election i k _ _ rf' args hStart =>
      simp only [List.mem_cons, Effect.vote.injEq,
        List.mem_map, reduceCtorEq, and_false, exists_false,
        or_false] at hMem
      exact Or.inr ⟨args, hMem.2, hMem.1, hStart⟩
  | sync => simp at hMem
  | _ => simp at hMem

namespace Cluster

variable [DecidableEq C]
variable {ok : Cluster C n → Fin n × Event C n → Prop}
variable {c : Cluster C n}

/-
  Requests are signed by candidates that have reached their
  terms, and all votes but a server's own are asked for.
-/
structure Requested (c : Cluster C n) : Prop where
  signed :
    ∀ i j args, (i, .requestVote j args) ∈ c.trace →
      args.candiateId = (i.val : Int) ∧
        args.term ≤ (c.nodes i).rf.currentTerm
  asked :
    ∀ i j t, c.Voted i j t →
      j = i ∨ ∃ args, (i, .requestVote j args) ∈ c.trace ∧
        args.term = t

theorem Requested.step
    {i : Fin n}
    {event : Event C n}
    {nd' : Node C n}
    {effects : List (Effect C n)}
    (hRequested : c.Requested)
    (hReach : (system C n).Reachable ok c)
    (hDeliver : c.deliverable i event = true)
    (hNode : (c.nodes i).step event =
      some (nd', effects)) :
    Requested
      { nodes := Function.update c.nodes i nd'
        trace := c.trace ++
          effects.map (fun e => (i, e)) } := by
  have hRaft := Node.step_raftStep hNode
  have hMe := me_eq hReach i
  constructor
  · intro k j args hMem
    rcases mem_trace_iff.mp hMem with hOld | ⟨rfl, hNew⟩
    · rcases hRequested.signed k j args hOld with
        ⟨hSigned, hLe⟩
      refine ⟨hSigned, ?_⟩
      dsimp only
      by_cases hk : k = i
      · subst hk
        rw [Function.update_self]
        exact le_trans hLe
          (hRaft.term_mono (persisted hReach k))
      · rw [Function.update_of_ne hk]
        exact hLe
    · rcases Raft.electionStart_spec
        (hRaft.request_of_effect hNew) with
        ⟨hRf, hTerm, hSigned, _⟩
      dsimp only
      rw [Function.update_self, hRf, hTerm, hSigned, hMe]
      exact ⟨rfl, le_refl _⟩
  · intro k j t hVoted
    rcases mem_trace_iff.mp hVoted with hOld | ⟨rfl, hNew⟩
    · rcases hRequested.asked k j t hOld with
        hSelf | ⟨args, hSent, hTerm⟩
      · exact Or.inl hSelf
      · exact Or.inr ⟨args,
          mem_trace_iff.mpr (Or.inl hSent), hTerm⟩
    · rcases hRaft.vote_cases hNew with
        ⟨args, _, rfl, hTerm, hSigned, _⟩ | ⟨_, hSelf, _⟩
      · rcases deliverable_requestVote.mp hDeliver with
          ⟨x, hSent⟩
        have hName := (hRequested.signed x j args hSent).1
        have hEq : x = k := by
          apply Fin.ext
          omega
        subst hEq
        exact Or.inr ⟨args,
          mem_trace_iff.mpr (Or.inl hSent), hTerm.symm⟩
      · left
        rw [hMe] at hSelf
        apply Fin.ext
        omega

theorem requested_of_reachable
    (hReach : (system C n).Reachable ok c) :
    c.Requested := by
  refine System.Reachable.induct
    (P := fun c : Cluster C n => c.Requested) ?_ ?_ hReach
  · intro c hInit
    rw [system_init_iff] at hInit
    subst hInit
    constructor
    · intro i j args hMem
      cases hMem
    · intro i j t hMem
      cases hMem
  · rintro c ⟨i, event⟩ c' hReach ih _ hStep
    rcases system_step_cases hStep with
      ⟨nd', effects, hDeliver, hNode, rfl⟩
    exact ih.step hReach hDeliver hNode

/- Nobody votes for a server in a term it has not reached. -/
theorem voted_le
    (hReach : (system C n).Reachable ok c)
    {i j : Fin n}
    {t : Int}
    (hVoted : c.Voted i j t) :
    t ≤ (c.nodes i).rf.currentTerm := by
  have hRequested := requested_of_reachable hReach
  rcases hRequested.asked i j t hVoted with
    rfl | ⟨args, hSent, rfl⟩
  · exact vote_term_le hReach hVoted
  · exact (hRequested.signed i j args hSent).2

end Cluster

end RaftLab
