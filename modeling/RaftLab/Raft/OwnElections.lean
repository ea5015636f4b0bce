import RaftLab.Raft.Election

/-
  A server wins a term at most once.

  Every election of a server has a term of its own, because
  its first critical section raises the term and terms never
  fall. The goroutine that wins stops polling, so it cannot
  win again. Together with the uniqueness of the winner this
  makes "the leader of a term" a single period of a single
  server, up to restarts.

  Main declarations:
    * `OwnElections`
    * `Cluster.ownElections_of_reachable`
    * `Cluster.not_elected_before_win`
-/

------------------------------------------------------------
-- The Terms Of The Elections Of One Server
------------------------------------------------------------

namespace RaftLab

variable {C : Type} {n : Nat}

/- Some goroutine is polling the ballots of election `k`. -/
def Node.Polls
    (nd : Node C n)
    (k : Nat) : Prop :=
  ∃ thread ∈ nd.threads, thread.polls = some k

theorem Node.polls_of_sublist
    {nd nd' : Node C n}
    (hThreads :
      nd'.electionThreads.Sublist nd.electionThreads)
    {k : Nat}
    (hPolls : nd'.Polls k) :
    nd.Polls k := by
  rcases hPolls with ⟨thread, hMem, hPoll⟩
  have hSlot := Thread.slot_of_polls hPoll
  have hElection :=
    hThreads.subset ((mem_electionThreads hSlot).mpr hMem)
  exact ⟨thread, (mem_electionThreads hSlot).mp hElection,
    hPoll⟩

/- A goroutine that polls nothing new takes the front. -/
theorem Node.polls_of_cons
    {nd nd' : Node C n}
    {i : Nat}
    {after : Thread C n}
    (hThreads : nd'.threads = after :: nd.threads.eraseIdx i)
    (hAfter :
      ∀ k, after.polls = some k → nd.Polls k)
    {k : Nat}
    (hPolls : nd'.Polls k) :
    nd.Polls k := by
  rcases hPolls with ⟨thread, hMem, hPoll⟩
  rw [hThreads] at hMem
  rcases List.mem_cons.mp hMem with rfl | hRest
  · exact hAfter k hPoll
  · exact ⟨thread, List.mem_of_mem_eraseIdx hRest, hPoll⟩

/- The goroutine that won polls no more. -/
theorem Node.step_win
    {nd nd' : Node C n}
    {i k : Nat}
    {ballot t : Int}
    {effects : List (Effect C n)}
    (hStep : nd.step (.run i) = some (nd', effects))
    (hThread : nd.threads[i]? =
      some (.electionChecked k ballot))
    (hMem : (.elected t : Effect C n) ∈ effects) :
    nd'.threads = .electionWon :: nd.threads.eraseIdx i ∧
      nd'.votedForTerm = nd.votedForTerm ∧
      nd'.rf.currentTerm = nd.rf.currentTerm := by
  rw [Node.step, hThread, Option.bind_eq_bind,
    Option.bind_some, Node.runThread,
    Node.runElectionChecked] at hStep
  rcases Option.bind_eq_some_iff.mp hStep with
    ⟨⟨rf', won⟩, hWin, hStep⟩
  rcases Raft.electionWin_cases hWin with
    ⟨rfl, _, _, len, _, rfl⟩ | ⟨rfl, rfl⟩
  · cases hStep
    exact ⟨rfl, rfl, rfl⟩
  · cases hStep
    cases hMem

/-
  The elections that are being polled have terms of their
  own, which have not been won yet. `won t` says that the
  server won term `t`.
-/
structure OwnElections
    (won : Int → Prop)
    (nd : Node C n) : Prop where
  term_pos : 1 ≤ nd.rf.currentTerm
  won_gt : ∀ t, won t → 1 < t
  won_le : ∀ t, won t → t ≤ nd.rf.currentTerm
  term_gt : ∀ k, nd.Polls k → 1 < nd.votedForTerm k
  term_le :
    ∀ k, nd.Polls k →
      nd.votedForTerm k ≤ nd.rf.currentTerm
  not_won : ∀ k, nd.Polls k → ¬ won (nd.votedForTerm k)
  term_inj :
    ∀ k k', nd.Polls k → nd.Polls k' →
      nd.votedForTerm k = nd.votedForTerm k' → k = k'

namespace OwnElections

variable {won won' : Int → Prop}
variable {nd nd' : Node C n}

/- No election is being polled. -/
theorem of_no_polls
    (hTerm : 1 ≤ nd.rf.currentTerm)
    (hGt : ∀ t, won t → 1 < t)
    (hLe : ∀ t, won t → t ≤ nd.rf.currentTerm)
    (hThreads : nd.electionThreads = []) :
    OwnElections won nd := by
  have hNone : ∀ k, ¬ nd.Polls k := by
    rintro k ⟨thread, hMem, hPolls⟩
    have hElection := (Node.mem_electionThreads
      (Thread.slot_of_polls hPolls)).mpr hMem
    rw [hThreads] at hElection
    cases hElection
  exact
    { term_pos := hTerm
      won_gt := hGt
      won_le := hLe
      term_gt := fun k hPolls => absurd hPolls (hNone k)
      term_le := fun k hPolls => absurd hPolls (hNone k)
      not_won := fun k hPolls => absurd hPolls (hNone k)
      term_inj := fun k _ hPolls => absurd hPolls (hNone k) }

/-
  The elections polled after a step were polled before it,
  and the step wins none of those that remain.
-/
theorem of_polls
    (hOwn : OwnElections won nd)
    (hTerm : nd.rf.currentTerm ≤ nd'.rf.currentTerm)
    (hVotes : nd'.votedForTerm = nd.votedForTerm)
    (hPolls : ∀ k, nd'.Polls k → nd.Polls k)
    (hWon :
      ∀ t, won' t →
        won t ∨ (1 < t ∧ t ≤ nd.rf.currentTerm ∧
          ∀ k, nd'.Polls k → nd.votedForTerm k ≠ t)) :
    OwnElections won' nd' where
  term_pos := le_trans hOwn.term_pos hTerm
  won_gt := by
    intro t ht
    rcases hWon t ht with hOld | ⟨hGt, _, _⟩
    · exact hOwn.won_gt t hOld
    · exact hGt
  won_le := by
    intro t ht
    refine le_trans ?_ hTerm
    rcases hWon t ht with hOld | ⟨_, hLe, _⟩
    · exact hOwn.won_le t hOld
    · exact hLe
  term_gt := by
    intro k hPoll
    rw [hVotes]
    exact hOwn.term_gt k (hPolls k hPoll)
  term_le := by
    intro k hPoll
    rw [hVotes]
    exact le_trans (hOwn.term_le k (hPolls k hPoll)) hTerm
  not_won := by
    intro k hPoll hNow
    rw [hVotes] at hNow
    rcases hWon _ hNow with hBefore | ⟨_, _, hOther⟩
    · exact hOwn.not_won k (hPolls k hPoll) hBefore
    · exact hOther k hPoll rfl
  term_inj := by
    intro k k' hPoll hPoll' hEq
    rw [hVotes] at hEq
    exact hOwn.term_inj k k' (hPolls k hPoll)
      (hPolls k' hPoll') hEq

/- Election `k` starts in the next term. -/
theorem of_start
    {k : Nat}
    (hOwn : OwnElections won nd)
    (hTerm : nd'.rf.currentTerm = nd.rf.currentTerm + 1)
    (hVotes : nd'.votedForTerm =
      Function.update nd.votedForTerm k
        (nd.rf.currentTerm + 1))
    (hPolls : ∀ j, nd'.Polls j → j = k ∨ nd.Polls j) :
    OwnElections won nd' := by
  have hPos := hOwn.term_pos
  have hNew : nd'.votedForTerm k = nd.rf.currentTerm + 1 := by
    rw [hVotes, Function.update_self]
  have hOld :
      ∀ j, j ≠ k → nd'.votedForTerm j =
        nd.votedForTerm j := by
    intro j hj
    rw [hVotes, Function.update_of_ne hj]
  have hRest :
      ∀ j, j ≠ k → nd'.Polls j → nd.Polls j := by
    intro j hj hPoll
    rcases hPolls j hPoll with hEq | hBefore
    · exact absurd hEq hj
    · exact hBefore
  -- the terms of the older elections are lower
  have hLower :
      ∀ j, j ≠ k → nd'.Polls j →
        nd'.votedForTerm j ≤ nd.rf.currentTerm := by
    intro j hj hPoll
    rw [hOld j hj]
    exact hOwn.term_le j (hRest j hj hPoll)
  refine ⟨by omega, hOwn.won_gt, ?_, ?_, ?_, ?_, ?_⟩
  · intro t ht
    have hLe := hOwn.won_le t ht
    omega
  · intro j hPoll
    by_cases hj : j = k
    · subst hj
      omega
    · rw [hOld j hj]
      exact hOwn.term_gt j (hRest j hj hPoll)
  · intro j hPoll
    by_cases hj : j = k
    · subst hj
      omega
    · have hLe := hLower j hj hPoll
      omega
  · intro j hPoll hWon
    by_cases hj : j = k
    · subst hj
      have hLe := hOwn.won_le _ hWon
      omega
    · rw [hOld j hj] at hWon
      exact hOwn.not_won j (hRest j hj hPoll) hWon
  · intro i j hPollI hPollJ hEq
    by_cases hi : i = k
    · by_cases hj : j = k
      · exact hi.trans hj.symm
      · have hLe := hLower j hj hPollJ
        subst hi
        omega
    · by_cases hj : j = k
      · have hLe := hLower i hi hPollI
        subst hj
        omega
      · rw [hOld i hi, hOld j hj] at hEq
        exact hOwn.term_inj i j (hRest i hi hPollI)
          (hRest j hj hPollJ) hEq

/- A step that wins nothing. -/
theorem step
    {event : Event C n}
    (hOwn : OwnElections won nd)
    (hStep : ElectionStep nd event nd')
    (hTerm : nd.rf.currentTerm ≤ nd'.rf.currentTerm) :
    OwnElections won nd' := by
  cases hStep with
  | other _ hVotes _ hThreads _ =>
      refine hOwn.of_polls hTerm hVotes ?_
        (fun t ht => Or.inl ht)
      intro k hPolls
      exact Node.polls_of_sublist hThreads hPolls
  | timeout _ hVotes _ hThreads =>
      refine hOwn.of_polls hTerm hVotes ?_
        (fun t ht => Or.inl ht)
      rintro k ⟨thread, hMem, hPoll⟩
      rw [hThreads] at hMem
      rcases List.mem_cons.mp hMem with rfl | hRest
      · cases hPoll
      · exact ⟨thread, hRest, hPoll⟩
  | start i k args _ _ hStart _ hVotes _ hThreads =>
      rcases Raft.electionStart_spec hStart with
        ⟨hRf, hArgs, _⟩
      refine hOwn.of_start ?_ (hArgs ▸ hVotes) ?_
      · rw [hRf]
        rfl
      · rintro j ⟨thread, hMem, hPoll⟩
        rw [hThreads] at hMem
        rcases List.mem_cons.mp hMem with rfl | hMem
        · cases hPoll
          exact Or.inl rfl
        · rcases List.mem_append.mp hMem with hAsked | hRest
          · rcases List.mem_map.mp hAsked with ⟨_, _, rfl⟩
            cases hPoll
          · exact Or.inr ⟨thread,
              List.mem_of_mem_eraseIdx hRest, hPoll⟩
  | poll i k before after hThread hBefore hAfter _ hVotes _
      hThreads =>
      refine hOwn.of_polls hTerm hVotes ?_
        (fun t ht => Or.inl ht)
      intro j hPolls
      refine Node.polls_of_cons hThreads ?_ hPolls
      intro j' hPoll
      have hSame : after.polls = some k := by
        rcases hAfter with rfl | rfl | ⟨b, _, rfl⟩ <;> rfl
      rw [hSame, Option.some.injEq] at hPoll
      subst hPoll
      exact ⟨before, List.mem_of_getElem? hThread, hBefore⟩
  | granted i k server _ _ _ _ _ _ hVotes _ hThreads =>
      refine hOwn.of_polls hTerm hVotes ?_
        (fun t ht => Or.inl ht)
      intro j hPolls
      refine Node.polls_of_cons hThreads ?_ hPolls
      intro j' hPoll
      cases hPoll
  | count i k server _ _ hVotes _ hThreads =>
      refine hOwn.of_polls hTerm hVotes ?_
        (fun t ht => Or.inl ht)
      rintro j ⟨thread, hMem, hPoll⟩
      rw [hThreads] at hMem
      exact ⟨thread, List.mem_of_mem_eraseIdx hMem, hPoll⟩
  | restart _ hThreads =>
      refine of_no_polls (le_trans hOwn.term_pos hTerm)
        hOwn.won_gt ?_ hThreads
      intro t ht
      exact le_trans (hOwn.won_le t ht) hTerm

/- Election `k` is won in its own term. -/
theorem of_win
    {voted : Fin n → Int → Prop}
    {i k : Nat}
    {ballot : Int}
    (hOwn : OwnElections won nd)
    (hBallots : Ballots voted nd)
    (hThread : nd.threads[i]? =
      some (.electionChecked k ballot))
    (hThreads : nd'.threads =
      .electionWon :: nd.threads.eraseIdx i)
    (hVotes : nd'.votedForTerm = nd.votedForTerm)
    (hTerm : nd'.rf.currentTerm = nd.rf.currentTerm)
    (hSame : nd.votedForTerm k = nd.rf.currentTerm)
    (hWon : ∀ t, won' t → won t ∨ t = nd.rf.currentTerm) :
    OwnElections won' nd' := by
  have hPoll : nd.Polls k :=
    ⟨_, List.mem_of_getElem? hThread, rfl⟩
  have hPolls : ∀ j, nd'.Polls j → nd.Polls j := by
    intro j hPolls
    refine Node.polls_of_cons hThreads ?_ hPolls
    intro j' hNone
    cases hNone
  -- nobody else polls election `k`
  have hOther : ∀ j, nd'.Polls j → j ≠ k := by
    rintro j ⟨thread, hMem, hj⟩ rfl
    rw [hThreads] at hMem
    rcases List.mem_cons.mp hMem with rfl | hRest
    · cases hj
    · apply hBallots.slot_notMem_rest hThread rfl
      rw [List.mem_filterMap]
      exact ⟨thread, hRest, Thread.slot_of_polls hj⟩
  refine hOwn.of_polls (le_of_eq hTerm.symm) hVotes hPolls ?_
  intro t ht
  rcases hWon t ht with hOld | rfl
  · exact Or.inl hOld
  · refine Or.inr ⟨?_, le_refl _, ?_⟩
    · rw [← hSame]
      exact hOwn.term_gt k hPoll
    · intro j hj hEq
      apply hOther j hj
      apply hOwn.term_inj j k (hPolls j hj) hPoll
      rw [hEq, hSame]

end OwnElections

------------------------------------------------------------
-- The Elections Of A Cluster
------------------------------------------------------------

namespace Cluster

variable [DecidableEq C]
variable {ok : Cluster C n → Fin n × Event C n → Prop}
variable {c c' : Cluster C n}

/- Server `i` won term `t`. -/
def Won
    (c : Cluster C n)
    (i : Fin n)
    (t : Int) : Prop :=
  (i, .elected t) ∈ c.trace

theorem ownElections_step
    {i : Fin n}
    {event : Event C n}
    (hReach : (system C n).Reachable ok c)
    (hOwn : ∀ j, OwnElections (c.Won j) (c.nodes j))
    (hWins : (c.nodes i).winsOwnTerm event = true)
    (hStep : (system C n).step (i, event) c = some c')
    (j : Fin n) :
    OwnElections (c'.Won j) (c'.nodes j) := by
  have hBallots := (ballots_of_reachable hReach).ballots i
  have hRf := persisted hReach i
  rcases system_step_cases hStep with
    ⟨nd', effects, _, hNode, rfl⟩
  have hRaft := Node.step_raftStep hNode
  have hWon :
      ∀ t, Won
        { nodes := Function.update c.nodes i nd'
          trace := c.trace ++
            effects.map (fun e => (i, e)) } j t →
        c.Won j t ∨ (j = i ∧ .elected t ∈ effects) := by
    intro t ht
    exact mem_trace_iff.mp ht
  by_cases hj : j = i
  · subst hj
    dsimp only
    rw [Function.update_self]
    by_cases hElected :
        ∃ t, (.elected t : Effect C n) ∈ effects
    · rcases hElected with ⟨t, hMem⟩
      rcases hRaft.win_of_elected hMem with
        ⟨_, k, token, ballot, rfl, hThread, hCandiate,
          hBallot⟩
      simp only [Node.winsOwnTerm, hThread,
        decide_eq_true_eq] at hWins
      rcases Node.step_win hNode hThread hMem with
        ⟨hThreads, hVotes, hTerm⟩
      refine (hOwn j).of_win hBallots hThread hThreads
        hVotes hTerm (hWins hCandiate hBallot) ?_
      intro t' ht'
      rcases hWon t' ht' with hOld | ⟨_, hNew⟩
      · exact Or.inl hOld
      · exact Or.inr (hRaft.win_of_elected hNew).1
    · have hOld := (hOwn j).step
        (Node.step_electionStep hNode)
        (hRaft.term_mono hRf)
      refine hOld.of_polls (le_refl _) rfl
        (fun _ hPolls => hPolls) ?_
      intro t ht
      rcases hWon t ht with hBefore | ⟨_, hNew⟩
      · exact Or.inl hBefore
      · exact absurd ⟨t, hNew⟩ hElected
  · dsimp only
    rw [Function.update_of_ne hj]
    refine (hOwn j).of_polls (le_refl _) rfl
      (fun _ hPolls => hPolls) ?_
    intro t ht
    rcases hWon t ht with hBefore | ⟨hEq, _⟩
    · exact Or.inl hBefore
    · exact absurd hEq hj

theorem ownElections_of_reachable
    (hWins :
      ∀ c a, ok c a → (c.nodes a.1).winsOwnTerm a.2 = true)
    (hReach : (system C n).Reachable ok c)
    (i : Fin n) :
    OwnElections (c.Won i) (c.nodes i) := by
  have hAll :
      ∀ i, OwnElections (c.Won i) (c.nodes i) := by
    refine System.Reachable.induct
      (P := fun c : Cluster C n =>
        ∀ i, OwnElections (c.Won i) (c.nodes i))
      ?_ ?_ hReach
    · intro c hInit i
      rw [system_init_iff] at hInit
      subst hInit
      refine OwnElections.of_no_polls (le_refl 1) ?_ ?_
        (Node.electionThreads_boot _)
      · intro t hMem
        cases hMem
      · intro t hMem
        cases hMem
    · rintro c ⟨i, event⟩ c' hReach ih hOk hStep j
      exact ownElections_step hReach ih
        (hWins c (i, event) hOk) hStep j
  exact hAll i

/- The term a step wins has not been won before. -/
theorem not_elected_before_win
    (hWins :
      ∀ c a, ok c a → (c.nodes a.1).winsOwnTerm a.2 = true)
    (hReach : (system C n).Reachable ok c)
    {i j : Fin n}
    {event : Event C n}
    {nd' : Node C n}
    {effects : List (Effect C n)}
    {t : Int}
    (hOk : ok c (i, event))
    (hStep : (system C n).step (i, event) c = some c')
    (hNode : (c.nodes i).step event = some (nd', effects))
    (hMem : (.elected t : Effect C n) ∈ effects) :
    ¬ c.Won j t := by
  intro hBefore
  have hReach' : (system C n).Reachable ok c' :=
    hReach.trans (System.Run.single hOk hStep)
  have hWon : c'.Won i t := by
    rcases system_step_cases hStep with
      ⟨nd'', effects', _, hNode', rfl⟩
    rw [hNode', Option.some.injEq, Prod.mk.injEq] at hNode
    rw [← hNode.2] at hMem
    exact mem_trace_iff.mpr (Or.inr ⟨rfl, hMem⟩)
  have hBefore' : c'.Won j t :=
    trace_mono (System.Run.single hOk hStep) hBefore
  -- the winner is `j` itself, which polls no won election
  have hEq := elected_unique hWins hReach' hWon hBefore'
  subst hEq
  rcases (Node.step_raftStep hNode).win_of_elected hMem with
    ⟨hTerm, k, token, ballot, rfl, hThread, hCandiate,
      hBallot⟩
  have hOwnTerm := hWins c (i, .run k) hOk
  simp only [Node.winsOwnTerm, hThread,
    decide_eq_true_eq] at hOwnTerm
  apply (ownElections_of_reachable hWins hReach i).not_won
    token ⟨_, List.mem_of_getElem? hThread, rfl⟩
  rw [hOwnTerm hCandiate hBallot, ← hTerm]
  exact hBefore

end Cluster

end RaftLab
