import Mathlib.Data.List.Perm.Basic
import RaftLab.Lib.Quorum
import RaftLab.Raft.NodeCases

/-
  The election goroutines of one server.

  Several elections of one server may overlap. Each has one
  main goroutine and one goroutine per vote request, and all
  of them share a ballot count. `ElectionStep` lists what a
  step can do to these goroutines, and `Ballots` says that
  every ballot counted in an election stands for a different
  peer that voted in the term of that election.

  Main declarations:
    * `Thread.slot`
    * `ElectionStep`, `Node.step_electionStep`
    * `Ballots`, `Ballots.step`
-/

------------------------------------------------------------
-- Goroutines Of An Election
------------------------------------------------------------

namespace RaftLab

variable {C : Type} {n : Nat}

/-
  The place a goroutine takes in an election: the election
  it belongs to, and the peer it asks for a vote, if any.
-/
def Thread.slot :
    Thread C n → Option (Nat × Option (Fin n))
| .election k => some (k, none)
| .electionLoop k => some (k, none)
| .electionBallot k _ => some (k, none)
| .electionChecked k _ => some (k, none)
| .requestVote k server _ => some (k, some server)
| .voteGranted k server => some (k, some server)
| _ => none

/- The election whose ballots a goroutine is polling. -/
def Thread.polls : Thread C n → Option Nat
| .electionLoop k => some k
| .electionBallot k _ => some k
| .electionChecked k _ => some k
| _ => none

theorem Thread.slot_of_polls
    {thread : Thread C n}
    {k : Nat}
    (hPolls : thread.polls = some k) :
    thread.slot = some (k, none) := by
  cases thread <;> simp_all [Thread.polls, Thread.slot]

namespace Node

/- The goroutines that belong to some election. -/
def electionThreads (nd : Node C n) : List (Thread C n) :=
  nd.threads.filter (fun thread => thread.slot.isSome)

/- The places taken in all elections. -/
def slots (nd : Node C n) : List (Nat × Option (Fin n)) :=
  nd.threads.filterMap Thread.slot

theorem mem_slots
    {nd : Node C n}
    {p : Nat × Option (Fin n)} :
    p ∈ nd.slots ↔
      ∃ thread ∈ nd.threads, thread.slot = some p := by
  unfold slots
  rw [List.mem_filterMap]

/- The places depend on the election goroutines only. -/
theorem slots_eq_electionThreads (nd : Node C n) :
    nd.slots = nd.electionThreads.filterMap Thread.slot := by
  unfold slots electionThreads
  rw [List.filterMap_filter]
  congr 1
  funext thread
  cases thread.slot <;> rfl

theorem mem_electionThreads
    {nd : Node C n}
    {thread : Thread C n}
    {p : Nat × Option (Fin n)}
    (hSlot : thread.slot = some p) :
    thread ∈ nd.electionThreads ↔ thread ∈ nd.threads := by
  unfold electionThreads
  rw [List.mem_filter, hSlot]
  simp

/- A goroutine can be moved to the front of the others. -/
theorem threads_perm
    {nd : Node C n}
    {i : Nat}
    {thread : Thread C n}
    (hThread : nd.threads[i]? = some thread) :
    nd.threads.Perm (thread :: nd.threads.eraseIdx i) := by
  rcases List.getElem?_eq_some_iff.mp hThread with
    ⟨hLt, hGet⟩
  rw [← hGet]
  exact (List.getElem_cons_eraseIdx_perm hLt).symm

end Node

------------------------------------------------------------
-- Steps Of The Elections
------------------------------------------------------------

/-
  What a step of a server does to its elections. In the case
  `other` no goroutine of an election is added, and none
  ends before it has started its election.
-/
inductive ElectionStep
    (nd : Node C n)
    (event : Event C n)
    (nd' : Node C n) : Prop
  | other
      (hBallot : nd'.ballotCount = nd.ballotCount)
      (hTerm : nd'.votedForTerm = nd.votedForTerm)
      (hToken : nd.nextToken ≤ nd'.nextToken)
      (hThreads :
        nd'.electionThreads.Sublist nd.electionThreads)
      (hPending :
        ∀ k, .election k ∈ nd.threads →
          .election k ∈ nd'.threads)
  | timeout
      (hBallot : nd'.ballotCount = nd.ballotCount)
      (hTerm : nd'.votedForTerm = nd.votedForTerm)
      (hToken : nd'.nextToken = nd.nextToken + 1)
      (hThreads : nd'.threads =
        .election nd.nextToken :: nd.threads)
  | start
      (i k : Nat)
      (args : RequestVoteArgs)
      (hEvent : event = .run i)
      (hThread : nd.threads[i]? = some (.election k))
      (hStart :
        nd.rf.electionStart = some (nd'.rf, args))
      (hBallot : nd'.ballotCount =
        Function.update nd.ballotCount k 1)
      (hTerm : nd'.votedForTerm =
        Function.update nd.votedForTerm k args.term)
      (hToken : nd'.nextToken = nd.nextToken)
      (hThreads : nd'.threads =
        .electionLoop k ::
          (nd.otherPeers.map
            (fun j => .requestVote k j args) ++
              nd.threads.eraseIdx i))
  -- the main goroutine of election `k` moves on
  | poll
      (i k : Nat)
      (before after : Thread C n)
      (hThread : nd.threads[i]? = some before)
      (hBefore : before.polls = some k)
      (hAfter :
        after = .electionLoop k ∨
        after = .electionBallot k (nd.ballotCount k) ∨
        ∃ b, before = .electionBallot k b ∧
          after = .electionChecked k b)
      (hBallot : nd'.ballotCount = nd.ballotCount)
      (hTerm : nd'.votedForTerm = nd.votedForTerm)
      (hToken : nd'.nextToken = nd.nextToken)
      (hThreads : nd'.threads =
        after :: nd.threads.eraseIdx i)
  | granted
      (i k : Nat)
      (server : Fin n)
      (args : RequestVoteArgs)
      (reply : RequestVoteReply)
      (hEvent : event = .voteReply i reply)
      (hThread : nd.threads[i]? =
        some (.requestVote k server args))
      (hGranted : reply.voteGranted = true)
      (hBallot : nd'.ballotCount = nd.ballotCount)
      (hTerm : nd'.votedForTerm = nd.votedForTerm)
      (hToken : nd'.nextToken = nd.nextToken)
      (hThreads : nd'.threads =
        .voteGranted k server :: nd.threads.eraseIdx i)
  | count
      (i k : Nat)
      (server : Fin n)
      (hThread : nd.threads[i]? =
        some (.voteGranted k server))
      (hBallot : nd'.ballotCount =
        Function.update nd.ballotCount k
          (nd.ballotCount k + 1))
      (hTerm : nd'.votedForTerm = nd.votedForTerm)
      (hToken : nd'.nextToken = nd.nextToken)
      (hThreads : nd'.threads = nd.threads.eraseIdx i)
  | restart
      (hBallot : nd'.ballotCount = fun _ => 0)
      (hThreads : nd'.electionThreads = [])

namespace ElectionStep

variable {nd nd' : Node C n}
variable {event : Event C n}

/- Goroutine `i` is still there after another one left. -/
theorem mem_eraseIdx_of_ne
    {i : Nat}
    {before thread : Thread C n}
    (hThread : nd.threads[i]? = some before)
    (hMem : thread ∈ nd.threads)
    (hNe : thread ≠ before) :
    thread ∈ nd.threads.eraseIdx i := by
  rcases List.mem_cons.mp
    ((Node.threads_perm hThread).mem_iff.mp hMem) with
    hEq | hRest
  · exact absurd hEq hNe
  · exact hRest

/- Goroutines of other kinds come and go. -/
theorem of_spawned
    {i : Nat}
    {before : Thread C n}
    (hThread : nd.threads[i]? = some before)
    (hBefore : ∀ k, .election k ≠ before)
    (spawned : List (Thread C n))
    (hSpawned : ∀ thread ∈ spawned, thread.slot = none)
    (hBallot : nd'.ballotCount = nd.ballotCount)
    (hTerm : nd'.votedForTerm = nd.votedForTerm)
    (hToken : nd.nextToken ≤ nd'.nextToken)
    (hThreads : nd'.threads =
      spawned ++ nd.threads.eraseIdx i) :
    ElectionStep nd event nd' := by
  have hNone :
      spawned.filter (fun thread => thread.slot.isSome) =
        [] := by
    rw [List.filter_eq_nil_iff]
    intro thread hMem
    rw [hSpawned thread hMem]
    simp
  refine .other hBallot hTerm hToken ?_ ?_
  · unfold Node.electionThreads
    rw [hThreads, List.filter_append, hNone,
      List.nil_append]
    exact (List.eraseIdx_sublist _ _).filter _
  · intro k hMem
    rw [hThreads]
    exact List.mem_append_right _
      (mem_eraseIdx_of_ne hThread hMem (hBefore k))

/- One goroutine ends. -/
theorem of_erased
    {i : Nat}
    {before : Thread C n}
    (hThread : nd.threads[i]? = some before)
    (hBefore : ∀ k, .election k ≠ before)
    (hBallot : nd'.ballotCount = nd.ballotCount)
    (hTerm : nd'.votedForTerm = nd.votedForTerm)
    (hToken : nd.nextToken ≤ nd'.nextToken)
    (hThreads : nd'.threads = nd.threads.eraseIdx i) :
    ElectionStep nd event nd' :=
  of_spawned hThread hBefore [] (by simp) hBallot hTerm
    hToken hThreads

/- No goroutine comes or goes. -/
theorem of_threads_eq
    (hBallot : nd'.ballotCount = nd.ballotCount)
    (hTerm : nd'.votedForTerm = nd.votedForTerm)
    (hToken : nd'.nextToken = nd.nextToken)
    (hThreads : nd'.threads = nd.threads) :
    ElectionStep nd event nd' := by
  refine .other hBallot hTerm (le_of_eq hToken.symm) ?_ ?_
  · unfold Node.electionThreads
    rw [hThreads]
  · intro k hMem
    rw [hThreads]
    exact hMem

end ElectionStep

namespace Node

theorem runThread_electionStep
    {nd nd' : Node C n}
    {i : Nat}
    {thread : Thread C n}
    {effects : List (Effect C n)}
    (hThread : nd.threads[i]? = some thread)
    (hRun : nd.runThread (nd.threads.eraseIdx i) thread =
      some (nd', effects)) :
    ElectionStep nd (.run i) nd' := by
  cases thread with
  | election k =>
      rcases Option.bind_eq_some_iff.mp hRun with
        ⟨⟨rf', args⟩, hStart, hRun⟩
      cases hRun
      exact .start i k args rfl hThread hStart rfl rfl rfl
        rfl
  | electionLoop k =>
      cases hRun
      exact .poll i k _ _ hThread rfl (Or.inr (Or.inl rfl))
        rfl rfl rfl rfl
  | electionBallot k ballot =>
      rw [runThread] at hRun
      split at hRun
      · cases hRun
        exact .of_erased hThread (by simp) rfl rfl
          (le_refl _) rfl
      · cases hRun
        exact .poll i k _ _ hThread rfl
          (Or.inr (Or.inr ⟨ballot, rfl, rfl⟩)) rfl rfl rfl
          rfl
  | electionChecked k ballot =>
      rcases Option.bind_eq_some_iff.mp hRun with
        ⟨⟨rf', won⟩, hWin, hRun⟩
      cases won with
      | true =>
          cases hRun
          exact .of_spawned hThread (by simp) [.electionWon]
            (by simp [Thread.slot]) rfl rfl (le_refl _) rfl
      | false =>
          cases hRun
          exact .poll i k _ _ hThread rfl (Or.inl rfl) rfl
            rfl rfl rfl
  | electionWon =>
      cases hRun
      exact .of_spawned hThread (by simp)
        [.serveAsLeader nd.rf.currentTerm nd.nextToken,
          .commitCheck nd.nextToken]
        (by simp [Thread.slot]) rfl rfl
        (Nat.le_succ nd.nextToken) rfl
  | requestVote k server args => cases hRun
  | voteCancel k =>
      cases hRun
      exact .of_erased hThread (by simp) rfl rfl
        (le_refl _) rfl
  | voteGranted k server =>
      cases hRun
      exact .count i k server hThread rfl rfl rfl rfl
  | serveAsLeader term k =>
      rw [runThread] at hRun
      split at hRun
      · cases hRun
        exact .of_erased hThread (by simp) rfl rfl
          (le_refl _) rfl
      · cases hRun
        exact .of_spawned hThread (by simp)
          [.syncEntries k, .serveAsLeader term k]
          (by simp [Thread.slot]) rfl rfl (le_refl _) rfl
  | commitCheck k =>
      rw [runThread] at hRun
      split at hRun
      · cases hRun
        exact .of_erased hThread (by simp) rfl rfl
          (le_refl _) rfl
      · cases hRun
        exact .of_spawned hThread (by simp) [.commitWait k]
          (by simp [Thread.slot]) rfl rfl (le_refl _) rfl
  | commitWait k =>
      rcases Option.bind_eq_some_iff.mp hRun with
        ⟨rf', _, hRun⟩
      cases hRun
      exact .of_spawned hThread (by simp) [.commitCheck k]
        (by simp [Thread.slot]) rfl rfl (le_refl _) rfl
  | syncEntries k =>
      rw [runThread, runSyncEntries] at hRun
      split at hRun
      · cases hRun
        exact .of_erased hThread (by simp) rfl rfl
          (le_refl _) rfl
      · rcases Option.bind_eq_some_iff.mp hRun with
          ⟨requests, _, hRun⟩
        cases hRun
        refine .of_spawned hThread (by simp)
          (requests.map (fun r =>
            .appendEntries k r.1 r.2.1 r.2.2)) ?_
          rfl rfl (le_refl _) rfl
        intro thread hMem
        rcases List.mem_map.mp hMem with ⟨r, _, rfl⟩
        rfl
  | appendEntries k server args newNextIndex => cases hRun
  | appendReplied k server args newNextIndex reply =>
      rw [runThread, runAppendReplied] at hRun
      split at hRun
      · cases hRun
        exact .of_erased hThread (by simp) rfl rfl
          (le_refl _) rfl
      · rcases Option.bind_eq_some_iff.mp hRun with
          ⟨outcome, _, hRun⟩
        cases outcome with
        | cancel =>
            cases hRun
            exact .of_erased hThread (by simp) rfl rfl
              (le_refl _) rfl
        | nextIndex rf' =>
            cases hRun
            exact .of_erased hThread (by simp) rfl rfl
              (le_refl _) rfl
        | snapshot snapshot =>
            cases hRun
            exact .of_spawned hThread (by simp)
              [.installSnapshot k server snapshot]
              (by simp [Thread.slot]) rfl rfl (le_refl _) rfl
  | installSnapshot k server args => cases hRun
  | installReplied k server args reply =>
      rw [runThread] at hRun
      split at hRun <;>
      · cases hRun
        exact .of_erased hThread (by simp) rfl rfl
          (le_refl _) rfl

theorem receiveVote_electionStep
    {nd nd' : Node C n}
    {i : Nat}
    {reply : RequestVoteReply}
    {thread : Thread C n}
    (hThread : nd.threads[i]? = some thread)
    (hReceive :
      nd.receiveVote (nd.threads.eraseIdx i) reply thread =
        some nd') :
    ElectionStep nd (.voteReply i reply) nd' := by
  unfold receiveVote at hReceive
  split at hReceive
  · rename_i k server args
    split at hReceive
    · cases hReceive
      exact .of_erased hThread (by simp) rfl rfl
        (le_refl _) rfl
    · split at hReceive
      · cases hReceive
        exact .of_spawned hThread (by simp) [.voteCancel k]
          (by simp [Thread.slot]) rfl rfl (le_refl _) rfl
      · split at hReceive
        · rename_i hGranted
          cases hReceive
          exact .granted i k server args reply rfl hThread
            hGranted rfl rfl rfl rfl
        · cases hReceive
          exact .of_erased hThread (by simp) rfl rfl
            (le_refl _) rfl
  · cases hReceive

theorem receiveAppend_electionStep
    {nd nd' : Node C n}
    {i : Nat}
    {event : Event C n}
    {reply : AppendEntriesReply}
    {thread : Thread C n}
    (hThread : nd.threads[i]? = some thread)
    (hReceive :
      nd.receiveAppend (nd.threads.eraseIdx i) reply thread =
        some nd') :
    ElectionStep nd event nd' := by
  unfold receiveAppend at hReceive
  split at hReceive
  · rename_i k server args newNextIndex
    split at hReceive
    · cases hReceive
      exact .of_erased hThread (by simp) rfl rfl
        (le_refl _) rfl
    · cases hReceive
      exact .of_spawned hThread (by simp)
        [.appendReplied k server args newNextIndex reply]
        (by simp [Thread.slot]) rfl rfl (le_refl _) rfl
  · cases hReceive

theorem receiveSnapshot_electionStep
    {nd nd' : Node C n}
    {i : Nat}
    {event : Event C n}
    {reply : InstallSnapshotReply}
    {thread : Thread C n}
    (hThread : nd.threads[i]? = some thread)
    (hReceive :
      nd.receiveSnapshot (nd.threads.eraseIdx i) reply
        thread = some nd') :
    ElectionStep nd event nd' := by
  unfold receiveSnapshot at hReceive
  split at hReceive
  · rename_i k server args
    split at hReceive
    · cases hReceive
      exact .of_erased hThread (by simp) rfl rfl
        (le_refl _) rfl
    · cases hReceive
      exact .of_spawned hThread (by simp)
        [.installReplied k server args reply]
        (by simp [Thread.slot]) rfl rfl (le_refl _) rfl
  · cases hReceive

theorem electionThreads_boot (rf : Raft C n) :
    (boot rf).electionThreads = [] := by
  unfold electionThreads boot
  dsimp only
  split <;> rfl

theorem step_electionStep
    {nd nd' : Node C n}
    {event : Event C n}
    {effects : List (Effect C n)}
    (hStep : nd.step event = some (nd', effects)) :
    ElectionStep nd event nd' := by
  cases event with
  | requestVote args =>
      rcases Option.bind_eq_some_iff.mp hStep with
        ⟨_, _, hStep⟩
      cases hStep
      exact .of_threads_eq rfl rfl rfl rfl
  | appendEntries args =>
      rcases Option.bind_eq_some_iff.mp hStep with
        ⟨_, _, hStep⟩
      cases hStep
      exact .of_threads_eq rfl rfl rfl rfl
  | installSnapshot args =>
      rcases Option.bind_eq_some_iff.mp hStep with
        ⟨_, _, hStep⟩
      cases hStep
      exact .of_threads_eq rfl rfl rfl rfl
  | start command =>
      rcases Option.bind_eq_some_iff.mp hStep with
        ⟨_, _, hStep⟩
      cases hStep
      exact .of_threads_eq rfl rfl rfl rfl
  | takeSnapshot index snapshot =>
      rcases Option.bind_eq_some_iff.mp hStep with
        ⟨_, _, hStep⟩
      cases hStep
      exact .of_threads_eq rfl rfl rfl rfl
  | tickerTimeout =>
      rw [step] at hStep
      split at hStep
      · cases hStep
        exact .timeout rfl rfl rfl rfl
      · cases hStep
  | tickerCancel =>
      rcases Option.map_eq_some_iff.mp hStep with
        ⟨k, _, hStep⟩
      cases hStep
      exact .of_threads_eq rfl rfl rfl rfl
  | run i =>
      rcases Option.bind_eq_some_iff.mp hStep with
        ⟨thread, hThread, hRun⟩
      exact runThread_electionStep hThread hRun
  | voteReply i reply =>
      rcases Option.bind_eq_some_iff.mp hStep with
        ⟨thread, hThread, hSilent⟩
      rcases silent_eq_some_iff.mp hSilent with
        ⟨hReceive, _⟩
      exact receiveVote_electionStep hThread hReceive
  | appendReply i reply =>
      rcases Option.bind_eq_some_iff.mp hStep with
        ⟨thread, hThread, hSilent⟩
      rcases silent_eq_some_iff.mp hSilent with
        ⟨hReceive, _⟩
      exact receiveAppend_electionStep hThread hReceive
  | snapshotReply i reply =>
      rcases Option.bind_eq_some_iff.mp hStep with
        ⟨thread, hThread, hSilent⟩
      rcases silent_eq_some_iff.mp hSilent with
        ⟨hReceive, _⟩
      exact receiveSnapshot_electionStep hThread hReceive
  | applyEntries =>
      rcases Option.bind_eq_some_iff.mp hStep with
        ⟨_, _, hStep⟩
      cases hStep
      exact .of_threads_eq rfl rfl rfl rfl
  | dequeue =>
      rw [step] at hStep
      split at hStep
      · cases hStep
        exact .of_threads_eq rfl rfl rfl rfl
      · cases hStep
  | applyCh =>
      rcases Option.map_eq_some_iff.mp hStep with
        ⟨msg, _, hStep⟩
      cases hStep
      exact .of_threads_eq rfl rfl rfl rfl
  | restart =>
      rcases silent_eq_some_iff.mp hStep with ⟨hBoot, _⟩
      rcases Option.map_eq_some_iff.mp hBoot with
        ⟨rf', _, rfl⟩
      exact .restart rfl (electionThreads_boot rf')

end Node

------------------------------------------------------------
-- Every Ballot Stands For A Vote
------------------------------------------------------------

/-
  `voted j t` says that peer `j` voted for this server in
  term `t`. A ballot that was counted, or loaded, in election
  `k` stands for a peer that voted in the term of `k`, and
  different ballots stand for different peers: a peer whose
  ballot was counted has no goroutine of `k` left.
-/
structure Ballots
    (voted : Fin n → Int → Prop)
    (nd : Node C n) : Prop where
  slots_nodup : nd.slots.Nodup
  slots_lt : ∀ p ∈ nd.slots, p.1 < nd.nextToken
  unstarted :
    ∀ k, .election k ∈ nd.threads →
      ∀ j, (k, some j) ∉ nd.slots
  request :
    ∀ k j args, .requestVote k j args ∈ nd.threads →
      args.term = nd.votedForTerm k ∧
        args.candiateId = (nd.rf.me.val : Int)
  granted :
    ∀ k j, .voteGranted k j ∈ nd.threads →
      voted j (nd.votedForTerm k)
  counted :
    ∀ k, AtLeast
      (fun j => voted j (nd.votedForTerm k) ∧
        (k, some j) ∉ nd.slots) (nd.ballotCount k)
  loaded :
    ∀ k b,
      (.electionBallot k b ∈ nd.threads ∨
        .electionChecked k b ∈ nd.threads) →
      AtLeast (fun j => voted j (nd.votedForTerm k)) b

namespace Ballots

variable {voted voted' : Fin n → Int → Prop}
variable {nd nd' : Node C n}

/- A server without elections. -/
theorem of_no_elections
    (hBallot : nd.ballotCount = fun _ => 0)
    (hThreads : nd.electionThreads = []) :
    Ballots voted nd := by
  have hNone :
      ∀ thread p, thread ∈ nd.threads →
        thread.slot ≠ some p := by
    intro thread p hMem hSlot
    have hElection :=
      (Node.mem_electionThreads hSlot).mpr hMem
    rw [hThreads] at hElection
    cases hElection
  have hSlots : nd.slots = [] := by
    rw [Node.slots_eq_electionThreads, hThreads]
    rfl
  refine ⟨?_, ?_, ?_, ?_, ?_, ?_, ?_⟩
  · rw [hSlots]
    exact List.nodup_nil
  · rw [hSlots]
    simp
  · intro k hMem
    exact absurd rfl (hNone _ (k, none) hMem)
  · intro k j args hMem
    exact absurd rfl (hNone _ (k, some j) hMem)
  · intro k j hMem
    exact absurd rfl (hNone _ (k, some j) hMem)
  · intro k
    rw [hBallot]
    exact AtLeast.zero
  · intro k b hMem
    rcases hMem with hMem | hMem
    · exact absurd rfl (hNone _ (k, none) hMem)
    · exact absurd rfl (hNone _ (k, none) hMem)

/- Votes accumulate and goroutines end. -/
theorem of_sublist
    (hBallots : Ballots voted nd)
    (hVoted : ∀ j t, voted j t → voted' j t)
    (hMe : nd'.rf.me = nd.rf.me)
    (hBallot : nd'.ballotCount = nd.ballotCount)
    (hTerm : nd'.votedForTerm = nd.votedForTerm)
    (hToken : nd.nextToken ≤ nd'.nextToken)
    (hThreads :
      nd'.electionThreads.Sublist nd.electionThreads) :
    Ballots voted' nd' := by
  have hOld :
      ∀ thread p, thread.slot = some p →
        thread ∈ nd'.threads → thread ∈ nd.threads := by
    intro thread p hSlot hMem
    have hElection :=
      (Node.mem_electionThreads hSlot).mpr hMem
    exact (Node.mem_electionThreads hSlot).mp
      (hThreads.subset hElection)
  have hSlots : nd'.slots.Sublist nd.slots := by
    rw [Node.slots_eq_electionThreads,
      Node.slots_eq_electionThreads]
    exact hThreads.filterMap _
  refine ⟨?_, ?_, ?_, ?_, ?_, ?_, ?_⟩
  · exact hBallots.slots_nodup.sublist hSlots
  · intro p hp
    have hLt := hBallots.slots_lt p (hSlots.subset hp)
    omega
  · intro k hMem j hSlot
    exact hBallots.unstarted k (hOld _ _ rfl hMem) j
      (hSlots.subset hSlot)
  · intro k j args hMem
    rw [hTerm, hMe]
    exact hBallots.request k j args (hOld _ _ rfl hMem)
  · intro k j hMem
    rw [hTerm]
    exact hVoted j _
      (hBallots.granted k j (hOld _ _ rfl hMem))
  · intro k
    rw [hTerm, hBallot]
    refine (hBallots.counted k).mono ?_
    intro j hj
    exact ⟨hVoted j _ hj.1,
      fun hSlot => hj.2 (hSlots.subset hSlot)⟩
  · intro k b hMem
    rw [hTerm]
    refine (hBallots.loaded k b ?_).mono
      (fun j hj => hVoted j _ hj)
    rcases hMem with hMem | hMem
    · exact Or.inl (hOld _ _ rfl hMem)
    · exact Or.inr (hOld _ _ rfl hMem)

section OneGoroutine

variable {i k : Nat}
variable {before : Thread C n}
variable {p : Nat × Option (Fin n)}

/- The place of goroutine `i`, and the places of the rest. -/
theorem slots_perm
    (hThread : nd.threads[i]? = some before)
    (hBefore : before.slot = some p) :
    nd.slots.Perm
      (p :: (nd.threads.eraseIdx i).filterMap
        Thread.slot) := by
  have hPerm :=
    (Node.threads_perm hThread).filterMap Thread.slot
  rw [List.filterMap_cons_some hBefore] at hPerm
  exact hPerm

theorem mem_threads_of_mem_rest
    {thread : Thread C n}
    (hMem : thread ∈ nd.threads.eraseIdx i) :
    thread ∈ nd.threads :=
  (List.eraseIdx_sublist _ _).subset hMem

/- Nobody else has the place of goroutine `i`. -/
theorem slot_notMem_rest
    (hBallots : Ballots voted nd)
    (hThread : nd.threads[i]? = some before)
    (hBefore : before.slot = some p) :
    p ∉ (nd.threads.eraseIdx i).filterMap Thread.slot := by
  have hPerm := slots_perm hThread hBefore
  have hNodup := hPerm.nodup_iff.mp hBallots.slots_nodup
  exact (List.nodup_cons.mp hNodup).1

/-
  A goroutine is replaced by one with the same place in the
  same election.
-/
theorem of_replaced
    (hBallots : Ballots voted nd)
    (hVoted : ∀ j t, voted j t → voted' j t)
    (hMe : nd'.rf.me = nd.rf.me)
    {after : Thread C n}
    (hThread : nd.threads[i]? = some before)
    (hBefore : before.slot = some p)
    (hAfter : after.slot = some p)
    (hElection : ∀ k, after ≠ .election k)
    (hRequest : ∀ k j args, after ≠ .requestVote k j args)
    (hGranted :
      ∀ k j, after = .voteGranted k j →
        voted' j (nd.votedForTerm k))
    (hLoaded :
      ∀ k b,
        (after = .electionBallot k b ∨
          after = .electionChecked k b) →
        AtLeast (fun j => voted' j (nd.votedForTerm k)) b)
    (hBallot : nd'.ballotCount = nd.ballotCount)
    (hTerm : nd'.votedForTerm = nd.votedForTerm)
    (hToken : nd'.nextToken = nd.nextToken)
    (hThreads : nd'.threads =
      after :: nd.threads.eraseIdx i) :
    Ballots voted' nd' := by
  have hSlots : nd'.slots.Perm nd.slots := by
    unfold Node.slots
    rw [hThreads, List.filterMap_cons_some hAfter]
    exact (slots_perm hThread hBefore).symm
  have hOld :
      ∀ thread, thread ∈ nd'.threads → after ≠ thread →
        thread ∈ nd.threads := by
    intro thread hMem hNe
    rw [hThreads] at hMem
    rcases List.mem_cons.mp hMem with hEq | hRest
    · exact absurd hEq.symm hNe
    · exact mem_threads_of_mem_rest hRest
  refine ⟨?_, ?_, ?_, ?_, ?_, ?_, ?_⟩
  · exact hSlots.nodup_iff.mpr hBallots.slots_nodup
  · intro q hq
    rw [hToken]
    exact hBallots.slots_lt q (hSlots.subset hq)
  · intro k hMem j hSlot
    exact hBallots.unstarted k
      (hOld _ hMem (hElection k)) j (hSlots.subset hSlot)
  · intro k j args hMem
    rw [hTerm, hMe]
    exact hBallots.request k j args
      (hOld _ hMem (hRequest k j args))
  · intro k j hMem
    rw [hTerm]
    by_cases hEq : after = .voteGranted k j
    · exact hGranted k j hEq
    · exact hVoted j _
        (hBallots.granted k j (hOld _ hMem hEq))
  · intro k
    rw [hTerm, hBallot]
    refine (hBallots.counted k).mono ?_
    intro j hj
    exact ⟨hVoted j _ hj.1,
      fun hSlot => hj.2 (hSlots.subset hSlot)⟩
  · intro k b hMem
    rw [hTerm]
    by_cases hEq :
        after = .electionBallot k b ∨
          after = .electionChecked k b
    · exact hLoaded k b hEq
    · refine (hBallots.loaded k b ?_).mono
        (fun j hj => hVoted j _ hj)
      rcases hMem with hMem | hMem
      · exact Or.inl (hOld _ hMem (fun h => hEq (Or.inl h)))
      · exact Or.inr (hOld _ hMem (fun h => hEq (Or.inr h)))

/- A ballot is counted and its goroutine ends. -/
theorem of_counted
    {server : Fin n}
    (hBallots : Ballots voted nd)
    (hVoted : ∀ j t, voted j t → voted' j t)
    (hMe : nd'.rf.me = nd.rf.me)
    (hThread : nd.threads[i]? =
      some (.voteGranted k server))
    (hBallot : nd'.ballotCount =
      Function.update nd.ballotCount k
        (nd.ballotCount k + 1))
    (hTerm : nd'.votedForTerm = nd.votedForTerm)
    (hToken : nd'.nextToken = nd.nextToken)
    (hThreads : nd'.threads = nd.threads.eraseIdx i) :
    Ballots voted' nd' := by
  have hMem : .voteGranted k server ∈ nd.threads :=
    List.mem_of_getElem? hThread
  have hOwn : (k, some server) ∈ nd.slots :=
    Node.mem_slots.mpr ⟨_, hMem, rfl⟩
  have hFree : (k, some server) ∉ nd'.slots := by
    unfold Node.slots
    rw [hThreads]
    exact hBallots.slot_notMem_rest hThread rfl
  have hSub :
      nd'.electionThreads.Sublist nd.electionThreads := by
    unfold Node.electionThreads
    rw [hThreads]
    exact (List.eraseIdx_sublist _ _).filter _
  have hSlots : nd'.slots ⊆ nd.slots := by
    unfold Node.slots
    rw [hThreads]
    exact ((List.eraseIdx_sublist _ _).filterMap _).subset
  -- without the new ballot, only a goroutine has ended
  have hRest :
      Ballots voted'
        { nd' with ballotCount := nd.ballotCount } :=
    hBallots.of_sublist hVoted hMe rfl hTerm
      (le_of_eq hToken.symm) hSub
  refine ⟨hRest.slots_nodup, hRest.slots_lt,
    hRest.unstarted, hRest.request, hRest.granted, ?_,
    hRest.loaded⟩
  intro k'
  by_cases hk : k' = k
  · subst hk
    rw [hTerm, hBallot, Function.update_self]
    refine (hBallots.counted k').succ ?_
      (fun hj => hj.2 hOwn)
      ⟨hVoted _ _ (hBallots.granted k' server hMem), hFree⟩
    intro j hj
    exact ⟨hVoted j _ hj.1,
      fun hSlot => hj.2 (hSlots hSlot)⟩
  · rw [hBallot, Function.update_of_ne hk]
    exact hRest.counted k'

end OneGoroutine

/- The ticker starts a new election. -/
theorem of_timeout
    (hBallots : Ballots voted nd)
    (hVoted : ∀ j t, voted j t → voted' j t)
    (hMe : nd'.rf.me = nd.rf.me)
    (hBallot : nd'.ballotCount = nd.ballotCount)
    (hTerm : nd'.votedForTerm = nd.votedForTerm)
    (hToken : nd'.nextToken = nd.nextToken + 1)
    (hThreads : nd'.threads =
      .election nd.nextToken :: nd.threads) :
    Ballots voted' nd' := by
  have hSlots :
      nd'.slots = (nd.nextToken, none) :: nd.slots := by
    unfold Node.slots
    rw [hThreads]
    rfl
  have hFresh : ∀ x, (nd.nextToken, x) ∉ nd.slots := by
    intro x hMem
    have hLt := hBallots.slots_lt _ hMem
    exact absurd hLt (lt_irrefl _)
  have hOld :
      ∀ thread, thread ∈ nd'.threads →
        thread ≠ .election nd.nextToken →
          thread ∈ nd.threads := by
    intro thread hMem hNe
    rw [hThreads] at hMem
    rcases List.mem_cons.mp hMem with hEq | hRest
    · exact absurd hEq hNe
    · exact hRest
  have hSome :
      ∀ k j, (k, some j) ∈ nd'.slots →
        (k, some j) ∈ nd.slots := by
    intro k j hMem
    rw [hSlots] at hMem
    rcases List.mem_cons.mp hMem with hEq | hRest
    · cases hEq
    · exact hRest
  refine ⟨?_, ?_, ?_, ?_, ?_, ?_, ?_⟩
  · rw [hSlots, List.nodup_cons]
    exact ⟨hFresh none, hBallots.slots_nodup⟩
  · intro q hq
    rw [hSlots] at hq
    rw [hToken]
    rcases List.mem_cons.mp hq with rfl | hRest
    · exact Nat.lt_succ_self _
    · have hLt := hBallots.slots_lt q hRest
      omega
  · intro k hMem j hSlot
    by_cases hk : k = nd.nextToken
    · rw [hk] at hSlot
      exact hFresh _ (hSome _ _ hSlot)
    · have hNe :
          (.election k : Thread C n) ≠
            .election nd.nextToken := by
        intro hEq
        exact hk (Thread.election.inj hEq)
      exact hBallots.unstarted k (hOld _ hMem hNe) j
        (hSome _ _ hSlot)
  · intro k j args hMem
    rw [hTerm, hMe]
    exact hBallots.request k j args
      (hOld _ hMem (by simp))
  · intro k j hMem
    rw [hTerm]
    exact hVoted j _
      (hBallots.granted k j (hOld _ hMem (by simp)))
  · intro k
    rw [hTerm, hBallot]
    refine (hBallots.counted k).mono ?_
    intro j hj
    exact ⟨hVoted j _ hj.1,
      fun hSlot => hj.2 (hSome _ _ hSlot)⟩
  · intro k b hMem
    rw [hTerm]
    refine (hBallots.loaded k b ?_).mono
      (fun j hj => hVoted j _ hj)
    rcases hMem with hMem | hMem
    · exact Or.inl (hOld _ hMem (by simp))
    · exact Or.inr (hOld _ hMem (by simp))

theorem otherPeers_nodup (nd : Node C n) :
    nd.otherPeers.Nodup :=
  (List.nodup_finRange n).filter _

theorem me_notMem_otherPeers (nd : Node C n) :
    nd.rf.me ∉ nd.otherPeers := by
  simp [Node.otherPeers]

/-
  Election `k` starts: the server votes for itself and asks
  every other peer.
-/
theorem of_start
    {i k : Nat}
    {args : RequestVoteArgs}
    (hBallots : Ballots voted nd)
    (hVoted : ∀ j t, voted j t → voted' j t)
    (hMe : nd'.rf.me = nd.rf.me)
    (hThread : nd.threads[i]? = some (.election k))
    (hCandiate : args.candiateId = (nd.rf.me.val : Int))
    (hSelf : voted' nd.rf.me args.term)
    (hBallot : nd'.ballotCount =
      Function.update nd.ballotCount k 1)
    (hTerm : nd'.votedForTerm =
      Function.update nd.votedForTerm k args.term)
    (hToken : nd'.nextToken = nd.nextToken)
    (hThreads : nd'.threads =
      .electionLoop k ::
        (nd.otherPeers.map
          (fun j => .requestVote k j args) ++
            nd.threads.eraseIdx i)) :
    Ballots voted' nd' := by
  have hElection : .election k ∈ nd.threads :=
    List.mem_of_getElem? hThread
  have hPerm := slots_perm hThread rfl
  have hNoMain := hBallots.slot_notMem_rest hThread rfl
  have hRestSub :
      ∀ q, q ∈ (nd.threads.eraseIdx i).filterMap
        Thread.slot → q ∈ nd.slots := by
    intro q hq
    exact hPerm.symm.subset (List.mem_cons_of_mem _ hq)
  -- no goroutine of election `k` is left in the rest
  have hNoRest :
      ∀ x, (k, x) ∉ (nd.threads.eraseIdx i).filterMap
        Thread.slot := by
    intro x hMem
    cases x with
    | none => exact hNoMain hMem
    | some j =>
        exact hBallots.unstarted k hElection j
          (hRestSub _ hMem)
  have hSlots :
      nd'.slots =
        (k, none) :: (nd.otherPeers.map
          (fun j => (k, some j)) ++
            (nd.threads.eraseIdx i).filterMap
              Thread.slot) := by
    unfold Node.slots
    rw [hThreads, List.filterMap_cons_some (by rfl),
      List.filterMap_append, List.filterMap_map]
    congr 2
    exact List.filterMap_eq_map_iff_forall_eq_some.mpr
      (fun _ _ => rfl)
  have hNew :
      ∀ j, (k, some j) ∈ nd'.slots → j ∈ nd.otherPeers := by
    intro j hMem
    rw [hSlots] at hMem
    rcases List.mem_cons.mp hMem with hEq | hMem
    · cases hEq
    · rcases List.mem_append.mp hMem with hMem | hMem
      · rcases List.mem_map.mp hMem with ⟨j', hj', hEq⟩
        cases hEq
        exact hj'
      · exact absurd hMem (hNoRest _)
  have hOther :
      ∀ k' x, k' ≠ k → (k', x) ∈ nd'.slots →
        (k', x) ∈ nd.slots := by
    intro k' x hNe hMem
    rw [hSlots] at hMem
    rcases List.mem_cons.mp hMem with hEq | hMem
    · cases hEq
      exact absurd rfl hNe
    · rcases List.mem_append.mp hMem with hMem | hMem
      · rcases List.mem_map.mp hMem with ⟨j', _, hEq⟩
        cases hEq
        exact absurd rfl hNe
      · exact hRestSub _ hMem
  have hOld :
      ∀ thread, thread ∈ nd'.threads →
        thread ≠ .electionLoop k →
        (∀ j, thread ≠ .requestVote k j args) →
          thread ∈ nd.threads.eraseIdx i := by
    intro thread hMem hLoop hRequest
    rw [hThreads] at hMem
    rcases List.mem_cons.mp hMem with hEq | hMem
    · exact absurd hEq hLoop
    · rcases List.mem_append.mp hMem with hMem | hMem
      · rcases List.mem_map.mp hMem with ⟨j, _, hEq⟩
        exact absurd hEq.symm (hRequest j)
      · exact hMem
  have hTermOf :
      ∀ thread k' x, thread ∈ nd.threads.eraseIdx i →
        thread.slot = some (k', x) →
          k' ≠ k ∧
            nd'.votedForTerm k' = nd.votedForTerm k' := by
    intro thread k' x hMem hSlot
    have hNe : k' ≠ k := by
      intro hEq
      subst hEq
      exact hNoRest x
        (List.mem_filterMap.mpr ⟨thread, hMem, hSlot⟩)
    refine ⟨hNe, ?_⟩
    rw [hTerm, Function.update_of_ne hNe]
  refine ⟨?_, ?_, ?_, ?_, ?_, ?_, ?_⟩
  · rw [hSlots, List.nodup_cons, List.nodup_append']
    refine ⟨?_, ?_, ?_, ?_⟩
    · intro hMem
      rcases List.mem_append.mp hMem with hMem | hMem
      · rcases List.mem_map.mp hMem with ⟨j, _, hEq⟩
        cases hEq
      · exact hNoMain hMem
    · refine (otherPeers_nodup nd).map ?_
      intro j j' hEq
      cases hEq
      rfl
    · have hNodup :=
        hPerm.nodup_iff.mp hBallots.slots_nodup
      exact (List.nodup_cons.mp hNodup).2
    · intro q hq hq'
      rcases List.mem_map.mp hq with ⟨j, _, rfl⟩
      exact hNoRest _ hq'
  · intro q hq
    rw [hToken]
    by_cases hk : q.1 = k
    · rw [hk]
      exact hBallots.slots_lt (k, none)
        (Node.mem_slots.mpr ⟨_, hElection, rfl⟩)
    · exact hBallots.slots_lt q (hOther q.1 q.2 hk hq)
  · intro k' hMem j hSlot
    have hRest := hOld _ hMem (by simp) (by simp)
    have hNe := (hTermOf _ k' none hRest rfl).1
    exact hBallots.unstarted k'
      (mem_threads_of_mem_rest hRest) j
        (hOther k' _ hNe hSlot)
  · intro k' j args' hMem
    by_cases hEq :
        (.requestVote k' j args' : Thread C n) =
          .requestVote k j args
    · cases hEq
      rw [hTerm, Function.update_self, hMe]
      exact ⟨rfl, hCandiate⟩
    · have hRest :
          .requestVote k' j args' ∈
            nd.threads.eraseIdx i := by
        refine hOld _ hMem (by simp) ?_
        intro j' hEq'
        cases hEq'
        exact hEq rfl
      rw [(hTermOf _ k' (some j) hRest rfl).2, hMe]
      exact hBallots.request k' j args'
        (mem_threads_of_mem_rest hRest)
  · intro k' j hMem
    have hRest := hOld _ hMem (by simp) (by simp)
    rw [(hTermOf _ k' (some j) hRest rfl).2]
    exact hVoted j _ (hBallots.granted k' j
      (mem_threads_of_mem_rest hRest))
  · intro k'
    by_cases hk : k' = k
    · subst hk
      rw [hTerm, hBallot, Function.update_self,
        Function.update_self]
      exact AtLeast.one ⟨hSelf,
        fun hSlot =>
          me_notMem_otherPeers nd (hNew _ hSlot)⟩
    · rw [hTerm, hBallot, Function.update_of_ne hk,
        Function.update_of_ne hk]
      refine (hBallots.counted k').mono ?_
      intro j hj
      exact ⟨hVoted j _ hj.1,
        fun hSlot => hj.2 (hOther k' _ hk hSlot)⟩
  · intro k' b hMem
    rcases hMem with hMem | hMem
    · have hRest := hOld _ hMem (by simp) (by simp)
      rw [(hTermOf _ k' none hRest rfl).2]
      exact (hBallots.loaded k' b
        (Or.inl (mem_threads_of_mem_rest hRest))).mono
          (fun j hj => hVoted j _ hj)
    · have hRest := hOld _ hMem (by simp) (by simp)
      rw [(hTermOf _ k' none hRest rfl).2]
      exact (hBallots.loaded k' b
        (Or.inr (mem_threads_of_mem_rest hRest))).mono
          (fun j hj => hVoted j _ hj)

/-
  One step keeps every ballot backed, if the votes the step
  gives and the votes reported to it have been given.
-/
theorem step
    {event : Event C n}
    (hBallots : Ballots voted nd)
    (hStep : ElectionStep nd event nd')
    (hVoted : ∀ j t, voted j t → voted' j t)
    (hMe : nd'.rf.me = nd.rf.me)
    (hSelf :
      ∀ i k args, event = .run i →
        nd.threads[i]? = some (.election k) →
        nd.rf.electionStart = some (nd'.rf, args) →
          voted' nd.rf.me args.term)
    (hReply :
      ∀ i k server args reply, event = .voteReply i reply →
        nd.threads[i]? =
          some (.requestVote k server args) →
        reply.voteGranted = true →
        args.candiateId = (nd.rf.me.val : Int) →
          voted' server args.term) :
    Ballots voted' nd' := by
  cases hStep with
  | other hBallot hTerm hToken hThreads _ =>
      exact hBallots.of_sublist hVoted hMe hBallot hTerm
        hToken hThreads
  | timeout hBallot hTerm hToken hThreads =>
      exact hBallots.of_timeout hVoted hMe hBallot hTerm
        hToken hThreads
  | start i k args hEvent hThread hStart hBallot hTerm
      hToken hThreads =>
      exact hBallots.of_start hVoted hMe hThread
        (Raft.electionStart_spec hStart).2.2.1
        (hSelf i k args hEvent hThread hStart) hBallot hTerm
        hToken hThreads
  | poll i k before after hThread hBefore hAfter hBallot
      hTerm hToken hThreads =>
      have hMem := List.mem_of_getElem? hThread
      have hLoaded :
          ∀ k' b,
            (after = .electionBallot k' b ∨
              after = .electionChecked k' b) →
            AtLeast
              (fun j => voted' j (nd.votedForTerm k'))
              b := by
        intro k' b hLoad
        rcases hAfter with rfl | rfl | ⟨b', rfl, rfl⟩
        · rcases hLoad with hEq | hEq <;> cases hEq
        · rcases hLoad with hEq | hEq
          · cases hEq
            exact (hBallots.counted k).mono
              (fun j hj => hVoted j _ hj.1)
          · cases hEq
        · rcases hLoad with hEq | hEq
          · cases hEq
          · cases hEq
            exact (hBallots.loaded k b (Or.inl hMem)).mono
              (fun j hj => hVoted j _ hj)
      have hSlot : after.slot = some (k, none) := by
        rcases hAfter with rfl | rfl | ⟨b', _, rfl⟩ <;> rfl
      refine hBallots.of_replaced hVoted hMe hThread
        (Thread.slot_of_polls hBefore) hSlot ?_ ?_ ?_
        hLoaded hBallot hTerm hToken hThreads
      · intro k' hEq
        rcases hAfter with rfl | rfl | ⟨b', _, rfl⟩ <;>
          cases hEq
      · intro k' j args hEq
        rw [hEq] at hSlot
        cases hSlot
      · intro k' j hEq
        rw [hEq] at hSlot
        cases hSlot
  | granted i k server args reply hEvent hThread hGranted
      hBallot hTerm hToken hThreads =>
      have hMem := List.mem_of_getElem? hThread
      rcases hBallots.request k server args hMem with
        ⟨hArgs, hCandiate⟩
      refine hBallots.of_replaced hVoted hMe hThread rfl rfl
        (by simp) (by simp) ?_ (by simp) hBallot hTerm
        hToken hThreads
      intro k' j hEq
      cases hEq
      rw [← hArgs]
      exact hReply i k server args reply hEvent hThread
        hGranted hCandiate
  | count i k server hThread hBallot hTerm hToken hThreads =>
      exact hBallots.of_counted hVoted hMe hThread hBallot
        hTerm hToken hThreads
  | restart hBallot hThreads =>
      exact of_no_elections hBallot hThreads

end Ballots

end RaftLab
