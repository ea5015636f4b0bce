import RaftLab.Raft.Candidacy
import RaftLab.Raft.Truncation

/-
  Leaders have what may be chosen.

  A server keeps what it has accepted, unless a majority
  will never accept it. The log of a candidate does not
  change while it campaigns, and its requests tell where the
  log ends. So a vote says that the log of the candidate
  covers what the voter has accepted, and the winner of an
  election is safe.

  A server takes over a snapshot without the term that it
  was sent in. Then its log may have entries of a later
  term, and it may start an election of an earlier one. It
  does not win: a majority has left that term before the
  server has asked for a vote.

  Main declarations:
    * `Cluster.Blocked`, `Cluster.Campaign`
    * `Cluster.Complete`, `Cluster.HistoryStep.complete`
-/

------------------------------------------------------------
-- Candidates
------------------------------------------------------------

namespace RaftLab

variable {C : Type} {n : Nat}

/- The request tells where the log ends. -/
def RequestVoteArgs.Describes
    (args : RequestVoteArgs)
    (log : List (LogEntry C)) : Prop :=
  args.lastLogIndex = (log.length : Int) ∧
    termAt log (log.length - 1) = some args.lastLogTerm

/- A vote is given in the term the server is in then. -/
theorem RaftStep.term_of_vote
    {nd : Node C n}
    {event : Event C n}
    {rf' : Raft C n}
    {effects : List (Effect C n)}
    (hStep : RaftStep nd event rf' effects)
    {t x : Int}
    (hMem : (.vote t x : Effect C n) ∈ effects) :
    rf'.currentTerm = t := by
  rcases hStep.vote_cases hMem with
    ⟨args, reply, _, rfl, _, hGranted, hCase⟩ |
    ⟨args, _, rfl, hStart⟩
  · cases hCase with
    | stale => cases hGranted
    | refused => cases hGranted
    | granted => rfl
  · rcases Raft.electionStart_spec hStart with ⟨rfl, hTerm, _⟩
    exact hTerm.symm

namespace Cluster

/-
  The server has no majority in its term: one has moved on
  without having voted for it.
-/
def Blocked
    (c : Cluster C n)
    (i : Fin n) : Prop :=
  ∃ Q, Majority Q ∧ ∀ j ∈ Q,
    (c.nodes i).rf.currentTerm <
      (c.nodes j).rf.currentTerm ∧
    ¬ c.Voted i j (c.nodes i).rf.currentTerm

/- What is known of a server that campaigns. -/
structure Campaign
    (c : Cluster C n)
    (g : LogHistory C n)
    (i : Fin n) : Prop where
  asked :
    ∀ j args, (i, .requestVote j args) ∈ c.trace →
      args.term = (c.nodes i).rf.currentTerm →
        args.Describes (g.full i)
  voters :
    ∀ j, c.Voted i j (c.nodes i).rf.currentTerm →
      (c.replication g).Covers (g.full i) j
        (c.nodes i).rf.currentTerm
  terms :
    (∀ e ∈ g.full i,
      e.term ≤ (c.nodes i).rf.currentTerm) ∨ c.Blocked i

/-
  All leaders are safe, servers keep what they accepted, and
  the votes of a campaign speak for the candidate's log.
-/
structure Complete
    (c : Cluster C n)
    (g : LogHistory C n) : Prop where
  sound : (c.replication g).Sound
  covers :
    ∀ j u, (c.replication g).Covers (g.full j) j u
  campaigns :
    ∀ i, (c.nodes i).Campaigns → c.Campaign g i

theorem Complete.initial :
    (Cluster.initial C n).Complete LogHistory.start where
  sound := by
    constructor
    · intro u hNe t m hLt hOwns
      have hOne : u = 1 := by
        by_contra hOther
        exact hNe (if_neg hOther)
      have hNil :
          (LogHistory.start (C := C) (n := n)).leaderLog t =
            [] :=
        if_neg (by omega)
      exact absurd hNil hOwns.ne_nil
    · intro t e hMem
      change e ∈ (if t = 1 then [startEntry] else []) at hMem
      split at hMem
      · next hOne =>
          rw [List.mem_singleton] at hMem
          rw [hMem, hOne]
          exact le_refl _
      · cases hMem
  covers := by
    intro j u t m _ _ hAccepted
    rcases hAccepted with
      ⟨args, reply, hMem, _⟩ | ⟨hWon, _⟩ | ⟨rfl, _⟩
    · cases hMem
    · cases hWon
    · exact Or.inl rfl
  campaigns := by
    intro i hCampaigns
    cases hCampaigns.1

variable {c : Cluster C n}
variable {g : LogHistory C n}

/- The term of an entry was won, or it is the first term. -/
theorem won_of_entry
    (hLed : LogsLed c g)
    {i : Fin n}
    {e : LogEntry C}
    (hMem : e ∈ g.full i)
    (hTerm : 1 < e.term) :
    ∃ j, c.Won j e.term := by
  by_contra hNone
  rcases List.mem_iff_getElem?.mp hMem with ⟨k, hEntry⟩
  have hTake := (hLed.led i).chained k e hEntry
  have hNil : g.leaderLog e.term = [] := by
    rw [hLed.unled _ (fun j hWon => hNone ⟨j, hWon⟩)]
    exact if_neg (by omega)
  rw [hNil, List.take_nil] at hTake
  have hIn : e ∈ (g.full i).take (k + 1) := by
    apply List.mem_of_getElem? (i := k)
    rw [List.getElem?_take_of_lt (by omega)]
    exact hEntry
  rw [hTake] at hIn
  cases hIn

variable [DecidableEq C]
variable {ok : Cluster C n → Fin n × Event C n → Prop}

/-
  The run conditions for the safety of leaders: elections
  are won by servers that still campaign, and fix packages
  start where the follower's log agrees.
-/
structure ElectionsKept
    (ok : Cluster C n → Fin n × Event C n → Prop) :
    Prop extends ReplicationKept ok where
  takes :
    ∀ c a, ok c a →
      (c.nodes a.1).takesMatchingFix a.2 = true
  candidacies :
    ∀ c a, ok c a →
      (c.nodes a.1).winsOwnCandidacy a.2 = true

/- The winner of a term has left a majority in it. -/
theorem majority_of_won
    (hKept : ReplicationKept ok)
    (hReach : (system C n).Reachable ok c)
    {i : Fin n}
    {t : Int}
    (hWon : c.Won i t) :
    ∃ Q, Majority Q ∧
      ∀ j ∈ Q, t ≤ (c.nodes j).rf.currentTerm := by
  rcases electionsBacked_of_reachable hKept.wins hReach i t
    hWon with ⟨Q, hQ, hAll⟩
  refine ⟨Q, hQ, ?_⟩
  intro j hj
  exact vote_term_le hReach (hAll j hj)

namespace HistoryStep

variable {i : Fin n}
variable {event : Event C n}
variable {nd' : Node C n}
variable {effects : List (Effect C n)}

/- The log of a candidate does not change. -/
theorem full_of_candiate
    (hStep : HistoryStep ok c g i event nd' effects)
    (hKept : LogsKept ok)
    (hCandiate : nd'.rf.state = .candiate) :
    (g.after i event (c.nodes i).rf nd'.rf).full i =
      g.full i := by
  rw [full_self]
  have hFull := ((hStep.led hKept).fullAfter
    (persisted hStep.reach i) hStep.deliver hStep.node
    (hKept.fixes c _ hStep.accepted)).step
  generalize g.fullAfter (c.nodes i).rf nd'.rf i event = full
    at hFull ⊢
  cases hFull with
  | same => rfl
  | extended e hLeader =>
      rw [hCandiate] at hLeader
      cases hLeader
  | appended args hEvent hFollower =>
      rw [hCandiate] at hFollower
      cases hFollower
  | reset args hEvent hFollower =>
      rw [hCandiate] at hFollower
      cases hFollower

/- Who has moved on does not vote in the old term. -/
theorem blocked
    (hStep : HistoryStep ok c g i event nd' effects)
    {k : Fin n}
    (hTerm :
      ((c.after i nd' effects).nodes k).rf.currentTerm =
        (c.nodes k).rf.currentTerm)
    (hBlocked : c.Blocked k) :
    (c.after i nd' effects).Blocked k := by
  rcases hBlocked with ⟨Q, hQ, hAll⟩
  refine ⟨Q, hQ, ?_⟩
  intro j hj
  rcases hAll j hj with ⟨hLt, hNot⟩
  have hMono := hStep.term_le j
  rw [hTerm]
  refine ⟨by omega, ?_⟩
  intro hVoted
  rcases mem_after_trace.mp hVoted with hOld | ⟨rfl, hNew⟩
  · exact hNot hOld
  · have hNow := hStep.raftStep.term_of_vote hNew
    rw [after_nodes_self] at hMono
    omega

/-
  A granted vote: the log of the candidate covers what the
  voter has accepted.
-/
theorem covers_of_vote
    (hStep : HistoryStep ok c g i event nd' effects)
    (hKept : LogsKept ok)
    (hSound : (c.replication g).Sound)
    (hCovers :
      ∀ u, (c.replication g).Covers (g.full i) i u)
    {k : Fin n}
    {args : RequestVoteArgs}
    {reply : RequestVoteReply}
    {u : Int}
    (hGranted : reply.voteGranted = true)
    (hCase : (c.nodes i).rf.RequestVoteCase args nd'.rf reply)
    (hDescribes : args.Describes (g.full k)) :
    (c.replication g).Covers (g.full k) i u := by
  have hLed := hStep.led hKept
  rcases hLed.holds i with ⟨b, hSuffix, _⟩
  rcases hDescribes with ⟨hLength, hLast⟩
  generalize nd'.rf = rf' at hCase
  cases hCase with
  | stale => cases hGranted
  | refused => cases hGranted
  | granted _ len lastTerm hLen hLastTerm hUpToDate =>
      rw [hSuffix.globalLogLen, Option.some.injEq] at hLen
      rw [hSuffix.lastLogTerm] at hLastTerm
      rcases termAt_eq_some_iff.mp hLastTerm with
        ⟨e, hEntry, hTerm⟩
      rcases termAt_eq_some_iff.mp hLast with
        ⟨e', hEntry', hTerm'⟩
      apply Replication.covers_of_upToDate hSound
        (hLed.led i).chained (hLed.led k).chained hEntry
        hEntry' _ (hCovers u)
      change e.term < e'.term ∨
        (e.term = e'.term ∧
          (g.full i).length ≤ (g.full k).length)
      simp only [Raft.isUpToDate, Bool.or_eq_true,
        Bool.and_eq_true, decide_eq_true_eq] at hUpToDate
      omega

/- What is newly accepted is in the log of the server. -/
theorem accepted_cases
    (hStep : HistoryStep ok c g i event nd' effects)
    (hKept : ElectionsKept ok)
    {j : Fin n}
    {t : Int}
    {m : Nat}
    (hAccepted :
      (c.after i nd' effects).Accepted
        (g.after i event (c.nodes i).rf nd'.rf) j t m) :
    c.Accepted g j t m ∨
      (j = i ∧
        ((g.after i event (c.nodes i).rf nd'.rf).full
          i).take m =
        ((g.after i event (c.nodes i).rf nd'.rf).leaderLog
          t).take m) := by
  have hGrows := hStep.grows hKept.toLogsKept
  have hLed := hStep.led hKept.toLogsKept
  have hLed' := hStep.led_after hKept.toLogsKept
  rcases hAccepted with
    ⟨args, reply, hMem, hSuccess, hTerm, hLe⟩ |
    ⟨hWon, hLe⟩ | hStart
  · rcases mem_after_trace.mp hMem with hOld | ⟨rfl, hNew⟩
    · exact Or.inl
        (Or.inl ⟨args, reply, hOld, hSuccess, hTerm, hLe⟩)
    · right
      have hTake := hStep.acked_new hKept.toLogsKept
        (hKept.takes c _ hStep.accepted) hNew hSuccess hLe
      rcases ack_of_effect hStep.raftStep hNew hSuccess with
        ⟨rfl, _, _⟩
      rcases deliverable_appendEntries.mp hStep.deliver with
        ⟨k, hSent⟩
      rcases (hLed.appends k j args hSent).append_eq with
        ⟨_, l, _, _, hLength, hEnd, _⟩
      refine ⟨rfl, ?_⟩
      rw [full_self, hTake, ← hTerm]
      exact (hGrows.take_eq (by omega)).symm
  · by_cases hOwn : j = i ∧ nd'.rf.state = .leader ∧
        nd'.rf.currentTerm = t
    · right
      rcases hOwn with ⟨rfl, hLeader, hTerm⟩
      refine ⟨rfl, ?_⟩
      rw [hLed'.leader j t]
      unfold LeaderOf
      rw [after_nodes_self]
      exact ⟨hLeader, hTerm⟩
    · left
      have hSame : (g.after i event (c.nodes i).rf
          nd'.rf).leaderLog t = g.leaderLog t := by
        by_cases hLeader : nd'.rf.state = .leader
        · apply hStep.leaderLog_eq hKept.toLogsKept hWon
          intro hj hTerm
          exact hOwn ⟨hj, hLeader, hTerm⟩
        · exact LogHistory.leaderLogAfter_other
            (fun h => absurd h hLeader)
      rw [hSame] at hLe
      refine Or.inr (Or.inl ⟨?_, hLe⟩)
      rcases mem_after_trace.mp hWon with hOld | ⟨rfl, hNew⟩
      · exact hOld
      · exfalso
        exact hOwn
          ⟨rfl, hStep.raftStep.leader_of_elected hNew⟩
  · exact Or.inl (Or.inr (Or.inr hStart))

/- A log that is cut still has what the server accepted. -/
theorem covers_before
    (hStep : HistoryStep ok c g i event nd' effects)
    (hKept : ElectionsKept ok)
    (hNumbered : c.Numbered g)
    (hComplete : c.Complete g)
    (u : Int) :
    (c.replication g).Covers
      ((g.after i event (c.nodes i).rf nd'.rf).full i)
      i u := by
  have hCovers := hComplete.covers i u
  -- the leader that cuts the log is of this term or later
  have hCut :
      ∀ {t : Int} {k : Nat},
        (c.nodes i).rf.currentTerm ≤ t →
        g.leaderLog t ≠ [] →
        (k < (g.full i).length →
          (g.full i).take k ≠ (g.leaderLog t).take k) →
        (c.replication g).Covers ((g.leaderLog t).take k)
          i u := by
    intro t k hLe hNe hLoses
    apply hCovers.cut (hComplete.sound.safe t hNe) _ hLoses
    intro t' m hAccepted
    have hBound := (Accepted.bounds hKept.toReplicationKept
      hStep.history hAccepted).2
    omega
  rcases hStep.logChange hKept.toLogsKept
    (hKept.takes c _ hStep.accepted) hNumbered with
    ⟨b, b', hSuffix, hNew, hChange⟩
  generalize (g.after i event (c.nodes i).rf nd'.rf).full i =
    full at hNew hChange ⊢
  cases hChange with
  | kept => exact hCovers
  | extended e =>
      intro t m hLt hOwns hAccepted
      rcases hCovers t m hLt hOwns hAccepted with
        hTake | hDead
      · left
        have hLe := Replication.le_length_of_take_eq hTake
          hOwns.le_length
        rw [List.take_append_of_le_length hLe]
        exact hTake
      · exact Or.inr hDead
  | compacted => exact hCovers
  | stored args hEvent p k hStored =>
      apply hCut hStored.term_le _ hStored.loses
      intro hNil
      have hEnd := hStored.end_le
      have hStart := hStored.start_lt
      rw [hNil, List.length_nil] at hEnd
      omega
  | installed => exact hCovers
  | reset args hEvent _ hInstalls hLt hDiffer =>
      apply hCut hInstalls.term_le _ (fun _ => hDiffer)
      intro hNil
      rw [hNil] at hLt
      cases hLt

theorem covers_after
    (hStep : HistoryStep ok c g i event nd' effects)
    (hKept : ElectionsKept ok)
    (hNumbered : c.Numbered g)
    (hComplete : c.Complete g)
    (j : Fin n)
    (u : Int) :
    ((c.after i nd' effects).replication
      (g.after i event (c.nodes i).rf nd'.rf)).Covers
        ((g.after i event (c.nodes i).rf nd'.rf).full j)
        j u := by
  have hRep := hStep.replication_step hKept.toLogsKept
  intro t m hLt hOwns hAccepted
  rcases hStep.accepted_cases hKept hAccepted with
    hOld | ⟨rfl, hTake⟩
  · have hLe := (Accepted.bounds hKept.toReplicationKept
      hStep.history hOld).1
    have hOwns' := hRep.owns_of_le hOwns hLe
    apply hRep.take_eq hLe
    by_cases hj : j = i
    · subst hj
      exact hStep.covers_before hKept hNumbered hComplete u
        t m hLt hOwns' hOld
    · rw [full_other hj]
      exact hComplete.covers j u t m hLt hOwns' hOld
  · exact Or.inl hTake

------------------------------------------------------------
-- Campaigns After A Step
------------------------------------------------------------

/- A campaign that goes on. -/
theorem campaign_kept
    (hStep : HistoryStep ok c g i event nd' effects)
    (hKept : ElectionsKept ok)
    (hComplete : c.Complete g)
    {k : Fin n}
    (hTerm :
      ((c.after i nd' effects).nodes k).rf.currentTerm =
        (c.nodes k).rf.currentTerm)
    (hFull :
      (g.after i event (c.nodes i).rf nd'.rf).full k =
        g.full k)
    (hCampaign : c.Campaign g k) :
    (c.after i nd' effects).Campaign
      (g.after i event (c.nodes i).rf nd'.rf) k := by
  have hRep := hStep.replication_step hKept.toLogsKept
  have hRequested := requested_of_reachable hStep.reach
  -- a server that starts an election changes its term
  have hNoStart :
      ∀ args, k = i →
        (c.nodes i).rf.electionStart ≠
          some (nd'.rf, args) := by
    rintro args rfl hStart
    rcases Raft.electionStart_spec hStart with ⟨hRf, _⟩
    rw [after_nodes_self, hRf] at hTerm
    change (c.nodes k).rf.currentTerm + 1 =
      (c.nodes k).rf.currentTerm at hTerm
    omega
  constructor
  · intro j args hMem hArgs
    rw [hTerm] at hArgs
    rw [hFull]
    rcases mem_after_trace.mp hMem with hOld | ⟨hk, hNew⟩
    · exact hCampaign.asked j args hOld hArgs
    · exact absurd (hStep.raftStep.request_of_effect hNew)
        (hNoStart args hk)
  · intro j hVoted
    have hReached := vote_term_le hStep.reach_after hVoted
    rw [hTerm] at hVoted hReached
    rw [hTerm, hFull]
    apply hRep.covers _ hReached
    · rcases mem_after_trace.mp hVoted with
        hOld | ⟨rfl, hNew⟩
      · exact hCampaign.voters j hOld
      · rcases hStep.raftStep.vote_cases hNew with
          ⟨args, reply, hEvent, hArgs, hName, hGranted,
            hCase⟩ | ⟨args, hName, _, hStart⟩
        · subst hEvent
          rcases deliverable_requestVote.mp hStep.deliver
            with ⟨x, hSent⟩
          have hSigned := (hRequested.signed x j args
            hSent).1
          have hx : x = k := by
            apply Fin.ext
            omega
          subst hx
          exact hStep.covers_of_vote hKept.toLogsKept
            hComplete.sound (hComplete.covers j) hGranted
            hCase (hCampaign.asked j args hSent hArgs.symm)
        · rw [me_eq hStep.reach j] at hName
          have hk : k = j := by
            apply Fin.ext
            omega
          exact absurd hStart (hNoStart args hk)
    · intro t m hAccepted
      exact (Accepted.bounds hKept.toReplicationKept
        hStep.history hAccepted).1
  · rw [hTerm, hFull]
    rcases hCampaign.terms with hTerms | hBlocked
    · exact Or.inl hTerms
    · exact Or.inr (hStep.blocked hTerm hBlocked)

/-
  Nobody has voted for a server in the term it starts, so it
  is blocked if a later term has been won.
-/
theorem blocked_of_start
    (hStep : HistoryStep ok c g i event nd' effects)
    (hKept : ReplicationKept ok)
    {args : RequestVoteArgs}
    (hStart :
      (c.nodes i).rf.electionStart = some (nd'.rf, args))
    {k : Fin n}
    {t : Int}
    (hWon : c.Won k t)
    (hLater : nd'.rf.currentTerm < t) :
    (c.after i nd' effects).Blocked i := by
  have hTerm : nd'.rf.currentTerm =
      (c.nodes i).rf.currentTerm + 1 := by
    rw [(Raft.electionStart_spec hStart).1]
    rfl
  rcases majority_of_won hKept hStep.reach hWon with
    ⟨Q, hQ, hAll⟩
  refine ⟨Q, hQ, ?_⟩
  intro j hj
  have hReached := hAll j hj
  have hMono := hStep.term_le j
  rw [after_nodes_self]
  refine ⟨by omega, ?_⟩
  intro hVoted
  rcases mem_after_trace.mp hVoted with hOld | ⟨rfl, _⟩
  · have hLe := voted_le hStep.reach hOld
    omega
  · omega

/- A campaign that begins. -/
theorem campaign_started
    (hStep : HistoryStep ok c g i event nd' effects)
    (hKept : ElectionsKept ok)
    (hNumbered : c.Numbered g)
    (hComplete : c.Complete g)
    {args : RequestVoteArgs}
    (hStart :
      (c.nodes i).rf.electionStart = some (nd'.rf, args))
    (hFull :
      (g.after i event (c.nodes i).rf nd'.rf).full i =
        g.full i) :
    (c.after i nd' effects).Campaign
      (g.after i event (c.nodes i).rf nd'.rf) i := by
  have hLed := hStep.led hKept.toLogsKept
  have hTerm : nd'.rf.currentTerm =
      (c.nodes i).rf.currentTerm + 1 := by
    rw [(Raft.electionStart_spec hStart).1]
    rfl
  constructor
  · intro j args' hMem hArgs
    rw [after_nodes_self] at hArgs
    rw [hFull]
    rcases mem_after_trace.mp hMem with hOld | ⟨_, hNew⟩
    · have hLe := ((requested_of_reachable
        hStep.reach).signed i j args' hOld).2
      omega
    · rcases Raft.electionStart_spec
        (hStep.raftStep.request_of_effect hNew) with
        ⟨_, _, _, hLength, hLast⟩
      rcases hLed.holds i with ⟨b, hSuffix, _⟩
      rw [hSuffix.globalLogLen,
        Option.some.injEq] at hLength
      rw [hSuffix.lastLogTerm] at hLast
      exact ⟨hLength.symm, hLast⟩
  · intro j hVoted
    rw [after_nodes_self] at hVoted ⊢
    rcases mem_after_trace.mp hVoted with hOld | ⟨rfl, _⟩
    · -- nobody has voted for the server in its new term
      have hLe := voted_le hStep.reach hOld
      omega
    · exact hStep.covers_after hKept hNumbered hComplete j _
  · rw [after_nodes_self, hFull]
    by_cases hLate :
        ∀ e ∈ g.full i, e.term ≤ nd'.rf.currentTerm
    · exact Or.inl hLate
    · right
      simp only [not_forall] at hLate
      rcases hLate with ⟨e, hMem, hLater⟩
      have hPos := (ownElections_of_reachable hKept.wins
        hStep.reach i).term_pos
      rcases won_of_entry hLed hMem (by omega) with
        ⟨k, hWon⟩
      exact hStep.blocked_of_start hKept.toReplicationKept
        hStart hWon (not_le.mp hLater)

theorem campaign_after
    (hStep : HistoryStep ok c g i event nd' effects)
    (hKept : ElectionsKept ok)
    (hNumbered : c.Numbered g)
    (hComplete : c.Complete g)
    {k : Fin n}
    (hCampaigns :
      ((c.after i nd' effects).nodes k).Campaigns) :
    (c.after i nd' effects).Campaign
      (g.after i event (c.nodes i).rf nd'.rf) k := by
  by_cases hk : k = i
  · subst hk
    rw [after_nodes_self] at hCampaigns
    have hFull := hStep.full_of_candiate hKept.toLogsKept
      hCampaigns.1
    rcases Node.campaigns_cases hStep.node hCampaigns with
      ⟨_, _, args, _, _, hStart⟩ | ⟨hBefore, hTerm⟩
    · exact hStep.campaign_started hKept hNumbered hComplete
        hStart hFull
    · apply hStep.campaign_kept hKept hComplete _ hFull
        (hComplete.campaigns k hBefore)
      rw [after_nodes_self]
      exact hTerm
  · rw [after_nodes_of_ne hk] at hCampaigns
    apply hStep.campaign_kept hKept hComplete _
      (full_other hk) (hComplete.campaigns k hCampaigns)
    rw [after_nodes_of_ne hk]

------------------------------------------------------------
-- Leaders After A Step
------------------------------------------------------------

/- The winner of an election is safe. -/
theorem safe_of_win
    (hStep : HistoryStep ok c g i event nd' effects)
    (hKept : ElectionsKept ok)
    (hComplete : c.Complete g)
    {t : Int}
    (hMem : (.elected t : Effect C n) ∈ effects) :
    (c.replication g).Safe (g.full i) t ∧
      ∀ e ∈ g.full i, e.term ≤ t := by
  have hWins := hKept.candidacies c _ hStep.accepted
  rcases votes_of_win hStep.reach
    (hKept.wins c _ hStep.accepted) hStep.node hMem with
    ⟨Q, hQ, hVotes⟩
  rcases hStep.raftStep.win_of_elected hMem with
    ⟨rfl, k, token, ballot, rfl, hThread, hCandiate,
      hBallot⟩
  have hCampaign := hComplete.campaigns i
    (Node.campaigns_of_win hWins hThread hCandiate hBallot)
  constructor
  · apply Replication.safe_of_votes hQ
    · intro j hj
      exact vote_term_le hStep.reach (hVotes j hj)
    · intro j hj
      exact hCampaign.voters j (hVotes j hj)
  · rcases hCampaign.terms with hTerms | ⟨Q', hQ', hAll⟩
    · exact hTerms
    · rcases hQ.exists_common hQ' with ⟨j, hj, hj'⟩
      exact absurd (hVotes j hj) (hAll j hj').2

/- A server that leads has just won, or it led before. -/
theorem leader_cases
    (hStep : HistoryStep ok c g i event nd' effects)
    (hKept : LogsKept ok)
    (hLeader : nd'.rf.state = .leader) :
    (.elected nd'.rf.currentTerm : Effect C n) ∈ effects ∨
      c.LeaderOf i nd'.rf.currentTerm := by
  by_cases hWon :
      (.elected nd'.rf.currentTerm : Effect C n) ∈ effects
  · exact Or.inl hWon
  · right
    apply hStep.leader_before hKept hLeader
    intro t hMem
    have hTerm := (hStep.raftStep.leader_of_elected hMem).2
    rw [hTerm] at hWon
    exact hWon hMem

/- A leader log that was empty belongs to a new winner. -/
theorem elected_of_empty
    (hStep : HistoryStep ok c g i event nd' effects)
    (hKept : LogsKept ok)
    {t : Int}
    (hEmpty : g.leaderLog t = [])
    (hNe : (g.after i event (c.nodes i).rf
      nd'.rf).leaderLog t ≠ []) :
    (.elected t : Effect C n) ∈ effects := by
  have hLed := hStep.led hKept
  have hOwn : nd'.rf.state = .leader ∧
      nd'.rf.currentTerm = t := by
    by_contra hOther
    apply hNe
    rw [← hEmpty]
    apply LogHistory.leaderLogAfter_other
    intro hLeader hTerm
    exact hOther ⟨hLeader, hTerm⟩
  rcases hOwn with ⟨hLeader, rfl⟩
  rcases hStep.leader_cases hKept hLeader with hWon | hBefore
  · exact hWon
  · have hHead := (hLed.led i).head
    rw [← hLed.leader i _ hBefore, hEmpty] at hHead
    cases List.prefix_nil.mp hHead

/- A leader's log is kept, but for one more entry. -/
theorem full_of_leader
    (hStep : HistoryStep ok c g i event nd' effects)
    (hKept : LogsKept ok)
    (hLeader : nd'.rf.state = .leader) :
    ∃ rest,
      (g.after i event (c.nodes i).rf nd'.rf).leaderLog
        nd'.rf.currentTerm = g.full i ++ rest ∧
      ∀ e ∈ rest, e.term = nd'.rf.currentTerm := by
  have hOwn : (c.after i nd' effects).LeaderOf i
      nd'.rf.currentTerm := by
    unfold LeaderOf
    rw [after_nodes_self]
    exact ⟨hLeader, rfl⟩
  have hFull := ((hStep.led hKept).fullAfter
    (persisted hStep.reach i) hStep.deliver hStep.node
    (hKept.fixes c _ hStep.accepted)).step
  rw [(hStep.led_after hKept).leader i _ hOwn, full_self]
  generalize g.fullAfter (c.nodes i).rf nd'.rf i event =
    full at hFull ⊢
  cases hFull with
  | same =>
      refine ⟨[], (List.append_nil _).symm, ?_⟩
      intro e hMem
      cases hMem
  | extended new _ hTerm hNew =>
      refine ⟨[new], rfl, ?_⟩
      intro e hMem
      rw [List.mem_singleton] at hMem
      rw [hMem, hNew, hTerm]
  | appended args hEvent hFollower =>
      rw [hLeader] at hFollower
      cases hFollower
  | reset args hEvent hFollower =>
      rw [hLeader] at hFollower
      cases hFollower

/- Leader logs have no entries of later terms. -/
theorem leaderLog_term_le
    (hStep : HistoryStep ok c g i event nd' effects)
    (hKept : ElectionsKept ok)
    (hComplete : c.Complete g)
    {t : Int}
    {e : LogEntry C}
    (hMem : e ∈ (g.after i event (c.nodes i).rf
      nd'.rf).leaderLog t) :
    e.term ≤ t := by
  have hLed := hStep.led hKept.toLogsKept
  by_cases hOwn : nd'.rf.state = .leader ∧
      nd'.rf.currentTerm = t
  · rcases hOwn with ⟨hLeader, rfl⟩
    have hBefore : ∀ e ∈ g.full i,
        e.term ≤ nd'.rf.currentTerm := by
      rcases hStep.leader_cases hKept.toLogsKept hLeader with
        hWon | hLed'
      · exact (hStep.safe_of_win hKept hComplete hWon).2
      · rw [← hLed.leader i _ hLed']
        exact hComplete.sound.term_le _
    rcases hStep.full_of_leader hKept.toLogsKept hLeader with
      ⟨rest, hEq, hRest⟩
    rw [hEq] at hMem
    rcases List.mem_append.mp hMem with hOld | hNew
    · exact hBefore e hOld
    · exact le_of_eq (hRest e hNew)
  · have hSame : (g.after i event (c.nodes i).rf
        nd'.rf).leaderLog t = g.leaderLog t := by
      apply LogHistory.leaderLogAfter_other
      intro hLeader hTerm
      exact hOwn ⟨hLeader, hTerm⟩
    rw [hSame] at hMem
    exact hComplete.sound.term_le t e hMem

/- A term that has a log has a majority of servers. -/
theorem majority_of_leaderLog
    (hStep : HistoryStep ok c g i event nd' effects)
    (hKept : ElectionsKept ok)
    {u : Int}
    (hNe : (g.after i event (c.nodes i).rf
      nd'.rf).leaderLog u ≠ []) :
    ∃ Q, Majority Q ∧ ∀ j ∈ Q,
      u ≤ ((c.after i nd' effects).nodes
        j).rf.currentTerm := by
  by_cases hWon : ∃ j, (c.after i nd' effects).Won j u
  · rcases hWon with ⟨j, hWon⟩
    exact majority_of_won hKept.toReplicationKept
      hStep.reach_after hWon
  · -- only the first term has a log without a leader
    have hStart := (hStep.led_after hKept.toLogsKept).unled u
      (fun j h => hWon ⟨j, h⟩)
    have hOne : u = 1 := by
      by_contra hOther
      apply hNe
      rw [hStart]
      exact if_neg hOther
    refine ⟨Finset.univ, Majority.univ i.pos, ?_⟩
    intro j _
    rw [hOne]
    exact (ownElections_of_reachable hKept.wins
      hStep.reach_after j).term_pos

theorem sound_after
    (hStep : HistoryStep ok c g i event nd' effects)
    (hKept : ElectionsKept ok)
    (hComplete : c.Complete g) :
    ((c.after i nd' effects).replication
      (g.after i event (c.nodes i).rf nd'.rf)).Sound := by
  have hRep := hStep.replication_step hKept.toLogsKept
  constructor
  · intro u hNe
    have hBefore : ∃ log,
        log <+: (g.after i event (c.nodes i).rf
          nd'.rf).leaderLog u ∧
        (c.replication g).Safe log u := by
      by_cases hEmpty : g.leaderLog u = []
      · have hWon := hStep.elected_of_empty hKept.toLogsKept
          hEmpty hNe
        refine ⟨g.full i, ?_,
          (hStep.safe_of_win hKept hComplete hWon).1⟩
        rcases hStep.raftStep.leader_of_elected hWon with
          ⟨hLeader, rfl⟩
        rcases hStep.full_of_leader hKept.toLogsKept hLeader
          with ⟨rest, hEq, _⟩
        rw [hEq]
        exact List.prefix_append _ _
      · exact ⟨g.leaderLog u, hRep.grows u,
          hComplete.sound.safe u hEmpty⟩
    rcases hBefore with ⟨log, hExtends, hSafe⟩
    apply hRep.safe _ (hStep.majority_of_leaderLog hKept hNe)
      hExtends hSafe
    intro j t m hAccepted
    exact (Accepted.bounds hKept.toReplicationKept
      hStep.history hAccepted).1
  · intro t e hMem
    exact hStep.leaderLog_term_le hKept hComplete hMem

theorem complete
    (hStep : HistoryStep ok c g i event nd' effects)
    (hKept : ElectionsKept ok)
    (hNumbered : c.Numbered g)
    (hComplete : c.Complete g) :
    (c.after i nd' effects).Complete
      (g.after i event (c.nodes i).rf nd'.rf) where
  sound := hStep.sound_after hKept hComplete
  covers := hStep.covers_after hKept hNumbered hComplete
  campaigns := fun _ hCampaigns =>
    hStep.campaign_after hKept hNumbered hComplete hCampaigns

end HistoryStep

end Cluster

end RaftLab
