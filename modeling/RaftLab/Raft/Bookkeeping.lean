import RaftLab.Raft.Replies

/-
  What a leader knows about its followers.

  A successful reply says that the follower has the log of
  the leader up to the end of the request. The follower may
  lose this part of its log again, but as long as it stays
  in the term of the leader, what it holds there is what the
  leader has. So `matchIndex` is right about all followers
  in the leader's term.

  Main declarations:
    * `Node.takesMatchingFix`
    * `Raft.AppendEntriesCase.agrees`
    * `Cluster.AcksHeld`, `Cluster.acksHeld_of_history`
    * `Cluster.match_index_sound`
-/

------------------------------------------------------------
-- Acknowledged Logs
------------------------------------------------------------

namespace RaftLab

variable {C : Type} {n : Nat}

/- A fix package starts at an entry that both logs have. -/
def Node.takesMatchingFix
    (nd : Node C n) :
    Event C n → Bool
| .appendEntries args =>
    !nd.rf.takesFix args || nd.rf.hasPrevTerm args
| _ => true

theorem Node.fixesMatchingLog_of_takes
    {nd : Node C n}
    {event : Event C n}
    (hTakes : nd.takesMatchingFix event = true) :
    nd.fixesMatchingLog event = true := by
  cases event with
  | appendEntries args =>
      simp only [takesMatchingFix, Bool.or_eq_true] at hTakes
      simp only [fixesMatchingLog, Bool.or_eq_true]
      rcases hTakes with hNot | hHas
      · exact Or.inl (Or.inl hNot)
      · exact Or.inr hHas
  | _ => rfl

section Steps

variable {g : LogHistory C n}
variable {i : Fin n}
variable {rf rf' : Raft C n}
variable {b : Nat}

/-
  After a successful request the server has the leader's log
  up to the end of the request.
-/
theorem Raft.AppendEntriesCase.agrees
    {args : AppendEntriesArgs C}
    {reply : AppendEntriesReply}
    (hCase : rf.AppendEntriesCase args rf' reply)
    (hSuffix : rf.SuffixOf (g.full i) b)
    (hApplied : (b : Int) ≤ rf.lastApplied)
    (hArgs : AppendedFrom (g.leaderLog args.term) args)
    (hMatching :
      LogMatching (g.full i) (g.leaderLog args.term))
    (hFix :
      rf.takesFix args = true → rf.hasPrevTerm args = true)
    (hSuccess : reply.success = true)
    {m : Nat}
    (hEnd : (m : Int) ≤
      args.prevLogIndex + 1 + args.entries.length) :
    (g.fullAfter rf rf' i (.appendEntries args)).take m =
      (g.leaderLog args.term).take m := by
  rcases hCase.full_cases hSuffix hApplied hArgs hMatching
      (fun hTakes _ => hFix hTakes) with
    ⟨_, hEq, hCovered⟩ | ⟨_, _, k, _, hLe, hk, _, hEq⟩
  · -- the server had it before
    rcases hCovered hSuccess with ⟨hTakes, hPrefix⟩
    rcases hArgs with
      ⟨p, k, hLt, hLe, hPrev, hPrevTerm, hEntries⟩
    have hHas := hFix hTakes
    have hPosition : args.prevLogIndex = rf.lastApplied := by
      simp only [takesFix, Bool.and_eq_true,
        decide_eq_true_eq] at hTakes
      exact hTakes.2
    rw [hSuffix.hasPrevTerm_iff (by omega) hPrev] at hHas
    have hAll := hSuffix.take_of_prefixCheck
      (hPosition.symm.trans hPrev) (by omega) hMatching
      (hMatching p _ hHas hPrevTerm) hLt hLe hEntries hPrefix
    have hLength : args.entries.length = k - (p + 1) := by
      rw [hEntries, List.length_drop, List.length_take]
      omega
    have hm : m ≤ k := by omega
    have hTake := congrArg (List.take m) hAll
    rw [List.take_take, List.take_take,
      Nat.min_eq_left hm] at hTake
    rw [hEq]
    exact hTake
  · rw [hEq, List.take_take, Nat.min_eq_left (by omega)]

end Steps

------------------------------------------------------------
-- What Servers Hold
------------------------------------------------------------

namespace Cluster

/- Server `j` acknowledged the first `m` entries of term `t`. -/
def Acked
    (c : Cluster C n)
    (j : Fin n)
    (t : Int)
    (m : Nat) : Prop :=
  ∃ args reply, (j, .appendReply args reply) ∈ c.trace ∧
    reply.success = true ∧ args.term = t ∧
    (m : Int) ≤ args.prevLogIndex + 1 + args.entries.length

/-
  What a server acknowledged in its term and still holds is
  in the log of the leader of that term.
-/
def AcksHeld
    (c : Cluster C n)
    (g : LogHistory C n) : Prop :=
  ∀ j m, c.Acked j (c.nodes j).rf.currentTerm m →
    ∀ b : Nat, (c.nodes j).rf.SuffixOf (g.full j) b →
      ∀ (k : Nat) (e : LogEntry C), b < k → k < m →
        (g.full j)[k]? = some e →
          (g.leaderLog (c.nodes j).rf.currentTerm)[k]? =
            some e

variable [DecidableEq C]
variable {ok : Cluster C n → Fin n × Event C n → Prop}
variable {c : Cluster C n}
variable {g : LogHistory C n}

namespace HistoryStep

variable {i : Fin n}
variable {event : Event C n}
variable {nd' : Node C n}
variable {effects : List (Effect C n)}

/-
  What a server holds after a step it held before, or it is
  in the log of the leader of the server's term.
-/
theorem held_cases
    (hStep : HistoryStep ok c g i event nd' effects)
    (hKept : LogsKept ok)
    {b' k : Nat}
    {e : LogEntry C}
    (hAfter : nd'.rf.SuffixOf
      (g.fullAfter (c.nodes i).rf nd'.rf i event) b')
    (hLt : b' < k)
    (hEntry :
      (g.fullAfter (c.nodes i).rf nd'.rf i event)[k]? =
        some e) :
    (∃ b : Nat, (c.nodes i).rf.SuffixOf (g.full i) b ∧
      b < k ∧ (g.full i)[k]? = some e) ∨
    ((g.after i event (c.nodes i).rf nd'.rf).leaderLog
      nd'.rf.currentTerm)[k]? = some e := by
  have hLed := hStep.led hKept
  have hFix := hKept.fixes c _ hStep.accepted
  rcases hLed.holds i with ⟨b, hSuffix, hApplied⟩
  rcases hStep.raftStep.full_cases
      (persisted hStep.reach i) hSuffix hApplied
      (hLed.led i).indexed with
    ⟨args, reply, rfl, rfl, hCase⟩ |
    ⟨args, reply, rfl, hCase⟩ | ⟨hLeader, _⟩ |
    ⟨hEq, d, hLe, _, hNew⟩
  · rcases deliverable_appendEntries.mp hStep.deliver with
      ⟨j, hSent⟩
    rcases hCase.full_cases hSuffix hApplied
        (hLed.appends j i args hSent) (hLed.matching i _)
        (by
          intro hTakes hDiffer
          simpa [Node.fixesMatchingLog, hTakes, hDiffer]
            using hFix) with
      ⟨hNew, hEq, _⟩ |
      ⟨hSuccess, _, m, _, hLength, _, hNew, hEq⟩
    · left
      have hb := hNew.cut_unique hAfter
      rw [hEq] at hEntry
      exact ⟨b, hSuffix, by omega, hEntry⟩
    · right
      have hTerm := (ack_of_effect hStep.raftStep
        (List.mem_singleton_self _) hSuccess).2.1
      rw [hEq] at hEntry
      rw [hTerm]
      apply getElem?_of_extends (hStep.grows hKept args.term)
      exact getElem?_of_extends (List.take_prefix _ _) hEntry
  · rcases deliverable_installSnapshot.mp hStep.deliver with
      ⟨j, hSent⟩
    rcases hCase.full_cases hSuffix
        (hLed.snapshots j i args hSent)
        (hLed.matching i _) with
      ⟨hSame, hEq⟩ |
      ⟨d, _, hLength, _, _,
        ⟨hLe, _, hNew, hEq⟩ | ⟨_, hNew, hEq⟩⟩
    · left
      rw [hSame] at hAfter
      have hb := hSuffix.cut_unique hAfter
      rw [hEq] at hEntry
      exact ⟨b, hSuffix, by omega, hEntry⟩
    · left
      have hb := hNew.cut_unique hAfter
      rw [hEq] at hEntry
      exact ⟨b, hSuffix, by omega, hEntry⟩
    · -- nothing follows the snapshot
      have hb := hNew.cut_unique hAfter
      rw [hEq] at hEntry
      have hShort := (List.getElem?_eq_some_iff.mp hEntry).1
      rw [List.length_take] at hShort
      omega
  · right
    have hOwn := (hStep.led_after hKept).leader i
      nd'.rf.currentTerm (by
        unfold LeaderOf
        rw [after_nodes_self]
        exact ⟨hLeader, rfl⟩)
    rw [hOwn, full_self]
    exact hEntry
  · left
    have hb := hNew.cut_unique hAfter
    rw [hEq] at hEntry
    exact ⟨b, hSuffix, by omega, hEntry⟩

/- A server has what it just acknowledged. -/
theorem acked_new
    (hStep : HistoryStep ok c g i event nd' effects)
    (hKept : LogsKept ok)
    (hTakes : (c.nodes i).takesMatchingFix event = true)
    {args : AppendEntriesArgs C}
    {reply : AppendEntriesReply}
    (hMem : (.appendReply args reply : Effect C n) ∈ effects)
    (hSuccess : reply.success = true)
    {m : Nat}
    (hEnd : (m : Int) ≤
      args.prevLogIndex + 1 + args.entries.length) :
    (g.fullAfter (c.nodes i).rf nd'.rf i event).take m =
      (g.leaderLog args.term).take m := by
  have hLed := hStep.led hKept
  rcases hLed.holds i with ⟨b, hSuffix, hApplied⟩
  rcases ack_of_effect hStep.raftStep hMem hSuccess with
    ⟨rfl, _, hCase⟩
  rcases deliverable_appendEntries.mp hStep.deliver with
    ⟨j, hSent⟩
  apply hCase.agrees hSuffix hApplied
    (hLed.appends j i args hSent) (hLed.matching i _) _
    hSuccess hEnd
  intro hFix
  simpa [Node.takesMatchingFix, hFix] using hTakes

end HistoryStep

theorem acksHeld_of_history
    (hKept : LogsKept ok)
    (hTakes :
      ∀ c a, ok c a →
        (c.nodes a.1).takesMatchingFix a.2 = true)
    {p : Cluster C n × LogHistory C n}
    (hReach : (logSystem C n).Reachable
      (fun p a => ok p.1 a) p) :
    p.1.AcksHeld p.2 := by
  refine history_induct
    (P := fun c g => c.AcksHeld g) ?_ ?_ hReach
  · rintro j m ⟨args, reply, hMem, _⟩
    cases hMem
  · intro c g i event nd' effects hStep ih j m hAcked b'
      hSuffix k e hLt hBelow hEntry
    have hGrows := hStep.grows hKept
    rcases hAcked with
      ⟨args, reply, hMem, hSuccess, hTerm, hEnd⟩
    by_cases hj : j = i
    · subst hj
      rw [after_nodes_self] at hSuffix hTerm ⊢
      rw [HistoryStep.full_self] at hSuffix hEntry
      rcases mem_after_trace.mp hMem with hOld | ⟨_, hNew⟩
      · rcases hStep.held_cases hKept hSuffix hLt hEntry with
          ⟨b, hBefore, hLtB, hEntryB⟩ | hOwn
        · -- the server has not left its term
          have hBacked := (acksBacked_of_reachable
            hStep.reach j args reply hOld hSuccess).1
          have hMono := hStep.term_le j
          rw [after_nodes_self] at hMono
          have hSame : (c.nodes j).rf.currentTerm =
              nd'.rf.currentTerm := by
            omega
          have hIn := ih j m
            ⟨args, reply, hOld, hSuccess, by omega, hEnd⟩ b
            hBefore k e hLtB hBelow hEntryB
          rw [hSame] at hIn
          exact getElem?_of_extends (hGrows _) hIn
        · exact hOwn
      · have hTake := hStep.acked_new hKept
          (hTakes c _ hStep.accepted) hNew hSuccess hEnd
        rw [getElem?_of_take_eq hTake hBelow,
          hTerm] at hEntry
        exact getElem?_of_extends (hGrows _) hEntry
    · rw [after_nodes_of_ne hj] at hSuffix hTerm ⊢
      rw [HistoryStep.full_other hj] at hSuffix hEntry
      rcases mem_after_trace.mp hMem with hOld | ⟨hSelf, _⟩
      · exact getElem?_of_extends (hGrows _) (ih j m
          ⟨args, reply, hOld, hSuccess, hTerm, hEnd⟩ b'
          hSuffix k e hLt hBelow hEntry)
      · exact absurd hSelf hj

end Cluster

------------------------------------------------------------
-- Match Indices
------------------------------------------------------------

/-
  What the leader `rf` has noted about peer `j`, whose state
  is `peer`, is true: its own log reaches that far, and up
  to there the two hold the same entries.
-/
def Raft.NotesHold
    (rf : Raft C n)
    (j : Fin n)
    (peer : Raft C n) : Prop :=
  ∃ len, rf.globalLogLen = some len ∧
    rf.matchIndex j < len ∧
    (1 ≤ rf.matchIndex j →
      ∀ p d d', p ≤ rf.matchIndex j →
        rf.heldAt p = some d → peer.heldAt p = some d' →
          d.term = d'.term ∧ d.command = d'.command)

namespace Cluster

variable [DecidableEq C]
variable {ok : Cluster C n → Fin n × Event C n → Prop}
variable {c : Cluster C n}
variable {g : LogHistory C n}

/-
  No goroutine acts on a term that is not its own, and no
  fix package is taken whose start the follower does not
  have.
-/
def keepsBooks
    (c : Cluster C n)
    (a : Fin n × Event C n) : Bool :=
  (c.nodes a.1).freshElection a.2 &&
    (c.nodes a.1).buildsAsLeader a.2 &&
      (c.nodes a.1).countsOwnReplies a.2 &&
        (c.nodes a.1).takesMatchingFix a.2

def KeepsBooks
    (c : Cluster C n)
    (a : Fin n × Event C n) : Prop :=
  c.keepsBooks a = true

omit [DecidableEq C] in
theorem keepsBooks_iff
    {a : Fin n × Event C n} :
    KeepsBooks c a ↔
      (c.nodes a.1).leaderKeepsTerm a.2 = true ∧
      (c.nodes a.1).winsOwnTerm a.2 = true ∧
      (c.nodes a.1).buildsAsLeader a.2 = true ∧
      (c.nodes a.1).countsOwnReplies a.2 = true ∧
      (c.nodes a.1).takesMatchingFix a.2 = true := by
  simp only [KeepsBooks, keepsBooks, Node.freshElection,
    Bool.and_eq_true, and_assoc]

theorem replicationKept_keepsBooks :
    ReplicationKept (KeepsBooks (C := C) (n := n)) := by
  have hWins :
      ∀ (c : Cluster C n) (a : Fin n × Event C n),
        KeepsBooks c a →
          (c.nodes a.1).winsOwnTerm a.2 = true := by
    intro c a hOk
    exact (keepsBooks_iff.mp hOk).2.1
  refine
    { keeps := fun c a hOk => (keepsBooks_iff.mp hOk).1
      builds := fun c a hOk => (keepsBooks_iff.mp hOk).2.2.1
      fixes := fun c a hOk => Node.fixesMatchingLog_of_takes
        (keepsBooks_iff.mp hOk).2.2.2.2
      fresh := ?_
      wins := hWins }
  intro c c' i event nd' effects t hReach hOk hStep hNode
    hMem j
  exact not_elected_before_win hWins hReach hOk hStep hNode
    hMem

/- What is noted of a peer was accepted by it. -/
omit [DecidableEq C] in
theorem Matched.accepted
    (hMatched : c.Matched g)
    {i j : Fin n}
    {t : Int}
    (hLeader : c.LeaderOf i t)
    (hPos : 1 ≤ (c.nodes i).rf.matchIndex j) :
    c.Accepted g j t
      (((c.nodes i).rf.matchIndex j).toNat + 1) := by
  apply hMatched i t hLeader j
  · omega
  · omega

/-
  Two servers hold the same entries where the peer has
  acknowledged the leader's log.
-/
omit [DecidableEq C] in
theorem AcksHeld.heldAt_eq
    (hHeld : c.AcksHeld g)
    (hLed : LogsLed c g)
    {i j : Fin n}
    {t p : Int}
    {m : Nat}
    (hLeader : c.LeaderOf i t)
    (hTerm : (c.nodes j).rf.currentTerm = t)
    (hAcked : c.Acked j t m)
    (hLt : p < (m : Int))
    {d d' : LogEntry C}
    (hOwn : (c.nodes i).rf.heldAt p = some d)
    (hPeer : (c.nodes j).rf.heldAt p = some d') :
    d = d' := by
  rcases hLed.holds i with ⟨b, hSuffix, _⟩
  rcases hLed.holds j with ⟨b', hSuffix', _⟩
  rcases hSuffix.getElem?_of_heldAt hOwn with
    ⟨k, rfl, hEntry⟩
  rcases hSuffix'.getElem?_of_heldAt hPeer with
    ⟨k', hk, hEntry'⟩
  have hSame : k' = k := by omega
  subst hSame
  rw [← hTerm] at hAcked
  have hAbove := hSuffix'.lt_of_heldAt hPeer
  have hIn := hHeld j m hAcked b' hSuffix' k' d' hAbove
    (by omega) hEntry'
  rw [hTerm, hLed.leader i t hLeader, hEntry] at hIn
  exact Option.some.inj hIn

/-
  What a leader has noted about the peers in its term is
  true, in every run that keeps the books.
-/
theorem match_index_sound
    (hReach : (system C n).Reachable KeepsBooks c)
    {i j : Fin n}
    {t : Int}
    (hLeader : c.LeaderOf i t)
    (hTerm : (c.nodes j).rf.currentTerm = t) :
    (c.nodes i).rf.NotesHold j (c.nodes j).rf := by
  have hKept := replicationKept_keepsBooks (C := C) (n := n)
  rcases hReach.exists_history LogHistory.start
      LogHistory.record with ⟨g, hHistory⟩
  have hLed : LogsLed c g :=
    logsLed_of_reachable hKept.toLogsKept hHistory
  have hMatched : c.Matched g :=
    matched_of_history hKept.toLogsKept
      (fun c a hOk => (keepsBooks_iff.mp hOk).2.2.2.1)
      hHistory
  have hHeld : c.AcksHeld g :=
    acksHeld_of_history hKept.toLogsKept
      (fun c a hOk => (keepsBooks_iff.mp hOk).2.2.2.2)
      hHistory
  rcases hLed.holds i with ⟨b, hSuffix, _⟩
  have hOwnLog := hLed.leader i t hLeader
  refine ⟨_, hSuffix.globalLogLen, ?_, ?_⟩
  · by_cases hPos : 1 ≤ (c.nodes i).rf.matchIndex j
    · have hBound := (Accepted.bounds hKept hHistory
        (hMatched.accepted hLeader hPos)).1
      rw [hOwnLog] at hBound
      omega
    · have hLt := hSuffix.lt_length
      omega
  · intro hPos p d d' hLe hOwn hPeer
    rcases hMatched.accepted hLeader hPos with
      hAcked | ⟨hWon, _⟩ | ⟨_, hNone⟩
    · have hEq := hHeld.heldAt_eq hLed hLeader hTerm hAcked
        (by omega) hOwn hPeer
      rw [hEq]
      exact ⟨rfl, rfl⟩
    · -- the peer is the leader itself
      have hElected := leadersElected_of_reachable
        hKept.keeps hReach i t hLeader
      have hSelf := hLed.won_unique i j t hElected hWon
      subst hSelf
      rw [hOwn, Option.some.injEq] at hPeer
      rw [hPeer]
      exact ⟨rfl, rfl⟩
    · omega

------------------------------------------------------------
-- Runs Of Five Servers
------------------------------------------------------------

/- A request of a candidate whose log ends in `lastTerm`. -/
def voteRequest
    (term candiate len lastTerm : Int) :
    RequestVoteArgs where
  term := term
  candiateId := candiate
  lastLogIndex := len
  lastLogTerm := lastTerm

/- The entries of server 0 in term 2. -/
def entriesOfTwo : List (LogEntry Nat) :=
  [{ term := 2, type := .noop, index := 1, command := none },
    { term := 2, type := .normal, index := 2,
      command := some 7 }]

/- A request of server 0 for `k` entries after index 0. -/
def requestOfTwo (k : Nat) : AppendEntriesArgs Nat where
  term := 2
  leaderId := 0
  prevLogIndex := 0
  prevLogTerm := 1
  entries := entriesOfTwo.take k
  leaderCommit := 0

/-
  Server 0 wins term 2. Server 2 takes the first entry of
  its log, then server 0 appends a command and server 1
  takes both. The reply has arrived at server 0, where a
  goroutine is about to count it.
-/
def repliedInTwo : List (Fin 5 × Event Nat 5) :=
  [(0, .tickerTimeout), (0, .run 0),
    (3, .requestVote (voteRequest 2 0 1 1)),
    (4, .requestVote (voteRequest 2 0 1 1)),
    (0, .voteReply 3 { term := 2, voteGranted := true }),
    (0, .voteReply 4 { term := 2, voteGranted := true }),
    (0, .run 0), (0, .run 0), (0, .run 0), (0, .run 0),
    (0, .run 0), (0, .run 0), (0, .run 0), (0, .run 0),
    (2, .appendEntries (requestOfTwo 1)),
    (0, .start (some 7)), (0, .run 4), (0, .run 0),
    (1, .appendEntries (requestOfTwo 2)),
    (0, .appendReply 0
      { term := 2, success := true, prevLogIndex := 0,
        prevLogTerm := 1, lastApplied := 1 })]

/- A request of server 2 for its entry of term 3. -/
def requestOfThree : AppendEntriesArgs Nat where
  term := 3
  leaderId := 2
  prevLogIndex := 1
  prevLogTerm := 2
  entries :=
    [{ term := 3, type := .noop, index := 2,
        command := none }]
  leaderCommit := 0

/-
  Server 2 wins term 3 and replaces the last entry of server
  0 by its own. Then server 0 wins term 4.
-/
def leadsAgain : List (Fin 5 × Event Nat 5) :=
  [(2, .tickerTimeout), (2, .run 0),
    (3, .requestVote (voteRequest 3 2 2 2)),
    (4, .requestVote (voteRequest 3 2 2 2)),
    (2, .voteReply 3 { term := 3, voteGranted := true }),
    (2, .voteReply 4 { term := 3, voteGranted := true }),
    (2, .run 0), (2, .run 0), (2, .run 0), (2, .run 0),
    (2, .run 0), (2, .run 0), (2, .run 0), (2, .run 0),
    (0, .appendEntries requestOfThree),
    (0, .tickerCancel), (0, .tickerTimeout), (0, .run 0),
    (1, .requestVote (voteRequest 4 0 3 3)),
    (3, .requestVote (voteRequest 4 0 3 3)),
    (0, .voteReply 1 { term := 4, voteGranted := true }),
    (0, .voteReply 3 { term := 4, voteGranted := true }),
    (0, .run 0), (0, .run 0), (0, .run 0), (0, .run 0),
    (0, .run 0)]

/-
  Whether server 0 leads term `t`, in which server 1 is too,
  and has noted `m` for it, where the two hold entries of
  terms `own` and `other` at index 2.
-/
def notes
    (c : Cluster Nat 5)
    (t m own other : Int) : Bool :=
  decide ((c.nodes 0).rf.state = .leader) &&
    decide ((c.nodes 0).rf.currentTerm = t) &&
    decide ((c.nodes 1).rf.currentTerm = t) &&
    decide ((c.nodes 0).rf.matchIndex 1 = m) &&
    ((c.nodes 0).rf.heldAt 2).any
      (fun e => decide (e.term = own)) &&
    ((c.nodes 1).rf.heldAt 2).any
      (fun e => decide (e.term = other))

theorem notes_iff
    {c : Cluster Nat 5}
    {t m own other : Int} :
    notes c t m own other = true ↔
      c.LeaderOf 0 t ∧ (c.nodes 1).rf.currentTerm = t ∧
      (c.nodes 0).rf.matchIndex 1 = m ∧
      (∃ e, (c.nodes 0).rf.heldAt 2 = some e ∧
        e.term = own) ∧
      ∃ e, (c.nodes 1).rf.heldAt 2 = some e ∧
        e.term = other := by
  simp only [notes, LeaderOf, Bool.and_eq_true,
    decide_eq_true_eq, Option.any_eq_true, and_assoc]

/-
  Server 0, leader of term 4, counts the reply of term 2 and
  notes 2 for server 1. At index 2 it holds the entry of
  term 3, and server 1 one of term 2.
-/
theorem late_reply_breaks_notes :
    ¬ ∀ c : Cluster Nat 5,
      (system Nat 5).Reachable System.always c →
        ∀ i j t, c.LeaderOf i t →
          (c.nodes j).rf.currentTerm = t →
            (c.nodes i).rf.NotesHold j (c.nodes j).rf := by
  intro hClaim
  have hExec :
      (((system Nat 5).exec
        (repliedInTwo ++ leadsAgain ++ [(0, .run 3)])
        (initial Nat 5)).any (fun c => notes c 4 2 3 2)) =
        true := by
    decide +kernel
  rcases System.exists_run_of_exec hExec with
    ⟨c, hRun, hNotes⟩
  rcases notes_iff.mp hNotes with
    ⟨hLeader, hTerm, hMatch, ⟨d, hd, hOwn⟩, d', hd', hOther⟩
  have hReach :=
    (initial_reachable System.always).trans hRun
  rcases hClaim c hReach 0 1 4 hLeader hTerm with
    ⟨_, _, _, hAgree⟩
  have hSame := (hAgree (by omega) 2 d d' (by omega) hd
    hd').1
  omega

/- In term 2 the reply is counted as it should be. -/
theorem match_index_sound_in_time :
    ∃ c : Cluster Nat 5,
      (system Nat 5).Reachable KeepsBooks c ∧
        (c.nodes 0).rf.matchIndex 1 = 2 ∧
        (c.nodes 0).rf.NotesHold 1 (c.nodes 1).rf := by
  have hExec :
      (((system Nat 5).execOk (fun c a => c.keepsBooks a)
        (repliedInTwo ++ [(0, .run 0)])
        (initial Nat 5)).any (fun c => notes c 2 2 2 2)) =
        true := by
    decide +kernel
  rcases System.exists_run_of_execOk hExec with
    ⟨c, hRun, hNotes⟩
  rcases notes_iff.mp hNotes with
    ⟨hLeader, hTerm, hMatch, _⟩
  have hReach : (system Nat 5).Reachable KeepsBooks c :=
    (initial_reachable KeepsBooks).trans hRun
  exact ⟨c, hReach, hMatch,
    match_index_sound hReach hLeader hTerm⟩

end Cluster

end RaftLab
