import RaftLab.Raft.CommitOrder

/-
  Terms that servers hear of.

  Six kinds of messages tell a server of a term. The handlers
  of `RequestVote` and `AppendEntries` adopt a higher one,
  but a higher term in an `InstallSnapshot` request or in any
  of the three replies only cancels goroutines or is passed
  over. In runs where those four carry no higher term, each
  higher term is adopted, and no entry of a log is newer than
  the server.

  Main declarations:
    * `Node.carriedTerm`, `Node.Adopts`
    * `Node.hearsNoHigherTerm`
    * `Cluster.TermsBounded`
    * `Cluster.higher_terms_adopted`
-/

------------------------------------------------------------
-- Messages And Terms
------------------------------------------------------------

namespace RaftLab

variable {C : Type} {n : Nat}

/-
  The term of the message that the event processes. A vote
  reply is dropped when its election was cancelled, and the
  other two replies are processed when their goroutine has
  the lock.
-/
def Node.carriedTerm
    (nd : Node C n) :
    Event C n → Option Int
| .requestVote args => some args.term
| .appendEntries args => some args.term
| .installSnapshot args => some args.term
| .voteReply k reply =>
    match nd.threads[k]? with
    | some (.requestVote token _ _) =>
        if nd.cancelToken token then none else some reply.term
    | _ => none
| .run k =>
    match nd.threads[k]? with
    | some (.appendReplied _ _ _ _ reply) => some reply.term
    | some (.installReplied _ _ _ reply) => some reply.term
    | _ => none
| _ => none

/- The state `rf'` after the event has adopted its term. -/
def Node.Adopts
    (nd : Node C n)
    (event : Event C n)
    (rf' : Raft C n) : Prop :=
  ∀ t, nd.carriedTerm event = some t →
    nd.rf.currentTerm < t →
      t ≤ rf'.currentTerm ∧ rf'.state = .follower

/-
  Other messages than vote and append requests carry no term
  above the server's own.
-/
def Node.hearsNoHigherTerm
    (nd : Node C n) :
    Event C n → Bool
| .requestVote _ => true
| .appendEntries _ => true
| event =>
    (nd.carriedTerm event).all
      (fun t => decide (t ≤ nd.rf.currentTerm))

theorem Raft.RequestVoteCase.adopts
    {rf rf' : Raft C n}
    {args : RequestVoteArgs}
    {reply : RequestVoteReply}
    (hCase : RequestVoteCase rf args rf' reply)
    (hHigher : rf.currentTerm < args.term) :
    args.term ≤ rf'.currentTerm ∧ rf'.state = .follower := by
  cases hCase with
  | stale hTerm => omega
  | refused =>
      unfold adoptVoteTerm
      rw [if_pos hHigher]
      exact ⟨le_refl _, rfl⟩
  | granted => exact ⟨le_refl _, rfl⟩

theorem Raft.AppendEntriesCase.adopts
    {rf rf' : Raft C n}
    {args : AppendEntriesArgs C}
    {reply : AppendEntriesReply}
    (hCase : AppendEntriesCase rf args rf' reply)
    (hHigher : rf.currentTerm < args.term) :
    args.term ≤ rf'.currentTerm ∧ rf'.state = .follower := by
  cases hCase with
  | stale hTerm => omega
  | _ => exact ⟨le_refl _, rfl⟩

theorem Node.step_adopts
    {nd nd' : Node C n}
    {event : Event C n}
    {effects : List (Effect C n)}
    (hStep : nd.step event = some (nd', effects))
    (hHears : nd.hearsNoHigherTerm event = true) :
    nd.Adopts event nd'.rf := by
  intro t hCarried hHigher
  cases event with
  | requestVote args =>
      cases hCarried
      rcases Option.bind_eq_some_iff.mp hStep with
        ⟨⟨rf', reply⟩, hHandler, hEq⟩
      cases hEq
      exact (Raft.requestVote_case hHandler).adopts hHigher
  | appendEntries args =>
      cases hCarried
      rcases Option.bind_eq_some_iff.mp hStep with
        ⟨⟨rf', reply⟩, hHandler, hEq⟩
      cases hEq
      exact (Raft.appendEntries_case hHandler).adopts hHigher
  | _ =>
      -- all other events carry no higher term
      rw [hearsNoHigherTerm, hCarried, Option.all_some,
        decide_eq_true_iff] at hHears
      · omega
      all_goals intro _ hEq; cases hEq

------------------------------------------------------------
-- Terms Of Entries
------------------------------------------------------------

/- No entry is newer than the server. -/
def Raft.TermBounded (rf : Raft C n) : Prop :=
  ∀ e ∈ rf.log, e.term ≤ rf.currentTerm

/- What a request carries is not newer than the request. -/
def Effect.TermBounded : Effect C n → Prop
| .appendEntries _ args =>
    ∀ e ∈ args.entries, e.term ≤ args.term
| .installSnapshot _ args =>
    args.lastIncludedTerm ≤ args.term
| _ => True

namespace Raft.TermBounded

variable {rf rf' : Raft C n}

/- The log stays and the term does not fall. -/
theorem of_log_eq
    (hBounded : rf.TermBounded)
    (hLog : rf'.log = rf.log)
    (hTerm : rf.currentTerm ≤ rf'.currentTerm) :
    rf'.TermBounded := by
  intro e hMem
  rw [hLog] at hMem
  exact le_trans (hBounded e hMem) hTerm

/- The new log holds old entries and entries of `added`. -/
theorem of_mem
    (hBounded : rf.TermBounded)
    (hTerm : rf.currentTerm ≤ rf'.currentTerm)
    {added : List (LogEntry C)}
    (hAdded : ∀ e ∈ added, e.term ≤ rf'.currentTerm)
    (hLog : ∀ e ∈ rf'.log, e ∈ rf.log ∨ e ∈ added) :
    rf'.TermBounded := by
  intro e hMem
  rcases hLog e hMem with hOld | hNew
  · exact le_trans (hBounded e hOld) hTerm
  · exact hAdded e hNew

theorem appendEntries
    (hBounded : rf.TermBounded)
    {args : AppendEntriesArgs C}
    {reply : AppendEntriesReply}
    (hCase : rf.AppendEntriesCase args rf' reply)
    (hEntries : ∀ e ∈ args.entries, e.term ≤ args.term) :
    rf'.TermBounded := by
  cases hCase with
  | stale => exact hBounded
  | good hTerm =>
      refine hBounded.of_mem hTerm hEntries ?_
      intro e hMem
      exact List.mem_append.mp hMem
  | covered hTerm => exact hBounded.of_log_eq rfl hTerm
  | fixed hTerm =>
      refine hBounded.of_mem hTerm hEntries ?_
      intro e hMem
      rcases List.mem_append.mp hMem with hOld | hNew
      · exact Or.inl (List.mem_of_mem_take hOld)
      · exact Or.inr hNew
  | rejected hTerm => exact hBounded.of_log_eq rfl hTerm

theorem installSnapshot
    (hBounded : rf.TermBounded)
    {args : InstallSnapshotArgs}
    {reply : InstallSnapshotReply}
    (hCase : rf.InstallSnapshotCase args rf' reply)
    (hIncluded : args.lastIncludedTerm ≤ args.term)
    (hHears : args.term ≤ rf.currentTerm) :
    rf'.TermBounded := by
  have hFirst :
      ∀ e ∈ [snapshotEntry (C := C) args],
        e.term ≤ rf.currentTerm := by
    intro e hMem
    rw [List.mem_singleton] at hMem
    subst hMem
    exact le_trans hIncluded hHears
  cases hCase with
  | refused => exact hBounded
  | kept =>
      refine hBounded.of_mem (le_refl _) hFirst ?_
      intro e hMem
      rcases List.mem_cons.mp hMem with rfl | hRest
      · exact Or.inr (List.mem_singleton_self _)
      · exact Or.inl (List.mem_of_mem_drop hRest)
  | reset =>
      refine hBounded.of_mem (le_refl _) hFirst ?_
      intro e hMem
      exact Or.inr hMem

/- An entry of the server's own term is appended. -/
theorem append_own
    (hBounded : rf.TermBounded)
    (hTerm : rf'.currentTerm = rf.currentTerm)
    {entry : LogEntry C}
    (hEntry : entry.term = rf.currentTerm)
    (hLog : rf'.log = rf.log ++ [entry]) :
    rf'.TermBounded := by
  have hOwn : ∀ e ∈ [entry], e.term ≤ rf'.currentTerm := by
    intro e hMem
    rw [List.mem_singleton] at hMem
    rw [hMem, hEntry, hTerm]
  refine hBounded.of_mem (le_of_eq hTerm.symm) hOwn ?_
  intro e hMem
  rw [hLog] at hMem
  exact List.mem_append.mp hMem

theorem compacted
    (hBounded : rf.TermBounded)
    {index : Int}
    {snapshot : Bytes}
    {l : Nat}
    {first : LogEntry C}
    {rest : List (LogEntry C)}
    (hDrop : rf.log.drop l = first :: rest) :
    (rf.compacted index snapshot first rest).TermBounded := by
  have hOld :
      ∀ e ∈ first :: rest, e.term ≤ rf.currentTerm := by
    intro e hMem
    rw [← hDrop] at hMem
    exact hBounded e (List.mem_of_mem_drop hMem)
  intro e hMem
  rcases List.mem_cons.mp hMem with rfl | hRest
  · exact hOld first List.mem_cons_self
  · exact hOld e (List.mem_cons_of_mem _ hRest)

end Raft.TermBounded

/-
  One step keeps the bound, if the request it handles is
  bounded and tells no higher term than is adopted.
-/
theorem RaftStep.termBounded
    {nd : Node C n}
    {event : Event C n}
    {rf' : Raft C n}
    {effects : List (Effect C n)}
    (hStep : RaftStep nd event rf' effects)
    (hRf : nd.rf.Persisted)
    (hBounded : nd.rf.TermBounded)
    (hHears : nd.hearsNoHigherTerm event = true)
    (hAppend :
      ∀ args, event = .appendEntries args →
        ∀ e ∈ args.entries, e.term ≤ args.term)
    (hInstall :
      ∀ args, event = .installSnapshot args →
        args.lastIncludedTerm ≤ args.term) :
    rf'.TermBounded := by
  cases hStep with
  | requestVote args _ _ reply hCase =>
      cases hCase with
      | stale => exact hBounded
      | refused hTerm =>
          apply hBounded.of_log_eq (Raft.adoptVoteTerm_log _ _)
          rw [Raft.adoptVoteTerm_currentTerm hTerm]
          exact hTerm
      | granted hTerm =>
          exact hBounded.of_log_eq
            (Raft.adoptVoteTerm_log _ _) hTerm
  | appendEntries args hEvent _ reply hCase =>
      exact hBounded.appendEntries hCase (hAppend args hEvent)
  | installSnapshot args hEvent _ reply hCase =>
      refine hBounded.installSnapshot hCase
        (hInstall args hEvent) ?_
      subst hEvent
      exact of_decide_eq_true hHears
  | start command _ _ len =>
      exact hBounded.append_own rfl rfl rfl
  | takeSnapshot index snapshot _ prevIndex l first rest _ _
      _ _ hDrop =>
      exact hBounded.compacted hDrop
  | election i k _ _ _ args hStart =>
      rw [(Raft.electionStart_spec hStart).1]
      exact hBounded.of_log_eq rfl
        (Int.le_add_one (le_refl _))
  | win i k ballot _ _ _ _ len =>
      exact hBounded.append_own rfl rfl rfl
  | applyEntries _ hApply =>
      have hDurable := (Raft.applyEntries_volatile hApply).1
      simp only [Raft.durable, Prod.mk.injEq] at hDurable
      exact hBounded.of_log_eq hDurable.2.2.1
        (le_of_eq hDurable.2.1.symm)
  | restart _ _ hMake =>
      have hDurable := Raft.durable_of_make hRf hMake
      simp only [Raft.durable, Prod.mk.injEq] at hDurable
      exact hBounded.of_log_eq hDurable.2.2.1
        (le_of_eq hDurable.2.1.symm)
  | _ => exact hBounded

/- The requests a bounded server builds are bounded. -/
theorem RaftStep.effect_termBounded
    {nd : Node C n}
    {event : Event C n}
    {rf' : Raft C n}
    {effects : List (Effect C n)}
    (hStep : RaftStep nd event rf' effects)
    (hBounded : nd.rf.TermBounded)
    {effect : Effect C n}
    (hMem : effect ∈ effects) :
    effect.TermBounded := by
  cases effect with
  | appendEntries server args =>
      rcases (hStep.builtFrom hMem rfl).1 with ⟨next, hArgs⟩
      rcases Raft.syncArgs_spec hArgs with
        ⟨_, _, _, _, _, _, _, rfl⟩
      intro e hEntry
      exact hBounded e (List.mem_of_mem_drop hEntry)
  | installSnapshot server args =>
      rcases (hStep.builtFrom hMem rfl).1 with
        ⟨first, hFirst, rfl⟩
      apply hBounded first
      exact List.mem_of_getElem?
        (GoSlice.at?_eq_some_iff.mp hFirst).2
  | _ => trivial

------------------------------------------------------------
-- Runs
------------------------------------------------------------

namespace Cluster

/- No entry is newer than the server or request it is in. -/
structure TermsBounded (c : Cluster C n) : Prop where
  nodes : ∀ i, (c.nodes i).rf.TermBounded
  trace :
    ∀ i effect, (i, effect) ∈ c.trace → effect.TermBounded

variable [DecidableEq C]

def hearsNoHigherTerm
    (c : Cluster C n)
    (a : Fin n × Event C n) : Bool :=
  (c.nodes a.1).hearsNoHigherTerm a.2

def HearsNoHigherTerm
    (c : Cluster C n)
    (a : Fin n × Event C n) : Prop :=
  hearsNoHigherTerm c a = true

theorem TermsBounded.step
    {i : Fin n}
    {event : Event C n}
    {c c' : Cluster C n}
    (hBounded : c.TermsBounded)
    (hRf : (c.nodes i).rf.Persisted)
    (hHears : (c.nodes i).hearsNoHigherTerm event = true)
    (hStep : (system C n).step (i, event) c = some c') :
    c'.TermsBounded := by
  rcases system_step_cases hStep with
    ⟨nd', effects, hDeliver, hNode, rfl⟩
  have hRaft := Node.step_raftStep hNode
  constructor
  · intro j
    dsimp only
    by_cases hj : j = i
    · subst hj
      rw [Function.update_self]
      refine hRaft.termBounded hRf (hBounded.nodes j) hHears
        ?_ ?_
      · rintro args rfl
        rcases deliverable_appendEntries.mp hDeliver with
          ⟨k, hMem⟩
        exact hBounded.trace k _ hMem
      · rintro args rfl
        rcases deliverable_installSnapshot.mp hDeliver with
          ⟨k, hMem⟩
        exact hBounded.trace k _ hMem
    · rw [Function.update_of_ne hj]
      exact hBounded.nodes j
  · intro j effect hMem
    rcases mem_trace_iff.mp hMem with hOld | ⟨_, hNew⟩
    · exact hBounded.trace j effect hOld
    · exact hRaft.effect_termBounded (hBounded.nodes i) hNew

theorem termsBounded_of_reachable
    {c : Cluster C n}
    (hReach : (system C n).Reachable HearsNoHigherTerm c) :
    c.TermsBounded := by
  refine System.Reachable.induct
    (P := fun c : Cluster C n => c.TermsBounded) ?_ ?_ hReach
  · intro c hInit
    rw [system_init_iff] at hInit
    subst hInit
    constructor
    · intro i e hMem
      rcases List.mem_singleton.mp hMem with rfl
      exact le_refl _
    · intro i effect hMem
      cases hMem
  · rintro c ⟨i, event⟩ c' hBefore hBounded hOk hStep
    exact hBounded.step (persisted hBefore i) hOk hStep

/-
  In a run where only vote and append requests tell of
  higher terms, every higher term is adopted, and no entry
  is newer than its server.
-/
theorem higher_terms_adopted
    {c : Cluster C n}
    (hReach : (system C n).Reachable HearsNoHigherTerm c) :
    (∀ i event c',
      HearsNoHigherTerm c (i, event) →
      (system C n).step (i, event) c = some c' →
      (c.nodes i).Adopts event (c'.nodes i).rf) ∧
    ∀ i, ∀ e ∈ (c.nodes i).rf.log,
      e.term ≤ (c.nodes i).rf.currentTerm := by
  refine ⟨?_, (termsBounded_of_reachable hReach).nodes⟩
  intro i event c' hOk hStep
  rcases system_step_cases hStep with
    ⟨nd', effects, _, hNode, rfl⟩
  dsimp only
  rw [Function.update_self]
  exact Node.step_adopts hNode hOk

------------------------------------------------------------
-- Terms That Are Passed Over
------------------------------------------------------------

/- The reply of a server without entries, in term `t`. -/
def replyWithoutEntries
    (t : Int)
    (success : Bool) : AppendEntriesReply where
  term := t
  success := success
  prevLogIndex := 0
  prevLogTerm := 1
  lastApplied := 1

/-
  Server 0 leads term 2 and sends its no-op. Server 1 starts
  an election for term 3 before it handles the request.
-/
def refusedByCandidate {n : Nat} [NeZero n] :
    List (Fin n × Event Nat n) :=
  leaderServes ++
    [(0, .run 0), (1, .tickerTimeout), (1, .run 0),
      (1, .appendEntries (heartbeatOfTwo 0 1 0)),
      (0, .appendReply 0
        { term := 3, success := false, prevLogIndex := 0,
          prevLogTerm := 0, lastApplied := 0 })]

/-
  Server 0 leads term 2, restarts and sends a heartbeat
  after its no-op. Server 1 rejects it, and the reply waits
  for the lock. Server 2 starts elections for terms 2 and 3,
  which server 0 hears of, and server 0 for term 4.
-/
def termsMoveOn {n : Nat} [NeZero n] :
    List (Fin n × Event Nat n) :=
  twoBallots ++
    [(0, .run 0), (0, .restart), (0, .run 0), (0, .run 0),
      (1, .appendEntries (heartbeatOfTwo 1 2 0)),
      (0, .appendReply 0 (replyWithoutEntries 2 false)),
      (2, .tickerTimeout), (2, .run 0), (2, .tickerCancel),
      (2, .tickerTimeout), (2, .run 0),
      (0, .requestVote (initialLogRequest 3 2)),
      (0, .tickerTimeout), (0, .run 0)]

/- What server 0 has after index 0, as leader of term 4. -/
def commandOfFour : List (LogEntry Nat) :=
  [noopOfTwo,
    { term := 4, type := .noop, index := 2, command := none },
    { term := 4, type := .normal, index := 3,
      command := some 9 }]

def requestOfFour
    (p : Nat)
    (prevLogTerm : Int) : AppendEntriesArgs Nat where
  term := 4
  leaderId := 0
  prevLogIndex := p
  prevLogTerm := prevLogTerm
  entries := commandOfFour.drop p
  leaderCommit := 0

/-
  Server 0 wins term 4 with the vote of server 2, to which
  it replicates a command. It commits and applies the
  command and compacts its log up to it. Then it handles the
  old reply, and sends its snapshot to server 1.
-/
def snapshotOfFour {n : Nat} [NeZero n] :
    List (Fin n × Event Nat n) :=
  [(2, .requestVote
      { term := 4, candiateId := 0, lastLogIndex := 2,
        lastLogTerm := 2 }),
    (0, .voteReply 2 { term := 4, voteGranted := true }),
    (0, .run 0), (0, .run 0), (0, .run 0), (0, .run 0),
    (0, .run 0), (0, .start (some 9)),
    (0, .run 0), (0, .run 0),
    (2, .appendEntries (requestOfFour 1 2)),
    (0, .appendReply 1 (replyWithoutEntries 4 false)),
    (0, .run 0), (0, .run 1), (0, .run 0),
    (2, .appendEntries (requestOfFour 0 1)),
    (0, .appendReply 1 (replyWithoutEntries 4 true)),
    (0, .run 0), (0, .run 3), (0, .run 0),
    (0, .applyEntries), (0, .dequeue), (0, .applyCh),
    (0, .takeSnapshot 1 [1]), (0, .run 5)]

def snapshotArgsOfFour : InstallSnapshotArgs where
  term := 4
  leaderId := 0
  lastIncludedInternal := 3
  lastIncludedIndex := 1
  lastIncludedTerm := 4
  data := [1]

/-
  Server 0 handles the reply of term 3 and goes on leading
  term 2. Server 1 installs the snapshot of term 4 in term
  2, and its log then starts with an entry of term 4.
-/
theorem higher_terms_passed_over :
    ¬ (∀ c : Cluster Nat 3,
        (system Nat 3).Reachable System.always c →
        ∀ i k c',
          (system Nat 3).step (i, .run k) c = some c' →
          (c.nodes i).Adopts (.run k) (c'.nodes i).rf) ∧
    ¬ (∀ c : Cluster Nat 3,
        (system Nat 3).Reachable System.always c →
        ∀ i args c',
          (system Nat 3).step (i, .installSnapshot args) c =
            some c' →
          (c.nodes i).Adopts (.installSnapshot args)
            (c'.nodes i).rf) ∧
    ¬ (∀ c : Cluster Nat 3,
        (system Nat 3).Reachable System.always c →
        ∀ i, ∀ e ∈ (c.nodes i).rf.log,
          e.term ≤ (c.nodes i).rf.currentTerm) := by
  have hReply :
      ((system Nat 3).exec refusedByCandidate
        (initial Nat 3)).any (fun c =>
          ((system Nat 3).step (0, .run 0) c).any (fun c' =>
            decide ((c.nodes 0).carriedTerm (.run 0) =
              some 3) && isLeaderOf c 0 2 &&
                isLeaderOf c' 0 2)) = true := by
    decide +kernel
  have hSnapshot :
      ((system Nat 3).exec (termsMoveOn ++ snapshotOfFour)
        (initial Nat 3)).any (fun c =>
          ((system Nat 3).step
            (1, .installSnapshot snapshotArgsOfFour) c).any
              (fun c' =>
                decide ((c.nodes 1).rf.currentTerm = 2) &&
                decide ((c'.nodes 1).rf.currentTerm = 2) &&
                (c'.nodes 1).rf.log.any
                  (fun e => decide (e.term = 4)))) =
        true := by
    decide +kernel
  rcases System.exists_run_of_exec hReply with ⟨c, hRun, hc⟩
  rcases (Option.any_eq_true _ _).mp hc with
    ⟨c', hStep, hAll⟩
  simp only [Bool.and_eq_true, decide_eq_true_eq,
    isLeaderOf_iff] at hAll
  rcases hAll with ⟨⟨hTerm, hBefore⟩, hAfter⟩
  rcases System.exists_run_of_exec hSnapshot with
    ⟨d, hRun', hd⟩
  rcases (Option.any_eq_true _ _).mp hd with
    ⟨d', hStep', hAll'⟩
  simp only [Bool.and_eq_true, decide_eq_true_eq,
    List.any_eq_true] at hAll'
  rcases hAll' with ⟨⟨hOld, hNew⟩, e, hMem, hEntry⟩
  have hReach :=
    (initial_reachable System.always).trans hRun
  have hReach' :=
    (initial_reachable System.always).trans hRun'
  refine ⟨?_, ?_, ?_⟩
  · intro hClaim
    have hState := (hClaim c hReach 0 0 c' hStep 3 hTerm
      (by rw [hBefore.2]; decide)).2
    rw [hAfter.1] at hState
    cases hState
  · intro hClaim
    have hLe := (hClaim d hReach' 1 snapshotArgsOfFour d'
      hStep' 4 rfl (by rw [hOld]; decide)).1
    rw [hNew] at hLe
    omega
  · intro hClaim
    have hLe := hClaim d'
      (hReach'.trans (System.Run.single trivial hStep')) 1 e
      hMem
    rw [hNew, hEntry] at hLe
    omega

/- Server 2 hears of term 2 by a request and adopts it. -/
theorem higher_terms_adopted_request :
    ∃ c c' : Cluster Nat 3,
      (system Nat 3).Reachable HearsNoHigherTerm c ∧
      (system Nat 3).step
        (2, .appendEntries (heartbeatOfTwo 0 1 0)) c =
          some c' ∧
      (c.nodes 2).rf.currentTerm = 1 ∧
      2 ≤ (c'.nodes 2).rf.currentTerm ∧
      (c'.nodes 2).rf.state = .follower ∧
      ∀ e ∈ (c'.nodes 2).rf.log,
        e.term ≤ (c'.nodes 2).rf.currentTerm := by
  have hExec :
      ((system Nat 3).execOk hearsNoHigherTerm
        (leaderServes ++ [(0, .run 0)])
        (initial Nat 3)).any (fun c =>
          decide ((c.nodes 2).rf.currentTerm = 1) &&
          ((system Nat 3).step
            (2, .appendEntries
              (heartbeatOfTwo 0 1 0)) c).isSome) = true := by
    decide +kernel
  rcases System.exists_run_of_execOk hExec with ⟨c, hRun, hc⟩
  rw [Bool.and_eq_true, decide_eq_true_eq] at hc
  rcases hc with ⟨hOld, hc⟩
  rcases Option.isSome_iff_exists.mp hc with ⟨c', hStep⟩
  have hReach :
      (system Nat 3).Reachable HearsNoHigherTerm c :=
    (initial_reachable HearsNoHigherTerm).trans hRun
  have hOk : HearsNoHigherTerm c
      (2, .appendEntries (heartbeatOfTwo 0 1 0)) := rfl
  have hReach' :
      (system Nat 3).Reachable HearsNoHigherTerm c' :=
    hReach.trans (System.Run.single hOk hStep)
  have hAdopts := (higher_terms_adopted hReach).1 2 _ c' hOk
    hStep 2 rfl (by rw [hOld]; decide)
  exact ⟨c, c', hReach, hStep, hOld, hAdopts.1, hAdopts.2,
    (higher_terms_adopted hReach').2 2⟩

end Cluster

end RaftLab
