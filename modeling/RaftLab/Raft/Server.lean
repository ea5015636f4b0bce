import RaftLab.Lib.Transition
import RaftLab.Raft.NodeCases

/-
  The whole life of one Raft server.

  The server starts on an empty persister. Its environment
  is arbitrary: any requests, replies, calls of the service,
  timeouts, schedules of its goroutines and restarts, in any
  order. The history collects the effects of all its steps,
  across restarts.

  The main results are that the persister always holds the
  durable state, and that the server votes once per term.

  Main declarations:
    * `Server`, `Server.system`, `Server.PeerIds`
    * `Raft.Persisted` and `RaftStep.persisted`
    * `Raft.make_durable`
    * `Server.crash_transparent`
    * `RaftStep.term_mono`, `RaftStep.votedFor_stable`,
      `RaftStep.vote_backed`
    * `Server.one_vote_per_term`
-/

------------------------------------------------------------
-- The Life Of A Server
------------------------------------------------------------

namespace RaftLab

variable {C : Type} {n : Nat}

/- A server with the effects of all its steps so far. -/
structure Server (C : Type) (n : Nat) where
  node : Node C n
  history : List (Effect C n)

namespace Server

def system (me : Fin n) : System (Server C n) (Event C n) where
  init s :=
    Node.make me Persister.makePersister = some s.node ∧
      s.history = []
  step event s :=
    (s.node.step event).map (fun r =>
      { node := r.1, history := s.history ++ r.2 })

/- Candidate ids are peer ids, which are not negative. -/
def PeerIds (_s : Server C n) : Event C n → Prop
| .requestVote args => 0 ≤ args.candiateId
| _ => True

theorem system_step_cases
    {me : Fin n}
    {event : Event C n}
    {s s' : Server C n}
    (hStep : (system me).step event s = some s') :
    ∃ effects,
      RaftStep s.node event s'.node.rf effects ∧
      s'.history = s.history ++ effects := by
  rcases Option.map_eq_some_iff.mp hStep with
    ⟨⟨nd', effects⟩, hNode, rfl⟩
  exact ⟨effects, Node.step_raftStep hNode, rfl⟩

theorem system_init_rf
    {me : Fin n}
    {s : Server C n}
    (hInit : (system me).init s) :
    s.node = Node.initial me ∧ s.history = [] := by
  rcases hInit with ⟨hMake, hHistory⟩
  rw [Node.make_makePersister, Option.some.injEq] at hMake
  exact ⟨hMake.symm, hHistory⟩

end Server

------------------------------------------------------------
-- The Persister Holds The Durable State
------------------------------------------------------------

namespace Raft

/- The persister holds what `persist` would write now. -/
def Saved (rf : Raft C n) : Prop :=
  rf.persister = rf.persist.persister

/- Nothing was ever saved, and the state is the initial. -/
def NeverSaved (rf : Raft C n) : Prop :=
  rf.persister = Persister.makePersister ∧
    rf.durable =
      (fresh rf.me Persister.makePersister).durable

/- Reading the disk yields exactly the durable state. -/
def DecodesToMemory (rf : Raft C n) : Prop :=
  rf.persister.raftstate ≠ [] ∧
    ∃ rf₀,
      (fresh rf.me rf.persister).readPersist
        rf.persister.raftstate = some rf₀ ∧
      rf₀.durable = rf.durable

/-
  The memory and the disk agree: either the current state
  was saved, or nothing was ever saved and the state is the
  one `Make` starts with.
-/
structure Persisted (rf : Raft C n) : Prop where
  log_ne_nil : rf.log ≠ []
  votedFor_nonneg : ∀ c, rf.votedFor = some c → 0 ≤ c
  saved : rf.Saved ∨ rf.NeverSaved

/- Changes of volatile fields keep memory and disk equal. -/
theorem Persisted.of_durable_eq
    {rf rf' : Raft C n}
    (hRf : rf.Persisted)
    (hMe : rf'.me = rf.me)
    (hPersister : rf'.persister = rf.persister)
    (hDurable : rf'.durable = rf.durable) :
    rf'.Persisted := by
  have hFields := hDurable
  simp only [durable, Prod.mk.injEq] at hFields
  rcases hFields with
    ⟨hState, hTerm, hLog, hVoted, hIndex, hSnapTerm, hSnap⟩
  refine ⟨?_, ?_, ?_⟩
  · rw [hLog]
    exact hRf.log_ne_nil
  · rw [hVoted]
    exact hRf.votedFor_nonneg
  · rcases hRf.saved with hSaved | ⟨hEmpty, hFresh⟩
    · left
      unfold Saved at hSaved ⊢
      rw [hPersister, hSaved]
      simp only [persist, hState, hTerm, hLog, hVoted,
        hIndex, hSnapTerm, hSnap]
    · right
      refine ⟨hPersister.trans hEmpty, ?_⟩
      rw [hDurable, hFresh, hMe]

/- A state that was just saved. -/
theorem Persisted.of_saved
    {rf : Raft C n}
    (hLog : rf.log ≠ [])
    (hVoted : ∀ c, rf.votedFor = some c → 0 ≤ c)
    (hSaved : rf.Saved) :
    rf.Persisted :=
  ⟨hLog, hVoted, Or.inl hSaved⟩

/- The disk of a saved state decodes to that state. -/
theorem readPersist_of_saved
    {rf : Raft C n}
    {first : LogEntry C}
    {rest : List (LogEntry C)}
    (hSaved : rf.Saved)
    (hLog : rf.log = first :: rest)
    (hVoted : ∀ c, rf.votedFor = some c → 0 ≤ c)
    (me : Fin n) :
    ∃ rf₀,
      (fresh me rf.persister).readPersist
        rf.persister.raftstate = some rf₀ ∧
      rf₀.durable = rf.durable ∧
      rf₀.me = me ∧
      rf₀.persister = rf.persister ∧
      rf₀.commitIndex = 0 ∧
      rf₀.lastApplied = first.index := by
  have hDecode :
      (if votedForCode rf.votedFor = -1 then none
        else some (votedForCode rf.votedFor)) =
        rf.votedFor := by
    cases hCase : rf.votedFor with
    | none => rfl
    | some c =>
        have hNonneg := hVoted c hCase
        have hNe : c ≠ -1 := by omega
        simp [votedForCode, hNe]
  unfold Saved at hSaved
  rw [hSaved]
  simp only [persist, readPersist, hLog, GoSlice.at?_zero,
    List.getElem?_cons_zero, Option.map_some,
    Option.bind_eq_bind, Option.bind_some, hDecode]
  exact ⟨_, rfl, by simp [durable, hLog, fresh], rfl, rfl,
    rfl, rfl⟩

/- `Make` on the disk restores every durable field. -/
theorem make_durable
    {rf : Raft C n}
    (hRf : rf.Persisted) :
    ∃ rf',
      make rf.me rf.persister = some rf' ∧
      rf'.durable = rf.durable ∧
      rf'.me = rf.me ∧
      rf'.persister = rf.persister := by
  obtain ⟨first, rest, hLog⟩ :=
    List.exists_cons_of_ne_nil hRf.log_ne_nil
  rcases hRf.saved with hSaved | ⟨hEmpty, hFresh⟩
  · obtain ⟨rf₀, hRead, hDurable, hMe, hPersister, _, _⟩ :=
      readPersist_of_saved hSaved hLog
        hRf.votedFor_nonneg rf.me
    have hLog₀ : rf₀.log = first :: rest := by
      have hFields := hDurable
      simp only [durable, Prod.mk.injEq] at hFields
      rw [hFields.2.2.1, hLog]
    unfold make
    rw [hRead]
    simp only [Option.bind_eq_bind, Option.bind_some,
      baseIndex_of_log hLog₀]
    split <;>
    · simp only [globalLogLen, baseIndex, logAt, hLog₀,
        GoSlice.at?_zero, List.getElem?_cons_zero,
        Option.map_some, Option.bind_some]
      refine ⟨_, rfl, ?_, hMe, hPersister⟩
      rw [← hDurable]
      simp only [durable, hLog₀]
  · rw [hEmpty, hFresh]
    exact ⟨_, rfl, rfl, rfl, rfl⟩

/- The same, for the result of a given `Make`. -/
theorem durable_of_make
    {rf rf' : Raft C n}
    (hRf : rf.Persisted)
    (hMake : make rf.me rf.persister = some rf') :
    rf'.durable = rf.durable := by
  rcases make_durable hRf with ⟨rf'', hMake', hDurable, _⟩
  rw [hMake, Option.some.injEq] at hMake'
  rw [hMake']
  exact hDurable

/- `Make` sets `lastApplied` to the base, or leaves its 1. -/
theorem lastApplied_of_make
    {rf rf' : Raft C n}
    (hRf : rf.Persisted)
    (hMake : make rf.me rf.persister = some rf')
    {first : LogEntry C}
    {rest : List (LogEntry C)}
    (hLog : rf.log = first :: rest) :
    rf'.lastApplied = first.index ∨
      rf'.lastApplied = 1 ∧ first.index = 0 := by
  rcases make_spec hMake with
    ⟨rf₀, len, hRead, _, _, _, _, _, hApplied, _⟩
  rcases hRf.saved with hSaved | ⟨hEmpty, hFresh⟩
  · left
    rcases readPersist_of_saved hSaved hLog
        hRf.votedFor_nonneg rf.me with
      ⟨rf₁, hRead', hDurable, _, _, _, hFirst⟩
    rw [hRead, Option.some.injEq] at hRead'
    rw [← hRead'] at hDurable hFirst
    rcases hApplied with hSame | hCut
    · omega
    · simp only [durable, Prod.mk.injEq] at hDurable
      rw [baseIndex_of_log (hDurable.2.2.1.trans hLog),
        Option.some.injEq] at hCut
      omega
  · rw [hEmpty] at hRead
    cases hRead
    simp only [durable, Prod.mk.injEq] at hFresh
    have hZero : first.index = 0 := by
      have hInit := hFresh.2.2.1
      rw [hLog] at hInit
      exact congrArg LogEntry.index (List.cons.inj hInit).1
    rcases hApplied with hSame | hCut
    · exact Or.inr ⟨hSame, hZero⟩
    · left
      have hStart : some (0 : Int) = some rf'.lastApplied :=
        hCut
      rw [Option.some.injEq] at hStart
      omega

/- A restarted server has applied nothing after the cut. -/
theorem baseIndex_le_of_make
    {rf rf' : Raft C n}
    (hRf : rf.Persisted)
    (hMake : make rf.me rf.persister = some rf')
    {b : Int}
    (hBase : rf.baseIndex = some b) :
    b ≤ rf'.lastApplied := by
  rcases List.exists_cons_of_ne_nil hRf.log_ne_nil with
    ⟨first, rest, hLog⟩
  rw [baseIndex_of_log hLog, Option.some.injEq] at hBase
  have hApplied := lastApplied_of_make hRf hMake hLog
  omega

end Raft

------------------------------------------------------------
-- Every Step Writes Through
------------------------------------------------------------

/- The iterations of the apply loop are volatile. -/
theorem Raft.applyEntries_volatile
    {rf rf' : Raft C n}
    (hApply : rf.applyEntries = some rf') :
    rf'.durable = rf.durable ∧ rf'.me = rf.me ∧
      rf'.persister = rf.persister := by
  refine applyEntries_induct
    (P := fun r => r.durable = rf.durable ∧ r.me = rf.me ∧
      r.persister = rf.persister) ?_ ⟨rfl, rfl, rfl⟩ hApply
  intro r r' hr hIteration
  obtain ⟨l, entry, _, _, _, _,
    ⟨_, _, _, rfl⟩ | ⟨_, rfl⟩⟩ :=
      applyIteration_cases hIteration
  · exact hr
  · exact hr

theorem Raft.commitIndex_applyEntries
    {rf rf' : Raft C n}
    (hApply : rf.applyEntries = some rf') :
    rf'.commitIndex = rf.commitIndex := by
  refine applyEntries_induct
    (P := fun r => r.commitIndex = rf.commitIndex) ?_ rfl
    hApply
  intro r r' hr hIteration
  rcases applyIteration_cases hIteration with
    ⟨l, entry, _, _, _, _, ⟨_, _, _, rfl⟩ | ⟨_, rfl⟩⟩
  · exact hr
  · exact hr

theorem RaftStep.me_eq
    {nd : Node C n}
    {event : Event C n}
    {rf' : Raft C n}
    {effects : List (Effect C n)}
    (hStep : RaftStep nd event rf' effects) :
    rf'.me = nd.rf.me := by
  cases hStep with
  | requestVote args _ rf' reply hCase =>
      cases hCase with
      | stale => rfl
      | refused => simp
      | granted =>
          simp only [Raft.giveVote, Raft.persist_me,
            Raft.adoptVoteTerm_me]
  | appendEntries args _ rf' reply hCase =>
      cases hCase <;> rfl
  | installSnapshot args _ rf' reply hCase =>
      cases hCase <;> rfl
  | election i k _ _ rf' args hStart =>
      rw [(Raft.electionStart_spec hStart).1]
      rfl
  | applyEntries rf' hApply =>
      exact (Raft.applyEntries_volatile hApply).2.1
  | restart _ rf' hMake =>
      obtain ⟨rf₀, len, hRead, _, _, hMe, _⟩ :=
        Raft.make_spec hMake
      rw [hMe]
      unfold Raft.readPersist at hRead
      split at hRead
      · cases hRead
        rfl
      · rcases Option.bind_eq_some_iff.mp hRead with
          ⟨_, _, hRead⟩
        cases hRead
        rfl
      · cases hRead
        rfl
  | _ => rfl

/- Entries that a fix package replaces are not empty. -/
theorem Raft.AppendEntriesCase.log_ne_nil
    {rf rf' : Raft C n}
    {args : AppendEntriesArgs C}
    {reply : AppendEntriesReply}
    (hCase : rf.AppendEntriesCase args rf' reply)
    (hLog : rf.log ≠ []) :
    rf'.log ≠ [] := by
  cases hCase with
  | stale => exact hLog
  | good => simp [storeEntries, hLog]
  | covered => exact hLog
  | fixed _ _ _ _ _ i hPrefix hDiffer =>
      have hEntries : args.entries ≠ [] := by
        intro hNil
        rw [hNil] at hPrefix hDiffer
        cases hPrefix
        exact hDiffer rfl
      simp [storeEntries, hEntries]
  | rejected => exact hLog

/-
  Each critical section that changes a durable field
  persists before it releases the lock.
-/
theorem RaftStep.persisted
    {nd : Node C n}
    {event : Event C n}
    {rf' : Raft C n}
    {effects : List (Effect C n)}
    (hStep : RaftStep nd event rf' effects)
    (hIds : ∀ args, event = .requestVote args →
      0 ≤ args.candiateId)
    (hRf : nd.rf.Persisted) :
    rf'.Persisted := by
  have hLog := hRf.log_ne_nil
  have hVoted := hRf.votedFor_nonneg
  cases hStep with
  | requestVote args hEvent rf' reply hCase =>
      have hAdopted : (nd.rf.adoptVoteTerm args).Persisted := by
        unfold Raft.adoptVoteTerm
        split
        · exact .of_saved hLog (fun c h => by cases h) rfl
        · exact hRf
      cases hCase with
      | stale => exact hRf
      | refused => exact hAdopted
      | granted =>
          refine .of_saved ?_ ?_ rfl
          · simpa [Raft.giveVote] using hLog
          · intro c hc
            cases hc
            exact hIds args hEvent
  | appendEntries args _ rf' reply hCase =>
      have hLog' := hCase.log_ne_nil hLog
      have hVoted' :
          ∀ c, (nd.rf.syncState args).votedFor = some c →
            0 ≤ c := by
        intro c hc
        simp only [Raft.syncState,
          Raft.persist_votedFor] at hc
        split at hc
        · cases hc
        · exact hVoted c hc
      cases hCase with
      | stale => exact hRf
      | good => exact .of_saved hLog' hVoted' rfl
      | covered => exact .of_saved hLog' hVoted' rfl
      | fixed => exact .of_saved hLog' hVoted' rfl
      | rejected => exact .of_saved hLog' hVoted' rfl
  | installSnapshot args _ rf' reply hCase =>
      cases hCase with
      | refused => exact hRf
      | kept =>
          exact .of_saved (List.cons_ne_nil _ _) hVoted rfl
      | reset =>
          exact .of_saved (List.cons_ne_nil _ _) hVoted rfl
  | start command _ _ len _ =>
      exact .of_saved (by simp [Raft.appended]) hVoted rfl
  | takeSnapshot =>
      exact .of_saved (List.cons_ne_nil _ _) hVoted rfl
  | tickerTimeout => exact .of_saved hLog hVoted rfl
  | election i k _ _ rf' args hStart =>
      rw [(Raft.electionStart_spec hStart).1]
      refine .of_saved hLog ?_ rfl
      intro c hc
      cases hc
      exact Int.natCast_nonneg _
  | win =>
      exact .of_saved (by simp [Raft.promoted]) hVoted rfl
  | commit => exact hRf.of_durable_eq rfl rfl rfl
  | sync => exact hRf
  | success => exact hRf.of_durable_eq rfl rfl rfl
  | sendSnapshot => exact hRf
  | nextIndex => exact hRf.of_durable_eq rfl rfl rfl
  | applyEntries rf' hApply =>
      obtain ⟨hDurable, hMe, hPersister⟩ :=
        Raft.applyEntries_volatile hApply
      exact hRf.of_durable_eq hMe hPersister hDurable
  | dequeue => exact hRf.of_durable_eq rfl rfl rfl
  | applyCh => exact hRf
  | idle => exact hRf
  | restart _ rf' hMake =>
      obtain ⟨rf'', hMake', hDurable, hMe, hPersister⟩ :=
        Raft.make_durable hRf
      have hEq : rf' = rf'' :=
        Option.some.inj (hMake.symm.trans hMake')
      subst hEq
      exact hRf.of_durable_eq hMe hPersister hDurable

namespace Server

theorem persisted_of_reachable
    {me : Fin n}
    {s : Server C n}
    (hReach : (system me).Reachable PeerIds s) :
    s.node.rf.Persisted ∧ s.node.rf.me = me := by
  refine System.Reachable.induct
    (P := fun s : Server C n =>
      s.node.rf.Persisted ∧ s.node.rf.me = me) ?_ ?_ hReach
  · intro s hInit
    obtain ⟨hNode, _⟩ := system_init_rf hInit
    rw [hNode]
    refine ⟨⟨List.cons_ne_nil _ _, ?_, Or.inr ⟨rfl, rfl⟩⟩,
      rfl⟩
    intro c hc
    cases hc
  · intro s event s' _ ih hIds hStep
    obtain ⟨effects, hRaft, _⟩ := system_step_cases hStep
    refine ⟨hRaft.persisted ?_ ih.1,
      hRaft.me_eq.trans ih.2⟩
    intro args hEvent
    subst hEvent
    exact hIds

/-
  Crash transparency: whenever the lock is free, reading the
  disk yields the durable state (or nothing was saved and
  the state is the initial one), and a crash followed by
  `Make` restores it unchanged.
-/
theorem crash_transparent
    {me : Fin n}
    {s : Server C n}
    (hReach : (system me).Reachable PeerIds s) :
    (s.node.rf.DecodesToMemory ∨ s.node.rf.NeverSaved) ∧
      ∃ nd', s.node.step .restart = some (nd', []) ∧
        nd'.rf.durable = s.node.rf.durable := by
  obtain ⟨hRf, _⟩ := persisted_of_reachable hReach
  constructor
  · rcases hRf.saved with hSaved | hNever
    · left
      obtain ⟨first, rest, hLog⟩ :=
        List.exists_cons_of_ne_nil hRf.log_ne_nil
      obtain ⟨rf₀, hRead, hDurable, _⟩ :=
        Raft.readPersist_of_saved hSaved hLog
          hRf.votedFor_nonneg s.node.rf.me
      refine ⟨?_, rf₀, hRead, hDurable⟩
      unfold Raft.Saved at hSaved
      rw [hSaved]
      exact List.cons_ne_nil _ _
    · exact Or.inr hNever
  · obtain ⟨rf', hMake, hDurable, _⟩ :=
      Raft.make_durable hRf
    refine ⟨Node.boot rf', ?_, hDurable⟩
    rw [Node.step, Node.silent_eq_some_iff, Node.make,
      hMake]
    exact ⟨rfl, rfl⟩

/- A vote request that a fresh server grants. -/
def firstVoteRequest : RequestVoteArgs where
  term := 2
  candiateId := 0
  lastLogIndex := 1
  lastLogTerm := 1

/- The run in which server 1 of 3 grants that request. -/
theorem firstVote_run :
    ∃ s : Server Nat 3,
      (system 1).Reachable PeerIds s ∧
        s.node.rf.votedFor = some 0 ∧
        (.vote 2 0 : Effect Nat 3) ∈ s.history := by
  let s₀ : Server Nat 3 :=
    { node := Node.initial 1, history := [] }
  have hInit : (system 1).init s₀ := ⟨rfl, rfl⟩
  have hStep :
      ∃ s, (system 1).step (.requestVote firstVoteRequest)
          s₀ = some s ∧
        s.node.rf.votedFor = some 0 ∧
        (.vote 2 0 : Effect Nat 3) ∈ s.history :=
    ⟨_, rfl, rfl, List.mem_cons_self⟩
  obtain ⟨s, hStep, hVoted, hVote⟩ := hStep
  have hOk : PeerIds s₀ (.requestVote firstVoteRequest) :=
    Int.le_refl 0
  exact ⟨s, ⟨s₀, hInit, System.Run.single hOk hStep⟩,
    hVoted, hVote⟩

theorem crash_transparent_after_vote :
    ∃ s : Server Nat 3,
      (system 1).Reachable PeerIds s ∧
        s.node.rf.votedFor = some 0 ∧
        (s.node.rf.DecodesToMemory ∨
          s.node.rf.NeverSaved) ∧
        ∃ nd', s.node.step .restart = some (nd', []) ∧
          nd'.rf.durable = s.node.rf.durable := by
  obtain ⟨s, hReach, hVoted, _⟩ := firstVote_run
  exact ⟨s, hReach, hVoted, crash_transparent hReach⟩

end Server

------------------------------------------------------------
-- Votes
------------------------------------------------------------

namespace RaftStep

theorem mem_voteEffects_vote
    {args : RequestVoteArgs}
    {reply : RequestVoteReply}
    {t c : Int}
    (hMem : (.vote t c : Effect C n) ∈
      voteEffects args reply) :
    reply.voteGranted = true ∧ t = args.term ∧
      c = args.candiateId := by
  unfold voteEffects at hMem
  split at hMem
  · rename_i hGranted
    simp only [List.mem_cons, Effect.vote.injEq,
      reduceCtorEq, List.not_mem_nil, or_self,
      or_false] at hMem
    exact ⟨hGranted, hMem⟩
  · simp at hMem

/- Terms never fall. -/
theorem term_mono
    {nd : Node C n}
    {event : Event C n}
    {rf' : Raft C n}
    {effects : List (Effect C n)}
    (hStep : RaftStep nd event rf' effects)
    (hRf : nd.rf.Persisted) :
    nd.rf.currentTerm ≤ rf'.currentTerm := by
  cases hStep with
  | requestVote args _ rf' reply hCase =>
      cases hCase with
      | stale => exact le_refl _
      | refused hTerm =>
          rw [Raft.adoptVoteTerm_currentTerm hTerm]
          exact hTerm
      | granted hTerm => exact hTerm
  | appendEntries args _ rf' reply hCase =>
      cases hCase with
      | stale => exact le_refl _
      | good hTerm => exact hTerm
      | covered hTerm => exact hTerm
      | fixed hTerm => exact hTerm
      | rejected hTerm => exact hTerm
  | installSnapshot args _ rf' reply hCase =>
      cases hCase <;> exact le_refl _
  | election i k _ _ rf' args hStart =>
      rw [(Raft.electionStart_spec hStart).1]
      simp only [Raft.persist_currentTerm]
      omega
  | applyEntries rf' hApply =>
      have hDurable := (Raft.applyEntries_volatile hApply).1
      simp only [Raft.durable, Prod.mk.injEq] at hDurable
      rw [hDurable.2.1]
  | restart _ rf' hMake =>
      obtain ⟨rf'', hMake', hDurable, _⟩ :=
        Raft.make_durable hRf
      have hEq : rf' = rf'' :=
        Option.some.inj (hMake.symm.trans hMake')
      simp only [← hEq, Raft.durable,
        Prod.mk.injEq] at hDurable
      rw [hDurable.2.1]
  | _ => exact le_refl _

/- Within a term a recorded vote stays. -/
theorem votedFor_stable
    {nd : Node C n}
    {event : Event C n}
    {rf' : Raft C n}
    {effects : List (Effect C n)}
    (hStep : RaftStep nd event rf' effects)
    (hRf : nd.rf.Persisted)
    (hTerm : rf'.currentTerm = nd.rf.currentTerm)
    {c : Int}
    (hVoted : nd.rf.votedFor = some c) :
    rf'.votedFor = some c := by
  cases hStep with
  | requestVote args _ rf' reply hCase =>
      have hAdopt :
          args.term = nd.rf.currentTerm →
            nd.rf.adoptVoteTerm args = nd.rf := by
        intro hEq
        unfold Raft.adoptVoteTerm
        rw [if_neg (by omega)]
      cases hCase with
      | stale => exact hVoted
      | refused hLe =>
          rw [Raft.adoptVoteTerm_currentTerm hLe] at hTerm
          rw [hAdopt hTerm]
          exact hVoted
      | granted hLe _ _ _ _ _ hFree =>
          have hEq : args.term = nd.rf.currentTerm := hTerm
          rw [hAdopt hEq, hVoted] at hFree
          rcases hFree with hNone | hSame
          · cases hNone
          · exact hSame.symm
  | appendEntries args _ rf' reply hCase =>
      have hSync :
          args.term = nd.rf.currentTerm →
            (nd.rf.syncState args).votedFor = some c := by
        intro hEq
        simp only [Raft.syncState, Raft.persist_votedFor]
        rw [if_neg (by omega)]
        exact hVoted
      cases hCase with
      | stale => exact hVoted
      | good => exact hSync hTerm
      | covered => exact hSync hTerm
      | fixed => exact hSync hTerm
      | rejected => exact hSync hTerm
  | installSnapshot args _ rf' reply hCase =>
      cases hCase <;> exact hVoted
  | election i k _ _ rf' args hStart =>
      rw [(Raft.electionStart_spec hStart).1] at hTerm
      simp only [Raft.persist_currentTerm] at hTerm
      omega
  | applyEntries rf' hApply =>
      have hDurable := (Raft.applyEntries_volatile hApply).1
      simp only [Raft.durable, Prod.mk.injEq] at hDurable
      rw [hDurable.2.2.2.1]
      exact hVoted
  | restart _ rf' hMake =>
      obtain ⟨rf'', hMake', hDurable, _⟩ :=
        Raft.make_durable hRf
      have hEq : rf' = rf'' :=
        Option.some.inj (hMake.symm.trans hMake')
      simp only [← hEq, Raft.durable,
        Prod.mk.injEq] at hDurable
      rw [hDurable.2.2.2.1]
      exact hVoted
  | _ => exact hVoted

/- A vote given by a step is recorded with its term. -/
theorem vote_backed
    {nd : Node C n}
    {event : Event C n}
    {rf' : Raft C n}
    {effects : List (Effect C n)}
    (hStep : RaftStep nd event rf' effects)
    {t c : Int}
    (hVote : (.vote t c : Effect C n) ∈ effects) :
    rf'.currentTerm = t ∧ rf'.votedFor = some c := by
  cases hStep with
  | requestVote args _ rf' reply hCase =>
      obtain ⟨hGranted, rfl, rfl⟩ :=
        mem_voteEffects_vote hVote
      cases hCase with
      | stale => cases hGranted
      | refused => cases hGranted
      | granted => exact ⟨rfl, rfl⟩
  | election i k _ _ rf' args hStart =>
      obtain ⟨hRf', hTerm, _⟩ :=
        Raft.electionStart_spec hStart
      rcases List.mem_cons.mp hVote with hEq | hRest
      · cases hEq
        rw [hRf', hTerm]
        exact ⟨rfl, rfl⟩
      · simp at hRest
  | sync => simp at hVote
  | _ => simp at hVote

/- Vote requests are sent at the start of an election. -/
theorem request_of_effect
    {nd : Node C n}
    {event : Event C n}
    {rf' : Raft C n}
    {effects : List (Effect C n)}
    (hStep : RaftStep nd event rf' effects)
    {j : Fin n}
    {args : RequestVoteArgs}
    (hMem : (.requestVote j args : Effect C n) ∈ effects) :
    nd.rf.electionStart = some (rf', args) := by
  cases hStep with
  | requestVote args' _ _ reply hCase =>
      unfold voteEffects at hMem
      split at hMem <;> simp at hMem
  | election i k _ _ rf' args' hStart =>
      rcases List.mem_cons.mp hMem with hEq | hRest
      · cases hEq
      · rcases List.mem_map.mp hRest with ⟨_, _, hEq⟩
        cases hEq
        exact hStart
  | sync => simp at hMem
  | _ => simp at hMem

end RaftStep

namespace Server

/- Every vote ever given is reflected in the state. -/
structure VotesBacked (s : Server C n) : Prop where
  term_le :
    ∀ t c, (.vote t c : Effect C n) ∈ s.history →
      t ≤ s.node.rf.currentTerm
  votedFor_eq :
    ∀ t c, (.vote t c : Effect C n) ∈ s.history →
      s.node.rf.currentTerm = t →
        s.node.rf.votedFor = some c
  unique :
    ∀ t c c', (.vote t c : Effect C n) ∈ s.history →
      (.vote t c' : Effect C n) ∈ s.history → c = c'

/- One step keeps the votes backed. -/
theorem VotesBacked.step
    {s s' : Server C n}
    {event : Event C n}
    {effects : List (Effect C n)}
    (hVotes : s.VotesBacked)
    (hRf : s.node.rf.Persisted)
    (hRaft : RaftStep s.node event s'.node.rf effects)
    (hHistory : s'.history = s.history ++ effects) :
    s'.VotesBacked := by
  have hMono := hRaft.term_mono hRf
  have hOld :
      ∀ t c, (.vote t c : Effect C n) ∈ s.history →
        s'.node.rf.currentTerm = t →
          s'.node.rf.votedFor = some c := by
    intro t c hMem hTerm
    have hLe := hVotes.term_le t c hMem
    have hEq : s.node.rf.currentTerm = t := by omega
    exact hRaft.votedFor_stable hRf (by omega)
      (hVotes.votedFor_eq t c hMem hEq)
  have hAll :
      ∀ t c, (.vote t c : Effect C n) ∈ s'.history →
        s'.node.rf.currentTerm = t →
          s'.node.rf.votedFor = some c := by
    intro t c hMem hTerm
    rw [hHistory, List.mem_append] at hMem
    rcases hMem with hMem | hMem
    · exact hOld t c hMem hTerm
    · exact (hRaft.vote_backed hMem).2
  refine ⟨?_, hAll, ?_⟩
  · intro t c hMem
    rw [hHistory, List.mem_append] at hMem
    rcases hMem with hMem | hMem
    · exact le_trans (hVotes.term_le t c hMem) hMono
    · exact le_of_eq (hRaft.vote_backed hMem).1.symm
  · intro t c c' hMem hMem'
    by_cases hTerm : s'.node.rf.currentTerm = t
    · have hVoted := hAll t c hMem hTerm
      rw [hAll t c' hMem' hTerm] at hVoted
      exact (Option.some.inj hVoted).symm
    · -- votes of an earlier term were given before this step
      have hBefore :
          ∀ c, (.vote t c : Effect C n) ∈ s'.history →
            (.vote t c : Effect C n) ∈ s.history := by
        intro c hc
        rw [hHistory, List.mem_append] at hc
        rcases hc with hc | hc
        · exact hc
        · exact absurd (hRaft.vote_backed hc).1 hTerm
      exact hVotes.unique t c c' (hBefore c hMem)
        (hBefore c' hMem')

theorem votesBacked_of_reachable
    {me : Fin n}
    {s : Server C n}
    (hReach : (system me).Reachable PeerIds s) :
    s.VotesBacked := by
  refine System.Reachable.induct
    (P := fun s : Server C n => s.VotesBacked) ?_ ?_ hReach
  · intro s hInit
    obtain ⟨_, hHistory⟩ := system_init_rf hInit
    constructor <;> simp [hHistory]
  · intro s event s' hReach ih _ hStep
    obtain ⟨effects, hRaft, hHistory⟩ :=
      system_step_cases hStep
    exact ih.step (persisted_of_reachable hReach).1 hRaft
      hHistory

/-
  Over its whole life, restarts included, a server gives its
  vote to at most one candidate in each term, and its term
  never falls.
-/
theorem one_vote_per_term
    {me : Fin n}
    {s s' : Server C n}
    (hReach : (system me).Reachable PeerIds s)
    (hRun : (system me).Run PeerIds s s') :
    s.node.rf.currentTerm ≤ s'.node.rf.currentTerm ∧
      ∀ t c c', (.vote t c : Effect C n) ∈ s'.history →
        (.vote t c' : Effect C n) ∈ s'.history →
          c = c' := by
  constructor
  · refine System.Run.induct
      (P := fun u : Server C n =>
        s.node.rf.currentTerm ≤ u.node.rf.currentTerm)
      (le_refl _) ?_ hRun
    intro t event u hBefore ih _ hStep
    obtain ⟨effects, hRaft, _⟩ := system_step_cases hStep
    have hRf :=
      (persisted_of_reachable (hReach.trans hBefore)).1
    exact le_trans ih (hRaft.term_mono hRf)
  · exact (votesBacked_of_reachable
      (hReach.trans hRun)).unique

theorem one_vote_per_term_after_vote :
    ∃ s : Server Nat 3,
      (system 1).Reachable PeerIds s ∧
        (.vote 2 0 : Effect Nat 3) ∈ s.history ∧
        ∀ c, (.vote 2 c : Effect Nat 3) ∈ s.history →
          c = 0 := by
  obtain ⟨s, hReach, _, hVote⟩ := firstVote_run
  refine ⟨s, hReach, hVote, ?_⟩
  intro c hc
  exact (one_vote_per_term hReach (System.Run.refl s)).2
    2 c 0 hc hVote

end Server

end RaftLab
