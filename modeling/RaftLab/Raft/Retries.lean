import RaftLab.Raft.IndexSafety

/-
  Retried requests.

  The senders repeat a request that got no reply, so a server
  may handle it again, right away or after it has applied and
  compacted entries of its log. A request that was taken
  leaves a trace in the state: the vote, the entries at their
  indices, or the index of the snapshot. The trace outlives
  applying and compacting, and a server that has it does not
  change when it handles the request again.

  Main declarations:
    * `Raft.Request`, `Raft.handle`
    * `Raft.Unmoved`, `Raft.Later`
    * `Raft.Took`
    * `Cluster.retries_harmless`
-/

------------------------------------------------------------
-- Requests
------------------------------------------------------------

namespace RaftLab

namespace Raft

variable {C : Type} {n : Nat}

inductive Request (C : Type)
  | requestVote (args : RequestVoteArgs)
  | appendEntries (args : AppendEntriesArgs C)
  | installSnapshot (args : InstallSnapshotArgs)

/-
  The state after a request, and whether the request was
  successful: the vote granted, the entries accepted, or the
  snapshot installed.
-/
def handle
    (rf : Raft C n) :
    Request C → Option (Raft C n × Bool)
| .requestVote args =>
    (rf.requestVote args).map
      (fun r => (r.1, r.2.voteGranted))
| .appendEntries args =>
    (rf.appendEntries args).map
      (fun r => (r.1, r.2.success))
| .installSnapshot args =>
    (rf.installSnapshot args).map
      (fun r => (r.1, rf.installs args))

/- `syncEntries` sends the entries after PrevLogIndex. -/
def Request.Numbered : Request C → Prop
| .appendEntries args =>
    IndexedFrom (args.prevLogIndex + 1) args.entries
| _ => True

/- Handling the request changes nothing. -/
def Unmoved (rf : Raft C n) (request : Request C) : Prop :=
  ∃ ok, rf.handle request = some (rf, ok)

/-
  The state after any number of iterations of the apply loop
  and calls of Snapshot.
-/
inductive Later (rf : Raft C n) : Raft C n → Prop
  | refl : Later rf rf
  | applyIteration
      {r r' : Raft C n}
      (hLater : Later rf r)
      (hStep : r.applyIteration = some (some r')) :
      Later rf r'
  | takeSnapshot
      {r r' : Raft C n}
      (hLater : Later rf r)
      {index : Int}
      {snapshot : Bytes}
      (hStep : r.takeSnapshot index snapshot = some r') :
      Later rf r'

------------------------------------------------------------
-- Traces Of Requests
------------------------------------------------------------

structure TookVote
    (rf : Raft C n)
    (args : RequestVoteArgs) : Prop where
  term : rf.currentTerm = args.term
  voted : rf.votedFor = some args.candiateId
  follower : rf.state = .follower
  saved : rf.Saved

/-
  An empty request stands at the end of the log. The entries
  of another one have their terms at their indices, as far
  as the log still holds these.
-/
structure TookEntries
    (rf : Raft C n)
    (args : AppendEntriesArgs C) : Prop where
  term : rf.currentTerm = args.term
  follower : rf.state = .follower
  saved : rf.Saved
  entries :
    ∃ first rest,
      rf.log = first :: rest ∧
      first.index ≤ rf.lastApplied ∧
      (args.entries = [] ∧
          first.index + rest.length = args.prevLogIndex ∧
          rf.commitIndex = args.leaderCommit ∨
        args.prevLogIndex < first.index + rest.length ∧
          ∀ (k : Nat) (e : LogEntry C),
            args.entries[k]? = some e →
            first.index ≤ args.prevLogIndex + 1 + k →
            (rf.logAt (args.prevLogIndex + 1 + k -
              first.index)).map (fun own => own.term) =
                some e.term)

/- What a successful request leaves in the state. -/
def Took (rf : Raft C n) : Request C → Prop
| .requestVote args => rf.TookVote args
| .appendEntries args => rf.TookEntries args
| .installSnapshot args =>
    args.lastIncludedIndex ≤ rf.snapshotIndex

theorem persist_eq_of_saved
    {rf : Raft C n}
    (hSaved : rf.Saved) :
    rf.persist = rf := by
  unfold Saved at hSaved
  unfold persist at hSaved ⊢
  dsimp only at hSaved
  rw [← hSaved]

/- A vote request of the server's own term. -/
theorem adoptVoteTerm_eq_self
    {rf : Raft C n}
    {args : RequestVoteArgs}
    (hTerm : rf.currentTerm = args.term) :
    rf.adoptVoteTerm args = rf := by
  unfold adoptVoteTerm
  rw [if_neg (by omega)]

theorem syncState_eq_self
    {rf : Raft C n}
    {args : AppendEntriesArgs C}
    (hTerm : rf.currentTerm = args.term)
    (hFollower : rf.state = .follower)
    (hSaved : rf.Saved) :
    rf.syncState args = rf := by
  unfold syncState
  rw [if_neg (by omega), ← hTerm, ← hFollower]
  exact persist_eq_of_saved hSaved

section Unmoved

variable {rf : Raft C n}
variable {first : LogEntry C} {rest : List (LogEntry C)}

theorem TookVote.unmoved
    {args : RequestVoteArgs}
    (hTook : rf.TookVote args)
    (hLog : rf.log = first :: rest) :
    rf.Unmoved (.requestVote args) := by
  have hAdopt := adoptVoteTerm_eq_self hTook.term
  have hGive : rf.giveVote args = rf := by
    unfold giveVote
    rw [← hTook.term, ← hTook.voted, ← hTook.follower]
    exact persist_eq_of_saved hTook.saved
  rcases requestVote_isSome hLog args with
    ⟨⟨rf', reply⟩, hStep⟩
  refine ⟨reply.voteGranted, ?_⟩
  rw [handle, hStep]
  cases requestVote_case hStep with
  | stale => rfl
  | refused =>
      rw [hAdopt]
      rfl
  | granted =>
      rw [hAdopt, hGive]
      rfl

theorem TookEntries.unmoved
    {args : AppendEntriesArgs C}
    (hTook : rf.TookEntries args) :
    rf.Unmoved (.appendEntries args) := by
  have hSync := syncState_eq_self hTook.term hTook.follower
    hTook.saved
  rcases hTook.entries with
    ⟨first, rest, hLog, hApplied, hEntries⟩
  have hBase := baseIndex_of_log hLog
  have hLength : rf.log.length = rest.length + 1 := by
    rw [hLog, List.length_cons]
  rcases appendEntries_isSome hBase (by omega) args with
    ⟨rf', reply, hStep⟩
  refine ⟨reply.success, ?_⟩
  rw [handle, hStep]
  cases appendEntries_case hStep with
  | stale => rfl
  | good _ len hLen hIndex =>
      rw [globalLogLen_of_log hLog, Option.some.injEq] at hLen
      rcases hEntries with ⟨hNil, _, hCommit⟩ | ⟨hLt, _⟩
      · rw [hSync, hNil, List.append_nil, storeEntries,
          persist_eq_of_saved hTook.saved, ← hCommit]
        rfl
      · omega
  | covered =>
      rw [hSync]
      rfl
  | fixed _ len hLen hIndex hLast i hPrefix hDiffer =>
      -- The prefix check runs through all entries.
      rw [globalLogLen_of_log hLog, Option.some.injEq] at hLen
      rcases hEntries with ⟨_, hEnd, _⟩ | ⟨_, hTerms⟩
      · omega
      · have hAll :
            rf.prefixCheck args.entries.length 0
                args.entries =
              some (0 + args.entries.length) := by
          apply (prefixCheck_eq_all_iff hLog hApplied).mpr
          intro j e hEntry
          have hTerm := hTerms j e hEntry (by omega)
          have hPlace : ((0 : Nat) : Int) + j +
              rf.lastApplied + 1 - first.index =
                args.prevLogIndex + 1 + j - first.index := by
            omega
          rw [hPlace]
          exact hTerm
        rw [hPrefix, Nat.zero_add,
          Option.some.injEq] at hAll
        exact absurd hAll hDiffer
  | rejected =>
      rw [hSync]
      rfl

/- A snapshot that is not newer than the server's. -/
theorem unmoved_of_snapshotIndex
    {args : InstallSnapshotArgs}
    (hOld : args.lastIncludedIndex ≤ rf.snapshotIndex)
    (hLog : rf.log = first :: rest) :
    rf.Unmoved (.installSnapshot args) := by
  have hNe : rf.log ≠ [] := by
    rw [hLog]
    exact List.cons_ne_nil _ _
  rcases installSnapshot_isSome hNe args with
    ⟨rf', reply, hStep⟩
  refine ⟨rf.installs args, ?_⟩
  rw [handle, hStep]
  cases installSnapshot_case hStep with
  | refused => rfl
  | kept _ hNewer => omega
  | reset _ hNewer => omega

theorem Took.unmoved
    {request : Request C}
    (hTook : rf.Took request)
    (hIndexed : rf.WellIndexed) :
    rf.Unmoved request := by
  rcases hIndexed with ⟨first, rest, h⟩
  cases request with
  | requestVote args => exact TookVote.unmoved hTook h.log
  | appendEntries args => exact TookEntries.unmoved hTook
  | installSnapshot args =>
      exact unmoved_of_snapshotIndex hTook h.log

end Unmoved

------------------------------------------------------------
-- The First Handling
------------------------------------------------------------

section First

variable {rf rf' : Raft C n}
variable {first : LogEntry C} {rest : List (LogEntry C)}

/- A vote that can be given is given. -/
theorem requestVote_of_upToDate
    {args : RequestVoteArgs}
    {len lastTerm : Int}
    (hTerm : rf.currentTerm ≤ args.term)
    (hLen : rf.globalLogLen = some len)
    (hLast : rf.lastLogTerm = some lastTerm)
    (hUpToDate : isUpToDate args len lastTerm = true)
    (hVoted : (rf.adoptVoteTerm args).votedFor = none ∨
      (rf.adoptVoteTerm args).votedFor =
        some args.candiateId) :
    rf.requestVote args =
      some ((rf.adoptVoteTerm args).giveVote args,
        { term := args.term, voteGranted := true }) := by
  have hNotOther : ¬ ((rf.adoptVoteTerm args).votedFor ≠ none ∧
      (rf.adoptVoteTerm args).votedFor ≠
        some args.candiateId) := by
    rintro ⟨hSome, hOther⟩
    rcases hVoted with hNone | hSame
    · exact hSome hNone
    · exact hOther hSame
  unfold requestVote
  rw [hLen, hLast]
  simp only [Option.bind_eq_bind, Option.bind_some]
  rw [if_neg (by omega), if_neg (by simp [hUpToDate]),
    if_neg hNotOther, if_pos hVoted]
  rfl

/- A vote that was refused is refused again. -/
theorem unmoved_of_voteRefused
    {args : RequestVoteArgs}
    {reply : RequestVoteReply}
    (hLog : rf.log = first :: rest)
    (hStep : rf.requestVote args = some (rf', reply))
    (hRefused : reply.voteGranted = false) :
    rf'.Unmoved (.requestVote args) := by
  cases requestVote_case hStep with
  | stale => exact ⟨false, by rw [handle, hStep]; rfl⟩
  | refused hTerm =>
      have hAdopt := adoptVoteTerm_eq_self
        (adoptVoteTerm_currentTerm hTerm)
      have hLog' := (adoptVoteTerm_log rf args).trans hLog
      rcases requestVote_isSome hLog' args with
        ⟨⟨rf'', reply'⟩, hAgain⟩
      refine ⟨reply'.voteGranted, ?_⟩
      rw [handle, hAgain]
      cases requestVote_case hAgain with
      | stale => rfl
      | refused =>
          rw [hAdopt]
          rfl
      | granted _ len lastTerm hLen hLast hUpToDate hVoted =>
          -- The first time it would have been given too.
          rw [hAdopt] at hVoted
          rw [globalLogLen_of_log hLog', adoptVoteTerm_log,
            ← globalLogLen_of_log hLog] at hLen
          rw [lastLogTerm_eq_getLast?, adoptVoteTerm_log,
            ← lastLogTerm_eq_getLast?] at hLast
          rw [requestVote_of_upToDate hTerm hLen hLast
            hUpToDate hVoted, Option.some.injEq,
            Prod.mk.injEq] at hStep
          cases congrArg RequestVoteReply.voteGranted
            hStep.2
  | granted => cases hRefused

theorem tookVote_of_granted
    {args : RequestVoteArgs}
    {reply : RequestVoteReply}
    (hStep : rf.requestVote args = some (rf', reply))
    (hGranted : reply.voteGranted = true) :
    rf'.TookVote args := by
  cases requestVote_case hStep with
  | stale => cases hGranted
  | refused => cases hGranted
  | granted => exact ⟨rfl, rfl, rfl, rfl⟩

/- Entries that were rejected are rejected again. -/
theorem unmoved_of_rejected
    {args : AppendEntriesArgs C}
    {reply : AppendEntriesReply}
    (hLog : rf.log = first :: rest)
    (hApplied : first.index ≤ rf.lastApplied)
    (hStep : rf.appendEntries args = some (rf', reply))
    (hRejected : reply.success = false) :
    rf'.Unmoved (.appendEntries args) := by
  cases appendEntries_case hStep with
  | stale _ _ hStale =>
      exact ⟨false, by rw [handle, hStep, ← hStale]; rfl⟩
  | good _ len _ _ _ _ hSuccess =>
      rw [hSuccess] at hRejected
      cases hRejected
  | covered _ len _ _ _ _ _ hSuccess =>
      rw [hSuccess] at hRejected
      cases hRejected
  | fixed _ len _ _ _ i _ _ bound _ _ _ hSuccess =>
      rw [hSuccess] at hRejected
      cases hRejected
  | rejected hTerm len lastTerm hLen hLast hNotGood hNotFix =>
      have hSync : (rf.syncState args).syncState args =
          rf.syncState args :=
        syncState_eq_self rfl rfl rfl
      have hBase : (rf.syncState args).baseIndex =
          some first.index :=
        baseIndex_of_log hLog
      rcases appendEntries_isSome hBase
        (by rw [syncState_lastApplied]; omega) args with
        ⟨rf'', reply', hAgain⟩
      refine ⟨reply'.success, ?_⟩
      rw [handle, hAgain]
      cases appendEntries_case hAgain with
      | stale => rfl
      | good _ len' hLen' hIndex hLast' =>
          rw [globalLogLen_syncState, hLen,
            Option.some.injEq] at hLen'
          rw [lastLogTerm_syncState, hLast,
            Option.some.injEq] at hLast'
          exact absurd ⟨by omega, hLast'⟩ hNotGood
      | covered _ len' hLen' hIndex hPrev =>
          rw [globalLogLen_syncState, hLen,
            Option.some.injEq] at hLen'
          rw [syncState_lastApplied] at hPrev
          exact absurd ⟨by omega, hPrev⟩ hNotFix
      | fixed _ len' hLen' hIndex hPrev =>
          rw [globalLogLen_syncState, hLen,
            Option.some.injEq] at hLen'
          rw [syncState_lastApplied] at hPrev
          exact absurd ⟨by omega, hPrev⟩ hNotFix
      | rejected =>
          rw [hSync]
          rfl

/-
  Entries put into the log after index `p`, in place of what
  it had there.
-/
theorem logAt_of_placed
    {entries : List (LogEntry C)}
    {m : Nat}
    {p : Int}
    (hm : m ≤ rf.log.length)
    (hp : first.index + m = p + 1)
    (hLog : rf'.log = rf.log.take m ++ entries)
    {k : Nat}
    {e : LogEntry C}
    (hEntry : entries[k]? = some e) :
    (rf'.logAt (p + 1 + k - first.index)).map
        (fun own => own.term) = some e.term := by
  have hPlace : p + 1 + (k : Int) - first.index =
      ((m + k : Nat) : Int) := by
    push_cast
    omega
  have hTake : (rf.log.take m).length = m := by
    rw [List.length_take]
    omega
  unfold logAt
  rw [hPlace, GoSlice.at?_natCast, hLog,
    List.getElem?_append_right (by omega), hTake,
    Nat.add_sub_cancel_left, hEntry]
  rfl

theorem tookEntries_of_success
    {args : AppendEntriesArgs C}
    {reply : AppendEntriesReply}
    (hLog : rf.log = first :: rest)
    (hApplied : first.index ≤ rf.lastApplied)
    (hStep : rf.appendEntries args = some (rf', reply))
    (hSuccess : reply.success = true) :
    rf'.TookEntries args := by
  have hLength : rf.log.length = rest.length + 1 := by
    rw [hLog, List.length_cons]
  cases appendEntries_case hStep with
  | stale _ _ hFailed =>
      rw [hFailed] at hSuccess
      cases hSuccess
  | good _ len hLen hIndex _ _ _ =>
      rw [globalLogLen_of_log hLog, Option.some.injEq] at hLen
      refine ⟨rfl, rfl, rfl, first, rest ++ args.entries, ?_,
        hApplied, ?_⟩
      · change rf.log ++ args.entries = _
        rw [hLog, List.cons_append]
      · by_cases hNil : args.entries = []
        · left
          refine ⟨hNil, ?_, rfl⟩
          rw [hNil, List.append_nil]
          omega
        · right
          have hPos := List.length_pos_of_ne_nil hNil
          constructor
          · rw [List.length_append]
            push_cast
            omega
          · intro k e hEntry _
            apply logAt_of_placed (le_refl rf.log.length)
              (by omega) _ hEntry
            rw [List.take_length]
            rfl
  | covered _ len hLen hIndex hPrev hPrefix =>
      rw [globalLogLen_of_log hLog, Option.some.injEq] at hLen
      refine ⟨rfl, rfl, rfl, first, rest, hLog, hApplied,
        Or.inr ⟨by omega, ?_⟩⟩
      intro k e hEntry _
      have hTerm := (prefixCheck_eq_all_iff hLog
        hApplied).mp (by rw [Nat.zero_add]; exact hPrefix) k
          e hEntry
      have hPlace : args.prevLogIndex + 1 + (k : Int) -
          first.index = ((0 : Nat) : Int) + k +
            rf.lastApplied + 1 - first.index := by
        omega
      rw [hPlace]
      exact hTerm
  | fixed _ len hLen hIndex hPrev i hPrefix hDiffer bound
      hBound hRange =>
      rw [globalLogLen_of_log hLog, Option.some.injEq] at hLen
      rw [localIndex_of_log hLog, Option.some.injEq] at hBound
      have hNe : args.entries ≠ [] := by
        intro hNil
        rw [hNil] at hPrefix hDiffer
        cases hPrefix
        exact hDiffer rfl
      have hPos := List.length_pos_of_ne_nil hNe
      -- Everything up to `lastApplied` is kept.
      rcases Nat.exists_eq_add_of_lt
        (show 0 < bound.toNat by omega) with ⟨m, hm⟩
      rw [Nat.zero_add] at hm
      refine ⟨rfl, rfl, rfl, first,
        rest.take m ++ args.entries, ?_, hApplied,
        Or.inr ⟨?_, ?_⟩⟩
      · change rf.log.take bound.toNat ++ args.entries = _
        rw [hm, hLog, List.take_succ_cons, List.cons_append]
      · rw [List.length_append, List.length_take]
        push_cast
        omega
      · intro k e hEntry _
        exact logAt_of_placed (m := bound.toNat) (by omega)
          (by omega) rfl hEntry
  | rejected => cases hSuccess

theorem unmoved_of_notInstalled
    {args : InstallSnapshotArgs}
    {reply : InstallSnapshotReply}
    (hStep : rf.installSnapshot args = some (rf', reply))
    (hRefused : rf.installs args = false) :
    rf'.Unmoved (.installSnapshot args) := by
  have hNot : ¬ (rf.currentTerm ≤ args.term ∧
      rf.snapshotIndex < args.lastIncludedIndex) := by
    rw [← installs_eq_true_iff, hRefused]
    exact Bool.false_ne_true
  cases installSnapshot_case hStep with
  | refused =>
      refine ⟨rf.installs args, ?_⟩
      rw [handle, hStep]
      rfl
  | kept hTerm hNewer => exact absurd ⟨hTerm, hNewer⟩ hNot
  | reset hTerm hNewer => exact absurd ⟨hTerm, hNewer⟩ hNot

theorem snapshotIndex_of_installs
    {args : InstallSnapshotArgs}
    {reply : InstallSnapshotReply}
    (hStep : rf.installSnapshot args = some (rf', reply))
    (hInstalls : rf.installs args = true) :
    args.lastIncludedIndex ≤ rf'.snapshotIndex := by
  rcases installs_eq_true_iff.mp hInstalls with
    ⟨hTerm, hNewer⟩
  cases installSnapshot_case hStep with
  | refused hRefused => omega
  | kept => exact le_refl _
  | reset => exact le_refl _

/-
  What the first handling leaves: the request does not move
  the server again, and was taken if it was successful.
-/
theorem handle_cases
    (hIndexed : rf.WellIndexed)
    (request : Request C) :
    ∃ rf' ok,
      rf.handle request = some (rf', ok) ∧
      rf'.Unmoved request ∧
      (ok = true → rf'.Took request) ∧
      (request.Numbered → rf'.WellIndexed) := by
  have hRange := hIndexed
  rcases hRange with ⟨first, rest, h⟩
  cases request with
  | requestVote args =>
      rcases requestVote_isSome h.log args with
        ⟨⟨rf', reply⟩, hStep⟩
      have hIndexed' :=
        hIndexed.of_requestVote (requestVote_case hStep)
      refine ⟨rf', reply.voteGranted, ?_, ?_, ?_, ?_⟩
      · rw [handle, hStep]
        rfl
      · cases hGranted : reply.voteGranted with
        | false =>
            exact unmoved_of_voteRefused h.log hStep hGranted
        | true =>
            rcases hIndexed' with ⟨first', rest', h'⟩
            exact (tookVote_of_granted hStep hGranted).unmoved
              h'.log
      · exact tookVote_of_granted hStep
      · intro _
        exact hIndexed'
  | appendEntries args =>
      have hBase := baseIndex_of_log h.log
      have hGe := h.applied_ge
      rcases appendEntries_isSome hBase (by omega) args with
        ⟨rf', reply, hStep⟩
      refine ⟨rf', reply.success, ?_, ?_, ?_, ?_⟩
      · rw [handle, hStep]
        rfl
      · cases hSuccess : reply.success with
        | false =>
            exact unmoved_of_rejected h.log hGe hStep hSuccess
        | true =>
            exact (tookEntries_of_success h.log hGe hStep
              hSuccess).unmoved
      · exact tookEntries_of_success h.log hGe hStep
      · intro hNumbered
        exact hIndexed.of_appendEntries hNumbered
          (appendEntries_case hStep)
  | installSnapshot args =>
      have hNe : rf.log ≠ [] := by
        rw [h.log]
        exact List.cons_ne_nil _ _
      rcases installSnapshot_isSome hNe args with
        ⟨rf', reply, hStep⟩
      have hIndexed' := hIndexed.of_installSnapshot
        (installSnapshot_case hStep)
      refine ⟨rf', rf.installs args, ?_, ?_, ?_, ?_⟩
      · rw [handle, hStep]
        rfl
      · cases hInstalls : rf.installs args with
        | false => exact unmoved_of_notInstalled hStep hInstalls
        | true =>
            rcases hIndexed' with ⟨first', rest', h'⟩
            exact unmoved_of_snapshotIndex
              (snapshotIndex_of_installs hStep hInstalls)
              h'.log
      · exact snapshotIndex_of_installs hStep
      · intro _
        exact hIndexed'

end First

------------------------------------------------------------
-- Applying And Compacting
------------------------------------------------------------

section Later

variable {rf rf' : Raft C n}

/- An iteration of the apply loop changes `lastApplied`. -/
theorem Took.applyIteration
    {request : Request C}
    (hTook : rf.Took request)
    (hStep : rf.applyIteration = some (some rf')) :
    rf'.Took request := by
  rcases applyIteration_cases hStep with
    ⟨l, entry, _, _, _, _,
      ⟨_, external, _, rfl⟩ | ⟨_, rfl⟩⟩
  all_goals
    cases request with
    | requestVote args =>
        exact ⟨hTook.term, hTook.voted, hTook.follower,
          hTook.saved⟩
    | appendEntries args =>
        rcases hTook.entries with
          ⟨first, rest, hLog, hApplied, hEntries⟩
        exact ⟨hTook.term, hTook.follower, hTook.saved,
          first, rest, hLog, by dsimp only; omega, hEntries⟩
    | installSnapshot args => exact hTook

/-
  Compaction replaces the first entries of the log by a no-op
  of the term and the index of the last one of them.
-/
theorem logAt_compacted
    {index : Int}
    {snapshot : Bytes}
    {l : Nat}
    {first first' : LogEntry C}
    {rest' : List (LogEntry C)}
    (hDrop : rf.log.drop l = first' :: rest')
    (hFirst : first'.index = first.index + l)
    {i : Int}
    (hi : first'.index ≤ i) :
    ((rf.compacted index snapshot first' rest').logAt
        (i - first'.index)).map (fun own => own.term) =
      (rf.logAt (i - first.index)).map
        (fun own => own.term) := by
  have hNew : i - first'.index =
      (((i - first'.index).toNat : Nat) : Int) := by
    omega
  have hOld : i - first.index =
      ((l + (i - first'.index).toNat : Nat) : Int) := by
    push_cast
    omega
  unfold logAt
  rw [hNew, hOld, GoSlice.at?_natCast, GoSlice.at?_natCast,
    ← List.getElem?_drop, hDrop]
  cases (i - first'.index).toNat with
  | zero => rfl
  | succ k => rfl

theorem TookEntries.compacted
    {args : AppendEntriesArgs C}
    (hTook : rf.TookEntries args)
    (hIndexed : rf.WellIndexed)
    {index prevIndex : Int}
    {snapshot : Bytes}
    {l : Nat}
    {first' : LogEntry C}
    {rest' : List (LogEntry C)}
    (hApplied : prevIndex ≤ rf.lastApplied)
    (hLocal : rf.localIndex prevIndex = some (l : Int))
    (hDrop : rf.log.drop l = first' :: rest') :
    (rf.compacted index snapshot first'
      rest').TookEntries args := by
  rcases hTook.entries with
    ⟨first, rest, hLog, hLow, hEntries⟩
  rcases hIndexed with ⟨first₀, rest₀, h⟩
  have hSame : first₀ = first :=
    (List.cons.inj (h.log.symm.trans hLog)).1
  subst hSame
  rw [localIndex_of_log hLog, Option.some.injEq] at hLocal
  have hSuffix := h.indexed.drop l
  rw [hDrop] at hSuffix
  have hFirst : first'.index = first₀.index + l := by
    simpa using hSuffix 0 first' rfl
  have hLength : l + (rest'.length + 1) =
      rest.length + 1 := by
    have hCount := congrArg List.length hDrop
    rw [List.length_drop, hLog, List.length_cons,
      List.length_cons] at hCount
    omega
  refine ⟨hTook.term, hTook.follower, rfl,
    { first' with type := .noop }, rest', rfl, ?_, ?_⟩
  · change first'.index ≤ rf.lastApplied
    omega
  · change
      args.entries = [] ∧
          first'.index + rest'.length = args.prevLogIndex ∧
          rf.commitIndex = args.leaderCommit ∨
        args.prevLogIndex < first'.index + rest'.length ∧
          ∀ (k : Nat) (e : LogEntry C),
            args.entries[k]? = some e →
            first'.index ≤ args.prevLogIndex + 1 + k →
            ((rf.compacted index snapshot first' rest').logAt
              (args.prevLogIndex + 1 + k -
                first'.index)).map (fun own => own.term) =
                  some e.term
    rcases hEntries with ⟨hNil, hEnd, hCommit⟩ |
      ⟨hLt, hTerms⟩
    · exact Or.inl ⟨hNil, by omega, hCommit⟩
    · refine Or.inr ⟨by omega, ?_⟩
      intro k e hEntry hk
      rw [logAt_compacted hDrop hFirst hk]
      exact hTerms k e hEntry (by omega)

theorem Took.takeSnapshot
    {request : Request C}
    (hTook : rf.Took request)
    (hIndexed : rf.WellIndexed)
    {index : Int}
    {snapshot : Bytes}
    (hStep : rf.takeSnapshot index snapshot = some rf') :
    rf'.Took request ∧ rf'.WellIndexed := by
  rcases takeSnapshot_cases hStep with
    rfl | ⟨prevIndex, l, first', rest', _, hNewer, hApplied,
      hLocal, hDrop, rfl⟩
  · exact ⟨hTook, hIndexed⟩
  · refine ⟨?_, hIndexed.of_takeSnapshot hApplied hLocal
      hDrop⟩
    cases request with
    | requestVote args =>
        exact ⟨hTook.term, hTook.voted, hTook.follower, rfl⟩
    | appendEntries args =>
        exact TookEntries.compacted hTook hIndexed hApplied
          hLocal hDrop
    | installSnapshot args =>
        exact le_of_lt (lt_of_le_of_lt hTook hNewer)

theorem Later.took
    {request : Request C}
    (hLater : rf.Later rf')
    (hTook : rf.Took request)
    (hIndexed : rf.WellIndexed) :
    rf'.Took request ∧ rf'.WellIndexed := by
  induction hLater with
  | refl => exact ⟨hTook, hIndexed⟩
  | applyIteration _ hStep ih =>
      exact ⟨ih.1.applyIteration hStep,
        ih.2.of_applyIteration hStep⟩
  | takeSnapshot _ hStep ih =>
      exact ih.1.takeSnapshot ih.2 hStep

end Later

end Raft

------------------------------------------------------------
-- Reachable Servers
------------------------------------------------------------

namespace Cluster

open Raft

variable {C : Type} {n : Nat} [DecidableEq C]

/-
  Votes and snapshots, which carry no entries, and the
  entries that were sent to the server in the run.
-/
def Sent
    (c : Cluster C n)
    (i : Fin n) :
    Request C → Prop
| .appendEntries args =>
    ∃ sender, (sender, .appendEntries i args) ∈ c.trace
| _ => True

/-
  In every reachable state and for every request: a server
  that handles it twice in a row is as after the first time.
  If the first time succeeded, it may apply entries and take
  snapshots before the second, provided the entries of the
  request are numbered. Those of every request that was sent
  to it are, so such a request is harmless at any later time.
-/
theorem retries_harmless
    {c : Cluster C n}
    (hReach : (system C n).Reachable System.always c)
    (i : Fin n) :
    (∀ request : Request C, ∃ rf' ok,
      (c.nodes i).rf.handle request = some (rf', ok) ∧
      rf'.Unmoved request ∧
      (ok = true → request.Numbered →
        ∀ rf'', rf'.Later rf'' → rf''.Unmoved request)) ∧
    ∀ request : Request C,
      c.Sent i request →
      request.Numbered ∧
      ∀ rf',
        (c.nodes i).rf.handle request = some (rf', true) →
        ∀ rf'', rf'.Later rf'' → rf''.Unmoved request := by
  have hSafe := indexSafe_of_reachable hReach
  have hEvery : ∀ request : Request C, ∃ rf' ok,
      (c.nodes i).rf.handle request = some (rf', ok) ∧
      rf'.Unmoved request ∧
      (ok = true → request.Numbered →
        ∀ rf'', rf'.Later rf'' → rf''.Unmoved request) := by
    intro request
    rcases handle_cases (hSafe.nodes i) request with
      ⟨rf', ok, hStep, hUnmoved, hTook, hNumbered⟩
    refine ⟨rf', ok, hStep, hUnmoved, ?_⟩
    intro hOk hRequest rf'' hLater
    rcases hLater.took (hTook hOk) (hNumbered hRequest) with
      ⟨hTook', hIndexed'⟩
    exact hTook'.unmoved hIndexed'
  refine ⟨hEvery, ?_⟩
  intro request hSent
  have hNumbered : request.Numbered := by
    cases request with
    | appendEntries args =>
        rcases hSent with ⟨sender, hSent⟩
        exact hSafe.requests sender i args hSent
    | requestVote args => trivial
    | installSnapshot args => trivial
  refine ⟨hNumbered, ?_⟩
  intro rf' hStep
  rcases hEvery request with ⟨rf₁, ok, hStep₁, _, hLater⟩
  rw [hStep₁] at hStep
  cases hStep
  exact hLater rfl hNumbered

/- The first entries of a cluster, with a command at 2. -/
def firstEntries : AppendEntriesArgs Nat where
  term := 2
  leaderId := 0
  prevLogIndex := 0
  prevLogTerm := 1
  entries := [⟨2, .noop, 1, none⟩, ⟨2, .normal, 2, some 7⟩]
  leaderCommit := 2

/-
  A server accepts them, applies the command and compacts its
  log up to it.
-/
theorem retries_harmless_compacted :
    ∃ rf' r rf'' : Raft Nat 3,
      ((initial Nat 3).nodes 1).rf.handle
        (.appendEntries firstEntries) = some (rf', true) ∧
      rf'.applyIteration = some (some r) ∧
      r.takeSnapshot 1 [] = some rf'' ∧
      rf''.snapshotIndex = 1 ∧
      rf'.Unmoved (.appendEntries firstEntries) ∧
      rf''.Unmoved (.appendEntries firstEntries) := by
  have hNumbered :
      (Request.appendEntries firstEntries).Numbered :=
    (IndexedFrom.singleton rfl).append
      (IndexedFrom.singleton rfl)
  have hReach : (system Nat 3).Reachable System.always
      (initial Nat 3) :=
    initial_reachable System.always
  rcases (retries_harmless hReach 1).1
    (.appendEntries firstEntries) with
    ⟨rf', ok, hStep, hUnmoved, hLater⟩
  have hRun :
      ((((initial Nat 3).nodes 1).rf.handle
        (.appendEntries firstEntries)).bind (fun p =>
          p.1.applyIteration.bind (fun next =>
            next.bind (fun r =>
              (r.takeSnapshot 1 []).map (fun rf'' =>
                (p.2, rf''.snapshotIndex)))))) =
        some (true, 1) := by
    decide
  rw [hStep, Option.bind_some] at hRun
  rcases Option.bind_eq_some_iff.mp hRun with
    ⟨next, hNext, hRun⟩
  rcases Option.bind_eq_some_iff.mp hRun with
    ⟨r, rfl, hRun⟩
  rcases Option.map_eq_some_iff.mp hRun with
    ⟨rf'', hSnapshot, hEnd⟩
  rw [Prod.mk.injEq] at hEnd
  rcases hEnd with ⟨rfl, hIndex⟩
  refine ⟨rf', r, rf'', hStep, hNext, hSnapshot, hIndex,
    hUnmoved, ?_⟩
  apply hLater rfl hNumbered
  exact (Later.refl.applyIteration hNext).takeSnapshot
    hSnapshot

end Cluster

end RaftLab
