import RaftLab.Raft.Bookkeeping

/-
  What a server loses of its log, and how its commands are
  numbered.

  A request or a snapshot may cut the log of a server, but
  it cuts away nothing that the sender has as well. The
  commands of all logs are numbered from the start, so the
  index of a snapshot says how many of them it covers.

  Main declarations:
    * `Raft.Stored`, `Raft.Installs`
    * `LogChange`, `RaftStep.logChange`
    * `Cluster.Numbered`, `Cluster.HistoryStep.numbered`
-/

------------------------------------------------------------
-- Requests
------------------------------------------------------------

namespace RaftLab

variable {C : Type} {n : Nat}

/-
  The request replaces what follows position `p` in the log
  `full` by the entries of `log` from there to `k`.
-/
structure Raft.Stored
    (rf rf' : Raft C n)
    (args : AppendEntriesArgs C)
    (full log : List (LogEntry C))
    (p k : Nat) : Prop where
  term_le : rf.currentTerm ≤ args.term
  term_eq : rf'.currentTerm = args.term
  follower : rf'.state = .follower
  snapshot_eq : rf'.snapshotIndex = rf.snapshotIndex
  commit_eq : rf'.commitIndex = args.leaderCommit
  prev_eq : args.prevLogIndex = (p : Int)
  start_lt : p < k
  end_le : k ≤ log.length
  end_eq : (k : Int) =
    args.prevLogIndex + 1 + args.entries.length
  agrees : full.take (p + 1) = log.take (p + 1)
  applied : rf.lastApplied = (p : Int) ∨ p + 1 = full.length
  loses : k < full.length → full.take k ≠ log.take k

section Steps

variable {g : LogHistory C n}
variable {i : Fin n}
variable {rf rf' : Raft C n}
variable {b : Nat}

/-
  A request leaves the log and the commit index alone, or
  it is stored.
-/
theorem Raft.AppendEntriesCase.stored_cases
    {args : AppendEntriesArgs C}
    {reply : AppendEntriesReply}
    (hCase : rf.AppendEntriesCase args rf' reply)
    (hSuffix : rf.SuffixOf (g.full i) b)
    (hApplied : (b : Int) ≤ rf.lastApplied)
    (hArgs : AppendedFrom (g.leaderLog args.term) args)
    (hMatching :
      LogMatching (g.full i) (g.leaderLog args.term))
    (hFix :
      rf.takesFix args = true → rf.hasPrevTerm args = true) :
    (rf'.log = rf.log ∧
      rf'.snapshotIndex = rf.snapshotIndex ∧
      rf'.commitIndex = rf.commitIndex) ∨
    ∃ p k : Nat,
      rf.Stored rf' args (g.full i) (g.leaderLog args.term)
        p k ∧
      rf'.SuffixOf ((g.leaderLog args.term).take k) b ∧
      g.fullAfter rf rf' i (.appendEntries args) =
        (g.leaderLog args.term).take k := by
  have hFull := hCase.full_cases hSuffix hApplied hArgs
    hMatching (fun hTakes _ => hFix hTakes)
  have hLength := hSuffix.globalLogLen
  have hLt := hSuffix.lt_length
  rcases hArgs with
    ⟨p, k, hStart, hEnd, hPrev, hPrevTerm, hEntries⟩
  have hCount : args.entries.length = k - (p + 1) := by
    rw [hEntries, List.length_drop, List.length_take]
    omega
  -- the end of the request is the end of the new log
  have hStored :
      ∀ k' : Nat,
        (k' : Int) =
          args.prevLogIndex + 1 + args.entries.length →
        k' = k := by
    intro k' hEq
    omega
  cases hCase with
  | stale => exact Or.inl ⟨rfl, rfl, rfl⟩
  | covered => exact Or.inl ⟨rfl, rfl, rfl⟩
  | rejected => exact Or.inl ⟨rfl, rfl, rfl⟩
  | good hTerm len hLen hIndex hLast _ hSuccess =>
      right
      rw [hLength, Option.some.injEq] at hLen
      rcases hFull with
        ⟨_, _, hCovered⟩ |
        ⟨_, _, k', _, _, hEq, hNew, hTake⟩
      · -- the request starts at the end of the log
        exfalso
        have hTakes := (hCovered hSuccess).1
        simp only [takesFix, hLength, Option.any_some,
          Bool.and_eq_true, decide_eq_true_eq] at hTakes
        omega
      · have hPosition : p = (g.full i).length - 1 := by
          omega
        rw [hSuffix.lastLogTerm, ← hPosition] at hLast
        rw [hStored k' hEq] at hNew hTake
        exact ⟨p, k, ⟨hTerm, rfl, rfl, rfl, rfl, hPrev,
          hStart, hEnd,
          by omega, hMatching p _ hLast hPrevTerm,
          Or.inr (by omega), by omega⟩,
          hNew, hTake⟩
  | fixed hTerm len hLen hIndex hPosition j hPrefix hDiffer
      bound hBound hRange _ hSuccess =>
      right
      have hTakes :=
        takesFix_of hTerm hLen hIndex hPosition
      have hHas := hFix hTakes
      rw [hSuffix.hasPrevTerm_iff (by omega) hPrev] at hHas
      rcases hFull with
        ⟨_, _, hCovered⟩ |
        ⟨_, _, k', _, _, hEq, hNew, hTake⟩
      · exfalso
        rw [(hCovered hSuccess).2,
          Option.some.injEq] at hPrefix
        exact hDiffer hPrefix.symm
      · rw [hStored k' hEq] at hNew hTake
        refine ⟨p, k, ⟨hTerm, rfl, rfl, rfl, rfl, hPrev,
          hStart, hEnd,
          by omega, hMatching p _ hHas hPrevTerm,
          Or.inl (hPosition.symm.trans hPrev), ?_⟩,
          hNew, hTake⟩
        -- the prefix check would find all entries
        intro _ hAgree
        have hAll :
            rf.prefixCheck args.entries.length 0
                args.entries =
              some (0 + args.entries.length) := by
          apply hSuffix.prefixCheck_eq_all
            (hPosition.symm.trans hPrev) (by omega)
          intro q e hEntry
          rw [hEntries, List.getElem?_drop, ← hAgree]
            at hEntry
          exact termAt_eq_some_iff.mpr ⟨e,
            getElem?_of_extends (List.take_prefix _ _)
              hEntry, rfl⟩
        rw [Nat.zero_add, hPrefix, Option.some.injEq] at hAll
        exact hDiffer hAll

------------------------------------------------------------
-- Snapshots
------------------------------------------------------------

/- A snapshot that ends at position `b` is taken over. -/
structure Raft.Installs
    (rf rf' : Raft C n)
    (args : InstallSnapshotArgs)
    (b : Nat) : Prop where
  term_le : rf.currentTerm ≤ args.term
  term_eq : rf'.currentTerm = rf.currentTerm
  follower : rf'.state = .follower
  newer : rf.snapshotIndex < args.lastIncludedIndex
  snapshot_eq : rf'.snapshotIndex = args.lastIncludedIndex
  internal_eq : args.lastIncludedInternal = (b : Int)
  commit_eq : rf'.commitIndex = (b : Int)

/-
  A snapshot is taken over with what the server has after
  it, if it has the log of the sender up to there. Otherwise
  it has that log afterwards.
-/
theorem Raft.InstallSnapshotCase.installed_cases
    {args : InstallSnapshotArgs}
    {reply : InstallSnapshotReply}
    (hCase : rf.InstallSnapshotCase args rf' reply)
    (hSuffix : rf.SuffixOf (g.full i) b)
    (hArgs : SnapshotOf (g.leaderLog args.term) args)
    (hMatching :
      LogMatching (g.full i) (g.leaderLog args.term))
    (hNumber :
      rf.snapshotIndex = (commandCount (g.full i) b : Int))
    (hNumber' :
      ∀ b' : Nat, args.lastIncludedInternal = (b' : Int) →
        args.lastIncludedIndex =
          (commandCount (g.leaderLog args.term) b' : Int)) :
    (rf' = rf ∧
      g.fullAfter rf rf' i (.installSnapshot args) =
        g.full i) ∨
    ∃ b' : Nat,
      rf.Installs rf' args b' ∧
      b' < (g.leaderLog args.term).length ∧
      rf'.SuffixOf
        (g.fullAfter rf rf' i (.installSnapshot args)) b' ∧
      ((b ≤ b' ∧
        (g.full i).take (b' + 1) =
          (g.leaderLog args.term).take (b' + 1) ∧
        g.fullAfter rf rf' i (.installSnapshot args) =
          g.full i) ∨
      ((g.full i).take (b' + 1) ≠
          (g.leaderLog args.term).take (b' + 1) ∧
        g.fullAfter rf rf' i (.installSnapshot args) =
          (g.leaderLog args.term).take (b' + 1))) := by
  rcases hCase.full_cases hSuffix hArgs hMatching with
    hRefused |
    ⟨b', hInternal, hLength, hLast, hFollower, hCut⟩
  · exact Or.inl hRefused
  · have hTaken : rf' = rf ∨ rf.Installs rf' args b' := by
      cases hCase with
      | refused => exact Or.inl rfl
      | kept hTerm hNewer =>
          exact Or.inr ⟨hTerm, rfl, rfl, hNewer, rfl, hInternal,
            hInternal⟩
      | reset hTerm hNewer =>
          exact Or.inr ⟨hTerm, rfl, rfl, hNewer, rfl, hInternal,
            hInternal⟩
    rcases hTaken with rfl | hInstalls
    · exact Or.inl
        ⟨rfl, LogHistory.fullAfter_of_suffix rfl hSuffix⟩
    · right
      refine ⟨b', hInstalls, hLength, ?_⟩
      rcases hCut with
        ⟨hLe, hTake, hNew, hEq⟩ | ⟨hDiffer, hNew, hEq⟩
      · rw [hEq]
        exact ⟨hNew, Or.inl ⟨hLe, hTake, rfl⟩⟩
      · rw [hEq]
        refine ⟨hNew, Or.inr ⟨?_, rfl⟩⟩
        -- a cut behind the old one covers fewer commands
        intro hTake
        rcases Nat.lt_or_ge b' b with hLt | hLe
        · have hMono := commandCount_mono (g.full i)
            (Nat.le_of_lt hLt)
          have hCount := commandCount_congr hTake
          have hIndex := hNumber' b' hInternal
          have hNewer := hInstalls.newer
          omega
        · exact hDiffer hLe hTake

------------------------------------------------------------
-- All Steps
------------------------------------------------------------

/- The requests of leaders. -/
def Event.replicates : Event C n → Bool
| .appendEntries _ => true
| .installSnapshot _ => true
| _ => false

/-
  What a step does to the full log of a server and to its
  cut at `b`. The indices are the full log and the cut after
  the step.
-/
inductive LogChange
    (g : LogHistory C n)
    (rf : Raft C n)
    (i : Fin n)
    (b : Nat)
    (event : Event C n)
    (rf' : Raft C n) :
    List (LogEntry C) → Nat → Prop
  | kept
      (hIndex : rf'.snapshotIndex = rf.snapshotIndex)
      (hCommit : event.replicates = true →
        rf'.commitIndex = rf.commitIndex) :
      LogChange g rf i b event rf' (g.full i) b
  | extended
      (e : LogEntry C)
      (hIndex : rf'.snapshotIndex = rf.snapshotIndex)
      (hCommit : rf'.commitIndex = rf.commitIndex)
      (hLeader : rf'.state = .leader)
      (hTerm : rf'.currentTerm = rf.currentTerm)
      (hEntry : e.term = rf.currentTerm) :
      LogChange g rf i b event rf' (g.full i ++ [e]) b
  | compacted
      (index : Int)
      (snapshot : Bytes)
      (hEvent : event = .takeSnapshot index snapshot)
      (hNewer : rf.snapshotIndex < index)
      (hIndex : rf'.snapshotIndex = index)
      (hTerm : rf'.currentTerm = rf.currentTerm)
      (b' : Nat)
      (hPrev : rf.internalIndex index = some (b' : Int))
      (hLe : b ≤ b') :
      LogChange g rf i b event rf' (g.full i) b'
  | stored
      (args : AppendEntriesArgs C)
      (hEvent : event = .appendEntries args)
      (p k : Nat)
      (hStored : rf.Stored rf' args (g.full i)
        (g.leaderLog args.term) p k)
      (hAfter : b ≤ p) :
      LogChange g rf i b event rf'
        ((g.leaderLog args.term).take k) b
  | installed
      (args : InstallSnapshotArgs)
      (hEvent : event = .installSnapshot args)
      (b' : Nat)
      (hInstalls : rf.Installs rf' args b')
      (hLt : b' < (g.leaderLog args.term).length)
      (hLe : b ≤ b')
      (hTake : (g.full i).take (b' + 1) =
        (g.leaderLog args.term).take (b' + 1)) :
      LogChange g rf i b event rf' (g.full i) b'
  | reset
      (args : InstallSnapshotArgs)
      (hEvent : event = .installSnapshot args)
      (b' : Nat)
      (hInstalls : rf.Installs rf' args b')
      (hLt : b' < (g.leaderLog args.term).length)
      (hDiffer : (g.full i).take (b' + 1) ≠
        (g.leaderLog args.term).take (b' + 1)) :
      LogChange g rf i b event rf'
        ((g.leaderLog args.term).take (b' + 1)) b'

/- A leader's step, which appends an entry. -/
theorem Raft.SuffixOf.extended
    {event : Event C n}
    {e : LogEntry C}
    (hSuffix : rf.SuffixOf (g.full i) b)
    (hLog : rf'.log = rf.log ++ [e])
    (hIndex : rf'.snapshotIndex = rf.snapshotIndex)
    (hCommit : rf'.commitIndex = rf.commitIndex)
    (hLeader : rf'.state = .leader)
    (hTerm : rf'.currentTerm = rf.currentTerm)
    (hEntry : e.term = rf.currentTerm) :
    ∃ b', rf'.SuffixOf (g.fullAfter rf rf' i event) b' ∧
      LogChange g rf i b event rf'
        (g.fullAfter rf rf' i event) b' := by
  have hNew := hSuffix.of_append hLog
  have hLt := hSuffix.lt_length
  have hEq : g.fullAfter rf rf' i event =
      g.full i ++ [e] := by
    apply LogHistory.fullAfter_eq hNew
    rw [LogHistory.below_eq_full hIndex,
      List.take_append_of_le_length (by omega)]
  rw [hEq]
  exact ⟨b, hNew,
    .extended e hIndex hCommit hLeader hTerm hEntry⟩

theorem RaftStep.logChange
    {nd : Node C n}
    {event : Event C n}
    {effects : List (Effect C n)}
    (hStep : RaftStep nd event rf' effects)
    (hRf : nd.rf.Persisted)
    (hSuffix : nd.rf.SuffixOf (g.full i) b)
    (hApplied : (b : Int) ≤ nd.rf.lastApplied)
    (hIndexed : Indexed (g.full i))
    (hMatching :
      ∀ t, LogMatching (g.full i) (g.leaderLog t))
    (hAppend :
      ∀ args, event = .appendEntries args →
        AppendedFrom (g.leaderLog args.term) args)
    (hFix : nd.takesMatchingFix event = true)
    (hInstall :
      ∀ args, event = .installSnapshot args →
        SnapshotOf (g.leaderLog args.term) args)
    (hNumber : nd.rf.snapshotIndex =
      (commandCount (g.full i) b : Int))
    (hNumber' :
      ∀ args, event = .installSnapshot args →
        ∀ b' : Nat, args.lastIncludedInternal = (b' : Int) →
          args.lastIncludedIndex =
            (commandCount (g.leaderLog args.term) b' :
              Int)) :
    ∃ b', rf'.SuffixOf (g.fullAfter nd.rf rf' i event) b' ∧
      LogChange g nd.rf i b event rf'
        (g.fullAfter nd.rf rf' i event) b' := by
  have hSame :
      rf'.log = nd.rf.log →
      rf'.snapshotIndex = nd.rf.snapshotIndex →
      (event.replicates = true →
        rf'.commitIndex = nd.rf.commitIndex) →
      ∃ b',
        rf'.SuffixOf (g.fullAfter nd.rf rf' i event) b' ∧
        LogChange g nd.rf i b event rf'
          (g.fullAfter nd.rf rf' i event) b' := by
    intro hLog hIndex hCommit
    have hNew := hSuffix.of_log_eq hLog
    rw [LogHistory.fullAfter_of_suffix hIndex hNew]
    exact ⟨b, hNew, .kept hIndex hCommit⟩
  cases hStep with
  | requestVote args hEvent rf' reply hCase =>
      rcases hCase.log_eq with ⟨hLog, hIndex, _⟩
      apply hSame hLog hIndex
      intro hRequest
      rw [hEvent] at hRequest
      cases hRequest
  | appendEntries args hEvent rf' reply hCase =>
      subst hEvent
      have hTakes : nd.rf.takesFix args = true →
          nd.rf.hasPrevTerm args = true := by
        intro hTakes
        simpa [Node.takesMatchingFix, hTakes] using hFix
      rcases hCase.stored_cases hSuffix hApplied
          (hAppend args rfl) (hMatching _) hTakes with
        ⟨hLog, hIndex, hCommit⟩ |
        ⟨p, k, hStored, hNew, hEq⟩
      · exact hSame hLog hIndex (fun _ => hCommit)
      · rw [hEq]
        refine ⟨b, hNew, .stored args rfl p k hStored ?_⟩
        have hLt := hSuffix.lt_length
        rcases hStored.applied with hLast | hLast
        · omega
        · omega
  | installSnapshot args hEvent rf' reply hCase =>
      subst hEvent
      rcases hCase.installed_cases hSuffix
          (hInstall args rfl) (hMatching _) hNumber
          (hNumber' args rfl) with
        ⟨rfl, _⟩ | ⟨b', hInstalls, hLt, hNew,
          ⟨hLe, hTake, hEq⟩ | ⟨hDiffer, hEq⟩⟩
      · exact hSame rfl rfl (fun _ => rfl)
      · rw [hEq] at hNew ⊢
        exact ⟨b', hNew, .installed args rfl b' hInstalls
          hLt hLe hTake⟩
      · rw [hEq] at hNew ⊢
        exact ⟨b', hNew, .reset args rfl b' hInstalls hLt
          hDiffer⟩
  | start command hEvent hLeader len hLen =>
      exact hSuffix.extended rfl rfl rfl hLeader rfl rfl
  | win j k ballot hEvent hThread hCandiate hBallot len
      hLen =>
      exact hSuffix.extended rfl rfl rfl rfl rfl rfl
  | takeSnapshot index snapshot hEvent prevIndex l first
      rest hPrev hNewer hBound hLocal hDrop =>
      subst hEvent
      have hNew : (nd.rf.compacted index snapshot first
          rest).SuffixOf (g.full i) (b + l) :=
        hSuffix.of_indexed hIndexed hDrop
      rw [hSuffix.localIndex, Option.some.injEq] at hLocal
      have hPosition : prevIndex = ((b + l : Nat) : Int) := by
        omega
      rw [hPosition] at hPrev
      rw [LogHistory.fullAfter_eq hNew rfl]
      refine ⟨b + l, hNew, ?_⟩
      apply LogChange.compacted index snapshot rfl hNewer
      · rfl
      · rfl
      · exact hPrev
      · exact Nat.le_add_right b l
  | election j k hEvent hThread rf' args hStart =>
      rw [(Raft.electionStart_spec hStart).1] at hSame ⊢
      exact hSame rfl rfl (fun _ => rfl)
  | commit j k hEvent hThread N hTarget =>
      apply hSame rfl rfl
      intro hRequest
      rw [hEvent] at hRequest
      cases hRequest
  | applyEntries rf' hApply =>
      have hDurable := (Raft.applyEntries_volatile hApply).1
      simp only [Raft.durable, Prod.mk.injEq] at hDurable
      exact hSame hDurable.2.2.1 hDurable.2.2.2.2.1
        (fun _ => Raft.commitIndex_applyEntries hApply)
  | restart hEvent rf' hMake =>
      have hDurable := Raft.durable_of_make hRf hMake
      simp only [Raft.durable, Prod.mk.injEq] at hDurable
      apply hSame hDurable.2.2.1 hDurable.2.2.2.2.1
      intro hRequest
      rw [hEvent] at hRequest
      cases hRequest
  | _ => exact hSame rfl rfl (fun _ => rfl)

end Steps

------------------------------------------------------------
-- Numbered Commands
------------------------------------------------------------

namespace Cluster

/-
  Snapshots cover the commands that their indices say, those
  that servers hold and those that are sent.
-/
structure Numbered
    (c : Cluster C n)
    (g : LogHistory C n) : Prop where
  servers :
    ∀ i (b : Nat), (c.nodes i).rf.SuffixOf (g.full i) b →
      (c.nodes i).rf.snapshotIndex =
        (commandCount (g.full i) b : Int)
  snapshots :
    ∀ i j args, (i, .installSnapshot j args) ∈ c.trace →
      ∀ b : Nat, args.lastIncludedInternal = (b : Int) →
        args.lastIncludedIndex =
          (commandCount (g.leaderLog args.term) b : Int)

variable {c : Cluster C n}
variable {g : LogHistory C n}

theorem Numbered.initial :
    (Cluster.initial C n).Numbered LogHistory.start where
  servers := by
    intro i b hSuffix
    have hStart : Raft.SuffixOf
        ((Cluster.initial C n).nodes i).rf [startEntry] 0 :=
      ⟨startEntry, rfl, rfl, rfl, rfl⟩
    rw [hSuffix.cut_unique hStart]
    rfl
  snapshots := by
    intro i j args hMem
    cases hMem

namespace HistoryStep

variable {i : Fin n}
variable {event : Event C n}
variable {nd' : Node C n}
variable {effects : List (Effect C n)}

variable [DecidableEq C]
variable {ok : Cluster C n → Fin n × Event C n → Prop}

/- What the step does to the log of the server. -/
theorem logChange
    (hStep : HistoryStep ok c g i event nd' effects)
    (hKept : LogsKept ok)
    (hTakes : (c.nodes i).takesMatchingFix event = true)
    (hNumbered : c.Numbered g) :
    ∃ b b' : Nat,
      (c.nodes i).rf.SuffixOf (g.full i) b ∧
      nd'.rf.SuffixOf
        ((g.after i event (c.nodes i).rf nd'.rf).full i)
        b' ∧
      LogChange g (c.nodes i).rf i b event nd'.rf
        ((g.after i event (c.nodes i).rf nd'.rf).full i)
        b' := by
  have hLed := hStep.led hKept
  rcases hLed.holds i with ⟨b, hSuffix, hApplied⟩
  rw [full_self]
  refine ⟨b, ?_⟩
  rcases hStep.raftStep.logChange (persisted hStep.reach i)
      hSuffix hApplied (hLed.led i).indexed (hLed.matching i)
      (by
        rintro args rfl
        rcases deliverable_appendEntries.mp hStep.deliver with
          ⟨j, hSent⟩
        exact hLed.appends j i args hSent)
      hTakes
      (by
        rintro args rfl
        rcases deliverable_installSnapshot.mp hStep.deliver
          with ⟨j, hSent⟩
        exact hLed.snapshots j i args hSent)
      (hNumbered.servers i b hSuffix)
      (by
        rintro args rfl
        rcases deliverable_installSnapshot.mp hStep.deliver
          with ⟨j, hSent⟩
        exact hNumbered.snapshots j i args hSent) with
    ⟨b', hNew, hChange⟩
  exact ⟨b', hSuffix, hNew, hChange⟩

/- A leader's request is built from the log of its term. -/
theorem sent
    (hStep : HistoryStep ok c g i event nd' effects)
    (hKept : LogsKept ok)
    {effect : Effect C n}
    {t : Int}
    (hMem : effect ∈ effects)
    (hTerm : effect.leaderTerm = some t) :
    effect.BuiltFrom (c.nodes i).rf ∧ c.LeaderOf i t ∧
      g.leaderLog t = g.full i := by
  rcases hStep.raftStep.builtFrom hMem hTerm with
    ⟨hBuilt, hEq⟩
  have hLeader : c.LeaderOf i t :=
    ⟨hStep.raftStep.leader_of_request
      (hKept.builds c _ hStep.accepted) hMem hTerm, hEq.symm⟩
  exact ⟨hBuilt, hLeader,
    (hStep.led hKept).leader i t hLeader⟩

/-
  The numbers stay right. A snapshot is taken of commands
  that the log has.
-/
theorem numbered
    (hStep : HistoryStep ok c g i event nd' effects)
    (hKept : LogsKept ok)
    (hTakes : (c.nodes i).takesMatchingFix event = true)
    (hNumbered : c.Numbered g)
    (hReached :
      ∀ index snapshot,
        event = .takeSnapshot index snapshot →
        (c.nodes i).rf.snapshotIndex < index →
        ∃ x, index ≤ (commandCount (g.full i) x : Int)) :
    (c.after i nd' effects).Numbered
      (g.after i event (c.nodes i).rf nd'.rf) := by
  have hLed := hStep.led hKept
  have hGrows := hStep.grows hKept
  constructor
  · intro j b₁ hSuffix₁
    by_cases hj : j = i
    · subst hj
      rw [after_nodes_self] at hSuffix₁ ⊢
      rcases hStep.logChange hKept hTakes hNumbered with
        ⟨b, b', hSuffix, hNew, hChange⟩
      have hNumber := hNumbered.servers j b hSuffix
      have hCut := hSuffix₁.cut_unique hNew
      subst hCut
      generalize
        (g.after j event (c.nodes j).rf nd'.rf).full j = full
          at hChange ⊢
      have hLt := hSuffix.lt_length
      cases hChange with
      | kept hIndex =>
          rw [hIndex]
          exact hNumber
      | extended e hIndex =>
          rw [hIndex, hNumber]
          congr 1
          apply commandCount_congr
          rw [List.take_append_of_le_length (by omega)]
      | compacted index snapshot hEvent hNewer hIndex _ _
          hPrev hLe =>
          rcases hReached index snapshot hEvent hNewer with
            ⟨x, hx⟩
          rcases hSuffix.internalIndex hNumber hNewer hx with
            ⟨d, _, _, hFound, hCount, _⟩
          rw [hPrev, Option.some.injEq] at hFound
          have hd : d = b₁ := by omega
          rw [hIndex, hCount, hd]
      | stored args _ p k hStored hAfter =>
          rw [hStored.snapshot_eq, hNumber]
          congr 1
          apply commandCount_congr
          have hStart := hStored.start_lt
          have hTake := congrArg (List.take (b₁ + 1))
            hStored.agrees
          rw [List.take_take, List.take_take,
            Nat.min_eq_left (by omega)] at hTake
          rw [List.take_take, Nat.min_eq_left (by omega)]
          exact hTake
      | installed args hEvent _ hInstalls _ _ hTake =>
          subst hEvent
          rcases deliverable_installSnapshot.mp
            hStep.deliver with ⟨x, hSent⟩
          rw [hInstalls.snapshot_eq, hNumbered.snapshots x j
            args hSent b₁ hInstalls.internal_eq,
            commandCount_congr hTake]
      | reset args hEvent _ hInstalls =>
          subst hEvent
          rcases deliverable_installSnapshot.mp
            hStep.deliver with ⟨x, hSent⟩
          rw [hInstalls.snapshot_eq, hNumbered.snapshots x j
            args hSent b₁ hInstalls.internal_eq]
          congr 1
          apply commandCount_congr
          rw [List.take_take, Nat.min_self]
    · rw [after_nodes_of_ne hj, full_other hj] at hSuffix₁
      rw [after_nodes_of_ne hj, full_other hj]
      exact hNumbered.servers j b₁ hSuffix₁
  · intro j k args hMem b' hInternal
    have hOld : ∀ hBefore : b' < (g.leaderLog args.term).length,
        args.lastIncludedIndex =
          (commandCount (g.leaderLog args.term) b' : Int) →
        args.lastIncludedIndex =
          (commandCount ((g.after i event (c.nodes i).rf
            nd'.rf).leaderLog args.term) b' : Int) := by
      intro hBefore hIndex
      rw [hIndex]
      congr 1
      apply commandCount_congr
      exact (hGrows.take_eq hBefore).symm
    rcases mem_after_trace.mp hMem with hBefore | ⟨rfl, hSent⟩
    · rcases hLed.snapshots j k args hBefore with
        ⟨b, hInternal', hTerm⟩
      have hEq : b = b' := by omega
      subst hEq
      exact hOld (lt_length_of_termAt hTerm)
        (hNumbered.snapshots j k args hBefore b hInternal)
    · rcases hStep.sent hKept hSent rfl with
        ⟨⟨first, hFirst, hArgs⟩, _, hOwn⟩
      rcases hLed.holds j with ⟨b, hSuffix, _⟩
      rcases hSuffix.snapshotOf hFirst with
        ⟨b₂, hInternal₂, hTerm⟩
      rcases hSuffix.head with ⟨first', hLog, hBase, _⟩
      rcases Raft.logAt_zero_eq_some_iff.mp hFirst with
        ⟨rest, hRest⟩
      rw [hLog] at hRest
      have hHead := (List.cons.inj hRest).1
      have hEq : b' = b := by
        rw [hArgs] at hInternal
        change first.index = (b' : Int) at hInternal
        rw [← hHead, hBase] at hInternal
        omega
      rw [hEq]
      rw [hEq] at hOld
      apply hOld
      · rw [hOwn]
        exact hSuffix.lt_length
      · rw [hOwn, hArgs]
        exact hNumbered.servers j b hSuffix

end HistoryStep

end Cluster

end RaftLab
