import RaftLab.Raft.ApplyStream

/-
  Snapshots that go back.

  The handler of InstallSnapshot compares the snapshot with
  the last one of the server, not with what the server has
  applied since. A leader that acts on an old failed reply
  sends a snapshot to a follower that has moved on, and the
  follower goes back to it. A history keeps the messages that
  a server has put into its queue since it was last made.

  Main declarations:
    * `Raft.appliedIndex`
    * `Cluster.queueSystem`, `SnapshotsOrdered`
    * `Node.installsForward`
    * `Cluster.snapshots_move_forward`
-/

------------------------------------------------------------
-- The Number Of The Last Applied Entry
------------------------------------------------------------

namespace RaftLab

variable {C : Type} {n : Nat}

def commands (entries : List (LogEntry C)) : Nat :=
  entries.countP (fun e => decide (e.type ≠ .noop))

namespace Raft

/-
  The external index of `lastApplied`. A new server has
  `lastApplied` 1 and no entry there yet.
-/
def appliedIndex (rf : Raft C n) : Int :=
  match rf.log with
  | [] => rf.snapshotIndex
  | first :: rest =>
      rf.snapshotIndex +
        commands
          (rest.take (rf.lastApplied - first.index).toNat)

variable {rf rf' : Raft C n}
variable {first : LogEntry C} {rest : List (LogEntry C)}

theorem appliedIndex_of_log
    (hLog : rf.log = first :: rest) :
    rf.appliedIndex = rf.snapshotIndex +
      commands
        (rest.take (rf.lastApplied - first.index).toNat) := by
  unfold appliedIndex
  rw [hLog]

theorem snapshotIndex_le_appliedIndex (rf : Raft C n) :
    rf.snapshotIndex ≤ rf.appliedIndex := by
  unfold appliedIndex
  cases rf.log with
  | nil => exact le_refl _
  | cons first rest =>
      dsimp only
      omega

/- It is what the code computes, where it does not panic. -/
theorem externalIndex_of_log
    (hLog : rf.log = first :: rest)
    {i external : Int}
    (hBase : first.index ≤ i)
    (hExternal : rf.externalIndex i = some external) :
    external = rf.snapshotIndex +
      commands (rest.take (i - first.index).toNat) := by
  unfold externalIndex at hExternal
  rw [localIndex_of_log hLog] at hExternal
  simp only [Option.bind_eq_bind, Option.bind_some]
    at hExternal
  split at hExternal
  · have hCount : (i - first.index + 1).toNat =
        (i - first.index).toNat + 1 := by
      omega
    rw [hLog, hCount, List.take_succ_cons,
      List.drop_one, List.tail_cons] at hExternal
    cases hExternal
    exact Int.add_comm _ _
  · cases hExternal

theorem appliedIndex_append
    {entries : List (LogEntry C)}
    (hLog : rf.log = first :: rest)
    (hLog' : rf'.log = rf.log ++ entries)
    (hIndex : rf'.snapshotIndex = rf.snapshotIndex)
    (hApplied : rf'.lastApplied = rf.lastApplied) :
    rf.appliedIndex ≤ rf'.appliedIndex := by
  rw [hLog, List.cons_append] at hLog'
  rw [appliedIndex_of_log hLog, appliedIndex_of_log hLog',
    hIndex, hApplied, List.take_append]
  unfold commands
  rw [List.countP_append]
  push_cast
  omega

theorem appliedIndex_appendEntries
    {args : AppendEntriesArgs C}
    {reply : AppendEntriesReply}
    (hIndexed : rf.IndexedBy first rest)
    (hCase : rf.AppendEntriesCase args rf' reply) :
    rf.appliedIndex ≤ rf'.appliedIndex := by
  cases hCase with
  | stale => exact le_refl _
  | good =>
      exact appliedIndex_append hIndexed.log rfl rfl rfl
  | covered => exact le_of_eq rfl
  | fixed _ len _ _ _ i _ _ bound hBound hRange =>
      -- The entries up to `lastApplied` are kept.
      have hGe := hIndexed.applied_ge
      rw [localIndex_of_log hIndexed.log,
        Option.some.injEq] at hBound
      have hNat : bound.toNat =
          (rf.lastApplied - first.index).toNat + 1 := by
        omega
      have hLength :
          (rf.lastApplied - first.index).toNat ≤
            rest.length := by
        rw [hIndexed.log, List.length_cons] at hRange
        omega
      have hLog' :
          ((rf.syncState args).storeEntries
            (rf.log.take bound.toNat ++ args.entries)
              args.leaderCommit).log =
            first :: (rest.take
              (rf.lastApplied - first.index).toNat ++
                args.entries) := by
        change rf.log.take bound.toNat ++ args.entries = _
        rw [hNat, hIndexed.log, List.take_succ_cons,
          List.cons_append]
      rw [appliedIndex_of_log hIndexed.log,
        appliedIndex_of_log hLog']
      change _ ≤ rf.snapshotIndex +
        (commands ((rest.take _ ++ args.entries).take
          (rf.lastApplied - first.index).toNat) : Int)
      rw [List.take_left' (by
        rw [List.length_take]
        omega)]
  | rejected => exact le_of_eq rfl

/- After an installed snapshot nothing is applied yet. -/
theorem appliedIndex_installed
    (rf : Raft C n)
    (args : InstallSnapshotArgs)
    (entries : List (LogEntry C)) :
    (rf.installed args
      (snapshotEntry args :: entries)).appliedIndex =
        args.lastIncludedIndex := by
  have hLog :
      (rf.installed args
        (snapshotEntry args :: entries)).log =
          snapshotEntry args :: entries :=
    rfl
  rw [appliedIndex_of_log hLog]
  change args.lastIncludedIndex +
    (commands (entries.take (args.lastIncludedInternal -
      args.lastIncludedInternal).toNat) : Int) = _
  rw [Int.sub_self]
  exact Int.add_zero _

/-
  The loop of internalIndex does not count beyond the number
  it looks for.
-/
theorem commands_internalIndexLoop_le
    {target cnt : Int}
    (entries : List (LogEntry C))
    (i index : Nat)
    (hBelow : cnt < target) :
    cnt + commands (entries.take
      (internalIndexLoop target entries i index cnt - i +
        1)) ≤ target := by
  by_cases hReached : target ≤ cnt + commands entries
  · rcases Raft.internalIndexLoop_spec (i := i) target
      entries hBelow (m := entries.length) (by
        rw [List.take_length]
        exact hReached) with ⟨l, _, hLoop, hCount, _⟩
    rw [hLoop, Nat.add_sub_cancel_left]
    exact le_of_eq hCount
  · have hPart : commands (entries.take
        (internalIndexLoop target entries i index cnt - i +
          1)) ≤ commands entries :=
      (List.take_sublist _ _).countP_le
    omega

/- Compaction does not lower the number. -/
theorem appliedIndex_compacted
    (hIndexed : rf.IndexedBy first rest)
    {index prevIndex : Int}
    {snapshot : Bytes}
    {l : Nat}
    {first' : LogEntry C}
    {rest' : List (LogEntry C)}
    (hPrev : rf.internalIndex index = some prevIndex)
    (hNewer : rf.snapshotIndex < index)
    (hApplied : prevIndex ≤ rf.lastApplied)
    (hLocal : rf.localIndex prevIndex = some (l : Int))
    (hDrop : rf.log.drop l = first' :: rest') :
    rf.appliedIndex ≤
      (rf.compacted index snapshot first'
        rest').appliedIndex := by
  unfold internalIndex at hPrev
  rw [globalIndex_of_log hIndexed.log,
    Option.some.injEq] at hPrev
  rw [localIndex_of_log hIndexed.log,
    Option.some.injEq] at hLocal
  have hFirst : first'.index = first.index + l := by
    have hSuffix := hIndexed.indexed.drop l
    rw [hDrop] at hSuffix
    simpa using hSuffix 0 first' rfl
  -- What was cut off holds at most the commands covered.
  have hCut := commands_internalIndexLoop_le rf.log 0 0
    (show (0 : Int) < index - rf.snapshotIndex by omega)
  have hLoop : internalIndexLoop (index - rf.snapshotIndex)
      rf.log 0 0 0 = l := by
    omega
  rw [hLoop, Nat.sub_zero, Int.zero_add] at hCut
  have hSplit :
      commands (first :: rest.take
          (rf.lastApplied - first.index).toNat) =
        commands (rf.log.take (l + 1)) +
          commands (rest'.take
            (rf.lastApplied - first'.index).toNat) := by
    have hRest : rf.log.drop (l + 1) = rest' := by
      rw [← List.drop_drop, hDrop, List.drop_one,
        List.tail_cons]
    have hLength : (rf.lastApplied - first.index).toNat + 1 =
        l + 1 + (rf.lastApplied - first'.index).toNat := by
      omega
    rw [← List.take_succ_cons, ← hIndexed.log, hLength,
      List.take_add, hRest]
    exact List.countP_append
  have hHead :
      commands (first :: rest.take
          (rf.lastApplied - first.index).toNat) =
        commands (rest.take
          (rf.lastApplied - first.index).toNat) := by
    unfold commands
    rw [List.countP_cons_of_neg (by simp [hIndexed.noop])]
  have hLog' :
      (rf.compacted index snapshot first' rest').log =
        { first' with type := .noop } :: rest' :=
    rfl
  rw [appliedIndex_of_log hIndexed.log,
    appliedIndex_of_log hLog', ← hHead, hSplit]
  change _ ≤ index + (commands (rest'.take
    (rf.lastApplied - first'.index).toNat) : Int)
  push_cast
  omega

/- The apply loop enqueues a command under its number. -/
theorem appliedIndex_applyIteration
    (hIndexed : rf.IndexedBy first rest)
    (hStep : rf.applyIteration = some (some rf')) :
    rf.appliedIndex ≤ rf'.appliedIndex ∧
      (rf'.applyQueue = rf.applyQueue ∨
        ∃ msg,
          rf'.applyQueue = rf.applyQueue ++ [msg] ∧
          msg.snapshotValid = false ∧
          msg.index = rf'.appliedIndex) := by
  have hGe := hIndexed.applied_ge
  have hMore : commands (rest.take
        (rf.lastApplied - first.index).toNat) ≤
      commands (rest.take
        (rf.lastApplied + 1 - first.index).toNat) := by
    apply List.Sublist.countP_le
    apply List.take_sublist_take_left
    omega
  rcases applyIteration_cases hStep with
    ⟨l, entry, _, _, _, _, hNext⟩
  have hAfter : rf'.appliedIndex = rf.snapshotIndex +
      commands (rest.take
        (rf.lastApplied + 1 - first.index).toNat) := by
    rcases hNext with ⟨_, external, _, rfl⟩ | ⟨_, rfl⟩
    · exact appliedIndex_of_log hIndexed.log
    · exact appliedIndex_of_log hIndexed.log
  constructor
  · rw [appliedIndex_of_log hIndexed.log, hAfter]
    omega
  · rcases hNext with ⟨_, external, hExternal, hEq⟩ | ⟨_, hEq⟩
    · right
      refine ⟨commandMsg entry external, ?_, rfl, ?_⟩
      · rw [hEq]
      · rw [hAfter]
        exact externalIndex_of_log hIndexed.log (by omega)
          hExternal
    · left
      rw [hEq]

end Raft

------------------------------------------------------------
-- The Messages In The Queue
------------------------------------------------------------

/- No snapshot is below an index that was put in before. -/
def SnapshotsOrdered (msgs : List (ApplyMsg C)) : Prop :=
  msgs.Pairwise (fun before msg =>
    msg.snapshotValid = true →
      before.index ≤ msg.snapshotIndex)

instance (msgs : List (ApplyMsg C)) :
    Decidable (SnapshotsOrdered msgs) :=
  inferInstanceAs (Decidable (List.Pairwise _ msgs))

/-
  What was put into the queue is numbered up to the last
  applied entry.
-/
structure Raft.Queued
    (rf : Raft C n)
    (msgs : List (ApplyMsg C)) : Prop where
  le : ∀ msg ∈ msgs, msg.index ≤ rf.appliedIndex
  ordered : SnapshotsOrdered msgs

namespace Raft.Queued

variable {rf rf' : Raft C n} {msgs : List (ApplyMsg C)}

theorem mono
    (hQueued : rf.Queued msgs)
    (hLe : rf.appliedIndex ≤ rf'.appliedIndex) :
    rf'.Queued msgs := by
  refine ⟨?_, hQueued.ordered⟩
  intro msg hMem
  exact le_trans (hQueued.le msg hMem) hLe

theorem snoc
    (hQueued : rf.Queued msgs)
    (hLe : rf.appliedIndex ≤ rf'.appliedIndex)
    {msg : ApplyMsg C}
    (hIndex : msg.index ≤ rf'.appliedIndex)
    (hSnapshot : msg.snapshotValid = true →
      rf.appliedIndex ≤ msg.snapshotIndex) :
    rf'.Queued (msgs ++ [msg]) := by
  constructor
  · intro msg' hMem
    rcases List.mem_append.mp hMem with hOld | hNew
    · exact le_trans (hQueued.le msg' hOld) hLe
    · rw [List.mem_singleton.mp hNew]
      exact hIndex
  · apply List.pairwise_append.mpr
    refine ⟨hQueued.ordered, List.pairwise_singleton _ _, ?_⟩
    intro before hMem msg' hNew hValid
    rw [List.mem_singleton.mp hNew] at hValid ⊢
    exact le_trans (hQueued.le before hMem)
      (hSnapshot hValid)

/- Nothing is put into the queue. -/
theorem quiet
    (hQueued : rf.Queued msgs)
    (hQueue : rf'.applyQueue = rf.applyQueue)
    (hLe : rf.appliedIndex ≤ rf'.appliedIndex) :
    rf'.Queued (msgs ++
      rf'.applyQueue.drop rf.applyQueue.length) := by
  rw [hQueue, List.drop_length, List.append_nil]
  exact hQueued.mono hLe

theorem applyEntries
    (hQueued : rf.Queued msgs)
    (hIndexed : rf.WellIndexed)
    (hApply : rf.applyEntries = some rf') :
    rf'.Queued (msgs ++
      rf'.applyQueue.drop rf.applyQueue.length) := by
  have hLoop : rf'.WellIndexed ∧ ∃ new,
      rf'.applyQueue = rf.applyQueue ++ new ∧
        rf'.Queued (msgs ++ new) := by
    refine applyEntries_induct
      (P := fun r : Raft C n => r.WellIndexed ∧ ∃ new,
        r.applyQueue = rf.applyQueue ++ new ∧
          r.Queued (msgs ++ new)) ?_ ?_ hApply
    · rintro r r' ⟨hWell, new, hNew, hr⟩ hIteration
      refine ⟨hWell.of_applyIteration hIteration, ?_⟩
      rcases hWell with ⟨first, rest, h⟩
      rcases appliedIndex_applyIteration h hIteration with
        ⟨hLe, hSame | ⟨msg, hMsg, hCommand, hIndex⟩⟩
      · exact ⟨new, hSame.trans hNew, hr.mono hLe⟩
      · refine ⟨new ++ [msg], ?_, ?_⟩
        · rw [hMsg, hNew, List.append_assoc]
        · rw [← List.append_assoc]
          apply hr.snoc hLe (le_of_eq hIndex)
          intro hValid
          rw [hCommand] at hValid
          cases hValid
    · refine ⟨hIndexed, [], ?_, ?_⟩
      · rw [List.append_nil]
      · rw [List.append_nil]
        exact hQueued
  rcases hLoop with ⟨_, new, hNew, hResult⟩
  rw [hNew, List.drop_left]
  exact hResult

/- `Make` starts with the snapshot, if there is one. -/
theorem of_make
    {me : Fin n}
    {persister : Persister C}
    (hMake : Raft.make me persister = some rf) :
    rf.Queued rf.applyQueue := by
  rcases make_queue hMake with
    ⟨_, hNone⟩ | ⟨msg, hOne, hCommand, _, hIndex⟩
  · rw [hNone]
    refine ⟨?_, List.Pairwise.nil⟩
    intro msg hMem
    cases hMem
  · rw [hOne]
    refine ⟨?_, List.pairwise_singleton _ _⟩
    intro msg' hMem
    rw [List.mem_singleton.mp hMem]
    unfold ApplyMsg.index
    rw [hCommand, hIndex]
    exact snapshotIndex_le_appliedIndex rf

end Raft.Queued

------------------------------------------------------------
-- The History
------------------------------------------------------------

/- What each server enqueued since it was last made. -/
abbrev QueueHistory (C : Type) (n : Nat) : Type :=
  Fin n → List (ApplyMsg C)

def Node.enqueuedAfter
    (nd nd' : Node C n)
    (msgs : List (ApplyMsg C)) :
    Event C n → List (ApplyMsg C)
| .restart => nd'.rf.applyQueue
-- the queue is cleaned before the snapshot is put in
| .installSnapshot args =>
    if nd.rf.installs args then
      msgs ++ nd'.rf.applyQueue
    else
      msgs
| _ =>
    msgs ++
      nd'.rf.applyQueue.drop nd.rf.applyQueue.length

def recordQueue
    (c : Cluster C n)
    (a : Fin n × Event C n)
    (c' : Cluster C n)
    (g : QueueHistory C n) : QueueHistory C n :=
  Function.update g a.1
    ((c.nodes a.1).enqueuedAfter (c'.nodes a.1) (g a.1) a.2)

def Cluster.queueSystem
    (C : Type)
    [DecidableEq C]
    (n : Nat) :
    System (Cluster C n × QueueHistory C n)
      (Fin n × Event C n) :=
  (Cluster.system C n).withHistory (fun _ => []) recordQueue

/-
  A snapshot that is installed covers what the server has
  applied, in the index of its log and in that of the service.
-/
def Node.installsForward
    (nd : Node C n) :
    Event C n → Bool
| .installSnapshot args =>
    !nd.rf.installs args ||
      decide (nd.rf.lastApplied ≤
        args.lastIncludedInternal) &&
      decide (nd.rf.appliedIndex ≤ args.lastIncludedIndex)
| _ => true

------------------------------------------------------------
-- Steps
------------------------------------------------------------

/- The steps that neither install a snapshot nor restart. -/
theorem RaftStep.queued
    {nd : Node C n}
    {event : Event C n}
    {rf' : Raft C n}
    {effects : List (Effect C n)}
    {msgs : List (ApplyMsg C)}
    (hStep : RaftStep nd event rf' effects)
    (hIndexed : nd.rf.WellIndexed)
    (hQueued : nd.rf.Queued msgs)
    (hInstall : ∀ args, event ≠ .installSnapshot args)
    (hRestart : event ≠ .restart) :
    rf'.Queued (msgs ++
      rf'.applyQueue.drop nd.rf.applyQueue.length) := by
  have hRange := hIndexed
  rcases hRange with ⟨first, rest, h⟩
  cases hStep with
  | requestVote args hEvent rf' reply hCase =>
      have hSame : ∀ r : Raft C n,
          r = nd.rf ∨ r = nd.rf.adoptVoteTerm args ∨
            r = (nd.rf.adoptVoteTerm args).giveVote args →
          r.applyQueue = nd.rf.applyQueue ∧
            r.appliedIndex = nd.rf.appliedIndex := by
        intro r hr
        rcases hr with rfl | rfl | rfl
        · exact ⟨rfl, rfl⟩
        · unfold Raft.adoptVoteTerm
          split <;> exact ⟨rfl, rfl⟩
        · unfold Raft.giveVote Raft.adoptVoteTerm
          split <;> exact ⟨rfl, rfl⟩
      cases hCase with
      | stale => exact hQueued.quiet rfl (le_refl _)
      | refused =>
          rcases hSame _ (Or.inr (Or.inl rfl)) with
            ⟨hQueue, hIndex⟩
          exact hQueued.quiet hQueue (le_of_eq hIndex.symm)
      | granted =>
          rcases hSame _ (Or.inr (Or.inr rfl)) with
            ⟨hQueue, hIndex⟩
          exact hQueued.quiet hQueue (le_of_eq hIndex.symm)
  | appendEntries args hEvent rf' reply hCase =>
      have hLe := Raft.appliedIndex_appendEntries h hCase
      cases hCase with
      | stale => exact hQueued.quiet rfl hLe
      | good => exact hQueued.quiet rfl hLe
      | covered => exact hQueued.quiet rfl hLe
      | fixed => exact hQueued.quiet rfl hLe
      | rejected => exact hQueued.quiet rfl hLe
  | installSnapshot args hEvent =>
      exact absurd hEvent (hInstall args)
  | start command hEvent hLeader len hLen =>
      exact hQueued.quiet rfl
        (Raft.appliedIndex_append h.log rfl rfl rfl)
  | takeSnapshot index snapshot hEvent prevIndex l first'
      rest' hPrev hNewer hApplied hLocal hDrop =>
      exact hQueued.quiet rfl (Raft.appliedIndex_compacted h
        hPrev hNewer hApplied hLocal hDrop)
  | win i k ballot hEvent hThread hCandiate hBallot len
      hLen =>
      exact hQueued.quiet rfl
        (Raft.appliedIndex_append h.log rfl rfl rfl)
  | election i k hEvent hThread rf' args hStart =>
      rw [(Raft.electionStart_spec hStart).1]
      exact hQueued.quiet rfl (le_refl _)
  | applyEntries rf' hApply =>
      exact hQueued.applyEntries hIndexed hApply
  | dequeue msg queue hQueue =>
      have hLength : queue.length ≤
          nd.rf.applyQueue.length := by
        rw [hQueue, List.length_cons]
        omega
      change Raft.Queued _ (msgs ++
        queue.drop nd.rf.applyQueue.length)
      rw [List.drop_of_length_le hLength, List.append_nil]
      exact hQueued.mono (le_refl _)
  | restart hEvent => exact absurd hEvent hRestart
  | _ => exact hQueued.quiet rfl (le_refl _)

namespace Node

variable {nd nd' : Node C n}
variable {msgs : List (ApplyMsg C)}

theorem installsForward_iff
    {args : InstallSnapshotArgs} :
    nd.installsForward (.installSnapshot args) = true ↔
      (nd.rf.installs args = true →
        nd.rf.lastApplied ≤ args.lastIncludedInternal ∧
          nd.rf.appliedIndex ≤ args.lastIncludedIndex) := by
  cases hInstalls : nd.rf.installs args with
  | false => simp [installsForward, hInstalls]
  | true => simp [installsForward, hInstalls]

theorem queued_of_installSnapshot
    {args : InstallSnapshotArgs}
    {reply : InstallSnapshotReply}
    {rf' : Raft C n}
    (hQueued : nd.rf.Queued msgs)
    (hForward :
      nd.installsForward (.installSnapshot args) = true)
    (hCase : nd.rf.InstallSnapshotCase args rf' reply) :
    rf'.Queued
      (if nd.rf.installs args then
        msgs ++ rf'.applyQueue
      else
        msgs) := by
  cases hCase with
  | refused hRefused =>
      have hNot : nd.rf.installs args ≠ true := by
        intro hInstalls
        rcases Raft.installs_eq_true_iff.mp hInstalls with
          ⟨hTerm, hNewer⟩
        omega
      rw [if_neg hNot]
      exact hQueued
  | kept hTerm hNewer =>
      have hInstalls :=
        Raft.installs_eq_true_iff.mpr ⟨hTerm, hNewer⟩
      have hLe :=
        (installsForward_iff.mp hForward hInstalls).2
      rw [if_pos hInstalls]
      apply hQueued.snoc
      · rw [Raft.appliedIndex_installed]
        exact hLe
      · rw [Raft.appliedIndex_installed]
        exact le_refl _
      · intro _
        exact hLe
  | reset hTerm hNewer =>
      have hInstalls :=
        Raft.installs_eq_true_iff.mpr ⟨hTerm, hNewer⟩
      have hLe :=
        (installsForward_iff.mp hForward hInstalls).2
      rw [if_pos hInstalls]
      apply hQueued.snoc
      · rw [Raft.appliedIndex_installed]
        exact hLe
      · rw [Raft.appliedIndex_installed]
        exact le_refl _
      · intro _
        exact hLe

theorem lastApplied_le_of_installSnapshot
    {args : InstallSnapshotArgs}
    {reply : InstallSnapshotReply}
    {rf' : Raft C n}
    (hForward :
      nd.installsForward (.installSnapshot args) = true)
    (hCase : nd.rf.InstallSnapshotCase args rf' reply) :
    nd.rf.lastApplied ≤ rf'.lastApplied := by
  cases hCase with
  | refused => exact le_refl _
  | kept hTerm hNewer =>
      have hInstalls :=
        Raft.installs_eq_true_iff.mpr ⟨hTerm, hNewer⟩
      exact (installsForward_iff.mp hForward hInstalls).1
  | reset hTerm hNewer =>
      have hInstalls :=
        Raft.installs_eq_true_iff.mpr ⟨hTerm, hNewer⟩
      exact (installsForward_iff.mp hForward hInstalls).1

theorem step_installSnapshot
    {args : InstallSnapshotArgs}
    {effects : List (Effect C n)}
    (hStep : nd.step (.installSnapshot args) =
      some (nd', effects)) :
    ∃ reply,
      nd.rf.InstallSnapshotCase args nd'.rf reply := by
  rcases Option.bind_eq_some_iff.mp hStep with
    ⟨⟨rf', reply⟩, hInstall, hStep⟩
  cases hStep
  exact ⟨reply, Raft.installSnapshot_case hInstall⟩

theorem step_queued
    {event : Event C n}
    {effects : List (Effect C n)}
    (hStep : nd.step event = some (nd', effects))
    (hIndexed : nd.rf.WellIndexed)
    (hQueued : nd.rf.Queued msgs)
    (hForward : nd.installsForward event = true) :
    nd'.rf.Queued (nd.enqueuedAfter nd' msgs event) := by
  by_cases hRestart : event = .restart
  · subst hRestart
    rcases Option.map_eq_some_iff.mp hStep with
      ⟨nd₁, hMake, hEq⟩
    rcases Option.map_eq_some_iff.mp hMake with
      ⟨rf', hRaft, rfl⟩
    cases hEq
    exact Raft.Queued.of_make hRaft
  · by_cases hInstall : ∃ args, event = .installSnapshot args
    · rcases hInstall with ⟨args, rfl⟩
      rcases step_installSnapshot hStep with ⟨reply, hCase⟩
      exact queued_of_installSnapshot hQueued hForward hCase
    · have hOther := (step_raftStep hStep).queued hIndexed
        hQueued (fun args hEvent => hInstall ⟨args, hEvent⟩)
        hRestart
      cases event with
      | restart => exact absurd rfl hRestart
      | installSnapshot args =>
          exact absurd ⟨args, rfl⟩ hInstall
      | _ => exact hOther

end Node

------------------------------------------------------------
-- Runs
------------------------------------------------------------

namespace Cluster

variable [DecidableEq C]

def installsForward
    (p : Cluster C n × QueueHistory C n)
    (a : Fin n × Event C n) : Bool :=
  (p.1.nodes a.1).installsForward a.2

def InstallsForward
    (p : Cluster C n × QueueHistory C n)
    (a : Fin n × Event C n) : Prop :=
  installsForward p a = true

theorem indexSafe_of_queueSystem
    {ok : Cluster C n × QueueHistory C n →
      Fin n × Event C n → Prop}
    {p : Cluster C n × QueueHistory C n}
    (hReach : (queueSystem C n).Reachable ok p) :
    p.1.IndexSafe := by
  have hCluster :
      (system C n).Reachable System.always p.1 := by
    apply System.Reachable.forget_history
    exact hReach.mono fun _ _ _ => trivial
  exact indexSafe_of_reachable hCluster

theorem queued_of_reachable
    {p : Cluster C n × QueueHistory C n}
    (hReach : (queueSystem C n).Reachable InstallsForward p)
    (i : Fin n) :
    (p.1.nodes i).rf.Queued (p.2 i) := by
  revert i
  refine System.Reachable.induct
    (P := fun p : Cluster C n × QueueHistory C n =>
      ∀ i, (p.1.nodes i).rf.Queued (p.2 i)) ?_ ?_ hReach
  · rintro ⟨c, g⟩ ⟨hInit, hHistory⟩ i
    dsimp only at hHistory ⊢
    rw [hHistory]
    refine ⟨?_, List.Pairwise.nil⟩
    intro msg hMem
    cases hMem
  · rintro ⟨c, g⟩ ⟨j, event⟩ ⟨c', g'⟩ hReach ih hOk hStep i
    rcases System.withHistory_step_iff.mp hStep with
      ⟨hCluster, hRecord⟩
    rcases system_step_cases hCluster with
      ⟨nd', effects, _, hNode, hNext⟩
    have hSafe := indexSafe_of_queueSystem hReach
    dsimp only at hRecord hNext ih hSafe ⊢
    rw [hRecord]
    unfold recordQueue
    dsimp only
    rw [hNext]
    by_cases hi : i = j
    · subst hi
      dsimp only
      rw [Function.update_self, Function.update_self]
      exact Node.step_queued hNode (hSafe.nodes i) (ih i) hOk
    · dsimp only
      rw [Function.update_of_ne hi, Function.update_of_ne hi]
      exact ih i

/-
  In a run whose installed snapshots all cover what was
  applied, no snapshot is enqueued after a larger index, and
  handling one does not lower `lastApplied`.
-/
theorem snapshots_move_forward
    {p : Cluster C n × QueueHistory C n}
    (hReach :
      (queueSystem C n).Reachable InstallsForward p) :
    (∀ i, SnapshotsOrdered (p.2 i)) ∧
      ∀ i args q,
        InstallsForward p (i, .installSnapshot args) →
        (queueSystem C n).step (i, .installSnapshot args) p =
          some q →
        (p.1.nodes i).rf.lastApplied ≤
          (q.1.nodes i).rf.lastApplied := by
  refine ⟨fun i => (queued_of_reachable hReach i).ordered, ?_⟩
  intro i args q hOk hStep
  have hCluster := (System.withHistory_step_iff.mp hStep).1
  rcases system_step_cases hCluster with
    ⟨nd', effects, _, hNode, hNext⟩
  rw [hNext]
  dsimp only
  rw [Function.update_self]
  rcases Node.step_installSnapshot hNode with ⟨reply, hCase⟩
  exact Node.lastApplied_le_of_installSnapshot hOk hCase

------------------------------------------------------------
-- A Snapshot That Comes Late
------------------------------------------------------------

/- What server 0 has after index 0, as leader of term 2. -/
def commandsOfTwo : List (LogEntry Nat) :=
  [{ term := 2, type := .noop, index := 1, command := none },
    { term := 2, type := .normal, index := 2,
      command := some 7 },
    { term := 2, type := .normal, index := 3,
      command := some 8 }]

def requestFromTwo
    (p : Nat)
    (prevLogTerm leaderCommit : Int) :
    AppendEntriesArgs Nat where
  term := 2
  leaderId := 0
  prevLogIndex := p
  prevLogTerm := prevLogTerm
  entries := commandsOfTwo.drop p
  leaderCommit := leaderCommit

/- The reply of a server that has no entries yet. -/
def emptyReply (success : Bool) : AppendEntriesReply where
  term := 2
  success := success
  prevLogIndex := 0
  prevLogTerm := 1
  lastApplied := 1

/-
  Server 0 leads term 2, restarts and takes the others to
  have its log. Server 1 rejects its request, and the reply
  waits for the lock. The next replies of servers 1 and 2
  move their nextIndex back.
-/
def rejectedTwice {n : Nat} [NeZero n] :
    List (Fin n × Event Nat n) :=
  twoBallots ++
    [(0, .run 0), (0, .start (some 7)), (0, .start (some 8)),
      (0, .restart), (0, .run 0), (0, .run 0),
      (1, .appendEntries (requestFromTwo 3 2 0)),
      (0, .appendReply 0 (emptyReply false)),
      (0, .run 2), (0, .run 0),
      (0, .appendReply 0 (emptyReply false)), (0, .run 0),
      (2, .appendEntries (requestFromTwo 3 2 0)),
      (0, .appendReply 0 (emptyReply false)), (0, .run 0)]

/-
  Both take the log of server 0, which commits and applies
  all of it and compacts it up to the first command. Server 1
  applies both commands.
-/
def appliedEverywhere {n : Nat} [NeZero n] :
    List (Fin n × Event Nat n) :=
  [(0, .run 0), (0, .run 0),
    (1, .appendEntries (requestFromTwo 0 1 0)),
    (2, .appendEntries (requestFromTwo 0 1 0)),
    (0, .appendReply 0 (emptyReply true)), (0, .run 0),
    (0, .appendReply 0 (emptyReply true)), (0, .run 0),
    (0, .run 3), (0, .run 0), (0, .applyEntries),
    (0, .dequeue), (0, .applyCh), (0, .takeSnapshot 1 [1]),
    (0, .run 1), (0, .run 0),
    (1, .appendEntries (requestFromTwo 3 2 3)),
    (1, .applyEntries)]

/- What server 0 sends when it handles the first reply. -/
def lateSnapshot : InstallSnapshotArgs where
  term := 2
  leaderId := 0
  lastIncludedInternal := 2
  lastIncludedIndex := 1
  lastIncludedTerm := 2
  data := [1]

/-
  Server 1 goes back from index 3 to index 2, and enqueues
  the snapshot of the first command after both commands.
-/
theorem late_snapshot_unapplies :
    ¬ (∀ p : Cluster Nat 3 × QueueHistory Nat 3,
        (queueSystem Nat 3).Reachable System.always p →
        ∀ i, SnapshotsOrdered (p.2 i)) ∧
    ¬ (∀ p : Cluster Nat 3 × QueueHistory Nat 3,
        (queueSystem Nat 3).Reachable System.always p →
        ∀ i args q,
          (queueSystem Nat 3).step
            (i, .installSnapshot args) p = some q →
          (p.1.nodes i).rf.lastApplied ≤
            (q.1.nodes i).rf.lastApplied) := by
  have hExec :
      ((queueSystem Nat 3).exec
        (rejectedTwice ++ appliedEverywhere ++ [(0, .run 4)])
        (initial Nat 3, fun _ => [])).any (fun p =>
          ((queueSystem Nat 3).step
            (1, .installSnapshot lateSnapshot) p).any
              (fun q =>
                decide ((q.1.nodes 1).rf.lastApplied <
                  (p.1.nodes 1).rf.lastApplied) &&
                !decide (SnapshotsOrdered (q.2 1)))) =
        true := by
    decide +kernel
  rcases System.exists_run_of_exec hExec with ⟨p, hRun, hp⟩
  have hInit : (queueSystem Nat 3).init
      (initial Nat 3, fun _ => []) :=
    ⟨system_init_iff.mpr rfl, rfl⟩
  have hReach : (queueSystem Nat 3).Reachable System.always
      p :=
    (System.Reachable.init hInit).trans hRun
  rcases (Option.any_eq_true _ _).mp hp with ⟨q, hStep, hq⟩
  rw [Bool.and_eq_true, decide_eq_true_eq,
    Bool.not_eq_true', decide_eq_false_iff_not] at hq
  constructor
  · intro hClaim
    exact hq.2 (hClaim q
      (hReach.trans (System.Run.single trivial hStep)) 1)
  · intro hClaim
    exact not_le_of_gt hq.1 (hClaim p hReach 1 lateSnapshot q
      hStep)

/- Before server 1 applies the commands, it moves forward. -/
theorem snapshots_move_forward_new :
    ∃ p q : Cluster Nat 3 × QueueHistory Nat 3,
      (queueSystem Nat 3).Reachable InstallsForward p ∧
      (queueSystem Nat 3).step
        (1, .installSnapshot lateSnapshot) p = some q ∧
      (q.1.nodes 1).rf.snapshotIndex = 1 ∧
      SnapshotsOrdered (q.2 1) ∧
      (p.1.nodes 1).rf.lastApplied ≤
        (q.1.nodes 1).rf.lastApplied := by
  have hExec :
      ((queueSystem Nat 3).execOk installsForward
        (rejectedTwice ++ appliedEverywhere.take 14 ++
          [(0, .run 2)])
        (initial Nat 3, fun _ => [])).any (fun p =>
          installsForward p
            (1, .installSnapshot lateSnapshot) &&
          ((queueSystem Nat 3).step
            (1, .installSnapshot lateSnapshot) p).any
              (fun q => decide
                ((q.1.nodes 1).rf.snapshotIndex = 1))) =
        true := by
    decide +kernel
  rcases System.exists_run_of_execOk hExec with ⟨p, hRun, hp⟩
  rw [Bool.and_eq_true] at hp
  rcases hp with ⟨hOk, hp⟩
  rcases (Option.any_eq_true _ _).mp hp with ⟨q, hStep, hq⟩
  have hInit : (queueSystem Nat 3).init
      (initial Nat 3, fun _ => []) :=
    ⟨system_init_iff.mpr rfl, rfl⟩
  have hReach : (queueSystem Nat 3).Reachable InstallsForward
      p :=
    (System.Reachable.init hInit).trans hRun
  have hNext : (queueSystem Nat 3).Reachable InstallsForward
      q :=
    hReach.trans (System.Run.single hOk hStep)
  exact ⟨p, q, hReach, hStep, of_decide_eq_true hq,
    (snapshots_move_forward hNext).1 1,
    (snapshots_move_forward hReach).2 1 lateSnapshot q hOk
      hStep⟩

end Cluster

end RaftLab
