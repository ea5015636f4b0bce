import RaftLab.Raft.FirstEntry
import RaftLab.Raft.LogHistory

/-
  The messages a server puts on applyCh.

  A command is numbered from the log as it is when the entry
  is applied, by counting the commands after the snapshot.
  The message then waits in a queue and in the hands of the
  goroutine that sends it, while snapshots are taken and
  installed. A history keeps the messages sent since the
  server was last made, and the highest commit index it had.

  The results are about servers whose entries up to that
  index come from one committed sequence.

  Main declarations:
    * `GapFree`
    * `ApplyHistory`, `Cluster.applySystem`
    * `Raft.AgreesBelow`, `SnapshotFrom`,
      `Cluster.streamFits`
    * `Streams`, `Cluster.gapFree_of_reachable`
-/

------------------------------------------------------------
-- Streams Without Gaps
------------------------------------------------------------

namespace RaftLab

variable {C : Type} {n : Nat}

/- Its CommandIndex or its SnapshotIndex. -/
def ApplyMsg.index (msg : ApplyMsg C) : Int :=
  if msg.commandValid then msg.commandIndex
  else msg.snapshotIndex

/- The index of the last message, 0 before the first. -/
def lastIndex (msgs : List (ApplyMsg C)) : Int :=
  (msgs.getLast?.map ApplyMsg.index).getD 0

/- Each command follows the message before it. -/
def GapFree (msgs : List (ApplyMsg C)) : Prop :=
  ∀ before msg after,
    msgs = before ++ msg :: after →
    msg.commandValid = true →
    msg.commandIndex = lastIndex before + 1

@[simp] theorem lastIndex_nil :
    lastIndex ([] : List (ApplyMsg C)) = 0 := rfl

@[simp] theorem lastIndex_snoc
    (msgs : List (ApplyMsg C))
    (msg : ApplyMsg C) :
    lastIndex (msgs ++ [msg]) = msg.index := by
  simp [lastIndex]

namespace GapFree

theorem nil : GapFree ([] : List (ApplyMsg C)) := by
  intro before msg after hEq
  simp at hEq

theorem of_append
    {msgs msgs' : List (ApplyMsg C)}
    (hFree : GapFree (msgs ++ msgs')) :
    GapFree msgs := by
  intro before msg after hEq
  apply hFree before msg (after ++ msgs')
  rw [hEq, List.append_assoc, List.cons_append]

theorem snoc
    {msgs : List (ApplyMsg C)}
    (hFree : GapFree msgs)
    {msg : ApplyMsg C}
    (hNext : msg.commandValid = true →
      msg.commandIndex = lastIndex msgs + 1) :
    GapFree (msgs ++ [msg]) := by
  intro before msg' after hEq hValid
  rcases List.eq_nil_or_concat after with
    hNil | ⟨after', last, hConcat⟩
  · subst hNil
    rcases List.append_inj' hEq rfl with ⟨hBefore, hMsg⟩
    cases hMsg
    rw [← hBefore]
    exact hNext hValid
  · rw [List.concat_eq_append] at hConcat
    subst hConcat
    rw [← List.cons_append, ← List.append_assoc] at hEq
    rcases List.append_inj' hEq rfl with ⟨hMsgs, _⟩
    exact hFree before msg' after' hMsgs hValid

end GapFree

------------------------------------------------------------
-- The History
------------------------------------------------------------

/-
  For each server the messages it has sent since it was last
  made, and the highest commit index it has had.
-/
structure ApplyHistory (C : Type) (n : Nat) where
  sent : Fin n → List (ApplyMsg C)
  point : Fin n → Int

namespace ApplyHistory

def start : ApplyHistory C n where
  sent := fun _ => []
  point := fun _ => 0

def sentAfter
    (nd : Node C n)
    (sent : List (ApplyMsg C)) :
    Event C n → List (ApplyMsg C)
| .restart => []
| .applyCh => sent ++ nd.inHand.toList
| _ => sent

def record
    (c : Cluster C n)
    (a : Fin n × Event C n)
    (c' : Cluster C n)
    (g : ApplyHistory C n) : ApplyHistory C n where
  sent := Function.update g.sent a.1
    (sentAfter (c.nodes a.1) (g.sent a.1) a.2)
  point := Function.update g.point a.1
    (max (g.point a.1) (c'.nodes a.1).rf.commitIndex)

end ApplyHistory

/- What is still to be sent. -/
def Node.pending (nd : Node C n) : List (ApplyMsg C) :=
  nd.inHand.toList ++ nd.rf.applyQueue

------------------------------------------------------------
-- One Committed Sequence
------------------------------------------------------------

/-
  The entries of the log up to the index `point` are those of
  the committed sequence.
-/
def Raft.AgreesBelow
    (committed : List (LogEntry C))
    (point : Int)
    (rf : Raft C n) : Prop :=
  ∀ entry ∈ rf.log.drop 1,
    entry.index ≤ point →
    committed[entry.index.toNat]? = some entry

instance
    [DecidableEq C]
    (committed : List (LogEntry C))
    (point : Int)
    (rf : Raft C n) :
    Decidable (rf.AgreesBelow committed point) :=
  inferInstanceAs (Decidable (∀ entry ∈ rf.log.drop 1,
    entry.index ≤ point →
    committed[entry.index.toNat]? = some entry))

/- The snapshot covers the sequence up to some entry. -/
def SnapshotFrom
    (committed : List (LogEntry C))
    (args : InstallSnapshotArgs) : Prop :=
  0 ≤ args.lastIncludedInternal ∧
    termAt committed args.lastIncludedInternal.toNat =
      some args.lastIncludedTerm ∧
    args.lastIncludedIndex =
      commandCount committed args.lastIncludedInternal.toNat

instance
    (committed : List (LogEntry C))
    (args : InstallSnapshotArgs) :
    Decidable (SnapshotFrom committed args) :=
  inferInstanceAs (Decidable (_ ∧ _ ∧ _))

variable [DecidableEq C]

/-
  `full` is the log with what was cut from it, at `b`, taken
  from the committed sequence. The messages that were sent or
  are still to be sent have no gaps, the last one is numbered
  like the last applied entry, and the log still holds all
  committed entries that were numbered.
-/
structure Streams
    (committed : List (LogEntry C))
    (rf : Raft C n)
    (point : Int)
    (msgs : List (ApplyMsg C))
    (full : List (LogEntry C))
    (b : Nat) : Prop where
  suffix : rf.SuffixOf full b
  number : rf.snapshotIndex = (commandCount full b : Int)
  cut : (full.take (b + 1)).drop 1 =
    (committed.take (b + 1)).drop 1
  base_le : (b : Int) ≤ point
  agrees : ∀ (x : Nat) e,
    b < x →
    (x : Int) ≤ point →
    full[x]? = some e →
    committed[x]? = some e
  commit_le : rf.commitIndex ≤ point
  applied_ge : (b : Int) ≤ rf.lastApplied
  valid : ∀ msg ∈ msgs,
    msg.commandValid = true ∨ msg.snapshotValid = true
  reached : ∀ msg ∈ msgs,
    msg.commandValid = true →
    ∃ x : Nat,
      (x : Int) ≤ point ∧
      x < full.length ∧
      msg.commandIndex ≤ commandCount committed x
  gapFree : GapFree msgs
  last : lastIndex msgs =
    (commandCount full rf.lastApplied.toNat : Int)

omit [DecidableEq C]

namespace Streams

variable {committed full full' : List (LogEntry C)}
variable {rf rf' : Raft C n}
variable {point point' : Int}
variable {msgs : List (ApplyMsg C)}
variable {b : Nat}

/- Up to the commit point the logs are the same. -/
theorem take_eq
    (h : Streams committed rf point msgs full b)
    {x : Nat}
    (hLe : b ≤ x)
    (hPoint : (x : Int) ≤ point)
    (hLt : x < full.length) :
    (full.take (x + 1)).drop 1 =
      (committed.take (x + 1)).drop 1 := by
  induction x, hLe using Nat.le_induction with
  | base => exact h.cut
  | succ x hLe ih =>
      have hEntry := List.getElem?_eq_getElem hLt
      have hSame := h.agrees (x + 1) _ (by omega) hPoint
        hEntry
      have hLt' := (List.getElem?_eq_some_iff.mp hSame).1
      rw [List.take_add_one, hEntry,
        List.take_add_one (i := x + 1), hSame,
        List.drop_append_of_le_length,
        List.drop_append_of_le_length,
        ih (by omega) (by omega)]
      · rw [List.length_take]
        omega
      · rw [List.length_take]
        omega

theorem count_of_cut
    {x : Nat}
    (hCut : (full.take (x + 1)).drop 1 =
      (committed.take (x + 1)).drop 1) :
    commandCount full x = commandCount committed x := by
  unfold commandCount
  rw [hCut]

theorem count_eq
    (h : Streams committed rf point msgs full b)
    {x : Nat}
    (hLe : b ≤ x)
    (hPoint : (x : Int) ≤ point)
    (hLt : x < full.length) :
    commandCount full x = commandCount committed x :=
  count_of_cut (h.take_eq hLe hPoint hLt)

/-
  A step that sends nothing new and keeps the snapshot. What
  it must keep of the log are the commands applied, and all
  committed positions.
-/
theorem next
    (h : Streams committed rf point msgs full b)
    (hSuffix : rf'.SuffixOf full' b)
    (hSnapshot : rf'.snapshotIndex = rf.snapshotIndex)
    (hTake : full'.take (b + 1) = full.take (b + 1))
    (hPoint : point ≤ point')
    (hCommit : rf'.commitIndex ≤ point')
    (hAgrees : ∀ (x : Nat) e,
      b < x → (x : Int) ≤ point' → full'[x]? = some e →
      committed[x]? = some e)
    (hLength : ∀ x : Nat,
      (x : Int) ≤ point → x < full.length →
      x < full'.length)
    (hApplied : (b : Int) ≤ rf'.lastApplied)
    (hCount :
      commandCount full' rf'.lastApplied.toNat =
        commandCount full rf.lastApplied.toNat) :
    Streams committed rf' point' msgs full' b where
  suffix := hSuffix
  number := by
    rw [hSnapshot, h.number, commandCount_congr hTake]
  cut := by
    rw [hTake]
    exact h.cut
  base_le := le_trans h.base_le hPoint
  agrees := hAgrees
  commit_le := hCommit
  applied_ge := hApplied
  valid := h.valid
  reached := by
    intro msg hMem hValid
    rcases h.reached msg hMem hValid with
      ⟨x, hX, hLt, hIndex⟩
    exact ⟨x, le_trans hX hPoint, hLength x hX hLt, hIndex⟩
  gapFree := h.gapFree
  last := by rw [h.last, hCount]

end Streams

/- The assumption on the log, said of the full log. -/
theorem Raft.AgreesBelow.full
    {committed full : List (LogEntry C)}
    {rf : Raft C n}
    {point : Int}
    {b : Nat}
    (hAgrees : rf.AgreesBelow committed point)
    (hIndexed : rf.WellIndexed)
    (hSuffix : rf.SuffixOf full b)
    (x : Nat)
    (e : LogEntry C)
    (hLt : b < x)
    (hPoint : (x : Int) ≤ point)
    (hEntry : full[x]? = some e) :
    committed[x]? = some e := by
  rcases Nat.exists_eq_add_of_lt hLt with ⟨k, rfl⟩
  rcases hIndexed with ⟨first, rest, h⟩
  rcases hSuffix.head with ⟨first', hLog, hBase, _⟩
  have hFirst : first = first' := by
    rw [h.log, List.cons.injEq] at hLog
    exact hLog.1
  have hAt : rf.log[k + 1]? = some e := by
    rw [hSuffix.getElem?_eq, ← hEntry]
    congr 1
    omega
  have hIndex := h.indexed _ e hAt
  have hMem : e ∈ rf.log.drop 1 := by
    apply List.mem_of_getElem? (i := k)
    rw [List.getElem?_drop, Nat.add_comm]
    exact hAt
  have hToNat : e.index.toNat = b + k + 1 := by
    rw [hIndex, hFirst, hBase]
    omega
  have hSame := hAgrees e hMem (by
    rw [hIndex, hFirst, hBase]
    push_cast
    omega)
  rw [hToNat] at hSame
  exact hSame

------------------------------------------------------------
-- Steps That Send Nothing New
------------------------------------------------------------

theorem commandCount_zero
    (full : List (LogEntry C)) :
    commandCount full 0 = 0 := by
  have hLe := commandCount_le full 0
  omega

/- So it does not count. -/
theorem commandCount_one
    {rf : Raft C n}
    {full : List (LogEntry C)}
    (hSuffix : rf.SuffixOf full 0)
    (hIndexed : rf.WellIndexed)
    (hNoop : rf.NoopFirst) :
    commandCount full 1 = 0 := by
  cases hEntry : full[1]? with
  | none =>
      have hLength := List.getElem?_eq_none_iff.mp hEntry
      unfold commandCount
      rw [List.drop_eq_nil_of_le]
      · rfl
      · rw [List.length_take]
        omega
  | some e =>
      rw [commandCount_succ hEntry, commandCount_zero]
      have hAt : rf.log[1]? = some e := by
        rw [hSuffix.getElem?_eq, ← hEntry]
      have hType : e.type = .noop := by
        apply hNoop e (List.mem_of_getElem? hAt)
        rcases hIndexed with ⟨first, rest, h⟩
        rcases hSuffix.head with ⟨first', hLog, hBase, _⟩
        rw [h.log, List.cons.injEq] at hLog
        have hIndex := h.indexed 1 e hAt
        rw [hIndex, hLog.1, hBase]
        rfl
      rw [if_neg (by rw [hType]; exact fun h => h rfl)]

/- What was applied is in the log, or was counted at Make. -/
theorem Raft.SuffixOf.applied_cases
    {rf : Raft C n}
    {full : List (LogEntry C)}
    {b : Nat}
    (hSuffix : rf.SuffixOf full b)
    (hIndexed : rf.WellIndexed) :
    rf.lastApplied.toNat < full.length ∨
      rf.lastApplied = 1 ∧ b = 0 := by
  rcases hIndexed with ⟨first, rest, h⟩
  rcases hSuffix.head with ⟨first', hLog, hBase, _⟩
  have hLength := hSuffix.length_log
  have hLe := h.applied_le
  have hGe := h.applied_ge
  rw [h.log, List.cons.injEq] at hLog
  rw [h.log, List.length_cons] at hLength
  rw [hLog.1, hBase] at hLe hGe
  omega

namespace Streams

variable {committed full : List (LogEntry C)}
variable {rf rf' : Raft C n}
variable {point point' : Int}
variable {msgs : List (ApplyMsg C)}
variable {b : Nat}

/- Entries are appended to the log. -/
theorem append
    (h : Streams committed rf point msgs full b)
    (hIndexed : rf.WellIndexed)
    (hIndexed' : rf'.WellIndexed)
    (hNoop : rf.NoopFirst)
    (hNoop' : rf'.NoopFirst)
    (hPoint : point ≤ point')
    (hCommit : rf'.commitIndex ≤ point')
    (hAgrees : rf'.AgreesBelow committed point')
    {entries : List (LogEntry C)}
    (hLog : rf'.log = rf.log ++ entries)
    (hSnapshot : rf'.snapshotIndex = rf.snapshotIndex)
    (hApplied : rf'.lastApplied = rf.lastApplied) :
    Streams committed rf' point' msgs (full ++ entries)
      b := by
  have hLt := h.suffix.lt_length
  have hSuffix := h.suffix.of_append hLog
  apply h.next hSuffix hSnapshot _ hPoint hCommit
    (hAgrees.full hIndexed' hSuffix)
  · intro x _ hX
    rw [List.length_append]
    omega
  · rw [hApplied]
    exact h.applied_ge
  · rw [hApplied]
    rcases h.suffix.applied_cases hIndexed with
      hIn | ⟨hOne, hZero⟩
    · apply commandCount_congr
      exact List.take_append_of_le_length hIn
    · subst hZero
      rw [hOne]
      exact (commandCount_one hSuffix hIndexed'
        hNoop').trans
          (commandCount_one h.suffix hIndexed hNoop).symm
  · exact List.take_append_of_le_length hLt

/- Nothing of the log, the snapshot or the rest changes. -/
theorem quiet
    (h : Streams committed rf point msgs full b)
    (hPoint : point ≤ point')
    (hCommit : rf'.commitIndex ≤ point')
    (hIndexed' : rf'.WellIndexed)
    (hAgrees : rf'.AgreesBelow committed point')
    (hLog : rf'.log = rf.log)
    (hSnapshot : rf'.snapshotIndex = rf.snapshotIndex)
    (hApplied : rf'.lastApplied = rf.lastApplied) :
    Streams committed rf' point' msgs full b := by
  have hSuffix := h.suffix.of_log_eq hLog
  apply h.next hSuffix hSnapshot rfl hPoint hCommit
    (hAgrees.full hIndexed' hSuffix)
  · exact fun x _ hX => hX
  · rw [hApplied]
    exact h.applied_ge
  · rw [hApplied]

/-
  A fix package replaces what follows `lastApplied`. If it
  ended below a committed position that the log has, all its
  entries would be those of the log.
-/
theorem fixed
    (h : Streams committed rf point msgs full b)
    (hIndexed' : rf'.WellIndexed)
    (hPoint : point ≤ point')
    (hCommit : rf'.commitIndex ≤ point')
    (hAgrees : rf'.AgreesBelow committed point')
    {entries : List (LogEntry C)}
    {a i : Nat}
    (hA : rf.lastApplied = (a : Int))
    (hInside : a + 1 < full.length)
    (hPrefix : rf.prefixCheck entries.length 0 entries =
      some i)
    (hDiffer : i ≠ entries.length)
    (hLog : rf'.log =
      rf.log.take (a + 1 - b) ++ entries)
    (hSnapshot : rf'.snapshotIndex = rf.snapshotIndex)
    (hApplied : rf'.lastApplied = rf.lastApplied) :
    Streams committed rf' point' msgs
      (full.take (a + 1) ++ entries) b := by
  have hGe := h.applied_ge
  have hSuffix := h.suffix.of_replaced (k := a + 1)
    (by omega) (by omega) hLog
  have hKept : (full.take (a + 1)).length = a + 1 := by
    rw [List.length_take]
    omega
  have hTake : ∀ m, m ≤ a + 1 →
      (full.take (a + 1) ++ entries).take m =
        full.take m := by
    intro m hm
    rw [List.take_append_of_le_length (by omega),
      List.take_take, Nat.min_eq_left hm]
  have hNew := hAgrees.full hIndexed' hSuffix
  apply h.next hSuffix hSnapshot (hTake _ (by omega)) hPoint
    hCommit hNew
  · intro x hX hLt
    by_contra hShort
    rw [List.length_append, hKept] at hShort
    have hTerms : ∀ j e, entries[j]? = some e →
        termAt full (a + 1 + 0 + j) = some e.term := by
      intro j e hEntry
      have hJ := (List.getElem?_eq_some_iff.mp hEntry).1
      have hOld := List.getElem?_eq_getElem
        (show a + 1 + 0 + j < full.length by omega)
      have hOldSame := h.agrees _ _ (by omega)
        (by push_cast; omega) hOld
      have hNewSame := hNew (a + 1 + 0 + j) e (by omega)
        (by push_cast; omega) (by
          rw [List.getElem?_append_right (by omega), hKept,
            ← hEntry]
          congr 1
          omega)
      rw [hNewSame] at hOldSame
      exact termAt_eq_some_iff.mpr
        ⟨e, hOld.trans hOldSame.symm, rfl⟩
    have hAll : rf.prefixCheck entries.length 0 entries =
        some (0 + entries.length) :=
      h.suffix.prefixCheck_eq_all hA (by omega) hTerms
    rw [hPrefix, Option.some.injEq] at hAll
    omega
  · rw [hApplied]
    exact h.applied_ge
  · rw [hApplied, hA, Int.toNat_natCast]
    exact commandCount_congr (hTake _ (le_refl _))

theorem of_appendEntries
    (h : Streams committed rf point msgs full b)
    (hIndexed : rf.WellIndexed)
    (hIndexed' : rf'.WellIndexed)
    (hNoop : rf.NoopFirst)
    (hNoop' : rf'.NoopFirst)
    (hPoint : point ≤ point')
    (hCommit : rf'.commitIndex ≤ point')
    (hAgrees : rf'.AgreesBelow committed point')
    {args : AppendEntriesArgs C}
    {reply : AppendEntriesReply}
    (hCase : rf.AppendEntriesCase args rf' reply) :
    ∃ full', Streams committed rf' point' msgs full' b := by
  cases hCase with
  | stale =>
      exact ⟨full, h.quiet hPoint hCommit hIndexed' hAgrees
        rfl rfl rfl⟩
  | good hTerm len hLen hIndex hLast reply hSuccess =>
      exact ⟨full ++ args.entries, h.append hIndexed hIndexed'
        hNoop hNoop' hPoint hCommit hAgrees rfl rfl rfl⟩
  | covered =>
      exact ⟨full, h.quiet hPoint hCommit hIndexed' hAgrees
        rfl rfl rfl⟩
  | fixed hTerm len hLen hIndex hApplied i hPrefix hDiffer
      bound hBound hRange reply hSuccess =>
      have hGe := h.applied_ge
      have hA : rf.lastApplied =
          (rf.lastApplied.toNat : Int) := by
        omega
      rw [h.suffix.globalLogLen, Option.some.injEq] at hLen
      rw [h.suffix.localIndex, Option.some.injEq] at hBound
      have hKept : bound.toNat =
          rf.lastApplied.toNat + 1 - b := by
        omega
      refine ⟨_, h.fixed hIndexed' hPoint hCommit hAgrees hA
        (by omega) hPrefix hDiffer ?_ rfl rfl⟩
      rw [← hKept]
      rfl
  | rejected =>
      exact ⟨full, h.quiet hPoint hCommit hIndexed' hAgrees
        rfl rfl rfl⟩

------------------------------------------------------------
-- Snapshots
------------------------------------------------------------

/- The message that a snapshot is installed with. -/
theorem installed_queue
    (rf : Raft C n)
    (args : InstallSnapshotArgs)
    (log : List (LogEntry C)) :
    ∃ msg, (rf.installed args log).applyQueue = [msg] ∧
      msg.commandValid = false ∧
      msg.snapshotValid = true ∧
      msg.snapshotIndex = args.lastIncludedIndex :=
  ⟨_, rfl, rfl, rfl, rfl⟩

/-
  A snapshot is installed at the position `b'`, in front of
  the entries of `full'` after it, and the queue is replaced
  by its message.
-/
theorem installed
    (h : Streams committed rf point msgs full b)
    {sent queue : List (ApplyMsg C)}
    (hMsgs : msgs = sent ++ queue)
    {args : InstallSnapshotArgs}
    {full' : List (LogEntry C)}
    {b' : Nat}
    (hFrom : SnapshotFrom committed args)
    (hBase : args.lastIncludedInternal = (b' : Int))
    (hTake : full'.take (b' + 1) = committed.take (b' + 1))
    (hIndexed' : (rf.installed args
      (Raft.snapshotEntry args ::
        full'.drop (b' + 1))).WellIndexed)
    (hPoint : max point args.lastIncludedInternal ≤ point')
    (hAgrees : (rf.installed args
      (Raft.snapshotEntry args ::
        full'.drop (b' + 1))).AgreesBelow committed point')
    (hLength : ∀ x : Nat,
      (x : Int) ≤ point → x < full.length →
      x < full'.length) :
    Streams committed
      (rf.installed args
        (Raft.snapshotEntry args :: full'.drop (b' + 1)))
      point'
      (sent ++ (rf.installed args
        (Raft.snapshotEntry args ::
          full'.drop (b' + 1))).applyQueue)
      full' b' := by
  rcases installed_queue rf args
    (Raft.snapshotEntry args :: full'.drop (b' + 1)) with
    ⟨msg, hQueue, hNotCommand, hSnapshot, hIndex⟩
  rcases hFrom with ⟨_, hTerm, hCovers⟩
  rw [hBase, Int.toNat_natCast] at hTerm hCovers
  have hSuffix : (rf.installed args
      (Raft.snapshotEntry args ::
        full'.drop (b' + 1))).SuffixOf full' b' := by
    refine ⟨Raft.snapshotEntry args, rfl, hBase, ?_, rfl⟩
    rw [termAt_of_take_eq hTake (Nat.lt_succ_self b')]
    exact hTerm
  have hCount : commandCount full' b' =
      commandCount committed b' :=
    commandCount_congr hTake
  have hOld : ∀ msg' ∈ sent, msg' ∈ msgs := by
    intro msg' hMem
    rw [hMsgs]
    exact List.mem_append_left _ hMem
  rw [hQueue]
  constructor
  · exact hSuffix
  · rw [hCount]
    exact hCovers
  · rw [hTake]
  · omega
  · exact hAgrees.full hIndexed' hSuffix
  · exact le_trans (le_max_right _ _) hPoint
  · exact le_of_eq hBase.symm
  · intro msg' hMem
    rcases List.mem_append.mp hMem with hSent | hNew
    · exact h.valid msg' (hOld msg' hSent)
    · rw [List.mem_singleton.mp hNew]
      exact Or.inr hSnapshot
  · intro msg' hMem hValid
    rcases List.mem_append.mp hMem with hSent | hNew
    · rcases h.reached msg' (hOld msg' hSent) hValid with
        ⟨x, hX, hLt, hReached⟩
      exact ⟨x, by omega, hLength x hX hLt, hReached⟩
    · rw [List.mem_singleton.mp hNew, hNotCommand] at hValid
      cases hValid
  · have hFree := h.gapFree
    rw [hMsgs] at hFree
    apply hFree.of_append.snoc
    intro hValid
    rw [hNotCommand] at hValid
    cases hValid
  · rw [lastIndex_snoc]
    unfold ApplyMsg.index
    rw [hNotCommand, hIndex, hCovers, ← hCount]
    change ((commandCount full' b' : Nat) : Int) =
      commandCount full' args.lastIncludedInternal.toNat
    rw [hBase, Int.toNat_natCast]

/-
  A committed position that the log has cannot lie behind a
  snapshot whose last entry the log has not.
-/
theorem lt_of_reset
    (h : Streams committed rf point msgs full b)
    {args : InstallSnapshotArgs}
    {b' : Nat}
    {l : Int}
    (hFrom : SnapshotFrom committed args)
    (hBase : args.lastIncludedInternal = (b' : Int))
    (hNewer : rf.snapshotIndex < args.lastIncludedIndex)
    (hLocal : rf.localIndex args.lastIncludedInternal =
      some l)
    (hDiffer :
      0 ≤ l →
        ∀ own, rf.log[l.toNat]? = some own →
          own.term ≠ args.lastIncludedTerm)
    {x : Nat}
    (hX : (x : Int) ≤ point)
    (hLt : x < full.length) :
    x < b' + 1 := by
  by_contra hBehind
  rcases hFrom with ⟨_, hTerm, hCovers⟩
  rw [hBase, Int.toNat_natCast] at hTerm hCovers
  rw [h.suffix.localIndex, hBase, Option.some.injEq] at hLocal
  rcases Nat.lt_or_ge b b' with hAfter | hBefore
  · rcases termAt_eq_some_iff.mp hTerm with
      ⟨e, hEntry, hETerm⟩
    have hOwn := List.getElem?_eq_getElem
      (show b' < full.length by omega)
    have hSame := h.agrees b' _ hAfter (by omega) hOwn
    rw [hEntry] at hSame
    apply hDiffer (by omega) e _ hETerm
    have hAt := h.suffix.logAt_eq hAfter
    rw [hOwn, ← hSame, hLocal] at hAt
    exact (GoSlice.at?_eq_some_iff.mp hAt).2
  · -- the log was cut behind the snapshot
    have hMono := commandCount_mono committed hBefore
    have hCut := count_of_cut h.cut
    have hNumber := h.number
    omega

theorem of_installSnapshot
    (h : Streams committed rf point msgs full b)
    {sent : List (ApplyMsg C)}
    (hMsgs : msgs = sent ++ rf.applyQueue)
    (hIndexed' : rf'.WellIndexed)
    (hPoint : point ≤ point')
    (hCommit : rf'.commitIndex ≤ point')
    (hAgrees : rf'.AgreesBelow committed point')
    {args : InstallSnapshotArgs}
    (hFrom : SnapshotFrom committed args)
    {reply : InstallSnapshotReply}
    (hCase : rf.InstallSnapshotCase args rf' reply) :
    ∃ full' b', Streams committed rf' point'
      (sent ++ rf'.applyQueue) full' b' := by
  have hBase : args.lastIncludedInternal =
      (args.lastIncludedInternal.toNat : Int) := by
    have hNonneg := hFrom.1
    omega
  have hCovered : args.lastIncludedInternal.toNat <
      committed.length :=
    lt_length_of_termAt hFrom.2.1
  cases hCase with
  | refused =>
      rw [← hMsgs]
      exact ⟨full, b, h.quiet hPoint hCommit hIndexed' hAgrees
        rfl rfl rfl⟩
  | kept hTerm hNewer l hLocal own hOwn hOwnTerm =>
      have hLt := (List.getElem?_eq_some_iff.mp hOwn).1
      have hLength := h.suffix.length_log
      rw [h.suffix.localIndex, Option.some.injEq] at hLocal
      generalize args.lastIncludedInternal.toNat = b'
        at hBase hCovered
      have hHead : (committed.take (b' + 1)).length =
          b' + 1 := by
        rw [List.length_take]
        omega
      have hTail : (committed.take (b' + 1) ++
          full.drop (b' + 1)).drop (b' + 1) =
            rf.log.drop (l + 1) := by
        have hSub : l + 1 = b' + 1 - b := by omega
        rw [List.drop_left' hHead, hSub]
        exact (h.suffix.drop_eq (by omega)).symm
      rw [← hTail] at hIndexed' hAgrees ⊢
      refine ⟨_, b', h.installed hMsgs hFrom hBase
        (List.take_left' hHead) hIndexed'
        (max_le hPoint hCommit) hAgrees ?_⟩
      intro x _ hX
      rw [List.length_append, hHead, List.length_drop]
      omega
  | reset hTerm hNewer l hLocal hDiffer =>
      have hNotBehind := fun x => h.lt_of_reset hFrom hBase
        hNewer hLocal hDiffer (x := x)
      generalize args.lastIncludedInternal.toNat = b'
        at hBase hCovered hNotBehind
      have hHead : (committed.take (b' + 1)).length =
          b' + 1 := by
        rw [List.length_take]
        omega
      have hTail : (committed.take (b' + 1)).drop (b' + 1) =
          [] := by
        apply List.drop_eq_nil_of_le
        omega
      rw [← hTail] at hIndexed' hAgrees ⊢
      refine ⟨_, b', h.installed hMsgs hFrom hBase
        (by rw [List.take_take, Nat.min_self]) hIndexed'
        (max_le hPoint hCommit) hAgrees ?_⟩
      intro x hPointX hX
      rw [hHead]
      exact hNotBehind x hPointX hX

/- The service takes a snapshot up to a delivered index. -/
theorem compacted
    (h : Streams committed rf point msgs full b)
    (hIndexed : rf.WellIndexed)
    {index prevIndex : Int}
    {snapshot : Bytes}
    {l : Nat}
    {first : LogEntry C}
    {rest : List (LogEntry C)}
    (hDelivered : ∃ msg ∈ msgs,
      msg.commandValid = true ∧ msg.commandIndex = index)
    (hPrev : rf.internalIndex index = some prevIndex)
    (hNewer : rf.snapshotIndex < index)
    (hApplied : prevIndex ≤ rf.lastApplied)
    (hLocal : rf.localIndex prevIndex = some (l : Int))
    (hDrop : rf.log.drop l = first :: rest)
    (hPoint : point ≤ point')
    (hCommit : rf.commitIndex ≤ point')
    (hIndexed' :
      (rf.compacted index snapshot first rest).WellIndexed)
    (hAgrees :
      (rf.compacted index snapshot first rest).AgreesBelow
        committed point') :
    Streams committed
      (rf.compacted index snapshot first rest) point' msgs
      full (b + l) := by
  have hLt := h.suffix.lt_length
  have hNumber := h.number
  rcases h.suffix.head with ⟨head, hLog, hBase, _, hNoop⟩
  rw [h.suffix.localIndex, Option.some.injEq] at hLocal
  -- The index was reached by the committed position `x`.
  rcases hDelivered with ⟨msg, hMem, hValid, hMsg⟩
  rcases h.reached msg hMem hValid with
    ⟨x, hX, hXLt, hIndex⟩
  rw [hMsg] at hIndex
  have hAfter : b ≤ x := by
    by_contra hBefore
    have hMono := commandCount_mono committed
      (show x ≤ b by omega)
    have hCut := count_of_cut h.cut
    omega
  -- So the loop finds it, not behind `x`.
  have hFound : b + l ≤ x ∧
      index = (commandCount full (b + l) : Int) := by
    rw [← h.count_eq hAfter hX hXLt] at hIndex
    rcases h.suffix.internalIndex hNumber hNewer hIndex with
      ⟨d, hAbove, hLe, hEq, hTarget, _⟩
    rw [hPrev, Option.some.injEq] at hEq
    have hSame : d = b + l := by omega
    rw [← hSame]
    exact ⟨hLe, hTarget⟩
  rcases hFound with ⟨hBehind, hNumbered⟩
  have hFirst : first.index = ((b + l : Nat) : Int) := by
    rcases hIndexed with ⟨first', rest', hBy⟩
    have hAt : rf.log[l]? = some first := by
      have hHead := congrArg (fun log => log[0]?) hDrop
      simpa [List.getElem?_drop] using hHead
    have hEq := hBy.indexed l first hAt
    have hSame : first' = head := by
      have hCons := hBy.log
      rw [hLog, List.cons.injEq] at hCons
      exact hCons.1.symm
    rw [hEq, hSame, hBase]
    push_cast
    rfl
  have hSuffix : (rf.compacted index snapshot first
      rest).SuffixOf full (b + l) :=
    h.suffix.of_compacted hDrop hFirst
  constructor
  · exact hSuffix
  · exact hNumbered
  · exact h.take_eq (by omega) (by omega) (by omega)
  · push_cast
    omega
  · exact hAgrees.full hIndexed' hSuffix
  · exact hCommit
  · change ((b + l : Nat) : Int) ≤ rf.lastApplied
    push_cast
    omega
  · exact h.valid
  · intro msg' hMem' hValid'
    rcases h.reached msg' hMem' hValid' with
      ⟨y, hY, hYLt, hYIndex⟩
    exact ⟨y, by omega, hYLt, hYIndex⟩
  · exact h.gapFree
  · exact h.last

------------------------------------------------------------
-- Applying And Restarting
------------------------------------------------------------

/- One entry is applied, and numbered if it is a command. -/
theorem applyIteration
    {sent : List (ApplyMsg C)}
    (h : Streams committed rf point
      (sent ++ rf.applyQueue) full b)
    (hIteration : rf.applyIteration = some (some rf')) :
    Streams committed rf' point (sent ++ rf'.applyQueue)
      full b := by
  have hGe := h.applied_ge
  have hCommitLe := h.commit_le
  rcases Raft.applyIteration_cases hIteration with
    ⟨l, entry, hLocal, hPos, hAt, hCommitted, hNext⟩
  have hA : rf.lastApplied =
      (rf.lastApplied.toNat : Int) := by
    omega
  generalize rf.lastApplied.toNat = a at hA
  rw [h.suffix.localIndex, Option.some.injEq] at hLocal
  have hEntry : full[a + 1]? = some entry := by
    rw [← h.suffix.logAt_eq (show b < a + 1 by omega)]
    have hEq : (((a + 1 : Nat) : Int) - b) = (l : Int) := by
      push_cast
      omega
    unfold Raft.logAt
    rw [hEq, GoSlice.at?_natCast]
    exact hAt
  have hLt := (List.getElem?_eq_some_iff.mp hEntry).1
  have hSucc := commandCount_succ hEntry
  have hLast := h.last
  rw [hA, Int.toNat_natCast] at hLast
  have hNat : (rf.lastApplied + 1).toNat = a + 1 := by omega
  rcases hNext with
    ⟨hNormal, external, hExternal, rfl⟩ | ⟨hNoop, rfl⟩
  · rw [if_pos (by rw [hNormal]; decide)] at hSucc
    rw [hA] at hExternal
    have hNumber := h.suffix.externalIndex h.number
      (show b ≤ a + 1 by omega) hLt
    push_cast at hNumber
    rw [hExternal, Option.some.injEq] at hNumber
    dsimp only
    rw [← List.append_assoc]
    constructor
    · exact h.suffix.of_log_eq rfl
    · exact h.number
    · exact h.cut
    · exact h.base_le
    · exact h.agrees
    · exact h.commit_le
    · dsimp only
      omega
    · intro msg hMem
      rcases List.mem_append.mp hMem with hOld | hNew
      · exact h.valid msg hOld
      · rw [List.mem_singleton.mp hNew]
        exact Or.inl rfl
    · intro msg hMem hValid
      rcases List.mem_append.mp hMem with hOld | hNew
      · exact h.reached msg hOld hValid
      · refine ⟨a + 1, by push_cast; omega, hLt, ?_⟩
        rw [List.mem_singleton.mp hNew]
        change external ≤ _
        rw [hNumber, h.count_eq (by omega)
          (by push_cast; omega) hLt]
    · apply h.gapFree.snoc
      intro _
      change external = _
      omega
    · rw [lastIndex_snoc, hNat, ← hNumber]
      rfl
  · rw [if_neg (by rw [hNoop]; exact fun h => h rfl)]
      at hSucc
    refine { h with applied_ge := ?_, last := ?_, suffix := ?_ }
    · exact h.suffix.of_log_eq rfl
    · dsimp only
      omega
    · dsimp only
      rw [hNat, hSucc]
      exact hLast

theorem applyEntries
    {sent : List (ApplyMsg C)}
    (h : Streams committed rf point
      (sent ++ rf.applyQueue) full b)
    (hApply : rf.applyEntries = some rf') :
    Streams committed rf' point (sent ++ rf'.applyQueue)
      full b := by
  refine Raft.applyEntries_induct (P := fun r =>
    Streams committed r point (sent ++ r.applyQueue) full b)
    ?_ h hApply
  intro r r' hStreams hIteration
  exact hStreams.applyIteration hIteration

end Streams

/- What `Make` puts into the queue. -/
theorem Raft.make_queue
    {me : Fin n}
    {persister : Persister C}
    {rf : Raft C n}
    (hMake : make me persister = some rf) :
    (rf.snapshot = [] ∧ rf.applyQueue = []) ∨
      ∃ msg, rf.applyQueue = [msg] ∧
        msg.commandValid = false ∧
        msg.snapshotValid = true ∧
        msg.snapshotIndex = rf.snapshotIndex := by
  unfold make at hMake
  rcases Option.bind_eq_some_iff.mp hMake with
    ⟨rf₀, hRead, hMake⟩
  rcases Option.bind_eq_some_iff.mp hMake with
    ⟨base, hBase, hMake⟩
  dsimp only at hMake
  split at hMake
  · right
    rcases Option.bind_eq_some_iff.mp hMake with
      ⟨len, hLen, hMake⟩
    cases hMake
    exact ⟨_, rfl, rfl, rfl, rfl⟩
  · next hEmpty =>
      left
      rcases Option.bind_eq_some_iff.mp hMake with
        ⟨len, hLen, hMake⟩
      cases hMake
      constructor
      · exact List.length_eq_zero_iff.mp
          (not_not.mp hEmpty)
      · unfold readPersist at hRead
        split at hRead
        · cases hRead
          rfl
        · rcases Option.bind_eq_some_iff.mp hRead with
            ⟨_, _, hRead⟩
          cases hRead
          rfl
        · cases hRead
          rfl

/- A snapshot that covers commands is not empty. -/
def Raft.SnapshotFilled (rf : Raft C n) : Prop :=
  rf.snapshot = [] → rf.snapshotIndex = 0

/- A restarted server starts a new stream. -/
theorem Streams.restart
    {committed full : List (LogEntry C)}
    {rf rf' : Raft C n}
    {point point' : Int}
    {msgs : List (ApplyMsg C)}
    {b : Nat}
    (h : Streams committed rf point msgs full b)
    (hRf : rf.Persisted)
    (hMake : Raft.make rf.me rf.persister = some rf')
    (hFilled : rf.SnapshotFilled)
    (hIndexed' : rf'.WellIndexed)
    (hNoop' : rf'.NoopFirst)
    (hPoint : point ≤ point')
    (hCommit : rf'.commitIndex ≤ point')
    (hAgrees : rf'.AgreesBelow committed point') :
    Streams committed rf' point' rf'.applyQueue full b := by
  have hDurable := Raft.durable_of_make hRf hMake
  simp only [Raft.durable, Prod.mk.injEq] at hDurable
  rcases hDurable with
    ⟨_, _, hLog, _, hIndex, _, hSnapshot⟩
  have hSuffix := h.suffix.of_log_eq hLog
  rcases h.suffix.head with ⟨first, hCons, hBase, _⟩
  have hApplied := Raft.lastApplied_of_make hRf hMake hCons
  -- Nothing after the cut counts as applied.
  have hCount : commandCount full rf'.lastApplied.toNat =
      commandCount full b := by
    rcases hApplied with hCut | ⟨hOne, hZero⟩
    · rw [hCut, hBase, Int.toNat_natCast]
    · have hB : b = 0 := by omega
      subst hB
      rw [hOne, commandCount_zero]
      exact commandCount_one hSuffix hIndexed' hNoop'
  have hNumber : rf'.snapshotIndex =
      (commandCount full b : Int) := by
    rw [hIndex]
    exact h.number
  have hBaseLe := h.base_le
  have hNew : ∀ msg ∈ rf'.applyQueue,
      msg.commandValid = false ∧
        msg.snapshotValid = true := by
    intro msg hMem
    rcases Raft.make_queue hMake with
      ⟨_, hNil⟩ | ⟨msg', hQueue, hNot, hValid, _⟩
    · rw [hNil] at hMem
      cases hMem
    · rw [hQueue, List.mem_singleton] at hMem
      rw [hMem]
      exact ⟨hNot, hValid⟩
  constructor
  · exact hSuffix
  · exact hNumber
  · exact h.cut
  · omega
  · exact hAgrees.full hIndexed' hSuffix
  · exact hCommit
  · omega
  · intro msg hMem
    exact Or.inr (hNew msg hMem).2
  · intro msg hMem hValid
    rw [(hNew msg hMem).1] at hValid
    cases hValid
  · intro before msg after hEq hValid
    have hMem : msg ∈ rf'.applyQueue := by
      rw [hEq]
      exact List.mem_append_right _ List.mem_cons_self
    rw [(hNew msg hMem).1] at hValid
    cases hValid
  · rw [hCount, ← hNumber]
    rcases Raft.make_queue hMake with
      ⟨hEmpty, hNil⟩ | ⟨msg, hQueue, hNot, _, hSame⟩
    · rw [hNil, lastIndex_nil, hIndex]
      rw [hSnapshot] at hEmpty
      exact (hFilled hEmpty).symm
    · rw [hQueue, ← List.nil_append [msg], lastIndex_snoc,
        ApplyMsg.index, hNot, ← hSame]
      rfl

------------------------------------------------------------
-- Steps
------------------------------------------------------------

namespace Node

variable {nd nd' : Node C n}
variable {event : Event C n}
variable {effects : List (Effect C n)}

/- Goroutines of a leader or an election touch no message. -/
theorem runThread_inHand
    {threads : List (Thread C n)}
    {thread : Thread C n}
    (hStep : nd.runThread threads thread =
      some (nd', effects)) :
    nd'.inHand = nd.inHand := by
  cases thread with
  | election k =>
      rcases Option.bind_eq_some_iff.mp hStep with
        ⟨_, _, hStep⟩
      cases hStep
      rfl
  | electionChecked k ballot =>
      rcases Option.bind_eq_some_iff.mp hStep with
        ⟨⟨rf, won⟩, _, hStep⟩
      dsimp only at hStep
      split at hStep
      · cases hStep
        rfl
      · cases hStep
        rfl
  | commitWait k =>
      rcases Option.bind_eq_some_iff.mp hStep with
        ⟨_, _, hStep⟩
      cases hStep
      rfl
  | syncEntries k =>
      change nd.runSyncEntries threads k = _ at hStep
      unfold runSyncEntries at hStep
      split at hStep
      · cases hStep
        rfl
      · rcases Option.bind_eq_some_iff.mp hStep with
          ⟨_, _, hStep⟩
        cases hStep
        rfl
  | appendReplied k server args newNextIndex reply =>
      change nd.runAppendReplied threads k server args
        newNextIndex reply = _ at hStep
      unfold runAppendReplied at hStep
      split at hStep
      · cases hStep
        rfl
      · rcases Option.bind_eq_some_iff.mp hStep with
          ⟨result, _, hStep⟩
        cases result with
        | cancel =>
            cases hStep
            rfl
        | nextIndex rf =>
            cases hStep
            rfl
        | snapshot snapshotArgs =>
            cases hStep
            rfl
  | requestVote k server args => cases hStep
  | appendEntries k server args newNextIndex => cases hStep
  | installSnapshot k server args => cases hStep
  | electionLoop k =>
      cases hStep
      rfl
  | electionWon =>
      cases hStep
      rfl
  | voteCancel k =>
      cases hStep
      rfl
  | voteGranted k server =>
      cases hStep
      rfl
  | _ =>
      unfold runThread at hStep
      dsimp only at hStep
      split at hStep
      · cases hStep
        rfl
      · cases hStep
        rfl

/- Only Dequeue and the send to applyCh move a message. -/
theorem step_inHand
    (hStep : nd.step event = some (nd', effects))
    (hDequeue : event ≠ .dequeue)
    (hSend : event ≠ .applyCh)
    (hRestart : event ≠ .restart) :
    nd'.inHand = nd.inHand := by
  cases event with
  | dequeue => exact absurd rfl hDequeue
  | applyCh => exact absurd rfl hSend
  | restart => exact absurd rfl hRestart
  | tickerTimeout =>
      unfold step at hStep
      dsimp only at hStep
      split at hStep
      · cases hStep
        rfl
      · cases hStep
  | tickerCancel =>
      rcases Option.map_eq_some_iff.mp hStep with
        ⟨k, _, hStep⟩
      cases hStep
      rfl
  | run i =>
      rcases Option.bind_eq_some_iff.mp hStep with
        ⟨thread, _, hStep⟩
      exact runThread_inHand hStep
  | voteReply i reply =>
      rcases Option.bind_eq_some_iff.mp hStep with
        ⟨thread, _, hStep⟩
      rw [silent_eq_some_iff] at hStep
      cases thread with
      | requestVote k server args =>
          have hReceive := hStep.1
          unfold receiveVote at hReceive
          dsimp only at hReceive
          split at hReceive
          · cases hReceive
            rfl
          · split at hReceive
            · cases hReceive
              rfl
            · split at hReceive
              · cases hReceive
                rfl
              · cases hReceive
                rfl
      | _ => cases hStep.1
  | appendReply i reply =>
      rcases Option.bind_eq_some_iff.mp hStep with
        ⟨thread, _, hStep⟩
      rw [silent_eq_some_iff] at hStep
      cases thread with
      | appendEntries k server args newNextIndex =>
          have hReceive := hStep.1
          unfold receiveAppend at hReceive
          dsimp only at hReceive
          split at hReceive
          · cases hReceive
            rfl
          · cases hReceive
            rfl
      | _ => cases hStep.1
  | snapshotReply i reply =>
      rcases Option.bind_eq_some_iff.mp hStep with
        ⟨thread, _, hStep⟩
      rw [silent_eq_some_iff] at hStep
      cases thread with
      | installSnapshot k server args =>
          have hReceive := hStep.1
          unfold receiveSnapshot at hReceive
          dsimp only at hReceive
          split at hReceive
          · cases hReceive
            rfl
          · cases hReceive
            rfl
      | _ => cases hStep.1
  | _ =>
      rcases Option.bind_eq_some_iff.mp hStep with
        ⟨_, _, hStep⟩
      cases hStep
      rfl

end Node

/-
  What holds of a server and its history before a step, and
  what its environment does in it.
-/
structure StreamStep
    (committed : List (LogEntry C))
    (rf : Raft C n)
    (event : Event C n)
    (rf' : Raft C n)
    (sent : List (ApplyMsg C))
    (point' : Int) : Prop where
  persisted : rf.Persisted
  indexed : rf.WellIndexed
  indexed_after : rf'.WellIndexed
  noop : rf.NoopFirst
  noop_after : rf'.NoopFirst
  filled : rf.SnapshotFilled
  agrees : rf'.AgreesBelow committed point'
  commit : rf'.commitIndex ≤ point'
  delivered : ∀ index snapshot,
    event = .takeSnapshot index snapshot →
    ∃ msg ∈ sent,
      msg.commandValid = true ∧ msg.commandIndex = index
  covered : ∀ args,
    event = .installSnapshot args →
    SnapshotFrom committed args

namespace Streams

variable {committed full : List (LogEntry C)}
variable {nd nd' : Node C n}
variable {rf' : Raft C n}
variable {event : Event C n}
variable {effects : List (Effect C n)}
variable {sent : List (ApplyMsg C)}
variable {point point' : Int}
variable {b : Nat}

/- A step in which no message is dequeued or sent. -/
theorem raftStep
    (h : Streams committed nd.rf point
      (sent ++ nd.rf.applyQueue) full b)
    (hStep : RaftStep nd event rf' effects)
    (hDequeue : event ≠ .dequeue)
    (hRestart : event ≠ .restart)
    (hFits : StreamStep committed nd.rf event rf' sent
      point')
    (hPoint : point ≤ point') :
    ∃ full' b', Streams committed rf' point'
      (sent ++ rf'.applyQueue) full' b' := by
  have hIndexed' := hFits.indexed_after
  have hAgrees := hFits.agrees
  have hCommit := hFits.commit
  have hQuiet : rf'.log = nd.rf.log →
      rf'.snapshotIndex = nd.rf.snapshotIndex →
      rf'.lastApplied = nd.rf.lastApplied →
      rf'.applyQueue = nd.rf.applyQueue →
      ∃ full' b', Streams committed rf' point'
        (sent ++ rf'.applyQueue) full' b' := by
    intro hLog hSnapshot hApplied hQueue
    rw [hQueue]
    exact ⟨full, b, h.quiet hPoint hCommit hIndexed' hAgrees
      hLog hSnapshot hApplied⟩
  cases hStep with
  | requestVote args hEvent rf' reply hCase =>
      cases hCase with
      | stale => exact hQuiet rfl rfl rfl rfl
      | refused =>
          apply hQuiet <;>
          · unfold Raft.adoptVoteTerm
            split <;> rfl
      | granted =>
          apply hQuiet <;>
          · unfold Raft.giveVote Raft.adoptVoteTerm
            split <;> rfl
  | appendEntries args hEvent rf' reply hCase =>
      have hQueue : rf'.applyQueue = nd.rf.applyQueue := by
        cases hCase <;> rfl
      rw [hQueue]
      rcases h.of_appendEntries hFits.indexed hIndexed'
        hFits.noop hFits.noop_after hPoint hCommit hAgrees
        hCase with ⟨full', hNext⟩
      exact ⟨full', b, hNext⟩
  | installSnapshot args hEvent rf' reply hCase =>
      exact h.of_installSnapshot rfl hIndexed' hPoint hCommit
        hAgrees (hFits.covered args hEvent) hCase
  | start command hEvent hLeader len hLen =>
      exact ⟨_, b, h.append hFits.indexed hIndexed' hFits.noop
        hFits.noop_after hPoint hCommit hAgrees rfl rfl rfl⟩
  | takeSnapshot index snapshot hEvent prevIndex l first rest
      hPrev hNewer hApplied hLocal hDrop =>
      rcases hFits.delivered index snapshot hEvent with
        ⟨msg, hMem, hMsg⟩
      exact ⟨full, b + l, h.compacted hFits.indexed
        ⟨msg, List.mem_append_left _ hMem, hMsg⟩ hPrev hNewer
        hApplied hLocal hDrop hPoint hCommit hIndexed'
        hAgrees⟩
  | election i k hEvent hThread rf' args hStart =>
      rw [(Raft.electionStart_spec hStart).1] at hQuiet ⊢
      exact hQuiet rfl rfl rfl rfl
  | win i k ballot hEvent hThread hCandiate hBallot len
      hLen =>
      exact ⟨_, b, h.append hFits.indexed hIndexed' hFits.noop
        hFits.noop_after hPoint hCommit hAgrees rfl rfl rfl⟩
  | applyEntries rf' hApply =>
      have hApplied := h.applyEntries hApply
      exact ⟨full, b, hApplied.quiet hPoint hCommit hIndexed'
        hAgrees rfl rfl rfl⟩
  | dequeue msg queue hQueue hEvent =>
      exact absurd hEvent hDequeue
  | restart hEvent rf' hMake => exact absurd hEvent hRestart
  | _ => exact hQuiet rfl rfl rfl rfl

/- Every step keeps the stream of the server without gaps. -/
theorem step
    (h : Streams committed nd.rf point
      (sent ++ nd.pending) full b)
    (hStep : nd.step event = some (nd', effects))
    (hFits : StreamStep committed nd.rf event nd'.rf sent
      point')
    (hPoint : point ≤ point') :
    ∃ full' b', Streams committed nd'.rf point'
      (ApplyHistory.sentAfter nd sent event ++ nd'.pending)
      full' b' := by
  by_cases hRestart : event = .restart
  · subst hRestart
    rw [Node.step, Node.silent_eq_some_iff] at hStep
    rcases Option.map_eq_some_iff.mp hStep.1 with
      ⟨rf', hMake, rfl⟩
    exact ⟨full, b, h.restart hFits.persisted hMake
      hFits.filled hFits.indexed_after hFits.noop_after hPoint
      hFits.commit hFits.agrees⟩
  by_cases hDequeue : event = .dequeue
  · subst hDequeue
    unfold Node.step at hStep
    dsimp only at hStep
    split at hStep
    · next msg queue hHand hQueue =>
        cases hStep
        have hSame : sent ++ nd.pending =
            sent ++ Node.pending { nd with
              rf := { nd.rf with applyQueue := queue }
              inHand := some msg } := by
          unfold Node.pending
          rw [hHand, hQueue]
          rfl
        rw [hSame] at h
        exact ⟨full, b, h.quiet hPoint hFits.commit
          hFits.indexed_after hFits.agrees rfl rfl rfl⟩
    · cases hStep
  by_cases hSend : event = .applyCh
  · subst hSend
    rcases Option.map_eq_some_iff.mp hStep with
      ⟨msg, hHand, hEq⟩
    cases hEq
    have hSame : sent ++ nd.pending =
        ApplyHistory.sentAfter nd sent .applyCh ++
          Node.pending { nd with inHand := none } := by
      unfold Node.pending ApplyHistory.sentAfter
      rw [List.append_assoc]
      rfl
    rw [hSame] at h
    exact ⟨full, b, h.quiet hPoint hFits.commit
      hFits.indexed_after hFits.agrees rfl rfl rfl⟩
  -- The message in hand stays where it is.
  have hHand := Node.step_inHand hStep hDequeue hSend hRestart
  have hSent : ApplyHistory.sentAfter nd sent event =
      sent := by
    cases event with
    | restart => exact absurd rfl hRestart
    | applyCh => exact absurd rfl hSend
    | _ => rfl
  unfold Node.pending at h ⊢
  rw [hSent, hHand, ← List.append_assoc]
  rw [← List.append_assoc] at h
  apply h.raftStep (Node.step_raftStep hStep) hDequeue hRestart
    _ hPoint
  refine { hFits with delivered := ?_ }
  intro index snapshot hEvent
  rcases hFits.delivered index snapshot hEvent with
    ⟨msg, hMem, hMsg⟩
  exact ⟨msg, List.mem_append_left _ hMem, hMsg⟩

end Streams

------------------------------------------------------------
-- Runs
------------------------------------------------------------

namespace Cluster

variable [DecidableEq C]
variable {committed : List (LogEntry C)}
variable {i : Fin n}
variable {p : Cluster C n × ApplyHistory C n}

end Cluster

end RaftLab
