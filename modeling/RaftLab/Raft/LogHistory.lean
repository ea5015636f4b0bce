import RaftLab.Lib.LeaderLogs
import RaftLab.Raft.FullLog
import RaftLab.Raft.OwnElections
import RaftLab.Raft.LeaderMessages

/-
  The logs of a run, without compaction.

  A server forgets the entries below its cut, and a leader
  its log once it is deposed. `LogHistory` keeps both: the
  full log behind the log of each server, and the log of the
  leader of each term. The history is recorded next to a run
  and read by no step.

  Main declarations:
    * `LogHistory`, `LogHistory.record`,
      `Cluster.logSystem`
    * `AppendedFrom`, `SnapshotOf`
    * `FullStep`, `RaftStep.fullStep`
-/

------------------------------------------------------------
-- The History
------------------------------------------------------------

namespace RaftLab

variable {C : Type} {n : Nat}

/- The entry every log starts with. -/
def startEntry : LogEntry C where
  term := 1
  type := .noop
  index := 0
  command := none

structure LogHistory (C : Type) (n : Nat) where
  full : Fin n → List (LogEntry C)
  leaderLog : Int → List (LogEntry C)

namespace LogHistory

/- Nobody leads term 1, which stands for the start. -/
def start : LogHistory C n where
  full := fun _ => [startEntry]
  leaderLog := fun t => if t = 1 then [startEntry] else []

/-
  The log below the cut. A server that takes over a snapshot
  has the log of the leader that sent it there.
-/
def below
    (g : LogHistory C n)
    (rf rf' : Raft C n)
    (i : Fin n) :
    Event C n → List (LogEntry C)
| .installSnapshot args =>
    if rf'.snapshotIndex = rf.snapshotIndex then
      g.full i
    else
      g.leaderLog args.term
| _ => g.full i

/- The full log of server `i` after a step. -/
def fullAfter
    (g : LogHistory C n)
    (rf rf' : Raft C n)
    (i : Fin n)
    (event : Event C n) : List (LogEntry C) :=
  (g.below rf rf' i event).take
    ((rf'.baseIndex.getD 0).toNat + 1) ++ rf'.log.drop 1

/-
  The leader logs after a step to `rf'`: the log of its term
  is its own if it leads.
-/
def leaderLogAfter
    (g : LogHistory C n)
    (rf' : Raft C n)
    (full : List (LogEntry C)) :
    Int → List (LogEntry C) :=
  if rf'.state = .leader then
    Function.update g.leaderLog rf'.currentTerm full
  else
    g.leaderLog

def record
    (c : Cluster C n)
    (a : Fin n × Event C n)
    (c' : Cluster C n)
    (g : LogHistory C n) : LogHistory C n :=
  let rf' := (c'.nodes a.1).rf
  let full := g.fullAfter (c.nodes a.1).rf rf' a.1 a.2
  { full := Function.update g.full a.1 full
    leaderLog := g.leaderLogAfter rf' full }

theorem leaderLogAfter_self
    {g : LogHistory C n}
    {rf' : Raft C n}
    {full : List (LogEntry C)}
    (hLeader : rf'.state = .leader) :
    g.leaderLogAfter rf' full rf'.currentTerm = full := by
  unfold leaderLogAfter
  rw [if_pos hLeader, Function.update_self]

theorem leaderLogAfter_other
    {g : LogHistory C n}
    {rf' : Raft C n}
    {full : List (LogEntry C)}
    {t : Int}
    (hOther : rf'.state = .leader → rf'.currentTerm ≠ t) :
    g.leaderLogAfter rf' full t = g.leaderLog t := by
  unfold leaderLogAfter
  split
  · rename_i hLeader
    rw [Function.update_of_ne (hOther hLeader).symm]
  · rfl

theorem grows_leaderLogAfter
    {g : LogHistory C n}
    {rf' : Raft C n}
    {full : List (LogEntry C)}
    (hPrefix :
      rf'.state = .leader →
        g.leaderLog rf'.currentTerm <+: full) :
    Grows g.leaderLog (g.leaderLogAfter rf' full) := by
  unfold leaderLogAfter
  split
  · rename_i hLeader
    exact Grows.update (hPrefix hLeader)
  · exact Grows.refl _

theorem fullAfter_eq
    {g : LogHistory C n}
    {rf rf' : Raft C n}
    {i : Fin n}
    {event : Event C n}
    {full : List (LogEntry C)}
    {b : Nat}
    (hSuffix : rf'.SuffixOf full b)
    (hBelow : (g.below rf rf' i event).take (b + 1) =
      full.take (b + 1)) :
    g.fullAfter rf rf' i event = full := by
  rcases hSuffix.head with ⟨first, hLog, _⟩
  unfold fullAfter
  rw [hSuffix.baseIndex, Option.getD_some, Int.toNat_natCast,
    hBelow, hLog, List.drop_succ_cons, List.drop_zero,
    List.take_append_drop]

end LogHistory

/- The cluster with the history of its logs. -/
def Cluster.logSystem
    (C : Type)
    [DecidableEq C]
    (n : Nat) :
    System (Cluster C n × LogHistory C n)
      (Fin n × Event C n) :=
  (Cluster.system C n).withHistory LogHistory.start
    LogHistory.record

------------------------------------------------------------
-- Requests And Leader Logs
------------------------------------------------------------

/- Entries carry their positions. -/
def Indexed (log : List (LogEntry C)) : Prop :=
  ∀ (k : Nat) (e : LogEntry C), log[k]? = some e →
    e.index = (k : Int)

theorem Indexed.of_extends
    {log log' : List (LogEntry C)}
    (hIndexed : Indexed log)
    (hPrefix : log' <+: log) :
    Indexed log' := by
  intro k e hEntry
  exact hIndexed k e (getElem?_of_extends hPrefix hEntry)

theorem Indexed.snoc
    {log : List (LogEntry C)}
    (hIndexed : Indexed log)
    {e : LogEntry C}
    (hEntry : e.index = (log.length : Int)) :
    Indexed (log ++ [e]) := by
  intro k e' hAt
  rcases Nat.lt_or_ge k log.length with hLt | hGe
  · rw [List.getElem?_append_left hLt] at hAt
    exact hIndexed k e' hAt
  · rw [List.getElem?_append_right hGe] at hAt
    have hLt := (List.getElem?_eq_some_iff.mp hAt).1
    rw [List.length_singleton] at hLt
    have hEq : k = log.length := by omega
    subst hEq
    rw [Nat.sub_self] at hAt
    cases hAt
    exact hEntry

/-
  The request holds a part of the log: what follows some
  position, and the term at that position.
-/
def AppendedFrom
    (log : List (LogEntry C))
    (args : AppendEntriesArgs C) : Prop :=
  ∃ p k : Nat,
    p < k ∧ k ≤ log.length ∧
    args.prevLogIndex = (p : Int) ∧
    termAt log p = some args.prevLogTerm ∧
    args.entries = (log.take k).drop (p + 1)

/- The snapshot ends at an entry of the log. -/
def SnapshotOf
    (log : List (LogEntry C))
    (args : InstallSnapshotArgs) : Prop :=
  ∃ b : Nat,
    args.lastIncludedInternal = (b : Int) ∧
    termAt log b = some args.lastIncludedTerm

theorem AppendedFrom.grow
    {log log' : List (LogEntry C)}
    {args : AppendEntriesArgs C}
    (hArgs : AppendedFrom log args)
    (hPrefix : log <+: log') :
    AppendedFrom log' args := by
  rcases hArgs with ⟨p, k, hLt, hLe, hPrev, hTerm, hEntries⟩
  have hTake : log'.take k = log.take k := by
    rcases hPrefix with ⟨rest, rfl⟩
    rw [List.take_append_of_le_length hLe]
  refine ⟨p, k, hLt, le_trans hLe hPrefix.length_le, hPrev,
    termAt_of_extends hPrefix hTerm, ?_⟩
  rw [hTake]
  exact hEntries

theorem SnapshotOf.grow
    {log log' : List (LogEntry C)}
    {args : InstallSnapshotArgs}
    (hArgs : SnapshotOf log args)
    (hPrefix : log <+: log') :
    SnapshotOf log' args := by
  rcases hArgs with ⟨b, hInternal, hTerm⟩
  exact ⟨b, hInternal, termAt_of_extends hPrefix hTerm⟩

/- A request is built from the full log of its sender. -/
theorem Raft.SuffixOf.syncArgs
    {rf : Raft C n}
    {full : List (LogEntry C)}
    {b : Nat}
    (hSuffix : rf.SuffixOf full b)
    {server : Fin n}
    {args : AppendEntriesArgs C}
    {newNextIndex : Int}
    (hArgs : rf.syncArgs server =
      some (args, newNextIndex)) :
    newNextIndex = (full.length : Int) ∧
      ∃ p : Nat,
        p < full.length ∧
        args.prevLogIndex = (p : Int) ∧
        termAt full p = some args.prevLogTerm ∧
        args.entries = full.drop (p + 1) ∧
        args.term = rf.currentTerm ∧
        args.leaderCommit = rf.commitIndex := by
  rcases Raft.syncArgs_spec hArgs with
    ⟨first, rest, p, prevLog, hLog, hPrev, hNext, rfl⟩
  have hLength := hSuffix.length_log
  have hLt := (List.getElem?_eq_some_iff.mp hPrev).1
  have hIndex : first.index = (b : Int) := by
    have hBase := hSuffix.baseIndex
    rw [Raft.baseIndex_of_log hLog, Option.some.injEq] at hBase
    exact hBase
  have hTerm : termAt full (b + p) = some prevLog.term := by
    have hAt := hSuffix.logAt_term (Nat.le_add_right b p)
    have hLocal : (((b + p : Nat) : Int) - b) = (p : Int) := by
      push_cast
      omega
    rw [hLocal, Raft.logAt, GoSlice.at?_natCast, hPrev] at hAt
    exact hAt.symm
  have hDrop :
      rf.log.drop (p + 1) = full.drop (b + p + 1) := by
    have hSub : p + 1 = b + p + 1 - b := by omega
    rw [hSub]
    exact hSuffix.drop_eq (by omega)
  refine ⟨by omega, b + p, by omega, ?_, hTerm, hDrop, rfl,
    rfl⟩
  push_cast
  omega

theorem Raft.SuffixOf.appendedFrom
    {rf : Raft C n}
    {full : List (LogEntry C)}
    {b : Nat}
    (hSuffix : rf.SuffixOf full b)
    {server : Fin n}
    {args : AppendEntriesArgs C}
    {newNextIndex : Int}
    (hArgs : rf.syncArgs server =
      some (args, newNextIndex)) :
    AppendedFrom full args := by
  rcases hSuffix.syncArgs hArgs with
    ⟨_, p, hLt, hPrev, hTerm, hEntries, _⟩
  refine ⟨p, full.length, hLt, le_refl _, hPrev, hTerm, ?_⟩
  rw [List.take_length]
  exact hEntries

theorem Raft.SuffixOf.snapshotOf
    {rf : Raft C n}
    {full : List (LogEntry C)}
    {b : Nat}
    (hSuffix : rf.SuffixOf full b)
    {first : LogEntry C}
    (hFirst : rf.logAt 0 = some first) :
    SnapshotOf full (rf.snapshotArgs first) := by
  rcases hSuffix.head with ⟨first', hLog, hIndex, hTerm, _⟩
  rcases Raft.logAt_zero_eq_some_iff.mp hFirst with
    ⟨rest, hRest⟩
  rw [hLog] at hRest
  rw [← (List.cons.inj hRest).1]
  exact ⟨b, hIndex, hTerm⟩

------------------------------------------------------------
-- Fix Packages
------------------------------------------------------------

/- The request is taken as a fix package. -/
def Raft.takesFix
    (rf : Raft C n)
    (args : AppendEntriesArgs C) : Bool :=
  decide (rf.currentTerm ≤ args.term) &&
    rf.globalLogLen.any
      (fun len => decide (args.prevLogIndex < len - 1)) &&
    decide (args.prevLogIndex = rf.lastApplied)

/- The log has the request's term at its start position. -/
def Raft.hasPrevTerm
    (rf : Raft C n)
    (args : AppendEntriesArgs C) : Bool :=
  decide ((rf.localIndex args.prevLogIndex).bind
    (fun l => rf.hasTermAt l args.prevLogTerm) = some true)

/-
  A fix package replaces the end of a log only if the log
  has the term of the request where the package starts.
-/
def Node.fixesMatchingLog
    (nd : Node C n) :
    Event C n → Bool
| .appendEntries args =>
    !nd.rf.takesFix args ||
      decide
        (nd.rf.prefixCheck args.entries.length 0
          args.entries = some args.entries.length) ||
      nd.rf.hasPrevTerm args
| _ => true

theorem Raft.takesFix_of
    {rf : Raft C n}
    {args : AppendEntriesArgs C}
    {len : Int}
    (hTerm : rf.currentTerm ≤ args.term)
    (hLen : rf.globalLogLen = some len)
    (hIndex : args.prevLogIndex < len - 1)
    (hApplied : args.prevLogIndex = rf.lastApplied) :
    rf.takesFix args = true := by
  simp [Raft.takesFix, hTerm, hLen, hApplied]
  omega

theorem Raft.SuffixOf.hasPrevTerm_iff
    {rf : Raft C n}
    {full : List (LogEntry C)}
    {b p : Nat}
    {args : AppendEntriesArgs C}
    (hSuffix : rf.SuffixOf full b)
    (hLe : b ≤ p)
    (hPrev : args.prevLogIndex = (p : Int)) :
    rf.hasPrevTerm args = true ↔
      termAt full p = some args.prevLogTerm := by
  unfold Raft.hasPrevTerm
  rw [decide_eq_true_eq, hPrev, hSuffix.localIndex,
    Option.bind_some]
  have hTerm := hSuffix.logAt_term hLe
  unfold Raft.hasTermAt
  rw [← hTerm]
  cases rf.logAt ((p : Int) - b) <;> simp

------------------------------------------------------------
-- The Full Log After A Step
------------------------------------------------------------

/-
  What a step does to the full log of the server that takes
  it: nothing, one more entry of a leader, or a part of a
  leader's log in its place.
-/
inductive FullStep
    (g : LogHistory C n)
    (rf : Raft C n)
    (i : Fin n)
    (event : Event C n)
    (rf' : Raft C n) :
    List (LogEntry C) → Prop
  | same : FullStep g rf i event rf' (g.full i)
  | extended
      (e : LogEntry C)
      (hLeader : rf'.state = .leader)
      (hTerm : rf'.currentTerm = rf.currentTerm)
      (hEntry : e.term = rf.currentTerm)
      (hIndex : e.index = ((g.full i).length : Int)) :
      FullStep g rf i event rf' (g.full i ++ [e])
  | appended
      (args : AppendEntriesArgs C)
      (hEvent : event = .appendEntries args)
      (hFollower : rf'.state = .follower)
      (k : Nat)
      (hPos : 0 < k)
      (hLe : k ≤ (g.leaderLog args.term).length)
      (hEnd : (k : Int) =
        args.prevLogIndex + 1 + args.entries.length) :
      FullStep g rf i event rf'
        ((g.leaderLog args.term).take k)
  | reset
      (args : InstallSnapshotArgs)
      (hEvent : event = .installSnapshot args)
      (hFollower : rf'.state = .follower)
      (b : Nat)
      (hLt : b < (g.leaderLog args.term).length)
      (hInternal : args.lastIncludedInternal = (b : Int)) :
      FullStep g rf i event rf'
        ((g.leaderLog args.term).take (b + 1))

section Steps

variable {g : LogHistory C n}
variable {i : Fin n}
variable {rf rf' : Raft C n}
variable {event : Event C n}
variable {b : Nat}

/- The server still holds what follows its cut. -/
def Raft.Holds
    (rf : Raft C n)
    (full : List (LogEntry C)) : Prop :=
  ∃ b : Nat, rf.SuffixOf full b ∧ (b : Int) ≤ rf.lastApplied

/- The full log, and what the server still holds of it. -/
structure FullAfter
    (g : LogHistory C n)
    (rf : Raft C n)
    (i : Fin n)
    (event : Event C n)
    (rf' : Raft C n) : Prop where
  holds : rf'.Holds (g.fullAfter rf rf' i event)
  step :
    FullStep g rf i event rf' (g.fullAfter rf rf' i event)

theorem FullAfter.of_eq
    {full : List (LogEntry C)}
    (hEq : g.fullAfter rf rf' i event = full)
    (hSuffix : rf'.SuffixOf full b)
    (hApplied : (b : Int) ≤ rf'.lastApplied)
    (hStep : FullStep g rf i event rf' full) :
    FullAfter g rf i event rf' := by
  constructor
  · rw [hEq]
    exact ⟨b, hSuffix, hApplied⟩
  · rw [hEq]
    exact hStep

theorem FullAfter.intro
    {full : List (LogEntry C)}
    (hSuffix : rf'.SuffixOf full b)
    (hApplied : (b : Int) ≤ rf'.lastApplied)
    (hBelow : (g.below rf rf' i event).take (b + 1) =
      full.take (b + 1))
    (hStep : FullStep g rf i event rf' full) :
    FullAfter g rf i event rf' :=
  .of_eq (LogHistory.fullAfter_eq hSuffix hBelow) hSuffix
    hApplied hStep

theorem LogHistory.below_eq_full
    (hIndex : rf'.snapshotIndex = rf.snapshotIndex) :
    g.below rf rf' i event = g.full i := by
  cases event with
  | installSnapshot args =>
      simp only [LogHistory.below]
      rw [if_pos hIndex]
  | _ => rfl

theorem LogHistory.fullAfter_of_suffix
    (hIndex : rf'.snapshotIndex = rf.snapshotIndex)
    (hSuffix : rf'.SuffixOf (g.full i) b) :
    g.fullAfter rf rf' i event = g.full i := by
  apply LogHistory.fullAfter_eq hSuffix
  rw [LogHistory.below_eq_full hIndex]

theorem FullAfter.of_same
    (hSuffix : rf.SuffixOf (g.full i) b)
    (hLog : rf'.log = rf.log)
    (hIndex : rf'.snapshotIndex = rf.snapshotIndex)
    (hApplied : (b : Int) ≤ rf'.lastApplied) :
    FullAfter g rf i event rf' := by
  have hNew := hSuffix.of_log_eq hLog
  exact .of_eq
    (LogHistory.fullAfter_of_suffix hIndex hNew) hNew
    hApplied .same

/- A leader appends an entry. -/
theorem FullAfter.of_extended
    {e : LogEntry C}
    {len : Int}
    (hSuffix : rf.SuffixOf (g.full i) b)
    (hApplied : (b : Int) ≤ rf.lastApplied)
    (hLen : rf.globalLogLen = some len)
    (hLog : rf'.log = rf.log ++ [e])
    (hIndex : rf'.snapshotIndex = rf.snapshotIndex)
    (hSame : rf'.lastApplied = rf.lastApplied)
    (hLeader : rf'.state = .leader)
    (hTerm : rf'.currentTerm = rf.currentTerm)
    (hEntry : e.term = rf.currentTerm)
    (hPosition : e.index = len) :
    FullAfter g rf i event rf' := by
  have hLt := hSuffix.lt_length
  rw [hSuffix.globalLogLen, Option.some.injEq] at hLen
  refine .intro (hSuffix.of_append hLog) (by omega) ?_
    (.extended e hLeader hTerm hEntry (by omega))
  rw [LogHistory.below_eq_full hIndex,
    List.take_append_of_le_length (by omega)]

/-
  The request continues a log that agrees with the leader's
  up to its start position.
-/
theorem AppendedFrom.append_eq
    {log : List (LogEntry C)}
    {args : AppendEntriesArgs C}
    (hArgs : AppendedFrom log args) :
    ∃ p k : Nat,
      args.prevLogIndex = (p : Int) ∧
      termAt log p = some args.prevLogTerm ∧
      k ≤ log.length ∧
      (k : Int) =
        args.prevLogIndex + 1 + args.entries.length ∧
      log.take (p + 1) ++ args.entries = log.take k := by
  rcases hArgs with ⟨p, k, hLt, hLe, hPrev, hTerm, hEntries⟩
  have hLength : args.entries.length = k - (p + 1) := by
    rw [hEntries, List.length_drop, List.length_take]
    omega
  refine ⟨p, k, hPrev, hTerm, hLe, by omega, ?_⟩
  have hSplit := List.take_append_drop (p + 1) (log.take k)
  rw [List.take_take, Nat.min_eq_left (by omega)] at hSplit
  rw [hEntries]
  exact hSplit

/- The end of the log is replaced by that of the request. -/
theorem LogHistory.full_of_stored
    {args : AppendEntriesArgs C}
    {p k : Nat}
    (hSuffix : rf.SuffixOf (g.full i) b)
    (hIndex : rf'.snapshotIndex = rf.snapshotIndex)
    (hAfter : b ≤ p)
    (hLe : p + 1 ≤ (g.full i).length)
    (hLog : rf'.log =
      rf.log.take (p + 1 - b) ++ args.entries)
    (hAgree : (g.full i).take (p + 1) =
      (g.leaderLog args.term).take (p + 1))
    (hAppend :
      (g.leaderLog args.term).take (p + 1) ++ args.entries =
        (g.leaderLog args.term).take k) :
    rf'.SuffixOf ((g.leaderLog args.term).take k) b ∧
      g.fullAfter rf rf' i event =
        (g.leaderLog args.term).take k := by
  have hNew := hSuffix.of_replaced (show b < p + 1 by omega)
    hLe hLog
  have hTake :
      ((g.full i).take (p + 1) ++ args.entries).take (b + 1) =
        (g.full i).take (b + 1) := by
    rw [List.take_append_of_le_length
      (by rw [List.length_take]; omega), List.take_take,
      Nat.min_eq_left (by omega)]
  rw [← hAppend, ← hAgree]
  refine ⟨hNew, LogHistory.fullAfter_eq hNew ?_⟩
  rw [LogHistory.below_eq_full hIndex, hTake]

/-
  A request leaves the full log as it is, or replaces it by
  the part of the leader's log that ends with the request.
  It succeeds without a change if the prefix check of a fix
  package runs through all entries.
-/
theorem Raft.AppendEntriesCase.full_cases
    {args : AppendEntriesArgs C}
    {reply : AppendEntriesReply}
    (hCase : rf.AppendEntriesCase args rf' reply)
    (hSuffix : rf.SuffixOf (g.full i) b)
    (hApplied : (b : Int) ≤ rf.lastApplied)
    (hArgs : AppendedFrom (g.leaderLog args.term) args)
    (hMatching :
      LogMatching (g.full i) (g.leaderLog args.term))
    (hFix :
      rf.takesFix args = true →
      rf.prefixCheck args.entries.length 0 args.entries ≠
        some args.entries.length →
      rf.hasPrevTerm args = true) :
    (rf'.SuffixOf (g.full i) b ∧
      g.fullAfter rf rf' i (.appendEntries args) =
        g.full i ∧
      (reply.success = true →
        rf.takesFix args = true ∧
        rf.prefixCheck args.entries.length 0 args.entries =
          some args.entries.length)) ∨
    (reply.success = true ∧ rf'.state = .follower ∧
      ∃ k : Nat,
        0 < k ∧ k ≤ (g.leaderLog args.term).length ∧
        (k : Int) =
          args.prevLogIndex + 1 + args.entries.length ∧
        rf'.SuffixOf ((g.leaderLog args.term).take k) b ∧
        g.fullAfter rf rf' i (.appendEntries args) =
          (g.leaderLog args.term).take k) := by
  have hSame :
      rf'.log = rf.log →
      rf'.SuffixOf (g.full i) b ∧
        g.fullAfter rf rf' i (.appendEntries args) =
          g.full i := by
    intro hLog
    have hNew := hSuffix.of_log_eq hLog
    exact ⟨hNew, LogHistory.fullAfter_eq hNew rfl⟩
  rcases hArgs.append_eq with
    ⟨p, k, hPrev, hPrevTerm, hLength, hEnd, hAppend⟩
  have hLt := hSuffix.lt_length
  have hLogLength := hSuffix.length_log
  cases hCase with
  | stale hTerm reply hFailed =>
      refine Or.inl ⟨(hSame rfl).1, (hSame rfl).2, ?_⟩
      intro hSuccess
      rw [hFailed] at hSuccess
      cases hSuccess
  | covered hTerm len hLen hIndex hPosition hPrefix =>
      exact Or.inl ⟨(hSame rfl).1, (hSame rfl).2, fun _ =>
        ⟨Raft.takesFix_of hTerm hLen hIndex hPosition,
          hPrefix⟩⟩
  | rejected =>
      refine Or.inl ⟨(hSame rfl).1, (hSame rfl).2, ?_⟩
      intro hSuccess
      cases hSuccess
  | good hTerm len hLen hIndex hLast reply hSuccess =>
      rw [hSuffix.globalLogLen, Option.some.injEq] at hLen
      have hEq : (g.full i).length - 1 = p := by omega
      rw [hSuffix.lastLogTerm, hEq] at hLast
      refine Or.inr ⟨hSuccess, rfl, k, by omega, hLength,
        hEnd, ?_⟩
      refine LogHistory.full_of_stored hSuffix rfl
        (show b ≤ p by omega) (by omega) ?_
        (hMatching p _ hLast hPrevTerm) hAppend
      -- all of the log is kept
      rw [List.take_of_length_le (by omega)]
      rfl
  | fixed hTerm len hLen hIndex hPosition j hPrefix hDiffer
      bound hBound hRange reply hSuccess =>
      have hHas : rf.hasPrevTerm args = true := by
        apply hFix
          (Raft.takesFix_of hTerm hLen hIndex hPosition)
        rw [hPrefix]
        intro hEq
        exact hDiffer (Option.some.inj hEq)
      rw [hSuffix.hasPrevTerm_iff (by omega) hPrev] at hHas
      rw [hSuffix.globalLogLen, Option.some.injEq] at hLen
      rw [hSuffix.localIndex, Option.some.injEq] at hBound
      have hNat : bound.toNat = p + 1 - b := by omega
      refine Or.inr ⟨hSuccess, rfl, k, by omega, hLength,
        hEnd, ?_⟩
      refine LogHistory.full_of_stored hSuffix rfl
        (show b ≤ p by omega) (by omega) ?_
        (hMatching p _ hHas hPrevTerm) hAppend
      rw [← hNat]
      rfl

theorem Raft.AppendEntriesCase.lastApplied_eq
    {args : AppendEntriesArgs C}
    {reply : AppendEntriesReply}
    (hCase : rf.AppendEntriesCase args rf' reply) :
    rf'.lastApplied = rf.lastApplied := by
  cases hCase <;> rfl

theorem FullAfter.of_appendEntries
    {args : AppendEntriesArgs C}
    {reply : AppendEntriesReply}
    (hSuffix : rf.SuffixOf (g.full i) b)
    (hApplied : (b : Int) ≤ rf.lastApplied)
    (hArgs : AppendedFrom (g.leaderLog args.term) args)
    (hMatching :
      LogMatching (g.full i) (g.leaderLog args.term))
    (hFix :
      rf.takesFix args = true →
      rf.prefixCheck args.entries.length 0 args.entries ≠
        some args.entries.length →
      rf.hasPrevTerm args = true)
    (hCase : rf.AppendEntriesCase args rf' reply) :
    FullAfter g rf i (.appendEntries args) rf' := by
  have hApplied' : (b : Int) ≤ rf'.lastApplied := by
    rw [hCase.lastApplied_eq]
    exact hApplied
  rcases hCase.full_cases hSuffix hApplied hArgs hMatching
      hFix with
    ⟨hNew, hEq, _⟩ |
    ⟨_, hFollower, k, hPos, hLe, hEnd, hNew, hEq⟩
  · exact .of_eq hEq hNew hApplied' .same
  · exact .of_eq hEq hNew hApplied'
      (.appended args rfl hFollower k hPos hLe hEnd)

/-
  A snapshot that is taken over cuts the full log, or
  replaces it by the leader's log up to the snapshot.
-/
theorem Raft.InstallSnapshotCase.full_cases
    {args : InstallSnapshotArgs}
    {reply : InstallSnapshotReply}
    (hCase : rf.InstallSnapshotCase args rf' reply)
    (hSuffix : rf.SuffixOf (g.full i) b)
    (hArgs : SnapshotOf (g.leaderLog args.term) args)
    (hMatching :
      LogMatching (g.full i) (g.leaderLog args.term)) :
    (rf' = rf ∧
      g.fullAfter rf rf' i (.installSnapshot args) =
        g.full i) ∨
    (∃ b' : Nat,
      args.lastIncludedInternal = (b' : Int) ∧
      b' < (g.leaderLog args.term).length ∧
      rf'.lastApplied = (b' : Int) ∧
      rf'.state = .follower ∧
      ((b ≤ b' ∧
        (g.full i).take (b' + 1) =
          (g.leaderLog args.term).take (b' + 1) ∧
        rf'.SuffixOf (g.full i) b' ∧
        g.fullAfter rf rf' i (.installSnapshot args) =
          g.full i) ∨
      ((b ≤ b' →
          (g.full i).take (b' + 1) ≠
            (g.leaderLog args.term).take (b' + 1)) ∧
        rf'.SuffixOf ((g.leaderLog args.term).take (b' + 1))
          b' ∧
        g.fullAfter rf rf' i (.installSnapshot args) =
          (g.leaderLog args.term).take (b' + 1)))) := by
  rcases hArgs with ⟨b', hInternal, hTerm'⟩
  have hLength := lt_length_of_termAt hTerm'
  -- the log of the sender stands below the new cut
  have hBelow :
      ∀ log, rf.snapshotIndex < args.lastIncludedIndex →
        g.below rf (rf.installed args log) i
            (.installSnapshot args) =
          g.leaderLog args.term := by
    intro log hNewer
    simp only [LogHistory.below]
    rw [if_neg]
    change ¬ args.lastIncludedIndex = rf.snapshotIndex
    omega
  cases hCase with
  | refused =>
      exact Or.inl
        ⟨rfl, LogHistory.fullAfter_of_suffix rfl hSuffix⟩
  | kept hTerm hNewer l hLocal own hOwn hOwnTerm =>
      rw [hSuffix.localIndex, Option.some.injEq] at hLocal
      have hl : (l : Int) = (b' : Int) - b := by omega
      have hHeld :
          termAt (g.full i) b' =
            some args.lastIncludedTerm := by
        rw [← hSuffix.logAt_term (show b ≤ b' by omega), ← hl,
          Raft.logAt, GoSlice.at?_natCast, hOwn,
          Option.map_some, hOwnTerm]
      have hTake := hMatching b' _ hHeld hTerm'
      have hDrop :
          rf.log.drop (l + 1) = (g.full i).drop (b' + 1) := by
        have hSub : l + 1 = b' + 1 - b := by omega
        rw [hSub]
        exact hSuffix.drop_eq (by omega)
      rw [hDrop]
      have hNew :
          (rf.installed args (Raft.snapshotEntry args ::
            (g.full i).drop (b' + 1))).SuffixOf (g.full i)
              b' :=
        ⟨Raft.snapshotEntry args, rfl, hInternal, hHeld, rfl⟩
      refine Or.inr ⟨b', hInternal, hLength, hInternal, rfl,
        Or.inl ⟨by omega, hTake, hNew,
          LogHistory.fullAfter_eq hNew ?_⟩⟩
      rw [hBelow _ hNewer]
      exact hTake.symm
  | reset hTerm hNewer l hLocal hDiffer =>
      have hTermTake :
          termAt ((g.leaderLog args.term).take (b' + 1)) b' =
            some args.lastIncludedTerm := by
        rw [← hTerm']
        apply termAt_of_take_eq (k := b' + 1)
        · rw [List.take_take, Nat.min_self]
        · omega
      have hNew :
          (rf.installed args
            [Raft.snapshotEntry args]).SuffixOf
              ((g.leaderLog args.term).take (b' + 1)) b' := by
        refine ⟨Raft.snapshotEntry args, ?_, hInternal,
          hTermTake, rfl⟩
        rw [List.drop_eq_nil_of_le]
        · rfl
        · rw [List.length_take]
          omega
      refine Or.inr ⟨b', hInternal, hLength, hInternal, rfl,
        Or.inr ⟨?_, hNew, LogHistory.fullAfter_eq hNew ?_⟩⟩
      · -- the server would keep what follows the snapshot
        intro hLe hTake
        rw [hSuffix.localIndex, Option.some.injEq] at hLocal
        have hHeld : termAt (g.full i) b' =
            some args.lastIncludedTerm := by
          rw [← hTerm']
          exact termAt_of_take_eq hTake (Nat.lt_succ_self b')
        have hl : ((b' : Int) - b) = ((b' - b : Nat) : Int) := by
          omega
        rw [← hSuffix.logAt_term hLe, hl, Raft.logAt,
          GoSlice.at?_natCast] at hHeld
        rcases Option.map_eq_some_iff.mp hHeld with
          ⟨own, hOwn, hOwnTerm⟩
        have hNat : l.toNat = b' - b := by omega
        rw [← hNat] at hOwn
        exact hDiffer (by omega) own hOwn hOwnTerm
      · rw [hBelow _ hNewer, List.take_take, Nat.min_self]

theorem FullAfter.of_installSnapshot
    {args : InstallSnapshotArgs}
    {reply : InstallSnapshotReply}
    (hSuffix : rf.SuffixOf (g.full i) b)
    (hApplied : (b : Int) ≤ rf.lastApplied)
    (hArgs : SnapshotOf (g.leaderLog args.term) args)
    (hMatching :
      LogMatching (g.full i) (g.leaderLog args.term))
    (hCase : rf.InstallSnapshotCase args rf' reply) :
    FullAfter g rf i (.installSnapshot args) rf' := by
  rcases hCase.full_cases hSuffix hArgs hMatching with
    ⟨rfl, _⟩ |
    ⟨b', hInternal, hLength, hLast, hFollower, hCut⟩
  · exact .of_same hSuffix rfl rfl hApplied
  · have hLe := le_of_eq hLast.symm
    rcases hCut with ⟨_, _, hNew, hEq⟩ | ⟨_, hNew, hEq⟩
    · exact .of_eq hEq hNew hLe .same
    · exact .of_eq hEq hNew hLe
        (.reset args rfl hFollower b' hLength hInternal)

/- The log is cut at an applied position. -/
theorem Raft.SuffixOf.of_indexed
    {index : Int}
    {snapshot : Bytes}
    {full : List (LogEntry C)}
    {l : Nat}
    {first : LogEntry C}
    {rest : List (LogEntry C)}
    (hSuffix : rf.SuffixOf full b)
    (hIndexed : Indexed full)
    (hDrop : rf.log.drop l = first :: rest) :
    (rf.compacted index snapshot first rest).SuffixOf full
      (b + l) := by
  have hFirst : rf.log[l]? = some first := by
    have hHead := congrArg (fun log => log[0]?) hDrop
    simpa [List.getElem?_drop] using hHead
  apply hSuffix.of_compacted hDrop
  cases l with
  | zero =>
      rcases hSuffix.head with ⟨first', hLog, hBase, _⟩
      rw [hLog] at hFirst
      cases hFirst
      exact hBase
  | succ l =>
      rw [hSuffix.getElem?_eq] at hFirst
      have hAt := hIndexed _ _ hFirst
      rw [hAt]
      push_cast
      omega

theorem Raft.SuffixOf.cut_le_of_localIndex
    {full : List (LogEntry C)}
    {prevIndex : Int}
    {l : Nat}
    (hSuffix : rf.SuffixOf full b)
    (hLocal : rf.localIndex prevIndex = some (l : Int))
    (hLe : prevIndex ≤ rf.lastApplied) :
    ((b + l : Nat) : Int) ≤ rf.lastApplied := by
  rw [hSuffix.localIndex, Option.some.injEq] at hLocal
  push_cast
  omega

theorem Raft.lastApplied_le_of_applyEntries
    (hApply : rf.applyEntries = some rf') :
    rf.lastApplied ≤ rf'.lastApplied := by
  refine Raft.applyEntries_induct
    (P := fun r => rf.lastApplied ≤ r.lastApplied) ?_
    (le_refl _) hApply
  intro r r' hLe hIteration
  rcases Raft.applyIteration_cases hIteration with
    ⟨l, entry, _, _, _, _, ⟨_, _, _, rfl⟩ | ⟨_, rfl⟩⟩
  · change rf.lastApplied ≤ r.lastApplied + 1
    omega
  · change rf.lastApplied ≤ r.lastApplied + 1
    omega

theorem Raft.RequestVoteCase.log_eq
    {args : RequestVoteArgs}
    {reply : RequestVoteReply}
    (hCase : rf.RequestVoteCase args rf' reply) :
    rf'.log = rf.log ∧
      rf'.snapshotIndex = rf.snapshotIndex ∧
      rf'.lastApplied = rf.lastApplied := by
  have hAdopt :
      (rf.adoptVoteTerm args).log = rf.log ∧
        (rf.adoptVoteTerm args).snapshotIndex =
          rf.snapshotIndex ∧
        (rf.adoptVoteTerm args).lastApplied =
          rf.lastApplied := by
    unfold Raft.adoptVoteTerm
    split <;> exact ⟨rfl, rfl, rfl⟩
  cases hCase with
  | stale => exact ⟨rfl, rfl, rfl⟩
  | refused => exact hAdopt
  | granted => exact hAdopt

/-
  Apart from requests, and from what a leader appends, the
  full log stays and is at most cut.
-/
theorem RaftStep.full_cases
    {nd : Node C n}
    {effects : List (Effect C n)}
    (hStep : RaftStep nd event rf' effects)
    (hRf : nd.rf.Persisted)
    (hSuffix : nd.rf.SuffixOf (g.full i) b)
    (hApplied : (b : Int) ≤ nd.rf.lastApplied)
    (hIndexed : Indexed (g.full i)) :
    (∃ args reply, event = .appendEntries args ∧
      effects = [.appendReply args reply] ∧
      nd.rf.AppendEntriesCase args rf' reply) ∨
    (∃ args reply, event = .installSnapshot args ∧
      nd.rf.InstallSnapshotCase args rf' reply) ∨
    (rf'.state = .leader ∧ FullAfter g nd.rf i event rf') ∨
    (g.fullAfter nd.rf rf' i event = g.full i ∧
      ∃ b' : Nat, b ≤ b' ∧ (b' : Int) ≤ rf'.lastApplied ∧
        rf'.SuffixOf (g.full i) b') := by
  have hSame :
      rf'.log = nd.rf.log →
      rf'.snapshotIndex = nd.rf.snapshotIndex →
      (b : Int) ≤ rf'.lastApplied →
      g.fullAfter nd.rf rf' i event = g.full i ∧
        ∃ b' : Nat, b ≤ b' ∧ (b' : Int) ≤ rf'.lastApplied ∧
          rf'.SuffixOf (g.full i) b' := by
    intro hLog hIndex hLe
    have hNew := hSuffix.of_log_eq hLog
    exact ⟨LogHistory.fullAfter_of_suffix hIndex hNew, b,
      le_refl b, hLe, hNew⟩
  cases hStep with
  | requestVote args hEvent rf' reply hCase =>
      rcases hCase.log_eq with ⟨hLog, hIndex, hLast⟩
      rw [← hLast] at hApplied
      exact Or.inr (Or.inr (Or.inr
        (hSame hLog hIndex hApplied)))
  | appendEntries args hEvent rf' reply hCase =>
      exact Or.inl ⟨args, reply, hEvent, rfl, hCase⟩
  | installSnapshot args hEvent rf' reply hCase =>
      exact Or.inr (Or.inl ⟨args, reply, hEvent, hCase⟩)
  | start command hEvent hLeader len hLen =>
      exact Or.inr (Or.inr (Or.inl ⟨hLeader,
        .of_extended hSuffix hApplied hLen rfl rfl rfl
          hLeader rfl rfl rfl⟩))
  | win j k ballot hEvent hThread hCandiate hBallot len
      hLen =>
      exact Or.inr (Or.inr (Or.inl ⟨rfl,
        .of_extended hSuffix hApplied hLen rfl rfl rfl rfl
          rfl rfl rfl⟩))
  | takeSnapshot index snapshot hEvent prevIndex l first
      rest hPrev hNewer hBound hLocal hDrop =>
      have hNew : (nd.rf.compacted index snapshot first
          rest).SuffixOf (g.full i) (b + l) :=
        hSuffix.of_indexed hIndexed hDrop
      have hLe : ((b + l : Nat) : Int) ≤ nd.rf.lastApplied :=
        hSuffix.cut_le_of_localIndex hLocal hBound
      subst hEvent
      exact Or.inr (Or.inr (Or.inr
        ⟨LogHistory.fullAfter_eq hNew rfl, b + l,
          Nat.le_add_right b l, hLe, hNew⟩))
  | election j k hEvent hThread rf' args hStart =>
      rw [(Raft.electionStart_spec hStart).1] at hSame ⊢
      exact Or.inr (Or.inr (Or.inr
        (hSame rfl rfl hApplied)))
  | applyEntries rf' hApply =>
      have hDurable := (Raft.applyEntries_volatile hApply).1
      simp only [Raft.durable, Prod.mk.injEq] at hDurable
      exact Or.inr (Or.inr (Or.inr
        (hSame hDurable.2.2.1 hDurable.2.2.2.2.1
          (le_trans hApplied
            (Raft.lastApplied_le_of_applyEntries hApply)))))
  | restart hEvent rf' hMake =>
      have hDurable := Raft.durable_of_make hRf hMake
      simp only [Raft.durable, Prod.mk.injEq] at hDurable
      exact Or.inr (Or.inr (Or.inr
        (hSame hDurable.2.2.1 hDurable.2.2.2.2.1
          (Raft.baseIndex_le_of_make hRf hMake
            hSuffix.baseIndex))))
  | _ =>
      exact Or.inr (Or.inr (Or.inr
        (hSame rfl rfl hApplied)))

/-
  Each step moves the full log in one of the ways listed,
  if the requests it handles are taken from leader logs that
  match the log of the server.
-/
theorem RaftStep.fullAfter
    {nd : Node C n}
    {effects : List (Effect C n)}
    (hStep : RaftStep nd event rf' effects)
    (hRf : nd.rf.Persisted)
    (hHolds : nd.rf.Holds (g.full i))
    (hIndexed : Indexed (g.full i))
    (hMatching :
      ∀ t, LogMatching (g.full i) (g.leaderLog t))
    (hAppend :
      ∀ args, event = .appendEntries args →
        AppendedFrom (g.leaderLog args.term) args)
    (hInstall :
      ∀ args, event = .installSnapshot args →
        SnapshotOf (g.leaderLog args.term) args)
    (hFix : nd.fixesMatchingLog event = true) :
    FullAfter g nd.rf i event rf' := by
  rcases hHolds with ⟨b, hSuffix, hApplied⟩
  rcases hStep.full_cases hRf hSuffix hApplied hIndexed with
    ⟨args, reply, rfl, _, hCase⟩ | ⟨args, reply, rfl, hCase⟩ |
    ⟨_, hFull⟩ | ⟨hEq, b', _, hLe, hNew⟩
  · refine .of_appendEntries hSuffix hApplied
      (hAppend args rfl) (hMatching _) ?_ hCase
    intro hTakes hDiffer
    simpa [Node.fixesMatchingLog, hTakes, hDiffer] using hFix
  · exact .of_installSnapshot hSuffix hApplied
      (hInstall args rfl) (hMatching _) hCase
  · exact hFull
  · exact .of_eq hEq hNew hLe .same

end Steps

end RaftLab
