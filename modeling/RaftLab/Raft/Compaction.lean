import RaftLab.Raft.FullLog

/-
  Command numbers of a compacted log.

  The service numbers the commands of the log, raft numbers
  all entries, and both functions that translate between the
  two count entries from the base of the compacted log. We
  fix one full log and look at every state its compactions
  lead to: cuts by `Snapshot` and snapshots another server
  made of the same log. In each of them the translations are
  those of the full log.

  Main declarations:
    * `CommandAt`, `FullLog`
    * `Compacted`
    * `Raft.KeepsNumbering`
    * `compacted_keepsNumbering`
-/

------------------------------------------------------------
-- Compactions Of One Log
------------------------------------------------------------

namespace RaftLab

variable {C : Type} {n : Nat}

/- The `e`-th command stands at position `d`. -/
def CommandAt
    (full : List (LogEntry C))
    (e : Int)
    (d : Nat) : Prop :=
  0 < d ∧
    (∃ cut, full[d]? = some cut ∧ cut.type = .normal) ∧
    (commandCount full d : Int) = e

/-
  A log nothing was cut from: entry 0 is the no-op `Make`
  puts there, and every entry knows its position.
-/
structure FullLog
    (full : List (LogEntry C)) : Prop where
  first : ∃ entry, full[0]? = some entry ∧ entry.type = .noop
  indexed :
    ∀ (i : Nat) (entry : LogEntry C),
      full[i]? = some entry → entry.index = (i : Int)

/-
  The states the compactions of `full` lead to. Between two
  of them everything but the log and the snapshot index may
  change.
-/
inductive Compacted
    (full : List (LogEntry C)) : Raft C n → Prop
  | start
      {rf : Raft C n}
      (hLog : rf.log = full)
      (hIndex : rf.snapshotIndex = 0) :
      Compacted full rf
  | other
      {rf rf' : Raft C n}
      (hBefore : Compacted full rf)
      (hLog : rf'.log = rf.log)
      (hIndex : rf'.snapshotIndex = rf.snapshotIndex) :
      Compacted full rf'
  | snapshot
      {rf rf' : Raft C n}
      (hBefore : Compacted full rf)
      {index : Int}
      {snapshot : Bytes}
      (hApplied : index ≤
        (commandCount full rf.lastApplied.toNat : Int))
      (hStep : rf.takeSnapshot index snapshot = some rf') :
      Compacted full rf'
  | install
      {rf rf' sender : Raft C n}
      (hBefore : Compacted full rf)
      (hSender : Compacted full sender)
      {first : LogEntry C}
      (hFirst : sender.logAt 0 = some first)
      {reply : InstallSnapshotReply}
      (hStep :
        rf.installSnapshot (sender.snapshotArgs first) =
          some (rf', reply)) :
      Compacted full rf'

------------------------------------------------------------
-- The Cut
------------------------------------------------------------

namespace Raft.CutAt

variable {rf rf' sender : Raft C n}
variable {full : List (LogEntry C)}
variable {b b' : Nat}

/- Nothing was cut from the log yet. -/
theorem of_full
    (hFull : FullLog full)
    (hLog : rf.log = full)
    (hIndex : rf.snapshotIndex = 0) :
    rf.CutAt full 0 := by
  rcases hFull.first with ⟨first, hFirst, hNoop⟩
  have hZero : first.index = ((0 : Nat) : Int) :=
    hFull.indexed 0 first hFirst
  cases full with
  | nil => cases hFirst
  | cons head rest =>
      cases hFirst
      refine ⟨⟨first, hLog, hZero, rfl, hNoop⟩, Or.inl rfl,
        ?_⟩
      rw [hIndex]
      rfl

/- The entry a cut leaves at position `d`. -/
theorem drop_eq_cons
    (hCut : rf.CutAt full b)
    {d : Nat}
    (hAfter : b < d)
    {cut : LogEntry C}
    (hEntry : full[d]? = some cut) :
    rf.log.drop (d - b) = cut :: full.drop (d + 1) := by
  rcases List.getElem?_eq_some_iff.mp hEntry with ⟨hLt, rfl⟩
  rw [hCut.drop_eq hAfter]
  exact List.drop_eq_getElem_cons hLt

/- A cut at the command `index`, which stands at `d`. -/
theorem of_cut
    (hFull : FullLog full)
    (hCut : rf.CutAt full b)
    {index : Int}
    {snapshot : Bytes}
    {d : Nat}
    (hAfter : b < d)
    {cut : LogEntry C}
    (hEntry : full[d]? = some cut)
    (hNormal : cut.type = .normal)
    (hNumber : index = (commandCount full d : Int)) :
    (rf.compacted index snapshot cut
      (full.drop (d + 1))).CutAt full d := by
  have hSum : b + (d - b) = d := by omega
  have hIndex :
      cut.index = ((b + (d - b) : Nat) : Int) := by
    rw [hSum]
    exact hFull.indexed d cut hEntry
  have hSuffix :
      (rf.compacted index snapshot cut
        (full.drop (d + 1))).SuffixOf full (b + (d - b)) :=
    hCut.toSuffixOf.of_compacted
      (hCut.drop_eq_cons hAfter hEntry) hIndex
  rw [hSum] at hSuffix
  exact ⟨hSuffix, Or.inr ⟨cut, hEntry, hNormal⟩, hNumber⟩

/- What a snapshot at an applied command leads to. -/
theorem takeSnapshot
    (hCut : rf.CutAt full b)
    {index : Int}
    (snapshot : Bytes)
    (hNewer : rf.snapshotIndex < index)
    (hApplied : index ≤
      (commandCount full rf.lastApplied.toNat : Int)) :
    ∃ d cut, b < d ∧
      full[d]? = some cut ∧
      cut.type = .normal ∧
      index = (commandCount full d : Int) ∧
      rf.takeSnapshot index snapshot =
        some (rf.compacted index snapshot cut
          (full.drop (d + 1))) := by
  rcases hCut.internalIndex hCut.snapshotIndex hNewer
    hApplied with
    ⟨d, hAfter, hLe, hInternal, hNumber, cut, hEntry, hType⟩
  refine ⟨d, cut, hAfter, hEntry, hType, hNumber, ?_⟩
  have hLength := hCut.length_log
  have hLt := (List.getElem?_eq_some_iff.mp hEntry).1
  have hDrop := hCut.drop_eq_cons hAfter hEntry
  have hFrom : GoSlice.from? rf.log ((d : Int) - b) =
      some (cut :: full.drop (d + 1)) := by
    refine GoSlice.from?_eq_some_iff.mpr ⟨by omega, ?_⟩
    have hNat : ((d : Int) - b).toNat = d - b := by omega
    rw [hNat]
    exact hDrop
  unfold Raft.takeSnapshot
  rw [hInternal]
  simp only [Option.bind_eq_bind, Option.bind_some]
  rw [if_neg (by omega), if_neg (by omega),
    hCut.localIndex]
  simp only [Option.bind_some]
  rw [hFrom]
  rfl

/-
  A snapshot of the same log is refused or kept in front of
  the entries after it: the terms at its end agree.
-/
theorem installSnapshot
    (hCut : rf.CutAt full b)
    (hSender : sender.CutAt full b')
    {first : LogEntry C}
    (hFirst : sender.logAt 0 = some first)
    {reply : InstallSnapshotReply}
    (hStep :
      rf.installSnapshot (sender.snapshotArgs first) =
        some (rf', reply)) :
    ∃ d, rf'.CutAt full d := by
  have hHead :
      first.index = (b' : Int) ∧
        termAt full b' = some first.term := by
    rcases hSender.head with ⟨head, hLog, hIndex, hTerm, _⟩
    rw [Raft.logAt, hLog] at hFirst
    cases hFirst
    exact ⟨hIndex, hTerm⟩
  rcases hHead with ⟨hIndex, hTerm⟩
  have hAfter :
      rf.snapshotIndex < sender.snapshotIndex → b < b' := by
    intro hNewer
    by_contra hBefore
    have hMono := commandCount_mono full
      (show b' ≤ b by omega)
    rw [hCut.snapshotIndex, hSender.snapshotIndex] at hNewer
    omega
  have hOwn :
      b < b' → rf.log[b' - b]? = full[b']? := by
    intro hLt
    have hAt := hCut.getElem?_eq (b' - b - 1)
    have hSucc : b' - b - 1 + 1 = b' - b := by omega
    have hSum : b + 1 + (b' - b - 1) = b' := by omega
    rw [hSucc, hSum] at hAt
    exact hAt
  have hPoint :
      rf.localIndex
          (sender.snapshotArgs first).lastIncludedInternal =
        some ((b' : Int) - b) := by
    rw [hCut.localIndex]
    exact congrArg (fun i : Int => some (i - b)) hIndex
  rcases installSnapshot_case hStep with _ | ⟨_, hNewer, l,
    hLocal, own, _, _⟩ | ⟨_, hNewer, l, hLocal, hDiffer⟩
  · exact ⟨b, hCut⟩
  · have hLt := hAfter hNewer
    rw [hPoint] at hLocal
    have hSub : l = b' - b := by
      have := Option.some.inj hLocal
      omega
    have hDrop : rf.log.drop (l + 1) = full.drop (b' + 1) := by
      have hSucc : l + 1 = b' + 1 - b := by omega
      rw [hSucc]
      exact hCut.drop_eq (by omega)
    rw [hDrop]
    exact ⟨b', of_installed hSender.command hIndex hTerm
      hSender.snapshotIndex⟩
  · -- the entry at the end of the snapshot is there
    exfalso
    have hLt := hAfter hNewer
    rw [hPoint] at hLocal
    have hSub : l = (b' : Int) - b :=
      (Option.some.inj hLocal).symm
    have hNat : l.toNat = b' - b := by omega
    rcases termAt_eq_some_iff.mp hTerm with
      ⟨own, hEntry, hOwnTerm⟩
    refine hDiffer (by omega) own ?_ hOwnTerm
    rw [hNat, hOwn hLt]
    exact hEntry

end Raft.CutAt

/- Every compaction of a full log is the log cut somewhere. -/
theorem Compacted.exists_cutAt
    {full : List (LogEntry C)}
    (hFull : FullLog full)
    {rf : Raft C n}
    (hCompacted : Compacted full rf) :
    ∃ b, rf.CutAt full b := by
  induction hCompacted with
  | start hLog hIndex =>
      exact ⟨0, Raft.CutAt.of_full hFull hLog hIndex⟩
  | other _ hLog hIndex ih =>
      rcases ih with ⟨b, hCut⟩
      exact ⟨b, hCut.of_log_eq hLog hIndex⟩
  | @snapshot rf rf' _ index snapshot hApplied hStep ih =>
      rcases ih with ⟨b, hCut⟩
      by_cases hNewer : rf.snapshotIndex < index
      · rcases hCut.takeSnapshot snapshot hNewer hApplied
          with ⟨d, cut, hAfter, hEntry, hType, hNumber, hEq⟩
        rw [hStep] at hEq
        cases hEq
        exact ⟨d, hCut.of_cut hFull hAfter hEntry hType
          hNumber⟩
      · -- an older snapshot is refused
        rcases Raft.takeSnapshot_cases hStep with rfl |
          ⟨_, _, _, _, _, hAbove, _⟩
        · exact ⟨b, hCut⟩
        · exact absurd hAbove hNewer
  | install _ _ hFirst hStep ih ihSender =>
      rcases ih with ⟨b, hCut⟩
      rcases ihSender with ⟨b', hSender⟩
      exact hCut.installSnapshot hSender hFirst hStep

------------------------------------------------------------
-- Numbering
------------------------------------------------------------

/-
  The translations between the two numberings on a log that
  retains the entries of `full` from `b` on, and where a
  snapshot at an applied command cuts.
-/
structure Raft.KeepsNumbering
    (rf : Raft C n)
    (full : List (LogEntry C))
    (b : Nat) : Prop where
  base : rf.baseIndex = some (b : Int)
  last : rf.globalLogLen = some (full.length : Int)
  covered :
    (b = 0 ∧ rf.snapshotIndex = 0) ∨
      CommandAt full rf.snapshotIndex b
  externalIndex :
    ∀ i, b ≤ i → i < full.length →
      rf.externalIndex (i : Int) =
        some (commandCount full i : Int)
  internalIndex_base :
    rf.internalIndex rf.snapshotIndex = some (b : Int)
  internalIndex :
    ∀ e, rf.snapshotIndex < e →
      e ≤ (commandCount full (full.length - 1) : Int) →
        ∃ d, CommandAt full e d ∧
          rf.internalIndex e = some (d : Int)
  inverse :
    ∀ e, rf.snapshotIndex ≤ e →
      e ≤ (commandCount full (full.length - 1) : Int) →
        (rf.internalIndex e).bind rf.externalIndex = some e
  cuts :
    ∀ e snapshot, rf.snapshotIndex < e →
      e ≤ (commandCount full rf.lastApplied.toNat : Int) →
        ∃ rf' d cut, CommandAt full e d ∧
          full[d]? = some cut ∧
          rf.takeSnapshot e snapshot = some rf' ∧
          rf'.log =
            { cut with type := .noop } ::
              full.drop (d + 1) ∧
          rf'.snapshotIndex = e

namespace Raft.CutAt

variable {rf : Raft C n}
variable {full : List (LogEntry C)}
variable {b : Nat}

/- The search for the snapshot index stops at once. -/
theorem internalIndex_base
    (hCut : rf.CutAt full b) :
    rf.internalIndex rf.snapshotIndex = some (b : Int) := by
  rcases hCut.head with ⟨first, hLog, _, _, hNoop⟩
  unfold Raft.internalIndex
  rw [hCut.globalIndex, hLog, Int.sub_self,
    Raft.internalIndexLoop]
  simp [hNoop]

theorem covered
    (hCut : rf.CutAt full b) :
    (b = 0 ∧ rf.snapshotIndex = 0) ∨
      CommandAt full rf.snapshotIndex b := by
  have hNumber := hCut.snapshotIndex
  rcases Nat.eq_zero_or_pos b with rfl | hPos
  · left
    have hLe := commandCount_le full 0
    exact ⟨rfl, by omega⟩
  · rcases hCut.command with hZero | hCommand
    · omega
    · exact Or.inr ⟨hPos, hCommand, hNumber.symm⟩

theorem internalIndex_commandAt
    (hCut : rf.CutAt full b)
    {e : Int}
    (hNewer : rf.snapshotIndex < e)
    {x : Nat}
    (hReached : e ≤ (commandCount full x : Int)) :
    ∃ d, b < d ∧ CommandAt full e d ∧
      rf.internalIndex e = some (d : Int) := by
  rcases hCut.internalIndex hCut.snapshotIndex hNewer
    hReached with ⟨d, hAfter, _, hInternal, hNumber, hCommand⟩
  exact ⟨d, hAfter, ⟨by omega, hCommand, hNumber.symm⟩,
    hInternal⟩

theorem keepsNumbering
    (hCut : rf.CutAt full b) :
    rf.KeepsNumbering full b where
  base := hCut.baseIndex
  last := hCut.globalLogLen
  covered := hCut.covered
  externalIndex := fun i hLe hLt => hCut.externalIndex hLe hLt
  internalIndex_base := hCut.internalIndex_base
  internalIndex := by
    intro e hNewer hReached
    rcases hCut.internalIndex_commandAt hNewer hReached with
      ⟨d, _, hCommand, hInternal⟩
    exact ⟨d, hCommand, hInternal⟩
  inverse := by
    intro e hLe hReached
    rcases Int.lt_or_eq_of_le hLe with hNewer | rfl
    · rcases hCut.internalIndex_commandAt hNewer hReached
        with ⟨d, hAfter, hCommand, hInternal⟩
      rcases hCommand with ⟨_, ⟨cut, hEntry, _⟩, hNumber⟩
      have hLt := (List.getElem?_eq_some_iff.mp hEntry).1
      rw [hInternal, Option.bind_some,
        hCut.externalIndex (by omega) hLt, hNumber]
    · rw [hCut.internalIndex_base, Option.bind_some,
        hCut.externalIndex (le_refl b) hCut.lt_length,
        hCut.snapshotIndex]
  cuts := by
    intro e snapshot hNewer hApplied
    rcases hCut.takeSnapshot snapshot hNewer hApplied with
      ⟨d, cut, hAfter, hEntry, hType, hNumber, hStep⟩
    exact ⟨_, d, cut,
      ⟨by omega, ⟨cut, hEntry, hType⟩, hNumber.symm⟩,
      hEntry, hStep, rfl, rfl⟩

end Raft.CutAt

/-
  However a full log was compacted, the commands keep their
  numbers.
-/
theorem compacted_keepsNumbering
    {full : List (LogEntry C)}
    (hFull : FullLog full)
    {rf : Raft C n}
    (hCompacted : Compacted full rf) :
    ∃ b, rf.KeepsNumbering full b := by
  rcases hCompacted.exists_cutAt hFull with ⟨b, hCut⟩
  exact ⟨b, hCut.keepsNumbering⟩

/- Two commands with a no-op before each of them. -/
def mixedLog : List (LogEntry Nat) :=
  [{ term := 1, type := .noop, index := 0, command := none },
    { term := 1, type := .noop, index := 1, command := none },
    { term := 1, type := .normal, index := 2,
      command := some 7 },
    { term := 2, type := .noop, index := 3, command := none },
    { term := 2, type := .normal, index := 4,
      command := some 8 }]

theorem mixedLog_full : FullLog mixedLog where
  first := ⟨_, rfl, rfl⟩
  indexed := by
    have hAll :
        ∀ i : Fin 5, (mixedLog[i.val]?).map
          (fun e => e.index) = some (i.val : Int) := by
      decide
    intro i entry hEntry
    have hLt := (List.getElem?_eq_some_iff.mp hEntry).1
    have hIndex := hAll ⟨i, hLt⟩
    rw [hEntry, Option.map_some] at hIndex
    exact Option.some.inj hIndex

/- A server that has applied all of it. -/
def mixedServer (me : Fin 3) : Raft Nat 3 :=
  { Raft.fresh me Persister.makePersister with
    log := mixedLog
    lastApplied := 4 }

/- One server cuts at command 1, another installs that. -/
theorem compacted_keepsNumbering_installed :
    ∃ sender first rf reply b,
      (mixedServer 0).takeSnapshot 1 [] = some sender ∧
      sender.logAt 0 = some first ∧
      (mixedServer 1).installSnapshot
        (sender.snapshotArgs first) = some (rf, reply) ∧
      rf.snapshotIndex = 1 ∧
      rf.KeepsNumbering mixedLog b := by
  have hStart : ∀ me, Compacted mixedLog (mixedServer me) :=
    fun _ => .start rfl rfl
  have hCut : ∃ sender first,
      (mixedServer 0).takeSnapshot 1 [] = some sender ∧
      sender.logAt 0 = some first ∧
      ∃ rf reply, (mixedServer 1).installSnapshot
        (sender.snapshotArgs first) = some (rf, reply) ∧
      rf.snapshotIndex = 1 :=
    ⟨_, _, rfl, rfl, _, _, rfl, rfl⟩
  rcases hCut with
    ⟨sender, first, hTake, hFirst, rf, reply, hStep, hIndex⟩
  have hSender : Compacted mixedLog sender :=
    .snapshot (hStart 0) (by decide) hTake
  have hInstalled : Compacted mixedLog rf :=
    .install (hStart 1) hSender hFirst hStep
  rcases compacted_keepsNumbering mixedLog_full hInstalled
    with ⟨b, hNumbering⟩
  exact ⟨sender, first, rf, reply, b, hTake, hFirst, hStep,
    hIndex, hNumbering⟩

end RaftLab
