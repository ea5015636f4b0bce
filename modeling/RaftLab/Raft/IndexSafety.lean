import RaftLab.Raft.LeaderMessages

/-
  No server crashes.

  The positions that the handlers and the goroutines of a
  server compute are global indices, and the base of its log
  moves with every snapshot. As long as the log starts at or
  below `lastApplied`, the guards of the code keep all of
  them in range, whatever request or reply they come from.

  Main declarations:
    * `IndexedFrom`, `Raft.WellIndexed`
    * `Raft.handleFailedReply_isSome` and its kin
    * `Node.enabled`, `Node.step_isSome`
    * `Cluster.IndexSafe`, `Cluster.no_crash`
-/

------------------------------------------------------------
-- Logs With Consecutive Indices
------------------------------------------------------------

namespace RaftLab

variable {C : Type} {n : Nat}

/- A computation that never panics, followed by another. -/
theorem exists_bind_eq_some
    {α β : Type}
    {x : Option α}
    {f : α → Option β}
    (hFirst : ∃ a, x = some a)
    (hThen : ∀ a, ∃ b, f a = some b) :
    ∃ b, x.bind f = some b := by
  rcases hFirst with ⟨a, ha⟩
  rw [ha]
  exact hThen a

/- The entries carry the indices from `start` on. -/
def IndexedFrom
    (start : Int)
    (log : List (LogEntry C)) : Prop :=
  ∀ (k : Nat) (entry : LogEntry C),
    log[k]? = some entry → entry.index = start + k

namespace IndexedFrom

variable {start : Int} {log : List (LogEntry C)}

theorem singleton
    {entry : LogEntry C}
    (hIndex : entry.index = start) :
    IndexedFrom start [entry] := by
  intro k e hAt
  cases k with
  | zero =>
      cases hAt
      simpa using hIndex
  | succ k => cases hAt

theorem append
    {entries : List (LogEntry C)}
    (hLog : IndexedFrom start log)
    (hEntries : IndexedFrom (start + log.length) entries) :
    IndexedFrom start (log ++ entries) := by
  intro k e hAt
  by_cases hLt : k < log.length
  · rw [List.getElem?_append_left hLt] at hAt
    exact hLog k e hAt
  · rw [List.getElem?_append_right (by omega)] at hAt
    have hIndex := hEntries _ e hAt
    omega

theorem take
    (hLog : IndexedFrom start log)
    (m : Nat) :
    IndexedFrom start (log.take m) := by
  intro k e hAt
  rw [List.getElem?_take] at hAt
  split at hAt
  · exact hLog k e hAt
  · cases hAt

theorem drop
    (hLog : IndexedFrom start log)
    (m : Nat) :
    IndexedFrom (start + m) (log.drop m) := by
  intro k e hAt
  rw [List.getElem?_drop] at hAt
  have hIndex := hLog _ e hAt
  push_cast at hIndex
  omega

/- The first entry may be replaced by one of its index. -/
theorem replace_first
    {first first' : LogEntry C}
    {rest : List (LogEntry C)}
    (hLog : IndexedFrom start (first :: rest))
    (hIndex : first'.index = start) :
    IndexedFrom start (first' :: rest) := by
  intro k e hAt
  cases k with
  | zero =>
      cases hAt
      simpa using hIndex
  | succ k => exact hLog (k + 1) e hAt

end IndexedFrom

/-
  The log starts with a no-op, its entries are consecutive,
  and what was cut from it had been applied.
-/
structure Raft.IndexedBy
    (rf : Raft C n)
    (first : LogEntry C)
    (rest : List (LogEntry C)) : Prop where
  log : rf.log = first :: rest
  noop : first.type = .noop
  indexed : IndexedFrom first.index rf.log
  applied_ge : first.index ≤ rf.lastApplied
  applied_le :
    rf.lastApplied ≤ max 1 (first.index + rest.length)

def Raft.WellIndexed (rf : Raft C n) : Prop :=
  ∃ first rest, rf.IndexedBy first rest

------------------------------------------------------------
-- Handlers In Range
------------------------------------------------------------

namespace Raft

variable {rf : Raft C n}
variable {first : LogEntry C} {rest : List (LogEntry C)}

theorem lastLogTerm_isSome
    (hLog : rf.log = first :: rest) :
    ∃ term, rf.lastLogTerm = some term := by
  rw [lastLogTerm_eq_getLast?, hLog,
    List.getLast?_eq_some_getLast (List.cons_ne_nil _ _)]
  exact ⟨_, rfl⟩

theorem logAt_isSome
    {i : Int}
    (hLow : 0 ≤ i)
    (hHigh : i < rf.log.length) :
    ∃ entry, rf.logAt i = some entry := by
  unfold logAt GoSlice.at?
  rw [if_pos hLow, List.getElem?_eq_getElem (by omega)]
  exact ⟨_, rfl⟩

theorem hasTermAt_isSome
    {i term : Int}
    (hLow : 0 ≤ i)
    (hHigh : i < rf.log.length) :
    ∃ b, rf.hasTermAt i term = some b := by
  rcases logAt_isSome hLow hHigh with ⟨entry, hEntry⟩
  exact ⟨_, hasTermAt_eq_some_iff.mpr ⟨entry, hEntry, rfl⟩⟩

theorem externalIndex_isSome
    (hLog : rf.log = first :: rest)
    {i : Int}
    (hHigh : i - first.index < rf.log.length) :
    ∃ index, rf.externalIndex i = some index := by
  unfold externalIndex
  rw [localIndex_of_log hLog]
  simp only [Option.bind_eq_bind, Option.bind_some,
    if_pos hHigh]
  exact ⟨_, rfl⟩

theorem requestVote_isSome
    (hLog : rf.log = first :: rest)
    (args : RequestVoteArgs) :
    ∃ r, rf.requestVote args = some r := by
  rcases lastLogTerm_isSome hLog with ⟨term, hTerm⟩
  unfold requestVote
  rw [globalLogLen_of_log hLog, hTerm]
  simp only [Option.bind_eq_bind, Option.bind_some]
  split
  · exact ⟨_, rfl⟩
  · split
    · exact ⟨_, rfl⟩
    · split
      · exact ⟨_, rfl⟩
      · next hNotOther =>
          rw [if_pos ?_]
          · exact ⟨_, rfl⟩
          · by_cases hNone :
                (rf.adoptVoteTerm args).votedFor = none
            · exact Or.inl hNone
            · right
              by_contra hOther
              exact hNotOther ⟨hNone, hOther⟩

/- The loop stays within the log. -/
theorem internalIndexLoop_le
    (target : Int)
    (entries : List (LogEntry C))
    {i index : Nat}
    (hIndex : index ≤ i)
    (cnt : Int) :
    internalIndexLoop target entries i index cnt ≤
        i + entries.length - 1 ∨
      entries = [] ∧
        internalIndexLoop target entries i index cnt =
          index := by
  induction entries generalizing i index cnt with
  | nil => exact Or.inr ⟨rfl, rfl⟩
  | cons e es ih =>
      left
      rw [internalIndexLoop, List.length_cons]
      generalize
        (if e.type ≠ .noop then cnt + 1 else cnt) = cnt'
      by_cases hFound : cnt' = target
      · rw [if_pos hFound]
        omega
      · rw [if_neg hFound]
        rcases ih (i := i + 1) (Nat.le_succ i) cnt' with
          hLe | ⟨_, hEq⟩
        · omega
        · omega

theorem takeSnapshot_isSome
    (hLog : rf.log = first :: rest)
    (index : Int)
    (snapshot : Bytes) :
    ∃ rf', rf.takeSnapshot index snapshot = some rf' := by
  unfold takeSnapshot internalIndex
  rw [globalIndex_of_log hLog]
  simp only [Option.bind_eq_bind, Option.bind_some]
  split
  · exact ⟨_, rfl⟩
  · split
    · exact ⟨_, rfl⟩
    · rw [localIndex_of_log hLog, Int.add_sub_cancel]
      have hLt : internalIndexLoop
          (index - rf.snapshotIndex) rf.log 0 0 0 <
            rf.log.length := by
        rcases internalIndexLoop_le
          (index - rf.snapshotIndex) rf.log (le_refl 0) 0 with
          hLe | ⟨hNil, _⟩
        · rw [hLog, List.length_cons] at hLe ⊢
          omega
        · rw [hLog] at hNil
          cases hNil
      unfold GoSlice.from?
      rw [Option.bind_some, if_pos (by omega),
        Option.bind_some, Int.toNat_natCast,
        List.drop_eq_getElem_cons hLt]
      exact ⟨_, rfl⟩

theorem start_isSome
    (hLog : rf.log = first :: rest)
    (command : Option C) :
    ∃ r, rf.start command = some r := by
  unfold start
  split
  · exact ⟨_, rfl⟩
  · rw [globalLogLen_of_log hLog]
    simp only [Option.bind_eq_bind, Option.bind_some]
    rw [globalLogLen_append (globalLogLen_of_log hLog) rfl,
      Option.bind_some]
    have hExternal : ∀ rf' : Raft C n,
        (∃ entry, rf'.log = rf.log ++ [entry]) →
        ∃ index, rf'.externalIndex
          (rf.log.length + first.index + 1 - 1) =
            some index := by
      rintro rf' ⟨entry, hLog'⟩
      have hCons : rf'.log = first :: (rest ++ [entry]) := by
        rw [hLog', hLog, List.cons_append]
      apply externalIndex_isSome hCons
      rw [hLog', List.length_append, List.length_singleton]
      omega
    apply exists_bind_eq_some
    · apply hExternal
      exact ⟨_, rfl⟩
    · intro index
      exact ⟨_, rfl⟩

theorem electionStart_isSome
    (hLog : rf.log = first :: rest) :
    ∃ r, rf.electionStart = some r := by
  rcases lastLogTerm_isSome hLog with ⟨term, hTerm⟩
  unfold electionStart
  apply exists_bind_eq_some ⟨_, globalLogLen_of_log hLog⟩
  intro len
  apply exists_bind_eq_some ⟨term, hTerm⟩
  intro lastTerm
  exact ⟨_, rfl⟩

theorem electionWin_isSome
    (hLog : rf.log = first :: rest)
    (ballot : Int) :
    ∃ r, rf.electionWin ballot = some r := by
  have hLen := globalLogLen_of_log hLog
  unfold electionWin
  split
  · apply exists_bind_eq_some
    · unfold becomeLeader
      apply exists_bind_eq_some ⟨_, hLen⟩
      intro len
      apply exists_bind_eq_some
      · exact ⟨_, globalLogLen_append hLen rfl⟩
      · intro len'
        exact ⟨_, rfl⟩
    · intro rf'
      exact ⟨_, rfl⟩
  · exact ⟨_, rfl⟩

theorem applyIteration_isSome
    (hLog : rf.log = first :: rest) :
    ∃ r, rf.applyIteration = some r := by
  unfold applyIteration
  dsimp only
  rw [globalLogLen_of_log hLog, localIndex_of_log hLog]
  simp only [Option.bind_eq_bind, Option.bind_some]
  split
  · next hGuard =>
      have hHigh : rf.lastApplied + 1 - first.index <
          rf.log.length := by
        omega
      apply exists_bind_eq_some
        (logAt_isSome (by omega) hHigh)
      intro entry
      cases entry.type with
      | normal =>
          apply exists_bind_eq_some
            (externalIndex_isSome hLog hHigh)
          intro external
          exact ⟨_, rfl⟩
      | noop => exact ⟨_, rfl⟩
  · exact ⟨_, rfl⟩

theorem applyEntries_isSome
    (hLog : rf.log = first :: rest) :
    ∃ rf', rf.applyEntries = some rf' := by
  unfold applyEntries
  generalize (rf.commitIndex - rf.lastApplied).toNat = fuel
  induction fuel generalizing rf with
  | zero => exact ⟨rf, rfl⟩
  | succ fuel ih =>
      rcases applyIteration_isSome hLog with
        ⟨next, hNext⟩
      rw [applyLoop, hNext]
      cases next with
      | none => exact ⟨rf, rfl⟩
      | some rf' =>
          -- An iteration leaves the log as it is.
          apply ih
          rcases applyIteration_cases hNext with
            ⟨l, entry, _, _, _, _,
              ⟨_, external, _, rfl⟩ | ⟨_, rfl⟩⟩
          · exact hLog
          · exact hLog

theorem syncArgs_isSome
    (hLog : rf.log = first :: rest)
    (server : Fin n) :
    ∃ r, rf.syncArgs server = some r := by
  have hPos : 0 < rf.log.length := by
    rw [hLog]
    exact Nat.succ_pos _
  unfold syncArgs
  rw [globalIndex_of_log hLog, globalLogLen_of_log hLog]
  simp only [Option.bind_eq_bind, Option.bind_some]
  -- The clamped index is after the base and within the log.
  generalize hNext :
    (if rf.nextIndex server < 1 + first.index then
        1 + first.index
      else if rf.nextIndex server >
          rf.log.length + first.index then
        rf.log.length + first.index
      else rf.nextIndex server) = next
  have hLow : 1 + first.index ≤ next := by
    rw [← hNext]
    split
    · omega
    · split
      · omega
      · omega
  have hHigh : next ≤ rf.log.length + first.index := by
    rw [← hNext]
    split
    · omega
    · split
      · omega
      · omega
  rw [localIndex_of_log hLog, localIndex_of_log hLog]
  simp only [Option.bind_some]
  apply exists_bind_eq_some
    (logAt_isSome (by omega) (by omega))
  intro prevLog
  apply exists_bind_eq_some
  · unfold GoSlice.from?
    rw [if_pos (by omega)]
    exact ⟨_, rfl⟩
  · intro entries
    exact ⟨_, rfl⟩

theorem syncEntries_isSome
    (hLog : rf.log = first :: rest)
    (servers : List (Fin n)) :
    ∃ requests, rf.syncEntries servers = some requests := by
  induction servers with
  | nil => exact ⟨[], rfl⟩
  | cons server servers ih =>
      rw [syncEntries]
      split
      · exact ih
      · apply exists_bind_eq_some
          (syncArgs_isSome hLog server)
        intro request
        apply exists_bind_eq_some ih
        intro requests
        exact ⟨_, rfl⟩

/- Cases 1 and 2 test an index of the log. -/
theorem replyMatchesLog_isSome
    (hLog : rf.log = first :: rest)
    (args : AppendEntriesArgs C)
    (reply : AppendEntriesReply) :
    ∃ hit, rf.replyMatchesLog args reply = some hit := by
  unfold replyMatchesLog
  rw [localIndex_of_log hLog, globalLogLen_of_log hLog]
  simp only [Option.bind_eq_bind, Option.bind_some]
  split
  · split
    · exact ⟨_, rfl⟩
    · split
      · exact hasTermAt_isSome (by omega) (by omega)
      · exact ⟨_, rfl⟩
  · exact ⟨_, rfl⟩

/- So do cases 3 and 4. -/
theorem replyNeedsFix_isSome
    (hLog : rf.log = first :: rest)
    (args : AppendEntriesArgs C)
    (reply : AppendEntriesReply) :
    ∃ hit, rf.replyNeedsFix args reply = some hit := by
  unfold replyNeedsFix
  rw [localIndex_of_log hLog, localIndex_of_log hLog,
    globalLogLen_of_log hLog]
  simp only [Option.bind_eq_bind, Option.bind_some]
  split
  · split
    · exact ⟨_, rfl⟩
    · apply exists_bind_eq_some
        (hasTermAt_isSome (by omega) (by omega))
      intro hit
      exact ⟨_, rfl⟩
  · exact ⟨_, rfl⟩

/-
  A reply that falls under none of the cases 1 to 4 names an
  index below the base of the log.
-/
theorem below_base_of_unmatched
    (hLog : rf.log = first :: rest)
    {args : AppendEntriesArgs C}
    {reply : AppendEntriesReply}
    (hMatches :
      rf.replyMatchesLog args reply = some false)
    (hFix : rf.replyNeedsFix args reply = some false) :
    reply.prevLogIndex - first.index + 1 < 0 ∨
      reply.lastApplied + 1 - first.index < 0 ∨
      reply.prevLogIndex - first.index < 0 := by
  by_contra hNot
  push Not at hNot
  rcases hNot with ⟨_, hApplied, hPrev⟩
  unfold replyMatchesLog at hMatches
  unfold replyNeedsFix at hFix
  rw [localIndex_of_log hLog, globalLogLen_of_log hLog]
    at hMatches hFix
  rw [localIndex_of_log hLog] at hFix
  simp only [Option.bind_eq_bind, Option.bind_some]
    at hMatches hFix
  rw [if_pos ⟨hApplied, hPrev⟩] at hFix
  rw [if_pos (by omega)] at hMatches
  split at hFix
  · cases hFix
  · next hBelow =>
      push Not at hBelow
      rcases Option.bind_eq_some_iff.mp hFix with
        ⟨hit, hHit, hFalse⟩
      split at hMatches
      · cases hMatches
      · rw [if_pos (by omega), hHit] at hMatches
        cases hMatches
        cases hFalse

theorem handleFailedReply_isSome
    (hLog : rf.log = first :: rest)
    (server : Fin n)
    (args : AppendEntriesArgs C)
    (reply : AppendEntriesReply) :
    ∃ r, rf.handleFailedReply server args reply =
      some r := by
  rcases replyMatchesLog_isSome hLog args reply with
    ⟨hit, hMatches⟩
  rcases replyNeedsFix_isSome hLog args reply with
    ⟨hit', hFix⟩
  unfold handleFailedReply
  rw [hMatches, hFix]
  simp only [Option.bind_eq_bind, Option.bind_some]
  split
  · exact ⟨_, rfl⟩
  · cases hit with
    | true => exact ⟨_, rfl⟩
    | false =>
        cases hit' with
        | true => exact ⟨_, rfl⟩
        | false =>
            have hCase5 :=
              below_base_of_unmatched hLog hMatches hFix
            rw [localIndex_of_log hLog,
              localIndex_of_log hLog,
              logAt_zero_eq_some_iff.mpr ⟨rest, hLog⟩]
            simp only [Option.bind_some, if_pos hCase5]
            exact ⟨_, rfl⟩

theorem commitCheck_isSome
    (hLog : rf.log = first :: rest) :
    ∃ rf', rf.commitCheck = some rf' := by
  have hAllowed : ∀ N changed,
      ∃ b, rf.commitAllowed
        (rf.log.length + first.index) N changed = some b ∧
        (b = true → N - first.index < rf.log.length) := by
    intro N changed
    unfold commitAllowed
    rw [localIndex_of_log hLog]
    simp only [Option.bind_eq_bind, Option.bind_some]
    split
    · exact ⟨false, rfl, fun h => by cases h⟩
    · split
      · exact ⟨true, rfl, fun _ => by omega⟩
      · split
        · have hTerm : ∃ b, rf.hasTermAt (N - first.index)
              rf.currentTerm = some b :=
            hasTermAt_isSome (by omega) (by omega)
          rcases hTerm with ⟨b, hb⟩
          exact ⟨b, hb, fun _ => by omega⟩
        · exact ⟨false, rfl, fun h => by cases h⟩
  unfold commitCheck commitTarget
  rw [globalLogLen_of_log hLog]
  simp only [Option.bind_eq_bind, Option.bind_some]
  generalize rf.commitSearch _ _ _ _ _ = found
  rcases hAllowed found.1 found.2 with
    ⟨b, hb, hInRange⟩
  rw [hb]
  cases b with
  | false => exact ⟨_, rfl⟩
  | true =>
      simp only [Option.bind_some, if_true, pure]
      split
      · apply exists_bind_eq_some
          (externalIndex_isSome hLog (hInRange rfl))
        intro index
        exact ⟨_, rfl⟩
      · exact ⟨_, rfl⟩

------------------------------------------------------------
-- Steps Keep Logs Indexed
------------------------------------------------------------

theorem WellIndexed.of_same
    {rf' : Raft C n}
    (hIndexed : rf.WellIndexed)
    (hLog : rf'.log = rf.log)
    (hApplied : rf'.lastApplied = rf.lastApplied) :
    rf'.WellIndexed := by
  rcases hIndexed with ⟨first, rest, h⟩
  refine ⟨first, rest, hLog.trans h.log, h.noop, ?_, ?_, ?_⟩
  · rw [hLog]
    exact h.indexed
  · rw [hApplied]
    exact h.applied_ge
  · rw [hApplied]
    exact h.applied_le

/- Entries that follow the log may be appended. -/
theorem IndexedBy.append
    {rf' : Raft C n}
    (hIndexed : rf.IndexedBy first rest)
    {entries : List (LogEntry C)}
    (hEntries :
      IndexedFrom (first.index + rf.log.length) entries)
    (hLog : rf'.log = rf.log ++ entries)
    (hApplied : rf'.lastApplied = rf.lastApplied) :
    rf'.IndexedBy first (rest ++ entries) where
  log := by rw [hLog, hIndexed.log, List.cons_append]
  noop := hIndexed.noop
  indexed := by
    rw [hLog]
    exact hIndexed.indexed.append hEntries
  applied_ge := by
    rw [hApplied]
    exact hIndexed.applied_ge
  applied_le := by
    have hLe := hIndexed.applied_le
    rw [hApplied, List.length_append]
    push_cast
    omega

/- A leader gives a new entry the next index. -/
theorem WellIndexed.snoc
    {rf' : Raft C n}
    (hIndexed : rf.WellIndexed)
    {len : Int}
    (hLen : rf.globalLogLen = some len)
    {entry : LogEntry C}
    (hEntry : entry.index = len)
    (hLog : rf'.log = rf.log ++ [entry])
    (hApplied : rf'.lastApplied = rf.lastApplied) :
    rf'.WellIndexed := by
  rcases hIndexed with ⟨first, rest, h⟩
  rw [globalLogLen_of_log h.log, Option.some.injEq] at hLen
  refine ⟨first, _, h.append ?_ hLog hApplied⟩
  apply IndexedFrom.singleton
  omega

theorem WellIndexed.of_requestVote
    {rf' : Raft C n}
    {args : RequestVoteArgs}
    {reply : RequestVoteReply}
    (hIndexed : rf.WellIndexed)
    (hCase : rf.RequestVoteCase args rf' reply) :
    rf'.WellIndexed := by
  cases hCase with
  | stale => exact hIndexed
  | refused =>
      apply hIndexed.of_same <;>
      · unfold adoptVoteTerm
        split <;> rfl
  | granted =>
      apply hIndexed.of_same <;>
      · unfold giveVote adoptVoteTerm
        split <;> rfl

theorem WellIndexed.of_appendEntries
    {rf' : Raft C n}
    {args : AppendEntriesArgs C}
    {reply : AppendEntriesReply}
    (hIndexed : rf.WellIndexed)
    (hEntries :
      IndexedFrom (args.prevLogIndex + 1) args.entries)
    (hCase : rf.AppendEntriesCase args rf' reply) :
    rf'.WellIndexed := by
  cases hCase with
  | stale => exact hIndexed
  | good hTerm len hLen hIndex hLast reply hSuccess =>
      rcases hIndexed with ⟨first, rest, h⟩
      rw [globalLogLen_of_log h.log,
        Option.some.injEq] at hLen
      have hNext : args.prevLogIndex + 1 =
          first.index + rf.log.length := by
        omega
      rw [hNext] at hEntries
      exact ⟨first, _, h.append hEntries rfl rfl⟩
  | covered => exact hIndexed.of_same rfl rfl
  | fixed hTerm len hLen hIndex hApplied i hPrefix hDiffer
      bound hBound hRange reply hSuccess =>
      rcases hIndexed with ⟨first, rest, h⟩
      have hGe := h.applied_ge
      rw [localIndex_of_log h.log, Option.some.injEq] at hBound
      -- Everything up to `lastApplied` is kept.
      rcases Nat.exists_eq_add_of_lt
        (show 0 < bound.toNat by omega) with ⟨m, hm⟩
      rw [Nat.zero_add] at hm
      have hLength : m + 1 ≤ rf.log.length := by omega
      have hTake : rf.log.take bound.toNat =
          first :: rest.take m := by
        rw [hm, h.log, List.take_succ_cons]
      have hKept : (rest.take m).length = m := by
        rw [h.log, List.length_cons] at hLength
        rw [List.length_take]
        omega
      refine ⟨first, rest.take m ++ args.entries, ?_, h.noop,
        ?_, hGe, ?_⟩
      · change rf.log.take bound.toNat ++ args.entries = _
        rw [hTake, List.cons_append]
      · change IndexedFrom first.index
          (rf.log.take bound.toNat ++ args.entries)
        apply (h.indexed.take _).append
        have hNext : args.prevLogIndex + 1 = first.index +
            (rf.log.take bound.toNat).length := by
          rw [hTake, List.length_cons, hKept]
          push_cast
          omega
        rw [← hNext]
        exact hEntries
      · change rf.lastApplied ≤ _
        rw [List.length_append, hKept]
        push_cast
        omega
  | rejected => exact hIndexed.of_same rfl rfl

theorem WellIndexed.of_installSnapshot
    {rf' : Raft C n}
    {args : InstallSnapshotArgs}
    {reply : InstallSnapshotReply}
    (hIndexed : rf.WellIndexed)
    (hCase : rf.InstallSnapshotCase args rf' reply) :
    rf'.WellIndexed := by
  cases hCase with
  | refused => exact hIndexed
  | kept hTerm hNewer l hLocal own hOwn hOwnTerm =>
      rcases hIndexed with ⟨first, rest, h⟩
      rw [localIndex_of_log h.log, Option.some.injEq] at hLocal
      refine ⟨snapshotEntry args, _, rfl, rfl, ?_, le_refl _,
        ?_⟩
      · have hLt := (List.getElem?_eq_some_iff.mp hOwn).1
        have hDrop := h.indexed.drop l
        rw [List.drop_eq_getElem_cons hLt] at hDrop
        have hBase : first.index + l =
            args.lastIncludedInternal := by
          omega
        rw [hBase] at hDrop
        exact hDrop.replace_first rfl
      · change args.lastIncludedInternal ≤
          max 1 (args.lastIncludedInternal + _)
        omega
  | reset =>
      refine ⟨snapshotEntry args, [], rfl, rfl,
        IndexedFrom.singleton rfl, le_refl _, ?_⟩
      change args.lastIncludedInternal ≤
        max 1 (args.lastIncludedInternal + 0)
      omega

theorem WellIndexed.of_takeSnapshot
    (hIndexed : rf.WellIndexed)
    {index prevIndex : Int}
    {snapshot : Bytes}
    {l : Nat}
    {first' : LogEntry C}
    {rest' : List (LogEntry C)}
    (hApplied : prevIndex ≤ rf.lastApplied)
    (hLocal : rf.localIndex prevIndex = some (l : Int))
    (hDrop : rf.log.drop l = first' :: rest') :
    (rf.compacted index snapshot first'
      rest').WellIndexed := by
  rcases hIndexed with ⟨first, rest, h⟩
  have hLe := h.applied_le
  rw [localIndex_of_log h.log, Option.some.injEq] at hLocal
  have hSuffix := h.indexed.drop l
  rw [hDrop] at hSuffix
  have hFirst : first'.index = first.index + l := by
    simpa using hSuffix 0 first' rfl
  have hLength : l + (rest'.length + 1) =
      rest.length + 1 := by
    have hCount := congrArg List.length hDrop
    rw [List.length_drop, h.log, List.length_cons,
      List.length_cons] at hCount
    omega
  refine ⟨{ first' with type := .noop }, rest', rfl, rfl, ?_,
    ?_, ?_⟩
  · rw [← hFirst] at hSuffix
    exact hSuffix.replace_first rfl
  · change first'.index ≤ rf.lastApplied
    omega
  · change rf.lastApplied ≤ max 1 (first'.index + rest'.length)
    omega

theorem WellIndexed.of_applyIteration
    {rf' : Raft C n}
    (hIndexed : rf.WellIndexed)
    (hIteration : rf.applyIteration = some (some rf')) :
    rf'.WellIndexed := by
  rcases hIndexed with ⟨first, rest, h⟩
  have hGe := h.applied_ge
  rcases applyIteration_cases hIteration with
    ⟨l, entry, hLocal, hPos, hEntry, _, hNext⟩
  rw [localIndex_of_log h.log, Option.some.injEq] at hLocal
  have hLt := (List.getElem?_eq_some_iff.mp hEntry).1
  rw [h.log, List.length_cons] at hLt
  refine ⟨first, rest, ?_⟩
  rcases hNext with ⟨_, external, _, rfl⟩ | ⟨_, rfl⟩
  · exact ⟨h.log, h.noop, h.indexed,
      by dsimp only; omega, by dsimp only; omega⟩
  · exact ⟨h.log, h.noop, h.indexed,
      by dsimp only; omega, by dsimp only; omega⟩

theorem WellIndexed.of_applyEntries
    {rf' : Raft C n}
    (hIndexed : rf.WellIndexed)
    (hApply : rf.applyEntries = some rf') :
    rf'.WellIndexed := by
  refine applyEntries_induct (P := WellIndexed) ?_ hIndexed
    hApply
  intro r r' hr hIteration
  exact hr.of_applyIteration hIteration

theorem WellIndexed.of_make
    {rf' : Raft C n}
    (hIndexed : rf.WellIndexed)
    (hRf : rf.Persisted)
    (hMake : make rf.me rf.persister = some rf') :
    rf'.WellIndexed := by
  rcases hIndexed with ⟨first, rest, h⟩
  have hDurable := durable_of_make hRf hMake
  simp only [durable, Prod.mk.injEq] at hDurable
  have hLog := hDurable.2.2.1
  have hApplied := lastApplied_of_make hRf hMake h.log
  refine ⟨first, rest, hLog.trans h.log, h.noop, ?_, by omega,
    by omega⟩
  rw [hLog]
  exact h.indexed

end Raft

------------------------------------------------------------
-- Steps In Range
------------------------------------------------------------

/- Whether the goroutine waits for nothing but the lock. -/
def Thread.runnable : Thread C n → Bool
| .requestVote _ _ _ => false
| .appendEntries _ _ _ _ => false
| .installSnapshot _ _ _ => false
| _ => true

namespace Node

/-
  Whether the event is one that can happen to the server: the
  goroutine exists and waits for it. The log plays no part.
-/
def enabled (nd : Node C n) : Event C n → Bool
| .tickerTimeout =>
    decide (nd.ticker = none) &&
      decide (nd.rf.state ≠ .leader)
| .tickerCancel => nd.ticker.isSome
| .run i =>
    nd.threads[i]?.any fun thread => thread.runnable
| .voteReply i _ =>
    nd.threads[i]?.any fun thread =>
      match thread with
      | .requestVote _ _ _ => true
      | _ => false
| .appendReply i _ =>
    nd.threads[i]?.any fun thread =>
      match thread with
      | .appendEntries _ _ _ _ => true
      | _ => false
| .snapshotReply i _ =>
    nd.threads[i]?.any fun thread =>
      match thread with
      | .installSnapshot _ _ _ => true
      | _ => false
| .dequeue =>
    decide (nd.inHand = none) && !nd.rf.applyQueue.isEmpty
| .applyCh => nd.inHand.isSome
| _ => true

variable {nd : Node C n}
variable {first : LogEntry C} {rest : List (LogEntry C)}

theorem runAppendReplied_isSome
    (hLog : nd.rf.log = first :: rest)
    (threads : List (Thread C n))
    (k : Nat)
    (server : Fin n)
    (args : AppendEntriesArgs C)
    (newNextIndex : Int)
    (reply : AppendEntriesReply) :
    (nd.runAppendReplied threads k server args newNextIndex
      reply).isSome = true := by
  unfold runAppendReplied
  split
  · rfl
  · rcases Raft.handleFailedReply_isSome hLog server args
      reply with ⟨result, hResult⟩
    rw [hResult]
    cases result with
    | cancel => rfl
    | nextIndex rf => rfl
    | snapshot snapshotArgs => rfl

theorem runThread_isSome
    (hLog : nd.rf.log = first :: rest)
    (threads : List (Thread C n))
    (thread : Thread C n) :
    (nd.runThread threads thread).isSome =
      thread.runnable := by
  cases thread with
  | election k =>
      rcases Raft.electionStart_isSome hLog with ⟨r, hr⟩
      change (nd.runElection threads k).isSome = true
      unfold runElection
      rw [hr]
      rfl
  | electionLoop k => rfl
  | electionBallot k ballot =>
      unfold runThread
      dsimp only
      split <;> rfl
  | electionChecked k ballot =>
      rcases Raft.electionWin_isSome hLog ballot with
        ⟨⟨rf, won⟩, hr⟩
      change (nd.runElectionChecked threads k
        ballot).isSome = true
      unfold runElectionChecked
      rw [hr]
      cases won with
      | true => rfl
      | false => rfl
  | electionWon => rfl
  | voteCancel k => rfl
  | voteGranted k server => rfl
  | serveAsLeader term k =>
      unfold runThread
      dsimp only
      split <;> rfl
  | commitCheck k =>
      unfold runThread
      dsimp only
      split <;> rfl
  | commitWait k =>
      rcases Raft.commitCheck_isSome hLog with ⟨rf, hr⟩
      unfold runThread
      dsimp only
      rw [hr]
      rfl
  | syncEntries k =>
      change (nd.runSyncEntries threads k).isSome = true
      unfold runSyncEntries
      split
      · rfl
      · rcases Raft.syncEntries_isSome hLog
          (List.finRange n) with ⟨requests, hr⟩
        rw [hr]
        rfl
  | appendReplied k server args newNextIndex reply =>
      exact runAppendReplied_isSome hLog threads k server
        args newNextIndex reply
  | installReplied k server args reply =>
      unfold runThread
      dsimp only
      split <;> rfl
  | requestVote k server args => rfl
  | appendEntries k server args newNextIndex => rfl
  | installSnapshot k server args => rfl

/- A goroutine that exists takes its step. -/
theorem isSome_bind_thread
    {β : Type}
    {f : Thread C n → Option β}
    {p : Thread C n → Bool}
    (hStep : ∀ thread, (f thread).isSome = p thread)
    (i : Nat) :
    (nd.threads[i]?.bind f).isSome =
      nd.threads[i]?.any p := by
  cases nd.threads[i]? with
  | none => rfl
  | some thread => exact hStep thread

theorem silent_isSome
    (nd' : Option (Node C n)) :
    (silent nd').isSome = nd'.isSome := by
  unfold silent
  rw [Option.isSome_map]

/-
  In a state whose log is well indexed a step fails only if
  the event cannot happen: nothing panics.
-/
theorem step_isSome
    (hIndexed : nd.rf.WellIndexed)
    (hRf : nd.rf.Persisted)
    (event : Event C n) :
    (nd.step event).isSome = nd.enabled event := by
  rcases hIndexed with ⟨first, rest, hIndexed⟩
  have hLog := hIndexed.log
  cases event with
  | requestVote args =>
      rcases Raft.requestVote_isSome hLog args with ⟨r, hr⟩
      unfold step handleRequestVote
      dsimp only
      rw [hr]
      rfl
  | appendEntries args =>
      have hGe := hIndexed.applied_ge
      rcases Raft.appendEntries_isSome
        (Raft.baseIndex_of_log hLog) (by omega) args with
        ⟨rf', reply, hr⟩
      unfold step
      dsimp only
      rw [hr]
      rfl
  | installSnapshot args =>
      rcases Raft.installSnapshot_isSome hRf.log_ne_nil
        args with ⟨rf', reply, hr⟩
      unfold step
      dsimp only
      rw [hr]
      rfl
  | start command =>
      rcases Raft.start_isSome hLog command with ⟨r, hr⟩
      unfold step
      dsimp only
      rw [hr]
      rfl
  | takeSnapshot index snapshot =>
      rcases Raft.takeSnapshot_isSome hLog index snapshot
        with ⟨r, hr⟩
      unfold step
      dsimp only
      rw [hr]
      rfl
  | tickerTimeout =>
      unfold step enabled
      dsimp only
      split
      · next h =>
          simp [h.1, h.2]
      · next h =>
          simpa [imp_iff_not_or] using h
  | tickerCancel =>
      unfold step enabled
      dsimp only
      rw [Option.isSome_map]
  | run i =>
      apply isSome_bind_thread
      intro thread
      exact runThread_isSome hLog _ thread
  | voteReply i reply =>
      apply isSome_bind_thread
      intro thread
      rw [silent_isSome]
      cases thread with
      | requestVote k server args =>
          unfold receiveVote
          dsimp only
          split
          · rfl
          · split
            · rfl
            · split <;> rfl
      | _ => rfl
  | appendReply i reply =>
      apply isSome_bind_thread
      intro thread
      rw [silent_isSome]
      cases thread with
      | appendEntries k server args newNextIndex =>
          unfold receiveAppend
          dsimp only
          split <;> rfl
      | _ => rfl
  | snapshotReply i reply =>
      apply isSome_bind_thread
      intro thread
      rw [silent_isSome]
      cases thread with
      | installSnapshot k server args =>
          unfold receiveSnapshot
          dsimp only
          split <;> rfl
      | _ => rfl
  | applyEntries =>
      rcases Raft.applyEntries_isSome hLog with ⟨r, hr⟩
      unfold step
      dsimp only
      rw [hr]
      rfl
  | dequeue =>
      unfold step enabled
      dsimp only
      cases hHand : nd.inHand with
      | none =>
          cases hQueue : nd.rf.applyQueue with
          | nil => rfl
          | cons msg queue => rfl
      | some msg => rfl
  | applyCh =>
      unfold step enabled
      dsimp only
      rw [Option.isSome_map]
  | restart =>
      rcases Raft.make_durable hRf with ⟨rf', hMake, _⟩
      unfold step make
      dsimp only
      rw [hMake]
      rfl

end Node

------------------------------------------------------------
-- Clusters
------------------------------------------------------------

/- Requests carry entries that follow their PrevLogIndex. -/
theorem Raft.IndexedBy.syncArgs
    {rf : Raft C n}
    {first : LogEntry C}
    {rest : List (LogEntry C)}
    (hIndexed : rf.IndexedBy first rest)
    {server : Fin n}
    {args : AppendEntriesArgs C}
    {newNextIndex : Int}
    (hArgs : rf.syncArgs server =
      some (args, newNextIndex)) :
    IndexedFrom (args.prevLogIndex + 1) args.entries := by
  rcases Raft.syncArgs_spec hArgs with
    ⟨first', rest', p, prevLog, hLog, _, _, rfl⟩
  rw [hIndexed.log, List.cons.injEq] at hLog
  rw [← hLog.1]
  have hDrop := hIndexed.indexed.drop (p + 1)
  push_cast at hDrop
  rw [← Int.add_assoc] at hDrop
  exact hDrop

theorem RaftStep.wellIndexed
    {nd : Node C n}
    {event : Event C n}
    {rf' : Raft C n}
    {effects : List (Effect C n)}
    (hStep : RaftStep nd event rf' effects)
    (hIndexed : nd.rf.WellIndexed)
    (hRf : nd.rf.Persisted)
    (hRequest : ∀ args, event = .appendEntries args →
      IndexedFrom (args.prevLogIndex + 1) args.entries) :
    rf'.WellIndexed := by
  cases hStep with
  | requestVote args hEvent rf' reply hCase =>
      exact hIndexed.of_requestVote hCase
  | appendEntries args hEvent rf' reply hCase =>
      exact hIndexed.of_appendEntries (hRequest args hEvent)
        hCase
  | installSnapshot args hEvent rf' reply hCase =>
      exact hIndexed.of_installSnapshot hCase
  | start command hEvent hLeader len hLen =>
      exact hIndexed.snoc hLen rfl rfl rfl
  | takeSnapshot index snapshot hEvent prevIndex l first rest
      hPrev hNewer hApplied hLocal hDrop =>
      exact hIndexed.of_takeSnapshot hApplied hLocal hDrop
  | win i k ballot hEvent hThread hCandiate hBallot len
      hLen =>
      exact hIndexed.snoc hLen rfl rfl rfl
  | election i k hEvent hThread rf' args hStart =>
      rw [(Raft.electionStart_spec hStart).1]
      exact hIndexed.of_same rfl rfl
  | applyEntries rf' hApply =>
      exact hIndexed.of_applyEntries hApply
  | restart hEvent rf' hMake =>
      exact hIndexed.of_make hRf hMake
  | _ => exact hIndexed.of_same rfl rfl

/- The AppendEntries requests of a step. -/
theorem RaftStep.appendEntries_indexed
    {nd : Node C n}
    {event : Event C n}
    {rf' : Raft C n}
    {effects : List (Effect C n)}
    (hStep : RaftStep nd event rf' effects)
    (hIndexed : nd.rf.WellIndexed)
    {j : Fin n}
    {args : AppendEntriesArgs C}
    (hMem : (.appendEntries j args : Effect C n) ∈
      effects) :
    IndexedFrom (args.prevLogIndex + 1) args.entries := by
  cases hStep with
  | requestVote args' hEvent rf' reply hCase =>
      unfold voteEffects at hMem
      split at hMem <;> simp at hMem
  | sync i k hEvent hThread hToken requests hSync =>
      rcases List.mem_map.mp hMem with
        ⟨⟨server, args', next⟩, hRequest, hEq⟩
      cases hEq
      rcases hIndexed with ⟨first, rest, h⟩
      exact h.syncArgs (Raft.mem_syncEntries hSync hRequest).2
  | _ => simp at hMem

namespace Cluster

structure IndexSafe (c : Cluster C n) : Prop where
  nodes : ∀ i, (c.nodes i).rf.WellIndexed
  requests : ∀ i j args,
    (i, .appendEntries j args) ∈ c.trace →
    IndexedFrom (args.prevLogIndex + 1) args.entries

variable [DecidableEq C]

theorem indexSafe_of_reachable
    {ok : Cluster C n → Fin n × Event C n → Prop}
    {c : Cluster C n}
    (hReach : (system C n).Reachable ok c) :
    c.IndexSafe := by
  refine System.Reachable.induct
    (P := fun c : Cluster C n => c.IndexSafe) ?_ ?_ hReach
  · intro c hInit
    rw [system_init_iff] at hInit
    subst hInit
    constructor
    · intro i
      have hGe : (0 : Int) ≤ 1 := by decide
      have hLe : (1 : Int) ≤ max 1 (0 + 0) := by decide
      exact ⟨_, [], rfl, rfl, IndexedFrom.singleton rfl,
        hGe, hLe⟩
    · intro i j args hMem
      cases hMem
  · rintro c ⟨i, event⟩ c' hReach ih _ hStep
    have hRf := persisted hReach i
    rcases system_step_cases hStep with
      ⟨nd', effects, hDeliver, hNode, rfl⟩
    have hRaft := Node.step_raftStep hNode
    constructor
    · intro j
      by_cases hj : j = i
      · subst hj
        dsimp only
        rw [Function.update_self]
        apply hRaft.wellIndexed (ih.nodes j) hRf
        intro args hEvent
        rw [hEvent] at hDeliver
        rcases deliverable_appendEntries.mp hDeliver with
          ⟨sender, hMem⟩
        exact ih.requests sender j args hMem
      · dsimp only
        rw [Function.update_of_ne hj]
        exact ih.nodes j
    · intro sender j args hMem
      rcases mem_trace_iff.mp hMem with hOld | ⟨_, hNew⟩
      · exact ih.requests sender j args hOld
      · exact hRaft.appendEntries_indexed (ih.nodes i) hNew

/-
  In every reachable state the log of every server is well
  indexed, and every event that can happen to it is handled
  without an index out of range or a call of Fatalf.
-/
theorem no_crash
    {c : Cluster C n}
    (hReach : (system C n).Reachable System.always c)
    (i : Fin n) :
    (c.nodes i).rf.WellIndexed ∧
      ∀ event, ((c.nodes i).step event).isSome =
        (c.nodes i).enabled event := by
  have hIndexed := (indexSafe_of_reachable hReach).nodes i
  refine ⟨hIndexed, ?_⟩
  intro event
  exact Node.step_isSome hIndexed (persisted hReach i) event

/- The same after server 0 has won term 2. -/
theorem no_crash_leader :
    ∃ c : Cluster Nat 3,
      (system Nat 3).Reachable System.always c ∧
        c.LeaderOf 0 2 ∧
        (c.nodes 0).rf.WellIndexed ∧
        ∀ event, ((c.nodes 0).step event).isSome =
          (c.nodes 0).enabled event := by
  have hExec :
      (((system Nat 3).exec (twoBallots ++ [(0, .run 0)])
        (initial Nat 3)).any
          (fun c => isLeaderOf c 0 2)) = true := by
    decide
  rcases System.exists_run_of_exec hExec with
    ⟨c, hRun, hLeader⟩
  rw [isLeaderOf_iff] at hLeader
  have hReach :=
    (initial_reachable System.always).trans hRun
  exact ⟨c, hReach, hLeader, no_crash hReach 0⟩

end Cluster

end RaftLab
