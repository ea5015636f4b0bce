import RaftLab.Raft.IndexSafety

/-
  What a successful AppendEntries reply means.

  A follower takes the entries of a request on one of three
  paths: after its last entry, in place of everything after
  `lastApplied`, or not at all when it has them already. The
  logs of both servers may be compacted, so they are compared
  at the indices that both still hold.

  Main declarations:
    * `StoredLog`, `StoredLog.entryAt`
    * `StoredLog.AgreeAt`, `StoredLog.Matching`
    * `StoredLog.splice`
    * `Raft.RequestFrom`
    * `Raft.success_means_replication`
-/

------------------------------------------------------------
-- Stored Logs
------------------------------------------------------------

namespace RaftLab

variable {C : Type} {n : Nat}

/- A log without gaps, possibly compacted up to `first`. -/
structure StoredLog (C : Type) where
  first : LogEntry C
  rest : List (LogEntry C)
  indexed : IndexedFrom first.index (first :: rest)

namespace StoredLog

def entries (log : StoredLog C) : List (LogEntry C) :=
  log.first :: log.rest

def base (log : StoredLog C) : Int :=
  log.first.index

def lastIndex (log : StoredLog C) : Int :=
  log.base + log.rest.length

def entryAt
    (log : StoredLog C)
    (i : Int) : Option (LogEntry C) :=
  GoSlice.at? log.entries (i - log.base)

/- The entries after index `i`. -/
def after
    (log : StoredLog C)
    (i : Int) : List (LogEntry C) :=
  log.entries.drop (i + 1 - log.base).toNat

/-
  If both logs hold index `i`, they have the same term there,
  and the same entry unless one of them is compacted up to
  `i`, where it keeps nothing but the term.
-/
def AgreeAt (log log' : StoredLog C) (i : Int) : Prop :=
  ∀ e e', log.entryAt i = some e → log'.entryAt i = some e' →
    e.term = e'.term ∧
      (log.base < i → log'.base < i → e = e')

/- Log matching, at the indices that both logs hold. -/
def Matching (log log' : StoredLog C) : Prop :=
  ∀ i e e', log.entryAt i = some e →
    log'.entryAt i = some e' → e.term = e'.term →
    ∀ j, j ≤ i → log.AgreeAt log' j

theorem entryAt_eq_some_iff
    {log : StoredLog C}
    {i : Int}
    {e : LogEntry C} :
    log.entryAt i = some e ↔
      log.base ≤ i ∧
        log.entries[(i - log.base).toNat]? = some e := by
  unfold entryAt
  rw [GoSlice.at?_eq_some_iff]
  constructor
  · rintro ⟨hLe, hEntry⟩
    exact ⟨by omega, hEntry⟩
  · rintro ⟨hLe, hEntry⟩
    exact ⟨by omega, hEntry⟩

theorem length_entries (log : StoredLog C) :
    log.entries.length = log.rest.length + 1 :=
  List.length_cons

theorem bounds_of_entryAt
    {log : StoredLog C}
    {i : Int}
    {e : LogEntry C}
    (hEntry : log.entryAt i = some e) :
    log.base ≤ i ∧ i ≤ log.lastIndex := by
  rcases entryAt_eq_some_iff.mp hEntry with ⟨hLe, hAt⟩
  have hLt := (List.getElem?_eq_some_iff.mp hAt).1
  rw [length_entries] at hLt
  refine ⟨hLe, ?_⟩
  unfold lastIndex
  omega

/- The entries of a request are those after its index. -/
theorem getElem?_after
    {log : StoredLog C}
    {p : Int}
    (hBase : log.base ≤ p)
    (k : Nat) :
    (log.after p)[k]? = log.entryAt (p + 1 + k) := by
  unfold after entryAt
  rw [List.getElem?_drop]
  have hIndex : p + 1 + (k : Int) - log.base =
      (((p + 1 - log.base).toNat + k : Nat) : Int) := by
    push_cast
    omega
  rw [hIndex, GoSlice.at?_natCast]

theorem indexed_after
    {log : StoredLog C}
    {p : Int}
    (hBase : log.base ≤ p) :
    IndexedFrom (p + 1) (log.after p) := by
  have hDrop := log.indexed.drop (p + 1 - log.base).toNat
  have hStart : log.first.index +
      ((p + 1 - log.base).toNat : Int) = p + 1 := by
    unfold base at hBase ⊢
    omega
  rw [hStart] at hDrop
  exact hDrop

theorem length_after
    {log : StoredLog C}
    {p : Int}
    (hBase : log.base ≤ p)
    (hLast : p ≤ log.lastIndex) :
    ((log.after p).length : Int) = log.lastIndex - p := by
  unfold lastIndex at hLast ⊢
  unfold after
  rw [List.length_drop, length_entries]
  omega

------------------------------------------------------------
-- Taking Over The End Of Another Log
------------------------------------------------------------

section Splice

variable (log leader : StoredLog C)
variable {p : Int}
variable (hBase : log.base ≤ p) (hLast : p ≤ log.lastIndex)
variable (hLeader : leader.base ≤ p)

/- `log` up to `p` and `leader` after it. -/
def splice : StoredLog C where
  first := log.first
  rest := log.rest.take (p - log.base).toNat ++
    leader.after p
  indexed := by
    have hTake := log.indexed.take ((p - log.base).toNat + 1)
    rw [List.take_succ_cons] at hTake
    apply hTake.append
    have hStart : log.first.index +
        ((log.first ::
          log.rest.take (p - log.base).toNat).length : Int) =
          p + 1 := by
      unfold lastIndex base at hLast
      unfold base at hBase ⊢
      rw [List.length_cons, List.length_take]
      push_cast
      omega
    rw [hStart]
    exact indexed_after hLeader

theorem entries_splice :
    (splice log leader hBase hLast hLeader).entries =
      log.entries.take (p + 1 - log.base).toNat ++
        leader.after p := by
  have hCount : (p + 1 - log.base).toNat =
      (p - log.base).toNat + 1 := by
    omega
  rw [hCount]
  rfl

theorem entryAt_splice_le
    {i : Int}
    (hi : i ≤ p) :
    (splice log leader hBase hLast hLeader).entryAt i =
      log.entryAt i := by
  unfold entryAt GoSlice.at?
  rw [entries_splice]
  change (if 0 ≤ i - log.base then _ else _) = _
  by_cases hLow : 0 ≤ i - log.base
  · rw [if_pos hLow, if_pos hLow]
    change (log.entries.take (p + 1 - log.base).toNat ++
      leader.after p)[(i - log.base).toNat]? = _
    have hLength : (i - log.base).toNat <
        (log.entries.take (p + 1 - log.base).toNat).length := by
      unfold lastIndex at hLast
      rw [List.length_take, length_entries]
      omega
    rw [List.getElem?_append_left hLength,
      List.getElem?_take_of_lt (by omega)]
  · rw [if_neg hLow, if_neg hLow]

theorem entryAt_splice_gt
    {i : Int}
    (hi : p < i) :
    (splice log leader hBase hLast hLeader).entryAt i =
      leader.entryAt i := by
  have hNat : i = p + 1 + ((i - p - 1).toNat : Int) := by
    omega
  have hAfter := getElem?_after hLeader (i - p - 1).toNat
  rw [← hNat] at hAfter
  rw [← hAfter]
  unfold entryAt GoSlice.at?
  rw [entries_splice]
  change (if 0 ≤ i - log.base then _ else _) = _
  rw [if_pos (by omega)]
  change (log.entries.take (p + 1 - log.base).toNat ++
    leader.after p)[(i - log.base).toNat]? = _
  have hLength :
      (log.entries.take (p + 1 - log.base).toNat).length =
        (p + 1 - log.base).toNat := by
    unfold lastIndex at hLast
    rw [List.length_take, length_entries]
    omega
  rw [List.getElem?_append_right (by omega), hLength]
  congr 1
  omega

theorem lastIndex_splice
    (hLeaderLast : p ≤ leader.lastIndex) :
    (splice log leader hBase hLast hLeader).lastIndex =
      leader.lastIndex := by
  have hLength := length_after hLeader hLeaderLast
  unfold lastIndex at hLast ⊢
  change log.base +
    ((log.rest.take (p - log.base).toNat ++
      leader.after p).length : Int) = _
  rw [List.length_append, List.length_take]
  push_cast
  rw [hLength]
  unfold lastIndex
  omega

/- Logs that agree up to `p` agree after the splice. -/
theorem agreeAt_splice
    (hAgree : ∀ i, i ≤ p → log.AgreeAt leader i)
    (i : Int) :
    (splice log leader hBase hLast hLeader).AgreeAt leader
      i := by
  intro e e' hEntry hEntry'
  by_cases hi : i ≤ p
  · rw [entryAt_splice_le _ _ _ _ _ hi] at hEntry
    exact hAgree i hi e e' hEntry hEntry'
  · rw [entryAt_splice_gt _ _ _ _ _ (by omega),
      hEntry'] at hEntry
    cases hEntry
    exact ⟨rfl, fun _ _ => rfl⟩

end Splice

end StoredLog

------------------------------------------------------------
-- Requests And Replies
------------------------------------------------------------

namespace Raft

/-
  The request that a leader with the log `leader` builds for
  a follower it takes to hold everything up to `p`.
-/
structure RequestFrom
    (leader : StoredLog C)
    (p : Int)
    (args : AppendEntriesArgs C) : Prop where
  prevLogIndex : args.prevLogIndex = p
  prevLogTerm :
    (leader.entryAt p).map (fun e => e.term) =
      some args.prevLogTerm
  entries : args.entries = leader.after p
  leaderCommit : args.leaderCommit ≤ leader.lastIndex

/- A server with the log `log` and `lastApplied` inside it. -/
structure Stores
    (rf : Raft C n)
    (log : StoredLog C) : Prop where
  stored : rf.log = log.entries
  base_le : log.base ≤ rf.lastApplied
  le_last : rf.lastApplied ≤ log.lastIndex

/-
  The follower has the leader's log after `p`, and what it
  had applied before.
-/
structure Replicated
    (leader : StoredLog C)
    (p : Int)
    (rf : Raft C n)
    (log : StoredLog C)
    (rf' : Raft C n)
    (log' : StoredLog C) : Prop where
  stored : rf'.log = log'.entries
  agree : ∀ i, log'.AgreeAt leader i
  after : ∀ i e, p < i → leader.entryAt i = some e →
    log'.entryAt i = some e
  commitIndex : rf'.commitIndex ≠ rf.commitIndex →
    rf'.commitIndex ≤ log'.lastIndex
  applied : ∀ i, i ≤ rf.lastApplied →
    log'.entryAt i = log.entryAt i

/- The follower has changed nothing and tells where it is. -/
structure Refused
    (rf : Raft C n)
    (log : StoredLog C)
    (rf' : Raft C n)
    (reply : AppendEntriesReply) : Prop where
  unchanged : rf'.log = rf.log
  commitIndex : rf'.commitIndex = rf.commitIndex
  snapshot : rf'.snapshot = rf.snapshot
  snapshotIndex : rf'.snapshotIndex = rf.snapshotIndex
  snapshotTerm : rf'.snapshotTerm = rf.snapshotTerm
  prevLogIndex : reply.prevLogIndex = log.lastIndex
  prevLogTerm :
    (log.entryAt log.lastIndex).map (fun e => e.term) =
      some reply.prevLogTerm
  lastApplied : reply.lastApplied = rf.lastApplied

variable {rf rf' : Raft C n}
variable {log leader : StoredLog C}
variable {p : Int}
variable {args : AppendEntriesArgs C}

namespace RequestFrom

theorem base_le
    (hRequest : RequestFrom leader p args) :
    leader.base ≤ p := by
  rcases Option.map_eq_some_iff.mp hRequest.prevLogTerm with
    ⟨e, hEntry, _⟩
  exact (StoredLog.bounds_of_entryAt hEntry).1

theorem le_last
    (hRequest : RequestFrom leader p args) :
    p ≤ leader.lastIndex := by
  rcases Option.map_eq_some_iff.mp hRequest.prevLogTerm with
    ⟨e, hEntry, _⟩
  exact (StoredLog.bounds_of_entryAt hEntry).2

end RequestFrom

namespace Stores

theorem globalLogLen
    (hStores : rf.Stores log) :
    rf.globalLogLen = some (log.lastIndex + 1) := by
  rw [globalLogLen_of_log hStores.stored, hStores.stored,
    StoredLog.length_entries]
  unfold StoredLog.lastIndex StoredLog.base
  push_cast
  congr 1
  omega

theorem logAt
    (hStores : rf.Stores log)
    (i : Int) :
    rf.logAt (i - log.base) = log.entryAt i := by
  unfold Raft.logAt
  rw [hStores.stored]
  rfl

theorem lastLogTerm
    (hStores : rf.Stores log) :
    rf.lastLogTerm =
      (log.entryAt log.lastIndex).map (fun e => e.term) := by
  rw [← hStores.logAt, Raft.lastLogTerm, hStores.stored,
    StoredLog.length_entries]
  congr 2
  unfold StoredLog.lastIndex
  push_cast
  omega

/- The log after `p` was replaced by the leader's. -/
theorem replicated_of_splice
    (hStores : rf.Stores log)
    (hRequest : RequestFrom leader p args)
    (hBase : log.base ≤ p)
    (hLast : p ≤ log.lastIndex)
    (hApplied : rf.lastApplied ≤ p)
    (hAgree : ∀ i, i ≤ p → log.AgreeAt leader i)
    (hLog : rf'.log =
      rf.log.take (p + 1 - log.base).toNat ++ args.entries)
    (hCommit : rf'.commitIndex = args.leaderCommit) :
    ∃ log', Replicated leader p rf log rf' log' := by
  have hLeader := hRequest.base_le
  refine ⟨log.splice leader hBase hLast hLeader, ?_⟩
  constructor
  · rw [hLog, hStores.stored, hRequest.entries,
      StoredLog.entries_splice]
  · exact StoredLog.agreeAt_splice log leader hBase hLast
      hLeader hAgree
  · intro i e hLt hEntry
    rw [StoredLog.entryAt_splice_gt _ _ _ _ _ hLt]
    exact hEntry
  · intro _
    rw [StoredLog.lastIndex_splice _ _ _ _ _
      hRequest.le_last, hCommit]
    exact hRequest.leaderCommit
  · intro i hi
    exact StoredLog.entryAt_splice_le _ _ _ _ _ (by omega)

/- The follower appends the entries to its log. -/
theorem replicated_of_good
    (hStores : rf.Stores log)
    (hRequest : RequestFrom leader p args)
    (hMatching : log.Matching leader)
    (hIndex : log.lastIndex = p)
    (hLast : rf.lastLogTerm = some args.prevLogTerm)
    (hLog : rf'.log = rf.log ++ args.entries)
    (hCommit : rf'.commitIndex = args.leaderCommit) :
    ∃ log', Replicated leader p rf log rf' log' := by
  have hLow := hStores.base_le
  have hHigh := hStores.le_last
  rw [hStores.lastLogTerm, hIndex] at hLast
  rcases Option.map_eq_some_iff.mp hLast with
    ⟨own, hOwn, hOwnTerm⟩
  rcases Option.map_eq_some_iff.mp hRequest.prevLogTerm with
    ⟨e, hEntry, hEntryTerm⟩
  -- The last entry of the follower is one of the leader's.
  have hAgree := hMatching p own e hOwn hEntry
    (hOwnTerm.trans hEntryTerm.symm)
  have hWhole : rf.log.take (p + 1 - log.base).toNat =
      rf.log := by
    apply List.take_of_length_le
    rw [hStores.stored, StoredLog.length_entries]
    unfold StoredLog.lastIndex at hIndex
    omega
  apply hStores.replicated_of_splice hRequest (by omega)
    (by omega) (by omega) hAgree _ hCommit
  rw [hWhole]
  exact hLog

/- The follower finds the entries in its log. -/
theorem replicated_of_covered
    (hStores : rf.Stores log)
    (hRequest : RequestFrom leader p args)
    (hMatching : log.Matching leader)
    (hAgree : ∀ i, i ≤ rf.lastApplied →
      log.AgreeAt leader i)
    (hApplied : p = rf.lastApplied)
    (hPrefix :
      rf.prefixCheck args.entries.length 0 args.entries =
        some args.entries.length)
    (hLog : rf'.log = rf.log)
    (hCommit : rf'.commitIndex = rf.commitIndex) :
    ∃ log', Replicated leader p rf log rf' log' := by
  have hLow := hStores.base_le
  have hLeader := hRequest.base_le
  have hTerms := (prefixCheck_eq_all_iff hStores.stored
    hLow).mp (by rw [Nat.zero_add]; exact hPrefix)
  -- What the leader has after `p`, the follower has too.
  have hAfter : ∀ i e, p < i → leader.entryAt i = some e →
      ∃ own, log.entryAt i = some own ∧
        own.term = e.term := by
    intro i e hLt hEntry
    have hNat : i = p + 1 + ((i - p - 1).toNat : Int) := by
      omega
    have hSent := hTerms (i - p - 1).toNat e (by
      rw [hRequest.entries, StoredLog.getElem?_after hLeader,
        ← hNat]
      exact hEntry)
    have hPlace : ((0 : Nat) : Int) +
        ((i - p - 1).toNat : Int) + rf.lastApplied + 1 -
          log.first.index = i - log.base := by
      unfold StoredLog.base
      omega
    rw [hPlace, hStores.logAt] at hSent
    exact Option.map_eq_some_iff.mp hSent
  have hAll : ∀ i, log.AgreeAt leader i := by
    intro i e e' hEntry hEntry'
    by_cases hi : i ≤ p
    · exact hAgree i (by omega) e e' hEntry hEntry'
    · rcases hAfter i e' (by omega) hEntry' with
        ⟨own, hOwn, hTerm⟩
      exact hMatching i own e' hOwn hEntry' hTerm i
        (le_refl i) e e' hEntry hEntry'
  refine ⟨log, hLog.trans hStores.stored, hAll, ?_, ?_, ?_⟩
  · intro i e hLt hEntry
    rcases hAfter i e hLt hEntry with ⟨own, hOwn, _⟩
    have hEq := (hAll i own e hOwn hEntry).2 (by omega)
      (by omega)
    rw [hOwn, hEq]
  · intro hNew
    exact absurd hCommit hNew
  · intro i _
    rfl

end Stores

/-
  For every position of the request relative to the
  follower's log: on success the follower agrees with the
  leader wherever both hold an entry, has everything after
  the index of the request and keeps what it has applied. On
  failure it changes nothing and reports its last entry.
-/
theorem success_means_replication
    (hStores : rf.Stores log)
    (hRequest : RequestFrom leader p args)
    (hTerm : rf.currentTerm ≤ args.term)
    (hMatching : log.Matching leader)
    (hAgree : ∀ i, i ≤ rf.lastApplied →
      log.AgreeAt leader i) :
    ∃ rf' reply,
      rf.appendEntries args = some (rf', reply) ∧
      (reply.success = true →
        ∃ log', Replicated leader p rf log rf' log') ∧
      (reply.success = false → rf.Refused log rf' reply) := by
  have hLow := hStores.base_le
  have hIndex := hRequest.prevLogIndex
  have hBase : rf.baseIndex = some log.base :=
    baseIndex_of_log hStores.stored
  rcases appendEntries_isSome hBase (by omega) args with
    ⟨rf', reply, hStep⟩
  refine ⟨rf', reply, hStep, ?_⟩
  cases appendEntries_case hStep with
  | stale hStale => omega
  | good _ len hLen hLast hLastTerm _ hSuccess =>
      rw [hStores.globalLogLen, Option.some.injEq] at hLen
      constructor
      · intro _
        exact hStores.replicated_of_good hRequest hMatching
          (by omega) hLastTerm rfl rfl
      · intro hFailed
        rw [hSuccess] at hFailed
        cases hFailed
  | covered _ len _ _ hApplied hPrefix _ hSuccess =>
      constructor
      · intro _
        exact hStores.replicated_of_covered hRequest hMatching
          hAgree (by omega) hPrefix rfl rfl
      · intro hFailed
        rw [hSuccess] at hFailed
        cases hFailed
  | fixed _ len hLen hLt hApplied i _ _ bound hBound _ _
      hSuccess =>
      rw [hStores.globalLogLen, Option.some.injEq] at hLen
      rw [localIndex_of_log hStores.stored,
        Option.some.injEq] at hBound
      have hCut : bound = p + 1 - log.base := by
        unfold StoredLog.base
        omega
      constructor
      · intro _
        apply hStores.replicated_of_splice hRequest
          (by omega) (by omega) (by omega) _ _ rfl
        · intro i hi
          exact hAgree i (by omega)
        · rw [← hCut]
          rfl
      · intro hFailed
        rw [hSuccess] at hFailed
        cases hFailed
  | rejected _ len lastTerm hLen hLastTerm =>
      rw [hStores.globalLogLen, Option.some.injEq] at hLen
      constructor
      · intro hSuccess
        cases hSuccess
      · intro _
        rw [hStores.lastLogTerm] at hLastTerm
        exact ⟨rfl, rfl, rfl, rfl, rfl, by dsimp only; omega,
          hLastTerm, rfl⟩

/- A leader of term 3 whose log is compacted up to index 1. -/
def compactedLeader : StoredLog Nat where
  first := ⟨2, .noop, 1, none⟩
  rest := [⟨2, .normal, 2, some 7⟩, ⟨3, .noop, 3, none⟩]
  indexed := (IndexedFrom.singleton rfl).append
    ((IndexedFrom.singleton rfl).append
      (IndexedFrom.singleton rfl))

/- A follower that has an entry of its own at index 2. -/
def divergedLog : StoredLog Nat where
  first := ⟨1, .noop, 0, none⟩
  rest := [⟨2, .noop, 1, none⟩, ⟨1, .normal, 2, some 9⟩]
  indexed := (IndexedFrom.singleton rfl).append
    ((IndexedFrom.singleton rfl).append
      (IndexedFrom.singleton rfl))

def divergedFollower (me : Fin 3) : Raft Nat 3 :=
  { fresh me Persister.makePersister with
    log := divergedLog.entries }

def requestOfThree : AppendEntriesArgs Nat where
  term := 3
  leaderId := 0
  prevLogIndex := 1
  prevLogTerm := 2
  entries := compactedLeader.after 1
  leaderCommit := 1

theorem agreeAt_diverged
    {i : Int}
    (hi : i ≤ 1) :
    divergedLog.AgreeAt compactedLeader i := by
  intro e e' hEntry hEntry'
  have hLow := (StoredLog.bounds_of_entryAt hEntry').1
  have hBase : compactedLeader.base = 1 := rfl
  have hOne : i = 1 := by omega
  subst hOne
  cases hEntry
  cases hEntry'
  exact ⟨rfl, fun _ _ => rfl⟩

/- It replaces that entry by what the leader has after 1. -/
theorem success_means_replication_fix :
    ∃ rf' reply log',
      (divergedFollower 1).appendEntries requestOfThree =
        some (rf', reply) ∧
      reply.success = true ∧
      Replicated compactedLeader 1 (divergedFollower 1)
        divergedLog rf' log' := by
  have hMatching : divergedLog.Matching compactedLeader := by
    intro i e e' hEntry hEntry' hTerm j hj
    apply agreeAt_diverged
    have hBounds := StoredLog.bounds_of_entryAt hEntry
    have hLast : divergedLog.lastIndex = 2 := rfl
    by_cases hTwo : i = 2
    · -- The terms at index 2 differ.
      subst hTwo
      cases hEntry
      cases hEntry'
      cases hTerm
    · omega
  have hStores : (divergedFollower 1).Stores divergedLog :=
    ⟨rfl, by decide, by decide⟩
  have hRequest :
      RequestFrom compactedLeader 1 requestOfThree :=
    ⟨rfl, rfl, rfl, by decide⟩
  rcases success_means_replication hStores hRequest
    (by decide) hMatching (fun i hi => agreeAt_diverged hi)
    with ⟨rf', reply, hStep, hReplicated, _⟩
  have hSuccess :
      ((divergedFollower 1).appendEntries requestOfThree).map
        (fun r => r.2.success) = some true := by
    decide
  rw [hStep] at hSuccess
  have hOk : reply.success = true :=
    Option.some.inj hSuccess
  rcases hReplicated hOk with ⟨log', hLog'⟩
  exact ⟨rf', reply, log', hStep, hOk, hLog'⟩

end Raft

end RaftLab
