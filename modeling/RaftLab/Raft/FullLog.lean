import RaftLab.Raft.HandlerCases

/-
  The full log behind a compacted one.

  A server keeps the entries after some cut and replaces the
  entry at the cut by a no-op of the same term and index.
  `SuffixOf rf full b` says that the log of `rf` is the full
  log `full` cut at position `b`, and `CutAt rf full b` that
  its snapshot also counts the commands before the cut. All
  positions are global indices, so the functions that
  translate between local and global indices become plain
  list operations on `full`.

  Main declarations:
    * `commandCount`
    * `Raft.SuffixOf`, `Raft.CutAt`
    * `Raft.SuffixOf.logAt_term`, `Raft.SuffixOf.logAt_eq`,
      `Raft.SuffixOf.globalLogLen`,
      `Raft.SuffixOf.lastLogTerm`
    * `Raft.CutAt.externalIndex`
-/

------------------------------------------------------------
-- Full Logs
------------------------------------------------------------

namespace RaftLab

variable {C : Type} {n : Nat}

/- The number of commands at positions `1` up to `i`. -/
def commandCount
    (full : List (LogEntry C))
    (i : Nat) : Nat :=
  ((full.take (i + 1)).drop 1).countP
    (fun e => decide (e.type ≠ .noop))

/- The term of the entry at position `i`. -/
def termAt
    (full : List (LogEntry C))
    (i : Nat) : Option Int :=
  full[i]?.map (fun e => e.term)

theorem termAt_eq_some_iff
    {full : List (LogEntry C)}
    {i : Nat}
    {t : Int} :
    termAt full i = some t ↔
      ∃ e, full[i]? = some e ∧ e.term = t := by
  simp [termAt, Option.map_eq_some_iff]

theorem exists_termAt
    {full : List (LogEntry C)}
    {i : Nat}
    (hLt : i < full.length) :
    ∃ t, termAt full i = some t := by
  refine ⟨(full[i]).term, ?_⟩
  rw [termAt_eq_some_iff]
  exact ⟨full[i], List.getElem?_eq_getElem hLt, rfl⟩

theorem lt_length_of_termAt
    {full : List (LogEntry C)}
    {i : Nat}
    {t : Int}
    (hTerm : termAt full i = some t) :
    i < full.length := by
  rcases termAt_eq_some_iff.mp hTerm with ⟨e, hEntry, _⟩
  exact (List.getElem?_eq_some_iff.mp hEntry).1

/- A log agrees with its extensions at its positions. -/
theorem getElem?_of_extends
    {full full' : List (LogEntry C)}
    (hPrefix : full <+: full')
    {i : Nat}
    {e : LogEntry C}
    (hEntry : full[i]? = some e) :
    full'[i]? = some e := by
  rcases hPrefix with ⟨rest, rfl⟩
  have hLt := (List.getElem?_eq_some_iff.mp hEntry).1
  rw [List.getElem?_append_left hLt]
  exact hEntry

theorem termAt_of_extends
    {full full' : List (LogEntry C)}
    (hPrefix : full <+: full')
    {i : Nat}
    {t : Int}
    (hTerm : termAt full i = some t) :
    termAt full' i = some t := by
  rcases termAt_eq_some_iff.mp hTerm with ⟨e, hEntry, hEq⟩
  exact termAt_eq_some_iff.mpr
    ⟨e, getElem?_of_extends hPrefix hEntry, hEq⟩

/- Logs that agree up to `k` have the same entries there. -/
theorem getElem?_of_take_eq
    {full full' : List (LogEntry C)}
    {k i : Nat}
    (hTake : full.take k = full'.take k)
    (hLt : i < k) :
    full[i]? = full'[i]? := by
  rw [← List.getElem?_take_of_lt hLt, hTake,
    List.getElem?_take_of_lt hLt]

theorem termAt_of_take_eq
    {full full' : List (LogEntry C)}
    {k i : Nat}
    (hTake : full.take k = full'.take k)
    (hLt : i < k) :
    termAt full i = termAt full' i := by
  unfold termAt
  rw [getElem?_of_take_eq hTake hLt]

/- A longer part of the log holds more commands. -/
theorem commandCount_mono
    (full : List (LogEntry C))
    {i j : Nat}
    (hLe : i ≤ j) :
    commandCount full i ≤ commandCount full j := by
  unfold commandCount
  apply List.Sublist.countP_le
  apply List.Sublist.drop
  exact (List.take_prefix_take_left (by omega)).sublist

/- A command counts from its own position on. -/
theorem commandCount_succ
    {full : List (LogEntry C)}
    {i : Nat}
    {e : LogEntry C}
    (hEntry : full[i + 1]? = some e) :
    commandCount full (i + 1) =
      commandCount full i +
        if e.type ≠ .noop then 1 else 0 := by
  have hLt := (List.getElem?_eq_some_iff.mp hEntry).1
  have hTake :
      full.take (i + 1 + 1) = full.take (i + 1) ++ [e] := by
    rw [List.take_add_one, hEntry]
    rfl
  have hLen : 1 ≤ (full.take (i + 1)).length := by
    rw [List.length_take]
    omega
  unfold commandCount
  rw [hTake, List.drop_append_of_le_length hLen,
    List.countP_append, List.countP_singleton]
  simp

/- Logs that agree up to `i` hold the same commands there. -/
theorem commandCount_congr
    {full full' : List (LogEntry C)}
    {i : Nat}
    (hTake : full.take (i + 1) = full'.take (i + 1)) :
    commandCount full i = commandCount full' i := by
  unfold commandCount
  rw [hTake]

/- The commands up to a position, and those after it. -/
theorem commandCount_add
    (full : List (LogEntry C))
    {b : Nat}
    (hLt : b < full.length)
    (k : Nat) :
    commandCount full (b + k) =
      commandCount full b +
        ((full.drop (b + 1)).take k).countP
          (fun e => decide (e.type ≠ .noop)) := by
  have hSplit :
      full.take (b + k + 1) =
        full.take (b + 1) ++ (full.drop (b + 1)).take k := by
    have hSum : b + k + 1 = b + 1 + k := by omega
    rw [hSum, List.take_add]
  have hLen : 1 ≤ (full.take (b + 1)).length := by
    rw [List.length_take]
    omega
  unfold commandCount
  rw [hSplit, List.drop_append_of_le_length hLen,
    List.countP_append]

theorem commandCount_le
    (full : List (LogEntry C))
    (i : Nat) :
    commandCount full i ≤ i := by
  unfold commandCount
  refine le_trans (List.countP_le_length) ?_
  rw [List.length_drop, List.length_take]
  omega

------------------------------------------------------------
-- Compacted Logs
------------------------------------------------------------

/-
  The log of `rf` is `full` from position `b` on, with the
  entry at `b` replaced by a no-op of the same term.
-/
structure Raft.SuffixOf
    (rf : Raft C n)
    (full : List (LogEntry C))
    (b : Nat) : Prop where
  head :
    ∃ first,
      rf.log = first :: full.drop (b + 1) ∧
      first.index = (b : Int) ∧
      termAt full b = some first.term ∧
      first.type = .noop

/-
  The log of `rf` is `full` cut at position `b`, which is
  the start or the position of a command, and the snapshot
  covers the commands up to `b`.
-/
structure Raft.CutAt
    (rf : Raft C n)
    (full : List (LogEntry C))
    (b : Nat) : Prop extends rf.SuffixOf full b where
  command :
    b = 0 ∨ ∃ cut, full[b]? = some cut ∧ cut.type = .normal
  snapshotIndex :
    rf.snapshotIndex = (commandCount full b : Int)

/-
  The loop of internalIndex stops at the first entry with the
  number it looks for, if the log has that many commands.
-/
theorem Raft.internalIndexLoop_spec
    (target : Int)
    (entries : List (LogEntry C))
    {i index : Nat}
    {cnt : Int}
    (hBelow : cnt < target)
    {m : Nat}
    (hReached : target ≤ cnt + (entries.take m).countP
      (fun e => decide (e.type ≠ .noop))) :
    ∃ l, l < m ∧
      Raft.internalIndexLoop target entries i index cnt =
        i + l ∧
      cnt + (entries.take (l + 1)).countP
        (fun e => decide (e.type ≠ .noop)) = target ∧
      ∃ e, entries[l]? = some e ∧ e.type ≠ .noop := by
  induction entries generalizing i index cnt m with
  | nil =>
      rw [List.take_nil, List.countP_nil] at hReached
      omega
  | cons e es ih =>
      cases m with
      | zero =>
          rw [List.take_zero, List.countP_nil] at hReached
          omega
      | succ m =>
          have hCnt :
              (if e.type ≠ .noop then cnt + 1 else cnt) =
                cnt + (if e.type ≠ .noop then 1 else 0 :
                  Nat) := by
            split <;> simp
          have hOne :
              (if e.type ≠ .noop then 1 else 0 : Nat) ≤
                1 := by
            split <;> omega
          have hCommand :
              (if e.type ≠ .noop then 1 else 0 : Nat) = 1 →
                e.type ≠ .noop := by
            intro hCounts hNoop
            rw [if_neg (not_not.mpr hNoop)] at hCounts
            cases hCounts
          rw [Raft.internalIndexLoop, hCnt]
          simp only [List.take_succ_cons, List.countP_cons,
            decide_eq_true_eq] at hReached ⊢
          generalize
            (if e.type ≠ .noop then 1 else 0 : Nat) = w
              at hOne hCommand hReached ⊢
          by_cases hFound : cnt + (w : Int) = target
          · rw [if_pos hFound]
            refine ⟨0, by omega, rfl, ?_, e, rfl,
              hCommand (by omega)⟩
            rw [List.take_zero, List.countP_nil]
            omega
          · rw [if_neg hFound]
            have hRest : target ≤ cnt + w +
                (es.take m).countP
                  (fun e => decide (e.type ≠ .noop)) := by
              omega
            rcases @ih (i + 1) i (cnt + w) (by omega) m
              hRest with ⟨l, hL, hLoop, hCount, hEntry⟩
            exact ⟨l + 1, by omega, by omega, by omega,
              hEntry⟩

namespace Raft.SuffixOf

variable {rf rf' : Raft C n}
variable {full full' : List (LogEntry C)}
variable {b : Nat}

theorem lt_length
    (hSuffix : rf.SuffixOf full b) :
    b < full.length := by
  rcases hSuffix.head with ⟨first, _, _, hBase, _⟩
  exact lt_length_of_termAt hBase

theorem log_ne_nil
    (hSuffix : rf.SuffixOf full b) :
    rf.log ≠ [] := by
  rcases hSuffix.head with ⟨first, hLog, _⟩
  rw [hLog]
  exact List.cons_ne_nil _ _

theorem length_log
    (hSuffix : rf.SuffixOf full b) :
    rf.log.length + b = full.length := by
  have hLt := hSuffix.lt_length
  rcases hSuffix.head with ⟨first, hLog, _⟩
  rw [hLog, List.length_cons, List.length_drop]
  omega

theorem baseIndex
    (hSuffix : rf.SuffixOf full b) :
    rf.baseIndex = some (b : Int) := by
  rcases hSuffix.head with ⟨first, hLog, hIndex, _⟩
  rw [baseIndex_of_log hLog, hIndex]

/- The cut is read off the first entry. -/
theorem cut_unique
    {full' : List (LogEntry C)}
    {b' : Nat}
    (hSuffix : rf.SuffixOf full b)
    (hSuffix' : rf.SuffixOf full' b') :
    b = b' := by
  have hBase := hSuffix.baseIndex
  rw [hSuffix'.baseIndex, Option.some.injEq] at hBase
  omega

theorem localIndex
    (hSuffix : rf.SuffixOf full b)
    (i : Int) :
    rf.localIndex i = some (i - b) := by
  rcases hSuffix.head with ⟨first, hLog, hIndex, _⟩
  rw [localIndex_of_log hLog, hIndex]

theorem globalIndex
    (hSuffix : rf.SuffixOf full b)
    (i : Int) :
    rf.globalIndex i = some (i + b) := by
  rcases hSuffix.head with ⟨first, hLog, hIndex, _⟩
  rw [globalIndex_of_log hLog, hIndex]

theorem globalLogLen
    (hSuffix : rf.SuffixOf full b) :
    rf.globalLogLen = some (full.length : Int) := by
  have hLength := hSuffix.length_log
  rcases hSuffix.head with ⟨first, hLog, hIndex, _⟩
  rw [globalLogLen_of_log hLog, hIndex, ← hLength]
  push_cast
  rfl

/- Entries after the cut are those of the full log. -/
theorem getElem?_eq
    (hSuffix : rf.SuffixOf full b)
    (i : Nat) :
    rf.log[i + 1]? = full[b + 1 + i]? := by
  rcases hSuffix.head with ⟨first, hLog, _⟩
  rw [hLog, List.getElem?_cons_succ, List.getElem?_drop]

theorem logAt_eq
    (hSuffix : rf.SuffixOf full b)
    {i : Nat}
    (hLt : b < i) :
    rf.logAt ((i : Int) - b) = full[i]? := by
  rcases Nat.exists_eq_add_of_lt hLt with ⟨k, rfl⟩
  have hIndex :
      (((b + k + 1 : Nat) : Int) - b) =
        ((k + 1 : Nat) : Int) := by
    push_cast
    omega
  unfold logAt
  rw [hIndex, GoSlice.at?_natCast, hSuffix.getElem?_eq]
  congr 1
  omega

/- Terms from the cut on are those of the full log. -/
theorem logAt_term
    (hSuffix : rf.SuffixOf full b)
    {i : Nat}
    (hLe : b ≤ i) :
    (rf.logAt ((i : Int) - b)).map (fun e => e.term) =
      termAt full i := by
  rcases Nat.lt_or_eq_of_le hLe with hLt | rfl
  · rw [hSuffix.logAt_eq hLt]
    rfl
  · rcases hSuffix.head with ⟨first, hLog, _, hTerm, _⟩
    rw [hTerm, Int.sub_self, logAt, hLog]
    simp

theorem hasTermAt
    (hSuffix : rf.SuffixOf full b)
    {i : Nat}
    {own : Int}
    (hLe : b ≤ i)
    (hOwn : termAt full i = some own)
    (t : Int) :
    rf.hasTermAt ((i : Int) - b) t =
      some (decide (own = t)) := by
  have hTerm := hSuffix.logAt_term hLe
  rw [hOwn] at hTerm
  rcases Option.map_eq_some_iff.mp hTerm with
    ⟨e, hEntry, rfl⟩
  rw [Raft.hasTermAt, hEntry]
  rfl

theorem lastLogTerm
    (hSuffix : rf.SuffixOf full b) :
    rf.lastLogTerm = termAt full (full.length - 1) := by
  have hLength := hSuffix.length_log
  have hLt := hSuffix.lt_length
  have hIndex :
      ((rf.log.length : Int) - 1) =
        ((full.length - 1 : Nat) : Int) - b := by
    omega
  unfold Raft.lastLogTerm
  rw [hIndex]
  exact hSuffix.logAt_term (by omega)

/- What follows position `i` in the log. -/
theorem drop_eq
    (hSuffix : rf.SuffixOf full b)
    {i : Nat}
    (hLt : b < i) :
    rf.log.drop (i - b) = full.drop i := by
  rcases Nat.exists_eq_add_of_lt hLt with ⟨k, rfl⟩
  rcases hSuffix.head with ⟨first, hLog, _⟩
  have hSub : b + k + 1 - b = k + 1 := by omega
  rw [hLog, hSub, List.drop_succ_cons, List.drop_drop]
  congr 1
  omega

/- The suffix depends on the log only. -/
theorem of_log_eq
    (hSuffix : rf.SuffixOf full b)
    (hLog : rf'.log = rf.log) :
    rf'.SuffixOf full b := by
  constructor
  rw [hLog]
  exact hSuffix.head

/-
  The entries from position `k` on, which lies after the
  cut, are replaced.
-/
theorem of_replaced
    (hSuffix : rf.SuffixOf full b)
    {k : Nat}
    (hAfter : b < k)
    (hLe : k ≤ full.length)
    {entries : List (LogEntry C)}
    (hLog : rf'.log = rf.log.take (k - b) ++ entries) :
    rf'.SuffixOf (full.take k ++ entries) b := by
  have hLen : (full.take k).length = k := by
    rw [List.length_take]
    omega
  rcases hSuffix.head with
    ⟨first, hOld, hFirst, hTerm, hNoop⟩
  refine ⟨first, ?_, hFirst, ?_, hNoop⟩
  · have hSub : k - b = k - (b + 1) + 1 := by omega
    rw [hLog, hOld, hSub, List.take_succ_cons,
      List.cons_append, List.drop_append_of_le_length
        (by omega), List.drop_take]
  · unfold termAt at hTerm ⊢
    rw [List.getElem?_append_left (by omega),
      List.getElem?_take_of_lt hAfter]
    exact hTerm

/- Entries are appended. -/
theorem of_append
    (hSuffix : rf.SuffixOf full b)
    {entries : List (LogEntry C)}
    (hLog : rf'.log = rf.log ++ entries) :
    rf'.SuffixOf (full ++ entries) b := by
  have hLength := hSuffix.length_log
  have hLt := hSuffix.lt_length
  have hTake : rf.log.take (full.length - b) = rf.log := by
    apply List.take_of_length_le
    omega
  have hNew := hSuffix.of_replaced hLt (le_refl full.length)
    (by rw [hTake]; exact hLog)
  rw [List.take_length] at hNew
  exact hNew

/- The log is cut once more, `l` positions further on. -/
theorem of_compacted
    (hSuffix : rf.SuffixOf full b)
    {index : Int}
    {snapshot : Bytes}
    {l : Nat}
    {first : LogEntry C}
    {rest : List (LogEntry C)}
    (hDrop : rf.log.drop l = first :: rest)
    (hIndex : first.index = ((b + l : Nat) : Int)) :
    (rf.compacted index snapshot first rest).SuffixOf full
      (b + l) := by
  have hFirst : rf.log[l]? = some first := by
    have hHead := congrArg (fun log => log[0]?) hDrop
    simpa [List.getElem?_drop] using hHead
  have hRest : rest = full.drop (b + l + 1) := by
    have hTail := congrArg (List.drop 1) hDrop
    rw [List.drop_drop, List.drop_succ_cons,
      List.drop_zero] at hTail
    have hSub : l + 1 = b + l + 1 - b := by omega
    rw [← hTail, hSub]
    exact hSuffix.drop_eq (by omega)
  have hTerm : termAt full (b + l) = some first.term := by
    have hSub : (((b + l : Nat) : Int) - b) = (l : Int) := by
      push_cast
      omega
    rw [← hSuffix.logAt_term (Nat.le_add_right b l), hSub,
      Raft.logAt, GoSlice.at?_natCast, hFirst]
    rfl
  refine ⟨{ first with type := .noop }, ?_, hIndex, hTerm,
    rfl⟩
  rw [← hRest]
  rfl

/-
  When the prefix check runs through all entries of a fix
  package, each of them has the term the follower has at its
  position.
-/
theorem prefixCheck_all
    (hSuffix : rf.SuffixOf full b)
    {a : Nat}
    (hApplied : rf.lastApplied = (a : Int))
    (hLe : b ≤ a)
    {total i : Nat}
    {entries : List (LogEntry C)}
    (hAll : rf.prefixCheck total i entries =
      some (i + entries.length))
    {j : Nat}
    {e : LogEntry C}
    (hEntry : entries[j]? = some e) :
    termAt full (a + 1 + i + j) = some e.term := by
  rcases hSuffix.head with ⟨first, hLog, hIndex, _⟩
  have hTerm := (prefixCheck_eq_all_iff hLog (by omega)).mp
    hAll j e hEntry
  rw [← hSuffix.logAt_term (by omega), ← hTerm, hApplied,
    hIndex]
  congr 2
  push_cast
  omega

/- Conversely, the check runs through such entries. -/
theorem prefixCheck_eq_all
    (hSuffix : rf.SuffixOf full b)
    {a : Nat}
    (hApplied : rf.lastApplied = (a : Int))
    (hLe : b ≤ a)
    {total i : Nat}
    {entries : List (LogEntry C)}
    (hTerms :
      ∀ j e, entries[j]? = some e →
        termAt full (a + 1 + i + j) = some e.term) :
    rf.prefixCheck total i entries =
      some (i + entries.length) := by
  rcases hSuffix.head with ⟨first, hLog, hIndex, _⟩
  apply (prefixCheck_eq_all_iff hLog (by omega)).mpr
  intro j e hEntry
  rw [← hTerms j e hEntry, ← hSuffix.logAt_term (by omega),
    hApplied, hIndex]
  congr 2
  push_cast
  omega

/- The commands before position `i` are numbered as in the
  full log. -/
theorem externalIndex
    (hSuffix : rf.SuffixOf full b)
    (hNumber :
      rf.snapshotIndex = (commandCount full b : Int))
    {i : Nat}
    (hLe : b ≤ i)
    (hLt : i < full.length) :
    rf.externalIndex (i : Int) =
      some (commandCount full i : Int) := by
  have hLength := hSuffix.length_log
  have hBase := hSuffix.lt_length
  have hTarget : ((i : Int) - b) < rf.log.length := by omega
  have hNat : ((i : Int) - b + 1).toNat = i - b + 1 := by
    omega
  rcases hSuffix.head with ⟨first, hLog, _⟩
  unfold Raft.externalIndex
  rw [hSuffix.localIndex]
  simp only [Option.bind_eq_bind, Option.bind_some]
  rw [if_pos hTarget, hNat, hNumber]
  have hTail :
      (rf.log.take (i - b + 1)).drop 1 =
        (full.drop (b + 1)).take (i - b) := by
    rw [hLog, List.take_succ_cons, List.drop_succ_cons,
      List.drop_zero]
  have hCount := commandCount_add full hBase (i - b)
  rw [Nat.add_sub_cancel' hLe] at hCount
  rw [hTail, hCount]
  push_cast
  rw [Int.add_comm]
  rfl

/-
  A command after the cut is found by its number, if the log
  has that many commands.
-/
theorem internalIndex
    (hSuffix : rf.SuffixOf full b)
    (hNumber :
      rf.snapshotIndex = (commandCount full b : Int))
    {index : Int}
    (hNewer : rf.snapshotIndex < index)
    {x : Nat}
    (hReached : index ≤ (commandCount full x : Int)) :
    ∃ d : Nat,
      b < d ∧ d ≤ x ∧
      rf.internalIndex index = some (d : Int) ∧
      index = (commandCount full d : Int) ∧
      ∃ e, full[d]? = some e ∧ e.type = .normal := by
  have hLt := hSuffix.lt_length
  rcases hSuffix.head with ⟨first, hLog, _, _, hNoop⟩
  have hAfter : b ≤ x := by
    by_contra hBefore
    have hMono := commandCount_mono full
      (show x ≤ b by omega)
    omega
  have hCount : ∀ k, ((rf.log.take (k + 1)).countP
      (fun e => decide (e.type ≠ .noop)) : Int) =
        commandCount full (b + k) - commandCount full b := by
    intro k
    rw [hLog, List.take_succ_cons, List.countP_cons,
      commandCount_add full hLt k, if_neg (by simp [hNoop])]
    push_cast
    omega
  have hEnough : index - rf.snapshotIndex ≤ 0 +
      ((rf.log.take (x - b + 1)).countP
        (fun e => decide (e.type ≠ .noop)) : Int) := by
    rw [hCount, Nat.add_sub_cancel' hAfter]
    omega
  rcases internalIndexLoop_spec (i := 0)
    (index - rf.snapshotIndex) rf.log (by omega) hEnough with
    ⟨l, hl, hLoop, hTarget, e, hEntry, hType⟩
  rw [hCount] at hTarget
  have hPos : 0 < l := by
    by_contra hNone
    have hZero : l = 0 := by omega
    rw [hZero, Nat.add_zero] at hTarget
    omega
  refine ⟨b + l, by omega, by omega, ?_, by omega, e, ?_, ?_⟩
  · unfold Raft.internalIndex
    rw [hSuffix.globalIndex, hLoop]
    push_cast
    congr 1
    omega
  · have hSucc : l - 1 + 1 = l := by omega
    have hAt := hSuffix.getElem?_eq (l - 1)
    rw [hSucc, hEntry] at hAt
    rw [hAt]
    congr 1
    omega
  · cases hCase : e.type with
    | normal => rfl
    | noop => exact absurd hCase hType

end Raft.SuffixOf

------------------------------------------------------------
-- Numbered Commands
------------------------------------------------------------

namespace Raft.CutAt

variable {rf rf' : Raft C n}
variable {full full' : List (LogEntry C)}
variable {b : Nat}

theorem externalIndex
    (hCut : rf.CutAt full b)
    {i : Nat}
    (hLe : b ≤ i)
    (hLt : i < full.length) :
    rf.externalIndex (i : Int) =
      some (commandCount full i : Int) :=
  hCut.toSuffixOf.externalIndex hCut.snapshotIndex hLe hLt

/- The cut depends on the log and the snapshot index only. -/
theorem of_log_eq
    (hCut : rf.CutAt full b)
    (hLog : rf'.log = rf.log)
    (hIndex : rf'.snapshotIndex = rf.snapshotIndex) :
    rf'.CutAt full b where
  toSuffixOf := hCut.toSuffixOf.of_log_eq hLog
  command := hCut.command
  snapshotIndex := by rw [hIndex, hCut.snapshotIndex]

theorem of_replaced
    (hCut : rf.CutAt full b)
    {k : Nat}
    (hAfter : b < k)
    (hLe : k ≤ full.length)
    {entries : List (LogEntry C)}
    (hLog : rf'.log = rf.log.take (k - b) ++ entries)
    (hIndex : rf'.snapshotIndex = rf.snapshotIndex) :
    rf'.CutAt (full.take k ++ entries) b := by
  have hLen : (full.take k).length = k := by
    rw [List.length_take]
    omega
  refine ⟨hCut.toSuffixOf.of_replaced hAfter hLe hLog,
    ?_, ?_⟩
  · rcases hCut.command with hZero | ⟨cut, hBase, hNormal⟩
    · exact Or.inl hZero
    · refine Or.inr ⟨cut, ?_, hNormal⟩
      rw [List.getElem?_append_left (by omega),
        List.getElem?_take_of_lt hAfter]
      exact hBase
  · rw [hIndex, hCut.snapshotIndex]
    congr 1
    apply commandCount_congr
    rw [List.take_append_of_le_length (by omega),
      List.take_take, Nat.min_eq_left (by omega)]

theorem of_append
    (hCut : rf.CutAt full b)
    {entries : List (LogEntry C)}
    (hLog : rf'.log = rf.log ++ entries)
    (hIndex : rf'.snapshotIndex = rf.snapshotIndex) :
    rf'.CutAt (full ++ entries) b := by
  have hLength := hCut.length_log
  have hLt := hCut.lt_length
  have hTake : rf.log.take (full.length - b) = rf.log := by
    apply List.take_of_length_le
    omega
  have hNew := hCut.of_replaced hLt (le_refl full.length)
    (by rw [hTake]; exact hLog) hIndex
  rw [List.take_length] at hNew
  exact hNew

/-
  A snapshot that covers `full` up to the command at `b` is
  installed, and the entries after `b` are kept.
-/
theorem of_installed
    {args : InstallSnapshotArgs}
    (hCommand :
      b = 0 ∨
        ∃ cut, full[b]? = some cut ∧ cut.type = .normal)
    (hInternal : args.lastIncludedInternal = (b : Int))
    (hTerm : termAt full b = some args.lastIncludedTerm)
    (hIndex : args.lastIncludedIndex =
      (commandCount full b : Int)) :
    (rf.installed args
      (snapshotEntry args :: full.drop (b + 1))).CutAt full
        b where
  head := ⟨snapshotEntry args, rfl, hInternal, hTerm, rfl⟩
  command := hCommand
  snapshotIndex := hIndex

end Raft.CutAt

------------------------------------------------------------
-- Log Matching
------------------------------------------------------------

/-
  Two logs with entries of the same term at some position
  are the same up to that position.
-/
def LogMatching
    (full full' : List (LogEntry C)) : Prop :=
  ∀ i t, termAt full i = some t → termAt full' i = some t →
    full.take (i + 1) = full'.take (i + 1)

theorem LogMatching.symm
    {full full' : List (LogEntry C)}
    (hMatching : LogMatching full full') :
    LogMatching full' full := by
  intro i t hTerm hTerm'
  exact (hMatching i t hTerm' hTerm).symm

/-
  A follower that finds all entries of a fix package in its
  log has the log of the leader up to their end.
-/
theorem Raft.SuffixOf.take_of_prefixCheck
    {rf : Raft C n}
    {full log : List (LogEntry C)}
    {b a k total : Nat}
    {entries : List (LogEntry C)}
    (hSuffix : rf.SuffixOf full b)
    (hApplied : rf.lastApplied = (a : Int))
    (hLe : b ≤ a)
    (hMatching : LogMatching full log)
    (hTake : full.take (a + 1) = log.take (a + 1))
    (hLt : a < k)
    (hLength : k ≤ log.length)
    (hEntries : entries = (log.take k).drop (a + 1))
    (hAll : rf.prefixCheck total 0 entries =
      some entries.length) :
    full.take k = log.take k := by
  by_cases hNone : k = a + 1
  · rw [hNone]
    exact hTake
  · -- the term of the last entry is that of the follower's
    have hEntry :
        entries[k - 1 - (a + 1)]? = some log[k - 1] := by
      rw [hEntries, List.getElem?_drop,
        List.getElem?_take_of_lt (by omega),
        List.getElem?_eq_getElem (by omega)]
      congr 2
      omega
    have hOwn := hSuffix.prefixCheck_all hApplied hLe
      (by rw [hAll, Nat.zero_add]) hEntry
    have hPosition :
        a + 1 + 0 + (k - 1 - (a + 1)) = k - 1 := by
      omega
    rw [hPosition] at hOwn
    have hLast : termAt log (k - 1) = some log[k - 1].term := by
      refine termAt_eq_some_iff.mpr ⟨_, ?_, rfl⟩
      exact List.getElem?_eq_getElem (by omega)
    have hEnd : k - 1 + 1 = k := by omega
    rw [← hEnd]
    exact hMatching _ _ hOwn hLast

theorem LogMatching.of_extends
    {full full' : List (LogEntry C)}
    (hPrefix : full' <+: full) :
    LogMatching full full' := by
  intro i t _ hTerm
  rcases hPrefix with ⟨rest, rfl⟩
  rcases termAt_eq_some_iff.mp hTerm with ⟨e, hEntry, _⟩
  have hLt := (List.getElem?_eq_some_iff.mp hEntry).1
  rw [List.take_append_of_le_length (by omega)]

end RaftLab
