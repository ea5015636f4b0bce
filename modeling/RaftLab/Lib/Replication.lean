import Mathlib.Order.Basic
import RaftLab.Lib.LeaderLogs
import RaftLab.Lib.Quorum

/-
  Agreement on a replicated log.

  The leader of a term copies its log to the other parties,
  which acknowledge how much of it they have accepted. A
  part of a leader log that ends with an entry of the
  leader's own term is chosen once a majority accepted it,
  and dead once a majority has moved on to later terms
  without having accepted it. A leader is safe if its log
  extends all parts of earlier leader logs that are not
  dead. Then all chosen logs are comparable.

  What makes a leader safe are votes: a voter compares the
  ends of its own log and of the candidate's log, and this
  is enough for the candidate to cover what it accepted.

  Main declarations:
    * `Replication`, `Replication.Step`
    * `Replication.Chosen`, `Replication.Dead`,
      `Replication.Safe`, `Replication.CommittedBy`
    * `Replication.covers_of_upToDate`,
      `Replication.safe_of_votes`, `Replication.Covers.cut`
    * `Replication.CommittedBy.comparable`
-/

------------------------------------------------------------
-- Choosing Logs
------------------------------------------------------------

/-
  `accepted j t m` says that party `j` acknowledged the
  first `m` entries of the log of the leader of `t`, and
  `current j` is the term party `j` is in.
-/
structure Replication (n : Nat) (E T : Type) where
  term : E → T
  leaderLog : T → List E
  current : Fin n → T
  accepted : Fin n → T → Nat → Prop

namespace Replication

variable {n : Nat} {E T : Type} [LinearOrder T]

section Definitions

variable (R : Replication n E T)

/- The first `m` entries end with one of the leader's own. -/
def Owns (t : T) (m : Nat) : Prop :=
  0 < m ∧ ∃ e, (R.leaderLog t)[m - 1]? = some e ∧
    R.term e = t

def Chosen (t : T) (m : Nat) : Prop :=
  R.Owns t m ∧
    ∃ Q, Majority Q ∧ ∀ j ∈ Q, R.accepted j t m

def Dead (t : T) (m : Nat) : Prop :=
  ∃ Q, Majority Q ∧
    ∀ j ∈ Q, t < R.current j ∧ ¬ R.accepted j t m

/- `log` has what may be chosen before term `u`. -/
def Safe (log : List E) (u : T) : Prop :=
  ∀ t m, t < u → R.Owns t m →
    log.take m = (R.leaderLog t).take m ∨ R.Dead t m

/- `log` has what `j` accepted before term `u`. -/
def Covers
    (log : List E)
    (j : Fin n)
    (u : T) : Prop :=
  ∀ t m, t < u → R.Owns t m → R.accepted j t m →
    log.take m = (R.leaderLog t).take m ∨ R.Dead t m

/- `log` is part of a log that was chosen by term `h`. -/
def CommittedBy (h : T) (log : List E) : Prop :=
  ∃ t m, t ≤ h ∧ R.Chosen t m ∧
    log <+: (R.leaderLog t).take m

/- All leaders are safe, and have no entries of the future. -/
structure Sound : Prop where
  safe :
    ∀ u, R.leaderLog u ≠ [] → R.Safe (R.leaderLog u) u
  term_le : ∀ t, ∀ e ∈ R.leaderLog t, R.term e ≤ t

end Definitions

variable {R R' : Replication n E T}
variable {log log' : List E}
variable {t u h h' : T}
variable {m m' : Nat}
variable {j : Fin n}

omit [LinearOrder T] in
theorem Owns.le_length
    (hOwns : R.Owns t m) :
    m ≤ (R.leaderLog t).length := by
  rcases hOwns with ⟨hPos, e, hEntry, _⟩
  have hLt := (List.getElem?_eq_some_iff.mp hEntry).1
  omega

omit [LinearOrder T] in
theorem Owns.ne_nil
    (hOwns : R.Owns t m) :
    R.leaderLog t ≠ [] := by
  intro hNil
  rcases hOwns with ⟨_, e, hEntry, _⟩
  rw [hNil] at hEntry
  cases hEntry

/- A log that agrees with a leader's up to `m` is as long. -/
omit [LinearOrder T] in
theorem le_length_of_take_eq
    (hTake : log.take m = (R.leaderLog t).take m)
    (hLe : m ≤ (R.leaderLog t).length) :
    m ≤ log.length := by
  have hLength := congrArg List.length hTake
  rw [List.length_take, List.length_take] at hLength
  omega

theorem Chosen.not_dead
    (hChosen : R.Chosen t m) :
    ¬ R.Dead t m := by
  rintro ⟨Q, hQ, hDead⟩
  rcases hChosen with ⟨_, Q', hQ', hAccepted⟩
  rcases hQ.exists_common hQ' with ⟨j, hj, hj'⟩
  exact (hDead j hj).2 (hAccepted j hj')

theorem CommittedBy.mono
    (hCommitted : R.CommittedBy h log)
    (hLe : h ≤ h') :
    R.CommittedBy h' log := by
  rcases hCommitted with ⟨t, m, ht, hChosen, hPrefix⟩
  exact ⟨t, m, le_trans ht hLe, hChosen, hPrefix⟩

theorem CommittedBy.of_extends
    (hCommitted : R.CommittedBy h log)
    (hPrefix : log' <+: log) :
    R.CommittedBy h log' := by
  rcases hCommitted with ⟨t, m, ht, hChosen, hLog⟩
  exact ⟨t, m, ht, hChosen, hPrefix.trans hLog⟩

/- Later leaders have all that was chosen before. -/
theorem CommittedBy.extends_leader
    (hSound : R.Sound)
    (hCommitted : R.CommittedBy h log)
    (hLe : h ≤ u)
    (hLeader : R.leaderLog u ≠ []) :
    log <+: R.leaderLog u := by
  rcases hCommitted with ⟨t, m, ht, hChosen, hLog⟩
  refine hLog.trans ?_
  rcases lt_or_eq_of_le (le_trans ht hLe) with hLt | rfl
  · rcases hSound.safe u hLeader t m hLt hChosen.1 with
      hTake | hDead
    · rw [← hTake]
      exact List.take_prefix _ _
    · exact absurd hDead hChosen.not_dead
  · exact List.take_prefix _ _

/- Chosen logs never diverge. -/
theorem CommittedBy.comparable
    (hSound : R.Sound)
    (hCommitted : R.CommittedBy h log)
    (hCommitted' : R.CommittedBy h' log') :
    log <+: log' ∨ log' <+: log := by
  rcases hCommitted with ⟨t, m, _, hChosen, hLog⟩
  rcases hCommitted' with ⟨t', m', _, hChosen', hLog'⟩
  have hOwn : R.CommittedBy t log :=
    ⟨t, m, le_refl t, hChosen, hLog⟩
  have hOwn' : R.CommittedBy t' log' :=
    ⟨t', m', le_refl t', hChosen', hLog'⟩
  rcases le_total t t' with hLe | hLe
  · exact List.prefix_or_prefix_of_prefix
      (hOwn.extends_leader hSound hLe hChosen'.1.ne_nil)
      (hLog'.trans (List.take_prefix _ _))
  · exact List.prefix_or_prefix_of_prefix
      (hLog.trans (List.take_prefix _ _))
      (hOwn'.extends_leader hSound hLe hChosen.1.ne_nil)

------------------------------------------------------------
-- Elections
------------------------------------------------------------

/- The terms of a chained log do not fall. -/
theorem term_le_of_chained
    (hSound : R.Sound)
    (hChain : Chained R.term R.leaderLog log)
    {k l : Nat}
    {e e' : E}
    (hEntry : log[k]? = some e)
    (hEntry' : log[l]? = some e')
    (hLe : k ≤ l) :
    R.term e ≤ R.term e' := by
  apply hSound.term_le
  have hTake := hChain l e' hEntry'
  have hMem : e ∈ log.take (l + 1) := by
    apply List.mem_of_getElem? (i := k)
    rw [List.getElem?_take_of_lt (by omega)]
    exact hEntry
  rw [hTake] at hMem
  exact List.mem_of_mem_take hMem

/-
  A candidate whose log ends in a later term than the
  voter's, or in the same term and is not shorter, covers
  what the voter has accepted and still has.
-/
theorem covers_of_upToDate
    (hSound : R.Sound)
    (hChain : Chained R.term R.leaderLog log)
    (hChain' : Chained R.term R.leaderLog log')
    {e e' : E}
    (hLast : log[log.length - 1]? = some e)
    (hLast' : log'[log'.length - 1]? = some e')
    (hUpToDate :
      R.term e < R.term e' ∨
        (R.term e = R.term e' ∧ log.length ≤ log'.length))
    (hAccepted : R.Covers log j u) :
    R.Covers log' j u := by
  intro t m ht hOwns hAcc
  rcases hAccepted t m ht hOwns hAcc with hTake | hDead
  · have hLe := hOwns.le_length
    have hLength := le_length_of_take_eq hTake hLe
    rcases hOwns with ⟨hPos, own, hOwn, hOwnTerm⟩
    have hOwnAt : log[m - 1]? = some own := by
      rw [← List.getElem?_take_of_lt
        (show m - 1 < m by omega), hTake,
        List.getElem?_take_of_lt (by omega)]
      exact hOwn
    have hEnd : t ≤ R.term e := by
      rw [← hOwnTerm]
      exact term_le_of_chained hSound hChain hOwnAt hLast
        (by omega)
    have hEq := hChain.eq_take_of_last hLast
    have hEq' := hChain'.eq_take_of_last hLast'
    rcases hUpToDate with hLater | ⟨hSame, hLonger⟩
    · -- the leader of the candidate's last term is safe
      have hNe : R.leaderLog (R.term e') ≠ [] := by
        intro hNil
        rw [hNil, List.take_nil] at hEq'
        rw [hEq'] at hLast'
        cases hLast'
      rcases hSound.safe _ hNe t m
          (lt_of_le_of_lt hEnd hLater)
          ⟨hPos, own, hOwn, hOwnTerm⟩ with
        hTake' | hDead
      · left
        -- the entry of that term lies beyond `m`
        have hBeyond : m ≤ log'.length := by
          by_contra hShort
          have hMem : e' ∈ R.leaderLog t := by
            apply List.mem_of_getElem?
              (i := log'.length - 1)
            rw [← List.getElem?_take_of_lt
              (show log'.length - 1 < m by omega), ← hTake',
              List.getElem?_take_of_lt (by omega),
              ← List.getElem?_take_of_lt (show
                log'.length - 1 < log'.length by
                  have hLt :=
                    (List.getElem?_eq_some_iff.mp hLast').1
                  omega), ← hEq']
            exact hLast'
          have hBefore := hSound.term_le t e' hMem
          exact absurd (lt_of_le_of_lt hEnd hLater)
            (not_lt_of_ge hBefore)
        rw [hEq', List.take_take, Nat.min_eq_left hBeyond]
        exact hTake'
      · exact Or.inr hDead
    · left
      rw [← hSame] at hEq'
      rw [← hTake, hEq', hEq, List.take_take, List.take_take,
        Nat.min_eq_left (by omega), Nat.min_eq_left hLength]
  · exact Or.inr hDead

/- A log that covers a majority of voters is safe. -/
theorem safe_of_votes
    {Q : Finset (Fin n)}
    (hQ : Majority Q)
    (hCurrent : ∀ j ∈ Q, u ≤ R.current j)
    (hCovers : ∀ j ∈ Q, R.Covers log j u) :
    R.Safe log u := by
  intro t m ht hOwns
  by_cases hSome : ∃ j ∈ Q, R.accepted j t m
  · rcases hSome with ⟨j, hj, hAccepted⟩
    exact hCovers j hj t m ht hOwns hAccepted
  · right
    refine ⟨Q, hQ, ?_⟩
    intro j hj
    refine ⟨lt_of_lt_of_le ht (hCurrent j hj), ?_⟩
    intro hAccepted
    exact hSome ⟨j, hj, hAccepted⟩

------------------------------------------------------------
-- Cut Logs
------------------------------------------------------------

/-
  The log `full` is replaced by the first `k` entries of
  `log`. What they have in common is kept, if entries are
  lost only where the two differ.
-/
omit [LinearOrder T] in
theorem extends_take_of_loses
    {part full log : List E}
    {k : Nat}
    (hFull : part <+: full)
    (hLog : part <+: log)
    (hLoses : k < full.length → full.take k ≠ log.take k) :
    part <+: log.take k := by
  rw [List.prefix_take_iff]
  refine ⟨hLog, ?_⟩
  by_contra hLong
  have hLt : k < part.length := Nat.lt_of_not_le hLong
  apply hLoses (Nat.lt_of_lt_of_le hLt hFull.length_le)
  rcases hFull with ⟨rest, rfl⟩
  rcases hLog with ⟨rest', rfl⟩
  rw [List.take_append_of_le_length (Nat.le_of_lt hLt),
    List.take_append_of_le_length (Nat.le_of_lt hLt)]

/- A party that is cut by a safe leader keeps its promises. -/
theorem Covers.cut
    {v : T}
    {k : Nat}
    (hCovers : R.Covers log j v)
    (hSafe : R.Safe (R.leaderLog u) u)
    (hBefore : ∀ t m, R.accepted j t m → t ≤ u)
    (hLoses :
      k < log.length →
        log.take k ≠ (R.leaderLog u).take k) :
    R.Covers ((R.leaderLog u).take k) j v := by
  intro t m ht hOwns hAccepted
  rcases hCovers t m ht hOwns hAccepted with hTake | hDead
  · have hPart : (R.leaderLog t).take m <+: log := by
      rw [← hTake]
      exact List.take_prefix _ _
    have hLeader :
        (R.leaderLog t).take m <+: R.leaderLog u ∨
          R.Dead t m := by
      rcases lt_or_eq_of_le (hBefore t m hAccepted) with
        hLt | hEq
      · rcases hSafe t m hLt hOwns with hTake' | hDead
        · left
          rw [← hTake']
          exact List.take_prefix _ _
        · exact Or.inr hDead
      · left
        rw [hEq]
        exact List.take_prefix _ _
    rcases hLeader with hLeader | hDead
    · left
      have hKept :=
        extends_take_of_loses hPart hLeader hLoses
      have hLength :
          ((R.leaderLog t).take m).length = m := by
        rw [List.length_take, Nat.min_eq_left hOwns.le_length]
      have hEq := List.prefix_iff_eq_take.mp hKept
      rw [hLength] at hEq
      exact hEq.symm
    · exact Or.inr hDead
  · exact Or.inr hDead

------------------------------------------------------------
-- Steps
------------------------------------------------------------

/-
  Leader logs grow, terms do not fall, and a party accepts
  only what the leader of its term or of a later one sends.
-/
structure Step (R R' : Replication n E T) : Prop where
  term_eq : R'.term = R.term
  grows : Grows R.leaderLog R'.leaderLog
  current_le : ∀ j, R.current j ≤ R'.current j
  accepted_mono :
    ∀ j t m, R.accepted j t m → R'.accepted j t m
  accepted_new :
    ∀ j t m, R'.accepted j t m →
      R.accepted j t m ∨ R'.current j ≤ t

namespace Step

theorem owns
    (hStep : Step R R')
    (hOwns : R.Owns t m) :
    R'.Owns t m := by
  rcases hOwns with ⟨hPos, e, hEntry, hTerm⟩
  rcases hStep.grows t with ⟨rest, hRest⟩
  have hLt := (List.getElem?_eq_some_iff.mp hEntry).1
  refine ⟨hPos, e, ?_, ?_⟩
  · rw [← hRest, List.getElem?_append_left hLt]
    exact hEntry
  · rw [hStep.term_eq]
    exact hTerm

theorem owns_of_le
    (hStep : Step R R')
    (hOwns : R'.Owns t m)
    (hLe : m ≤ (R.leaderLog t).length) :
    R.Owns t m := by
  rcases hOwns with ⟨hPos, e, hEntry, hTerm⟩
  rcases hStep.grows t with ⟨rest, hRest⟩
  refine ⟨hPos, e, ?_, ?_⟩
  · rw [← hRest,
      List.getElem?_append_left (by omega)] at hEntry
    exact hEntry
  · rw [← hStep.term_eq]
    exact hTerm

theorem dead
    (hStep : Step R R')
    (hDead : R.Dead t m) :
    R'.Dead t m := by
  rcases hDead with ⟨Q, hQ, hAll⟩
  refine ⟨Q, hQ, ?_⟩
  intro j hj
  have hLt := lt_of_lt_of_le (hAll j hj).1
    (hStep.current_le j)
  refine ⟨hLt, ?_⟩
  intro hAccepted
  rcases hStep.accepted_new j t m hAccepted with hOld | hLe
  · exact (hAll j hj).2 hOld
  · exact absurd hLt (not_lt_of_ge hLe)

theorem chosen
    (hStep : Step R R')
    (hChosen : R.Chosen t m) :
    R'.Chosen t m := by
  rcases hChosen with ⟨hOwns, Q, hQ, hAll⟩
  refine ⟨hStep.owns hOwns, Q, hQ, ?_⟩
  intro j hj
  exact hStep.accepted_mono j t m (hAll j hj)

theorem committedBy
    (hStep : Step R R')
    (hCommitted : R.CommittedBy h log) :
    R'.CommittedBy h log := by
  rcases hCommitted with ⟨t, m, ht, hChosen, hLog⟩
  refine ⟨t, m, ht, hStep.chosen hChosen, ?_⟩
  rw [hStep.grows.take_eq hChosen.1.le_length]
  exact hLog

/- What agreed with a leader log still does. -/
theorem take_eq
    (hStep : Step R R')
    (hLe : m ≤ (R.leaderLog t).length)
    (hAgree :
      log.take m = (R.leaderLog t).take m ∨ R.Dead t m) :
    log.take m = (R'.leaderLog t).take m ∨ R'.Dead t m := by
  rcases hAgree with hTake | hDead
  · left
    rw [hStep.grows.take_eq hLe]
    exact hTake
  · exact Or.inr (hStep.dead hDead)

/-
  A safe log stays safe: what an earlier leader appends once
  a majority is in term `u` is dead from the start.
-/
theorem safe
    (hStep : Step R R')
    (hLength :
      ∀ j t m, R.accepted j t m →
        m ≤ (R.leaderLog t).length)
    (hVoters :
      ∃ Q, Majority Q ∧ ∀ j ∈ Q, u ≤ R'.current j)
    (hPrefix : log <+: log')
    (hSafe : R.Safe log u) :
    R'.Safe log' u := by
  intro t m ht hOwns
  rcases Nat.lt_or_ge (R.leaderLog t).length m with
    hNew | hOld
  · right
    rcases hVoters with ⟨Q, hQ, hCurrent⟩
    refine ⟨Q, hQ, ?_⟩
    intro j hj
    have hLt := lt_of_lt_of_le ht (hCurrent j hj)
    refine ⟨hLt, ?_⟩
    intro hAccepted
    rcases hStep.accepted_new j t m hAccepted with hBefore |
      hLe
    · have hShort := hLength j t m hBefore
      omega
    · exact absurd hLt (not_lt_of_ge hLe)
  · apply hStep.take_eq hOld
    rcases hSafe t m ht (hStep.owns_of_le hOwns hOld) with
      hTake | hDead
    · left
      have hLe := le_length_of_take_eq hTake hOld
      rcases hPrefix with ⟨rest, rfl⟩
      rw [List.take_append_of_le_length hLe]
      exact hTake
    · exact Or.inr hDead

/- A voter accepts nothing more of the earlier leaders. -/
theorem covers
    (hStep : Step R R')
    (hLength :
      ∀ t m, R.accepted j t m →
        m ≤ (R.leaderLog t).length)
    (hCurrent : u ≤ R'.current j)
    (hCovers : R.Covers log j u) :
    R'.Covers log j u := by
  intro t m ht hOwns hAccepted
  rcases hStep.accepted_new j t m hAccepted with hOld | hLe
  · have hShort := hLength t m hOld
    exact hStep.take_eq hShort (hCovers t m ht
      (hStep.owns_of_le hOwns hShort) hOld)
  · exact absurd (lt_of_lt_of_le ht hCurrent)
      (not_lt_of_ge hLe)

end Step

end Replication
