import RaftLab.Raft.LogHistory

/-
  Log matching.

  Whenever two servers hold entries of the same term at the
  same index, their logs should hold the same entries at all
  smaller indices. In a cluster in which every term has one
  leader and only leaders send requests, this holds as long
  as fix packages are checked like other requests: a package
  may replace the end of a log only if the log has the term
  of the request where the package starts. The code does not
  check this, and a run that stores such a package breaks
  the property.

  Main declarations:
    * `Raft.heldAt`, `Raft.LogsMatch`
    * `LedLog`, `LogsLed`
    * `Cluster.logsLed_of_reachable`
    * `Cluster.log_matching`
-/

------------------------------------------------------------
-- Logs Of Leaders And Followers
------------------------------------------------------------

namespace RaftLab

variable {C : Type} {n : Nat}

/-
  A log that starts as all logs do and is made of copies of
  leader logs.
-/
structure LedLog
    (leaderLog : Int → List (LogEntry C))
    (log : List (LogEntry C)) : Prop where
  head : [startEntry] <+: log
  chained : Chained LogEntry.term leaderLog log
  indexed : Indexed log

namespace LedLog

variable {leaderLog leaderLog' : Int → List (LogEntry C)}
variable {log log' : List (LogEntry C)}

/- The log every server starts with. -/
theorem start :
    LedLog (LogHistory.start (n := n)).leaderLog
      [(startEntry : LogEntry C)] := by
  refine ⟨List.prefix_rfl, ?_, ?_⟩
  · intro k e hEntry
    cases k with
    | zero =>
        cases hEntry
        rfl
    | succ k => cases hEntry
  · intro k e hEntry
    cases k with
    | zero =>
        cases hEntry
        rfl
    | succ k => cases hEntry

theorem grow
    (hLed : LedLog leaderLog log)
    (hGrows : Grows leaderLog leaderLog') :
    LedLog leaderLog' log where
  head := hLed.head
  chained := hLed.chained.grow hGrows
  indexed := hLed.indexed

theorem take
    (hLed : LedLog leaderLog log)
    {k : Nat}
    (hPos : 0 < k) :
    LedLog leaderLog (log.take k) where
  head := by
    rcases hLed.head with ⟨rest, rfl⟩
    rcases Nat.exists_eq_succ_of_ne_zero
      (Nat.pos_iff_ne_zero.mp hPos) with ⟨k', rfl⟩
    exact ⟨rest.take k', rfl⟩
  chained := hLed.chained.of_extends (List.take_prefix _ _)
  indexed := hLed.indexed.of_extends (List.take_prefix _ _)

theorem snoc
    (hLed : LedLog leaderLog log)
    {e : LogEntry C}
    (hLeader : leaderLog e.term = log ++ [e])
    (hIndex : e.index = (log.length : Int)) :
    LedLog leaderLog (log ++ [e]) where
  head := hLed.head.trans (List.prefix_append _ _)
  chained := hLed.chained.snoc hLeader
  indexed := hLed.indexed.snoc hIndex

end LedLog

theorem logMatching_of_chained
    {leaderLog : Int → List (LogEntry C)}
    {log log' : List (LogEntry C)}
    (hChain : Chained LogEntry.term leaderLog log)
    (hChain' : Chained LogEntry.term leaderLog log') :
    LogMatching log log' := by
  intro k t hTerm hTerm'
  rcases termAt_eq_some_iff.mp hTerm with ⟨e, hEntry, hEq⟩
  rcases termAt_eq_some_iff.mp hTerm' with
    ⟨e', hEntry', hEq'⟩
  exact hChain.matching hChain' hEntry hEntry'
    (hEq.trans hEq'.symm)

/-
  The history `g` fits the cluster: servers hold ends of
  their full logs, all logs are made of leader logs, leaders
  hold the log of their term, and requests are parts of it.
-/
structure LogsLed
    (c : Cluster C n)
    (g : LogHistory C n) : Prop where
  holds : ∀ i, (c.nodes i).rf.Holds (g.full i)
  led : ∀ i, LedLog g.leaderLog (g.full i)
  leader : ∀ i t, c.LeaderOf i t → g.leaderLog t = g.full i
  leader_led :
    ∀ t, g.leaderLog t ≠ [] →
      LedLog g.leaderLog (g.leaderLog t)
  unled :
    ∀ t, (∀ i, ¬ c.Won i t) →
      g.leaderLog t = LogHistory.start.leaderLog (n := n) t
  won_unique :
    ∀ i j t, c.Won i t → c.Won j t → i = j
  appends :
    ∀ i j args, (i, .appendEntries j args) ∈ c.trace →
      AppendedFrom (g.leaderLog args.term) args
  snapshots :
    ∀ i j args, (i, .installSnapshot j args) ∈ c.trace →
      SnapshotOf (g.leaderLog args.term) args

namespace LogsLed

variable {c c' : Cluster C n}
variable {g : LogHistory C n}

theorem leader_chained
    (hLed : LogsLed c g)
    (t : Int) :
    Chained LogEntry.term g.leaderLog (g.leaderLog t) := by
  by_cases hNil : g.leaderLog t = []
  · rw [hNil]
    intro k e hEntry
    cases hEntry
  · exact (hLed.leader_led t hNil).chained

theorem matching
    (hLed : LogsLed c g)
    (i : Fin n)
    (t : Int) :
    LogMatching (g.full i) (g.leaderLog t) :=
  logMatching_of_chained (hLed.led i).chained
    (hLed.leader_chained t)

/- The history before the first step. -/
theorem initial [DecidableEq C] :
    LogsLed (Cluster.initial C n) LogHistory.start where
  holds := by
    intro i
    refine ⟨0, ⟨startEntry, rfl, rfl, rfl, rfl⟩, ?_⟩
    exact Int.zero_le_ofNat 1
  led := fun i => LedLog.start
  leader := by
    intro i t hLeader
    cases hLeader.1
  leader_led := by
    intro t hNil
    by_cases ht : t = 1
    · subst ht
      exact LedLog.start
    · exact absurd (if_neg ht) hNil
  unled := fun t _ => rfl
  won_unique := by
    intro i j t hWon
    cases hWon
  appends := by
    intro i j args hMem
    cases hMem
  snapshots := by
    intro i j args hMem
    cases hMem

end LogsLed

------------------------------------------------------------
-- One Step
------------------------------------------------------------

section Step

variable {g : LogHistory C n}
variable {i : Fin n}
variable {rf rf' : Raft C n}
variable {event : Event C n}
variable {full : List (LogEntry C)}

/- A leader's full log continues the log of its term. -/
theorem FullStep.leader_extends
    (hFull : FullStep g rf i event rf' full)
    (hLeader : rf'.state = .leader)
    (hHead : [startEntry] <+: g.full i)
    (hOld :
      g.leaderLog rf'.currentTerm = g.full i ∨
        g.leaderLog rf'.currentTerm <+: [startEntry]) :
    g.leaderLog rf'.currentTerm <+: full := by
  have hPrefix : g.leaderLog rf'.currentTerm <+: g.full i := by
    rcases hOld with hSame | hStart
    · rw [hSame]
    · exact hStart.trans hHead
  cases hFull with
  | same => exact hPrefix
  | extended e => exact hPrefix.trans (List.prefix_append _ _)
  | appended args hEvent hFollower =>
      rw [hFollower] at hLeader
      cases hLeader
  | reset args hEvent hFollower =>
      rw [hFollower] at hLeader
      cases hLeader

/- The full log is again made of leader logs. -/
theorem FullStep.led
    {leaderLog' : Int → List (LogEntry C)}
    (hFull : FullStep g rf i event rf' full)
    (hGrows : Grows g.leaderLog leaderLog')
    (hOwn :
      rf'.state = .leader →
        leaderLog' rf'.currentTerm = full)
    (hLed : LedLog g.leaderLog (g.full i))
    (hLeaders :
      ∀ t, g.leaderLog t ≠ [] →
        LedLog g.leaderLog (g.leaderLog t)) :
    LedLog leaderLog' full := by
  cases hFull with
  | same => exact hLed.grow hGrows
  | extended e hLeader hTerm hEntry hIndex =>
      refine (hLed.grow hGrows).snoc ?_ hIndex
      rw [hEntry, ← hTerm]
      exact hOwn hLeader
  | appended args hEvent hFollower k hPos hLe =>
      have hNe : g.leaderLog args.term ≠ [] := by
        intro hNil
        rw [hNil, List.length_nil] at hLe
        omega
      exact ((hLeaders _ hNe).take hPos).grow hGrows
  | reset args hEvent hFollower b hLt =>
      have hNe : g.leaderLog args.term ≠ [] := by
        intro hNil
        rw [hNil] at hLt
        cases hLt
      exact ((hLeaders _ hNe).take (Nat.succ_pos b)).grow
        hGrows

theorem LogHistory.start_extends (t : Int) :
    (LogHistory.start (C := C) (n := n)).leaderLog t <+:
      [startEntry] := by
  unfold LogHistory.start
  dsimp only
  split
  · exact List.prefix_rfl
  · exact List.nil_prefix

end Step

namespace LogsLed

variable [DecidableEq C]
variable {ok : Cluster C n → Fin n × Event C n → Prop}
variable {c c' : Cluster C n}
variable {g : LogHistory C n}
variable {i : Fin n}
variable {event : Event C n}
variable {nd' : Node C n}
variable {effects : List (Effect C n)}

/- What the server's step does to its full log. -/
theorem fullAfter
    (hLed : LogsLed c g)
    (hRf : (c.nodes i).rf.Persisted)
    (hDeliver : c.deliverable i event = true)
    (hNode : (c.nodes i).step event = some (nd', effects))
    (hFix : (c.nodes i).fixesMatchingLog event = true) :
    FullAfter g (c.nodes i).rf i event nd'.rf := by
  refine (Node.step_raftStep hNode).fullAfter hRf
    (hLed.holds i) (hLed.led i).indexed (hLed.matching i)
    ?_ ?_ hFix
  · rintro args rfl
    rcases Cluster.deliverable_appendEntries.mp hDeliver with
      ⟨j, hMem⟩
    exact hLed.appends j i args hMem
  · rintro args rfl
    rcases Cluster.deliverable_installSnapshot.mp hDeliver
      with ⟨j, hMem⟩
    exact hLed.snapshots j i args hMem

/-
  A server that leads after a step led the same term before
  it, or its term had no leader before.
-/
omit [DecidableEq C] in
theorem leaderLog_of_leader
    (hLed : LogsLed c g)
    (hRf : (c.nodes i).rf.Persisted)
    (hNode : (c.nodes i).step event = some (nd', effects))
    (hKeeps : (c.nodes i).leaderKeepsTerm event = true)
    (hFresh :
      ∀ t, .elected t ∈ effects → ∀ j, ¬ c.Won j t)
    (hLeader : nd'.rf.state = .leader) :
    g.leaderLog nd'.rf.currentTerm = g.full i ∨
      g.leaderLog nd'.rf.currentTerm <+: [startEntry] := by
  rcases (Node.step_raftStep hNode).leader_cases hRf hLeader
    with hNew | ⟨hWas, hSame | ⟨k, token, hEvent, hThread⟩⟩
  · right
    rw [hLed.unled _ (hFresh _ hNew)]
    exact LogHistory.start_extends _
  · left
    exact hLed.leader i _ ⟨hWas, hSame.symm⟩
  · subst hEvent
    simp only [Node.leaderKeepsTerm, hThread,
      decide_eq_true_eq] at hKeeps
    exact absurd hWas hKeeps

/- Leader logs only grow. -/
theorem grows_step
    (hLed : LogsLed c g)
    (hRf : (c.nodes i).rf.Persisted)
    (hDeliver : c.deliverable i event = true)
    (hNode : (c.nodes i).step event = some (nd', effects))
    (hKeeps : (c.nodes i).leaderKeepsTerm event = true)
    (hFix : (c.nodes i).fixesMatchingLog event = true)
    (hFresh :
      ∀ t, .elected t ∈ effects → ∀ j, ¬ c.Won j t) :
    Grows g.leaderLog
      (g.leaderLogAfter nd'.rf
        (g.fullAfter (c.nodes i).rf nd'.rf i event)) := by
  apply LogHistory.grows_leaderLogAfter
  intro hLeader
  exact (hLed.fullAfter hRf hDeliver hNode
    hFix).step.leader_extends hLeader (hLed.led i).head
      (hLed.leaderLog_of_leader hRf hNode hKeeps hFresh
        hLeader)

/-
  The clauses about logs after a step to `nd'`, where `full`
  is the full log of the server and `g.leaderLogAfter` the
  leader logs after it.
-/
omit [DecidableEq C] in
theorem logs_step
    {full : List (LogEntry C)}
    (hLed : LogsLed c g)
    (hFull : FullStep g (c.nodes i).rf i event nd'.rf full)
    (hPrefix :
      nd'.rf.state = .leader →
        g.leaderLog nd'.rf.currentTerm <+: full) :
    (∀ j, LedLog (g.leaderLogAfter nd'.rf full)
      (Function.update g.full i full j)) ∧
    (∀ t, g.leaderLogAfter nd'.rf full t ≠ [] →
      LedLog (g.leaderLogAfter nd'.rf full)
        (g.leaderLogAfter nd'.rf full t)) := by
  have hGrows := LogHistory.grows_leaderLogAfter hPrefix
  have hNew : LedLog (g.leaderLogAfter nd'.rf full) full :=
    hFull.led hGrows LogHistory.leaderLogAfter_self
      (hLed.led i) hLed.leader_led
  constructor
  · intro j
    by_cases hj : j = i
    · subst hj
      rw [Function.update_self]
      exact hNew
    · rw [Function.update_of_ne hj]
      exact (hLed.led j).grow hGrows
  · intro t hNe
    by_cases ht :
        nd'.rf.state = .leader ∧ nd'.rf.currentTerm = t
    · rcases ht with ⟨hLeader, rfl⟩
      rw [LogHistory.leaderLogAfter_self hLeader]
      exact hNew
    · rw [LogHistory.leaderLogAfter_other
        (fun hLeader hEq => ht ⟨hLeader, hEq⟩)] at hNe ⊢
      exact (hLed.leader_led t hNe).grow hGrows

theorem step
    (hLed : LogsLed c g)
    (hReach : (Cluster.system C n).Reachable ok c)
    (hElected : c.LeadersElected)
    (hStep : (Cluster.system C n).step (i, event) c =
      some c')
    (hKeeps : (c.nodes i).leaderKeepsTerm event = true)
    (hBuilds : (c.nodes i).buildsAsLeader event = true)
    (hFix : (c.nodes i).fixesMatchingLog event = true)
    (hFresh :
      ∀ nd' effects t,
        (c.nodes i).step event = some (nd', effects) →
        .elected t ∈ effects → ∀ j, ¬ c.Won j t) :
    LogsLed c' (LogHistory.record c (i, event) c' g) := by
  have hRf := Cluster.persisted hReach i
  have hElected' := hElected.step hReach hKeeps hStep
  rcases Cluster.system_step_cases hStep with
    ⟨nd', effects, hDeliver, hNode, rfl⟩
  have hRaft := Node.step_raftStep hNode
  have hNew := fun t => hFresh nd' effects t hNode
  rcases hLed.fullAfter hRf hDeliver hNode hFix with
    ⟨hHolds, hFull⟩
  unfold LogHistory.record
  dsimp only at hElected' ⊢
  rw [Function.update_self]
  generalize g.fullAfter (c.nodes i).rf nd'.rf i event = full
    at hHolds hFull
  have hPrefix := fun hLeader =>
    hFull.leader_extends hLeader (hLed.led i).head
      (hLed.leaderLog_of_leader hRf hNode hKeeps hNew hLeader)
  have hGrows := LogHistory.grows_leaderLogAfter hPrefix
  have hLogs := hLed.logs_step hFull hPrefix
  -- terms are won once, also counting this step
  have hUnique :
      ∀ j k t,
        (j, .elected t) ∈
          c.trace ++ effects.map (fun e => (i, e)) →
        (k, .elected t) ∈
          c.trace ++ effects.map (fun e => (i, e)) →
        j = k := by
    intro j k t hj hk
    rcases Cluster.mem_trace_iff.mp hj with
      hOldJ | ⟨hEqJ, hNewJ⟩
    · rcases Cluster.mem_trace_iff.mp hk with
        hOldK | ⟨_, hNewK⟩
      · exact hLed.won_unique j k t hOldJ hOldK
      · exact absurd hOldJ (hNew t hNewK j)
    · rcases Cluster.mem_trace_iff.mp hk with
        hOldK | ⟨hEqK, _⟩
      · exact absurd hOldK (hNew t hNewJ k)
      · rw [hEqJ, hEqK]
  have hWonNow :
      nd'.rf.state = .leader →
        (i, .elected nd'.rf.currentTerm) ∈
          c.trace ++ effects.map (fun e => (i, e)) := by
    intro hLeader
    apply hElected' i
    unfold Cluster.LeaderOf
    dsimp only
    rw [Function.update_self]
    exact ⟨hLeader, rfl⟩
  refine
    { holds := ?_
      led := hLogs.1
      leader := ?_
      leader_led := hLogs.2
      unled := ?_
      won_unique := hUnique
      appends := ?_
      snapshots := ?_ }
  · intro j
    by_cases hj : j = i
    · subst hj
      dsimp only
      rw [Function.update_self, Function.update_self]
      exact hHolds
    · dsimp only
      rw [Function.update_of_ne hj, Function.update_of_ne hj]
      exact hLed.holds j
  · intro j t hLeader
    have hWon := hElected' j t hLeader
    unfold Cluster.LeaderOf at hLeader
    dsimp only at hLeader ⊢
    by_cases hj : j = i
    · subst hj
      rw [Function.update_self] at hLeader ⊢
      rcases hLeader with ⟨hState, rfl⟩
      exact LogHistory.leaderLogAfter_self hState
    · rw [Function.update_of_ne hj] at hLeader ⊢
      rw [LogHistory.leaderLogAfter_other]
      · exact hLed.leader j t hLeader
      · rintro hState rfl
        exact hj (hUnique j i _ hWon (hWonNow hState))
  · intro t hNone
    dsimp only
    rw [LogHistory.leaderLogAfter_other]
    · apply hLed.unled
      intro j hWon
      exact hNone j (Cluster.mem_trace_iff.mpr (Or.inl hWon))
    · rintro hState rfl
      exact hNone i (hWonNow hState)
  · intro j k args hMem
    refine AppendedFrom.grow ?_ (hGrows _)
    rcases Cluster.mem_trace_iff.mp hMem with hOld | ⟨rfl, hSent⟩
    · exact hLed.appends j k args hOld
    · rcases hRaft.builtFrom hSent rfl with
        ⟨⟨next, hArgs⟩, hTerm⟩
      have hState := hRaft.leader_of_request hBuilds hSent rfl
      rcases hLed.holds j with ⟨b, hSuffix, _⟩
      rw [hLed.leader j args.term ⟨hState, hTerm.symm⟩]
      exact hSuffix.appendedFrom hArgs
  · intro j k args hMem
    refine SnapshotOf.grow ?_ (hGrows _)
    rcases Cluster.mem_trace_iff.mp hMem with hOld | ⟨rfl, hSent⟩
    · exact hLed.snapshots j k args hOld
    · rcases hRaft.builtFrom hSent rfl with
        ⟨⟨first, hFirst, hArgs⟩, hTerm⟩
      have hState := hRaft.leader_of_request hBuilds hSent rfl
      rcases hLed.holds j with ⟨b, hSuffix, _⟩
      rw [hLed.leader j args.term ⟨hState, hTerm.symm⟩, hArgs]
      exact hSuffix.snapshotOf hFirst

end LogsLed

------------------------------------------------------------
-- Runs
------------------------------------------------------------

namespace Cluster

variable [DecidableEq C]
variable {ok : Cluster C n → Fin n × Event C n → Prop}
variable {c c' : Cluster C n}
variable {g : LogHistory C n}

/-
  The run conditions under which the history fits: leaders
  keep their terms, a term is won once, requests are built
  by leaders, and fix packages fit the logs they change.
-/
structure LogsKept
    (ok : Cluster C n → Fin n × Event C n → Prop) :
    Prop where
  keeps :
    ∀ c a, ok c a →
      (c.nodes a.1).leaderKeepsTerm a.2 = true
  builds :
    ∀ c a, ok c a →
      (c.nodes a.1).buildsAsLeader a.2 = true
  fixes :
    ∀ c a, ok c a →
      (c.nodes a.1).fixesMatchingLog a.2 = true
  fresh :
    ∀ c c' i event nd' effects t,
      (system C n).Reachable ok c → ok c (i, event) →
      (system C n).step (i, event) c = some c' →
      (c.nodes i).step event = some (nd', effects) →
      .elected t ∈ effects → ∀ j, ¬ c.Won j t

theorem logsLed_of_reachable
    (hKept : LogsKept ok)
    {p : Cluster C n × LogHistory C n}
    (hReach : (logSystem C n).Reachable
      (fun p a => ok p.1 a) p) :
    LogsLed p.1 p.2 := by
  refine System.Reachable.induct
    (P := fun p : Cluster C n × LogHistory C n =>
      LogsLed p.1 p.2) ?_ ?_ hReach
  · rintro ⟨c, g⟩ ⟨hInit, hStart⟩
    dsimp only at hInit hStart
    rw [system_init_iff] at hInit
    subst hInit hStart
    exact LogsLed.initial
  · rintro ⟨c, g⟩ ⟨i, event⟩ ⟨c', g'⟩ hBefore ih hOk hStep
    rcases System.withHistory_step_iff.mp hStep with
      ⟨hNext, hRecord⟩
    dsimp only at ih hNext hRecord ⊢
    rw [hRecord]
    have hReach : (system C n).Reachable ok c :=
      hBefore.forget_history
    refine ih.step hReach
      (leadersElected_of_reachable hKept.keeps hReach) hNext
      (hKept.keeps c _ hOk) (hKept.builds c _ hOk)
      (hKept.fixes c _ hOk) ?_
    intro nd' effects t hNode hMem
    exact hKept.fresh c c' i event nd' effects t hReach hOk
      hNext hNode hMem

end Cluster

------------------------------------------------------------
-- Matching Logs
------------------------------------------------------------

/-
  The entry a server holds at index `i`. The first entry of
  a log is not held: it stands for what was compacted, or
  for the start.
-/
def Raft.heldAt
    (rf : Raft C n)
    (i : Int) : Option (LogEntry C) := do
  let base ← rf.baseIndex
  if base < i then
    rf.logAt (i - base)
  else
    none

/-
  Below an index at which both servers hold entries of one
  term, they hold the same entries.
-/
def Raft.LogsMatch (rf rf' : Raft C n) : Prop :=
  ∀ p e e',
    rf.heldAt p = some e → rf'.heldAt p = some e' →
    e.term = e'.term →
      ∀ q d d', q < p →
        rf.heldAt q = some d → rf'.heldAt q = some d' →
          d.term = d'.term ∧ d.type = d'.type ∧
            d.command = d'.command

theorem Raft.SuffixOf.getElem?_of_heldAt
    {rf : Raft C n}
    {full : List (LogEntry C)}
    {b : Nat}
    (hSuffix : rf.SuffixOf full b)
    {i : Int}
    {e : LogEntry C}
    (hHeld : rf.heldAt i = some e) :
    ∃ k : Nat, i = (k : Int) ∧ full[k]? = some e := by
  unfold Raft.heldAt at hHeld
  rw [hSuffix.baseIndex] at hHeld
  simp only [Option.bind_eq_bind, Option.bind_some] at hHeld
  split at hHeld
  · rename_i hLt
    have hNat : i = ((i.toNat : Nat) : Int) := by omega
    refine ⟨i.toNat, hNat, ?_⟩
    rw [hNat, hSuffix.logAt_eq (by omega)] at hHeld
    exact hHeld
  · cases hHeld

theorem Raft.SuffixOf.lt_of_heldAt
    {rf : Raft C n}
    {full : List (LogEntry C)}
    {b k : Nat}
    (hSuffix : rf.SuffixOf full b)
    {e : LogEntry C}
    (hHeld : rf.heldAt (k : Int) = some e) :
    b < k := by
  unfold Raft.heldAt at hHeld
  rw [hSuffix.baseIndex] at hHeld
  simp only [Option.bind_eq_bind, Option.bind_some] at hHeld
  by_cases hLt : (b : Int) < (k : Int)
  · omega
  · rw [if_neg hLt] at hHeld
    cases hHeld

theorem LogsLed.logsMatch
    {c : Cluster C n}
    {g : LogHistory C n}
    (hLed : LogsLed c g)
    (i j : Fin n) :
    (c.nodes i).rf.LogsMatch (c.nodes j).rf := by
  intro p e e' hHeld hHeld' hTerm q d d' hLt hLower hLower'
  rcases hLed.holds i with ⟨b, hSuffix, _⟩
  rcases hLed.holds j with ⟨b', hSuffix', _⟩
  rcases hSuffix.getElem?_of_heldAt hHeld with
    ⟨k, rfl, hEntry⟩
  rcases hSuffix'.getElem?_of_heldAt hHeld' with
    ⟨k', hk, hEntry'⟩
  rcases hSuffix.getElem?_of_heldAt hLower with
    ⟨l, rfl, hEntryLow⟩
  rcases hSuffix'.getElem?_of_heldAt hLower' with
    ⟨l', hl, hEntryLow'⟩
  have hSameK : k' = k := by omega
  have hSameL : l' = l := by omega
  subst hSameK hSameL
  have hTake := (hLed.led i).chained.matching
    (hLed.led j).chained hEntry hEntry' hTerm
  have hEq : d = d' := by
    rw [getElem?_of_take_eq hTake (by omega),
      hEntryLow'] at hEntryLow
    exact (Option.some.inj hEntryLow).symm
  rw [hEq]
  exact ⟨rfl, rfl, rfl⟩

namespace Cluster

section Conditions

variable [DecidableEq C]

/- A server wins only terms that nobody has won before. -/
def winsFreshTerm
    (c : Cluster C n)
    (i : Fin n) :
    Event C n → Bool
| .run k =>
    match (c.nodes i).threads[k]? with
    | some (.electionChecked _ ballot) =>
        decide ((c.nodes i).rf.state = .candiate →
          ((n / 2 + 1 : Nat) : Int) ≤ ballot →
            ∀ j, (j, .elected (c.nodes i).rf.currentTerm) ∉
              c.trace)
    | _ => true
| _ => true

/-
  The setting: every term has at most one elected leader,
  which keeps its term, and requests are built by it.
-/
def sentByElected
    (c : Cluster C n)
    (a : Fin n × Event C n) : Bool :=
  (c.nodes a.1).leaderKeepsTerm a.2 &&
    (c.nodes a.1).buildsAsLeader a.2 &&
      c.winsFreshTerm a.1 a.2

def SentByElected
    (c : Cluster C n)
    (a : Fin n × Event C n) : Prop :=
  c.sentByElected a = true

/- In this setting, fix packages fit the logs they change. -/
def matchingFixes
    (c : Cluster C n)
    (a : Fin n × Event C n) : Bool :=
  c.sentByElected a &&
    (c.nodes a.1).fixesMatchingLog a.2

def MatchingFixes
    (c : Cluster C n)
    (a : Fin n × Event C n) : Prop :=
  c.matchingFixes a = true

theorem logsKept_matchingFixes :
    LogsKept (MatchingFixes (C := C) (n := n)) := by
  have hParts :
      ∀ (c : Cluster C n) (a : Fin n × Event C n),
        MatchingFixes c a →
          (((c.nodes a.1).leaderKeepsTerm a.2 = true ∧
            (c.nodes a.1).buildsAsLeader a.2 = true) ∧
              c.winsFreshTerm a.1 a.2 = true) ∧
                (c.nodes a.1).fixesMatchingLog a.2 =
                  true := by
    intro c a hOk
    simpa only [MatchingFixes, matchingFixes, sentByElected,
      Bool.and_eq_true] using hOk
  refine
    { keeps := fun c a hOk => (hParts c a hOk).1.1.1
      builds := fun c a hOk => (hParts c a hOk).1.1.2
      fixes := fun c a hOk => (hParts c a hOk).2
      fresh := ?_ }
  intro c c' i event nd' effects t _ hOk _ hNode hMem j
  have hFresh := (hParts c (i, event) hOk).1.2
  rcases (Node.step_raftStep hNode).win_of_elected hMem with
    ⟨rfl, k, token, ballot, rfl, hThread, hCandiate,
      hBallot⟩
  simp only [winsFreshTerm, hThread,
    decide_eq_true_eq] at hFresh
  exact hFresh hCandiate hBallot j

/-
  Log matching, in every run in which fix packages are only
  stored over logs that they fit.
-/
theorem log_matching
    {c : Cluster C n}
    (hReach : (system C n).Reachable MatchingFixes c)
    (i j : Fin n) :
    (c.nodes i).rf.LogsMatch (c.nodes j).rf := by
  rcases hReach.exists_history LogHistory.start
      LogHistory.record with ⟨g, hHistory⟩
  exact (logsLed_of_reachable logsKept_matchingFixes
    hHistory).logsMatch i j

end Conditions

------------------------------------------------------------
-- Runs Of Three Servers
------------------------------------------------------------

/-
  Server 0 wins term 2 and appends a command, which it sends
  to nobody. Server 1 wins term 3, appends a command and
  sends its log after index 0.
-/
def twoLogs {n : Nat} [NeZero n] :
    List (Fin n × Event Nat n) :=
  twoBallots ++
    [(0, .run 0), (0, .start (some 7)),
      (1, .tickerTimeout), (1, .run 0),
      (2, .requestVote (initialLogRequest 3 1)),
      (1, .voteReply 2 { term := 3, voteGranted := true }),
      (1, .run 0), (1, .run 0), (1, .run 0), (1, .run 0),
      (1, .start (some 8)),
      (1, .run 0), (1, .run 0), (1, .run 0)]

/- The entries server 1 has after index 0. -/
def entriesOfThree : List (LogEntry Nat) :=
  [{ term := 3, type := .noop, index := 1, command := none },
    { term := 3, type := .normal, index := 2,
      command := some 8 }]

/- A request of server 1 for what follows index `p`. -/
def requestAfter
    (p : Nat)
    (prevLogTerm : Int) : AppendEntriesArgs Nat where
  term := 3
  leaderId := 1
  prevLogIndex := p
  prevLogTerm := prevLogTerm
  entries := entriesOfThree.drop p
  leaderCommit := 0

/-
  Server 0 has applied nothing, but its `lastApplied` is 1.
  It rejects the request after index 0, and server 1 sends a
  fix package after index 1, which server 0 takes although
  its entry there is of another term.
-/
def unmatchedFix {n : Nat} [NeZero n] :
    List (Fin n × Event Nat n) :=
  [(0, .appendEntries (requestAfter 0 1)),
    (1, .appendReply 0
      { term := 3, success := false, prevLogIndex := 2,
        prevLogTerm := 2, lastApplied := 1 }),
    (1, .run 0), (1, .run 1), (1, .run 0),
    (0, .appendEntries (requestAfter 1 3))]

/- Whether server `i` has an entry of term `t` at `p`. -/
def holdsTerm
    (c : Cluster Nat 3)
    (i : Fin 3)
    (p t : Int) : Bool :=
  ((c.nodes i).rf.heldAt p).any
    (fun e => decide (e.term = t))

theorem holdsTerm_iff
    {c : Cluster Nat 3}
    {i : Fin 3}
    {p t : Int} :
    holdsTerm c i p t = true ↔
      ∃ e, (c.nodes i).rf.heldAt p = some e ∧
        e.term = t := by
  simp [holdsTerm, Option.any_eq_true]

/-
  Servers 0 and 1 both have an entry of term 3 at index 2,
  but entries of different terms at index 1.
-/
theorem unmatched_fix_breaks_matching :
    ¬ ∀ c : Cluster Nat 3,
      (system Nat 3).Reachable SentByElected c →
        ∀ i j, (c.nodes i).rf.LogsMatch (c.nodes j).rf := by
  intro hClaim
  have hExec :
      (((system Nat 3).execOk (fun c a => c.sentByElected a)
        (twoLogs ++ unmatchedFix) (initial Nat 3)).any
          (fun c => holdsTerm c 0 2 3 && holdsTerm c 1 2 3 &&
            (holdsTerm c 0 1 2 && holdsTerm c 1 1 3))) =
        true := by
    decide
  rcases System.exists_run_of_execOk hExec with
    ⟨c, hRun, hHeld⟩
  simp only [Bool.and_eq_true, holdsTerm_iff] at hHeld
  rcases hHeld with
    ⟨⟨⟨e, he, hTerm⟩, e', he', hTerm'⟩,
      ⟨d, hd, hLow⟩, d', hd', hLow'⟩
  have hReach : (system Nat 3).Reachable SentByElected c :=
    (initial_reachable SentByElected).trans hRun
  have hSame := (hClaim c hReach 0 1 2 e e' he he'
    (hTerm.trans hTerm'.symm) 1 d d' (by omega) hd hd').1
  omega

/- Server 2 takes the request of server 1 as it should. -/
theorem log_matching_after_request :
    ∃ c : Cluster Nat 3,
      (system Nat 3).Reachable MatchingFixes c ∧
        holdsTerm c 1 2 3 = true ∧
        holdsTerm c 2 2 3 = true ∧
        (c.nodes 1).rf.LogsMatch (c.nodes 2).rf := by
  have hExec :
      (((system Nat 3).execOk (fun c a => c.matchingFixes a)
        (twoLogs ++ [(2, .appendEntries (requestAfter 0 1))])
        (initial Nat 3)).any
          (fun c => holdsTerm c 1 2 3 && holdsTerm c 2 2 3)) =
        true := by
    decide
  rcases System.exists_run_of_execOk hExec with
    ⟨c, hRun, hHeld⟩
  rw [Bool.and_eq_true] at hHeld
  have hReach : (system Nat 3).Reachable MatchingFixes c :=
    (initial_reachable MatchingFixes).trans hRun
  exact ⟨c, hReach, hHeld.1, hHeld.2,
    log_matching hReach 1 2⟩

end Cluster

end RaftLab
