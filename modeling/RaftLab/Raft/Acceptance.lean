import RaftLab.Lib.Replication
import RaftLab.Raft.LogMatching

/-
  What followers have accepted.

  A server accepts a part of a leader log by a successful
  reply, and a leader accepts its own log. This makes the
  cluster an instance of `Replication`, and every step of
  the cluster a step of it. A leader counts in `matchIndex`
  only what was accepted in its own term.

  Main declarations:
    * `Cluster.HistoryStep`, `Cluster.history_induct`
    * `Cluster.Accepted`, `Cluster.replication`
    * `Cluster.HistoryStep.replication_step`
-/

------------------------------------------------------------
-- Steps With Their History
------------------------------------------------------------

namespace RaftLab

variable {C : Type} {n : Nat}

namespace Cluster

/- The cluster after server `i` moved to `nd'`. -/
def after
    (c : Cluster C n)
    (i : Fin n)
    (nd' : Node C n)
    (effects : List (Effect C n)) : Cluster C n where
  nodes := Function.update c.nodes i nd'
  trace := c.trace ++ effects.map (fun e => (i, e))

section After

variable {c : Cluster C n}
variable {i j : Fin n}
variable {nd' : Node C n}
variable {effects : List (Effect C n)}

@[simp] theorem after_nodes_self :
    (c.after i nd' effects).nodes i = nd' := by
  unfold after
  exact Function.update_self ..

theorem after_nodes_of_ne
    (hj : j ≠ i) :
    (c.after i nd' effects).nodes j = c.nodes j := by
  unfold after
  exact Function.update_of_ne hj ..

theorem mem_after_trace
    {effect : Effect C n} :
    (j, effect) ∈ (c.after i nd' effects).trace ↔
      (j, effect) ∈ c.trace ∨
        (j = i ∧ effect ∈ effects) :=
  mem_trace_iff

theorem trace_subset_after
    {x : Fin n × Effect C n}
    (hMem : x ∈ c.trace) :
    x ∈ (c.after i nd' effects).trace :=
  List.mem_append_left _ hMem

end After

end Cluster

/- The history after server `i` moved from `rf` to `rf'`. -/
def LogHistory.after
    (g : LogHistory C n)
    (i : Fin n)
    (event : Event C n)
    (rf rf' : Raft C n) : LogHistory C n where
  full := Function.update g.full i
    (g.fullAfter rf rf' i event)
  leaderLog :=
    g.leaderLogAfter rf' (g.fullAfter rf rf' i event)

namespace Cluster

variable [DecidableEq C]
variable {ok : Cluster C n → Fin n × Event C n → Prop}

/- A step of server `i` to `nd'` in a run with history. -/
structure HistoryStep
    (ok : Cluster C n → Fin n × Event C n → Prop)
    (c : Cluster C n)
    (g : LogHistory C n)
    (i : Fin n)
    (event : Event C n)
    (nd' : Node C n)
    (effects : List (Effect C n)) : Prop where
  history :
    (logSystem C n).Reachable (fun p a => ok p.1 a) (c, g)
  accepted : ok c (i, event)
  deliver : c.deliverable i event = true
  node : (c.nodes i).step event = some (nd', effects)

/- The invariant rule for runs with history. -/
theorem history_induct
    {P : Cluster C n → LogHistory C n → Prop}
    (hInit : P (initial C n) LogHistory.start)
    (hStep :
      ∀ c g i event nd' effects,
        HistoryStep ok c g i event nd' effects → P c g →
          P (c.after i nd' effects)
            (g.after i event (c.nodes i).rf nd'.rf))
    {p : Cluster C n × LogHistory C n}
    (hReach : (logSystem C n).Reachable
      (fun p a => ok p.1 a) p) :
    P p.1 p.2 := by
  refine System.Reachable.induct
    (P := fun p : Cluster C n × LogHistory C n =>
      P p.1 p.2) ?_ ?_ hReach
  · rintro ⟨c, g⟩ ⟨hStart, hHistory⟩
    dsimp only at hStart hHistory
    rw [system_init_iff] at hStart
    subst hStart hHistory
    exact hInit
  · rintro ⟨c, g⟩ ⟨i, event⟩ ⟨c', g'⟩ hBefore ih hOk hNext
    rcases System.withHistory_step_iff.mp hNext with
      ⟨hSystem, hRecord⟩
    rcases system_step_cases hSystem with
      ⟨nd', effects, hDeliver, hNode, hAfter⟩
    dsimp only at hAfter hRecord ih ⊢
    have hSame : (c'.nodes i).rf = nd'.rf := by
      rw [hAfter]
      dsimp only
      rw [Function.update_self]
    have hEq : g' = g.after i event (c.nodes i).rf nd'.rf := by
      rw [hRecord]
      unfold LogHistory.record LogHistory.after
      dsimp only
      rw [hSame]
    rw [hEq, hAfter]
    exact hStep c g i event nd' effects
      ⟨hBefore, hOk, hDeliver, hNode⟩ ih

namespace HistoryStep

variable {c : Cluster C n}
variable {g : LogHistory C n}
variable {i : Fin n}
variable {event : Event C n}
variable {nd' : Node C n}
variable {effects : List (Effect C n)}

omit [DecidableEq C] in
theorem full_self :
    (g.after i event (c.nodes i).rf nd'.rf).full i =
      g.fullAfter (c.nodes i).rf nd'.rf i event :=
  Function.update_self ..

omit [DecidableEq C] in
theorem full_other
    {j : Fin n}
    (hj : j ≠ i) :
    (g.after i event (c.nodes i).rf nd'.rf).full j =
      g.full j :=
  Function.update_of_ne hj ..

section Basic

variable (hStep : HistoryStep ok c g i event nd' effects)

include hStep

theorem reach : (system C n).Reachable ok c :=
  hStep.history.forget_history

theorem raftStep :
    RaftStep (c.nodes i) event nd'.rf effects :=
  Node.step_raftStep hStep.node

theorem next :
    (system C n).step (i, event) c =
      some (c.after i nd' effects) := by
  unfold system
  dsimp only
  rw [if_pos hStep.deliver, hStep.node]
  rfl

theorem history_after :
    (logSystem C n).Reachable (fun p a => ok p.1 a)
      (c.after i nd' effects,
        g.after i event (c.nodes i).rf nd'.rf) := by
  refine hStep.history.trans ?_
  refine System.Run.tail (System.Run.refl _) hStep.accepted
    (System.withHistory_step_iff.mpr ⟨hStep.next, ?_⟩)
  unfold LogHistory.record LogHistory.after
  dsimp only
  rw [after_nodes_self]

theorem reach_after :
    (system C n).Reachable ok (c.after i nd' effects) :=
  hStep.history_after.forget_history

theorem term_le (j : Fin n) :
    (c.nodes j).rf.currentTerm ≤
      ((c.after i nd' effects).nodes j).rf.currentTerm := by
  by_cases hj : j = i
  · subst hj
    rw [after_nodes_self]
    exact hStep.raftStep.term_mono (persisted hStep.reach j)
  · rw [after_nodes_of_ne hj]

end Basic

end HistoryStep

------------------------------------------------------------
-- Acknowledgements
------------------------------------------------------------

/- The successful replies of a server in the trace. -/
def AcksBacked (c : Cluster C n) : Prop :=
  ∀ j args reply, (j, .appendReply args reply) ∈ c.trace →
    reply.success = true →
      args.term ≤ (c.nodes j).rf.currentTerm ∧
        ∃ i, (i, .appendEntries j args) ∈ c.trace

omit [DecidableEq C] in
theorem ack_of_effect
    {nd : Node C n}
    {event : Event C n}
    {rf' : Raft C n}
    {effects : List (Effect C n)}
    (hRaft : RaftStep nd event rf' effects)
    {args : AppendEntriesArgs C}
    {reply : AppendEntriesReply}
    (hMem : (.appendReply args reply : Effect C n) ∈
      effects)
    (hSuccess : reply.success = true) :
    event = .appendEntries args ∧
      rf'.currentTerm = args.term ∧
      Raft.AppendEntriesCase nd.rf args rf' reply := by
  cases hRaft with
  | requestVote args' _ _ reply' hCase =>
      unfold voteEffects at hMem
      split at hMem <;> simp at hMem
  | appendEntries args' hEvent rf' reply' hCase =>
      rw [List.mem_singleton] at hMem
      cases hMem
      refine ⟨hEvent, ?_, hCase⟩
      cases hCase with
      | stale _ _ hFailed =>
          rw [hFailed] at hSuccess
          cases hSuccess
      | good => rfl
      | covered => rfl
      | fixed => rfl
      | rejected => cases hSuccess
  | election => simp at hMem
  | sync => simp at hMem
  | _ => simp at hMem

theorem acksBacked_of_reachable
    {c : Cluster C n}
    (hReach : (system C n).Reachable ok c) :
    c.AcksBacked := by
  refine System.Reachable.induct
    (P := fun c : Cluster C n => c.AcksBacked) ?_ ?_ hReach
  · intro c hInit
    rw [system_init_iff] at hInit
    subst hInit
    intro j args reply hMem
    cases hMem
  · rintro c ⟨i, event⟩ c' hReach ih _ hStep
    have hRf := persisted hReach i
    rcases system_step_cases hStep with
      ⟨nd', effects, hDeliver, hNode, rfl⟩
    have hRaft := Node.step_raftStep hNode
    intro j args reply hMem hSuccess
    rcases mem_trace_iff.mp hMem with hOld | ⟨rfl, hNew⟩
    · rcases ih j args reply hOld hSuccess with
        ⟨hTerm, k, hSent⟩
      refine ⟨?_, k, mem_trace_iff.mpr (Or.inl hSent)⟩
      dsimp only
      by_cases hj : j = i
      · subst hj
        rw [Function.update_self]
        exact le_trans hTerm (hRaft.term_mono hRf)
      · rw [Function.update_of_ne hj]
        exact hTerm
    · rcases ack_of_effect hRaft hNew hSuccess with
        ⟨rfl, hTerm, _⟩
      rcases deliverable_appendEntries.mp hDeliver with
        ⟨k, hSent⟩
      dsimp only
      rw [Function.update_self]
      exact ⟨le_of_eq hTerm.symm, k,
        mem_trace_iff.mpr (Or.inl hSent)⟩

/-
  Server `j` accepted the first `m` entries of the log of
  the leader of `t`. The first entry of all logs counts as
  accepted in term 1.
-/
def Accepted
    (c : Cluster C n)
    (g : LogHistory C n)
    (j : Fin n)
    (t : Int)
    (m : Nat) : Prop :=
  (∃ args reply, (j, .appendReply args reply) ∈ c.trace ∧
    reply.success = true ∧ args.term = t ∧
    (m : Int) ≤
      args.prevLogIndex + 1 + args.entries.length) ∨
  (c.Won j t ∧ m ≤ (g.leaderLog t).length) ∨
  (t = 1 ∧ m ≤ 1)

/- Replication in the cluster. -/
def replication
    (c : Cluster C n)
    (g : LogHistory C n) :
    Replication n (LogEntry C) Int where
  term := LogEntry.term
  leaderLog := g.leaderLog
  current := fun j => (c.nodes j).rf.currentTerm
  accepted := c.Accepted g

/-
  The run conditions for replication: those for the history,
  and elections are won in their own terms.
-/
structure ReplicationKept
    (ok : Cluster C n → Fin n × Event C n → Prop) :
    Prop extends LogsKept ok where
  wins :
    ∀ c a, ok c a → (c.nodes a.1).winsOwnTerm a.2 = true

section Reached

variable {c : Cluster C n}
variable {g : LogHistory C n}

theorem won_gt_one
    (hKept : ReplicationKept ok)
    (hReach : (system C n).Reachable ok c)
    {i : Fin n}
    {t : Int}
    (hWon : c.Won i t) :
    1 < t :=
  (ownElections_of_reachable hKept.wins hReach i).won_gt t
    hWon

theorem leaderLog_one
    (hKept : ReplicationKept ok)
    (hHistory : (logSystem C n).Reachable
      (fun p a => ok p.1 a) (c, g)) :
    g.leaderLog 1 = [startEntry] := by
  have hLed := logsLed_of_reachable hKept.toLogsKept hHistory
  rw [hLed.unled]
  · rfl
  · intro i hWon
    have hGt := won_gt_one hKept hHistory.forget_history hWon
    omega

/- What is accepted is there, and of a term gone by. -/
theorem Accepted.bounds
    (hKept : ReplicationKept ok)
    (hHistory : (logSystem C n).Reachable
      (fun p a => ok p.1 a) (c, g))
    {j : Fin n}
    {t : Int}
    {m : Nat}
    (hAccepted : c.Accepted g j t m) :
    m ≤ (g.leaderLog t).length ∧
      t ≤ (c.nodes j).rf.currentTerm := by
  have hReach : (system C n).Reachable ok c :=
    hHistory.forget_history
  have hLed := logsLed_of_reachable hKept.toLogsKept hHistory
  have hOwn := ownElections_of_reachable hKept.wins hReach j
  rcases hAccepted with
    ⟨args, reply, hMem, hSuccess, rfl, hLe⟩ |
    ⟨hWon, hLe⟩ | ⟨rfl, hLe⟩
  · rcases acksBacked_of_reachable hReach j args reply hMem
      hSuccess with ⟨hTerm, k, hSent⟩
    rcases (hLed.appends k j args hSent).append_eq with
      ⟨p, l, _, _, hLength, hEnd, _⟩
    dsimp only at hLength
    exact ⟨by omega, hTerm⟩
  · exact ⟨hLe, hOwn.won_le t hWon⟩
  · rw [leaderLog_one hKept hHistory]
    exact ⟨hLe, hOwn.term_pos⟩

end Reached

namespace HistoryStep

variable {c : Cluster C n}
variable {g : LogHistory C n}
variable {i : Fin n}
variable {event : Event C n}
variable {nd' : Node C n}
variable {effects : List (Effect C n)}

section Basic

variable (hStep : HistoryStep ok c g i event nd' effects)

include hStep

theorem led (hKept : LogsKept ok) : LogsLed c g :=
  logsLed_of_reachable hKept hStep.history

theorem led_after (hKept : LogsKept ok) :
    LogsLed (c.after i nd' effects)
      (g.after i event (c.nodes i).rf nd'.rf) :=
  logsLed_of_reachable hKept hStep.history_after

theorem fresh
    (hKept : LogsKept ok)
    {t : Int}
    (hMem : (.elected t : Effect C n) ∈ effects)
    (j : Fin n) :
    ¬ c.Won j t :=
  hKept.fresh c _ i event nd' effects t hStep.reach
    hStep.accepted hStep.next hStep.node hMem j

theorem grows (hKept : LogsKept ok) :
    Grows g.leaderLog
      (g.after i event (c.nodes i).rf nd'.rf).leaderLog :=
  (hStep.led hKept).grows_step (persisted hStep.reach i)
    hStep.deliver hStep.node
    (hKept.keeps c _ hStep.accepted)
    (hKept.fixes c _ hStep.accepted)
    (fun _ hMem => hStep.fresh hKept hMem)

/- Only the log of the server's own term changes. -/
theorem leaderLog_eq
    (hKept : LogsKept ok)
    {j : Fin n}
    {t : Int}
    (hWon : (c.after i nd' effects).Won j t)
    (hOther : j = i → nd'.rf.currentTerm ≠ t) :
    (g.after i event (c.nodes i).rf nd'.rf).leaderLog t =
      g.leaderLog t := by
  apply LogHistory.leaderLogAfter_other
  rintro hLeader rfl
  have hElected :=
    leadersElected_of_reachable hKept.keeps hStep.reach_after
  have hOwn : (c.after i nd' effects).LeaderOf i
      nd'.rf.currentTerm := by
    unfold LeaderOf
    rw [after_nodes_self]
    exact ⟨hLeader, rfl⟩
  have hEq := (hStep.led_after hKept).won_unique j i _ hWon
    (hElected i _ hOwn)
  exact hOther hEq rfl

/- Every step of the cluster is a step of replication. -/
theorem replication_step (hKept : LogsKept ok) :
    Replication.Step (c.replication g)
      ((c.after i nd' effects).replication
        (g.after i event (c.nodes i).rf nd'.rf)) where
  term_eq := rfl
  grows := hStep.grows hKept
  current_le := hStep.term_le
  accepted_mono := by
    intro j t m hAccepted
    rcases hAccepted with
      ⟨args, reply, hMem, hRest⟩ | ⟨hWon, hLe⟩ | hStart
    · exact Or.inl
        ⟨args, reply, trace_subset_after hMem, hRest⟩
    · exact Or.inr (Or.inl ⟨trace_subset_after hWon,
        le_trans hLe (hStep.grows hKept t).length_le⟩)
    · exact Or.inr (Or.inr hStart)
  accepted_new := by
    intro j t m hAccepted
    rcases hAccepted with
      ⟨args, reply, hMem, hSuccess, hTerm, hLe⟩ |
      ⟨hWon, hLe⟩ | hStart
    · rcases mem_after_trace.mp hMem with hOld | ⟨rfl, hNew⟩
      · exact Or.inl
          (Or.inl ⟨args, reply, hOld, hSuccess, hTerm, hLe⟩)
      · right
        have hNow :=
          (ack_of_effect hStep.raftStep hNew hSuccess).2.1
        change ((c.after j nd' effects).nodes j).rf.currentTerm
          ≤ t
        rw [after_nodes_self]
        omega
    · by_cases hj : j = i ∧ nd'.rf.currentTerm = t
      · right
        rcases hj with ⟨rfl, rfl⟩
        change ((c.after j nd' effects).nodes j).rf.currentTerm
          ≤ nd'.rf.currentTerm
        rw [after_nodes_self]
      · left
        have hOther : j = i → nd'.rf.currentTerm ≠ t :=
          fun hEq hSame => hj ⟨hEq, hSame⟩
        rw [hStep.leaderLog_eq hKept hWon hOther] at hLe
        refine Or.inr (Or.inl ⟨?_, hLe⟩)
        rcases mem_after_trace.mp hWon with hOld | ⟨rfl, hNew⟩
        · exact hOld
        · -- the term just won is the server's own
          exact absurd
            (hStep.raftStep.leader_of_elected hNew).2
            (hOther rfl)
    · exact Or.inl (Or.inr (Or.inr hStart))

end Basic

end HistoryStep

end Cluster

end RaftLab
