import RaftLab.Lib.Quorum
import RaftLab.Raft.Server

/-
  A cluster of Raft servers and the network between them.

  The state of the cluster is one node per peer and a trace
  of all effects so far. The trace is also the network: a
  request that was ever sent may be delivered at any later
  time, any number of times or never, and the same holds of
  replies. Restarts and the schedules of all goroutines are
  arbitrary. The service calls `Snapshot` only for a command
  that was delivered to it.

  Main declarations:
    * `Cluster`, `Cluster.deliverable`, `Cluster.system`
    * `Cluster.system_step_cases`
    * `Cluster.server_reachable`
-/

------------------------------------------------------------
-- The System
------------------------------------------------------------

namespace RaftLab

variable {C : Type} {n : Nat}

structure Cluster (C : Type) (n : Nat) where
  nodes : Fin n → Node C n
  trace : List (Fin n × Effect C n)

namespace Cluster

/- All servers freshly made, nothing sent. -/
def initial (C : Type) (n : Nat) : Cluster C n where
  nodes := Node.initial
  trace := []

variable [DecidableEq C]

instance lawfulBEq_traced :
    LawfulBEq (Fin n × Effect C n) :=
  inferInstance

/-
  What the network and the service allow to happen next on
  server `i`.
-/
def deliverable
    (c : Cluster C n)
    (i : Fin n) :
    Event C n → Bool
| .requestVote args =>
    c.trace.any (fun x => decide (x.2 = .requestVote i args))
| .appendEntries args =>
    c.trace.any
      (fun x => decide (x.2 = .appendEntries i args))
| .installSnapshot args =>
    c.trace.any
      (fun x => decide (x.2 = .installSnapshot i args))
| .voteReply k reply =>
    match (c.nodes i).threads[k]? with
    | some (.requestVote _ server args) =>
        decide ((server, .voteReply args reply) ∈ c.trace)
    | _ => false
| .appendReply k reply =>
    match (c.nodes i).threads[k]? with
    | some (.appendEntries _ server args _) =>
        decide ((server, .appendReply args reply) ∈ c.trace)
    | _ => false
| .snapshotReply k reply =>
    match (c.nodes i).threads[k]? with
    | some (.installSnapshot _ server args) =>
        decide
          ((server, .snapshotReply args reply) ∈ c.trace)
    | _ => false
| .takeSnapshot index _ =>
    c.trace.any (fun x =>
      match x with
      | (j, .applyCh msg) =>
          decide (j = i) && msg.commandValid &&
            decide (msg.commandIndex = index)
      | _ => false)
| _ => true

def system (C : Type) [DecidableEq C] (n : Nat) :
    System (Cluster C n) (Fin n × Event C n) where
  init c :=
    (∀ i, Node.make i Persister.makePersister =
      some (c.nodes i)) ∧ c.trace = []
  step a c :=
    if c.deliverable a.1 a.2 then
      ((c.nodes a.1).step a.2).map (fun r =>
        { nodes := Function.update c.nodes a.1 r.1
          trace := c.trace ++ r.2.map (fun e => (a.1, e)) })
    else
      none

theorem system_init_iff
    {c : Cluster C n} :
    (system C n).init c ↔ c = initial C n := by
  constructor
  · rintro ⟨hNodes, hTrace⟩
    cases c with
    | mk nodes trace =>
        have hEq : nodes = Node.initial := by
          funext i
          have hNode := hNodes i
          rw [Node.make_makePersister,
            Option.some.injEq] at hNode
          exact hNode.symm
        subst hEq
        cases hTrace
        rfl
  · rintro rfl
    exact ⟨fun _ => rfl, rfl⟩

theorem initial_reachable
    (ok : Cluster C n → Fin n × Event C n → Prop) :
    (system C n).Reachable ok (initial C n) :=
  System.Reachable.init (system_init_iff.mpr rfl)

------------------------------------------------------------
-- Steps
------------------------------------------------------------

theorem system_step_cases
    {i : Fin n}
    {event : Event C n}
    {c c' : Cluster C n}
    (hStep : (system C n).step (i, event) c = some c') :
    ∃ nd' effects,
      c.deliverable i event = true ∧
      (c.nodes i).step event = some (nd', effects) ∧
      c' =
        { nodes := Function.update c.nodes i nd'
          trace :=
            c.trace ++ effects.map (fun e => (i, e)) } := by
  unfold system at hStep
  dsimp only at hStep
  split at hStep
  · rename_i hDeliver
    rcases Option.map_eq_some_iff.mp hStep with
      ⟨⟨nd', effects⟩, hNode, rfl⟩
    exact ⟨nd', effects, hDeliver, hNode, rfl⟩
  · cases hStep

/-
  The effects of the step of server `i` in the new trace.
-/
omit [DecidableEq C] in
theorem mem_trace_iff
    {c : Cluster C n}
    {i j : Fin n}
    {effect : Effect C n}
    {effects : List (Effect C n)} :
    (j, effect) ∈ c.trace ++ effects.map (fun e => (i, e)) ↔
      (j, effect) ∈ c.trace ∨
        (j = i ∧ effect ∈ effects) := by
  rw [List.mem_append, List.mem_map]
  constructor
  · rintro (hOld | ⟨e, hMem, hEq⟩)
    · exact Or.inl hOld
    · cases hEq
      exact Or.inr ⟨rfl, hMem⟩
  · rintro (hOld | ⟨rfl, hMem⟩)
    · exact Or.inl hOld
    · exact Or.inr ⟨effect, hMem, rfl⟩

theorem deliverable_requestVote
    {c : Cluster C n}
    {i : Fin n}
    {args : RequestVoteArgs} :
    c.deliverable i (.requestVote args) = true ↔
      ∃ j, (j, .requestVote i args) ∈ c.trace := by
  simp [deliverable]

theorem deliverable_appendEntries
    {c : Cluster C n}
    {i : Fin n}
    {args : AppendEntriesArgs C} :
    c.deliverable i (.appendEntries args) = true ↔
      ∃ j, (j, .appendEntries i args) ∈ c.trace := by
  simp [deliverable]

theorem deliverable_installSnapshot
    {c : Cluster C n}
    {i : Fin n}
    {args : InstallSnapshotArgs} :
    c.deliverable i (.installSnapshot args) = true ↔
      ∃ j, (j, .installSnapshot i args) ∈ c.trace := by
  simp [deliverable]

theorem deliverable_voteReply
    {c : Cluster C n}
    {i : Fin n}
    {k : Nat}
    {reply : RequestVoteReply}
    (hDeliver : c.deliverable i (.voteReply k reply) =
      true) :
    ∃ token server args,
      (c.nodes i).threads[k]? =
        some (.requestVote token server args) ∧
      (server, .voteReply args reply) ∈ c.trace := by
  simp only [deliverable] at hDeliver
  split at hDeliver
  · rename_i token server args hThread
    exact ⟨token, server, args, hThread,
      by simpa using hDeliver⟩
  · cases hDeliver

theorem deliverable_appendReply
    {c : Cluster C n}
    {i : Fin n}
    {k : Nat}
    {reply : AppendEntriesReply}
    (hDeliver : c.deliverable i (.appendReply k reply) =
      true) :
    ∃ token server args newNextIndex,
      (c.nodes i).threads[k]? =
        some (.appendEntries token server args
          newNextIndex) ∧
      (server, .appendReply args reply) ∈ c.trace := by
  simp only [deliverable] at hDeliver
  split at hDeliver
  · rename_i token server args newNextIndex hThread
    exact ⟨token, server, args, newNextIndex, hThread,
      by simpa using hDeliver⟩
  · cases hDeliver

theorem deliverable_takeSnapshot
    {c : Cluster C n}
    {i : Fin n}
    {index : Int}
    {snapshot : Bytes}
    (hDeliver :
      c.deliverable i (.takeSnapshot index snapshot) =
        true) :
    ∃ msg, (i, .applyCh msg) ∈ c.trace ∧
      msg.commandValid = true ∧
      msg.commandIndex = index := by
  simp only [deliverable] at hDeliver
  rcases List.any_eq_true.mp hDeliver with
    ⟨⟨j, effect⟩, hMem, hEffect⟩
  cases effect with
  | applyCh msg =>
      simp only [Bool.and_eq_true,
        decide_eq_true_eq] at hEffect
      obtain ⟨⟨rfl, hValid⟩, hIndex⟩ := hEffect
      exact ⟨msg, hMem, hValid, hIndex⟩
  | _ => cases hEffect

------------------------------------------------------------
-- The Life Of One Server In The Cluster
------------------------------------------------------------

/- The history of server `i` within the trace. -/
def server
    (c : Cluster C n)
    (i : Fin n) : Server C n where
  node := c.nodes i
  history :=
    (c.trace.filter (fun x => decide (x.1 = i))).map
      (fun x => x.2)

omit [DecidableEq C] in
theorem mem_server_history
    {c : Cluster C n}
    {i : Fin n}
    {effect : Effect C n} :
    effect ∈ (c.server i).history ↔
      (i, effect) ∈ c.trace := by
  simp [server]

/- Vote requests name their sender as the candidate. -/
def RequestsSigned (c : Cluster C n) : Prop :=
  ∀ i j args, (i, .requestVote j args) ∈ c.trace →
    args.candiateId = (i.val : Int)

/-
  Each server of the cluster lives a life of a single server
  in which candidate ids are peer ids.
-/
theorem server_step
    {i : Fin n}
    {event : Event C n}
    {c c' : Cluster C n}
    (hSigned : c.RequestsSigned)
    (hMe : ∀ j, (c.nodes j).rf.me = j)
    (hStep : (system C n).step (i, event) c = some c') :
    c'.RequestsSigned ∧
      (∀ j, j ≠ i → c'.server j = c.server j) ∧
      Server.PeerIds (c.server i) event ∧
      (Server.system i).step event (c.server i) =
        some (c'.server i) := by
  obtain ⟨nd', effects, hDeliver, hNode, rfl⟩ :=
    system_step_cases hStep
  have hRaft := Node.step_raftStep hNode
  refine ⟨?_, ?_, ?_, ?_⟩
  · intro i' j args hMem
    rcases mem_trace_iff.mp hMem with hOld | ⟨rfl, hNew⟩
    · exact hSigned i' j args hOld
    · have hStart := hRaft.request_of_effect hNew
      rw [(Raft.electionStart_spec hStart).2.2.1, hMe]
  · intro j hj
    have hFilter :
        (effects.map (fun e => (i, e))).filter
          (fun x => decide (x.1 = j)) = [] := by
      rw [List.filter_eq_nil_iff]
      intro x hx
      rcases List.mem_map.mp hx with ⟨e, _, rfl⟩
      simpa using Ne.symm hj
    simp only [server, Function.update_of_ne hj,
      List.filter_append, hFilter, List.append_nil]
  · cases event with
    | requestVote args =>
        obtain ⟨j, hMem⟩ :=
          deliverable_requestVote.mp hDeliver
        have hId := hSigned j i args hMem
        change 0 ≤ args.candiateId
        rw [hId]
        exact Int.natCast_nonneg _
    | _ => trivial
  · have hFilter :
        ((effects.map (fun e => (i, e))).filter
          (fun x => decide (x.1 = i))).map (fun x => x.2) =
            effects := by
      rw [List.filter_eq_self.mpr]
      · rw [List.map_map]
        exact List.map_id effects
      · intro x hx
        rcases List.mem_map.mp hx with ⟨e, _, rfl⟩
        simp
    change ((c.nodes i).step event).map _ = _
    rw [hNode]
    simp only [Option.map_some, server,
      Function.update_self, List.filter_append,
      List.map_append, hFilter]

theorem server_reachable
    {ok : Cluster C n → Fin n × Event C n → Prop}
    {c : Cluster C n}
    (hReach : (system C n).Reachable ok c) :
    c.RequestsSigned ∧
      ∀ i, (Server.system i).Reachable Server.PeerIds
        (c.server i) := by
  refine System.Reachable.induct
    (P := fun c : Cluster C n => c.RequestsSigned ∧
      ∀ i, (Server.system i).Reachable Server.PeerIds
        (c.server i)) ?_ ?_ hReach
  · intro c hInit
    rw [system_init_iff] at hInit
    subst hInit
    refine ⟨by simp [RequestsSigned, initial], ?_⟩
    intro i
    exact System.Reachable.init ⟨rfl, rfl⟩
  · rintro c ⟨i, event⟩ c' _ ⟨hSigned, hServers⟩ _ hStep
    have hMe : ∀ j, (c.nodes j).rf.me = j :=
      fun j => (Server.persisted_of_reachable
        (hServers j)).2
    obtain ⟨hSigned', hOthers, hIds, hServer⟩ :=
      server_step hSigned hMe hStep
    refine ⟨hSigned', ?_⟩
    intro j
    by_cases hj : j = i
    · subst hj
      exact (hServers j).trans
        (System.Run.single hIds hServer)
    · rw [hOthers j hj]
      exact hServers j

section Reached

variable {ok : Cluster C n → Fin n × Event C n → Prop}
variable {c : Cluster C n}

theorem me_eq
    (hReach : (system C n).Reachable ok c)
    (i : Fin n) :
    (c.nodes i).rf.me = i :=
  (Server.persisted_of_reachable
    ((server_reachable hReach).2 i)).2

theorem persisted
    (hReach : (system C n).Reachable ok c)
    (i : Fin n) :
    (c.nodes i).rf.Persisted :=
  (Server.persisted_of_reachable
    ((server_reachable hReach).2 i)).1

/- One vote per term, for every server of the cluster. -/
theorem vote_unique
    (hReach : (system C n).Reachable ok c)
    {i : Fin n}
    {t x y : Int}
    (hx : (i, .vote t x) ∈ c.trace)
    (hy : (i, .vote t y) ∈ c.trace) :
    x = y :=
  (Server.votesBacked_of_reachable
    ((server_reachable hReach).2 i)).unique t x y
      (mem_server_history.mpr hx)
      (mem_server_history.mpr hy)

theorem vote_term_le
    (hReach : (system C n).Reachable ok c)
    {i : Fin n}
    {t x : Int}
    (hVote : (i, .vote t x) ∈ c.trace) :
    t ≤ (c.nodes i).rf.currentTerm :=
  (Server.votesBacked_of_reachable
    ((server_reachable hReach).2 i)).term_le t x
      (mem_server_history.mpr hVote)

end Reached

end Cluster

end RaftLab
