import RaftLab.Lib.Transition
import RaftLab.Shardkv.NodeCases

/-
  The shard controller and all groups of shardkv servers.

  A group has the log its servers share, as far as any server
  has been delivered it, and the entries handed to Raft. What
  was sent between groups is kept: a pull reply and a
  DeleteShards request may arrive late, several times or not
  at all. The servers named for a gid in a configuration are
  those of that group. Uids come from nrand and are distinct.

  Main declarations:
    * `Shardkv.Group`, `Shardkv.Cluster`, `Shardkv.Action`
    * `Shardkv.Cluster.system`
    * `Shardkv.ClusterStep`, `Shardkv.Cluster.step_cases`
    * `Shardkv.Cluster.Extends`,
      `Shardkv.Cluster.extends_of_step`
-/

------------------------------------------------------------
-- Clusters
------------------------------------------------------------

namespace RaftLab

namespace Shardkv

open Shardctrler (Shard Config)

/- A group whose servers are named by `I`. -/
structure Group (I : Type) where
  log : List Op
  started : List (Nat × Op)
  nodes : I → Option Node

/- A DeleteShards request that was sent. -/
structure Deletion where
  sender : Int
  target : Int
  request : Request

structure Cluster (I : Type) where
  configs : List Config
  groups : Int → Group I
  pulls : List PullRecord
  deletes : List Deletion
  answers : List Answer
  -- the uids given out, with the group of the server
  uids : List (Int × Int)

inductive Action (I : Type) where
  -- the controller executes an operation
  | control (op : Shardctrler.Op)
  -- a server starts, for the first time or after a crash
  | start (gid : Int) (i : I) (uid : Int)
  -- a request of a client, or a sent deletion, arrives
  | client (gid : Int) (i : I) (request : Request)
  | deletion (d : Nat) (i : I)
  | node (gid : Int) (i : I) (event : Event)

------------------------------------------------------------
-- Effects
------------------------------------------------------------

def commitsOf (effects : List Effect) : List Op :=
  effects.filterMap fun
    | .commit op => some op
    | _ => none

def startsOf (effects : List Effect) : List (Nat × Op) :=
  effects.filterMap fun
    | .start index op => some (index, op)
    | _ => none

def pullsOf (gid : Int) (effects : List Effect) :
    List PullRecord :=
  effects.filterMap fun
    | .pulled args reply => some ⟨gid, args, reply⟩
    | _ => none

def deletionsOf (gid : Int) (effects : List Effect) :
    List Deletion :=
  effects.filterMap fun
    | .delete target request => some ⟨gid, target, request⟩
    | _ => none

def answersOf (gid : Int) (effects : List Effect) :
    List Answer :=
  effects.filterMap fun
    | .answer request reply => some ⟨gid, request, reply⟩
    | _ => none

namespace Cluster

variable {I : Type}

------------------------------------------------------------
-- Steps
------------------------------------------------------------

/- What a server of group `gid` reads. -/
def world (c : Cluster I) (gid : Int) : World where
  gid := gid
  configs := c.configs
  log := (c.groups gid).log
  started := (c.groups gid).started
  pulls := c.pulls
  answers := c.answers

variable [DecidableEq I]

/- A server has taken a step. -/
def after
    (c : Cluster I)
    (gid : Int)
    (i : I)
    (nd : Node)
    (effects : List Effect) : Cluster I where
  configs := c.configs
  groups := Function.update c.groups gid {
    log := (c.groups gid).log ++ commitsOf effects
    started := (c.groups gid).started ++ startsOf effects
    nodes := Function.update (c.groups gid).nodes i
      (some nd) }
  pulls := c.pulls ++ pullsOf gid effects
  deletes := c.deletes ++ deletionsOf gid effects
  answers := c.answers ++ answersOf gid effects
  uids := c.uids

/- A request arrives at a server. -/
def arrive
    (c : Cluster I)
    (gid : Int)
    (i : I)
    (request : Request) : Option (Cluster I) :=
  ((c.groups gid).nodes i).map fun nd =>
    c.after gid i (nd.receive request) []

def step : Action I → Cluster I → Option (Cluster I)
| .control op, c =>
    (Shardctrler.applyOp c.configs op).map fun configs =>
      { c with configs := configs }
| .start gid i uid, c =>
    if gid ≠ 0 ∧ uid < 0 ∧
        c.uids.all (fun entry =>
          decide (entry.1 ≠ uid)) = true then
      some { c.after gid i (Node.start gid uid) [] with
        uids := c.uids ++ [(uid, gid)] }
    else
      none
| .client gid i request, c =>
    if 0 ≤ request.id ∧ request.args.ofClient = true then
      c.arrive gid i request
    else
      none
| .deletion d i, c =>
    c.deletes[d]?.bind fun deletion =>
      c.arrive deletion.target i deletion.request
| .node gid i event, c =>
    ((c.groups gid).nodes i).bind fun nd =>
      (nd.step (c.world gid) event).map fun result =>
        c.after gid i result.1 result.2

/- Nothing has happened and no server runs. -/
def empty : Cluster I where
  configs := [Config.zero]
  groups := fun _ => {
    log := []
    started := []
    nodes := fun _ => none }
  pulls := []
  deletes := []
  answers := []
  uids := []

def system : System (Cluster I) (Action I) where
  init c := c = empty
  step := step

end Cluster

------------------------------------------------------------
-- What A Step Of The Cluster Can Do
------------------------------------------------------------

variable {I : Type} [DecidableEq I]

/- The requests that may arrive at a group. -/
def Cluster.Arrives
    (c : Cluster I)
    (gid : Int)
    (request : Request) : Prop :=
  (0 ≤ request.id ∧ request.args.ofClient = true) ∨
    ∃ sender, ⟨sender, gid, request⟩ ∈ c.deletes

inductive ClusterStep (c : Cluster I) : Cluster I → Prop
  | control
      (op : Shardctrler.Op) (configs : List Config)
      (hApply : Shardctrler.applyOp c.configs op =
        some configs) :
      ClusterStep c { c with configs := configs }
  | start
      (gid : Int) (i : I) (uid : Int)
      (hGid : gid ≠ 0)
      (hNeg : uid < 0)
      (hFresh : ∀ entry ∈ c.uids, entry.1 ≠ uid) :
      ClusterStep c
        { c.after gid i (Node.start gid uid) [] with
          uids := c.uids ++ [(uid, gid)] }
  | receive
      (gid : Int) (i : I) (nd : Node) (request : Request)
      (hNode : (c.groups gid).nodes i = some nd)
      (hArrives : c.Arrives gid request) :
      ClusterStep c (c.after gid i (nd.receive request) [])
  | node
      (gid : Int) (i : I) (nd nd' : Node)
      (effects : List Effect)
      (hNode : (c.groups gid).nodes i = some nd)
      (hStep : NodeStep (c.world gid) nd nd' effects) :
      ClusterStep c (c.after gid i nd' effects)

namespace Cluster

theorem arrive_cases
    {c c' : Cluster I}
    {gid : Int}
    {i : I}
    {request : Request}
    (hArrives : c.Arrives gid request)
    (hStep : c.arrive gid i request = some c') :
    ClusterStep c c' := by
  unfold arrive at hStep
  rcases Option.map_eq_some_iff.mp hStep with
    ⟨nd, hNode, rfl⟩
  exact .receive gid i nd request hNode hArrives

theorem step_cases
    {c c' : Cluster I}
    {action : Action I}
    (hStep : system.step action c = some c') :
    ClusterStep c c' := by
  change step action c = some c' at hStep
  cases action with
  | control op =>
      rcases Option.map_eq_some_iff.mp hStep with
        ⟨configs, hApply, rfl⟩
      exact .control op configs hApply
  | start gid i uid =>
      dsimp only [step] at hStep
      split at hStep
      · next hGuard =>
          rcases hGuard with ⟨hGid, hNeg, hAll⟩
          cases hStep
          refine .start gid i uid hGid hNeg ?_
          intro entry hMem
          have hNe := List.all_eq_true.mp hAll entry hMem
          exact of_decide_eq_true hNe
      · cases hStep
  | client gid i request =>
      dsimp only [step] at hStep
      split at hStep
      · next hClient =>
          exact arrive_cases (Or.inl hClient) hStep
      · cases hStep
  | deletion d i =>
      rcases Option.bind_eq_some_iff.mp hStep with
        ⟨⟨sender, target, request⟩, hMem, hArrive⟩
      apply arrive_cases _ hArrive
      exact Or.inr ⟨sender, List.mem_of_getElem? hMem⟩
  | node gid i event =>
      rcases Option.bind_eq_some_iff.mp hStep with
        ⟨nd, hNode, hMap⟩
      rcases Option.map_eq_some_iff.mp hMap with
        ⟨⟨nd', effects⟩, hNext, rfl⟩
      exact .node gid i nd nd' effects hNode
        (Node.step_cases hNext)

/- A reachable cluster with a property, by execution. -/
theorem exists_reachable_of_exec
    {actions : List (Action I)}
    {p : Cluster I → Bool}
    (hExec : (system.exec actions empty).any p = true) :
    ∃ c, system.Reachable System.always c ∧ p c = true := by
  rcases System.exists_run_of_exec hExec with
    ⟨c, hRun, hProp⟩
  exact ⟨c, ⟨empty, rfl, hRun⟩, hProp⟩

/- The same for runs that meet a condition. -/
theorem exists_reachable_of_execOk
    {ok : Cluster I → Action I → Bool}
    {actions : List (Action I)}
    {p : Cluster I → Bool}
    (hExec : (system.execOk ok actions empty).any p = true) :
    ∃ c,
      system.Reachable (fun c a => ok c a = true) c ∧
      p c = true := by
  rcases System.exists_run_of_execOk hExec with
    ⟨c, hRun, hProp⟩
  exact ⟨c, ⟨empty, rfl, hRun⟩, hProp⟩

------------------------------------------------------------
-- Reading A Cluster After A Step
------------------------------------------------------------

section After

variable (c : Cluster I) (gid : Int) (i : I) (nd : Node)
variable (effects : List Effect)

@[simp]
theorem after_configs :
    (c.after gid i nd effects).configs = c.configs :=
  rfl

@[simp]
theorem after_log :
    ((c.after gid i nd effects).groups gid).log =
      (c.groups gid).log ++ commitsOf effects := by
  simp [after]

@[simp]
theorem after_started :
    ((c.after gid i nd effects).groups gid).started =
      (c.groups gid).started ++ startsOf effects := by
  simp [after]

@[simp]
theorem after_nodes_self :
    ((c.after gid i nd effects).groups gid).nodes i =
      some nd := by
  simp [after]

theorem after_nodes_of_ne
    {j : I}
    (hNe : j ≠ i) :
    ((c.after gid i nd effects).groups gid).nodes j =
      (c.groups gid).nodes j := by
  simp [after, hNe]

theorem after_groups_of_ne
    {gid' : Int}
    (hNe : gid' ≠ gid) :
    (c.after gid i nd effects).groups gid' =
      c.groups gid' := by
  unfold after
  exact Function.update_of_ne hNe ..

@[simp]
theorem after_pulls :
    (c.after gid i nd effects).pulls =
      c.pulls ++ pullsOf gid effects :=
  rfl

@[simp]
theorem after_deletes :
    (c.after gid i nd effects).deletes =
      c.deletes ++ deletionsOf gid effects :=
  rfl

@[simp]
theorem after_answers :
    (c.after gid i nd effects).answers =
      c.answers ++ answersOf gid effects :=
  rfl

end After

/- The log of a group only grows. -/
theorem after_log_eq
    (c : Cluster I)
    (gid gid' : Int)
    (i : I)
    (nd : Node)
    (effects : List Effect) :
    ((c.after gid i nd effects).groups gid').log =
      (c.groups gid').log ++
        if gid' = gid then commitsOf effects else [] := by
  by_cases hGid : gid' = gid
  · subst hGid
    rw [if_pos rfl, after_log]
  · rw [if_neg hGid, List.append_nil,
      after_groups_of_ne _ _ _ _ _ hGid]

theorem mem_after_started
    {c : Cluster I}
    {gid gid' : Int}
    {i : I}
    {nd : Node}
    {effects : List Effect}
    {entry : Nat × Op} :
    entry ∈
        ((c.after gid i nd effects).groups gid').started ↔
      entry ∈ (c.groups gid').started ∨
        (gid' = gid ∧ entry ∈ startsOf effects) := by
  by_cases hGid : gid' = gid
  · subst hGid
    rw [after_started, List.mem_append]
    simp
  · rw [after_groups_of_ne _ _ _ _ _ hGid]
    simp [hGid]

@[simp]
theorem after_nil_log
    (c : Cluster I)
    (gid gid' : Int)
    (i : I)
    (nd : Node) :
    ((c.after gid i nd []).groups gid').log =
      (c.groups gid').log := by
  rw [after_log_eq]
  split <;> simp [commitsOf]

@[simp]
theorem mem_after_nil_started
    {c : Cluster I}
    {gid gid' : Int}
    {i : I}
    {nd : Node}
    {entry : Nat × Op} :
    entry ∈ ((c.after gid i nd []).groups gid').started ↔
      entry ∈ (c.groups gid').started := by
  rw [mem_after_started]
  simp [startsOf]

/- A node that runs after a step ran before, or just moved. -/
theorem node_of_after
    {c : Cluster I}
    {gid gid' : Int}
    {i j : I}
    {nd nd' : Node}
    {effects : List Effect}
    (hNode : ((c.after gid i nd effects).groups gid').nodes j =
      some nd') :
    (gid' = gid ∧ j = i ∧ nd' = nd) ∨
      ((c.groups gid').nodes j = some nd' ∧
        ¬ (gid' = gid ∧ j = i)) := by
  by_cases hGid : gid' = gid
  · subst hGid
    by_cases hI : j = i
    · subst hI
      rw [after_nodes_self] at hNode
      left
      exact ⟨rfl, rfl, (Option.some.inj hNode).symm⟩
    · rw [after_nodes_of_ne _ _ _ _ _ hI] at hNode
      right
      exact ⟨hNode, fun hBoth => hI hBoth.2⟩
  · rw [after_groups_of_ne _ _ _ _ _ hGid] at hNode
    right
    exact ⟨hNode, fun hBoth => hGid hBoth.1⟩

------------------------------------------------------------
-- What Only Grows
------------------------------------------------------------

/- The histories, the logs and what was sent. -/
structure Extends (c c' : Cluster I) : Prop where
  configs : ∃ more, c'.configs = c.configs ++ more
  log : ∀ gid, ∃ ops,
    (c'.groups gid).log = (c.groups gid).log ++ ops
  pulls : ∀ record ∈ c.pulls, record ∈ c'.pulls
  deletes : ∀ deletion ∈ c.deletes, deletion ∈ c'.deletes
  uids : ∀ entry ∈ c.uids, entry ∈ c'.uids

omit [DecidableEq I] in
theorem Extends.refl (c : Cluster I) : c.Extends c where
  configs := ⟨[], by simp⟩
  log _ := ⟨[], by simp⟩
  pulls _ hMem := hMem
  deletes _ hMem := hMem
  uids _ hMem := hMem

omit [DecidableEq I] in
theorem Extends.getElem?_configs
    {c c' : Cluster I}
    (hExtends : c.Extends c')
    {k : Nat}
    {config : Config}
    (hAt : c.configs[k]? = some config) :
    c'.configs[k]? = some config := by
  rcases hExtends.configs with ⟨more, hMore⟩
  rw [hMore, List.getElem?_append_left
    (List.getElem?_eq_some_iff.mp hAt).1]
  exact hAt

omit [DecidableEq I] in
theorem Extends.length_log
    {c c' : Cluster I}
    (hExtends : c.Extends c')
    (gid : Int) :
    (c.groups gid).log.length ≤
      (c'.groups gid).log.length := by
  rcases hExtends.log gid with ⟨ops, hOps⟩
  rw [hOps, List.length_append]
  omega

omit [DecidableEq I] in
theorem Extends.stateAt
    {c c' : Cluster I}
    (hExtends : c.Extends c')
    {gid : Int}
    {n : Nat}
    (hLe : n ≤ (c.groups gid).log.length) :
    Shardkv.stateAt gid (c'.groups gid).log n =
      Shardkv.stateAt gid (c.groups gid).log n := by
  rcases hExtends.log gid with ⟨ops, hOps⟩
  unfold Shardkv.stateAt
  rw [hOps, List.take_append_of_le_length hLe]

theorem extends_after
    (c : Cluster I)
    (gid : Int)
    (i : I)
    (nd : Node)
    (effects : List Effect) :
    c.Extends (c.after gid i nd effects) where
  configs := ⟨[], by simp⟩
  log gid' := ⟨_, c.after_log_eq gid gid' i nd effects⟩
  pulls _ hMem := List.mem_append_left _ hMem
  deletes _ hMem := List.mem_append_left _ hMem
  uids _ hMem := hMem

/- Also when the server has a new uid. -/
theorem extends_start
    (c : Cluster I)
    (gid : Int)
    (i : I)
    (nd : Node)
    (uid : Int) :
    c.Extends { c.after gid i nd [] with
      uids := c.uids ++ [(uid, gid)] } where
  configs := (c.extends_after gid i nd []).configs
  log := (c.extends_after gid i nd []).log
  pulls := (c.extends_after gid i nd []).pulls
  deletes := (c.extends_after gid i nd []).deletes
  uids _ hMem := List.mem_append_left _ hMem

theorem extends_of_step
    {c c' : Cluster I}
    (hStep : ClusterStep c c') :
    c.Extends c' := by
  cases hStep with
  | control op configs hApply =>
      refine ⟨?_, fun gid => ⟨[], by simp⟩, fun _ hMem => hMem,
        fun _ hMem => hMem, fun _ hMem => hMem⟩
      rcases Shardctrler.applyOp_cases hApply with
        rfl | ⟨_, config, _, rfl, _⟩
      · exact ⟨[], by simp⟩
      · exact ⟨[config], rfl⟩
  | start gid i uid hGid hNeg hFresh =>
      exact c.extends_start gid i _ uid
  | receive gid i nd request hNode hArrives =>
      exact c.extends_after gid i _ []
  | node gid i nd nd' effects hNode hStep =>
      exact c.extends_after gid i nd' effects

end Cluster

end Shardkv

end RaftLab
