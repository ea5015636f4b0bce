import RaftLab.Shardkv.Delivery

/-
  Runs in which every entry is delivered to a fitting state.

  A run condition may look at the entry that a step delivers
  and at the server it delivers it to. As servers follow the
  log, each entry of a log then meets the condition in the
  state after the entries before it.

  Main declarations:
    * `Shardkv.Cluster.delivering`, `Shardkv.DeliversOnly`
    * `Shardkv.Cluster.log_cases`
    * `Shardkv.entries_of_reachable`
-/

------------------------------------------------------------
-- Deliveries
------------------------------------------------------------

namespace RaftLab

namespace Shardkv

variable {I : Type} [DecidableEq I]

/- The entry that an event delivers to a server. -/
def Event.delivered (w : World) (nd : Node) :
    Event → Option Op
| .apply => w.log[nd.kv.lastApplied.toNat]?
| .commit k => w.started[k]?.map Prod.snd
| _ => none

/- The server and the entry that a step delivers to it. -/
def Cluster.delivering (c : Cluster I) :
    Action I → Option (Int × Node × Op)
| .node gid i event =>
    ((c.groups gid).nodes i).bind fun nd =>
      (event.delivered (c.world gid) nd).map fun op =>
        (gid, nd, op)
| _ => none

/- Effects that are neither a delivery nor an answer. -/
def Silent (effects : List Effect) : Prop :=
  commitsOf effects = [] ∧
    ∀ gid, answersOf gid effects = []

theorem Node.runCall_silent
    {w : World}
    {nd : Node}
    {call call' : Call}
    {step : CallStep}
    {effects : List Effect}
    (hRun : nd.runCall w call step =
      some (.inl (call', effects))) :
    Silent effects := by
  rcases Node.runCall_cases hRun with
    ⟨number, index, _, _, _, hResult⟩ | ⟨_, _, hResult⟩
  · cases hResult
    exact ⟨rfl, fun _ => rfl⟩
  · cases hResult

theorem Node.stepPollCall_silent
    {w : World}
    {nd nd' : Node}
    {step : CallStep}
    {effects : List Effect}
    (hStep : nd.stepPollCall w step = some (nd', effects)) :
    Silent effects := by
  unfold Node.stepPollCall at hStep
  split at hStep
  · rcases Option.map_eq_some_iff.mp hStep with
      ⟨result, hRun, hNext⟩
    rcases result with ⟨call', effects'⟩ | reply
    · cases hNext
      exact Node.runCall_silent hRun
    · cases hNext
      exact ⟨rfl, fun _ => rfl⟩
  · rcases Option.map_eq_some_iff.mp hStep with
      ⟨result, hRun, hNext⟩
    rcases result with ⟨call', effects'⟩ | reply
    · cases hNext
      exact Node.runCall_silent hRun
    · cases hNext
      exact ⟨rfl, fun _ => rfl⟩
  · cases hStep

theorem Node.stepPullCall_silent
    {w : World}
    {nd nd' : Node}
    {k : Nat}
    {step : CallStep}
    {effects : List Effect}
    (hStep : nd.stepPullCall w k step =
      some (nd', effects)) :
    Silent effects := by
  unfold Node.stepPullCall at hStep
  split at hStep
  · split at hStep
    · split at hStep
      · rcases Option.map_eq_some_iff.mp hStep with
          ⟨result, hRun, hNext⟩
        rcases result with ⟨call', effects'⟩ | reply
        · cases hNext
          exact Node.runCall_silent hRun
        · dsimp only at hNext
          split at hNext
          · cases hNext
            exact ⟨rfl, fun _ => rfl⟩
          · cases hNext
            exact ⟨rfl, fun _ => rfl⟩
      · cases hStep
    · cases hStep
  · cases hStep

theorem Node.stepHandler_effects
    {w : World}
    {nd nd' : Node}
    {k : Nat}
    {step : CallStep}
    {effects : List Effect}
    (hStep : nd.stepHandler w k step =
      some (nd', effects)) :
    Silent effects ∨
      ∃ call reply,
        nd.handlers[k]? = some call ∧
        call.step nd.kv nd.dead step =
          some (.returned (some reply)) ∧
        effects = [.answer call.request reply] := by
  unfold Node.stepHandler at hStep
  rcases Option.bind_eq_some_iff.mp hStep with
    ⟨call, hCall, hMap⟩
  rcases Option.map_eq_some_iff.mp hMap with
    ⟨result, hRun, hNext⟩
  rcases result with ⟨call', effects'⟩ | reply
  · cases hNext
    exact Or.inl (Node.runCall_silent hRun)
  · have hReturned : call.step nd.kv nd.dead step =
        some (.returned reply) := by
      rcases Node.runCall_cases hRun with
        ⟨_, _, _, _, _, hResult⟩ | ⟨_, hReturned, hResult⟩
      · cases hResult
      · cases hResult
        exact hReturned
    cases reply with
    | none =>
        cases hNext
        exact Or.inl ⟨rfl, fun _ => rfl⟩
    | some reply =>
        cases hNext
        exact Or.inr ⟨call, reply, hCall, hReturned, rfl⟩

/- Only handlers answer, and only `commit` delivers. -/
theorem Node.step_silent
    {w : World}
    {nd nd' : Node}
    {event : Event}
    {effects : List Effect}
    (hStep : nd.step w event = some (nd', effects)) :
    (∃ k step, event = .handler k step) ∨
      (∃ k, event = .commit k) ∨ Silent effects := by
  cases event with
  | handler k step => exact Or.inl ⟨k, step, rfl⟩
  | commit k => exact Or.inr (Or.inl ⟨k, rfl⟩)
  | pollCall step =>
      exact Or.inr (Or.inr (Node.stepPollCall_silent hStep))
  | pullCall k step =>
      exact Or.inr (Or.inr (Node.stepPullCall_silent hStep))
  | requestMapAndSession isLeader args =>
      cases hStep
      exact Or.inr (Or.inr ⟨rfl, fun _ => rfl⟩)
  | deleteSend k =>
      have hCases : effects = [] ∨
          ∃ target request,
            effects = [.delete target request] := by
        simp only [Node.step, Node.stepDeleteSend] at hStep
        grind
      right
      right
      rcases hCases with rfl | ⟨target, request, rfl⟩
      · exact ⟨rfl, fun _ => rfl⟩
      · exact ⟨rfl, fun _ => rfl⟩
  | _ =>
      -- The others show nothing at all.
      have hNone : effects = [] := by
        simp only [Node.step, Node.stepQuery, Node.stepNext,
          Node.stepLock, Node.stepWait, Node.stepPullReply,
          Node.stepPullLock, Node.stepPullStop,
          Node.stepDeleteReply, Node.stepDeleteStop,
          Node.stepApply, Node.stepInstall] at hStep
        grind [Option.map_eq_some_iff]
      subst hNone
      exact Or.inr (Or.inr ⟨rfl, fun _ => rfl⟩)

theorem Node.step_commit
    {w : World}
    {nd nd' : Node}
    {event : Event}
    {op : Op}
    (hStep : nd.step w event = some (nd', [.commit op])) :
    event.delivered w nd = some op := by
  rcases Node.step_silent hStep with
    ⟨k, step, rfl⟩ | ⟨k, rfl⟩ | ⟨hNone, _⟩
  · rcases Node.stepHandler_effects hStep with
      hSilent | ⟨call, reply, _, _, hOne⟩
    · cases hSilent.1
    · cases hOne
  · change nd.stepCommit w k = _ at hStep
    unfold Node.stepCommit at hStep
    rcases Option.bind_eq_some_iff.mp hStep with
      ⟨entry, hEntry, hGuard⟩
    split at hGuard
    · cases hGuard
      change w.started[k]?.map Prod.snd = _
      rw [hEntry]
      rfl
    · cases hGuard
  · cases hNone

/- The answer that an event gives. -/
theorem Node.step_answers
    {w : World}
    {nd nd' : Node}
    {event : Event}
    {effects : List Effect}
    (hStep : nd.step w event = some (nd', effects))
    (gid : Int) :
    answersOf gid effects = [] ∨
      ∃ k step call reply,
        event = .handler k step ∧
        nd.handlers[k]? = some call ∧
        call.step nd.kv nd.dead step =
          some (.returned (some reply)) ∧
        answersOf gid effects =
          [⟨gid, call.request, reply⟩] := by
  rcases Node.step_silent hStep with
    ⟨k, step, rfl⟩ | ⟨k, rfl⟩ | ⟨_, hNone⟩
  · rcases Node.stepHandler_effects hStep with
      hSilent | ⟨call, reply, hCall, hReturned, rfl⟩
    · exact Or.inl (hSilent.2 gid)
    · exact Or.inr ⟨k, step, call, reply, rfl, hCall,
        hReturned, rfl⟩
  · left
    change nd.stepCommit w k = _ at hStep
    unfold Node.stepCommit at hStep
    rcases Option.bind_eq_some_iff.mp hStep with
      ⟨entry, _, hGuard⟩
    split at hGuard
    · cases hGuard
      rfl
    · cases hGuard
  · exact Or.inl (hNone gid)

/- A step leaves the logs alone or delivers a new entry. -/
theorem Cluster.log_cases
    {c c' : Cluster I}
    {action : Action I}
    (hStep : Cluster.system.step action c = some c') :
    (∀ gid, (c'.groups gid).log = (c.groups gid).log) ∨
      ∃ gid i nd op,
        (c.groups gid).nodes i = some nd ∧
        c.delivering action = some (gid, nd, op) ∧
        nd.kv.lastApplied = (c.groups gid).log.length ∧
        ((c.groups gid).log.length + 1, op) ∈
          (c.groups gid).started ∧
        ∀ gid', (c'.groups gid').log =
          (c.groups gid').log ++
            if gid' = gid then [op] else [] := by
  cases action with
  | control op =>
      left
      rcases Option.map_eq_some_iff.mp hStep with
        ⟨configs, _, rfl⟩
      exact fun gid => rfl
  | start gid i uid =>
      left
      dsimp only [Cluster.system, Cluster.step] at hStep
      split at hStep
      · cases hStep
        intro gid'
        exact Cluster.after_nil_log c gid gid' i _
      · cases hStep
  | client gid i request =>
      left
      dsimp only [Cluster.system, Cluster.step,
        Cluster.arrive] at hStep
      split at hStep
      · rcases Option.map_eq_some_iff.mp hStep with
          ⟨nd, _, rfl⟩
        intro gid'
        exact Cluster.after_nil_log c gid gid' i _
      · cases hStep
  | deletion d i =>
      left
      rcases Option.bind_eq_some_iff.mp hStep with
        ⟨deletion, _, hArrive⟩
      rcases Option.map_eq_some_iff.mp hArrive with
        ⟨nd, _, rfl⟩
      intro gid'
      exact Cluster.after_nil_log c deletion.target gid' i _
  | node gid i event =>
      rcases Option.bind_eq_some_iff.mp hStep with
        ⟨nd, hNode, hMap⟩
      rcases Option.map_eq_some_iff.mp hMap with
        ⟨⟨nd', effects⟩, hNext, rfl⟩
      rcases (Node.step_cases hNext).commits_cases with
        hNone | ⟨op, hEntry, hApplied, _, rfl⟩
      · left
        intro gid'
        dsimp only
        rw [Cluster.after_log_eq, hNone]
        split <;> simp
      · right
        refine ⟨gid, i, nd, op, hNode, ?_, hApplied, hEntry,
          ?_⟩
        · dsimp only [Cluster.delivering]
          rw [hNode, Option.bind_some,
            Node.step_commit hNext]
          rfl
        · intro gid'
          exact Cluster.after_log_eq c gid gid' i nd' _

/- A step answers nothing, or lets a handler return. -/
theorem Cluster.answers_cases
    {c c' : Cluster I}
    {action : Action I}
    (hStep : Cluster.system.step action c = some c') :
    c'.answers = c.answers ∨
      ∃ gid i k step nd call reply,
        action = .node gid i (.handler k step) ∧
        (c.groups gid).nodes i = some nd ∧
        nd.handlers[k]? = some call ∧
        call.step nd.kv nd.dead step =
          some (.returned (some reply)) ∧
        c'.answers =
          c.answers ++ [⟨gid, call.request, reply⟩] := by
  cases action with
  | control op =>
      left
      rcases Option.map_eq_some_iff.mp hStep with
        ⟨configs, _, rfl⟩
      rfl
  | start gid i uid =>
      left
      dsimp only [Cluster.system, Cluster.step] at hStep
      split at hStep
      · cases hStep
        exact List.append_nil _
      · cases hStep
  | client gid i request =>
      left
      dsimp only [Cluster.system, Cluster.step,
        Cluster.arrive] at hStep
      split at hStep
      · rcases Option.map_eq_some_iff.mp hStep with
          ⟨nd, _, rfl⟩
        exact List.append_nil _
      · cases hStep
  | deletion d i =>
      left
      rcases Option.bind_eq_some_iff.mp hStep with
        ⟨deletion, _, hArrive⟩
      rcases Option.map_eq_some_iff.mp hArrive with
        ⟨nd, _, rfl⟩
      exact List.append_nil _
  | node gid i event =>
      rcases Option.bind_eq_some_iff.mp hStep with
        ⟨nd, hNode, hMap⟩
      rcases Option.map_eq_some_iff.mp hMap with
        ⟨⟨nd', effects⟩, hNext, rfl⟩
      rcases Node.step_answers hNext gid with
        hNone | ⟨k, step, call, reply, rfl, hCall, hReturned,
          hOne⟩
      · left
        dsimp only
        rw [Cluster.after_answers, hNone, List.append_nil]
      · right
        refine ⟨gid, i, k, step, nd, call, reply, rfl, hNode,
          hCall, hReturned, ?_⟩
        dsimp only
        rw [Cluster.after_answers, hOne]

/-
  Every entry meets `p`, after the entries before it, in the
  state it is delivered to.
-/
def DeliversOnly
    (p : List Op → ShardKV → Op → Bool)
    (c : Cluster I)
    (action : Action I) : Bool :=
  match c.delivering action with
  | some (gid, nd, op) =>
      p ((c.groups gid).log.take nd.kv.lastApplied.toNat)
        nd.kv op
  | none => true

/- Then the entries of every log do so in their places. -/
theorem entries_of_reachable
    {p : List Op → ShardKV → Op → Bool}
    (hAgree : ∀ entries kv kv' op,
      kv.Agrees kv' → p entries kv op = p entries kv' op)
    {ok : Cluster I → Action I → Prop}
    (hOk : ∀ c action,
      ok c action → DeliversOnly p c action = true)
    {c : Cluster I}
    (hReach : Cluster.system.Reachable ok c) :
    ∀ gid n op,
      (c.groups gid).log[n]? = some op →
      p ((c.groups gid).log.take n)
        (stateAt gid (c.groups gid).log n) op = true := by
  refine System.Reachable.induct (P := fun c : Cluster I =>
    ∀ gid n op,
      (c.groups gid).log[n]? = some op →
      p ((c.groups gid).log.take n)
        (stateAt gid (c.groups gid).log n) op = true)
    ?_ ?_ hReach
  · intro c hInit
    have hEmpty : c = Cluster.empty := hInit
    subst hEmpty
    intro gid n op hAt
    cases hAt
  · intro c action c' hReach ih hAction hStep gid n op hAt
    rcases Cluster.log_cases hStep with
      hSame | ⟨gid', i, nd, op', hNode, hDelivering, hApplied,
        _, hLog⟩
    · rw [hSame] at hAt ⊢
      exact ih gid n op hAt
    · rw [hLog] at hAt ⊢
      rcases Nat.lt_or_ge n (c.groups gid).log.length with
        hLt | hGe
      · rw [List.getElem?_append_left hLt] at hAt
        rw [stateAt_append _ _ _ (Nat.le_of_lt hLt),
          List.take_append_of_le_length (Nat.le_of_lt hLt)]
        exact ih gid n op hAt
      · -- The new entry, in the state of the server.
        rw [List.getElem?_append_right hGe] at hAt
        by_cases hGid : gid = gid'
        · subst hGid
          rw [if_pos rfl] at hAt
          have hN : n = (c.groups gid).log.length := by
            have hLt :=
              (List.getElem?_eq_some_iff.mp hAt).1
            rw [List.length_singleton] at hLt
            omega
          subst hN
          rw [Nat.sub_self] at hAt
          cases hAt
          have hChecked := hOk c action hAction
          unfold DeliversOnly at hChecked
          rw [hDelivering] at hChecked
          dsimp only at hChecked
          have hState := ((delivers_of_reachable
            hReach).follows gid i nd hNode).state
          have hNat : nd.kv.lastApplied.toNat =
              (c.groups gid).log.length := by
            omega
          rw [hNat] at hState hChecked
          rw [stateAt_append _ _ _ (le_refl _),
            List.take_append_of_le_length (le_refl _),
            ← hAgree _ _ _ _ hState]
          exact hChecked
        · rw [if_neg hGid] at hAt
          cases hAt

end Shardkv

end RaftLab
