import RaftLab.Shardctrler.Balanced
import RaftLab.Shardctrler.LostUpdates

/-
  Requests that poison the shard controller.

  The arguments of a request enter the log unchecked, and
  every server executes them. A Move of a shard out of range
  makes each of them panic, a Query for a number below -1
  panics the server that answers it, and a Move to a gid that
  is no group leaves a shard with nobody. In all other runs
  no server panics, and every configuration gives each shard
  to one of its groups.

  Main declarations:
    * `Shardctrler.Op.admissible`, `Shardctrler.Admitted`
    * `Shardctrler.ValidHistory`,
      `Shardctrler.deliver_validHistory`
    * `Shardctrler.World.panics`, `Shardctrler.Event.admissible`
    * `Shardctrler.controller_not_poisoned`
-/

------------------------------------------------------------
-- Valid Histories
------------------------------------------------------------

namespace RaftLab

namespace Shardctrler

/- A gid that a shard of the configuration may have. -/
def Config.hasGid (config : Config) (gid : Int) : Bool :=
  decide (gid ∈ config.groups.keys) ||
    (decide (config.groups.keys = []) && decide (gid = 0))

/-
  A Move of an existing shard to a group of the last
  configuration, or to 0 if there are none.
-/
def Op.admissible (configs : List Config) (op : Op) : Bool :=
  match op.args with
  | .move _ gid =>
      op.inRange &&
        configs.getLast?.all fun config => config.hasGid gid
  | _ => true

/- The history that the servers of the groups step through. -/
structure ValidHistory (configs : List Config) : Prop where
  nonempty : configs ≠ []
  assigned : ∀ config ∈ configs, config.Assigned

theorem ValidHistory.start : ValidHistory [Config.zero] where
  nonempty := List.cons_ne_nil _ _
  assigned := Produced.zero.assigned

theorem Op.inRange_of_admissible
    {configs : List Config}
    {op : Op}
    (hAdmissible : op.admissible configs = true) :
    op.inRange = true := by
  cases hArgs : op.args with
  | move shard gid =>
      rw [admissible, hArgs, Bool.and_eq_true] at hAdmissible
      exact hAdmissible.1
  | _ => rw [inRange, hArgs]

/- A Move to 0 where there are no groups changes nothing. -/
theorem moveShard_assigned_of_hasGid
    {oldConfig config : Config}
    (hAssigned : oldConfig.Assigned)
    {s gid : Int}
    (hGid : oldConfig.hasGid gid = true)
    (hMove : moveShard oldConfig.next s gid = some config) :
    config.Assigned := by
  simp only [Config.hasGid, Bool.or_eq_true,
    Bool.and_eq_true, decide_eq_true_eq] at hGid
  rcases hGid with hGroup | ⟨hEmpty, rfl⟩
  · exact moveShard_assigned hAssigned hGroup hMove
  · have hZero : ∀ s, oldConfig.shards s = 0 := by
      rcases hAssigned with hAll | ⟨_, hZero⟩
      · intro s
        have hMem := hAll s
        rw [hEmpty] at hMem
        cases hMem
      · exact hZero
    unfold moveShard at hMove
    split at hMove
    · cases hMove
      refine Or.inr ⟨hEmpty, ?_⟩
      intro s'
      dsimp only
      by_cases hEq : s' = ⟨s.toNat, by omega⟩
      · rw [hEq, Function.update_self]
      · rw [Function.update_of_ne hEq]
        exact hZero s'
    · cases hMove

/- An admissible operation is applied and keeps validity. -/
theorem ValidHistory.applyOp
    {configs : List Config}
    (hValid : ValidHistory configs)
    {op : Op}
    (hAdmissible : op.admissible configs = true) :
    ∃ configs',
      Shardctrler.applyOp configs op = some configs' ∧
      ValidHistory configs' := by
  rcases applyOp_isSome hValid.nonempty
    (Op.inRange_of_admissible hAdmissible) with
    ⟨configs', hApply, hNonempty⟩
  refine ⟨configs', hApply, hNonempty, ?_⟩
  rcases applyOp_cases hApply with rfl |
    ⟨oldConfig, new, hLast, rfl, _, hNew⟩
  · exact hValid.assigned
  · intro config hMem
    rcases List.mem_append.mp hMem with hMem | hMem
    · exact hValid.assigned config hMem
    · rw [List.mem_singleton.mp hMem]
      rcases hNew with hAssigned | ⟨s, gid, hArgs, hMove⟩
      · exact hAssigned
      · rw [Op.admissible, hArgs, Bool.and_eq_true, hLast,
          Option.all_some] at hAdmissible
        exact moveShard_assigned_of_hasGid
          (hValid.assigned oldConfig
            (List.mem_of_getLast? hLast))
          hAdmissible.2 hMove

/- Queries from -1 on are answered. -/
theorem ValidHistory.query_isSome
    {configs : List Config}
    (hValid : ValidHistory configs)
    {num : Int}
    (hNum : -1 ≤ num) :
    ∃ config, query configs num = some config := by
  unfold query
  split
  · exact ⟨_, List.getLast?_eq_getLast_of_ne_nil
      hValid.nonempty⟩
  · rw [if_neg (by omega)]
    exact ⟨_, List.getElem?_eq_getElem (by omega)⟩

------------------------------------------------------------
-- Logs
------------------------------------------------------------

/- The next entry is skipped or admissible. -/
def ShardCtrler.admits (sc : ShardCtrler) (op : Op) : Bool :=
  sc.ckSessions.stable Op.ckId Op.reqNum
      (sc.lastApplied + 1) op ||
    op.admissible sc.configs

theorem ShardCtrler.deliverOp_valid
    (full : Int → Bool)
    {sc : ShardCtrler}
    (hValid : ValidHistory sc.configs)
    {op : Op}
    (hAdmits : sc.admits op = true) :
    ∃ sc', sc.deliverOp full op = some sc' ∧
      ValidHistory sc'.configs := by
  rw [deliverOp_eq]
  split
  · exact ⟨_, rfl, hValid⟩
  · next hStable =>
      rw [admits, Bool.or_eq_true] at hAdmits
      have hAdmissible := hAdmits.resolve_left hStable
      rcases hValid.applyOp hAdmissible with
        ⟨configs', hApply, hValid'⟩
      rw [hApply]
      exact ⟨_, rfl, hValid'⟩

/- Every entry is admitted by a server that is at it. -/
def Admitted (log : List Op) : Prop :=
  ∀ (k : Nat) (op : Op) (sc : ShardCtrler),
    log[k]? = some op →
    ShardCtrler.deliver (fun _ => false) (log.take k) =
      some sc →
    sc.admits op = true

theorem admitted_iff
    {log : List Op} :
    Admitted log ↔ ∀ k op,
      log[k]? = some op →
      ∀ sc,
        ShardCtrler.deliver (fun _ => false) (log.take k) =
          some sc →
        sc.admits op = true :=
  ⟨fun h k op hEntry sc => h k op sc hEntry,
    fun h k op sc hEntry => h k op hEntry sc⟩

theorem Admitted.take
    {log : List Op}
    (hAdmitted : Admitted log)
    (j : Nat) :
    Admitted (log.take j) :=
  admitted_iff.mpr
    (forall_entry_take
      (P := fun log op => ∀ sc,
        ShardCtrler.deliver (fun _ => false) log =
          some sc →
        sc.admits op = true)
      (admitted_iff.mp hAdmitted) j)

theorem Admitted.snoc
    {log : List Op}
    (hAdmitted : Admitted log)
    {op : Op}
    (hLast :
      (ShardCtrler.deliver (fun _ => false) log).all
        (fun sc => sc.admits op) = true) :
    Admitted (log ++ [op]) := by
  apply admitted_iff.mpr
  apply forall_entry_snoc
    (P := fun log op => ∀ sc,
      ShardCtrler.deliver (fun _ => false) log =
        some sc →
      sc.admits op = true)
  · exact admitted_iff.mp hAdmitted
  · intro sc hRun
    rw [hRun] at hLast
    exact hLast

/- An admitted log is executed to its end. -/
theorem deliver_validHistory
    (full : Int → Bool)
    {log : List Op}
    (hAdmitted : Admitted log) :
    ∃ sc, ShardCtrler.deliver full log = some sc ∧
      ValidHistory sc.configs := by
  induction log using List.reverseRecOn with
  | nil => exact ⟨ShardCtrler.start, rfl, ValidHistory.start⟩
  | append_singleton log op ih =>
      have hBefore : Admitted log := by
        have hTake := hAdmitted.take log.length
        rw [List.take_left] at hTake
        exact hTake
      rcases ih hBefore with ⟨sc, hRun, hValid⟩
      have hAdmits : sc.admits op = true := by
        apply hAdmitted log.length op sc
        · exact List.getElem?_concat_length
        · rw [List.take_left, deliver_full_eq _ full]
          exact hRun
      rw [deliver_snoc, hRun, Option.bind_some]
      exact sc.deliverOp_valid full hValid hAdmits

------------------------------------------------------------
-- Panics Of The Servers
------------------------------------------------------------

/- A number that the index of a Query can be computed for. -/
def Args.queryInRange : Args → Bool
| .query num => decide (-1 ≤ num)
| _ => true

variable {n m : Nat}

/-
  A handler or the loop over applyCh runs into an index out
  of range.
-/
def World.panics (w : World n m) : Event n m → Bool
| .request s i number _ _ =>
    w.calls[i]?.any fun request =>
      ((w.servers s).sc.handleNomalRPC number request).isNone
| .command s full =>
    let lastApplied := (w.servers s).sc.lastApplied
    w.log[lastApplied.toNat]?.any fun op =>
      ((w.servers s).sc.handleApplyMsg full
        (.command (lastApplied + 1) op)).isNone
| .poll s i _ =>
    (w.servers s).waiting[i]?.any fun h =>
      ((w.servers s).sc.waittingForCommit h.op h.index
        h.request.args).isNone
| _ => false

/-
  What a Query asks for is in range when it is answered, and
  an entry of the log is skipped or admissible.
-/
def Event.admissible (w : World n m) : Event n m → Bool
| .request s i _ _ _ =>
    let sc := (w.servers s).sc
    w.calls[i]?.all fun request =>
      !sc.ckSessions.completed Op.reqNum Op.number
          sc.logRecord request.id request.reqNum ||
        request.args.queryInRange
| .poll s i _ =>
    let sc := (w.servers s).sc
    (w.servers s).waiting[i]?.all fun h =>
      decide (pollRecord Op.number sc.logRecord
        sc.lastApplied h.index h.op ≠ .finished) ||
        h.request.args.queryInRange
| .commit i =>
    w.started[i]?.all fun entry =>
      (ShardCtrler.deliver (fun _ => false) w.log).all
        (fun sc => sc.admits entry.2)
| _ => true

/-
  The log is admitted, and each server is at some place of
  it.
-/
structure World.Clean (w : World n m) : Prop where
  admitted : Admitted w.log
  replica : ∀ s, ∃ k,
    (machine fun _ => false).Replica ShardCtrler.start w.log
      k (w.servers s).sc

namespace World.Clean

variable {w w' : World n m}

/- The state of a server is that of a prefix of the log. -/
theorem validHistory
    (hClean : w.Clean)
    (s : Fin m) :
    ValidHistory (w.servers s).sc.configs := by
  rcases hClean.replica s with ⟨k, hReplica⟩
  rcases hReplica.agrees with ⟨sc, hRun, hConfigs, _⟩
  rcases deliver_validHistory (fun _ => false)
    (hClean.admitted.take k) with ⟨sc', hRun', hValid⟩
  have hSame : some sc = some sc' := hRun.symm.trans hRun'
  cases hSame
  have hEq : (w.servers s).sc.configs = sc.configs :=
    hConfigs
  rw [hEq]
  exact hValid

/- A server admits the entry that it is sent next. -/
theorem admits_next
    (hClean : w.Clean)
    (s : Fin m)
    {op : Op}
    (hEntry :
      w.log[(w.servers s).sc.lastApplied.toNat]? =
        some op) :
    (w.servers s).sc.admits op = true := by
  rcases hClean.replica s with ⟨k, hReplica⟩
  have hApplied : (w.servers s).sc.lastApplied = k :=
    hReplica.applied
  rcases hReplica.agrees with
    ⟨sc, hRun, hConfigs, hSessions⟩
  have hLast : sc.lastApplied = k := by
    have hFollows := ((machine fun _ => false).run_follows
      (start_fresh _) hRun).1
    have hBound := hReplica.bound
    rw [List.length_take, Nat.min_eq_left hBound] at hFollows
    exact hFollows
  rw [hApplied, Int.toNat_natCast] at hEntry
  have hAdmits := hClean.admitted k op sc hEntry hRun
  have hConfigs' : (w.servers s).sc.configs = sc.configs :=
    hConfigs
  have hSessions' :
      (w.servers s).sc.ckSessions = sc.ckSessions :=
    hSessions
  unfold ShardCtrler.admits at hAdmits ⊢
  rw [hConfigs', hSessions', hApplied, ← hLast]
  exact hAdmits

theorem successCommit_isSome
    (hClean : w.Clean)
    (s : Fin m)
    {args : Args}
    (hQuery : args.queryInRange = true) :
    ∃ reply,
      (w.servers s).sc.successCommit args = some reply := by
  cases args with
  | query num =>
      rcases (hClean.validHistory s).query_isSome
        (of_decide_eq_true hQuery) with ⟨config, hConfig⟩
      rw [ShardCtrler.successCommit, hConfig]
      exact ⟨_, rfl⟩
  | _ => exact ⟨_, rfl⟩

/- No server panics at an admissible event. -/
theorem panics_eq_false
    (hClean : w.Clean)
    {event : Event n m}
    (hAdmissible : event.admissible w = true) :
    w.panics event = false := by
  cases event with
  | request s i number index arrives =>
      rw [World.panics]
      cases hCall : w.calls[i]? with
      | none => rfl
      | some request =>
          simp only [Event.admissible, hCall,
            Option.all_some, Bool.or_eq_true,
            Bool.not_eq_true'] at hAdmissible
          rw [Option.any_some, ShardCtrler.handleNomalRPC]
          split
          · next hDone =>
              rw [hDone] at hAdmissible
              rcases hClean.successCommit_isSome s
                (hAdmissible.resolve_left (by decide)) with
                ⟨reply, hReply⟩
              rw [hReply]
              rfl
          · rfl
  | command s full =>
      rw [World.panics]
      cases hEntry :
          w.log[(w.servers s).sc.lastApplied.toNat]? with
      | none => rfl
      | some op =>
          rcases (w.servers s).sc.deliverOp_valid
            (fun _ => false) (hClean.validHistory s)
            (hClean.admits_next s hEntry) with
            ⟨sc', hDeliver, _⟩
          rw [← ShardCtrler.handleApplyMsg_command _
            full] at hDeliver
          rcases Option.map_eq_some_iff.mp hDeliver with
            ⟨result, hResult, _⟩
          rw [Option.any_some, hResult]
          rfl
  | poll s i arrives =>
      rw [World.panics]
      cases hAt : (w.servers s).waiting[i]? with
      | none => rfl
      | some h =>
          simp only [Event.admissible, hAt,
            Option.all_some, Bool.or_eq_true,
            decide_eq_true_eq] at hAdmissible
          rw [Option.any_some, ShardCtrler.waittingForCommit]
          split
          · next hFinished =>
              rcases hClean.successCommit_isSome s
                (hAdmissible.resolve_left
                  (not_not.mpr hFinished)) with
                ⟨reply, hReply⟩
              rw [hReply]
              rfl
          · rfl
          · rfl
  | _ => rfl

end World.Clean

------------------------------------------------------------
-- Runs
------------------------------------------------------------

namespace World.Clean

variable {w w' : World n m}

/- Servers and log stay. -/
theorem of_eq
    (hClean : w.Clean)
    (hLog : w'.log = w.log)
    (hServers :
      ∀ s, (w'.servers s).sc = (w.servers s).sc) :
    w'.Clean where
  admitted := by
    rw [hLog]
    exact hClean.admitted
  replica := by
    intro s
    rw [hLog, hServers s]
    exact hClean.replica s

/- One server moves to another place of the log. -/
theorem of_server
    (hClean : w.Clean)
    {s : Fin m}
    {ctl : Controller}
    {k : Nat}
    (hReplica :
      (machine fun _ => false).Replica ShardCtrler.start
        w.log k ctl.sc) :
    (w.setServer s ctl).Clean where
  admitted := hClean.admitted
  replica := by
    intro t
    by_cases hSame : t = s
    · subst hSame
      refine ⟨k, ?_⟩
      simp only [World.setServer, Function.update_self]
      exact hReplica
    · simp only [World.setServer,
        Function.update_of_ne hSame]
      exact hClean.replica t

theorem reply
    (hClean : w.Clean)
    (request : Request)
    (answer : Reply)
    (arrives : Bool) :
    (w.reply request answer arrives).Clean := by
  unfold World.reply
  split
  · exact hClean.of_eq rfl fun _ => rfl
  · exact hClean

theorem leave
    (hClean : w.Clean)
    (s : Fin m)
    (i : Nat) :
    (w.leave s i).Clean := by
  rcases hClean.replica s with ⟨k, hReplica⟩
  exact hClean.of_server hReplica

theorem request
    (hClean : w.Clean)
    {s : Fin m}
    {i : Nat}
    {number : Int}
    {index : Option Int}
    {arrives : Bool}
    (hStep : World.step
      (.request s i number index arrives) w = some w') :
    w'.Clean := by
  rcases Option.bind_eq_some_iff.mp hStep with
    ⟨request, _, hStep⟩
  rcases Option.bind_eq_some_iff.mp hStep with
    ⟨outcome, _, hStep⟩
  cases outcome with
  | answered answer =>
      cases hStep
      exact hClean.reply request answer arrives
  | start op =>
      cases index with
      | none =>
          cases hStep
          exact hClean.reply _ _ _
      | some index =>
          dsimp only at hStep
          split at hStep
          · cases hStep
            refine hClean.of_eq rfl ?_
            intro t
            unfold World.start
            dsimp only
            by_cases hSame : t = s
            · subst hSame
              rw [Function.update_self]
            · rw [Function.update_of_ne hSame]
          · cases hStep

theorem commit
    (hClean : w.Clean)
    {i : Nat}
    (hAdmissible :
      (Event.commit i : Event n m).admissible w = true)
    (hStep : World.step (.commit i) w = some w') :
    w'.Clean := by
  rcases Option.bind_eq_some_iff.mp hStep with
    ⟨entry, hEntry, hStep⟩
  rw [Event.admissible, hEntry, Option.all_some]
    at hAdmissible
  split at hStep
  · cases hStep
    refine ⟨hClean.admitted.snoc hAdmissible, ?_⟩
    intro s
    rcases hClean.replica s with ⟨k, hReplica⟩
    exact ⟨k, hReplica.append [entry.2]⟩
  · cases hStep

theorem command
    (hClean : w.Clean)
    {s : Fin m}
    {full : Bool}
    (hStep : World.step (.command s full) w = some w') :
    w'.Clean := by
  rcases hClean.replica s with ⟨k, hReplica⟩
  have hApplied : (w.servers s).sc.lastApplied = k :=
    hReplica.applied
  rcases Option.bind_eq_some_iff.mp hStep with
    ⟨op, hEntry, hDelivered⟩
  rw [hApplied, Int.toNat_natCast] at hEntry
  rcases Option.map_eq_some_iff.mp hDelivered with
    ⟨result, hResult, rfl⟩
  have hDeliver : (w.servers s).sc.deliverOp
      (fun _ => false) op = some result.1 := by
    rw [← ShardCtrler.handleApplyMsg_command _ full, hResult]
    rfl
  exact hClean.of_server
    (hReplica.deliver (start_fresh _) hEntry hDeliver)

theorem snapshot
    (hClean : w.Clean)
    {s : Fin m}
    {k : Nat}
    (hStep : World.step (.snapshot s k) w = some w') :
    w'.Clean := by
  rw [World.step] at hStep
  split at hStep
  · next hBound =>
      rcases Option.bind_eq_some_iff.mp hStep with
        ⟨snapshot, hSnapshot, hNext⟩
      rcases Option.map_eq_some_iff.mp hSnapshot with
        ⟨sc, hRun, rfl⟩
      cases hNext
      exact hClean.of_server
        ⟨hBound, rfl, sc, hRun, rfl, rfl⟩
  · cases hStep

theorem step
    (hClean : w.Clean)
    {event : Event n m}
    (hAdmissible : event.admissible w = true)
    (hStep : World.step event w = some w') :
    w'.Clean := by
  cases event with
  | call c args =>
      cases hStep
      exact hClean.of_eq rfl fun _ => rfl
  | request s i number index arrives =>
      exact hClean.request hStep
  | commit i => exact hClean.commit hAdmissible hStep
  | command s full => exact hClean.command hStep
  | snapshot s k => exact hClean.snapshot hStep
  | poll s i arrives =>
      rcases Option.bind_eq_some_iff.mp hStep with
        ⟨h, _, hStep⟩
      rcases Option.map_eq_some_iff.mp hStep with
        ⟨round, _, hNext⟩
      cases round with
      | none =>
          cases hNext
          exact hClean
      | some answer =>
          cases hNext
          exact (hClean.leave s i).reply _ _ _
  | timeout s i =>
      rcases Option.map_eq_some_iff.mp hStep with
        ⟨h, _, rfl⟩
      exact (hClean.leave s i).reply _ _ _
  | kill s =>
      cases hStep
      rcases hClean.replica s with ⟨k, hReplica⟩
      exact hClean.of_server hReplica
  | exit s i arrives =>
      rw [World.step] at hStep
      split at hStep
      · rcases Option.map_eq_some_iff.mp hStep with
          ⟨h, _, rfl⟩
        exact (hClean.leave s i).reply _ _ _
      · cases hStep
  | restart s =>
      cases hStep
      exact hClean.of_server
        (SessionMachine.Replica.start (start_fresh _) w.log)

end World.Clean

theorem World.clean_of_reachable
    {w : World n m}
    (hReach : (World.system n m).Reachable
      (fun w event => event.admissible w = true) w) :
    w.Clean := by
  apply System.Reachable.induct ?_ ?_ hReach
  · rintro w ⟨ids, _, rfl⟩
    constructor
    · intro k op sc hEntry
      cases hEntry
    · intro s
      exact ⟨0, SessionMachine.Replica.start
        (start_fresh _) []⟩
  · intro w event w' _ hClean hOk hStep
    exact hClean.step hOk hStep

/-
  In a run whose executed Moves are in range and go to
  existing groups and whose answered Queries are for -1 or
  more, no server ever panics, and every configuration on
  every server gives its shards to its groups.
-/
theorem controller_not_poisoned
    {w : World n m}
    (hReach : (World.system n m).Reachable
      (fun w event => event.admissible w = true) w) :
    (∀ event, event.admissible w = true →
      w.panics event = false) ∧
    ∀ s, ∀ config ∈ (w.servers s).sc.configs,
      config.Assigned := by
  have hClean := World.clean_of_reachable hReach
  constructor
  · intro event hAdmissible
    exact hClean.panics_eq_false hAdmissible
  · intro s
    exact (hClean.validHistory s).assigned

------------------------------------------------------------
-- Poisonous Requests
------------------------------------------------------------

/- One request is called, started and committed. -/
def committedRequest
    {n m : Nat}
    [NeZero n]
    [NeZero m]
    (args : Args) : List (Event n m) :=
  [.call 0 args, .request 0 0 5 (some 1) true, .commit 0]

/- Shard 10 does not exist. -/
def moveOutOfRange : Args := .move 10 1

/- Only -1 stands for the latest configuration. -/
def queryBelow : Args := .query (-2)

/- No group has gid 7. -/
def moveToNobody : Args := .move 0 7

/-
  A Move of shard 10 makes the server panic that applies it,
  a Query(-2) the server that answers it, and after a Move
  to gid 7 shard 0 belongs to no group.
-/
theorem requests_poison_controller :
    (∃ w : World 1 1,
      (World.system 1 1).Reachable System.always w ∧
      w.panics (.command 0 false) = true) ∧
    (∃ w : World 1 1,
      (World.system 1 1).Reachable System.always w ∧
      w.panics (.poll 0 0 true) = true) ∧
    ∃ w : World 1 1,
      (World.system 1 1).Reachable System.always w ∧
      ¬ ∀ config ∈ (w.servers 0).sc.configs,
        config.Assigned := by
  have hReached : ∀ {w : World 1 1},
      (World.system 1 1).Run System.always
        (World.initial fun _ => 9) w →
      (World.system 1 1).Reachable System.always w := by
    intro w hRun
    exact ⟨_, ⟨fun _ => 9,
      Function.injective_of_subsingleton _, rfl⟩, hRun⟩
  have hMove :
      ((World.system 1 1).exec
        (committedRequest moveOutOfRange)
        (World.initial fun _ => 9)).any (fun w =>
          w.panics (.command 0 false)) = true := by
    decide +kernel
  have hQuery :
      ((World.system 1 1).exec
        (committedRequest queryBelow ++ [.command 0 false])
        (World.initial fun _ => 9)).any (fun w =>
          w.panics (.poll 0 0 true)) = true := by
    decide +kernel
  have hNobody :
      ((World.system 1 1).exec
        (committedRequest moveToNobody ++ [.command 0 false])
        (World.initial fun _ => 9)).any (fun w =>
          (w.servers 0).sc.configs.any fun config =>
            decide (config.groups.keys = []) &&
              (List.finRange NShards).any fun shard =>
                decide (config.shards shard = 7)) =
        true := by
    decide +kernel
  refine ⟨?_, ?_, ?_⟩
  · rcases System.exists_run_of_exec hMove with
      ⟨w, hRun, hPanics⟩
    exact ⟨w, hReached hRun, hPanics⟩
  · rcases System.exists_run_of_exec hQuery with
      ⟨w, hRun, hPanics⟩
    exact ⟨w, hReached hRun, hPanics⟩
  · rcases System.exists_run_of_exec hNobody with
      ⟨w, hRun, hStray⟩
    rcases List.any_eq_true.mp hStray with
      ⟨config, hMem, hConfig⟩
    rw [Bool.and_eq_true, decide_eq_true_eq,
      List.any_eq_true] at hConfig
    rcases hConfig with ⟨hEmpty, shard, _, hShard⟩
    rw [decide_eq_true_eq] at hShard
    refine ⟨w, hReached hRun, ?_⟩
    intro hAll
    rcases hAll config hMem with hGroups | ⟨_, hZero⟩
    · have hGroup := hGroups shard
      rw [hEmpty] at hGroup
      cases hGroup
    · rw [hZero shard] at hShard
      cases hShard

/- A group joins, and shard 0 is moved to it. -/
def joinAndMove
    {n m : Nat}
    [NeZero n]
    [NeZero m] : List (Event n m) :=
  [.call 0 (.join (oneServer 1 "a")), .call 0 (.move 0 1),
    .request 0 0 5 (some 1) true,
    .request 0 1 6 (some 2) true, .commit 0, .commit 1,
    .command 0 false, .command 0 false]

theorem controller_not_poisoned_moved :
    ∃ w : World 1 1,
      (World.system 1 1).Reachable
        (fun w event => event.admissible w = true) w ∧
      (w.servers 0).sc.configs.length = 3 ∧
      w.panics (.poll 0 1 true) = false ∧
      ∀ config ∈ (w.servers 0).sc.configs,
        config.Assigned := by
  have hExec :
      ((World.system 1 1).execOk
        (fun w event => event.admissible w) joinAndMove
        (World.initial fun _ => 9)).any (fun w =>
          decide ((w.servers 0).sc.configs.length = 3) &&
            Event.admissible w (.poll 0 1 true)) = true := by
    decide +kernel
  rcases System.exists_run_of_execOk hExec with
    ⟨w, hRun, hw⟩
  rw [Bool.and_eq_true, decide_eq_true_eq] at hw
  have hReach : (World.system 1 1).Reachable
      (fun w event => event.admissible w = true) w :=
    ⟨_, ⟨fun _ => 9, Function.injective_of_subsingleton _,
      rfl⟩, hRun⟩
  exact ⟨w, hReach, hw.1,
    (controller_not_poisoned hReach).1 _ hw.2,
    (controller_not_poisoned hReach).2 0⟩

end Shardctrler

end RaftLab
