import RaftLab.Service.Session
import RaftLab.Shardctrler.Config

/-
  The replicated state of the shard controller
  (src/shardctrler/server.go) and the loop that applies what
  Raft delivers to it.

  A panic (a Move whose Shard is out of range) is `none`. The
  Type of an Op and the dynamic type of its Args always agree
  (handleNomalRPC sets both), so they are one `Args`; the Id
  and ReqNum repeated in the arguments are not read. An index
  out of order is only printed here.

  Main declarations:
    * `Shardctrler.Op`, `Shardctrler.ShardCtrler`
    * `Shardctrler.applyOp`, `Shardctrler.query`
    * `Shardctrler.ShardCtrler.handleApplyMsg`
    * `Shardctrler.machine`, `Shardctrler.executed`
    * `Shardctrler.deliver_isSome`
-/

------------------------------------------------------------
-- Operations And State
------------------------------------------------------------

namespace RaftLab

namespace Shardctrler

inductive Args where
  | join (servers : Groups)
  | leave (gids : List Int)
  | move (shard : Int) (gid : Int)
  | query (num : Int)
deriving DecidableEq

structure Op where
  number : Int
  reqNum : Int
  ckId : Int
  args : Args
deriving DecidableEq

def Op.request (op : Op) : Int × Int :=
  (op.ckId, op.reqNum)

structure Snapshot where
  configs : List Config
  ckSessions : Sessions Op

structure ShardCtrler where
  configs : List Config
  ckSessions : Sessions Op
  logRecord : Int → Option Op
  lastApplied : Int

/- The state StartServer sets up. -/
def ShardCtrler.start : ShardCtrler where
  configs := [Config.zero]
  ckSessions := fun _ => none
  logRecord := fun _ => none
  lastApplied := 0

/- An ApplyMsg, with the snapshot decoded. -/
inductive Delivery where
  | command (commandIndex : Int) (op : Op)
  | snapshot (snapshotIndex : Int) (snapshot : Snapshot)

------------------------------------------------------------
-- applyOp
------------------------------------------------------------

/- The copy of a configuration that an operation edits. -/
def Config.next (oldConfig : Config) : Config :=
  { oldConfig with num := oldConfig.num + 1 }

/- newConfig.Groups[key] = value, for each new group -/
def joinGroups (groups servers : Groups) : Groups :=
  servers.entries.foldl
    (fun groups entry =>
      AList.insert entry.1 entry.2 groups)
    groups

/- delete(newConfig.Groups, gid), for each gid -/
def leaveGroups (groups : Groups) (gids : List Int) :
    Groups :=
  gids.foldl (fun groups gid => AList.erase gid groups)
    groups

/- newConfig.Shards[shard] = gid, with Go's bounds check -/
def moveShard
    (config : Config)
    (shard gid : Int) : Option Config :=
  if h : 0 ≤ shard ∧ shard < NShards then
    let index : Shard := ⟨shard.toNat, by omega⟩
    some { config with
      shards := Function.update config.shards index gid }
  else
    none

/- Append the edited copy of the last configuration. -/
def addConfig
    (configs : List Config)
    (edit : Config → Option Config) :
    Option (List Config) :=
  configs.getLast?.bind fun oldConfig =>
    (edit oldConfig).map fun newConfig =>
      configs ++ [newConfig]

def applyOp
    (configs : List Config)
    (op : Op) : Option (List Config) :=
  match op.args with
  | .join servers =>
      addConfig configs fun oldConfig =>
        rebalance oldConfig { oldConfig.next with
          groups := joinGroups oldConfig.groups servers }
  | .leave gids =>
      addConfig configs fun oldConfig =>
        rebalance oldConfig { oldConfig.next with
          groups := leaveGroups oldConfig.groups gids }
  | .move shard gid =>
      addConfig configs fun oldConfig =>
        moveShard oldConfig.next shard gid
  | .query _ => some configs

/- What successCommit answers to a Query; an index below 0 panics. -/
def query (configs : List Config) (num : Int) :
    Option Config :=
  if num = -1 ∨ num ≥ configs.length then
    configs.getLast?
  else if num < 0 then
    none
  else
    configs[num.toNat]?

------------------------------------------------------------
-- handleApplyMsg
------------------------------------------------------------

namespace ShardCtrler

/-
  One message of applyCh. `full` is the outcome of the test
  of the persisted size against maxraftstate; the second
  component is the snapshot handed to rf.Snapshot.
-/
def handleApplyMsg
    (sc : ShardCtrler)
    (full : Bool) :
    Delivery → Option (ShardCtrler × Option Snapshot)
| .command commandIndex op =>
    let recorded : ShardCtrler := { sc with
      logRecord :=
        Function.update sc.logRecord commandIndex (some op)
      lastApplied := commandIndex
      ckSessions :=
        sc.ckSessions.setSession Op.ckId commandIndex op }
    -- A stable operation also rewrites the session.
    if sc.ckSessions.stable
        Op.ckId Op.reqNum commandIndex op then
      some (recorded, none)
    else
      (applyOp recorded.configs op).map fun configs =>
        let applied : ShardCtrler := { recorded with
          configs := configs }
        (applied,
          if full then
            some {
              configs := applied.configs
              ckSessions := applied.ckSessions }
          else
            none)
| .snapshot snapshotIndex snapshot =>
    some ({ sc with
      configs := snapshot.configs
      ckSessions := snapshot.ckSessions
      lastApplied := snapshotIndex }, none)

/-
  One operation of a log delivered in index order. The test
  of the persisted size may come out either way.
-/
def deliverOp
    (full : Int → Bool)
    (sc : ShardCtrler)
    (op : Op) : Option ShardCtrler :=
  (sc.handleApplyMsg (full (sc.lastApplied + 1))
    (.command (sc.lastApplied + 1) op)).map Prod.fst

/- A log delivered in index order to a started server. -/
def deliver
    (full : Int → Bool)
    (log : List Op) : Option ShardCtrler :=
  log.foldlM (deliverOp full) start

end ShardCtrler

------------------------------------------------------------
-- The Configurations Are A Filtered Machine
------------------------------------------------------------

/- An entry that adds a configuration when it is executed. -/
def Op.writes (op : Op) : Bool :=
  match op.args with
  | .query _ => false
  | _ => true

theorem applyOp_of_not_writes
    {op : Op}
    (hRead : op.writes = false)
    (configs : List Config) :
    applyOp configs op = some configs := by
  unfold applyOp
  cases hArgs : op.args with
  | query num => rfl
  | join servers => simp [Op.writes, hArgs] at hRead
  | leave gids => simp [Op.writes, hArgs] at hRead
  | move shard gid => simp [Op.writes, hArgs] at hRead

/- What one operation of the log does to the server. -/
theorem ShardCtrler.deliverOp_eq
    (full : Int → Bool)
    (sc : ShardCtrler)
    (op : Op) :
    sc.deliverOp full op =
      (if sc.ckSessions.stable Op.ckId Op.reqNum
          (sc.lastApplied + 1) op then
        some sc.configs
      else
        applyOp sc.configs op).map fun configs => {
          configs := configs
          ckSessions :=
            sc.ckSessions.setSession Op.ckId
              (sc.lastApplied + 1) op
          logRecord :=
            Function.update sc.logRecord
              (sc.lastApplied + 1) (some op)
          lastApplied := sc.lastApplied + 1 } := by
  simp only [deliverOp, handleApplyMsg]
  split
  · rfl
  · rw [Option.map_map]
    rfl

/- The configurations, moved by the executed writes. -/
def machine (full : Int → Bool) :
    SessionMachine ShardCtrler (List Config) Op
      Op.ckId Op.reqNum where
  step := ShardCtrler.deliverOp full
  core := ShardCtrler.configs
  accepts sc op :=
    !sc.ckSessions.stable Op.ckId Op.reqNum
      (sc.lastApplied + 1) op && op.writes
  apply := applyOp
  step_core sc op := by
    rw [ShardCtrler.deliverOp_eq, Option.map_map]
    cases sc.ckSessions.stable Op.ckId Op.reqNum
      (sc.lastApplied + 1) op with
    | true => rfl
    | false =>
        cases hWrites : op.writes with
        | true => exact Option.map_id'
        | false => simp [applyOp_of_not_writes hWrites]
  ckSessions := ShardCtrler.ckSessions
  lastApplied := ShardCtrler.lastApplied
  writes := Op.writes
  step_record sc op sc' hStep := by
    rw [ShardCtrler.deliverOp_eq] at hStep
    rcases Option.map_eq_some_iff.mp hStep with
      ⟨configs, _, hNext⟩
    rw [← hNext]
    exact ⟨rfl, rfl⟩
  accepts_eq _ _ := rfl

theorem start_fresh (full : Int → Bool) :
    (machine full).Fresh ShardCtrler.start where
  ckSessions := rfl
  lastApplied := rfl

/- The bounds check that a Move has to pass. -/
def Op.inRange (op : Op) : Bool :=
  match op.args with
  | .move shard _ =>
      decide (0 ≤ shard) && decide (shard < NShards)
  | _ => true

theorem addConfig_isSome
    {configs : List Config}
    (hNonempty : configs ≠ [])
    {edit : Config → Option Config}
    (hEdit : ∀ config, ∃ config', edit config = some config') :
    ∃ configs',
      addConfig configs edit = some configs' ∧
      configs' ≠ [] := by
  rcases hEdit (configs.getLast hNonempty) with
    ⟨config', hConfig'⟩
  refine ⟨configs ++ [config'], ?_, by simp⟩
  unfold addConfig
  rw [List.getLast?_eq_getLast_of_ne_nil hNonempty]
  simp [hConfig']

theorem applyOp_isSome
    {configs : List Config}
    {op : Op}
    (hNonempty : configs ≠ [])
    (hRange : op.inRange = true) :
    ∃ configs',
      applyOp configs op = some configs' ∧
      configs' ≠ [] := by
  unfold applyOp
  cases hArgs : op.args with
  | query num => exact ⟨configs, rfl, hNonempty⟩
  | join servers =>
      apply addConfig_isSome hNonempty
      intro config
      rcases rebalance_isSome config _ with ⟨_, hSome⟩
      exact ⟨_, hSome⟩
  | leave gids =>
      apply addConfig_isSome hNonempty
      intro config
      rcases rebalance_isSome config _ with ⟨_, hSome⟩
      exact ⟨_, hSome⟩
  | move shard gid =>
      apply addConfig_isSome hNonempty
      intro config
      simp only [Op.inRange, hArgs, Bool.and_eq_true,
        decide_eq_true_eq] at hRange
      unfold moveShard
      rw [dif_pos hRange]
      exact ⟨_, rfl⟩

theorem deliver_snoc
    (full : Int → Bool)
    (log : List Op)
    (op : Op) :
    ShardCtrler.deliver full (log ++ [op]) =
      (ShardCtrler.deliver full log).bind fun sc =>
        sc.deliverOp full op :=
  (machine full).run_snoc ShardCtrler.start log op

/-
  A log in index order whose Moves are in range is delivered
  to its end: rebalancing always ends.
-/
theorem deliver_isSome
    (full : Int → Bool)
    {log : List Op}
    (hRange : ∀ op ∈ log, op.inRange = true) :
    ∃ sc,
      ShardCtrler.deliver full log = some sc ∧
      sc.configs ≠ [] := by
  induction log using List.reverseRecOn with
  | nil =>
      exact ⟨ShardCtrler.start, rfl, List.cons_ne_nil _ _⟩
  | append_singleton log op ih =>
      rcases ih fun x hX =>
        hRange x (List.mem_append_left _ hX) with
        ⟨sc, hRun, hNonempty⟩
      rw [deliver_snoc, hRun, Option.bind_some,
        ShardCtrler.deliverOp_eq]
      split
      · exact ⟨_, rfl, hNonempty⟩
      · rcases applyOp_isSome hNonempty
          (hRange op (by simp)) with
          ⟨configs', hApply, hNonempty'⟩
        rw [hApply]
        exact ⟨_, rfl, hNonempty'⟩

/- The executed writes of a log, in order. -/
def executed (full : Int → Bool) (log : List Op) : List Op :=
  (machine full).accepted ShardCtrler.start log

end Shardctrler

end RaftLab
