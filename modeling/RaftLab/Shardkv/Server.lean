import RaftLab.Lib.DuplicateFilter
import RaftLab.Shardctrler.Config

/-
  The replicated state of a shardkv group and the loop that
  applies what Raft delivers to it (src/shardkv/server.go).

  Go maps are partial functions; a map[int]bool, which only
  ever holds true, is a predicate on shards. The Type of an
  Op and the dynamic type of its Args always agree, so they
  are one `Args`. Not modelled: `confirmMap`, which is never
  written, and the debugging fields OldNum, NewNum and Maker.
  Refused shards are removed from the Shards of the entry,
  and the log of Raft holds that same map. Here an entry is a
  value; `Shardkv.Replicas` models the shared map.

  Main declarations:
    * `Shardkv.key2shard`, `Shardkv.uniKey`
    * `Shardkv.Store`, `Shardkv.ShardKV`
    * `Shardkv.Store.applyOp`, `Shardkv.applySessions`
    * `Shardkv.ShardKV.handleApplyMsg`
    * `Shardkv.machine`, `Shardkv.executed`
-/

------------------------------------------------------------
-- Operations And State
------------------------------------------------------------

namespace RaftLab

namespace Shardkv

open Shardctrler (Shard Config)

/- The first byte of the key, modulo the number of shards. -/
def key2shard (key : String) : Shard :=
  match key.toUTF8.data.toList with
  | [] => ⟨0, by decide⟩
  | byte :: _ =>
      ⟨byte.toNat % Shardctrler.NShards,
        Nat.mod_lt _ (by decide)⟩

/- string(ckId) + string(shardNum) -/
def uniKey (ckId : Int) (shardNum : Shard) : String :=
  toString ckId ++ toString shardNum.val

/- uniKey[0] != '-': the ids of clients are not negative. -/
def ofClient (uniKey : String) : Bool :=
  uniKey.toList.head? != some '-'

structure Session where
  lastOpVaild : Bool
  lastOpIndex : Int
  lastOpNumber : Int
  lastOpReqNum : Int
  lastOpShardNum : Shard
deriving DecidableEq

/- The map ckSessions: no record is the zero Session. -/
abbrev Sessions : Type := String → Option Session

inductive Args where
  | get (key : String)
  | put (key : String) (value : String)
  | append (key : String) (value : String)
  | changeConfig (config : Config)
  | applyMovement
      (mp : String → Option String)
      (sessions : Sessions)
      (config : Config)
      (shards : Shard → Bool)
  | deleteShards (shards : Shard → Bool) (configNum : Int)
  | updateShardVec (configNum : Int) (newVec : Shard → Bool)

structure Op where
  number : Int
  reqNum : Int
  ckId : Int
  shardNum : Shard
  args : Args

def Op.request (op : Op) : Int × Int :=
  (op.ckId, op.reqNum)

def Op.uniKey (op : Op) : String :=
  Shardkv.uniKey op.ckId op.shardNum

/- The replicated state apart from the sessions. -/
structure Store where
  gid : Int
  config : Config
  mp : String → Option String
  shardLastNums : Shard → Int
  shardVec : Shard → Bool

structure ShardKV extends Store where
  ckSessions : Sessions
  logRecord : Int → Option Op
  lastApplied : Int

structure Snapshot where
  mp : String → Option String
  ckSessions : Sessions
  config : Config
  shardLastNums : Shard → Int
  shardVec : Shard → Bool

/- The state StartServer sets up for a server of `gid`. -/
def ShardKV.start (gid : Int) : ShardKV where
  gid := gid
  config := Config.zero
  mp := fun _ => none
  shardLastNums := fun _ => 0
  shardVec := fun _ => false
  ckSessions := fun _ => none
  logRecord := fun _ => none
  lastApplied := 0

/- An ApplyMsg, with the snapshot decoded. -/
inductive Delivery where
  | command (commandIndex : Int) (op : Op)
  | snapshot (snapshotIndex : Int) (snapshot : Snapshot)

------------------------------------------------------------
-- applyOp
------------------------------------------------------------

/- The shards of a DeleteShards entry that are not refused. -/
def Store.deletedShards
    (st : Store)
    (shards : Shard → Bool)
    (configNum : Int)
    (shard : Shard) : Bool :=
  shards shard &&
    !decide (configNum < st.shardLastNums shard)

/-
  applyOp on everything but the sessions. The Bool is its
  result: false when the shard of a client's operation is not
  served here.
-/
def Store.applyOp (st : Store) : Args → Store × Bool
| .get key => (st, st.shardVec (key2shard key))
| .put key value =>
    if st.shardVec (key2shard key) then
      ({ st with
        mp := Function.update st.mp key (some value) }, true)
    else
      (st, false)
| .append key value =>
    if st.shardVec (key2shard key) then
      ({ st with
        mp := Function.update st.mp key
          (some ((st.mp key).getD "" ++ value)) }, true)
    else
      (st, false)
| .changeConfig config =>
    if st.config.num < config.num then
      ({ st with
        config := config
        shardVec := fun shard =>
          decide (config.shards shard = st.gid)
        shardLastNums := fun shard =>
          if config.shards shard = st.gid then config.num
          else st.shardLastNums shard }, true)
    else
      (st, true)
| .applyMovement mp _ config shards =>
    ({ st with
      mp := fun key =>
        match mp key with
        | some value =>
            if st.shardLastNums (key2shard key) ≥
                config.num then
              st.mp key
            else
              some value
        | none => st.mp key
      shardVec := fun shard =>
        shards shard || st.shardVec shard
      shardLastNums := fun shard =>
        if shards shard then config.num
        else st.shardLastNums shard }, true)
| .deleteShards shards configNum =>
    ({ st with
      mp := fun key =>
        if st.deletedShards shards configNum
            (key2shard key) then
          none
        else
          st.mp key }, true)
| .updateShardVec configNum newVec =>
    if st.config.num < configNum then
      ({ st with shardVec := newVec }, true)
    else
      (st, true)

/-
  applyOp on the sessions. Both loops over sessions read the
  shardLastNums from before the entry.
-/
def applySessions
    (st : Store)
    (ckSessions : Sessions) :
    Args → Sessions
| .applyMovement _ sessions config _ => fun key =>
    match sessions key with
    | some session =>
        if ofClient key ∧
            st.shardLastNums session.lastOpShardNum ≥
              config.num then
          ckSessions key
        else
          some { session with lastOpIndex := -1 }
    | none => ckSessions key
| .deleteShards shards configNum => fun key =>
    match ckSessions key with
    | some session =>
        if ofClient key ∧
            st.deletedShards shards configNum
              session.lastOpShardNum then
          none
        else
          some session
    | none => none
| _ => ckSessions

------------------------------------------------------------
-- handleApplyMsg
------------------------------------------------------------

namespace ShardKV

/- The test for a stable operation. -/
def stable
    (kv : ShardKV)
    (commandIndex : Int)
    (op : Op) : Bool :=
  match kv.ckSessions op.uniKey with
  | some session =>
      session.lastOpVaild &&
        decide (session.lastOpIndex < commandIndex) &&
        decide (op.reqNum ≤ session.lastOpReqNum)
  | none => false

/- The write of the session, the same on both paths. -/
def setSession
    (ckSessions : Sessions)
    (commandIndex : Int)
    (op : Op) : Sessions :=
  Function.update ckSessions op.uniKey (some {
    lastOpVaild := true
    lastOpIndex := commandIndex
    lastOpNumber := op.number
    lastOpReqNum := op.reqNum
    lastOpShardNum := op.shardNum })

/- What the loop does with a command. -/
def applyCommand
    (kv : ShardKV)
    (commandIndex : Int)
    (op : Op) : ShardKV :=
  let recorded : ShardKV := { kv with
    logRecord :=
      Function.update kv.logRecord commandIndex (some op)
    lastApplied := commandIndex }
  -- A stable operation also rewrites the session.
  if kv.stable commandIndex op then
    { recorded with
      ckSessions :=
        setSession kv.ckSessions commandIndex op }
  else if (kv.toStore.applyOp op.args).2 then
    { recorded with
      toStore := (kv.toStore.applyOp op.args).1
      ckSessions :=
        setSession
          (applySessions kv.toStore kv.ckSessions op.args)
          commandIndex op }
  else
    -- Failed: waittingForCommit() is made to fail too.
    { recorded with
      logRecord :=
        Function.update kv.logRecord commandIndex
          (some { op with number := -1 }) }

def snapshot (kv : ShardKV) : Snapshot where
  mp := kv.mp
  ckSessions := kv.ckSessions
  config := kv.config
  shardLastNums := kv.shardLastNums
  shardVec := kv.shardVec

/-
  One message of applyCh. `full` is the outcome of the test
  of the persisted size against maxraftstate; the second
  component is the snapshot handed to rf.Snapshot.
-/
def handleApplyMsg
    (kv : ShardKV)
    (full : Bool) :
    Delivery → ShardKV × Option Snapshot
| .command commandIndex op =>
    let applied := kv.applyCommand commandIndex op
    (applied,
      if full && !kv.stable commandIndex op then
        some applied.snapshot
      else
        none)
| .snapshot snapshotIndex snapshot =>
    ({ kv with
      mp := snapshot.mp
      ckSessions := snapshot.ckSessions
      config := snapshot.config
      shardVec := snapshot.shardVec
      shardLastNums := snapshot.shardLastNums
      lastApplied := snapshotIndex }, none)

/- One operation of a log delivered in index order. -/
def deliverOp
    (full : Int → Bool)
    (kv : ShardKV)
    (op : Op) : ShardKV :=
  (kv.handleApplyMsg (full (kv.lastApplied + 1))
    (.command (kv.lastApplied + 1) op)).1

/- A log delivered in index order to a started server. -/
def deliver
    (full : Int → Bool)
    (gid : Int)
    (log : List Op) : ShardKV :=
  log.foldl (deliverOp full) (start gid)

end ShardKV

------------------------------------------------------------
-- The Store Is A Filtered Machine
------------------------------------------------------------

/- An entry that may change the store when it is executed. -/
def Op.writes (op : Op) : Bool :=
  match op.args with
  | .get _ => false
  | _ => true

theorem Store.applyOp_of_not_writes
    {op : Op}
    (hRead : op.writes = false)
    (st : Store) :
    (st.applyOp op.args).1 = st := by
  cases hArgs : op.args with
  | get key => rfl
  | _ => simp [Op.writes, hArgs] at hRead

/- An entry is executed when it is not stable and applies. -/
def ShardKV.executes (kv : ShardKV) (op : Op) : Bool :=
  !kv.stable (kv.lastApplied + 1) op &&
    (kv.toStore.applyOp op.args).2 && op.writes

theorem ShardKV.deliverOp_store
    (full : Int → Bool)
    (kv : ShardKV)
    (op : Op) :
    (kv.deliverOp full op).toStore =
      if kv.executes op then
        (kv.toStore.applyOp op.args).1
      else
        kv.toStore := by
  change (kv.applyCommand (kv.lastApplied + 1) op).toStore = _
  unfold applyCommand executes
  cases kv.stable (kv.lastApplied + 1) op with
  | true => rfl
  | false =>
      cases (kv.toStore.applyOp op.args).2 with
      | false => rfl
      | true =>
          cases hWrites : op.writes with
          | true => rfl
          | false =>
              simp [Store.applyOp_of_not_writes hWrites]

/- The store, moved by the executed entries. -/
def machine (full : Int → Bool) :
    FilteredMachine ShardKV Store Op where
  step kv op := some (kv.deliverOp full op)
  core := ShardKV.toStore
  accepts := ShardKV.executes
  apply st op := some (st.applyOp op.args).1
  step_core kv op := by
    rw [Option.map_some, ShardKV.deliverOp_store]
    split <;> rfl

theorem machine_run
    (full : Int → Bool)
    (kv : ShardKV)
    (log : List Op) :
    (machine full).run kv log =
      some (log.foldl (ShardKV.deliverOp full) kv) := by
  induction log generalizing kv with
  | nil => rfl
  | cons op log ih =>
      rw [FilteredMachine.run_cons]
      exact ih (kv.deliverOp full op)

/- The executed entries of a log, in order. -/
def executed
    (full : Int → Bool)
    (gid : Int)
    (log : List Op) : List Op :=
  (machine full).accepted (ShardKV.start gid) log

end Shardkv

end RaftLab
