import RaftLab.Service.Session

/-
  The replicated state of kvraft (src/kvraft/server.go) and
  the loop that applies what Raft delivers to it.

  `log.Fatalf` is `none`. Go maps are partial functions, read
  with the zero value as default. The zero Op inside a zero
  Session is never read, since LastOpVaild is false there.
  Not modelled: `confirmMap` is never written, so the clean
  up of `logRecord` before a snapshot removes nothing, and
  `Maker` and `ServerName` only serve debugging.

  Main declarations:
    * `Kvraft.Op`, `Kvraft.KVServer`, `Kvraft.Delivery`
    * `Kvraft.KVServer.handleApplyMsg`
    * `Kvraft.KVServer.deliver`
    * `Kvraft.machine`, `Kvraft.executed`
-/

------------------------------------------------------------
-- Operations And State
------------------------------------------------------------

namespace RaftLab

namespace Kvraft

inductive OpType where
  | get
  | put
  | append
deriving DecidableEq, Repr

structure Op where
  type : OpType
  number : Int
  key : String
  value : String
  reqNum : Int
  ckId : Int
deriving DecidableEq, Repr

/- The request an entry stands for. -/
def Op.request (op : Op) : Int × Int :=
  (op.ckId, op.reqNum)

structure Snapshot where
  mp : String → Option String
  ckSessions : Sessions Op

structure KVServer where
  mp : String → Option String
  ckSessions : Sessions Op
  logRecord : Int → Option Op
  lastApplied : Int

/- The state StartKVServer sets up. -/
def KVServer.start : KVServer where
  mp := fun _ => none
  ckSessions := fun _ => none
  logRecord := fun _ => none
  lastApplied := 0

/- An ApplyMsg, with the snapshot decoded. -/
inductive Delivery where
  | command (commandIndex : Int) (op : Op)
  | snapshot (snapshotIndex : Int) (snapshot : Snapshot)

------------------------------------------------------------
-- handleApplyMsg
------------------------------------------------------------

/- The switch on the type of an operation. -/
def applyOp
    (mp : String → Option String)
    (op : Op) : String → Option String :=
  match op.type with
  | .get => mp
  | .put => Function.update mp op.key (some op.value)
  | .append =>
      Function.update mp op.key
        (some ((mp op.key).getD "" ++ op.value))

namespace KVServer

/-
  One message of applyCh. `full` is the outcome of the test
  of the persisted size against maxraftstate; the second
  component is the snapshot handed to rf.Snapshot.
-/
def handleApplyMsg
    (kv : KVServer)
    (full : Bool) :
    Delivery → Option (KVServer × Option Snapshot)
| .command commandIndex op =>
    if kv.lastApplied + 1 ≠ commandIndex then
      none
    else
      let recorded : KVServer := { kv with
        logRecord :=
          Function.update kv.logRecord commandIndex
            (some op)
        lastApplied := commandIndex
        ckSessions :=
          kv.ckSessions.setSession Op.ckId commandIndex op }
      -- A stable operation also rewrites the session.
      if kv.ckSessions.stable
          Op.ckId Op.reqNum commandIndex op then
        some (recorded, none)
      else
        let applied : KVServer := { recorded with
          mp := applyOp recorded.mp op }
        some (applied,
          if full then
            some {
              mp := applied.mp
              ckSessions := applied.ckSessions }
          else
            none)
| .snapshot snapshotIndex snapshot =>
    some ({ kv with
      mp := snapshot.mp
      ckSessions := snapshot.ckSessions
      lastApplied := snapshotIndex }, none)

/-
  One operation of a log delivered in index order. The test
  of the persisted size may come out either way.
-/
def deliverOp
    (full : Int → Bool)
    (kv : KVServer)
    (op : Op) : Option KVServer :=
  (kv.handleApplyMsg (full (kv.lastApplied + 1))
    (.command (kv.lastApplied + 1) op)).map Prod.fst

/- A log delivered in index order to a started server. -/
def deliver
    (full : Int → Bool)
    (log : List Op) : Option KVServer :=
  log.foldlM (deliverOp full) start

end KVServer

------------------------------------------------------------
-- The Map Is A Filtered Machine
------------------------------------------------------------

/- An entry that writes the map when it is executed. -/
def Op.writes (op : Op) : Bool :=
  op.type != .get

theorem applyOp_of_not_writes
    {op : Op}
    (hRead : op.writes = false)
    (mp : String → Option String) :
    applyOp mp op = mp := by
  unfold applyOp
  cases hType : op.type with
  | get => rfl
  | put => simp [Op.writes, hType] at hRead
  | append => simp [Op.writes, hType] at hRead

/- What one operation of the log does to the server. -/
theorem KVServer.deliverOp_eq
    (full : Int → Bool)
    (kv : KVServer)
    (op : Op) :
    ∃ kv',
      kv.deliverOp full op = some kv' ∧
      kv'.lastApplied = kv.lastApplied + 1 ∧
      kv'.ckSessions =
        kv.ckSessions.setSession Op.ckId
          (kv.lastApplied + 1) op ∧
      kv'.mp =
        if kv.ckSessions.stable Op.ckId Op.reqNum
            (kv.lastApplied + 1) op then
          kv.mp
        else
          applyOp kv.mp op := by
  simp only [deliverOp, handleApplyMsg, ne_eq,
    not_true_eq_false, if_false]
  split
  · exact ⟨_, rfl, rfl, rfl, rfl⟩
  · exact ⟨_, rfl, rfl, rfl, rfl⟩

/- It is recorded under its index. -/
theorem KVServer.deliverOp_record
    {full : Int → Bool}
    {kv kv' : KVServer}
    {op : Op}
    (hStep : kv.deliverOp full op = some kv') :
    kv'.logRecord =
      Function.update kv.logRecord (kv.lastApplied + 1)
        (some op) := by
  simp only [deliverOp, handleApplyMsg, ne_eq,
    not_true_eq_false, if_false] at hStep
  split at hStep
  · cases hStep
    rfl
  · cases hStep
    rfl

/- The map of the server, moved by the executed writes. -/
def machine (full : Int → Bool) :
    SessionMachine KVServer (String → Option String) Op
      Op.ckId Op.reqNum where
  step := KVServer.deliverOp full
  core := KVServer.mp
  accepts kv op :=
    !kv.ckSessions.stable Op.ckId Op.reqNum
      (kv.lastApplied + 1) op && op.writes
  apply mp op := some (applyOp mp op)
  step_core kv op := by
    rcases kv.deliverOp_eq full op with
      ⟨kv', hStep, _, _, hMp⟩
    rw [hStep, Option.map_some, hMp]
    cases kv.ckSessions.stable Op.ckId Op.reqNum
      (kv.lastApplied + 1) op with
    | true => rfl
    | false =>
        cases hWrites : op.writes with
        | true => rfl
        | false => simp [applyOp_of_not_writes hWrites]
  ckSessions := KVServer.ckSessions
  lastApplied := KVServer.lastApplied
  writes := Op.writes
  step_record kv op kv' hStep := by
    rcases kv.deliverOp_eq full op with
      ⟨_, hStep', hApplied, hSessions, _⟩
    rw [hStep] at hStep'
    cases hStep'
    exact ⟨hApplied, hSessions⟩
  accepts_eq _ _ := rfl

theorem start_fresh (full : Int → Bool) :
    (machine full).Fresh KVServer.start where
  ckSessions := rfl
  lastApplied := rfl

/- A log in index order is delivered to its end. -/
theorem deliver_isSome
    (full : Int → Bool)
    (log : List Op) :
    ∃ kv, KVServer.deliver full log = some kv := by
  unfold KVServer.deliver
  generalize KVServer.start = kv
  induction log generalizing kv with
  | nil => exact ⟨kv, rfl⟩
  | cons op log ih =>
      rcases kv.deliverOp_eq full op with ⟨kv', hStep, _⟩
      rw [List.foldlM_cons, hStep]
      exact ih kv'

/- The executed writes of a log, in order. -/
def executed (full : Int → Bool) (log : List Op) : List Op :=
  (machine full).accepted KVServer.start log

end Kvraft

end RaftLab
