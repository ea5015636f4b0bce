import Mathlib.Data.List.Sublists
import RaftLab.Kvraft.Server
import RaftLab.Shardctrler.Server
import RaftLab.Shardkv.Sessions

/-
  At-most-once application in the three replicated services.

  The state of each service is the plain fold of the entries
  it executes. These entries repeat no request when the
  session that the filter looks at has not fallen back: for
  kvraft and shardctrler this is a condition on the order of
  the request numbers in the log, for shardkv, where shards
  and their sessions come and go, one on the entries between
  two entries of one request.

  Main declarations:
    * `Service.at_most_once`
    * `Service.executed_twice`
-/

------------------------------------------------------------
-- Executed Entries
------------------------------------------------------------

namespace RaftLab

/- The map of kvraft is the fold of the executed writes. -/
theorem Kvraft.deliver_mp
    {full : Int → Bool}
    {log : List Kvraft.Op}
    {kv : Kvraft.KVServer}
    (hRun : Kvraft.KVServer.deliver full log = some kv) :
    kv.mp = (Kvraft.executed full log).foldl Kvraft.applyOp
      Kvraft.KVServer.start.mp :=
  (Kvraft.machine full).run_core_total
    (fun _ _ => rfl) hRun

/- Likewise the configurations of shardctrler. -/
theorem Shardctrler.deliver_configs
    {full : Int → Bool}
    {log : List Shardctrler.Op}
    {sc : Shardctrler.ShardCtrler}
    (hRun : Shardctrler.ShardCtrler.deliver full log =
      some sc) :
    (Shardctrler.executed full log).foldlM
        Shardctrler.applyOp
        Shardctrler.ShardCtrler.start.configs =
      some sc.configs := by
  have hCore := (Shardctrler.machine full).run_core
    Shardctrler.ShardCtrler.start log
  change (Shardctrler.ShardCtrler.deliver full log).map _ =
    _ at hCore
  rw [hRun] at hCore
  exact hCore.symm

/- Likewise the store of a shardkv group. -/
theorem Shardkv.deliver_store
    (full : Int → Bool)
    (gid : Int)
    (log : List Shardkv.Op) :
    (Shardkv.ShardKV.deliver full gid log).toStore =
      (Shardkv.executed full gid log).foldl
        (fun st op => (st.applyOp op.args).1)
        (Shardkv.ShardKV.start gid).toStore :=
  (Shardkv.machine full).run_core_total
    (fun _ _ => rfl)
    (Shardkv.machine_run full (Shardkv.ShardKV.start gid)
      log)

namespace Service

------------------------------------------------------------
-- A Late Duplicate Reopens The Filter
------------------------------------------------------------

/-
  Client 1 reads (request 1) and then appends (request 2).
  Another read with the given number follows before the late
  duplicate of the append. If it is a late duplicate of the
  first read, it lowers the session to 1 and the append is
  executed again.
-/
def kvraftLog (between : Int) : List Kvraft.Op :=
  let read : Kvraft.Op := {
    type := .get
    number := 11
    key := "k"
    value := ""
    reqNum := 1
    ckId := 1 }
  let write : Kvraft.Op := {
    type := .append
    number := 12
    key := "k"
    value := "a"
    reqNum := 2
    ckId := 1 }
  [read, write,
    { read with number := 13, reqNum := between },
    { write with number := 14 }]

/- The same with a Query and a Join. -/
def shardctrlerLog (between : Int) :
    List Shardctrler.Op :=
  let read : Shardctrler.Op := {
    number := 11
    reqNum := 1
    ckId := 1
    args := .query (-1) }
  let write : Shardctrler.Op := {
    number := 12
    reqNum := 2
    ckId := 1
    args := .join (AList.insert 1 ["a"] ∅) }
  [read, write,
    { read with number := 13, reqNum := between },
    { write with number := 14 }]

/- The same in group 1, once it serves all shards. -/
def shardkvLog (between : Int) : List Shardkv.Op :=
  let config : Shardctrler.Config := {
    num := 1
    shards := fun _ => 1
    groups := AList.insert 1 ["a"] ∅ }
  let serve : Shardkv.Op := {
    number := 10
    reqNum := 1
    ckId := -7
    shardNum := Shardkv.key2shard ""
    args := .changeConfig config }
  let read : Shardkv.Op := {
    number := 11
    reqNum := 1
    ckId := 1
    shardNum := Shardkv.key2shard "k"
    args := .get "k" }
  let write : Shardkv.Op := {
    number := 12
    reqNum := 2
    ckId := 1
    shardNum := Shardkv.key2shard "k"
    args := .append "k" "a" }
  [serve, read, write,
    { read with number := 13, reqNum := between },
    { write with number := 14 }]

------------------------------------------------------------
-- At-Most-Once Application
------------------------------------------------------------

/-
  The state of each service is the plain fold of the executed
  entries, a subsequence of the log. For kvraft and
  shardctrler it repeats no request exactly when no write
  stands at two positions of the log at which it is its
  client's first entry or follows a smaller number of its
  client; for shardkv it repeats none when no entry between
  two entries of one write loses its session.
-/
theorem at_most_once
    (full : Int → Bool) :
    (∀ log : List Kvraft.Op, ∃ kv,
      Kvraft.KVServer.deliver full log = some kv ∧
      kv.mp = (Kvraft.executed full log).foldl
        Kvraft.applyOp Kvraft.KVServer.start.mp ∧
      (Kvraft.executed full log).Sublist log ∧
      (((Kvraft.executed full log).map
          Kvraft.Op.request).Nodup ↔
        RisesOnce Kvraft.Op.ckId Kvraft.Op.reqNum
          Kvraft.Op.writes log)) ∧
    (∀ (log : List Shardctrler.Op)
        (sc : Shardctrler.ShardCtrler),
      Shardctrler.ShardCtrler.deliver full log = some sc →
      (Shardctrler.executed full log).foldlM
          Shardctrler.applyOp
          Shardctrler.ShardCtrler.start.configs =
        some sc.configs ∧
      (Shardctrler.executed full log).Sublist log ∧
      (((Shardctrler.executed full log).map
          Shardctrler.Op.request).Nodup ↔
        RisesOnce Shardctrler.Op.ckId Shardctrler.Op.reqNum
          Shardctrler.Op.writes log)) ∧
    (∀ (gid : Int) (log : List Shardkv.Op),
      (Shardkv.ShardKV.deliver full gid log).toStore =
        (Shardkv.executed full gid log).foldl
          (fun st op => (st.applyOp op.args).1)
          (Shardkv.ShardKV.start gid).toStore ∧
      (Shardkv.executed full gid log).Sublist log ∧
      (Shardkv.SessionsKept full gid log →
        ((Shardkv.executed full gid log).map
          Shardkv.Op.request).Nodup)) := by
  refine ⟨?_, ?_, ?_⟩
  · intro log
    rcases Kvraft.deliver_isSome full log with ⟨kv, hRun⟩
    refine ⟨kv, hRun, Kvraft.deliver_mp hRun, ?_, ?_⟩
    · exact FilteredMachine.accepted_sublist _ _ log
    · exact (Kvraft.machine full).executed_nodup_iff
        (Kvraft.start_fresh full) hRun
  · intro log sc hRun
    refine ⟨Shardctrler.deliver_configs hRun, ?_, ?_⟩
    · exact FilteredMachine.accepted_sublist _ _ log
    · exact (Shardctrler.machine full).executed_nodup_iff
        (Shardctrler.start_fresh full) hRun
  · intro gid log
    refine ⟨Shardkv.deliver_store full gid log, ?_, ?_⟩
    · exact FilteredMachine.accepted_sublist _ _ log
    · exact Shardkv.executed_nodup

/- With a newer read in between, the duplicate is refused. -/
theorem at_most_once_newer_read :
    (∃ kv,
      Kvraft.KVServer.deliver (fun _ => false)
        (kvraftLog 3) = some kv ∧
      kv.mp = (Kvraft.executed (fun _ => false)
        (kvraftLog 3)).foldl Kvraft.applyOp
          Kvraft.KVServer.start.mp ∧
      RisesOnce Kvraft.Op.ckId Kvraft.Op.reqNum
        Kvraft.Op.writes (kvraftLog 3)) ∧
    (∃ sc,
      Shardctrler.ShardCtrler.deliver (fun _ => false)
        (shardctrlerLog 3) = some sc ∧
      (Shardctrler.executed (fun _ => false)
          (shardctrlerLog 3)).foldlM
          Shardctrler.applyOp
          Shardctrler.ShardCtrler.start.configs =
        some sc.configs ∧
      RisesOnce Shardctrler.Op.ckId Shardctrler.Op.reqNum
        Shardctrler.Op.writes (shardctrlerLog 3)) ∧
    Shardkv.SessionsKept (fun _ => false) 1
      (shardkvLog 3) ∧
    ((Shardkv.executed (fun _ => false) 1
      (shardkvLog 3)).map Shardkv.Op.request).Nodup := by
  rcases at_most_once fun _ => false with
    ⟨hKvraft, hShardctrler, hShardkv⟩
  refine ⟨?_, ?_, ?_⟩
  · rcases hKvraft (kvraftLog 3) with
      ⟨kv, hRun, hFold, _, hIff⟩
    exact ⟨kv, hRun, hFold, hIff.mp (by decide)⟩
  · have hRange :
        ∀ op ∈ shardctrlerLog 3, op.inRange = true := by
      decide
    rcases Shardctrler.deliver_isSome (fun _ => false) hRange
      with ⟨sc, hRun, _⟩
    rcases hShardctrler _ sc hRun with ⟨hFold, _, hIff⟩
    exact ⟨sc, hRun, hFold, hIff.mp (by decide)⟩
  · have hKept : Shardkv.SessionsKept (fun _ => false) 1
        (shardkvLog 3) := ⟨by decide, by decide⟩
    exact ⟨hKept, (hShardkv 1 _).2.2 hKept⟩

/-
  The three logs leave states that no duplicate-free
  subsequence folds to.
-/
theorem executed_twice :
    (¬ ∀ (log : List Kvraft.Op) (kv : Kvraft.KVServer),
      Kvraft.KVServer.deliver (fun _ => false) log =
        some kv →
      ∃ sub : List Kvraft.Op,
        sub.Sublist log ∧
        (sub.map Kvraft.Op.request).Nodup ∧
        kv.mp = sub.foldl Kvraft.applyOp
          Kvraft.KVServer.start.mp) ∧
    (¬ ∀ (log : List Shardctrler.Op)
        (sc : Shardctrler.ShardCtrler),
      Shardctrler.ShardCtrler.deliver (fun _ => false) log =
        some sc →
      ∃ sub : List Shardctrler.Op,
        sub.Sublist log ∧
        (sub.map Shardctrler.Op.request).Nodup ∧
        sub.foldlM Shardctrler.applyOp
          Shardctrler.ShardCtrler.start.configs =
            some sc.configs) ∧
    (¬ ∀ (gid : Int) (log : List Shardkv.Op),
      ∃ sub : List Shardkv.Op,
        sub.Sublist log ∧
        (sub.map Shardkv.Op.request).Nodup ∧
        (Shardkv.ShardKV.deliver (fun _ => false) gid
            log).mp =
          (sub.foldl (fun st op => (st.applyOp op.args).1)
            (Shardkv.ShardKV.start gid).toStore).mp) := by
  refine ⟨?_, ?_, ?_⟩
  · intro hAll
    rcases Kvraft.deliver_isSome (fun _ => false)
      (kvraftLog 1) with ⟨kv, hRun⟩
    rcases hAll (kvraftLog 1) kv hRun with
      ⟨sub, hSub, hNodup, hFold⟩
    have hTwice : kv.mp "k" = some "aa" := by
      have hMp :
          (Kvraft.KVServer.deliver (fun _ => false)
            (kvraftLog 1)).map (fun kv => kv.mp "k") =
            some (some "aa") := by
        decide
      rw [hRun] at hMp
      exact Option.some.inj hMp
    have hOnce :
        ∀ sub ∈ (kvraftLog 1).sublists,
          (sub.map Kvraft.Op.request).Nodup →
          sub.foldl Kvraft.applyOp
            Kvraft.KVServer.start.mp "k" ≠ some "aa" := by
      decide
    apply hOnce sub (List.mem_sublists.mpr hSub) hNodup
    rw [← hFold]
    exact hTwice
  · intro hAll
    have hRange :
        ∀ op ∈ shardctrlerLog 1, op.inRange = true := by
      decide
    rcases Shardctrler.deliver_isSome (fun _ => false) hRange
      with ⟨sc, hRun, _⟩
    rcases hAll (shardctrlerLog 1) sc hRun with
      ⟨sub, hSub, hNodup, hFold⟩
    have hTwice : sc.configs.length = 3 := by
      have hLength :
          (Shardctrler.ShardCtrler.deliver (fun _ => false)
            (shardctrlerLog 1)).map
              (fun sc => sc.configs.length) =
            some 3 := by
        decide
      rw [hRun] at hLength
      exact Option.some.inj hLength
    have hOnce :
        ∀ sub ∈ (shardctrlerLog 1).sublists,
          (sub.map Shardctrler.Op.request).Nodup →
          (sub.foldlM Shardctrler.applyOp
            Shardctrler.ShardCtrler.start.configs).map
              List.length ≠ some 3 := by
      decide
    apply hOnce sub (List.mem_sublists.mpr hSub) hNodup
    rw [hFold, Option.map_some, hTwice]
  · intro hAll
    rcases hAll 1 (shardkvLog 1) with
      ⟨sub, hSub, hNodup, hFold⟩
    have hTwice :
        (Shardkv.ShardKV.deliver (fun _ => false) 1
          (shardkvLog 1)).mp "k" = some "aa" := by
      decide
    have hOnce :
        ∀ sub ∈ (shardkvLog 1).sublists,
          (sub.map Shardkv.Op.request).Nodup →
          (sub.foldl (fun st op => (st.applyOp op.args).1)
            (Shardkv.ShardKV.start 1).toStore).mp "k" ≠
              some "aa" := by
      decide
    apply hOnce sub (List.mem_sublists.mpr hSub) hNodup
    rw [← hFold]
    exact hTwice

end Service

end RaftLab
