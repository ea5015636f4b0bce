import RaftLab.Shardkv.Server

/-
  How the session of a client and shard comes about in a
  shardkv group, and which entries lose it.

  An entry rewrites the session of its own client and shard
  unless it fails. In addition, a movement installs sessions
  it brings along, and a deletion removes the sessions of the
  shards it deletes. So a session that covers a request may
  fall back at three kinds of entries: a smaller request of
  the same client and shard, a movement with an older session
  and a deletion. Where none of them stands between two
  entries of one request, the second is not executed.

  Main declarations:
    * `Shardkv.ShardKV.sessionWrite`
    * `Shardkv.ShardKV.deliverOp_session`
    * `Shardkv.ShardKV.loses`, `Shardkv.SessionsKept`
    * `Shardkv.deliver_covers`, `Shardkv.executed_nodup`
-/

------------------------------------------------------------
-- One Entry
------------------------------------------------------------

namespace RaftLab

namespace Shardkv

open Shardctrler (Shard Config)

/- What the body of an applied entry writes at a key. -/
def bodyWrite
    (st : Store)
    (ckSessions : Sessions)
    (key : String) :
    Args → Option (Option Session)
| .applyMovement _ sessions config _ =>
    match sessions key with
    | some session =>
        if ofClient key ∧
            st.shardLastNums session.lastOpShardNum ≥
              config.num then
          none
        else
          some (some { session with lastOpIndex := -1 })
    | none => none
| .deleteShards shards configNum =>
    match ckSessions key with
    | some session =>
        if ofClient key ∧
            st.deletedShards shards configNum
              session.lastOpShardNum then
          some none
        else
          none
    | none => none
| _ => none

/- The session that the next entry writes for itself. -/
def ShardKV.ownSession
    (kv : ShardKV)
    (op : Op) : Session where
  lastOpVaild := true
  lastOpIndex := kv.lastApplied + 1
  lastOpNumber := op.number
  lastOpReqNum := op.reqNum
  lastOpShardNum := op.shardNum

/-
  What an entry writes at a key of ckSessions: nothing, the
  removal of the session, or a session.
-/
def ShardKV.sessionWrite
    (kv : ShardKV)
    (op : Op)
    (key : String) : Option (Option Session) :=
  if kv.stable (kv.lastApplied + 1) op then
    if key = op.uniKey then some (some (kv.ownSession op))
    else none
  else if (kv.toStore.applyOp op.args).2 then
    if key = op.uniKey then some (some (kv.ownSession op))
    else bodyWrite kv.toStore kv.ckSessions key op.args
  else
    none

theorem applySessions_eq
    (st : Store)
    (ckSessions : Sessions)
    (key : String)
    (args : Args) :
    applySessions st ckSessions args key =
      (bodyWrite st ckSessions key args).getD
        (ckSessions key) := by
  cases args with
  | applyMovement mp sessions config shards =>
      unfold applySessions bodyWrite
      dsimp only
      cases sessions key with
      | none => rfl
      | some session =>
          dsimp only
          split <;> rfl
  | deleteShards shards configNum =>
      unfold applySessions bodyWrite
      dsimp only
      cases hSession : ckSessions key with
      | none => rfl
      | some session =>
          dsimp only
          split <;> simp
  | _ => rfl

theorem ShardKV.deliverOp_session
    (full : Int → Bool)
    (kv : ShardKV)
    (op : Op)
    (key : String) :
    (kv.deliverOp full op).ckSessions key =
      (kv.sessionWrite op key).getD (kv.ckSessions key) := by
  change (kv.applyCommand (kv.lastApplied + 1) op).ckSessions
    key = _
  unfold applyCommand sessionWrite
  cases kv.stable (kv.lastApplied + 1) op with
  | true =>
      by_cases hKey : key = op.uniKey
      · simp [setSession, ownSession, hKey]
      · simp [setSession, hKey]
  | false =>
      cases (kv.toStore.applyOp op.args).2 with
      | false => rfl
      | true =>
          by_cases hKey : key = op.uniKey
          · simp [setSession, ownSession, hKey]
          · simp [setSession, hKey, applySessions_eq]

theorem ShardKV.deliverOp_lastApplied
    (full : Int → Bool)
    (kv : ShardKV)
    (op : Op) :
    (kv.deliverOp full op).lastApplied =
      kv.lastApplied + 1 := by
  change (kv.applyCommand (kv.lastApplied + 1) op).lastApplied
    = _
  unfold applyCommand
  split
  · rfl
  · split <;> rfl

/-
  A write at a key is the own session of an entry of this
  client and shard, or stems from the body of another entry.
-/
theorem ShardKV.sessionWrite_cases
    {kv : ShardKV}
    {op : Op}
    {key : String}
    {written : Option Session}
    (hWrite : kv.sessionWrite op key = some written) :
    (key = op.uniKey ∧ written = some (kv.ownSession op)) ∨
      (key ≠ op.uniKey ∧
        kv.stable (kv.lastApplied + 1) op = false ∧
        bodyWrite kv.toStore kv.ckSessions key op.args =
          some written) := by
  unfold sessionWrite at hWrite
  by_cases hKey : key = op.uniKey
  · left
    refine ⟨hKey, ?_⟩
    rw [if_pos hKey, if_pos hKey] at hWrite
    split at hWrite
    · exact (Option.some.inj hWrite).symm
    · split at hWrite
      · exact (Option.some.inj hWrite).symm
      · cases hWrite
  · right
    rw [if_neg hKey, if_neg hKey] at hWrite
    split at hWrite
    · cases hWrite
    · next hApplies =>
        split at hWrite
        · exact ⟨hKey, Bool.eq_false_iff.mpr hApplies,
            hWrite⟩
        · cases hWrite

/- The sessions of a movement are as old as can be. -/
theorem bodyWrite_index
    {st : Store}
    {ckSessions : Sessions}
    {key : String}
    {args : Args}
    {session : Session}
    (hWrite : bodyWrite st ckSessions key args =
      some (some session)) :
    session.lastOpIndex = -1 := by
  unfold bodyWrite at hWrite
  split at hWrite
  · split at hWrite
    · split at hWrite
      · cases hWrite
      · cases hWrite
        rfl
    · cases hWrite
  · split at hWrite
    · split at hWrite <;> cases hWrite
    · cases hWrite
  · cases hWrite

------------------------------------------------------------
-- A Whole Log
------------------------------------------------------------

theorem deliver_snoc
    (full : Int → Bool)
    (gid : Int)
    (log : List Op)
    (op : Op) :
    ShardKV.deliver full gid (log ++ [op]) =
      (ShardKV.deliver full gid log).deliverOp full op := by
  unfold ShardKV.deliver
  rw [List.foldl_append]
  rfl

/- Every session is older than the next entry. -/
theorem deliver_index
    (full : Int → Bool)
    (gid : Int)
    (log : List Op) :
    let kv := ShardKV.deliver full gid log
    0 ≤ kv.lastApplied ∧
      ∀ key session,
        kv.ckSessions key = some session →
        session.lastOpIndex ≤ kv.lastApplied := by
  induction log using List.reverseRecOn with
  | nil =>
      constructor
      · exact le_refl _
      · intro key session hSession
        cases hSession
  | append_singleton log op ih =>
      rcases ih with ⟨hApplied, hOld⟩
      dsimp only
      rw [deliver_snoc, ShardKV.deliverOp_lastApplied]
      constructor
      · omega
      · intro key session hSession
        rw [ShardKV.deliverOp_session] at hSession
        cases hWrite : (ShardKV.deliver full gid
          log).sessionWrite op key with
        | none =>
            rw [hWrite] at hSession
            have hLe := hOld key session hSession
            omega
        | some written =>
            rw [hWrite] at hSession
            have hSome : written = some session := hSession
            rcases ShardKV.sessionWrite_cases hWrite with
              ⟨_, hOwn⟩ | ⟨_, _, hBody⟩
            · rw [hSome] at hOwn
              cases hOwn
              exact le_refl _
            · rw [hSome] at hBody
              have hMoved := bodyWrite_index hBody
              omega

------------------------------------------------------------
-- Lost Sessions
------------------------------------------------------------

/- A request up to this number counts as seen. -/
def Session.covers
    (session : Session)
    (reqNum : Int) : Bool :=
  session.lastOpVaild &&
    decide (reqNum ≤ session.lastOpReqNum)

/- The session at the key covers the request number. -/
def Sessions.covers
    (ckSessions : Sessions)
    (key : String)
    (reqNum : Int) : Bool :=
  (ckSessions key).any fun session => session.covers reqNum

/-
  The entry loses the session at the key for the request
  number. The session covers the number before the entry, and
  the entry is
  * a smaller request of the same client and shard, which is
    stable and lowers the number,
  * a movement that installs a session not covering it, or
  * a deletion of the session's shard.
-/
def ShardKV.loses
    (kv : ShardKV)
    (op : Op)
    (key : String)
    (reqNum : Int) : Bool :=
  kv.ckSessions.covers key reqNum &&
    if key = op.uniKey then
      decide (op.reqNum < reqNum)
    else
      !kv.stable (kv.lastApplied + 1) op &&
        match op.args with
        | .applyMovement _ sessions config _ =>
            (sessions key).any fun moved =>
              !moved.covers reqNum &&
                !(ofClient key &&
                  decide (config.num ≤
                    kv.shardLastNums moved.lastOpShardNum))
        | .deleteShards shards configNum =>
            ofClient key &&
              (kv.ckSessions key).any fun session =>
                kv.deletedShards shards configNum
                  session.lastOpShardNum
        | _ => false

/- What a body writes keeps a session it does not lose. -/
theorem bodyWrite_covers
    {kv : ShardKV}
    {op : Op}
    {key : String}
    {reqNum : Int}
    (hKey : ¬ key = op.uniKey)
    (hApplies : kv.stable (kv.lastApplied + 1) op = false)
    (hCovers : kv.ckSessions.covers key reqNum = true)
    (hKept : kv.loses op key reqNum = false)
    {written : Option Session}
    (hWrite : bodyWrite kv.toStore kv.ckSessions key op.args =
      some written) :
    (written.any fun session =>
      session.covers reqNum) = true := by
  unfold ShardKV.loses at hKept
  rw [hCovers, if_neg hKey, hApplies] at hKept
  unfold bodyWrite at hWrite
  split at hWrite
  · next mp sessions config shards hArgs =>
      rw [hArgs] at hKept
      split at hWrite
      · next moved hMoved =>
          split at hWrite
          · cases hWrite
          · next hInstalled =>
              cases hWrite
              have hClosed :
                  (ofClient key &&
                    decide (config.num ≤ kv.shardLastNums
                      moved.lastOpShardNum)) = false := by
                simpa using hInstalled
              dsimp only at hKept
              rw [hMoved, Option.any_some, hClosed] at hKept
              simpa [Session.covers] using hKept
      · cases hWrite
  · next shards configNum hArgs =>
      rw [hArgs] at hKept
      split at hWrite
      · next session hSession =>
          split at hWrite
          · next hDeleted =>
              exfalso
              simp [hSession, hDeleted] at hKept
          · cases hWrite
      · cases hWrite
  · cases hWrite

/- An entry that does not lose the session keeps it. -/
theorem ShardKV.deliverOp_covers
    (full : Int → Bool)
    {kv : ShardKV}
    {op : Op}
    {key : String}
    {reqNum : Int}
    (hCovers : kv.ckSessions.covers key reqNum = true)
    (hKept : kv.loses op key reqNum = false) :
    (kv.deliverOp full op).ckSessions.covers key reqNum =
      true := by
  have hRead := kv.deliverOp_session full op key
  cases hWrite : kv.sessionWrite op key with
  | none =>
      rw [hWrite] at hRead
      unfold Sessions.covers at hCovers ⊢
      rw [hRead]
      exact hCovers
  | some written =>
      rw [hWrite] at hRead
      unfold Sessions.covers
      rw [hRead]
      rcases sessionWrite_cases hWrite with
        ⟨hKey, hOwn⟩ | ⟨hKey, hApplies, hBody⟩
      · unfold loses at hKept
        rw [hCovers, if_pos hKey] at hKept
        rw [hOwn]
        simpa [Session.covers, ownSession] using hKept
      · exact bodyWrite_covers hKey hApplies hCovers hKept
          hBody

/- A covered request is a stable operation. -/
theorem deliver_stable
    {full : Int → Bool}
    {gid : Int}
    {log : List Op}
    {op : Op}
    (hCovers : (ShardKV.deliver full gid
      log).ckSessions.covers op.uniKey op.reqNum = true) :
    (ShardKV.deliver full gid log).stable
      ((ShardKV.deliver full gid log).lastApplied + 1) op =
        true := by
  unfold Sessions.covers at hCovers
  unfold ShardKV.stable
  cases hSession : (ShardKV.deliver full gid log).ckSessions
    op.uniKey with
  | none =>
      rw [hSession] at hCovers
      cases hCovers
  | some session =>
      rw [hSession] at hCovers
      have hOlder :
          session.lastOpIndex <
            (ShardKV.deliver full gid log).lastApplied + 1 :=
        Int.lt_add_one_of_le
          ((deliver_index full gid log).2 _ _ hSession)
      simpa [Session.covers, hOlder] using hCovers

theorem ShardKV.executes_iff
    {kv : ShardKV}
    {op : Op} :
    kv.executes op = true ↔
      kv.stable (kv.lastApplied + 1) op = false ∧
      (kv.toStore.applyOp op.args).2 = true ∧
      op.writes = true := by
  unfold executes
  rw [Bool.and_eq_true, Bool.and_eq_true, Bool.not_eq_true',
    and_assoc]

/- An executed entry covers its own request. -/
theorem ShardKV.deliverOp_covers_own
    (full : Int → Bool)
    {kv : ShardKV}
    {op : Op}
    (hExecutes : kv.executes op = true) :
    (kv.deliverOp full op).ckSessions.covers op.uniKey
      op.reqNum = true := by
  rcases executes_iff.mp hExecutes with
    ⟨hApplies, hServed, _⟩
  have hWrite : kv.sessionWrite op op.uniKey =
      some (some (kv.ownSession op)) := by
    simp [sessionWrite, hApplies, hServed]
  unfold Sessions.covers
  rw [deliverOp_session, hWrite]
  simp [Session.covers, ownSession]

------------------------------------------------------------
-- Requests Executed Twice
------------------------------------------------------------

/-
  The entries of one write request name one shard, and no
  entry between two of them loses the session of its client
  and shard.
-/
structure SessionsKept
    (full : Int → Bool)
    (gid : Int)
    (log : List Op) : Prop where
  shard : ∀ i j : Fin log.length,
    log[i].writes = true →
    log[j].writes = true →
    log[i].request = log[j].request →
    log[i].shardNum = log[j].shardNum
  kept : ∀ i k j : Fin log.length,
    i < k →
    k < j →
    log[i].writes = true →
    log[j].writes = true →
    log[i].request = log[j].request →
    (ShardKV.deliver full gid (log.take k)).loses log[k]
      log[i].uniKey log[i].reqNum = false

/- From an executed entry on, its session covers it. -/
theorem deliver_covers
    {full : Int → Bool}
    {gid : Int}
    {log : List Op}
    (i : Fin log.length)
    (hExecutes :
      (ShardKV.deliver full gid (log.take i)).executes
        log[i] = true)
    (n : Nat)
    (hAfter : i < n)
    (hWithin : n ≤ log.length)
    (hKept : ∀ k : Fin log.length,
      i < k →
      k < n →
      (ShardKV.deliver full gid (log.take k)).loses log[k]
        log[i].uniKey log[i].reqNum = false) :
    (ShardKV.deliver full gid (log.take n)).ckSessions.covers
      log[i].uniKey log[i].reqNum = true := by
  -- Along the positions after the executed entry.
  induction n with
  | zero => omega
  | succ n ih =>
      have hLt : n < log.length := hWithin
      rw [List.take_succ_eq_append_getElem hLt, deliver_snoc]
      rcases Nat.lt_or_eq_of_le (Nat.le_of_lt_succ hAfter)
        with hLater | hHere
      · apply ShardKV.deliverOp_covers
        · exact ih hLater (Nat.le_of_lt hLt)
            (fun k hK hKn => hKept k hK (by omega))
        · exact hKept ⟨n, hLt⟩ hLater (Nat.lt_succ_self n)
      · subst hHere
        exact ShardKV.deliverOp_covers_own full hExecutes

/- Where sessions are kept, no request is executed twice. -/
theorem executed_nodup
    {full : Int → Bool}
    {gid : Int}
    {log : List Op}
    (hKept : SessionsKept full gid log) :
    ((executed full gid log).map Op.request).Nodup := by
  apply ((machine full).accepted_nodup_iff Op.request).mpr
  intro i j a b kv₁ kv₂ hLt hAt hAt' hRequest hRun₁ hRun₂
    hExecutes
  rw [machine_run] at hRun₁ hRun₂
  cases hRun₁
  cases hRun₂
  rcases List.getElem?_eq_some_iff.mp hAt with ⟨hI, rfl⟩
  rcases List.getElem?_eq_some_iff.mp hAt' with ⟨hJ, rfl⟩
  apply Bool.eq_false_iff.mpr
  intro hAgain
  rcases ShardKV.executes_iff.mp hExecutes with ⟨_, _, hWrites⟩
  rcases ShardKV.executes_iff.mp hAgain with
    ⟨hApplies, _, hWrites'⟩
  have hClient : log[i].ckId = log[j].ckId :=
    congrArg Prod.fst hRequest
  have hNum : log[i].reqNum = log[j].reqNum :=
    congrArg Prod.snd hRequest
  have hShard : log[i].shardNum = log[j].shardNum :=
    hKept.shard ⟨i, hI⟩ ⟨j, hJ⟩ hWrites hWrites' hRequest
  have hCovers :
      (ShardKV.deliver full gid
        (log.take j)).ckSessions.covers log[i].uniKey
          log[i].reqNum = true :=
    deliver_covers ⟨i, hI⟩ hExecutes j hLt (Nat.le_of_lt hJ)
      (fun k hK hKj => hKept.kept ⟨i, hI⟩ k ⟨j, hJ⟩ hK hKj
        hWrites hWrites' hRequest)
  unfold Op.uniKey at hCovers
  rw [hClient, hNum, hShard] at hCovers
  exact absurd (deliver_stable hCovers)
    (Bool.eq_false_iff.mp hApplies)

end Shardkv

end RaftLab
