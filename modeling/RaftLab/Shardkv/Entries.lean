import RaftLab.Shardkv.Replicas

/-
  What the code of a shardkv group puts into its log, and
  what RequestMapAndSession takes out of a replica.

  handleNormalRPC fills in ShardNum from the key and CkId from
  the caller: clients have ids from nrand, servers the negated
  uid, and only the operations of clients have a key. MoveShards
  fills a movement with what RequestMapAndSession collected.

  Main declarations:
    * `Shardkv.uniKey_injective`, `Shardkv.ofClient_uniKey`
    * `Shardkv.Op.Built`, `Shardkv.GroupLog`
    * `Shardkv.ShardKV.requestMapAndSession`
    * `Shardkv.SessionsKeyed`, `Shardkv.stateAt_keyed`
-/

------------------------------------------------------------
-- Keys Of Sessions
------------------------------------------------------------

namespace RaftLab

namespace Shardkv

open Shardctrler (Shard Config)

/- A shard number has one digit. -/
theorem uniKey_toList (ckId : Int) (shardNum : Shard) :
    (uniKey ckId shardNum).toList =
      (toString ckId).toList ++
        [Nat.digitChar shardNum.val] := by
  have hDigit : ∀ s : Shard,
      (toString s.val).toList = [Nat.digitChar s.val] := by
    decide
  unfold uniKey
  rw [String.toList_append, hDigit]

theorem toList_toString_ofNat (n : Nat) :
    (toString (Int.ofNat n)).toList = Nat.toDigits 10 n :=
  Nat.toList_repr

theorem toList_toString_negSucc (n : Nat) :
    (toString (Int.negSucc n)).toList =
      '-' :: Nat.toDigits 10 (n + 1) := by
  change ("-" ++ Nat.repr (n + 1)).toList = _
  rw [String.toList_append, Nat.toList_repr]
  rfl

theorem toDigits_injective
    {n m : Nat}
    (hEq : Nat.toDigits 10 n = Nat.toDigits 10 m) :
    n = m := by
  have hOf := congrArg
    (fun digits => Nat.ofDigitChars 10 digits 0) hEq
  simpa using hOf

theorem dash_not_mem_toDigits (n : Nat) :
    '-' ∉ Nat.toDigits 10 n := by
  intro hMem
  have hDigit := Nat.isDigit_of_mem_toDigits
    (by decide) (by decide) hMem
  revert hDigit
  decide

theorem toString_int_injective
    {a b : Int}
    (hEq : (toString a).toList = (toString b).toList) :
    a = b := by
  cases a with
  | ofNat n =>
      cases b with
      | ofNat m =>
          rw [toList_toString_ofNat, toList_toString_ofNat]
            at hEq
          rw [toDigits_injective hEq]
      | negSucc m =>
          rw [toList_toString_ofNat,
            toList_toString_negSucc] at hEq
          apply absurd _ (dash_not_mem_toDigits n)
          rw [hEq]
          exact List.mem_cons_self
  | negSucc n =>
      cases b with
      | ofNat m =>
          rw [toList_toString_ofNat,
            toList_toString_negSucc] at hEq
          apply absurd _ (dash_not_mem_toDigits m)
          rw [← hEq]
          exact List.mem_cons_self
      | negSucc m =>
          rw [toList_toString_negSucc,
            toList_toString_negSucc] at hEq
          have hDigits := toDigits_injective
            (List.cons.inj hEq).2
          have hSame : n = m := by omega
          rw [hSame]

/- A key names one client and one shard. -/
theorem uniKey_injective
    {ckId ckId' : Int}
    {shardNum shardNum' : Shard}
    (hEq : uniKey ckId shardNum = uniKey ckId' shardNum') :
    ckId = ckId' ∧ shardNum = shardNum' := by
  have hDigit : ∀ s s' : Shard,
      Nat.digitChar s.val = Nat.digitChar s'.val →
      s = s' := by
    decide
  have hList := congrArg String.toList hEq
  rw [uniKey_toList, uniKey_toList] at hList
  rcases List.append_inj' hList rfl with ⟨hId, hShard⟩
  constructor
  · exact toString_int_injective hId
  · exact hDigit _ _ (List.cons.inj hShard).1

/- The test for a client's key is the sign of the id. -/
theorem ofClient_uniKey (ckId : Int) (shardNum : Shard) :
    ofClient (uniKey ckId shardNum) = decide (0 ≤ ckId) := by
  unfold ofClient
  rw [uniKey_toList]
  cases ckId with
  | ofNat n =>
      rw [toList_toString_ofNat]
      cases hDigits : Nat.toDigits 10 n with
      | nil => exact absurd hDigits Nat.toDigits_ne_nil
      | cons digit digits =>
          have hDash : digit ≠ '-' := by
            intro hEq
            apply dash_not_mem_toDigits n
            rw [hDigits, hEq]
            exact List.mem_cons_self
          simp [hDash]
  | negSucc n =>
      rw [toList_toString_negSucc]
      simp

------------------------------------------------------------
-- Entries
------------------------------------------------------------

/- getKey -/
def Args.getKey : Args → String
| .get key => key
| .put key _ => key
| .append key _ => key
| _ => ""

/- Get, Put and Append, the operations of clients. -/
def Args.ofClient : Args → Bool
| .get _ => true
| .put _ _ => true
| .append _ _ => true
| _ => false

/-
  A movement brings pairs and sessions of clients, and only
  those of the shards it names.
-/
def Args.Collected : Args → Prop
| .applyMovement mp sessions _ shards =>
    (∀ key value,
      mp key = some value →
      shards (key2shard key) = true) ∧
    (∀ uniKey session,
      sessions uniKey = some session →
      shards session.lastOpShardNum = true ∧
      ∃ ckId, 0 ≤ ckId ∧
        uniKey = Shardkv.uniKey ckId
          session.lastOpShardNum)
| _ => True

/- An entry as handleNormalRPC builds it. -/
structure Op.Built (op : Op) : Prop where
  shardNum : op.shardNum = key2shard op.args.getKey
  ckId : 0 ≤ op.ckId ↔ op.args.ofClient = true
  collected : op.args.Collected

theorem Op.Built.ofClient_uniKey
    {op : Op}
    (hBuilt : op.Built) :
    ofClient op.uniKey = op.args.ofClient := by
  unfold Op.uniKey
  rw [Shardkv.ofClient_uniKey]
  cases hArgs : op.args.ofClient with
  | true =>
      exact decide_eq_true (hBuilt.ckId.mpr hArgs)
  | false =>
      apply decide_eq_false
      intro hId
      rw [hBuilt.ckId.mp hId] at hArgs
      cases hArgs

/- The log of a group. -/
structure GroupLog where
  entries : List Op
  built : ∀ op ∈ entries, op.Built

------------------------------------------------------------
-- RequestMapAndSession
------------------------------------------------------------

/- The errors that the server sets. -/
inductive Err where
  | ok
  | wrongGroup
  | wrongLeader
  | commitTimeout
  | failedToCommit
  | lowerConfigNum
deriving DecidableEq

structure RequestMapAndSessionArgs where
  shards : Shard → Bool
  configNum : Int

structure RequestMapAndSessionReply where
  err : Err
  mp : String → Option String
  sessions : Sessions

/-
  RequestMapAndSession. The reply is filled with the pairs
  and the sessions of clients of the shards asked for.
-/
def ShardKV.requestMapAndSession
    (kv : ShardKV)
    (isLeader : Bool)
    (args : RequestMapAndSessionArgs) :
    RequestMapAndSessionReply :=
  if !isLeader then
    { err := .wrongLeader
      mp := fun _ => none
      sessions := fun _ => none }
  else if kv.config.num < args.configNum then
    { err := .lowerConfigNum
      mp := fun _ => none
      sessions := fun _ => none }
  else
    { err := .ok
      mp := fun key =>
        if args.shards (key2shard key) then kv.mp key
        else none
      sessions := fun key =>
        match kv.ckSessions key with
        | some session =>
            if ofClient key ∧
                args.shards session.lastOpShardNum then
              some session
            else
              none
        | none => none }

/- What a reply without error holds. -/
theorem ShardKV.requestMapAndSession_ok
    {kv : ShardKV}
    {isLeader : Bool}
    {args : RequestMapAndSessionArgs}
    (hOk : (kv.requestMapAndSession isLeader args).err =
      .ok) :
    args.configNum ≤ kv.config.num ∧
      (∀ key,
        (kv.requestMapAndSession isLeader args).mp key =
          if args.shards (key2shard key) then kv.mp key
          else none) ∧
      (∀ key session,
        (kv.requestMapAndSession isLeader args).sessions
            key = some session ↔
          kv.ckSessions key = some session ∧
          ofClient key = true ∧
          args.shards session.lastOpShardNum = true) := by
  unfold requestMapAndSession at *
  split at hOk
  · cases hOk
  · next hLeader =>
      split at hOk
      · cases hOk
      · next hNum =>
          rw [if_neg hLeader, if_neg hNum]
          refine ⟨by omega, fun key => rfl, ?_⟩
          intro key session
          dsimp only
          cases kv.ckSessions key with
          | none => simp
          | some old =>
              dsimp only
              split
              · next hAsked =>
                  constructor
                  · intro hSame
                    cases hSame
                    exact ⟨rfl, hAsked⟩
                  · intro hSame
                    exact hSame.1
              · next hNot =>
                  constructor
                  · intro hSame
                    cases hSame
                  · rintro ⟨hSame, hAsked⟩
                    cases hSame
                    exact absurd hAsked hNot

------------------------------------------------------------
-- Sessions Lie At Their Keys
------------------------------------------------------------

/- A session lies at the key of its shard. -/
def SessionsKeyed (ckSessions : Sessions) : Prop :=
  ∀ key session,
    ckSessions key = some session →
    ∃ ckId, key = uniKey ckId session.lastOpShardNum

theorem SessionsKeyed.setSession
    {ckSessions : Sessions}
    (hKeyed : SessionsKeyed ckSessions)
    (commandIndex : Int)
    (op : Op) :
    SessionsKeyed
      (ShardKV.setSession ckSessions commandIndex op) := by
  intro key session hSession
  unfold ShardKV.setSession at hSession
  by_cases hKey : key = op.uniKey
  · subst hKey
    rw [Function.update_self] at hSession
    cases hSession
    exact ⟨op.ckId, rfl⟩
  · rw [Function.update_of_ne hKey] at hSession
    exact hKeyed key session hSession

theorem SessionsKeyed.applySessions
    {ckSessions : Sessions}
    (hKeyed : SessionsKeyed ckSessions)
    (st : Store)
    {args : Args}
    (hCollected : args.Collected) :
    SessionsKeyed (applySessions st ckSessions args) := by
  intro key session hSession
  cases args with
  | applyMovement mp sessions config shards =>
      unfold Shardkv.applySessions at hSession
      dsimp only at hSession
      split at hSession
      · next moved hMoved =>
          split at hSession
          · exact hKeyed key session hSession
          · cases hSession
            rcases hCollected.2 key moved hMoved with
              ⟨_, ckId, _, hKey⟩
            exact ⟨ckId, hKey⟩
      · exact hKeyed key session hSession
  | deleteShards shards configNum =>
      unfold Shardkv.applySessions at hSession
      dsimp only at hSession
      split at hSession
      · next old hOld =>
          split at hSession
          · cases hSession
          · cases hSession
            exact hKeyed key _ hOld
      · cases hSession
  | _ => exact hKeyed key session hSession

theorem ShardKV.applyCommand_keyed
    {kv : ShardKV}
    (hKeyed : SessionsKeyed kv.ckSessions)
    {op : Op}
    (hBuilt : op.Built)
    (commandIndex : Int) :
    SessionsKeyed
      (kv.applyCommand commandIndex op).ckSessions := by
  unfold applyCommand
  dsimp only
  split
  · exact hKeyed.setSession _ _
  · split
    · apply SessionsKeyed.setSession
      exact hKeyed.applySessions _ hBuilt.collected
    · exact hKeyed

theorem stateAt_keyed
    (gid : Int)
    {log : List Op}
    (hBuilt : ∀ op ∈ log, op.Built)
    (n : Nat) :
    SessionsKeyed (stateAt gid log n).ckSessions := by
  refine stateAt_induct
    (P := fun kv => SessionsKeyed kv.ckSessions) ?_ ?_ n
  · intro key session hSession
    cases hSession
  · intro n op hAt hKeyed
    apply ShardKV.applyCommand_keyed hKeyed
    exact hBuilt op (List.mem_of_getElem? hAt)

end Shardkv

end RaftLab
