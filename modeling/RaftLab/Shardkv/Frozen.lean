import RaftLab.Shardkv.Entries

/-
  Shards that a group has stopped to serve.

  From the entry that stops a group from serving a shard until
  one that starts it again or a DeleteShards that removes the
  shard, the pairs of the shard do not change. The request
  numbers of its sessions may: a stable operation of a client
  is caught before the shard is checked, and rewrites the
  session with its own, smaller, number.

  Main declarations:
    * `Shardkv.pairsOf`, `Shardkv.reqNumsOf`
    * `Shardkv.ShardKV.removes`
    * `Shardkv.pairsOf_step`, `Shardkv.reqNumsOf_step`
    * `Shardkv.FrozenBetween`, `Shardkv.frozen_unchanged_iff`
    * `Shardkv.frozen_session_changes`
-/

------------------------------------------------------------
-- What A Shard Consists Of
------------------------------------------------------------

namespace RaftLab

namespace Shardkv

open Shardctrler (Shard Config)

/- The pairs of a shard. -/
def pairsOf
    (s : Shard)
    (mp : String → Option String)
    (key : String) : Option String :=
  if key2shard key = s then mp key else none

/- LastOpReqNum of the client sessions of a shard. -/
def reqNumsOf
    (s : Shard)
    (sessions : Sessions)
    (key : String) : Option Int :=
  match sessions key with
  | some session =>
      if ofClient key ∧ session.lastOpShardNum = s then
        some session.lastOpReqNum
      else
        none
  | none => none

/- An entry that removes a shard: a DeleteShards, executed. -/
def ShardKV.removes
    (kv : ShardKV)
    (commandIndex : Int)
    (op : Op)
    (s : Shard) : Bool :=
  !kv.stable commandIndex op &&
    match op.args with
    | .deleteShards shards configNum =>
        kv.deletedShards shards configNum s
    | _ => false

/- A stable operation of a client on the shard. -/
def ShardKV.repeats
    (kv : ShardKV)
    (commandIndex : Int)
    (op : Op)
    (s : Shard) : Bool :=
  kv.stable commandIndex op && op.args.ofClient &&
    decide (op.shardNum = s)

theorem ShardKV.removes_of_deleteShards
    {kv : ShardKV}
    {commandIndex : Int}
    {op : Op}
    {s : Shard}
    (hKept : kv.removes commandIndex op s = false)
    (hStable : kv.stable commandIndex op = false)
    {shards : Shard → Bool}
    {configNum : Int}
    (hArgs : op.args = .deleteShards shards configNum) :
    kv.deletedShards shards configNum s = false := by
  unfold removes at hKept
  rw [hStable, hArgs] at hKept
  exact hKept

------------------------------------------------------------
-- The Pairs Of A Frozen Shard
------------------------------------------------------------

theorem Store.pairsOf_applyOp
    {st : Store}
    {s : Shard}
    (hFrozen : st.shardVec s = false)
    {args : Args}
    (hCollected : args.Collected)
    (hAfter : (st.applyOp args).1.shardVec s = false)
    (hKept : ∀ shards configNum,
      args = .deleteShards shards configNum →
      st.deletedShards shards configNum s = false) :
    pairsOf s (st.applyOp args).1.mp = pairsOf s st.mp := by
  have hWrite : ∀ (key : String) (value : Option String),
      st.shardVec (key2shard key) = true →
      pairsOf s (Function.update st.mp key value) =
        pairsOf s st.mp := by
    intro key value hServed
    funext k
    unfold pairsOf
    by_cases hKey : k = key
    · subst hKey
      have hNe : key2shard k ≠ s := by
        intro hShard
        rw [hShard, hFrozen] at hServed
        cases hServed
      rw [if_neg hNe, if_neg hNe]
    · rw [Function.update_of_ne hKey]
  cases args with
  | get key => rfl
  | put key value =>
      unfold Store.applyOp
      dsimp only
      split
      · next hServed => exact hWrite key _ hServed
      · rfl
  | append key value =>
      unfold Store.applyOp
      dsimp only
      split
      · next hServed => exact hWrite key _ hServed
      · rfl
  | changeConfig config =>
      unfold Store.applyOp
      dsimp only
      split
      · rfl
      · rfl
  | applyMovement mp sessions config shards =>
      have hNot : shards s = false := by
        have hOr : (shards s || st.shardVec s) = false :=
          hAfter
        rw [hFrozen, Bool.or_false] at hOr
        exact hOr
      funext key
      unfold pairsOf Store.applyOp
      dsimp only
      by_cases hShard : key2shard key = s
      · rw [if_pos hShard, if_pos hShard]
        cases hMp : mp key with
        | none => rfl
        | some value =>
            have hNamed := hCollected.1 key value hMp
            rw [hShard, hNot] at hNamed
            cases hNamed
      · rw [if_neg hShard, if_neg hShard]
  | deleteShards shards configNum =>
      have hNot := hKept shards configNum rfl
      funext key
      unfold pairsOf Store.applyOp
      dsimp only
      by_cases hShard : key2shard key = s
      · rw [if_pos hShard, if_pos hShard, hShard, hNot]
        rfl
      · rw [if_neg hShard, if_neg hShard]
  | updateShardVec configNum newVec =>
      unfold Store.applyOp
      dsimp only
      split
      · rfl
      · rfl

/- No entry changes the pairs of a frozen shard. -/
theorem pairsOf_step
    {kv : ShardKV}
    {commandIndex : Int}
    {op : Op}
    {s : Shard}
    (hFrozen : kv.shardVec s = false)
    (hBuilt : op.Built)
    (hAfter :
      (kv.applyCommand commandIndex op).shardVec s = false)
    (hKept : kv.removes commandIndex op s = false) :
    pairsOf s (kv.applyCommand commandIndex op).mp =
      pairsOf s kv.mp := by
  unfold ShardKV.applyCommand at hAfter ⊢
  dsimp only at hAfter ⊢
  split at hAfter
  · next hStable =>
      rw [if_pos hStable]
  · next hStable =>
      rw [if_neg hStable]
      split at hAfter
      · next hApplies =>
          rw [if_pos hApplies]
          rw [Bool.not_eq_true] at hStable
          apply Store.pairsOf_applyOp hFrozen
            hBuilt.collected hAfter
          intro shards configNum hArgs
          exact ShardKV.removes_of_deleteShards hKept hStable
            hArgs
      · next hApplies => rw [if_neg hApplies]

------------------------------------------------------------
-- The Request Numbers Of A Frozen Shard
------------------------------------------------------------

/- A session shows only at the key of a client and its shard. -/
theorem reqNumsOf_eq_none
    {sessions : Sessions}
    (hKeyed : SessionsKeyed sessions)
    {s : Shard}
    {op : Op}
    (hBuilt : op.Built)
    (hOther : ¬ (op.args.ofClient = true ∧
      op.shardNum = s)) :
    reqNumsOf s sessions op.uniKey = none := by
  unfold reqNumsOf
  cases hSession : sessions op.uniKey with
  | none => rfl
  | some session =>
      rcases hKeyed _ _ hSession with ⟨ckId, hKey⟩
      rcases uniKey_injective hKey with ⟨_, hShard⟩
      apply if_neg
      rintro ⟨hClient, hS⟩
      apply hOther
      rw [hBuilt.ofClient_uniKey] at hClient
      exact ⟨hClient, hShard.trans hS⟩

theorem reqNumsOf_setSession
    {sessions : Sessions}
    (hKeyed : SessionsKeyed sessions)
    (s : Shard)
    (commandIndex : Int)
    {op : Op}
    (hBuilt : op.Built) :
    reqNumsOf s
        (ShardKV.setSession sessions commandIndex op) =
      if op.args.ofClient = true ∧ op.shardNum = s then
        Function.update (reqNumsOf s sessions) op.uniKey
          (some op.reqNum)
      else
        reqNumsOf s sessions := by
  funext key
  have hClient := hBuilt.ofClient_uniKey
  by_cases hKey : key = op.uniKey
  · subst hKey
    by_cases hOwn :
        op.args.ofClient = true ∧ op.shardNum = s
    · rw [if_pos hOwn, Function.update_self]
      unfold reqNumsOf ShardKV.setSession
      rw [Function.update_self, hClient]
      exact if_pos hOwn
    · rw [if_neg hOwn,
        reqNumsOf_eq_none hKeyed hBuilt hOwn]
      exact reqNumsOf_eq_none
        (hKeyed.setSession commandIndex op) hBuilt hOwn
  · have hSame :
        reqNumsOf s
          (ShardKV.setSession sessions commandIndex op) key =
          reqNumsOf s sessions key := by
      unfold reqNumsOf ShardKV.setSession
      rw [Function.update_of_ne hKey]
    rw [hSame]
    split
    · rw [Function.update_of_ne hKey]
    · rfl

/- The loops over sessions leave a frozen shard alone. -/
theorem reqNumsOf_applySessions
    {st : Store}
    {ckSessions : Sessions}
    (hKeyed : SessionsKeyed ckSessions)
    {s : Shard}
    (hFrozen : st.shardVec s = false)
    {args : Args}
    (hCollected : args.Collected)
    (hAfter : (st.applyOp args).1.shardVec s = false)
    (hKept : ∀ shards configNum,
      args = .deleteShards shards configNum →
      st.deletedShards shards configNum s = false) :
    reqNumsOf s (applySessions st ckSessions args) =
      reqNumsOf s ckSessions := by
  cases args with
  | applyMovement mp sessions config shards =>
      have hNot : shards s = false := by
        have hOr : (shards s || st.shardVec s) = false :=
          hAfter
        rw [hFrozen, Bool.or_false] at hOr
        exact hOr
      funext key
      unfold reqNumsOf applySessions
      dsimp only
      cases hMoved : sessions key with
      | none => rfl
      | some moved =>
          rcases hCollected.2 key moved hMoved with
            ⟨hNamed, ckId, _, hKey⟩
          have hShard : moved.lastOpShardNum ≠ s := by
            intro hEq
            rw [hEq, hNot] at hNamed
            cases hNamed
          dsimp only
          by_cases hRefused :
              ofClient key ∧
                st.shardLastNums moved.lastOpShardNum ≥
                  config.num
          · rw [if_pos hRefused]
          · rw [if_neg hRefused]
            dsimp only
            rw [if_neg (fun hBoth => hShard hBoth.2)]
            cases hOld : ckSessions key with
            | none => rfl
            | some old =>
                rcases hKeyed key old hOld with
                  ⟨ckId', hKey'⟩
                rw [hKey] at hKey'
                rcases uniKey_injective hKey' with
                  ⟨_, hSame⟩
                symm
                apply if_neg
                rintro ⟨_, hS⟩
                exact hShard (hSame.trans hS)
  | deleteShards shards configNum =>
      have hNot := hKept shards configNum rfl
      funext key
      unfold reqNumsOf applySessions
      dsimp only
      cases hOld : ckSessions key with
      | none => rfl
      | some old =>
          dsimp only
          by_cases hDeleted :
              ofClient key ∧
                st.deletedShards shards configNum
                  old.lastOpShardNum
          · rw [if_pos hDeleted]
            symm
            apply if_neg
            rintro ⟨_, hS⟩
            rw [hS, hNot] at hDeleted
            cases hDeleted.2
          · rw [if_neg hDeleted]
  | _ => rfl

/-
  Only a stable operation of a client on the shard changes
  the request numbers of a frozen shard.
-/
theorem reqNumsOf_step
    {kv : ShardKV}
    (hKeyed : SessionsKeyed kv.ckSessions)
    {commandIndex : Int}
    {op : Op}
    {s : Shard}
    (hFrozen : kv.shardVec s = false)
    (hBuilt : op.Built)
    (hAfter :
      (kv.applyCommand commandIndex op).shardVec s = false)
    (hKept : kv.removes commandIndex op s = false) :
    reqNumsOf s (kv.applyCommand commandIndex op).ckSessions =
      if kv.repeats commandIndex op s = true then
        Function.update (reqNumsOf s kv.ckSessions) op.uniKey
          (some op.reqNum)
      else
        reqNumsOf s kv.ckSessions := by
  unfold ShardKV.applyCommand at hAfter ⊢
  dsimp only at hAfter ⊢
  unfold ShardKV.repeats
  split at hAfter
  · next hStable =>
      rw [if_pos hStable]
      simp only [hStable, Bool.true_and, Bool.and_eq_true,
        decide_eq_true_eq]
      exact reqNumsOf_setSession hKeyed s commandIndex hBuilt
  · next hStable =>
      rw [Bool.not_eq_true] at hStable
      simp only [hStable, Bool.false_and, Bool.false_eq_true,
        if_false]
      split at hAfter
      · next hApplies =>
          rw [if_pos hApplies]
          -- An operation on the shard would not apply.
          have hOther : ¬ (op.args.ofClient = true ∧
              op.shardNum = s) := by
            rintro ⟨hClient, hShard⟩
            rw [hBuilt.shardNum] at hShard
            cases hArgs : op.args with
            | get key =>
                rw [hArgs] at hApplies hShard
                change kv.shardVec (key2shard key) = true
                  at hApplies
                change key2shard key = s at hShard
                rw [hShard, hFrozen] at hApplies
                cases hApplies
            | put key value =>
                rw [hArgs] at hApplies hShard
                change key2shard key = s at hShard
                simp [Store.applyOp, hShard, hFrozen]
                  at hApplies
            | append key value =>
                rw [hArgs] at hApplies hShard
                change key2shard key = s at hShard
                simp [Store.applyOp, hShard, hFrozen]
                  at hApplies
            | _ =>
                rw [hArgs] at hClient
                cases hClient
          dsimp only
          rw [reqNumsOf_setSession
            (hKeyed.applySessions _ hBuilt.collected) s
            commandIndex hBuilt, if_neg hOther]
          apply reqNumsOf_applySessions hKeyed hFrozen
            hBuilt.collected hAfter
          intro shards configNum hArgs
          exact ShardKV.removes_of_deleteShards hKept hStable
            hArgs
      · next hApplies => rw [if_neg hApplies]

------------------------------------------------------------
-- Replies
------------------------------------------------------------

/- A reply carries the pairs of the shards asked for. -/
theorem pairsOf_reply
    {kv : ShardKV}
    {isLeader : Bool}
    {args : RequestMapAndSessionArgs}
    (hOk : (kv.requestMapAndSession isLeader args).err =
      .ok)
    {s : Shard}
    (hAsked : args.shards s = true) :
    pairsOf s (kv.requestMapAndSession isLeader args).mp =
      pairsOf s kv.mp := by
  rcases ShardKV.requestMapAndSession_ok hOk with
    ⟨_, hMp, _⟩
  funext key
  unfold pairsOf
  by_cases hShard : key2shard key = s
  · rw [if_pos hShard, if_pos hShard, hMp, hShard]
    exact if_pos hAsked
  · rw [if_neg hShard, if_neg hShard]

/- Likewise the sessions. -/
theorem reqNumsOf_reply
    {kv : ShardKV}
    {isLeader : Bool}
    {args : RequestMapAndSessionArgs}
    (hOk : (kv.requestMapAndSession isLeader args).err =
      .ok)
    {s : Shard}
    (hAsked : args.shards s = true) :
    reqNumsOf s
        (kv.requestMapAndSession isLeader args).sessions =
      reqNumsOf s kv.ckSessions := by
  rcases ShardKV.requestMapAndSession_ok hOk with
    ⟨_, _, hSessions⟩
  funext key
  unfold reqNumsOf
  cases hReply :
      (kv.requestMapAndSession isLeader args).sessions
        key with
  | some session =>
      rw [((hSessions key session).mp hReply).1]
  | none =>
      cases hOld : kv.ckSessions key with
      | none => rfl
      | some old =>
          symm
          apply if_neg
          rintro ⟨hClient, hS⟩
          have hSome := (hSessions key old).mpr
            ⟨hOld, hClient, by rw [hS]; exact hAsked⟩
          rw [hReply] at hSome
          cases hSome

------------------------------------------------------------
-- Frozen Intervals
------------------------------------------------------------

/-
  The entry at `a` stops the group from serving `s`; up to
  `b` no entry starts it again, and none removes the shard.
-/
structure FrozenBetween
    (gid : Int)
    (log : List Op)
    (s : Shard)
    (a b : Nat) : Prop where
  served : (stateAt gid log a).shardVec s = true
  frozen : ∀ m,
    a < m → m ≤ b → (stateAt gid log m).shardVec s = false
  kept : ∀ j op,
    a < j → j < b → log[j]? = some op →
    (stateAt gid log j).removes (j + 1) op s = false

/- Two states in which a shard is the same. -/
def SameShard (s : Shard) (kv kv' : ShardKV) : Prop :=
  pairsOf s kv.mp = pairsOf s kv'.mp ∧
    reqNumsOf s kv.ckSessions = reqNumsOf s kv'.ckSessions

/- What one entry of the interval does. -/
theorem FrozenBetween.step
    {gid : Int}
    {log : GroupLog}
    {s : Shard}
    {a b : Nat}
    (hFrozen : FrozenBetween gid log.entries s a b)
    {j : Nat}
    (hAfter : a < j)
    (hBefore : j < b)
    {op : Op}
    (hAt : log.entries[j]? = some op) :
    let kv := stateAt gid log.entries j
    let kv' := stateAt gid log.entries (j + 1)
    pairsOf s kv'.mp = pairsOf s kv.mp ∧
      reqNumsOf s kv'.ckSessions =
        if kv.repeats (j + 1) op s = true then
          Function.update (reqNumsOf s kv.ckSessions)
            op.uniKey (some op.reqNum)
        else
          reqNumsOf s kv.ckSessions := by
  have hBuilt := log.built op (List.mem_of_getElem? hAt)
  have hHere := hFrozen.frozen j hAfter (by omega)
  have hNext := hFrozen.frozen (j + 1) (by omega) (by omega)
  have hKept := hFrozen.kept j op hAfter hBefore hAt
  have hKeyed := stateAt_keyed gid log.built j
  dsimp only
  rw [stateAt_succ hAt] at hNext ⊢
  constructor
  · exact pairsOf_step hHere hBuilt hNext hKept
  · exact reqNumsOf_step hKeyed hHere hBuilt hNext hKept

/-
  Every operation that repeats one on the shard has the
  number that its session already has.
-/
def RepeatsLast
    (gid : Int)
    (log : List Op)
    (s : Shard)
    (a b : Nat) : Prop :=
  ∀ j op,
    a < j → j < b → log[j]? = some op →
    (stateAt gid log j).repeats (j + 1) op s = true →
    reqNumsOf s (stateAt gid log j).ckSessions op.uniKey =
      some op.reqNum

/- Then the whole interval leaves the shard as it was. -/
theorem FrozenBetween.same_of_repeatsLast
    {gid : Int}
    {log : GroupLog}
    {s : Shard}
    {a b : Nat}
    (hFrozen : FrozenBetween gid log.entries s a b)
    (hLast : RepeatsLast gid log.entries s a b)
    {m : Nat}
    (hAfter : a < m)
    (hBefore : m ≤ b) :
    SameShard s (stateAt gid log.entries m)
      (stateAt gid log.entries (a + 1)) := by
  induction m with
  | zero => omega
  | succ m ih =>
      by_cases hFirst : m = a
      · rw [hFirst]
        exact ⟨rfl, rfl⟩
      · rcases ih (by omega) (by omega) with
          ⟨hPairs, hNums⟩
        cases hAt : log.entries[m]? with
        | none =>
            have hLe := List.getElem?_eq_none_iff.mp hAt
            unfold stateAt at *
            rw [List.take_of_length_le (by omega)] at *
            exact ⟨hPairs, hNums⟩
        | some op =>
            rcases hFrozen.step (by omega) (by omega) hAt with
              ⟨hPairs', hNums'⟩
            refine ⟨hPairs'.trans hPairs, ?_⟩
            rw [hNums', ← hNums]
            split
            · next hRepeats =>
                rw [← hLast m op (by omega) (by omega) hAt
                  hRepeats, Function.update_eq_self]
            · rfl

/-
  The pairs of a frozen shard and the request numbers of its
  sessions stay the same, and so do the replies to pulls from
  whatever replicas, exactly when every repeated operation of
  a client on the shard repeats the last one.
-/
theorem frozen_unchanged_iff
    (gid : Int)
    (log : GroupLog)
    {s : Shard}
    {a b : Nat}
    (hFrozen : FrozenBetween gid log.entries s a b) :
    ((∀ m,
        a < m → m ≤ b →
        pairsOf s (stateAt gid log.entries m).mp =
            pairsOf s (stateAt gid log.entries (a + 1)).mp ∧
          reqNumsOf s
              (stateAt gid log.entries m).ckSessions =
            reqNumsOf s
              (stateAt gid log.entries
                (a + 1)).ckSessions) ∧
      (∀ m m' kv kv' isLeader isLeader' args args',
        a < m → m ≤ b → a < m' → m' ≤ b →
        Replica gid log.entries m kv →
        Replica gid log.entries m' kv' →
        args.shards s = true →
        args'.shards s = true →
        (kv.requestMapAndSession isLeader args).err = .ok →
        (kv'.requestMapAndSession isLeader' args').err =
          .ok →
        pairsOf s
            (kv.requestMapAndSession isLeader args).mp =
          pairsOf s
            (kv'.requestMapAndSession isLeader' args').mp ∧
        reqNumsOf s
            (kv.requestMapAndSession isLeader
              args).sessions =
          reqNumsOf s
            (kv'.requestMapAndSession isLeader'
              args').sessions)) ↔
      RepeatsLast gid log.entries s a b := by
  constructor
  · rintro ⟨hSame, _⟩ j op hAfter hBefore hAt hRepeats
    rcases hSame j hAfter (by omega) with ⟨_, hHere⟩
    rcases hSame (j + 1) (by omega) (by omega) with
      ⟨_, hNext⟩
    rcases hFrozen.step hAfter hBefore hAt with ⟨_, hStep⟩
    rw [if_pos hRepeats, hNext, ← hHere] at hStep
    rw [hStep]
    exact Function.update_self ..
  · intro hLast
    constructor
    · intro m hAfter hBefore
      exact hFrozen.same_of_repeatsLast hLast hAfter hBefore
    · intro m m' kv kv' isLeader isLeader' args args' hAfter
        hBefore hAfter' hBefore' hReplica hReplica' hAsked
        hAsked' hOk hOk'
      rcases hFrozen.same_of_repeatsLast hLast hAfter hBefore
        with ⟨hPairs, hNums⟩
      rcases hFrozen.same_of_repeatsLast hLast hAfter'
        hBefore' with ⟨hPairs', hNums'⟩
      rcases hReplica.agrees with ⟨_, hStore, hSessions, _⟩
      rcases hReplica'.agrees with
        ⟨_, hStore', hSessions', _⟩
      rw [pairsOf_reply hOk hAsked,
        pairsOf_reply hOk' hAsked',
        reqNumsOf_reply hOk hAsked,
        reqNumsOf_reply hOk' hAsked', hStore, hStore',
        hSessions, hSessions']
      exact ⟨hPairs.trans hPairs'.symm,
        hNums.trans hNums'.symm⟩

------------------------------------------------------------
-- A Late Duplicate On A Frozen Shard
------------------------------------------------------------

/-
  Client 1 writes twice to a shard of group 1, which then
  stops to serve it. A duplicate of one of the two writes was
  started before that and is committed after it.
-/
def frozenEntries (duplicate : Int) : List Op :=
  let config : Config := {
    num := 1
    shards := fun _ => 1
    groups := AList.insert 1 ["a"] ∅ }
  let serve : Op := {
    number := 10
    reqNum := 1
    ckId := -7
    shardNum := key2shard ""
    args := .changeConfig config }
  let write : Op := {
    number := 11
    reqNum := 1
    ckId := 1
    shardNum := key2shard "k"
    args := .put "k" "a" }
  [serve, write, { write with number := 12, reqNum := 2 },
    { serve with
      number := 13
      reqNum := 2
      args := .updateShardVec 2 fun _ => false },
    { write with number := 14, reqNum := duplicate }]

def frozenLog (duplicate : Int) : GroupLog where
  entries := frozenEntries duplicate
  built op hMem := by
    simp only [frozenEntries, List.mem_cons,
      List.not_mem_nil, or_false] at hMem
    rcases hMem with rfl | rfl | rfl | rfl | rfl
    all_goals exact ⟨rfl, by simp [Args.ofClient], trivial⟩

theorem frozenLog_frozen
    {duplicate : Int}
    (hOld : duplicate = 1 ∨ duplicate = 2) :
    FrozenBetween 1 (frozenLog duplicate).entries
      (key2shard "k") 3 5 := by
  rcases hOld with rfl | rfl
  all_goals
    constructor
    · decide
    · intro m hAfter hBefore
      have hCases : m = 4 ∨ m = 5 := by omega
      rcases hCases with rfl | rfl
      · decide
      · decide
    · intro j op hAfter hBefore hAt
      have hLast : j = 4 := by omega
      subst hLast
      cases hAt
      decide

/- A duplicate of the last write changes nothing. -/
theorem frozen_unchanged_of_last_duplicate :
    FrozenBetween 1 (frozenLog 2).entries
        (key2shard "k") 3 5 ∧
      RepeatsLast 1 (frozenLog 2).entries
        (key2shard "k") 3 5 ∧
      reqNumsOf (key2shard "k")
          (stateAt 1 (frozenLog 2).entries 5).ckSessions =
        reqNumsOf (key2shard "k")
          (stateAt 1 (frozenLog 2).entries 4).ckSessions := by
  have hFrozen := frozenLog_frozen (Or.inr rfl)
  have hLast :
      RepeatsLast 1 (frozenLog 2).entries
        (key2shard "k") 3 5 := by
    intro j op hAfter hBefore hAt _
    have hFour : j = 4 := by omega
    subst hFour
    cases hAt
    decide
  have hSame :=
    (frozen_unchanged_iff 1 (frozenLog 2) hFrozen).mpr hLast
  exact ⟨hFrozen, hLast,
    (hSame.1 5 (by decide) (by decide)).2⟩

/-
  A duplicate of the first write lowers the request number of
  the session from 2 to 1.
-/
theorem frozen_session_changes :
    ¬ ∀ (gid : Int) (log : GroupLog) (s : Shard) (a b : Nat),
      FrozenBetween gid log.entries s a b →
      ∀ m, a < m → m ≤ b →
        pairsOf s (stateAt gid log.entries m).mp =
            pairsOf s (stateAt gid log.entries (a + 1)).mp ∧
          reqNumsOf s
              (stateAt gid log.entries m).ckSessions =
            reqNumsOf s
              (stateAt gid log.entries
                (a + 1)).ckSessions := by
  intro hAll
  have hFrozen := frozenLog_frozen (Or.inl rfl)
  have hSame :=
    (hAll 1 _ _ 3 5 hFrozen 5 (by decide) (by decide)).2
  have hKey := congrFun hSame
    (uniKey 1 (key2shard "k"))
  revert hKey
  decide

end Shardkv

end RaftLab
