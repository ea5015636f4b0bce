import RaftLab.Lib.RangeLoop
import RaftLab.Shardkv.Sessions

/-
  The replicas of a shardkv group.

  applyOp ranges over Go maps, whose order is not specified,
  and removes refused shards from the Shards of a DeleteShards
  entry in place, so that the entry may reach another replica
  already trimmed. Here these loops are run in an order that
  each replica chooses for each entry, and a replica may take
  an entry as it was started or as some replica left it. A
  replica may also install the snapshot of another one, which
  labgob brings over unchanged.

  Main declarations:
    * `Shardkv.Orders`, `Shardkv.ShardKV.applyOpLoops`
    * `Shardkv.ShardKV.applyCommandLoops_eq`
    * `Shardkv.Replica`, `Shardkv.Shipped`
    * `Shardkv.Replica.exists_of_finite`
    * `Shardkv.replicas_agree`
-/

------------------------------------------------------------
-- applyOp With Its Loops
------------------------------------------------------------

namespace RaftLab

namespace Shardkv

open Shardctrler (Shard Config)

/- The orders of the range loops of one entry. -/
structure Orders where
  mp : List String
  sessions : List String
  shards : List Shard

/-
  ApplyMovement ranges over maps of the entry. DeleteShards
  ranges over the Shards of the entry and over the maps of
  the server.
-/
def Orders.For
    (orders : Orders)
    (kv : ShardKV) :
    Args → Prop
| .applyMovement mp sessions _ shards =>
    RangeOrder (fun key => (mp key).isSome = true)
        orders.mp ∧
      RangeOrder (fun key => (sessions key).isSome = true)
        orders.sessions ∧
      RangeOrder (fun shard => shards shard = true)
        orders.shards
| .deleteShards shards _ =>
    RangeOrder (fun key => (kv.mp key).isSome = true)
        orders.mp ∧
      RangeOrder
        (fun key => (kv.ckSessions key).isSome = true)
        orders.sessions ∧
      RangeOrder (fun shard => shards shard = true)
        orders.shards
| _ => True

/-
  applyOp with its loops run in the given orders: the store,
  the sessions and the arguments as the entry holds them
  afterwards.
-/
def ShardKV.applyOpLoops
    (kv : ShardKV)
    (orders : Orders) :
    Args → Store × Sessions × Args
| .applyMovement mp sessions config shards =>
    let kvMp := rangeLoop
      (fun key old =>
        match mp key with
        | some value =>
            if kv.shardLastNums (key2shard key) ≥
                config.num then
              old
            else
              some value
        | none => old)
      orders.mp kv.mp
    let ckSessions := rangeLoop
      (fun uniKey old =>
        match sessions uniKey with
        | some session =>
            if ofClient uniKey ∧
                kv.shardLastNums session.lastOpShardNum ≥
                  config.num then
              old
            else
              some { session with lastOpIndex := -1 }
        | none => old)
      orders.sessions kv.ckSessions
    ({ kv.toStore with
      mp := kvMp
      shardVec :=
        rangeLoop (fun _ _ => true) orders.shards
          kv.shardVec
      shardLastNums :=
        rangeLoop (fun _ _ => config.num) orders.shards
          kv.shardLastNums },
      ckSessions,
      .applyMovement mp sessions config shards)
| .deleteShards shards configNum =>
    -- delete(deletedShards, shard): the map of the entry
    let deletedShards := rangeLoop
      (fun shard old =>
        if configNum < kv.shardLastNums shard then false
        else old)
      orders.shards shards
    let kvMp := rangeLoop
      (fun key old =>
        if deletedShards (key2shard key) then none else old)
      orders.mp kv.mp
    let ckSessions := rangeLoop
      (fun uniKey old =>
        match old with
        | some session =>
            if ofClient uniKey ∧
                deletedShards session.lastOpShardNum then
              none
            else
              some session
        | none => none)
      orders.sessions kv.ckSessions
    ({ kv.toStore with mp := kvMp },
      ckSessions,
      .deleteShards deletedShards configNum)
| args =>
    ((kv.toStore.applyOp args).1, kv.ckSessions, args)

/-
  What handleApplyMsg does with a command, and the entry it
  leaves behind.
-/
def ShardKV.applyCommandLoops
    (kv : ShardKV)
    (orders : Orders)
    (commandIndex : Int)
    (op : Op) : ShardKV × Op :=
  let recorded : ShardKV := { kv with
    logRecord :=
      Function.update kv.logRecord commandIndex (some op)
    lastApplied := commandIndex }
  if kv.stable commandIndex op then
    ({ recorded with
      ckSessions :=
        setSession kv.ckSessions commandIndex op }, op)
  else if (kv.toStore.applyOp op.args).2 then
    let applied := kv.applyOpLoops orders op.args
    ({ recorded with
      toStore := applied.1
      ckSessions :=
        setSession applied.2.1 commandIndex op },
      { op with args := applied.2.2 })
  else
    ({ recorded with
      logRecord :=
        Function.update kv.logRecord commandIndex
          (some { op with number := -1 }) }, op)

------------------------------------------------------------
-- The Loops Compute applyOp
------------------------------------------------------------

/- The arguments of an entry after applyOp has trimmed them. -/
def Store.trim (st : Store) : Args → Args
| .deleteShards shards configNum =>
    .deleteShards (st.deletedShards shards configNum)
      configNum
| args => args

theorem Store.trimmed_loop
    (st : Store)
    {shards : Shard → Bool}
    {order : List Shard}
    (hOrder : RangeOrder
      (fun shard => shards shard = true) order)
    (configNum : Int) :
    rangeLoop
      (fun shard old =>
        if configNum < st.shardLastNums shard then false
        else old)
      order shards = st.deletedShards shards configNum := by
  funext shard
  rw [hOrder.loop_apply]
  unfold Store.deletedShards
  by_cases hNum : configNum < st.shardLastNums shard
  · by_cases hShard : shards shard = true
    · simp [hNum]
    · simp [hNum, hShard]
  · by_cases hShard : shards shard = true
    · simp [hNum]
    · simp [hNum, hShard]

theorem ShardKV.applyOpLoops_eq
    {kv : ShardKV}
    {orders : Orders}
    {args : Args}
    (hOrders : orders.For kv args) :
    kv.applyOpLoops orders args =
      ((kv.toStore.applyOp args).1,
        applySessions kv.toStore kv.ckSessions args,
        kv.toStore.trim args) := by
  cases args with
  | applyMovement mp sessions config shards =>
      rcases hOrders with ⟨hMp, hSessions, hShards⟩
      unfold ShardKV.applyOpLoops Store.applyOp
        applySessions Store.trim
      dsimp only
      congr 1
      · congr 1
        · funext key
          rw [hMp.loop_apply]
          cases mp key <;> simp
        · funext shard
          rw [hShards.loop_apply]
        · funext shard
          rw [hShards.loop_apply]
          cases shards shard <;> simp
      · congr 1
        funext key
        rw [hSessions.loop_apply]
        cases sessions key <;> simp
  | deleteShards shards configNum =>
      rcases hOrders with ⟨hMp, hSessions, hShards⟩
      unfold ShardKV.applyOpLoops Store.applyOp
        applySessions Store.trim
      dsimp only
      rw [kv.toStore.trimmed_loop hShards]
      congr 1
      · congr 1
        funext key
        rw [hMp.loop_apply]
        cases kv.mp key <;> simp
      · congr 1
        funext key
        rw [hSessions.loop_apply]
        cases kv.ckSessions key <;> simp
  | _ => rfl

theorem ShardKV.applyCommandLoops_eq
    {kv : ShardKV}
    {orders : Orders}
    {op : Op}
    (hOrders : orders.For kv op.args)
    (commandIndex : Int) :
    (kv.applyCommandLoops orders commandIndex op).1 =
      kv.applyCommand commandIndex op := by
  unfold ShardKV.applyCommandLoops ShardKV.applyCommand
  dsimp only
  rw [ShardKV.applyOpLoops_eq hOrders]
  split
  · rfl
  · split <;> rfl

------------------------------------------------------------
-- Trimmed Entries
------------------------------------------------------------

/- Shards that were refused once are refused again. -/
theorem Store.deletedShards_idem
    (st : Store)
    (shards : Shard → Bool)
    (configNum : Int) :
    st.deletedShards (st.deletedShards shards configNum)
        configNum =
      st.deletedShards shards configNum := by
  funext shard
  simp [Store.deletedShards]

theorem Store.applyOp_trim
    (st : Store)
    (args : Args) :
    st.applyOp (st.trim args) = st.applyOp args := by
  cases args with
  | deleteShards shards configNum =>
      unfold Store.trim Store.applyOp
      dsimp only
      rw [st.deletedShards_idem]
  | _ => rfl

theorem applySessions_trim
    (st : Store)
    (ckSessions : Sessions)
    (args : Args) :
    applySessions st ckSessions (st.trim args) =
      applySessions st ckSessions args := by
  cases args with
  | deleteShards shards configNum =>
      unfold Store.trim applySessions
      dsimp only
      rw [st.deletedShards_idem]
  | _ => rfl

/- The forms an entry may have once it was applied at `st`. -/
def Op.FormAt (st : Store) (op form : Op) : Prop :=
  form = op ∨ form = { op with args := st.trim op.args }

theorem Op.FormAt.trim
    {st : Store}
    {op form : Op}
    (hForm : op.FormAt st form) :
    op.FormAt st { form with args := st.trim form.args } := by
  right
  rcases hForm with rfl | rfl
  · rfl
  · cases hArgs : op.args with
    | deleteShards shards configNum =>
        simp only [Store.trim, st.deletedShards_idem]
    | _ => rfl

/- The entry is left as it was, or trimmed. -/
theorem ShardKV.applyCommandLoops_form
    {kv : ShardKV}
    {orders : Orders}
    {op form : Op}
    (hForm : op.FormAt kv.toStore form)
    (hOrders : orders.For kv form.args)
    (commandIndex : Int) :
    op.FormAt kv.toStore
      (kv.applyCommandLoops orders commandIndex form).2 := by
  unfold ShardKV.applyCommandLoops
  dsimp only
  rw [ShardKV.applyOpLoops_eq hOrders]
  split
  · exact hForm
  · split
    · exact hForm.trim
    · exact hForm

------------------------------------------------------------
-- Replicas
------------------------------------------------------------

mutual

/- A replica that has reached index `n` of the log. -/
inductive Replica (gid : Int) (log : List Op) :
    Nat → ShardKV → Prop
  | start : Replica gid log 0 (ShardKV.start gid)
  | apply
      {n : Nat}
      {kv : ShardKV}
      {op : Op}
      {orders : Orders}
      (hBefore : Replica gid log n kv)
      (hOp : Shipped gid log n op)
      (hOrders : orders.For kv op.args) :
      Replica gid log (n + 1)
        (kv.applyCommandLoops orders (n + 1) op).1
  | install
      {n m : Nat}
      {kv maker : ShardKV}
      (hBefore : Replica gid log n kv)
      (hMaker : Replica gid log m maker) :
      Replica gid log m
        (kv.handleApplyMsg false
          (.snapshot m maker.snapshot)).1

/-
  The forms in which the entry after index `n` may reach a
  replica: as it was started, or as the apply of some replica
  left it.
-/
inductive Shipped (gid : Int) (log : List Op) :
    Nat → Op → Prop
  | started
      {n : Nat}
      {op : Op}
      (hAt : log[n]? = some op) :
      Shipped gid log n op
  | trimmed
      {n : Nat}
      {kv : ShardKV}
      {op : Op}
      {orders : Orders}
      (hReplica : Replica gid log n kv)
      (hOp : Shipped gid log n op)
      (hOrders : orders.For kv op.args) :
      Shipped gid log n
        (kv.applyCommandLoops orders (n + 1) op).2

end

/- Two replicas with the same replicated state. -/
structure ShardKV.Agrees (kv kv' : ShardKV) : Prop where
  store : kv.toStore = kv'.toStore
  ckSessions : kv.ckSessions = kv'.ckSessions
  lastApplied : kv.lastApplied = kv'.lastApplied

theorem ShardKV.Agrees.stable_eq
    {kv kv' : ShardKV}
    (hAgrees : kv.Agrees kv')
    {op form : Op}
    (hForm : op.FormAt kv'.toStore form)
    (commandIndex : Int) :
    kv.stable commandIndex form =
      kv'.stable commandIndex op := by
  unfold ShardKV.stable
  rw [hAgrees.ckSessions]
  rcases hForm with rfl | rfl
  · rfl
  · rfl

/- Two replicas that agree do so after the next entry. -/
theorem ShardKV.Agrees.applyCommand
    {kv kv' : ShardKV}
    (hAgrees : kv.Agrees kv')
    {op form : Op}
    (hForm : op.FormAt kv'.toStore form)
    (commandIndex : Int) :
    (kv.applyCommand commandIndex form).Agrees
      (kv'.applyCommand commandIndex op) := by
  have hStable := hAgrees.stable_eq hForm commandIndex
  have hApply :
      kv.toStore.applyOp form.args =
        kv'.toStore.applyOp op.args := by
    rw [hAgrees.store]
    rcases hForm with rfl | rfl
    · rfl
    · exact kv'.toStore.applyOp_trim op.args
  have hSessions :
      applySessions kv.toStore kv.ckSessions form.args =
        applySessions kv'.toStore kv'.ckSessions
          op.args := by
    rw [hAgrees.store, hAgrees.ckSessions]
    rcases hForm with rfl | rfl
    · rfl
    · exact applySessions_trim kv'.toStore kv'.ckSessions
        op.args
  have hSet : ∀ ckSessions : Sessions,
      ShardKV.setSession ckSessions commandIndex form =
        ShardKV.setSession ckSessions commandIndex op := by
    intro ckSessions
    rcases hForm with rfl | rfl
    · rfl
    · rfl
  unfold ShardKV.applyCommand
  dsimp only
  rw [hStable, hApply, hSessions, hSet, hSet,
    hAgrees.ckSessions]
  split
  · exact ⟨hAgrees.store, rfl, rfl⟩
  · split
    · exact ⟨rfl, rfl, rfl⟩
    · exact ⟨hAgrees.store, rfl, rfl⟩

theorem deliver_lastApplied
    (full : Int → Bool)
    (gid : Int)
    (log : List Op) :
    (ShardKV.deliver full gid log).lastApplied =
      log.length := by
  induction log using List.reverseRecOn with
  | nil => rfl
  | append_singleton log op ih =>
      rw [deliver_snoc, ShardKV.deliverOp_lastApplied, ih]
      simp

/- The state after `n` entries of the log, delivered alone. -/
def stateAt (gid : Int) (log : List Op) (n : Nat) : ShardKV :=
  ShardKV.deliver (fun _ => false) gid (log.take n)

theorem stateAt_succ
    {gid : Int}
    {log : List Op}
    {n : Nat}
    {op : Op}
    (hAt : log[n]? = some op) :
    stateAt gid log (n + 1) =
      (stateAt gid log n).applyCommand (n + 1) op := by
  have hLt : n < log.length :=
    (List.getElem?_eq_some_iff.mp hAt).1
  have hApplied : (stateAt gid log n).lastApplied = n := by
    unfold stateAt
    rw [deliver_lastApplied, List.length_take_of_le]
    omega
  unfold stateAt at *
  rw [List.take_add_one, hAt, Option.toList_some, deliver_snoc]
  change ShardKV.applyCommand _ (_ + 1) op = _
  rw [hApplied]

/- A property that every entry of a log keeps. -/
theorem stateAt_induct
    {gid : Int}
    {log : List Op}
    {P : ShardKV → Prop}
    (hStart : P (ShardKV.start gid))
    (hStep : ∀ n op,
      log[n]? = some op →
      P (stateAt gid log n) →
      P ((stateAt gid log n).applyCommand (n + 1) op))
    (n : Nat) :
    P (stateAt gid log n) := by
  induction n with
  | zero => exact hStart
  | succ n ih =>
      cases hAt : log[n]? with
      | some op =>
          rw [stateAt_succ hAt]
          exact hStep n op hAt ih
      | none =>
          have hLe := List.getElem?_eq_none_iff.mp hAt
          unfold stateAt at *
          rw [List.take_of_length_le (by omega)] at *
          exact ih

/- The same with the number of entries. -/
theorem stateAt_rec
    {gid : Int}
    {log : List Op}
    {P : Nat → ShardKV → Prop}
    (hStart : P 0 (ShardKV.start gid))
    (hStep : ∀ n op,
      log[n]? = some op →
      P n (stateAt gid log n) →
      P (n + 1) ((stateAt gid log n).applyCommand (n + 1)
        op))
    {n : Nat}
    (hLe : n ≤ log.length) :
    P n (stateAt gid log n) := by
  induction n with
  | zero => exact hStart
  | succ n ih =>
      have hAt := List.getElem?_eq_getElem hLe
      rw [stateAt_succ hAt]
      exact hStep n _ hAt (ih (by omega))

/- A replica that installs a snapshot agrees with its maker. -/
theorem ShardKV.install_agrees
    {kv maker : ShardKV}
    (hGid : kv.gid = maker.gid)
    (full : Bool)
    {snapshotIndex : Int}
    (hIndex : maker.lastApplied = snapshotIndex) :
    (kv.handleApplyMsg full
      (.snapshot snapshotIndex maker.snapshot)).1.Agrees
        maker := by
  constructor
  · unfold ShardKV.handleApplyMsg ShardKV.snapshot
    dsimp only
    rw [hGid]
  · rfl
  · exact hIndex.symm

theorem ShardKV.Agrees.trans
    {kv₁ kv₂ kv₃ : ShardKV}
    (hFirst : kv₁.Agrees kv₂)
    (hSecond : kv₂.Agrees kv₃) :
    kv₁.Agrees kv₃ where
  store := hFirst.store.trans hSecond.store
  ckSessions := hFirst.ckSessions.trans hSecond.ckSessions
  lastApplied := hFirst.lastApplied.trans hSecond.lastApplied

theorem ShardKV.Agrees.symm
    {kv kv' : ShardKV}
    (hAgrees : kv.Agrees kv') :
    kv'.Agrees kv where
  store := hAgrees.store.symm
  ckSessions := hAgrees.ckSessions.symm
  lastApplied := hAgrees.lastApplied.symm

theorem Store.applyOp_gid
    (st : Store)
    (args : Args) :
    (st.applyOp args).1.gid = st.gid := by
  unfold Store.applyOp
  split
  all_goals first | rfl | (split <;> rfl)

theorem deliver_gid
    (full : Int → Bool)
    (gid : Int)
    (log : List Op) :
    (ShardKV.deliver full gid log).gid = gid := by
  induction log using List.reverseRecOn with
  | nil => rfl
  | append_singleton log op ih =>
      rw [deliver_snoc, ShardKV.deliverOp_store]
      split
      · rw [Store.applyOp_gid]
        exact ih
      · exact ih

mutual

/- A replica has the state of the entries it reached. -/
theorem Replica.agrees
    {gid : Int}
    {log : List Op} :
    ∀ {n : Nat} {kv : ShardKV},
      Replica gid log n kv →
      n ≤ log.length ∧ kv.Agrees (stateAt gid log n)
| _, _, .start => ⟨Nat.zero_le _, rfl, rfl, rfl⟩
| _, _, .apply hBefore hOp hOrders => by
    rcases hOp.form with ⟨op, hAt, hForm⟩
    rcases hBefore.agrees with ⟨_, hAgrees⟩
    constructor
    · exact (List.getElem?_eq_some_iff.mp hAt).1
    · rw [ShardKV.applyCommandLoops_eq hOrders,
        stateAt_succ hAt]
      exact hAgrees.applyCommand hForm _
| m, _, .install hBefore hMaker => by
    rcases hBefore.agrees with ⟨_, hAgrees⟩
    rcases hMaker.agrees with ⟨hLe, hMakes⟩
    have hApplied := hMakes.lastApplied
    unfold stateAt at hApplied
    rw [deliver_lastApplied, List.length_take_of_le hLe]
      at hApplied
    have hGid := congrArg Store.gid hAgrees.store
    have hMakerGid := congrArg Store.gid hMakes.store
    unfold stateAt at hGid hMakerGid
    rw [deliver_gid] at hGid hMakerGid
    refine ⟨hLe, ShardKV.Agrees.trans ?_ hMakes⟩
    exact ShardKV.install_agrees
      (hGid.trans hMakerGid.symm) false hApplied

/- An entry is shipped in a form it has at its own index. -/
theorem Shipped.form
    {gid : Int}
    {log : List Op} :
    ∀ {n : Nat} {form : Op},
      Shipped gid log n form →
      ∃ op,
        log[n]? = some op ∧
        op.FormAt (stateAt gid log n).toStore form
| _, form, .started hAt => ⟨form, hAt, Or.inl rfl⟩
| _, _, .trimmed hReplica hOp hOrders => by
    rcases hOp.form with ⟨op, hAt, hForm⟩
    have hStore := hReplica.agrees.2.store
    refine ⟨op, hAt, ?_⟩
    rw [← hStore] at hForm ⊢
    exact ShardKV.applyCommandLoops_form hForm hOrders _

end

------------------------------------------------------------
-- Every Replica Can Go On
------------------------------------------------------------

/- Go maps are finite, those that an entry brings as well. -/
def FiniteMap {V : Type} (m : String → Option V) : Prop :=
  {key | (m key).isSome = true}.Finite

theorem FiniteMap.of_imp
    {V W : Type}
    {m : String → Option V}
    {m' : String → Option W}
    (hFinite : FiniteMap m)
    (hImp : ∀ key,
      (m' key).isSome = true → (m key).isSome = true) :
    FiniteMap m' :=
  hFinite.subset hImp

theorem FiniteMap.of_or
    {V : Type}
    {m₁ m₂ m : String → Option V}
    (hFirst : FiniteMap m₁)
    (hSecond : FiniteMap m₂)
    (hOr : ∀ key,
      (m key).isSome = true →
      (m₁ key).isSome = true ∨ (m₂ key).isSome = true) :
    FiniteMap m :=
  (hFirst.union hSecond).subset hOr

theorem FiniteMap.update
    {V : Type}
    {m : String → Option V}
    (hFinite : FiniteMap m)
    (key : String)
    (value : Option V) :
    FiniteMap (Function.update m key value) := by
  apply (Set.Finite.insert key hFinite).subset
  intro k hSome
  by_cases hKey : k = key
  · exact Or.inl hKey
  · have hOld : (m k).isSome = true := by
      rw [← Function.update_of_ne hKey value m]
      exact hSome
    exact Or.inr hOld

def Args.Finite : Args → Prop
| .applyMovement mp sessions _ _ =>
    FiniteMap mp ∧ FiniteMap sessions
| _ => True

theorem Store.applyOp_finite
    {st : Store}
    (hFinite : FiniteMap st.mp)
    {args : Args}
    (hArgs : args.Finite) :
    FiniteMap (st.applyOp args).1.mp := by
  cases args with
  | get key => exact hFinite
  | put key value =>
      unfold Store.applyOp
      dsimp only
      split
      · exact hFinite.update _ _
      · exact hFinite
  | append key value =>
      unfold Store.applyOp
      dsimp only
      split
      · exact hFinite.update _ _
      · exact hFinite
  | changeConfig config =>
      unfold Store.applyOp
      dsimp only
      split
      · exact hFinite
      · exact hFinite
  | applyMovement mp sessions config shards =>
      apply FiniteMap.of_or hArgs.1 hFinite
      intro key hSome
      unfold Store.applyOp at hSome
      dsimp only at hSome
      split at hSome
      · next hMp =>
          left
          rw [hMp]
          rfl
      · exact Or.inr hSome
  | deleteShards shards configNum =>
      apply hFinite.of_imp
      intro key hSome
      unfold Store.applyOp at hSome
      dsimp only at hSome
      split at hSome
      · cases hSome
      · exact hSome
  | updateShardVec configNum newVec =>
      unfold Store.applyOp
      dsimp only
      split
      · exact hFinite
      · exact hFinite

theorem applySessions_finite
    (st : Store)
    {ckSessions : Sessions}
    (hFinite : FiniteMap ckSessions)
    {args : Args}
    (hArgs : args.Finite) :
    FiniteMap (applySessions st ckSessions args) := by
  cases args with
  | applyMovement mp sessions config shards =>
      apply FiniteMap.of_or hArgs.2 hFinite
      intro key hSome
      unfold applySessions at hSome
      dsimp only at hSome
      split at hSome
      · next hSession =>
          left
          rw [hSession]
          rfl
      · exact Or.inr hSome
  | deleteShards shards configNum =>
      apply hFinite.of_imp
      intro key hSome
      unfold applySessions at hSome
      dsimp only at hSome
      split at hSome
      · next hSession =>
          rw [hSession]
          rfl
      · cases hSome
  | _ => exact hFinite

theorem ShardKV.applyCommand_finite
    {kv : ShardKV}
    (hMp : FiniteMap kv.mp)
    (hSessions : FiniteMap kv.ckSessions)
    {op : Op}
    (hArgs : op.args.Finite)
    (commandIndex : Int) :
    FiniteMap (kv.applyCommand commandIndex op).mp ∧
      FiniteMap
        (kv.applyCommand commandIndex op).ckSessions := by
  unfold ShardKV.applyCommand
  dsimp only
  split
  · exact ⟨hMp, hSessions.update _ _⟩
  · split
    · constructor
      · exact Store.applyOp_finite hMp hArgs
      · apply FiniteMap.update
        exact applySessions_finite kv.toStore hSessions hArgs
    · exact ⟨hMp, hSessions⟩

theorem Orders.exists_for
    {kv : ShardKV}
    (hMp : FiniteMap kv.mp)
    (hSessions : FiniteMap kv.ckSessions)
    {args : Args}
    (hArgs : args.Finite) :
    ∃ orders : Orders, orders.For kv args := by
  cases args with
  | applyMovement mp sessions config shards =>
      rcases RangeOrder.exists_of_finite hArgs.1 with
        ⟨mpOrder, hMpOrder⟩
      rcases RangeOrder.exists_of_finite hArgs.2 with
        ⟨sessionOrder, hSessionOrder⟩
      rcases RangeOrder.exists_of_finite
        (Set.toFinite {shard | shards shard = true}) with
        ⟨shardOrder, hShardOrder⟩
      exact ⟨⟨mpOrder, sessionOrder, shardOrder⟩,
        hMpOrder, hSessionOrder, hShardOrder⟩
  | deleteShards shards configNum =>
      rcases RangeOrder.exists_of_finite hMp with
        ⟨mpOrder, hMpOrder⟩
      rcases RangeOrder.exists_of_finite hSessions with
        ⟨sessionOrder, hSessionOrder⟩
      rcases RangeOrder.exists_of_finite
        (Set.toFinite {shard | shards shard = true}) with
        ⟨shardOrder, hShardOrder⟩
      exact ⟨⟨mpOrder, sessionOrder, shardOrder⟩,
        hMpOrder, hSessionOrder, hShardOrder⟩
  | _ => exact ⟨⟨[], [], []⟩, trivial⟩

theorem stateAt_finite
    (gid : Int)
    {log : List Op}
    (hLog : ∀ op ∈ log, op.args.Finite)
    (n : Nat) :
    FiniteMap (stateAt gid log n).mp ∧
      FiniteMap (stateAt gid log n).ckSessions := by
  refine stateAt_induct (P := fun kv =>
    FiniteMap kv.mp ∧ FiniteMap kv.ckSessions) ?_ ?_ n
  · constructor
    · exact Set.finite_empty.subset fun key hSome => by
        cases hSome
    · exact Set.finite_empty.subset fun key hSome => by
        cases hSome
  · intro n op hAt hFinite
    apply ShardKV.applyCommand_finite hFinite.1 hFinite.2
    exact hLog op (List.mem_of_getElem? hAt)

/- Any replica can take any form of the next entry. -/
theorem Replica.exists_apply
    {gid : Int}
    {log : List Op}
    (hLog : ∀ op ∈ log, op.args.Finite)
    {n : Nat}
    {kv : ShardKV}
    (hReplica : Replica gid log n kv)
    {form : Op}
    (hShipped : Shipped gid log n form) :
    ∃ orders : Orders,
      orders.For kv form.args ∧
      Replica gid log (n + 1)
        (kv.applyCommandLoops orders (n + 1) form).1 := by
  rcases hReplica.agrees with ⟨_, hAgrees⟩
  rcases stateAt_finite gid hLog n with ⟨hMp, hSessions⟩
  have hKvMp : FiniteMap kv.mp := by
    rw [hAgrees.store]
    exact hMp
  have hKvSessions : FiniteMap kv.ckSessions := by
    rw [hAgrees.ckSessions]
    exact hSessions
  have hArgs : form.args.Finite := by
    rcases hShipped.form with ⟨op, hAt, hForm⟩
    have hOp := hLog op (List.mem_of_getElem? hAt)
    rcases hForm with rfl | rfl
    · exact hOp
    · cases hArgs : op.args with
      | applyMovement mp sessions config shards =>
          rw [hArgs] at hOp
          exact hOp
      | _ => exact trivial
  rcases Orders.exists_for hKvMp hKvSessions hArgs with
    ⟨orders, hOrders⟩
  exact ⟨orders, hOrders, hReplica.apply hShipped hOrders⟩

/- So every log is applied to its end. -/
theorem Replica.exists_of_finite
    (gid : Int)
    {log : List Op}
    (hLog : ∀ op ∈ log, op.args.Finite)
    {n : Nat}
    (hLe : n ≤ log.length) :
    ∃ kv, Replica gid log n kv := by
  induction n with
  | zero => exact ⟨_, Replica.start⟩
  | succ n ih =>
      rcases ih (by omega) with ⟨kv, hReplica⟩
      have hAt : log[n]? = some log[n] :=
        List.getElem?_eq_getElem hLe
      rcases hReplica.exists_apply hLog
        (Shipped.started hAt) with ⟨orders, _, hNext⟩
      exact ⟨_, hNext⟩

------------------------------------------------------------
-- Agreement
------------------------------------------------------------

/-
  All replicas of a group that have reached the same index
  of its log, by applying its entries in whatever orders or by
  installing snapshots of one another, have the same state.
-/
theorem replicas_agree
    {gid : Int}
    {log : List Op}
    {n : Nat}
    {kv kv' : ShardKV}
    (hReplica : Replica gid log n kv)
    (hReplica' : Replica gid log n kv') :
    kv.mp = kv'.mp ∧
      kv.ckSessions = kv'.ckSessions ∧
      kv.config = kv'.config ∧
      kv.shardVec = kv'.shardVec ∧
      kv.shardLastNums = kv'.shardLastNums ∧
      kv.lastApplied = kv'.lastApplied := by
  rcases hReplica.agrees with ⟨_, hAgrees⟩
  rcases hReplica'.agrees with ⟨_, hAgrees'⟩
  rcases hAgrees.trans hAgrees'.symm with
    ⟨hStore, hSessions, hApplied⟩
  refine ⟨?_, hSessions, ?_, ?_, ?_, hApplied⟩
  · exact congrArg Store.mp hStore
  · exact congrArg Store.config hStore
  · exact congrArg Store.shardVec hStore
  · exact congrArg Store.shardLastNums hStore

/-
  Group 1 gets all shards and then refuses to delete any of
  them, which trims the entry to nothing.
-/
def refusedDelete : List Op :=
  let config : Config := {
    num := 1
    shards := fun _ => 1
    groups := AList.insert 1 ["a"] ∅ }
  let serve : Op := {
    number := 10
    reqNum := 1
    ckId := -7
    shardNum := key2shard ""
    args := .changeConfig config }
  [serve, { serve with
    number := 11
    ckId := -8
    args := .deleteShards (fun _ => true) 0 }]

/-
  One replica applies both entries; the other one installs a
  snapshot taken after the first, and the entry it applies
  next was trimmed by the one before.
-/
theorem replicas_agree_refusedDelete :
    ∃ kv kv' maker form orders,
      Replica 1 refusedDelete 2 kv ∧
      Replica 1 refusedDelete 1 maker ∧
      form.args = .deleteShards (fun _ => false) 0 ∧
      kv' = (((ShardKV.start 1).handleApplyMsg false
        (.snapshot 1 maker.snapshot)).1.applyCommandLoops
          orders 2 form).1 ∧
      kv.mp = kv'.mp ∧
      kv.ckSessions = kv'.ckSessions ∧
      kv.config = kv'.config ∧
      kv.shardVec = kv'.shardVec ∧
      kv.shardLastNums = kv'.shardLastNums ∧
      kv.lastApplied = kv'.lastApplied := by
  have hLog : ∀ op ∈ refusedDelete, op.args.Finite := by
    intro op hMem
    rcases List.mem_pair.mp hMem with rfl | rfl
    · exact trivial
    · exact trivial
  have hShipped :
      Shipped 1 refusedDelete 1 refusedDelete[1] :=
    Shipped.started rfl
  have hStart :
      Replica 1 refusedDelete 0 (ShardKV.start 1) :=
    Replica.start
  rcases Replica.exists_of_finite 1 hLog
    (show 1 ≤ refusedDelete.length by decide) with
    ⟨maker, hMaker⟩
  rcases hMaker.exists_apply hLog hShipped with
    ⟨orders, hOrders, hReplica⟩
  have hTrimmed := Shipped.trimmed hMaker hShipped hOrders
  rcases (hStart.install hMaker).exists_apply hLog hTrimmed
    with ⟨orders', _, hReplica'⟩
  refine ⟨_, _, maker, _, orders', hReplica, hMaker, ?_, rfl,
    replicas_agree hReplica hReplica'⟩
  rcases hMaker.agrees.2 with ⟨hStore, hSessions, _⟩
  have hStable :
      maker.stable 2 refusedDelete[1] = false := by
    unfold ShardKV.stable
    rw [hSessions]
    decide
  unfold ShardKV.applyCommandLoops
  rw [ShardKV.applyOpLoops_eq hOrders, hStore]
  simp only [Nat.cast_one, Int.reduceAdd, hStable]
  apply congrArg (fun shards => Args.deleteShards shards 0)
  funext shard
  revert shard
  decide

end Shardkv

end RaftLab
