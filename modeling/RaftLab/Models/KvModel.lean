import Mathlib.Data.List.Induction
import Mathlib.Data.List.Sort
import Mathlib.Data.String.Basic
import RaftLab.Lib.Locality

/-
  The key/value model (src/models/kv.go), against which the
  tests of kvsrv, kvraft and shardkv check their histories.

  The state of the model is the value of one key, and its
  Partition splits a history by key. Partition functions
  must be such that a history is linearizable if and only if
  each partition is (src/porcupine/model.go). For this one
  it holds: the operations of each key are linearizable on a
  value of their own if and only if the history as a whole
  is linearizable on a store of all keys.

  Main declarations:
    * `Models.kvPartition`, `Models.kvStep`
    * `Models.PartLinearizable`, `Models.KvLinearizable`
    * `Models.kvPartition_linearizable_iff`
-/

------------------------------------------------------------
-- The Model
------------------------------------------------------------

namespace RaftLab

namespace Models

/- `op`: 0 => get, 1 => put, 2 => append. -/
structure KvInput where
  op : UInt8
  key : String
  value : String
deriving DecidableEq

structure KvOutput where
  value : String
deriving DecidableEq

structure Operation where
  input : KvInput
  call : Int
  output : KvOutput
  ret : Int
deriving DecidableEq

/- `m[key] = append(m[key], v)`. -/
def appendAt
    (key : String)
    (v : Operation) :
    List (String × List Operation) →
      List (String × List Operation)
| [] => [(key, [v])]
| (k, vs) :: m =>
    if k = key then
      (k, vs ++ [v]) :: m
    else
      (k, vs) :: appendAt key v m

/- The loop over the history; a map as a list of its pairs. -/
def groupByKey (history : List Operation) :
    List (String × List Operation) :=
  history.foldl (fun m v => appendAt v.input.key v m) []

def kvPartition (history : List Operation) :
    List (List Operation) :=
  let m := groupByKey history
  let keys := (m.map Prod.fst).insertionSort (· ≤ ·)
  keys.map fun k => (m.lookup k).getD []

def kvInit : String := ""

def kvStep
    (st : String)
    (inp : KvInput)
    (out : KvOutput) : Bool × String :=
  if inp.op = 0 then
    (decide (out.value = st), st)
  else if inp.op = 1 then
    (true, inp.value)
  else if inp.op = 2 then
    (true, st ++ inp.value)
  else
    (decide (out.value = st), st ++ inp.value)

------------------------------------------------------------
-- What Is Checked
------------------------------------------------------------

/- An operation has returned when another is made. -/
def Operation.precedes (a b : Operation) : Prop :=
  a.ret < b.call

/- `Step` as a partial function. -/
def kvNext
    (st : String)
    (a : Operation) : Option String :=
  if (kvStep st a.input a.output).1 then
    some (kvStep st a.input a.output).2
  else
    none

/- Linearizable on the value of one key. -/
def PartLinearizable (sub : List Operation) : Prop :=
  Schedulable Operation.precedes kvNext kvInit sub

/- An operation on a store of all keys. -/
def storeStep
    (store : String → String)
    (a : Operation) : Option (String → String) :=
  let old := store a.input.key
  if a.input.op = 0 then
    if a.output.value = old then some store else none
  else if a.input.op = 1 then
    some (Function.update store a.input.key a.input.value)
  else if a.input.op = 2 then
    some (Function.update store a.input.key
      (old ++ a.input.value))
  else if a.output.value = old then
    some (Function.update store a.input.key
      (old ++ a.input.value))
  else
    none

/- Linearizable as a history of one store. -/
def KvLinearizable (history : List Operation) : Prop :=
  Schedulable Operation.precedes storeStep (fun _ => "")
    history

------------------------------------------------------------
-- Partitions
------------------------------------------------------------

def kvCalls : TimedCalls Operation String Int where
  call := Operation.call
  ret := Operation.ret
  key a := a.input.key

theorem lookup_appendAt
    (key k : String)
    (v : Operation)
    (m : List (String × List Operation)) :
    ((appendAt key v m).lookup k).getD [] =
      (m.lookup k).getD [] ++ if key = k then [v] else [] := by
  induction m with
  | nil =>
      by_cases hKey : k = key
      · subst hKey
        simp [appendAt]
      · have hNe : (k == key) = false := by simpa using hKey
        simp [appendAt, List.lookup_cons, hNe, Ne.symm hKey]
  | cons p m ih =>
      rcases p with ⟨k₀, vs⟩
      rw [appendAt]
      by_cases hKey : k = k₀
      · subst hKey
        split
        · rename_i hEq
          simp [hEq]
        · rename_i hOther
          simp [Ne.symm hOther]
      · have hNe : (k == k₀) = false := by simpa using hKey
        split
        · rename_i hEq
          subst hEq
          simp [List.lookup_cons, hNe, Ne.symm hKey]
        · simp only [List.lookup_cons, hNe]
          exact ih

theorem mem_keys_appendAt
    (key k : String)
    (v : Operation)
    (m : List (String × List Operation)) :
    k ∈ (appendAt key v m).map Prod.fst ↔
      k ∈ m.map Prod.fst ∨ key = k := by
  induction m with
  | nil => simp [appendAt, eq_comm]
  | cons p m ih =>
      rcases p with ⟨k₀, vs⟩
      rw [appendAt]
      split
      · rename_i hEq
        subst hEq
        simp only [List.map_cons, List.mem_cons]
        tauto
      · simp only [List.map_cons, List.mem_cons, ih]
        tauto

/- What the map holds after the loop. -/
theorem groupByKey_spec (history : List Operation) :
    (∀ k, k ∈ (groupByKey history).map Prod.fst ↔
      ∃ a ∈ history, a.input.key = k) ∧
    ∀ k, ((groupByKey history).lookup k).getD [] =
      kvCalls.ofKey k history := by
  unfold groupByKey
  -- by induction from the right, as the loop appends
  induction history using List.reverseRecOn with
  | nil => simp [TimedCalls.ofKey]
  | append_singleton history v ih =>
      rcases ih with ⟨hKeys, hLookup⟩
      simp only [List.foldl_append, List.foldl_cons,
        List.foldl_nil]
      refine ⟨?_, ?_⟩
      · intro k
        rw [mem_keys_appendAt, hKeys k]
        simp [or_and_right, exists_or]
      · intro k
        rw [lookup_appendAt, hLookup k, TimedCalls.ofKey,
          TimedCalls.ofKey, List.filter_append]
        congr 1
        by_cases hKey : v.input.key = k
        · simp [kvCalls, hKey]
        · simp [kvCalls, hKey]

theorem mem_kvPartition_iff
    (history sub : List Operation) :
    sub ∈ kvPartition history ↔
      ∃ k, (∃ a ∈ history, a.input.key = k) ∧
        sub = kvCalls.ofKey k history := by
  rcases groupByKey_spec history with ⟨hKeys, hLookup⟩
  simp only [kvPartition, List.mem_map]
  constructor
  · rintro ⟨k, hMem, rfl⟩
    rw [(List.perm_insertionSort _ _).mem_iff, hKeys] at hMem
    exact ⟨k, hMem, hLookup k⟩
  · rintro ⟨k, hMem, rfl⟩
    refine ⟨k, ?_, hLookup k⟩
    rw [(List.perm_insertionSort _ _).mem_iff, hKeys]
    exact hMem

/- The store runs the model of the key of the operation. -/
theorem storeStep_eq :
    storeStep = kvCalls.stepAt kvNext := by
  funext store a
  simp only [storeStep, TimedCalls.stepAt, kvCalls, kvNext,
    kvStep]
  split
  · split <;> rename_i hValue <;>
      simp [hValue, Function.update_eq_self]
  · split
    · simp
    · split
      · simp
      · split <;> rename_i hValue <;> simp [hValue]

/-
  Checking key by key decides whether the history as a
  whole is linearizable.
-/
theorem kvPartition_linearizable_iff
    {history : List Operation}
    (hSpan : ∀ a ∈ history, a.call ≤ a.ret) :
    (∀ sub ∈ kvPartition history, PartLinearizable sub) ↔
      KvLinearizable history := by
  have hTimes : ∀ a ∈ history,
      kvCalls.call a ≤ kvCalls.ret a := hSpan
  have hLocal : KvLinearizable history ↔
      ∀ k, PartLinearizable (kvCalls.ofKey k history) := by
    unfold KvLinearizable
    rw [storeStep_eq]
    exact TimedCalls.schedulable_iff_forall_key hTimes
  rw [hLocal]
  constructor
  · intro hAll k
    by_cases hKey : ∃ a ∈ history, a.input.key = k
    · exact hAll _
        ((mem_kvPartition_iff _ _).mpr ⟨k, hKey, rfl⟩)
    · -- a key without operations has no partition
      have hNone : kvCalls.ofKey k history = [] := by
        rw [TimedCalls.ofKey, List.filter_eq_nil_iff]
        intro a hA hDecide
        exact hKey ⟨a, hA, of_decide_eq_true hDecide⟩
      rw [hNone]
      exact ⟨[], by constructor <;> simp⟩
  · intro hAll sub hSub
    rcases (mem_kvPartition_iff _ _).mp hSub with
      ⟨k, _, rfl⟩
    exact hAll k

/- A put and a get of one key, and a put of another. -/
def twoKeys : List Operation :=
  [⟨⟨1, "x", "a"⟩, 0, ⟨""⟩, 2⟩,
    ⟨⟨1, "y", "b"⟩, 1, ⟨""⟩, 4⟩,
    ⟨⟨0, "x", ""⟩, 3, ⟨"a"⟩, 5⟩]

theorem kvPartition_linearizable_iff_twoKeys :
    (∀ sub ∈ kvPartition twoKeys, PartLinearizable sub) ↔
      KvLinearizable twoKeys :=
  kvPartition_linearizable_iff (by decide)

end Models

end RaftLab
