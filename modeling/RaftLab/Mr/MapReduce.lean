import Mathlib.Data.List.Induction
import Mathlib.Data.List.Nodup
import Mathlib.Data.List.Perm.Basic
import Mathlib.Data.String.Basic
import RaftLab.Lib.Grouping

/-
  The map and reduce tasks of a worker (src/mr/worker.go) and
  the sequential program (src/main/mrsequential.go).

  A file of intermediate records is the list of its records:
  JSON is taken as the identity. The names that the regular
  expressions of the worker can match are `FileName`; Readdir
  returns the names that exist in any order. A sort is any
  function that permutes its input into key order.

  Main declarations:
    * `Mr.KeyValue`, `Mr.ihash`, `Mr.KeySort`
    * `Mr.FileName`, `Mr.Files`, `Mr.Listing`
    * `Mr.writeTmp`, `Mr.publish`, `Mr.doMapf`
    * `Mr.readBucket`, `Mr.doReducef`, `Mr.mrsequential`
    * `Mr.distributed_eq_sequential`
-/

------------------------------------------------------------
-- Records And Buckets
------------------------------------------------------------

namespace RaftLab

namespace Mr

structure KeyValue where
  key : String
  value : String
deriving DecidableEq, Repr

/- fnv.New32a, Write and Sum32 -/
def fnv32a (bytes : List UInt8) : UInt32 :=
  bytes.foldl
    (fun h b => (h ^^^ b.toUInt32) * 16777619) 2166136261

def ihash (key : String) : Nat :=
  (fnv32a key.toUTF8.toList &&& 0x7fffffff).toNat

/- A call of sort.Sort(ByKey(...)). -/
structure KeySort where
  sort : List KeyValue → List KeyValue
  perm : ∀ kvs, (sort kvs).Perm kvs
  sorted : ∀ kvs,
    Grouping.SortedBy KeyValue.key (sort kvs)

/- The records that a map task writes to bucket `i`. -/
def bucket
    (nReduce i : Nat)
    (kvs : List KeyValue) : List KeyValue :=
  kvs.filter fun kv => ihash kv.key % nReduce = i

------------------------------------------------------------
-- Files
------------------------------------------------------------

/- mr-tmp-worker-task-bucket and mr-task-bucket -/
inductive FileName where
  | tmp (worker : Int) (task bucket : Nat)
  | final (task bucket : Nat)
deriving DecidableEq, Repr

abbrev Files : Type :=
  FileName → Option (List KeyValue)

/- What Readdir(-1) returns. -/
structure Listing
    (files : Files)
    (names : List FileName) : Prop where
  nodup : names.Nodup
  mem_iff : ∀ name, name ∈ names ↔ files name ≠ none

/- The loop that writes one temporary file for each bucket. -/
def writeTmp
    (id : Int)
    (workId nReduce : Nat)
    (mrKVs : List KeyValue)
    (files : Files) : Files :=
  (List.range nReduce).foldl
    (fun files i =>
      Function.update files (.tmp id workId i)
        (some (bucket nReduce i mrKVs)))
    files

/- One round of the loop that renames temporary files. -/
def rename
    (id : Int)
    (files : Files) :
    FileName → Files
| .tmp worker task bucket =>
    if worker = id then
      match files (.tmp worker task bucket) with
      | some content =>
          Function.update
            (Function.update files (.final task bucket)
              (some content))
            (.tmp worker task bucket) none
      | none => files
    else
      files
| .final _ _ => files

def publish
    (id : Int)
    (names : List FileName)
    (files : Files) : Files :=
  names.foldl (rename id) files

------------------------------------------------------------
-- The Tasks
------------------------------------------------------------

/- An input file: its name and its content. -/
structure Input where
  path : String
  content : String
deriving DecidableEq, Repr

/- The records of a map task, in the order it writes them. -/
def mapOutput
    (mapf : String → String → List KeyValue)
    (sort : KeySort)
    (input : Input) : List KeyValue :=
  sort.sort (mapf input.path input.content)

/-
  do_mapf from the write of the temporary files on, with the
  report accepted. `names` is the listing after the writes.
-/
def doMapf
    (mapf : String → String → List KeyValue)
    (sort : KeySort)
    (nReduce : Nat)
    (id : Int)
    (workId : Nat)
    (input : Input)
    (names : List FileName)
    (files : Files) : Files :=
  publish id names
    (writeTmp id workId nReduce (mapOutput mapf sort input)
      files)

/- The records of the files mr-*-workId, in listing order. -/
def readBucket
    (files : Files)
    (names : List FileName)
    (workId : Nat) : List KeyValue :=
  names.flatMap fun
  | .tmp _ _ _ => []
  | .final task bucket =>
      if bucket = workId then
        (files (.final task bucket)).getD []
      else
        []

/- The loop over the sorted records: key and output. -/
def reduceLoop
    (reducef : String → List String → String)
    (kva : List KeyValue) : List (String × String) :=
  (Grouping.groups KeyValue.key KeyValue.value kva).map
    fun group => (group.1, reducef group.1 group.2)

/- Fprintf(ofile, "%v %v\n", key, output) -/
def line (result : String × String) : String :=
  result.1 ++ " " ++ result.2 ++ "\n"

def doReducef
    (reducef : String → List String → String)
    (sort : KeySort)
    (files : Files)
    (names : List FileName)
    (workId : Nat) : List (String × String) :=
  reduceLoop reducef
    (sort.sort (readBucket files names workId))

def mrsequential
    (mapf : String → String → List KeyValue)
    (reducef : String → List String → String)
    (sort : KeySort)
    (inputs : List Input) : List (String × String) :=
  reduceLoop reducef
    (sort.sort (inputs.flatMap fun input =>
      mapf input.path input.content))

/-
  The files after each of the tasks `done` has been mapped
  once, by any worker and in any order.
-/
inductive Mapped
    (mapf : String → String → List KeyValue)
    (sort : KeySort)
    (nReduce : Nat)
    (inputs : List Input) :
    List Nat → Files → Prop
  | start : Mapped mapf sort nReduce inputs [] fun _ => none
  | task
      {done : List Nat}
      {files : Files}
      {id : Int}
      {workId : Nat}
      {input : Input}
      {names : List FileName}
      (hBefore :
        Mapped mapf sort nReduce inputs done files)
      (hNew : workId ∉ done)
      (hInput : inputs[workId]? = some input)
      (hNames : Listing
        (writeTmp id workId nReduce
          (mapOutput mapf sort input) files) names) :
      Mapped mapf sort nReduce inputs (workId :: done)
        (doMapf mapf sort nReduce id workId input names files)

/- All reduce tasks, each with a listing of its own. -/
def reducePhase
    (reducef : String → List String → String)
    (sort : KeySort)
    (nReduce : Nat)
    (files : Files)
    (names : Nat → List FileName) : List (String × String) :=
  (List.range nReduce).flatMap fun r =>
    doReducef reducef sort files (names r) r

------------------------------------------------------------
-- What A Map Task Leaves
------------------------------------------------------------

theorem writeTmp_final
    (id : Int)
    (workId nReduce : Nat)
    (mrKVs : List KeyValue)
    (files : Files)
    (task i : Nat) :
    writeTmp id workId nReduce mrKVs files (.final task i) =
      files (.final task i) := by
  unfold writeTmp
  generalize List.range nReduce = is
  induction is generalizing files with
  | nil => rfl
  | cons j is ih =>
      rw [List.foldl_cons, ih, Function.update_of_ne]
      simp

theorem writeTmp_tmp
    (id : Int)
    (workId nReduce : Nat)
    (mrKVs : List KeyValue)
    (files : Files)
    (worker : Int)
    (task i : Nat) :
    writeTmp id workId nReduce mrKVs files
        (.tmp worker task i) =
      if worker = id ∧ task = workId ∧ i < nReduce then
        some (bucket nReduce i mrKVs)
      else
        files (.tmp worker task i) := by
  unfold writeTmp
  simp only [← List.mem_range]
  generalize List.range nReduce = is
  induction is generalizing files with
  | nil => simp
  | cons j is ih =>
      rw [List.foldl_cons, ih]
      by_cases hHere :
          FileName.tmp worker task i = .tmp id workId j
      · cases hHere
        simp
      · rw [Function.update_of_ne hHere]
        by_cases hOwn : worker = id ∧ task = workId
        · have hOther : i ≠ j := by
            intro hEq
            rw [hOwn.1, hOwn.2, hEq] at hHere
            exact hHere rfl
          simp [hOwn, hOther]
        · have hNot : ∀ p : Prop,
              ¬ (worker = id ∧ task = workId ∧ p) := by
            rintro p ⟨hWorker, hTask, _⟩
            exact hOwn ⟨hWorker, hTask⟩
          rw [if_neg (hNot _), if_neg (hNot _)]

/- A rename takes away the worker's own temporary file. -/
theorem rename_tmp
    (id : Int)
    (files : Files)
    (first : FileName)
    (worker : Int)
    (task i : Nat) :
    rename id files first (.tmp worker task i) =
      if worker = id ∧ .tmp worker task i = first then none
      else files (.tmp worker task i) := by
  cases first with
  | final t j => simp [rename]
  | tmp w t j =>
      by_cases hHere :
          FileName.tmp worker task i = .tmp w t j
      · cases hHere
        by_cases hOwn : worker = id
        · rw [hOwn]
          cases hContent : files (.tmp id task i) with
          | none => simp [rename, hContent]
          | some content => simp [rename, hContent]
        · simp [rename, hOwn]
      · rw [if_neg fun h => hHere h.2, rename]
        split
        · cases files (.tmp w t j) with
          | none => rfl
          | some content => simp [hHere]
        · rfl

/- It publishes the content under the final name. -/
theorem rename_final
    {id : Int}
    {files : Files}
    {first : FileName}
    (hExists : files first ≠ none)
    (task i : Nat) :
    rename id files first (.final task i) =
      if .tmp id task i = first then files first
      else files (.final task i) := by
  cases first with
  | final t j => simp [rename]
  | tmp w t j =>
      rcases Option.ne_none_iff_exists'.mp hExists with
        ⟨content, hContent⟩
      by_cases hOwn : w = id
      · by_cases hHere : FileName.final task i = .final t j
        · cases hHere
          simp [rename, hOwn, hOwn ▸ hContent]
        · have hOther :
              FileName.tmp id task i ≠ .tmp w t j := by
            intro hEq
            cases hEq
            exact hHere rfl
          simp [rename, hOwn, hOwn ▸ hContent, hHere,
            hOwn ▸ hOther]
      · have hOther :
            FileName.tmp id task i ≠ .tmp w t j := by
          intro hEq
          cases hEq
          exact hOwn rfl
        simp [rename, hOwn, hOther]

/-
  Renaming each name of a listing once takes away all
  temporary files of the worker.
-/
theorem publish_tmp
    (id : Int)
    (names : List FileName)
    (files : Files)
    (worker : Int)
    (task i : Nat) :
    publish id names files (.tmp worker task i) =
      if worker = id ∧ .tmp worker task i ∈ names then none
      else files (.tmp worker task i) := by
  induction names generalizing files with
  | nil => simp [publish]
  | cons first names ih =>
      have hStep : publish id (first :: names) files
            (.tmp worker task i) =
          publish id names (rename id files first)
            (.tmp worker task i) := rfl
      rw [hStep, ih, rename_tmp]
      by_cases hOwn : worker = id
      · rw [hOwn]
        by_cases hHere : FileName.tmp id task i = first
        · simp [hHere]
        · simp [hHere]
      · simp [hOwn]

/- And publishes them under their final names. -/
theorem publish_final
    {id : Int}
    {names : List FileName}
    {files : Files}
    (hNodup : names.Nodup)
    (hExists : ∀ name ∈ names, files name ≠ none)
    (task i : Nat) :
    publish id names files (.final task i) =
      if .tmp id task i ∈ names then files (.tmp id task i)
      else files (.final task i) := by
  induction names generalizing files with
  | nil => simp [publish]
  | cons first names ih =>
      rcases List.nodup_cons.mp hNodup with
        ⟨hFirst, hRest⟩
      have hHead := hExists first List.mem_cons_self
      have hLeft : ∀ name ∈ names,
          rename id files first name ≠ none := by
        intro name hMem
        have hOld := hExists name
          (List.mem_cons_of_mem first hMem)
        cases name with
        | tmp worker task i =>
            have hNe : FileName.tmp worker task i ≠ first := by
              intro hEq
              rw [hEq] at hMem
              exact hFirst hMem
            rw [rename_tmp, if_neg fun h => hNe h.2]
            exact hOld
        | final task i =>
            rw [rename_final hHead]
            split
            · exact hHead
            · exact hOld
      have hStep : publish id (first :: names) files
            (.final task i) =
          publish id names (rename id files first)
            (.final task i) := rfl
      rw [hStep, ih hRest hLeft, rename_tmp,
        rename_final hHead]
      by_cases hHere : FileName.tmp id task i = first
      · simp [hHere, hFirst]
      · simp [hHere]

------------------------------------------------------------
-- What The Map Tasks Leave
------------------------------------------------------------

section Mapping

variable {mapf : String → String → List KeyValue}
variable {sort : KeySort} {nReduce : Nat}
variable {inputs : List Input}
variable {done : List Nat} {files : Files}

/- No temporary file is left. -/
theorem Mapped.tmp
    (hMapped : Mapped mapf sort nReduce inputs done files)
    (worker : Int)
    (task i : Nat) :
    files (.tmp worker task i) = none := by
  induction hMapped with
  | start => rfl
  | @task done files id workId input names _ _ _ hNames ih =>
      rw [doMapf, publish_tmp]
      by_cases hOwn : worker = id
      · by_cases hMem : FileName.tmp worker task i ∈ names
        · rw [if_pos ⟨hOwn, hMem⟩]
        · rw [if_neg fun h => hMem h.2]
          by_contra hSome
          exact hMem ((hNames.mem_iff _).mpr hSome)
      · rw [if_neg fun h => hOwn h.1, writeTmp_tmp,
          if_neg fun h => hOwn h.1]
        exact ih

/- Each task has published its buckets. -/
theorem Mapped.final
    (hMapped : Mapped mapf sort nReduce inputs done files)
    (task i : Nat) :
    files (.final task i) =
      if task ∈ done ∧ i < nReduce then
        inputs[task]?.map fun input =>
          bucket nReduce i (mapOutput mapf sort input)
      else
        none := by
  induction hMapped with
  | start => simp
  | @task done files id workId input names
      hBefore hNew hInput hNames ih =>
      have hMem : FileName.tmp id task i ∈ names ↔
          task = workId ∧ i < nReduce := by
        rw [hNames.mem_iff, writeTmp_tmp, hBefore.tmp]
        simp
      rw [doMapf, publish_final hNames.nodup fun name hName =>
        (hNames.mem_iff name).mp hName]
      simp only [hMem, writeTmp_tmp, writeTmp_final, ih,
        true_and]
      by_cases hTask : task = workId
      · rw [hTask]
        by_cases hBound : i < nReduce
        · simp [hBound, hInput]
        · simp [hBound]
      · simp [hTask]

theorem Mapped.done_lt
    (hMapped : Mapped mapf sort nReduce inputs done files)
    {task : Nat}
    (hMem : task ∈ done) :
    task < inputs.length := by
  induction hMapped with
  | start => cases hMem
  | task _ _ hInput _ ih =>
      rcases List.mem_cons.mp hMem with hHere | hOld
      · rw [hHere]
        exact (List.getElem?_eq_some_iff.mp hInput).1
      · exact ih hOld

theorem Mapped.final_ne_none_iff
    (hMapped : Mapped mapf sort nReduce inputs done files)
    (task i : Nat) :
    files (.final task i) ≠ none ↔
      task ∈ done ∧ i < nReduce := by
  rw [hMapped.final]
  split
  · next hHere =>
      rw [List.getElem?_eq_getElem
        (hMapped.done_lt hHere.1)]
      simp [hHere]
  · next hNot => simp [hNot]

------------------------------------------------------------
-- What A Reduce Task Reads
------------------------------------------------------------

/- The tasks of the files of a bucket, in listing order. -/
def bucketTasks (names : List FileName) (workId : Nat) :
    List Nat :=
  names.filterMap fun
  | .tmp _ _ _ => none
  | .final task bucket =>
      if bucket = workId then some task else none

theorem readBucket_eq
    (files : Files)
    (names : List FileName)
    (workId : Nat) :
    readBucket files names workId =
      (bucketTasks names workId).flatMap fun task =>
        (files (.final task workId)).getD [] := by
  unfold readBucket bucketTasks
  induction names with
  | nil => rfl
  | cons name names ih =>
      rw [List.flatMap_cons, ih]
      cases name with
      | tmp worker task i => rfl
      | final task i =>
          by_cases hBucket : i = workId
          · simp [hBucket]
          · simp [hBucket]

theorem mem_bucketTasks_iff
    {names : List FileName}
    {workId task : Nat} :
    task ∈ bucketTasks names workId ↔
      .final task workId ∈ names := by
  unfold bucketTasks
  rw [List.mem_filterMap]
  constructor
  · rintro ⟨name, hMem, hTask⟩
    cases name with
    | tmp worker t i => cases hTask
    | final t i =>
        simp only at hTask
        split at hTask
        · next hBucket =>
            cases hTask
            rw [hBucket] at hMem
            exact hMem
        · cases hTask
  · intro hMem
    exact ⟨_, hMem, if_pos rfl⟩

theorem nodup_bucketTasks
    {names : List FileName}
    (hNodup : names.Nodup)
    (workId : Nat) :
    (bucketTasks names workId).Nodup := by
  apply List.Nodup.filterMap _ hNodup
  intro name name' task hTask hTask'
  cases name with
  | tmp worker t i => cases hTask
  | final t i =>
      cases name' with
      | tmp worker t' i' => cases hTask'
      | final t' i' =>
          simp only [Option.mem_def,
            Option.ite_none_right_eq_some,
            Option.some.injEq] at hTask hTask'
          rw [hTask.1, hTask.2, hTask'.1, hTask'.2]

/- Going over the indices is going over the list. -/
theorem flatMap_range_getElem
    {α β : Type}
    (l : List α)
    (f : α → List β) :
    ((List.range l.length).flatMap fun i =>
        (l[i]?.map f).getD []) = l.flatMap f := by
  induction l using List.reverseRecOn with
  | nil => rfl
  | append_singleton l a ih =>
      rw [List.length_append, List.length_singleton,
        List.range_succ, List.flatMap_append,
        List.flatMap_append, ← ih]
      congr 1
      · apply List.flatMap_congr
        intro i hMem
        rw [List.getElem?_append_left
          (List.mem_range.mp hMem)]
      · simp

/-
  When all tasks are mapped, a reduce task reads, in some
  order, all records whose keys belong to its bucket.
-/
theorem readBucket_perm
    (hMapped : Mapped mapf sort nReduce inputs done files)
    (hAll : ∀ task, task < inputs.length → task ∈ done)
    {names : List FileName}
    (hNames : Listing files names)
    {r : Nat}
    (hBucket : r < nReduce) :
    (readBucket files names r).Perm
      (bucket nReduce r (inputs.flatMap fun input =>
        mapf input.path input.content)) := by
  have hTasks :
      (bucketTasks names r).Perm
        (List.range inputs.length) := by
    rw [List.perm_ext_iff_of_nodup
      (nodup_bucketTasks hNames.nodup r) List.nodup_range]
    intro task
    rw [mem_bucketTasks_iff, hNames.mem_iff,
      hMapped.final_ne_none_iff, List.mem_range]
    constructor
    · rintro ⟨hDone, _⟩
      exact hMapped.done_lt hDone
    · intro hBound
      exact ⟨hAll task hBound, hBucket⟩
  have hRead : ∀ task ∈ List.range inputs.length,
      (files (.final task r)).getD [] =
        (inputs[task]?.map fun input =>
          bucket nReduce r (mapOutput mapf sort input)).getD
            [] := by
    intro task hMem
    have hBound := List.mem_range.mp hMem
    rw [hMapped.final, if_pos ⟨hAll task hBound, hBucket⟩]
  rw [readBucket_eq]
  apply (hTasks.flatMap_right _).trans
  rw [List.flatMap_congr hRead, flatMap_range_getElem inputs,
    bucket, List.filter_flatMap]
  apply List.Perm.flatMap_left
  intro input _
  exact (sort.perm _).filter _

end Mapping

------------------------------------------------------------
-- Distributed And Sequential
------------------------------------------------------------

section Reducing

variable {reducef : String → List String → String}

/- reducef does not depend on the order of the values. -/
def OrderFree (reducef : String → List String → String) :
    Prop :=
  ∀ key values values',
    values.Perm values' →
    reducef key values = reducef key values'

/-
  The loop over sorted records: each key with its output,
  whatever the order before the sort.
-/
theorem mem_reduceLoop_iff
    (hOrder : OrderFree reducef)
    (sort : KeySort)
    {kvs kvs' : List KeyValue}
    (hPerm : kvs.Perm kvs')
    {key output : String} :
    (key, output) ∈ reduceLoop reducef (sort.sort kvs) ↔
      (∃ kv ∈ kvs', kv.key = key) ∧
        output = reducef key
          (Grouping.valuesOf KeyValue.key KeyValue.value
            key kvs') := by
  have hSame : (sort.sort kvs).Perm kvs' :=
    (sort.perm kvs).trans hPerm
  have hValues : ∀ key,
      reducef key
          (Grouping.valuesOf KeyValue.key KeyValue.value
            key (sort.sort kvs)) =
        reducef key
          (Grouping.valuesOf KeyValue.key KeyValue.value
            key kvs') := by
    intro key
    exact hOrder key _ _ (Grouping.valuesOf_perm hSame)
  unfold reduceLoop
  rw [List.mem_map]
  constructor
  · rintro ⟨⟨k, values⟩, hGroup, hEq⟩
    rcases (Grouping.mem_groups_iff (sort.sorted kvs)).mp
      hGroup with ⟨⟨kv, hMem, hKey⟩, hVals⟩
    cases hEq
    refine ⟨⟨kv, hSame.mem_iff.mp hMem, hKey⟩, ?_⟩
    rw [hVals]
    exact hValues k
  · rintro ⟨⟨kv, hMem, hKey⟩, hOutput⟩
    refine ⟨(key, _), (Grouping.mem_groups_iff
      (sort.sorted kvs)).mpr
        ⟨⟨kv, hSame.mem_iff.mpr hMem, hKey⟩, rfl⟩, ?_⟩
    rw [hOutput, hValues]

theorem nodup_reduceLoop
    (reducef : String → List String → String)
    (sort : KeySort)
    (kvs : List KeyValue) :
    ((reduceLoop reducef (sort.sort kvs)).map
      Prod.fst).Nodup := by
  unfold reduceLoop
  rw [List.map_map]
  exact Grouping.nodup_groups (sort.sorted kvs)

variable {mapf : String → String → List KeyValue}
variable {sortMap : KeySort} {nReduce : Nat}
variable {inputs : List Input}
variable {done : List Nat} {files : Files}

/- The results of one bucket: its keys, with all values. -/
theorem mem_doReducef_iff
    (hOrder : OrderFree reducef)
    (sort : KeySort)
    (hMapped :
      Mapped mapf sortMap nReduce inputs done files)
    (hAll : ∀ task, task < inputs.length → task ∈ done)
    {names : List FileName}
    (hNames : Listing files names)
    {r : Nat}
    (hBucket : r < nReduce)
    {key output : String} :
    (key, output) ∈ doReducef reducef sort files names r ↔
      ihash key % nReduce = r ∧
        (∃ input ∈ inputs,
          ∃ kv ∈ mapf input.path input.content,
            kv.key = key) ∧
        output = reducef key
          (Grouping.valuesOf KeyValue.key KeyValue.value key
            (inputs.flatMap fun input =>
              mapf input.path input.content)) := by
  unfold doReducef
  rw [mem_reduceLoop_iff hOrder sort
    (readBucket_perm hMapped hAll hNames hBucket)]
  have hValues : ihash key % nReduce = r →
      Grouping.valuesOf KeyValue.key KeyValue.value key
          (bucket nReduce r (inputs.flatMap fun input =>
            mapf input.path input.content)) =
        Grouping.valuesOf KeyValue.key KeyValue.value key
          (inputs.flatMap fun input =>
            mapf input.path input.content) := by
    intro hHash
    unfold Grouping.valuesOf bucket
    rw [List.filter_filter]
    congr 1
    apply List.filter_congr
    intro kv _
    by_cases hKey : kv.key = key
    · simp [hKey, hHash]
    · simp [hKey]
  simp only [bucket, List.mem_filter, List.mem_flatMap,
    decide_eq_true_eq] at *
  constructor
  · rintro ⟨⟨kv, ⟨⟨input, hInput, hKv⟩, hHash⟩, hKey⟩,
      hOutput⟩
    rw [hKey] at hHash
    rw [hValues hHash] at hOutput
    exact ⟨hHash, ⟨input, hInput, kv, hKv, hKey⟩, hOutput⟩
  · rintro ⟨hHash, ⟨input, hInput, kv, hKv, hKey⟩, hOutput⟩
    rw [hValues hHash]
    rw [← hKey] at hHash
    exact ⟨⟨kv, ⟨⟨input, hInput, hKv⟩, hHash⟩, hKey⟩,
      hOutput⟩

/- A key is reduced in its own bucket only. -/
theorem nodup_reducePhase
    (hOrder : OrderFree reducef)
    (sort : KeySort)
    (hMapped :
      Mapped mapf sortMap nReduce inputs done files)
    (hAll : ∀ task, task < inputs.length → task ∈ done)
    {names : Nat → List FileName}
    (hNames : ∀ r, r < nReduce → Listing files (names r)) :
    ((reducePhase reducef sort nReduce files names).map
      Prod.fst).Nodup := by
  unfold reducePhase
  rw [List.map_flatMap, List.nodup_flatMap]
  constructor
  · intro r _
    exact nodup_reduceLoop reducef sort _
  · apply List.Pairwise.imp_of_mem _ List.nodup_range
    intro r r' hMem hMem' hNe key hKey hKey'
    rcases List.mem_map.mp hKey with
      ⟨⟨k, output⟩, hResult, hEq⟩
    rcases List.mem_map.mp hKey' with
      ⟨⟨k', output'⟩, hResult', hEq'⟩
    have hBound := List.mem_range.mp hMem
    have hBound' := List.mem_range.mp hMem'
    have hHash := ((mem_doReducef_iff hOrder sort hMapped
      hAll (hNames r hBound) hBound).mp hResult).1
    have hHash' := ((mem_doReducef_iff hOrder sort hMapped
      hAll (hNames r' hBound') hBound').mp hResult').1
    have hSame : k = k' := hEq.trans hEq'.symm
    rw [hSame] at hHash
    exact hNe (hHash.symm.trans hHash')

/-
  Mapping every file once and then reducing every bucket
  gives, up to order, the output of the sequential program,
  and reduces every key exactly once.
-/
theorem distributed_eq_sequential
    (hOrder : OrderFree reducef)
    (hReduce : 0 < nReduce)
    (sortReduce sortSequential : KeySort)
    (hMapped :
      Mapped mapf sortMap nReduce inputs done files)
    (hAll : ∀ task, task < inputs.length → task ∈ done)
    {names : Nat → List FileName}
    (hNames : ∀ r, r < nReduce → Listing files (names r)) :
    ((reducePhase reducef sortReduce nReduce files names).map
        line).Perm
      ((mrsequential mapf reducef sortSequential inputs).map
        line) ∧
    ((reducePhase reducef sortReduce nReduce files names).map
        Prod.fst).Nodup ∧
    ∀ key,
      key ∈ (reducePhase reducef sortReduce nReduce files
          names).map Prod.fst ↔
        ∃ input ∈ inputs,
          ∃ kv ∈ mapf input.path input.content,
            kv.key = key := by
  have hNodup := nodup_reducePhase hOrder sortReduce hMapped
    hAll hNames
  -- A key belongs to the bucket of its hash.
  have hMem : ∀ key output,
      (key, output) ∈ reducePhase reducef sortReduce nReduce
          files names ↔
        (∃ input ∈ inputs,
          ∃ kv ∈ mapf input.path input.content,
            kv.key = key) ∧
        output = reducef key
          (Grouping.valuesOf KeyValue.key KeyValue.value key
            (inputs.flatMap fun input =>
              mapf input.path input.content)) := by
    intro key output
    unfold reducePhase
    rw [List.mem_flatMap]
    constructor
    · rintro ⟨r, hRange, hResult⟩
      have hBound := List.mem_range.mp hRange
      exact ((mem_doReducef_iff hOrder sortReduce hMapped
        hAll (hNames r hBound) hBound).mp hResult).2
    · intro hResult
      have hBound : ihash key % nReduce < nReduce :=
        Nat.mod_lt _ hReduce
      exact ⟨_, List.mem_range.mpr hBound,
        (mem_doReducef_iff hOrder sortReduce hMapped hAll
          (hNames _ hBound) hBound).mpr ⟨rfl, hResult⟩⟩
  refine ⟨List.Perm.map line ?_, hNodup, ?_⟩
  · rw [mrsequential,
      List.perm_ext_iff_of_nodup (hNodup.of_map _)
        ((nodup_reduceLoop reducef sortSequential _).of_map
          _)]
    rintro ⟨key, output⟩
    rw [hMem, mem_reduceLoop_iff hOrder sortSequential
      (List.Perm.refl _)]
    simp only [List.mem_flatMap]
    constructor
    · rintro ⟨⟨input, hInput, kv, hKv, hKey⟩, hOutput⟩
      exact ⟨⟨kv, ⟨input, hInput, hKv⟩, hKey⟩, hOutput⟩
    · rintro ⟨⟨kv, ⟨input, hInput, hKv⟩, hKey⟩, hOutput⟩
      exact ⟨⟨input, hInput, kv, hKv, hKey⟩, hOutput⟩
  · intro key
    rw [List.mem_map]
    constructor
    · rintro ⟨⟨k, output⟩, hResult, hKey⟩
      cases hKey
      exact ((hMem k output).mp hResult).1
    · intro hInput
      exact ⟨(key, _), (hMem key _).mpr ⟨hInput, rfl⟩, rfl⟩

end Reducing

/- Merge sort is one such sort. -/
def mergeByKey : KeySort where
  sort kvs :=
    kvs.mergeSort fun a b => decide (a.key ≤ b.key)
  perm kvs := List.mergeSort_perm kvs _
  sorted kvs := by
    have hTrans : ∀ a b c : KeyValue,
        decide (a.key ≤ b.key) = true →
        decide (b.key ≤ c.key) = true →
        decide (a.key ≤ c.key) = true := by
      simpa using fun a b c : KeyValue =>
        @le_trans String _ a.key b.key c.key
    have hTotal : ∀ a b : KeyValue,
        (decide (a.key ≤ b.key) ||
          decide (b.key ≤ a.key)) = true := by
      simpa using fun a b : KeyValue =>
        le_total a.key b.key
    apply (List.pairwise_mergeSort hTrans hTotal kvs).imp
    intro a b hLe
    exact of_decide_eq_true hLe

private def countLetters (_path content : String) :
    List KeyValue :=
  content.toList.map fun letter =>
    { key := letter.toString, value := "1" }

private def countValues (_key : String)
    (values : List String) : String :=
  toString values.length

private def twoFiles : List Input :=
  [⟨"f", "ab"⟩, ⟨"g", "bc"⟩]

/-
  Worker 7 maps the second file and worker 8 the first one.
  The letters belong to both buckets, and one of them is in
  both files.
-/
theorem distributed_eq_sequential_two_files :
    ∃ files names,
      Mapped countLetters mergeByKey 2 twoFiles [0, 1] files ∧
      ihash "a" % 2 ≠ ihash "b" % 2 ∧
      ((reducePhase countValues mergeByKey 2 files
          names).map line).Perm
        ((mrsequential countLetters countValues mergeByKey
          twoFiles).map line) := by
  have hOrder : OrderFree countValues := by
    intro key values values' hPerm
    unfold countValues
    rw [hPerm.length_eq]
  have hFirst : Listing
      (writeTmp 7 1 2
        (mapOutput countLetters mergeByKey ⟨"g", "bc"⟩)
        fun _ => none)
      [.tmp 7 1 1, .tmp 7 1 0] := by
    refine ⟨by decide, ?_⟩
    intro name
    cases name with
    | final task i => simp [writeTmp_final]
    | tmp worker task i =>
        rw [writeTmp_tmp]
        simp
        omega
  have hOne := Mapped.task Mapped.start List.not_mem_nil
    (show twoFiles[1]? = some _ from rfl) hFirst
  have hSecond : Listing
      (writeTmp 8 0 2
        (mapOutput countLetters mergeByKey ⟨"f", "ab"⟩)
        (doMapf countLetters mergeByKey 2 7 1 ⟨"g", "bc"⟩
          [.tmp 7 1 1, .tmp 7 1 0] fun _ => none))
      [.tmp 8 0 0, .final 1 0, .tmp 8 0 1, .final 1 1] := by
    refine ⟨by decide, ?_⟩
    intro name
    cases name with
    | final task i =>
        rw [writeTmp_final, hOne.final_ne_none_iff]
        simp
        omega
    | tmp worker task i =>
        rw [writeTmp_tmp, hOne.tmp]
        simp
        omega
  have hBoth := Mapped.task hOne (by decide)
    (show twoFiles[0]? = some _ from rfl) hSecond
  have hAll : ∀ task, task < twoFiles.length →
      task ∈ [0, 1] := by
    intro task hTask
    have hTwo : task < 2 := hTask
    rw [List.mem_cons, List.mem_singleton]
    omega
  have hListing : ∀ {files},
      Mapped countLetters mergeByKey 2 twoFiles [0, 1]
        files →
      Listing files [.final 0 0, .final 0 1, .final 1 0,
        .final 1 1] := by
    intro files hMapped
    refine ⟨by decide, ?_⟩
    intro name
    cases name with
    | tmp worker task i =>
        rw [hMapped.tmp]
        simp
    | final task i =>
        rw [hMapped.final_ne_none_iff]
        simp
        omega
  exact ⟨_, _, hBoth, by decide +kernel,
    (distributed_eq_sequential hOrder (by decide) mergeByKey
      mergeByKey hBoth hAll
      (fun _ _ => hListing hBoth)).1⟩

end Mr

end RaftLab
