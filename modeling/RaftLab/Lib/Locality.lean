import Mathlib.Data.List.Dedup
import Mathlib.Data.List.Flatten
import Mathlib.Data.List.Perm.Basic
import Mathlib.Order.MinMax

/-
  Schedules of timed calls on a family of objects.

  A schedule puts all calls in one order that respects which
  call must come before which and that a sequential object
  accepts. Each call has the time of its invocation, the
  time of its response and a key. A call comes before
  another if it has returned when the other is made. If the
  calls of each key can be scheduled on an object of their
  own, then all calls can be scheduled on the family of
  these objects, and the other way round.

  The schedules of the keys are merged by stamps: the stamp
  of a call is the latest invocation in its schedule so far,
  which lies between the invocation and the response.

  Main declarations:
    * `Schedule`, `Schedulable`
    * `TimedCalls`, `TimedCalls.before`
    * `TimedCalls.stepAt`: the family as one object
    * `TimedCalls.stamped`
    * `TimedCalls.schedulable_iff_forall_key`
-/

------------------------------------------------------------
-- Timed Calls
------------------------------------------------------------

/- All calls in an order, each accepted by the object. -/
structure Schedule
    {α σ : Type}
    (before : α → α → Prop)
    (step : σ → α → Option σ)
    (init : σ)
    (calls order : List α) : Prop where
  perm : order.Perm calls
  realTime : order.Pairwise fun a b => ¬ before b a
  legal : (order.foldlM step init).isSome = true

def Schedulable
    {α σ : Type}
    (before : α → α → Prop)
    (step : σ → α → Option σ)
    (init : σ)
    (calls : List α) : Prop :=
  ∃ order, Schedule before step init calls order

/- How to read time and key off a call. -/
structure TimedCalls (α κ T : Type) where
  call : α → T
  ret : α → T
  key : α → κ

namespace TimedCalls

variable {α κ T σ : Type}
variable [LinearOrder T]

def before
    (h : TimedCalls α κ T)
    (a b : α) : Prop :=
  h.ret a < h.call b

section Family

variable [DecidableEq κ]

/- A call on the object of its key. -/
def stepAt
    (h : TimedCalls α κ T)
    (step : σ → α → Option σ)
    (states : κ → σ)
    (a : α) : Option (κ → σ) :=
  (step (states (h.key a)) a).map
    (Function.update states (h.key a))

/- The calls of one key. -/
def ofKey
    (h : TimedCalls α κ T)
    (k : κ)
    (calls : List α) : List α :=
  calls.filter fun a => decide (h.key a = k)

variable {h : TimedCalls α κ T}
variable {step : σ → α → Option σ}

/- The family accepts what each of its objects accepts. -/
omit [LinearOrder T] in
theorem foldlM_stepAt_isSome_iff
    (order : List α)
    (states : κ → σ) :
    (order.foldlM (h.stepAt step) states).isSome = true ↔
      ∀ k, ((h.ofKey k order).foldlM step
        (states k)).isSome = true := by
  induction order generalizing states with
  | nil => simp [ofKey]
  | cons a order ih =>
      simp only [List.foldlM_cons, stepAt]
      cases hStep : step (states (h.key a)) a with
      | none =>
          constructor
          · intro hSome
            simp at hSome
          · intro hAll
            simpa [ofKey, hStep] using hAll (h.key a)
      | some s =>
          have hRest := ih (Function.update states (h.key a) s)
          refine hRest.trans (forall_congr' fun k => ?_)
          by_cases hKey : h.key a = k
          · subst hKey
            simp [ofKey, hStep]
          · simp [ofKey, hKey, Function.update_of_ne
              (Ne.symm hKey)]

end Family

------------------------------------------------------------
-- Stamps
------------------------------------------------------------

/-
  Each call with the latest invocation among it and those
  scheduled before it.
-/
def stamped (h : TimedCalls α κ T) : List α → List (T × α)
| [] => []
| a :: as =>
    (h.call a, a) ::
      (stamped h as).map fun x => (max (h.call a) x.1, x.2)

variable {h : TimedCalls α κ T}

theorem map_snd_stamped
    (order : List α) :
    (h.stamped order).map Prod.snd = order := by
  induction order with
  | nil => rfl
  | cons a order ih =>
      have hRest :
          (Prod.snd ∘ fun x : T × α =>
            (max (h.call a) x.1, x.2)) = Prod.snd := rfl
      simp [stamped, hRest, ih]

theorem pairwise_stamped
    (order : List α) :
    (h.stamped order).Pairwise fun x y => x.1 ≤ y.1 := by
  induction order with
  | nil => exact List.Pairwise.nil
  | cons a order ih =>
      refine List.pairwise_cons.mpr ⟨?_, ?_⟩
      · intro x hMem
        rcases List.mem_map.mp hMem with ⟨y, _, rfl⟩
        exact le_max_left _ _
      · refine List.pairwise_map.mpr (ih.imp ?_)
        intro x y hLe
        exact max_le_max (le_refl _) hLe

theorem call_le_stamp
    {order : List α}
    {x : T × α}
    (hMem : x ∈ h.stamped order) :
    h.call x.2 ≤ x.1 := by
  induction order generalizing x with
  | nil => cases hMem
  | cons a order ih =>
      rcases List.mem_cons.mp hMem with rfl | hMem
      · exact le_refl _
      · rcases List.mem_map.mp hMem with ⟨y, hY, rfl⟩
        have hLe : h.call y.2 ≤ y.1 := ih hY
        exact le_trans hLe (le_max_right _ _)

theorem stamp_le_ret
    {order : List α}
    (hSpan : ∀ a ∈ order, h.call a ≤ h.ret a)
    (hTime : order.Pairwise fun a b => ¬ h.before b a)
    {x : T × α}
    (hMem : x ∈ h.stamped order) :
    x.1 ≤ h.ret x.2 := by
  induction order generalizing x with
  | nil => cases hMem
  | cons a order ih =>
      rcases List.pairwise_cons.mp hTime with
        ⟨hHead, hTail⟩
      rcases List.mem_cons.mp hMem with rfl | hMem
      · exact hSpan a List.mem_cons_self
      · rcases List.mem_map.mp hMem with ⟨y, hY, rfl⟩
        have hIn : y.2 ∈ order := by
          rw [← map_snd_stamped (h := h) order]
          exact List.mem_map_of_mem hY
        refine max_le ?_ ?_
        · exact le_of_not_gt (hHead y.2 hIn)
        · exact ih (fun b hB =>
            hSpan b (List.mem_cons_of_mem _ hB)) hTail hY

------------------------------------------------------------
-- Merging Schedules
------------------------------------------------------------

variable [DecidableEq κ]

/- All calls of the schedules `orders k`, by stamp. -/
def merged
    (h : TimedCalls α κ T)
    (keys : List κ)
    (orders : κ → List α) : List (T × α) :=
  (keys.flatMap fun k => h.stamped (orders k)).mergeSort
    fun x y => decide (x.1 ≤ y.1)

variable {keys : List κ}
variable {orders : κ → List α}

omit [DecidableEq κ] in
theorem merged_perm :
    (h.merged keys orders).Perm
      (keys.flatMap fun k => h.stamped (orders k)) :=
  List.mergeSort_perm _ _

omit [DecidableEq κ] in
theorem map_snd_merged_perm :
    ((h.merged keys orders).map Prod.snd).Perm
      (keys.flatMap orders) := by
  have hPerm : ((h.merged keys orders).map Prod.snd).Perm
      ((keys.flatMap fun k => h.stamped (orders k)).map
        Prod.snd) :=
    merged_perm.map Prod.snd
  simpa [List.map_flatMap, map_snd_stamped] using hPerm

omit [DecidableEq κ] in
theorem pairwise_merged :
    (h.merged keys orders).Pairwise
      fun x y => x.1 ≤ y.1 := by
  refine (List.pairwise_mergeSort ?_ ?_ _).imp ?_
  · intro x y z hXY hYZ
    simp only [decide_eq_true_eq] at hXY hYZ ⊢
    exact le_trans hXY hYZ
  · intro x y
    simpa using le_total x.1 y.1
  · intro x y hLe
    simpa using hLe

omit [LinearOrder T] in
theorem ofKey_eq_self
    {k : κ}
    {order : List α}
    (hKeys : ∀ a ∈ order, h.key a = k) :
    h.ofKey k order = order := by
  unfold ofKey
  rw [List.filter_eq_self]
  intro a hMem
  simpa using hKeys a hMem

omit [LinearOrder T] in
theorem ofKey_eq_nil
    {k : κ}
    {order : List α}
    (hKeys : ∀ a ∈ order, h.key a ≠ k) :
    h.ofKey k order = [] := by
  unfold ofKey
  rw [List.filter_eq_nil_iff]
  intro a hMem
  simpa using hKeys a hMem

omit [LinearOrder T] in
theorem ofKey_append
    (k : κ)
    (as bs : List α) :
    h.ofKey k (as ++ bs) = h.ofKey k as ++ h.ofKey k bs :=
  List.filter_append ..

omit [LinearOrder T] in
theorem ofKey_flatMap
    (hNodup : keys.Nodup)
    (hKeys : ∀ k, ∀ a ∈ orders k, h.key a = k)
    {k : κ}
    (hMem : k ∈ keys) :
    h.ofKey k (keys.flatMap orders) = orders k := by
  induction keys with
  | nil => cases hMem
  | cons k' keys ih =>
      rcases List.nodup_cons.mp hNodup with ⟨hNew, hNodup⟩
      rw [List.flatMap_cons, ofKey_append]
      by_cases hEq : k' = k
      · subst hEq
        have hRest :
            h.ofKey k' (keys.flatMap orders) = [] := by
          apply ofKey_eq_nil
          intro a hA hKey
          rcases List.mem_flatMap.mp hA with ⟨k, hK, hA⟩
          have hSame : k' = k := hKey.symm.trans (hKeys k a hA)
          exact hNew (hSame ▸ hK)
        rw [ofKey_eq_self (hKeys k'), hRest, List.append_nil]
      · have hHead : h.ofKey k (orders k') = [] := by
          apply ofKey_eq_nil
          intro a hA hKey
          exact hEq ((hKeys k' a hA).symm.trans hKey)
        have hIn : k ∈ keys := by
          simpa [Ne.symm hEq] using hMem
        rw [hHead, ih hNodup hIn, List.nil_append]

/- Sorting the calls by key loses none. -/
omit [LinearOrder T] in
theorem flatMap_ofKey_perm
    (hNodup : keys.Nodup)
    {calls : List α}
    (hKeys : ∀ a ∈ calls, h.key a ∈ keys) :
    (keys.flatMap fun k => h.ofKey k calls).Perm calls := by
  induction calls with
  | nil => simp [ofKey]
  | cons a calls ih =>
      have hRest := ih fun b hB =>
        hKeys b (List.mem_cons_of_mem _ hB)
      refine List.Perm.trans ?_ (hRest.cons a)
      rcases List.append_of_mem (hKeys a List.mem_cons_self)
        with ⟨ks, ks', rfl⟩
      have hOther : ∀ k, k ≠ h.key a →
          h.ofKey k (a :: calls) = h.ofKey k calls := by
        intro k hNe
        simp [ofKey, Ne.symm hNe]
      have hOwn : h.ofKey (h.key a) (a :: calls) =
          a :: h.ofKey (h.key a) calls := by
        simp [ofKey]
      have hApart := List.nodup_append.mp hNodup
      have hBefore : ∀ k ∈ ks, k ≠ h.key a := by
        intro k hK
        exact hApart.2.2 k hK _ List.mem_cons_self
      have hAfter : ∀ k ∈ ks', k ≠ h.key a := by
        rintro k hK rfl
        exact (List.nodup_cons.mp hApart.2.1).1 hK
      have hSide : ∀ l : List κ, (∀ k ∈ l, k ≠ h.key a) →
          (l.flatMap fun k => h.ofKey k (a :: calls)) =
            l.flatMap fun k => h.ofKey k calls := by
        intro l hNe
        exact List.flatMap_congr fun k hK =>
          hOther k (hNe k hK)
      simp only [List.flatMap_append, List.flatMap_cons]
      rw [hSide ks hBefore, hSide ks' hAfter, hOwn]
      exact List.perm_middle

/- The merge keeps the order within each key. -/
theorem ofKey_merged
    (hNodup : keys.Nodup)
    (hKeys : ∀ k, ∀ a ∈ orders k, h.key a = k)
    {k : κ}
    (hMem : k ∈ keys) :
    h.ofKey k ((h.merged keys orders).map Prod.snd) =
      orders k := by
  have hStamps : (h.stamped (orders k)).Sublist
      (h.merged keys orders) := by
    refine List.sublist_mergeSort ?_ ?_ ?_ ?_
    · intro x y z hXY hYZ
      simp only [decide_eq_true_eq] at hXY hYZ ⊢
      exact le_trans hXY hYZ
    · intro x y
      simpa using le_total x.1 y.1
    · apply (pairwise_stamped (orders k)).imp
      intro x y hLe
      simpa using hLe
    · have hSingle := (List.singleton_sublist.mpr hMem).flatMap
        fun k => h.stamped (orders k)
      simpa using hSingle
  have hSub : (h.ofKey k (orders k)).Sublist
      (h.ofKey k ((h.merged keys orders).map Prod.snd)) := by
    have hCalls := hStamps.map Prod.snd
    rw [map_snd_stamped] at hCalls
    exact hCalls.filter _
  rw [ofKey_eq_self (hKeys k)] at hSub
  refine (hSub.eq_of_length ?_).symm
  -- the other keys contribute nothing
  have hPerm :
      (h.ofKey k ((h.merged keys orders).map Prod.snd)).Perm
        (h.ofKey k (keys.flatMap orders)) :=
    map_snd_merged_perm.filter _
  rw [ofKey_flatMap hNodup hKeys hMem] at hPerm
  exact hPerm.length_eq.symm

------------------------------------------------------------
-- Locality
------------------------------------------------------------

variable {step : σ → α → Option σ}
variable {init : σ}
variable {calls : List α}

/- A schedule of all calls has one for each key in it. -/
theorem schedulable_ofKey
    (hCalls : Schedulable h.before (h.stepAt step)
      (fun _ => init) calls)
    (k : κ) :
    Schedulable h.before step init (h.ofKey k calls) := by
  rcases hCalls with ⟨order, hPerm, hTime, hLegal⟩
  exact ⟨h.ofKey k order, hPerm.filter _, hTime.filter _,
    (foldlM_stepAt_isSome_iff order _).mp hLegal k⟩

/- Schedules of the keys merge into one of all calls. -/
theorem schedulable_of_forall_key
    (hSpan : ∀ a ∈ calls, h.call a ≤ h.ret a)
    (hCalls : ∀ k,
      Schedulable h.before step init (h.ofKey k calls)) :
    Schedulable h.before (h.stepAt step) (fun _ => init)
      calls := by
  choose orders hOrders using hCalls
  have hIn : ∀ k, ∀ a ∈ orders k,
      a ∈ calls ∧ h.key a = k := by
    intro k a hA
    have hMem := (hOrders k).perm.mem_iff.mp hA
    simpa [ofKey] using hMem
  let keys := (calls.map h.key).dedup
  have hNodup : keys.Nodup := List.nodup_dedup _
  have hAll : ∀ a ∈ calls, h.key a ∈ keys := by
    intro a hA
    exact List.mem_dedup.mpr (List.mem_map_of_mem hA)
  have hStamp : ∀ x ∈ h.merged keys orders,
      h.call x.2 ≤ x.1 ∧ x.1 ≤ h.ret x.2 := by
    intro x hX
    rcases List.mem_flatMap.mp (merged_perm.mem_iff.mp hX)
      with ⟨k, _, hX⟩
    refine ⟨call_le_stamp hX,
      stamp_le_ret ?_ (hOrders k).realTime hX⟩
    intro a hA
    exact hSpan a (hIn k a hA).1
  refine ⟨(h.merged keys orders).map Prod.snd, ?_, ?_, ?_⟩
  · refine map_snd_merged_perm.trans ?_
    refine (List.Perm.flatMap_left keys fun k _ =>
      (hOrders k).perm).trans ?_
    exact flatMap_ofKey_perm hNodup hAll
  · refine List.pairwise_map.mpr
      (pairwise_merged.imp_of_mem ?_)
    intro x y hX hY hLe hBefore
    have hFirst := (hStamp x hX).1
    have hLast := (hStamp y hY).2
    exact absurd (lt_of_le_of_lt (le_trans hLe hLast) hBefore)
      (not_lt_of_ge hFirst)
  · refine (foldlM_stepAt_isSome_iff _ _).mpr fun k => ?_
    by_cases hKey : k ∈ keys
    · rw [ofKey_merged hNodup (fun k a hA => (hIn k a hA).2)
        hKey]
      exact (hOrders k).legal
    · have hNone :
          h.ofKey k ((h.merged keys orders).map Prod.snd) =
            [] := by
        apply ofKey_eq_nil
        rintro a hA rfl
        rcases List.mem_flatMap.mp
          (map_snd_merged_perm.mem_iff.mp hA) with
          ⟨k, hK, hA⟩
        exact hKey ((hIn k a hA).2 ▸ hK)
      simp [hNone]

theorem schedulable_iff_forall_key
    (hSpan : ∀ a ∈ calls, h.call a ≤ h.ret a) :
    Schedulable h.before (h.stepAt step) (fun _ => init)
        calls ↔
      ∀ k, Schedulable h.before step init
        (h.ofKey k calls) :=
  ⟨schedulable_ofKey, schedulable_of_forall_key hSpan⟩

end TimedCalls
