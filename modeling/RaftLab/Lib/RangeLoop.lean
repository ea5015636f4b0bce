import Mathlib.Data.Set.Finite.Basic
import Mathlib.Data.Finset.Dedup
import Mathlib.Logic.Function.Basic

/-
  Range loops over maps.

  A range loop visits every key of a map once, in an order
  that is not specified. A loop whose body only writes at the
  key it visits has the same result in every order.

  Main declarations:
    * `RangeOrder`, `RangeOrder.exists_of_finite`
    * `rangeLoop`, `rangeLoop_apply`
-/

------------------------------------------------------------
-- Orders
------------------------------------------------------------

section RangeLoop

variable {K V : Type}

/- An order in which a range loop may visit some keys. -/
structure RangeOrder
    (keys : K → Prop)
    (order : List K) : Prop where
  nodup : order.Nodup
  mem_iff : ∀ k, k ∈ order ↔ keys k

theorem RangeOrder.exists_of_finite
    {keys : K → Prop}
    (hFinite : {k | keys k}.Finite) :
    ∃ order, RangeOrder keys order := by
  refine ⟨hFinite.toFinset.toList, ?_, ?_⟩
  · exact hFinite.toFinset.nodup_toList
  · intro k
    simp

------------------------------------------------------------
-- Loops
------------------------------------------------------------

variable [DecidableEq K]

/- Rewrite a map at each key of `order`, one after another. -/
def rangeLoop
    (body : K → V → V)
    (order : List K)
    (f : K → V) : K → V :=
  order.foldl
    (fun f k => Function.update f k (body k (f k))) f

/- The order does not show in the result. -/
theorem rangeLoop_apply
    {order : List K}
    (hNodup : order.Nodup)
    (body : K → V → V)
    (f : K → V)
    (k : K) :
    rangeLoop body order f k =
      if k ∈ order then body k (f k) else f k := by
  induction order generalizing f with
  | nil => simp [rangeLoop]
  | cons x order ih =>
      rcases List.nodup_cons.mp hNodup with ⟨hFresh, hRest⟩
      change rangeLoop body order
        (Function.update f x (body x (f x))) k = _
      rw [ih hRest]
      by_cases hEq : k = x
      · subst hEq
        simp [hFresh]
      · simp [hEq]

theorem RangeOrder.loop_apply
    {keys : K → Prop}
    {order : List K}
    (hOrder : RangeOrder keys order)
    [DecidablePred keys]
    (body : K → V → V)
    (f : K → V)
    (k : K) :
    rangeLoop body order f k =
      if keys k then body k (f k) else f k := by
  rw [rangeLoop_apply hOrder.nodup]
  by_cases hKey : keys k
  · rw [if_pos hKey, if_pos ((hOrder.mem_iff k).mpr hKey)]
  · rw [if_neg hKey]
    apply if_neg
    intro hMem
    exact hKey ((hOrder.mem_iff k).mp hMem)

end RangeLoop
