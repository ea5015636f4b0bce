import Mathlib.Data.List.Nodup
import Mathlib.Order.Lattice

/-
  Grouping the records of a sorted list by their keys.

  The loop reads the list from left to right. It takes the
  first record, then the records after it as long as they
  have the same key, and goes on behind them. On a list that
  is sorted by key, every key comes out once, with the values
  of all its records.

  Main declarations:
    * `Grouping.groups`, `Grouping.valuesOf`
    * `Grouping.mem_groups_iff`, `Grouping.nodup_groups`
    * `Grouping.valuesOf_perm`
-/

------------------------------------------------------------
-- The Loop
------------------------------------------------------------

namespace Grouping

variable {α K V : Type} [LinearOrder K]
variable (key : α → K) (value : α → V)

/-
  The values of the leading records with the key, and what is
  left of the list.
-/
def takeRun (k : K) : List α → List V × List α
| [] => ([], [])
| a :: l =>
    if key a = k then
      (value a :: (takeRun k l).1, (takeRun k l).2)
    else
      ([], a :: l)

/- One group for each round; the list gets shorter. -/
def groupLoop : Nat → List α → List (K × List V)
| _, [] => []
| 0, _ => []
| fuel + 1, a :: l =>
    let run := takeRun key value (key a) l
    (key a, value a :: run.1) :: groupLoop fuel run.2

def groups (l : List α) : List (K × List V) :=
  groupLoop key value l.length l

/- All values of a key, in the order of the list. -/
def valuesOf (k : K) (l : List α) : List V :=
  (l.filter fun a => key a = k).map value

/- Sorted by key; records with equal keys in any order. -/
def SortedBy (l : List α) : Prop :=
  l.Pairwise fun a b => key a ≤ key b

------------------------------------------------------------
-- One Run Of A Sorted List
------------------------------------------------------------

variable {key value}

theorem valuesOf_perm
    {k : K}
    {l l' : List α}
    (hPerm : l.Perm l') :
    (valuesOf key value k l).Perm
      (valuesOf key value k l') :=
  (hPerm.filter _).map value

/- In a sorted list, a run has all records of its key. -/
theorem takeRun_eq
    {k : K}
    {l : List α}
    (hSorted : SortedBy key l)
    (hLeast : ∀ a ∈ l, k ≤ key a) :
    takeRun key value k l =
      (valuesOf key value k l,
        l.filter fun a => key a ≠ k) := by
  induction l with
  | nil => rfl
  | cons a l ih =>
      rcases List.pairwise_cons.mp hSorted with
        ⟨hFirst, hRest⟩
      unfold takeRun
      by_cases hKey : key a = k
      · rw [if_pos hKey, ih hRest fun b hMem =>
          hLeast b (List.mem_cons_of_mem a hMem)]
        simp [valuesOf, hKey]
      · rw [if_neg hKey]
        -- The keys only grow, so none after `a` is `k`.
        have hAbove : ∀ b ∈ a :: l, key b ≠ k := by
          intro b hMem hEq
          have hHead : k ≤ key a :=
            hLeast a List.mem_cons_self
          rcases List.mem_cons.mp hMem with hHere | hLater
          · rw [hHere] at hEq
            exact hKey hEq
          · have hOrder := hFirst b hLater
            rw [hEq] at hOrder
            exact hKey (le_antisymm hOrder hHead)
        have hNone :
            ((a :: l).filter fun b => key b = k) = [] := by
          rw [List.filter_eq_nil_iff]
          intro b hMem
          rw [decide_eq_true_eq]
          exact hAbove b hMem
        have hAll :
            ((a :: l).filter fun b => key b ≠ k) =
              a :: l := by
          rw [List.filter_eq_self]
          intro b hMem
          rw [decide_eq_true_eq]
          exact hAbove b hMem
        rw [valuesOf, hNone, hAll]
        rfl

/- Taking out one key leaves the values of the others. -/
theorem valuesOf_filter_ne
    {k k' : K}
    {l : List α}
    (hKey : k ≠ k') :
    valuesOf key value k
        (l.filter fun a => key a ≠ k') =
      valuesOf key value k l := by
  unfold valuesOf
  rw [List.filter_filter]
  congr 1
  apply List.filter_congr
  intro a _
  by_cases hEq : key a = k
  · simp [hEq, hKey]
  · simp [hEq]

------------------------------------------------------------
-- All Groups Of A Sorted List
------------------------------------------------------------

/- What a round leaves is sorted, and shorter. -/
theorem SortedBy.rest
    {fuel : Nat}
    {a : α}
    {l : List α}
    (hSorted : SortedBy key (a :: l))
    (hFuel : (a :: l).length ≤ fuel + 1) :
    SortedBy key (l.filter fun b => key b ≠ key a) ∧
      (l.filter fun b => key b ≠ key a).length ≤ fuel := by
  constructor
  · exact List.Pairwise.filter _
      (List.pairwise_cons.mp hSorted).2
  · have hBound := List.length_filter_le
      (fun b => decide (key b ≠ key a)) l
    rw [List.length_cons] at hFuel
    omega

/- One round on a sorted list. -/
theorem groupLoop_cons
    {fuel : Nat}
    {a : α}
    {l : List α}
    (hSorted : SortedBy key (a :: l)) :
    groupLoop key value (fuel + 1) (a :: l) =
      (key a, valuesOf key value (key a) (a :: l)) ::
        groupLoop key value fuel
          (l.filter fun b => key b ≠ key a) := by
  rcases List.pairwise_cons.mp hSorted with
    ⟨hFirst, hRest⟩
  rw [groupLoop, takeRun_eq hRest hFirst]
  simp [valuesOf]

theorem mem_groupLoop_iff
    {fuel : Nat}
    {l : List α}
    (hFuel : l.length ≤ fuel)
    (hSorted : SortedBy key l)
    {k : K}
    {vs : List V} :
    (k, vs) ∈ groupLoop key value fuel l ↔
      (∃ a ∈ l, key a = k) ∧
        vs = valuesOf key value k l := by
  induction fuel generalizing l with
  | zero =>
      cases l with
      | nil => simp [groupLoop]
      | cons a l =>
          rw [List.length_cons] at hFuel
          omega
  | succ fuel ih =>
      cases l with
      | nil => simp [groupLoop]
      | cons a l =>
          rcases hSorted.rest hFuel with ⟨hRest, hLength⟩
          rw [groupLoop_cons hSorted, List.mem_cons,
            ih hLength hRest, Prod.mk.injEq]
          by_cases hKey : k = key a
          · rw [hKey]
            constructor
            · rintro (⟨_, hVals⟩ | ⟨⟨b, hMem, hEq⟩, _⟩)
              · exact ⟨⟨a, List.mem_cons_self, rfl⟩, hVals⟩
              · rw [List.mem_filter, decide_eq_true_eq]
                  at hMem
                exact absurd hEq hMem.2
            · rintro ⟨_, hVals⟩
              exact Or.inl ⟨rfl, hVals⟩
          · have hHead : valuesOf key value k (a :: l) =
                valuesOf key value k l := by
              simp [valuesOf, Ne.symm hKey]
            rw [valuesOf_filter_ne hKey, hHead]
            constructor
            · rintro (⟨hEq, _⟩ | ⟨⟨b, hMem, hEq⟩, hVals⟩)
              · exact absurd hEq hKey
              · exact ⟨⟨b, List.mem_cons_of_mem a
                  (List.mem_filter.mp hMem).1, hEq⟩, hVals⟩
            · rintro ⟨⟨b, hMem, hEq⟩, hVals⟩
              right
              rcases List.mem_cons.mp hMem with hHere | hLater
              · rw [hHere] at hEq
                exact absurd hEq.symm hKey
              · refine ⟨⟨b, ?_, hEq⟩, hVals⟩
                rw [List.mem_filter, decide_eq_true_eq, hEq]
                exact ⟨hLater, hKey⟩

theorem nodup_groupLoop
    {fuel : Nat}
    {l : List α}
    (hFuel : l.length ≤ fuel)
    (hSorted : SortedBy key l) :
    ((groupLoop key value fuel l).map Prod.fst).Nodup := by
  induction fuel generalizing l with
  | zero =>
      cases l with
      | nil => exact List.nodup_nil
      | cons a l =>
          rw [List.length_cons] at hFuel
          omega
  | succ fuel ih =>
      cases l with
      | nil => exact List.nodup_nil
      | cons a l =>
          rcases hSorted.rest hFuel with ⟨hRest, hLength⟩
          rw [groupLoop_cons hSorted, List.map_cons,
            List.nodup_cons]
          refine ⟨?_, ih hLength hRest⟩
          intro hMem
          rcases List.mem_map.mp hMem with
            ⟨⟨k, vs⟩, hGroup, hKey⟩
          rcases ((mem_groupLoop_iff hLength hRest).mp
            hGroup).1 with ⟨b, hB, hEq⟩
          rw [List.mem_filter, decide_eq_true_eq] at hB
          exact hB.2 (hEq.trans hKey)

/- Every key of a sorted list has one group, with all its values. -/
theorem mem_groups_iff
    {l : List α}
    (hSorted : SortedBy key l)
    {k : K}
    {vs : List V} :
    (k, vs) ∈ groups key value l ↔
      (∃ a ∈ l, key a = k) ∧
        vs = valuesOf key value k l :=
  mem_groupLoop_iff (Nat.le_refl _) hSorted

theorem nodup_groups
    {l : List α}
    (hSorted : SortedBy key l) :
    ((groups key value l).map Prod.fst).Nodup :=
  nodup_groupLoop (Nat.le_refl _) hSorted

end Grouping
