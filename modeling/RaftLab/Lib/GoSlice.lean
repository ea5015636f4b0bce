import Mathlib.Data.List.Basic
import Mathlib.Tactic.Common

/-
  Go slices indexed by signed integers.

  An index or a slice bound out of range is a run-time panic
  in Go; here it is `none`.

  Main declarations:
    * `GoSlice.at?`, `GoSlice.from?`, `GoSlice.upTo?`
-/

------------------------------------------------------------
-- Indexing And Slicing
------------------------------------------------------------

namespace GoSlice

variable {α : Type}

/- `l[i]`. -/
def at? (l : List α) (i : Int) : Option α :=
  if 0 ≤ i then l[i.toNat]? else none

/- `l[i:]`. -/
def from? (l : List α) (i : Int) : Option (List α) :=
  if 0 ≤ i ∧ i ≤ l.length then
    some (l.drop i.toNat)
  else
    none

/- `l[:i]`. -/
def upTo? (l : List α) (i : Int) : Option (List α) :=
  if 0 ≤ i ∧ i ≤ l.length then
    some (l.take i.toNat)
  else
    none

@[simp] theorem at?_natCast
    (l : List α)
    (i : Nat) :
    at? l (i : Int) = l[i]? := by
  simp [at?]

@[simp] theorem at?_zero (l : List α) :
    at? l 0 = l[0]? := by
  simp [at?]

theorem at?_eq_some_iff
    {l : List α}
    {i : Int}
    {x : α} :
    at? l i = some x ↔
      0 ≤ i ∧ l[i.toNat]? = some x := by
  unfold at?
  split
  · simp_all
  · simp only [reduceCtorEq, false_iff]
    rintro ⟨hNonneg, _⟩
    contradiction

theorem from?_eq_some_iff
    {l r : List α}
    {i : Int} :
    from? l i = some r ↔
      (0 ≤ i ∧ i ≤ l.length) ∧ l.drop i.toNat = r := by
  unfold from?
  split
  · simp_all
  · simp only [reduceCtorEq, false_iff]
    rintro ⟨hBounds, _⟩
    contradiction

theorem upTo?_eq_some_iff
    {l r : List α}
    {i : Int} :
    upTo? l i = some r ↔
      (0 ≤ i ∧ i ≤ l.length) ∧ l.take i.toNat = r := by
  unfold upTo?
  split
  · simp_all
  · simp only [reduceCtorEq, false_iff]
    rintro ⟨hBounds, _⟩
    contradiction

end GoSlice
