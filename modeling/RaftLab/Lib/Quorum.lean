import Mathlib.Data.Fintype.Card

/-
  Majorities of a finite set of parties, and counting the
  parties that have some property.

  Main declarations:
    * `Majority`
    * `Majority.exists_common`
    * `AtLeast`, `AtLeast.succ`, `AtLeast.majority`
-/

------------------------------------------------------------
-- Majorities
------------------------------------------------------------

/- More than half of `n` parties. -/
def Majority {n : Nat} (Q : Finset (Fin n)) : Prop :=
  n / 2 + 1 ≤ Q.card

namespace Majority

variable {n : Nat}

/- Two majorities have a party in common. -/
theorem exists_common
    {Q R : Finset (Fin n)}
    (hQ : Majority Q)
    (hR : Majority R) :
    ∃ p, p ∈ Q ∧ p ∈ R := by
  by_contra hNone
  have hDisjoint : Disjoint Q R := by
    rw [Finset.disjoint_left]
    intro p hp hp'
    exact hNone ⟨p, hp, hp'⟩
  have hCard : Q.card + R.card ≤ n := by
    rw [← Finset.card_union_of_disjoint hDisjoint]
    simpa using Finset.card_le_univ (Q ∪ R)
  unfold Majority at hQ hR
  omega

/- All parties are a majority, if there are any. -/
theorem univ
    (hPos : 0 < n) :
    Majority (Finset.univ : Finset (Fin n)) := by
  unfold Majority
  rw [Finset.card_univ, Fintype.card_fin]
  omega

end Majority

------------------------------------------------------------
-- Counting Parties
------------------------------------------------------------

/- At least `b` different parties have the property `P`. -/
def AtLeast
    {n : Nat}
    (P : Fin n → Prop)
    (b : Int) : Prop :=
  ∃ B : Finset (Fin n), b ≤ B.card ∧ ∀ j ∈ B, P j

namespace AtLeast

variable {n : Nat}
variable {P Q : Fin n → Prop}
variable {b : Int}

theorem zero : AtLeast P 0 :=
  ⟨∅, le_refl _, by simp⟩

theorem one
    {p : Fin n}
    (hp : P p) :
    AtLeast P 1 := by
  refine ⟨{p}, by simp, ?_⟩
  intro j hj
  rw [Finset.mem_singleton] at hj
  rw [hj]
  exact hp

theorem mono
    (hP : AtLeast P b)
    (hImp : ∀ j, P j → Q j) :
    AtLeast Q b := by
  rcases hP with ⟨B, hCard, hAll⟩
  exact ⟨B, hCard, fun j hj => hImp j (hAll j hj)⟩

/- One more party, which did not have the property before. -/
theorem succ
    (hP : AtLeast P b)
    (hImp : ∀ j, P j → Q j)
    {p : Fin n}
    (hOld : ¬ P p)
    (hNew : Q p) :
    AtLeast Q (b + 1) := by
  rcases hP with ⟨B, hCard, hAll⟩
  have hFresh : p ∉ B := by
    intro hMem
    exact hOld (hAll p hMem)
  refine ⟨insert p B, ?_, ?_⟩
  · rw [Finset.card_insert_of_notMem hFresh]
    push_cast
    omega
  · intro j hj
    rcases Finset.mem_insert.mp hj with rfl | hMem
    · exact hNew
    · exact hImp j (hAll j hMem)

theorem majority
    (hP : AtLeast P b)
    (hHalf : ((n / 2 + 1 : Nat) : Int) ≤ b) :
    ∃ B : Finset (Fin n), Majority B ∧ ∀ j ∈ B, P j := by
  rcases hP with ⟨B, hCard, hAll⟩
  refine ⟨B, ?_, hAll⟩
  unfold Majority
  omega

end AtLeast
