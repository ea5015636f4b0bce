import Mathlib.Algebra.BigOperators.Group.Finset.Basic
import Mathlib.Algebra.Order.BigOperators.Group.Finset
import Mathlib.Data.Finset.Card
import Mathlib.Data.Finset.Max
import Mathlib.Data.Fintype.Basic

/-
  Even distributions that keep as much as possible.

  Items are given to holders. Shares are even if they differ
  by one at most. A distribution takes over an earlier one
  fairly if no holder gives up an item while another one gets
  a new item and ends with more. Among all even distributions
  a fair one that keeps what its shares allow agrees with the
  earlier one on the most items.

  Giving items one by one to a smallest holder, and moving
  them one by one from a largest to a smallest one, is fair.

  Main declarations:
    * `EvenOn`, `EvenOn.sum_min_le`
    * `Fair`, `Fair.give`, `Fair.move`
    * `share`, `agreements`
    * `agreements_le_of_fair`
-/

------------------------------------------------------------
-- Even Shares
------------------------------------------------------------

section EvenShares

variable {ι : Type}

/- Shares that differ by one at most. -/
def EvenOn (K : Finset ι) (f : ι → Nat) : Prop :=
  ∀ i ∈ K, ∀ j ∈ K, f i ≤ f j + 1

namespace EvenOn

variable {K : Finset ι} {f g : ι → Nat}

/- Even shares stay above the least of any other shares. -/
theorem le_of_sum_eq
    (hEven : EvenOn K g)
    (hSum : ∑ i ∈ K, f i = ∑ i ∈ K, g i)
    {m : Nat}
    (hLow : ∀ i ∈ K, m ≤ f i) :
    ∀ i ∈ K, m ≤ g i := by
  intro i hI
  by_contra hBelow
  have hLt : ∑ j ∈ K, g j < ∑ j ∈ K, f j := by
    apply Finset.sum_lt_sum
    · intro j hJ
      have hNear := hEven j hJ i hI
      have hMin := hLow j hJ
      omega
    · refine ⟨i, hI, ?_⟩
      have hMin := hLow i hI
      omega
  omega

/- They also stay below the greatest. -/
theorem ge_of_sum_eq
    (hEven : EvenOn K g)
    (hSum : ∑ i ∈ K, f i = ∑ i ∈ K, g i)
    {m : Nat}
    (hHigh : ∀ i ∈ K, f i ≤ m) :
    ∀ i ∈ K, g i ≤ m := by
  intro i hI
  by_contra hAbove
  have hLt : ∑ j ∈ K, f j < ∑ j ∈ K, g j := by
    apply Finset.sum_lt_sum
    · intro j hJ
      have hNear := hEven i hI j hJ
      have hMax := hHigh j hJ
      omega
    · refine ⟨i, hI, ?_⟩
      have hMax := hHigh i hI
      omega
  omega

/-
  Some holder has the least share and gave something up: all
  larger shares are owned, so `f` reaches the bound that the
  part above the least share sets.
-/
theorem sum_min_le_of_lost
    {a : ι → Nat}
    (hEven : EvenOn K g)
    (hSum : ∑ i ∈ K, f i = ∑ i ∈ K, g i)
    {m : Nat}
    (hLow : ∀ i ∈ K, m ≤ f i)
    (hOwned : ∀ i ∈ K, m < f i → f i ≤ a i)
    (hTop : ∀ i ∈ K, f i ≤ m + 1) :
    ∑ i ∈ K, min (a i) (g i) ≤ ∑ i ∈ K, min (a i) (f i) := by
  have hLow' := hEven.le_of_sum_eq hSum hLow
  have hBound : ∀ i ∈ K,
      min (a i) (g i) + m ≤ min (a i) m + g i := by
    intro i hI
    have hMin := hLow' i hI
    omega
  have hReached : ∀ i ∈ K,
      min (a i) (f i) + m = min (a i) m + f i := by
    intro i hI
    have hMin := hLow i hI
    have hMax := hTop i hI
    have hOwn := hOwned i hI
    omega
  have hBounds := Finset.sum_le_sum hBound
  have hReaches := Finset.sum_congr rfl hReached
  rw [Finset.sum_add_distrib, Finset.sum_add_distrib]
    at hBounds hReaches
  omega

/-
  No holder of the least share gave anything up: all that
  any share up to the greatest allows is kept.
-/
theorem sum_min_le_of_kept
    {a : ι → Nat}
    (hEven : EvenOn K g)
    (hSum : ∑ i ∈ K, f i = ∑ i ∈ K, g i)
    {m : Nat}
    (hTop : ∀ i ∈ K, f i ≤ m)
    (hKept : ∀ i ∈ K, f i < m → a i ≤ f i) :
    ∑ i ∈ K, min (a i) (g i) ≤ ∑ i ∈ K, min (a i) (f i) := by
  have hTop' := hEven.ge_of_sum_eq hSum hTop
  apply Finset.sum_le_sum
  intro i hI
  have hMax := hTop i hI
  have hMax' := hTop' i hI
  have hKeep := hKept i hI
  omega

/-
  Of all even shares with the same sum, fair ones cover the
  most of `a`.
-/
theorem sum_min_le
    {a : ι → Nat}
    (hEven : EvenOn K f)
    (hEven' : EvenOn K g)
    (hSum : ∑ i ∈ K, f i = ∑ i ∈ K, g i)
    (hFair : ∀ i ∈ K, ∀ j ∈ K,
      f i < a i → a j < f j → f j ≤ f i) :
    ∑ i ∈ K, min (a i) (g i) ≤ ∑ i ∈ K, min (a i) (f i) := by
  rcases K.eq_empty_or_nonempty with rfl | hNonempty
  · exact le_refl _
  · rcases K.exists_min_image f hNonempty with
      ⟨low, hLow, hMin⟩
    have hTop : ∀ i ∈ K, f i ≤ f low + 1 := by
      intro i hI
      exact hEven i hI low hLow
    by_cases hLost : ∃ i ∈ K, f i = f low ∧ f i < a i
    · rcases hLost with ⟨i, hI, hLeast, hGave⟩
      refine hEven'.sum_min_le_of_lost hSum hMin ?_ hTop
      intro j hJ hLarger
      by_contra hNew
      have hLe := hFair i hI j hJ hGave (by omega)
      omega
    · refine hEven'.sum_min_le_of_kept hSum hTop ?_
      intro i hI hLess
      by_contra hGave
      have hMinI := hMin i hI
      exact hLost ⟨i, hI, by omega, by omega⟩

end EvenOn

------------------------------------------------------------
-- Fair Steps
------------------------------------------------------------

/-
  Shares `f` that come from the shares `a`: a holder that
  gave something up is among the largest, one that got
  something among the smallest, and no holder that got
  something has more than one that gave something up.
-/
structure Fair (K : Finset ι) (a f : ι → Nat) : Prop where
  lost : ∀ i ∈ K, f i < a i → ∀ j ∈ K, f j ≤ f i + 1
  gained : ∀ j ∈ K, a j < f j → ∀ i ∈ K, f j ≤ f i + 1
  le : ∀ i ∈ K, ∀ j ∈ K, f i < a i → a j < f j → f j ≤ f i

namespace Fair

variable {K : Finset ι} {a f f' : ι → Nat}

/- Shares that nothing was done to. -/
theorem of_eq (hSame : ∀ i ∈ K, f i = a i) : Fair K a f := by
  refine ⟨?_, ?_, ?_⟩
  · intro i hI hLess
    have hEq := hSame i hI
    omega
  · intro j hJ hMore
    have hEq := hSame j hJ
    omega
  · intro i hI j _ hLess
    have hEq := hSame i hI
    omega

/- Only the shares of the holders count. -/
theorem congr
    {a' : ι → Nat}
    (hFair : Fair K a f)
    (hBefore : ∀ i ∈ K, a' i = a i)
    (hAfter : ∀ i ∈ K, f' i = f i) :
    Fair K a' f' := by
  refine ⟨?_, ?_, ?_⟩
  · intro i hI hLess j hJ
    rw [hBefore i hI, hAfter i hI] at hLess
    rw [hAfter i hI, hAfter j hJ]
    exact hFair.lost i hI hLess j hJ
  · intro j hJ hMore i hI
    rw [hBefore j hJ, hAfter j hJ] at hMore
    rw [hAfter i hI, hAfter j hJ]
    exact hFair.gained j hJ hMore i hI
  · intro i hI j hJ hLess hMore
    rw [hBefore i hI, hAfter i hI] at hLess
    rw [hBefore j hJ, hAfter j hJ] at hMore
    rw [hAfter i hI, hAfter j hJ]
    exact hFair.le i hI j hJ hLess hMore

/- A new item goes to a smallest holder. -/
theorem give
    (hFair : Fair K a f)
    (low : ι)
    (hMin : ∀ i ∈ K, f low ≤ f i)
    (hKept : ∀ i ∈ K, a i ≤ f i)
    (hAt : f' low = f low + 1)
    (hElse : ∀ i, i ≠ low → f' i = f i) :
    Fair K a f' := by
  have hMore : ∀ i, f i ≤ f' i := by
    intro i
    by_cases hI : i = low
    · rw [hI]
      omega
    · rw [hElse i hI]
  refine ⟨?_, ?_, ?_⟩
  · intro i hI hLess
    have hKeep := hKept i hI
    have hGrown := hMore i
    omega
  · intro j hJ hGain i hI
    have hGrown := hMore i
    by_cases hLow : j = low
    · have hLeast := hMin i hI
      rw [hLow]
      omega
    · rw [hElse j hLow] at hGain ⊢
      have hNear := hFair.gained j hJ hGain i hI
      omega
  · intro i hI j _ hLess
    have hKeep := hKept i hI
    have hGrown := hMore i
    omega

/-
  An item goes from a largest holder to a smallest one that
  has two items less. The smallest one has lost nothing and
  the largest one has gained nothing before.
-/
theorem move
    (hFair : Fair K a f)
    (low high : ι)
    (hLow : low ∈ K)
    (hHigh : high ∈ K)
    (hMin : ∀ i ∈ K, f low ≤ f i)
    (hMax : ∀ i ∈ K, f i ≤ f high)
    (hApart : f low + 2 ≤ f high)
    (hAtLow : f' low = f low + 1)
    (hAtHigh : f' high + 1 = f high)
    (hElse : ∀ i, i ≠ low → i ≠ high → f' i = f i) :
    Fair K a f' := by
  have hLowKept : a low ≤ f low := by
    by_contra hLess
    have hNear := hFair.lost low hLow (by omega) high hHigh
    omega
  have hHighKept : f high ≤ a high := by
    by_contra hMore
    have hNear := hFair.gained high hHigh (by omega) low hLow
    omega
  refine ⟨?_, ?_, ?_⟩
  · intro i hI hLess j hJ
    have hTop : f' j ≤ f high := by
      by_cases hJLow : j = low
      · rw [hJLow]
        omega
      · by_cases hJHigh : j = high
        · rw [hJHigh]
          omega
        · rw [hElse j hJLow hJHigh]
          exact hMax j hJ
    by_cases hILow : i = low
    · rw [hILow] at hLess
      omega
    · by_cases hIHigh : i = high
      · rw [hIHigh]
        omega
      · rw [hElse i hILow hIHigh] at hLess ⊢
        have hNear := hFair.lost i hI hLess high hHigh
        omega
  · intro j hJ hGain i hI
    have hBottom : f low ≤ f' i := by
      by_cases hILow : i = low
      · rw [hILow]
        omega
      · by_cases hIHigh : i = high
        · rw [hIHigh]
          omega
        · rw [hElse i hILow hIHigh]
          exact hMin i hI
    by_cases hJHigh : j = high
    · rw [hJHigh] at hGain
      omega
    · by_cases hJLow : j = low
      · rw [hJLow]
        omega
      · rw [hElse j hJLow hJHigh] at hGain ⊢
        have hNear := hFair.gained j hJ hGain low hLow
        omega
  · intro i hI j hJ hLess hGain
    have hILow : i ≠ low := by
      rintro rfl
      omega
    have hJHigh : j ≠ high := by
      rintro rfl
      omega
    have hLarge : f high ≤ f' i + 1 := by
      by_cases hIHigh : i = high
      · rw [hIHigh]
        omega
      · rw [hElse i hILow hIHigh] at hLess ⊢
        exact hFair.lost i hI hLess high hHigh
    have hSmall : f' j ≤ f low + 1 := by
      by_cases hJLow : j = low
      · rw [hJLow]
        omega
      · rw [hElse j hJLow hJHigh] at hGain ⊢
        exact hFair.gained j hJ hGain low hLow
    omega

end Fair

------------------------------------------------------------
-- Agreements
------------------------------------------------------------

variable {σ : Type} [Fintype σ] [DecidableEq ι]

/- The number of items of a holder. -/
def share (f : σ → ι) (i : ι) : Nat :=
  (Finset.univ.filter fun s => f s = i).card

/- The number of items that two distributions agree on. -/
def agreements (f g : σ → ι) : Nat :=
  (Finset.univ.filter fun s => f s = g s).card

theorem sum_share
    {K : Finset ι}
    {f : σ → ι}
    (hInto : ∀ s, f s ∈ K) :
    ∑ i ∈ K, share f i = Fintype.card σ := by
  have hFibers := Finset.card_eq_sum_card_fiberwise
    (s := Finset.univ) (t := K) (f := f)
    (fun s _ => hInto s)
  exact hFibers.symm

/- Agreements are counted holder by holder. -/
theorem agreements_eq_sum
    {K : Finset ι}
    {f : σ → ι}
    (hInto : ∀ s, f s ∈ K)
    (g : σ → ι) :
    agreements f g =
      ∑ i ∈ K, (Finset.univ.filter fun s =>
        f s = i ∧ g s = i).card := by
  have hFibers := Finset.card_eq_sum_card_fiberwise
    (s := Finset.univ.filter fun s => f s = g s)
    (t := K) (f := f) (fun s _ => hInto s)
  unfold agreements
  rw [hFibers]
  apply Finset.sum_congr rfl
  intro i _
  congr 1
  ext s
  simp only [Finset.mem_filter, Finset.mem_univ, true_and]
  constructor
  · rintro ⟨hSame, rfl⟩
    exact ⟨rfl, hSame.symm⟩
  · rintro ⟨rfl, hOld⟩
    exact ⟨hOld.symm, rfl⟩

theorem agreements_le_sum_min
    {K : Finset ι}
    {f : σ → ι}
    (hInto : ∀ s, f s ∈ K)
    (g : σ → ι) :
    agreements f g ≤
      ∑ i ∈ K, min (share g i) (share f i) := by
  rw [agreements_eq_sum hInto]
  apply Finset.sum_le_sum
  intro i _
  apply le_min
  · apply Finset.card_le_card
    intro s hMem
    simp only [Finset.mem_filter, Finset.mem_univ,
      true_and] at hMem ⊢
    exact hMem.2
  · apply Finset.card_le_card
    intro s hMem
    simp only [Finset.mem_filter, Finset.mem_univ,
      true_and] at hMem ⊢
    exact hMem.1

/-
  An even and fair distribution that keeps all its shares
  allow agrees with the old one more than any other even one.
-/
theorem agreements_le_of_fair
    {K : Finset ι}
    {old f g : σ → ι}
    (hInto : ∀ s, f s ∈ K)
    (hInto' : ∀ s, g s ∈ K)
    (hEven : EvenOn K (share f))
    (hEven' : EvenOn K (share g))
    (hFair : Fair K (share old) (share f))
    (hKept : ∀ i ∈ K,
      min (share old i) (share f i) ≤
        (Finset.univ.filter fun s =>
          f s = i ∧ old s = i).card) :
    agreements g old ≤ agreements f old := by
  have hSum : ∑ i ∈ K, share f i = ∑ i ∈ K, share g i := by
    rw [sum_share hInto, sum_share hInto']
  calc agreements g old
      ≤ ∑ i ∈ K, min (share old i) (share g i) :=
        agreements_le_sum_min hInto' old
    _ ≤ ∑ i ∈ K, min (share old i) (share f i) :=
        hEven.sum_min_le hEven' hSum hFair.le
    _ ≤ ∑ i ∈ K, (Finset.univ.filter fun s =>
          f s = i ∧ old s = i).card :=
        Finset.sum_le_sum hKept
    _ = agreements f old :=
        (agreements_eq_sum hInto old).symm

end EvenShares
