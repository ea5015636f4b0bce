import Mathlib.Data.List.Basic
import Mathlib.Data.List.Infix

/-
  Logs that are made of copies of leader logs.

  Every term has at most one leader, whose log only grows.
  A log is chained when each of its entries stands where the
  leader of the entry's term has it, on top of the same
  entries. Chained logs have the log matching property:
  they agree up to every position at which they have entries
  of the same term.

  Main declarations:
    * `Grows`, `Chained`
    * `Chained.matching`
    * `Chained.eq_take_of_last`
-/

------------------------------------------------------------
-- Growing Leader Logs
------------------------------------------------------------

variable {E T : Type}

/- Every leader log is extended or stays as it is. -/
def Grows (leaderLog leaderLog' : T → List E) : Prop :=
  ∀ t, leaderLog t <+: leaderLog' t

theorem Grows.refl (leaderLog : T → List E) :
    Grows leaderLog leaderLog :=
  fun _ => List.prefix_rfl

/- The log of one leader is extended. -/
theorem Grows.update
    [DecidableEq T]
    {leaderLog : T → List E}
    {t : T}
    {log : List E}
    (hPrefix : leaderLog t <+: log) :
    Grows leaderLog (Function.update leaderLog t log) := by
  intro u
  by_cases hu : u = t
  · subst hu
    rw [Function.update_self]
    exact hPrefix
  · rw [Function.update_of_ne hu]

/- What was a part of a leader log remains one. -/
theorem Grows.take_eq
    {leaderLog leaderLog' : T → List E}
    (hGrows : Grows leaderLog leaderLog')
    {t : T}
    {k : Nat}
    (hLe : k ≤ (leaderLog t).length) :
    (leaderLog' t).take k = (leaderLog t).take k := by
  rcases hGrows t with ⟨rest, hRest⟩
  rw [← hRest, List.take_append_of_le_length hLe]

------------------------------------------------------------
-- Chained Logs
------------------------------------------------------------

def Chained
    (term : E → T)
    (leaderLog : T → List E)
    (log : List E) : Prop :=
  ∀ k e, log[k]? = some e →
    log.take (k + 1) = (leaderLog (term e)).take (k + 1)

namespace Chained

variable {term : E → T}
variable {leaderLog leaderLog' : T → List E}
variable {log log' : List E}

theorem lt_length
    (hChain : Chained term leaderLog log)
    {k : Nat}
    {e : E}
    (hEntry : log[k]? = some e) :
    k < (leaderLog (term e)).length := by
  have hLt := (List.getElem?_eq_some_iff.mp hEntry).1
  have hLength :=
    congrArg List.length (hChain k e hEntry)
  rw [List.length_take, List.length_take] at hLength
  omega

theorem grow
    (hChain : Chained term leaderLog log)
    (hGrows : Grows leaderLog leaderLog') :
    Chained term leaderLog' log := by
  intro k e hEntry
  have hLt := hChain.lt_length hEntry
  rw [hGrows.take_eq hLt]
  exact hChain k e hEntry

theorem of_extends
    (hChain : Chained term leaderLog log)
    (hPrefix : log' <+: log) :
    Chained term leaderLog log' := by
  rcases hPrefix with ⟨rest, rfl⟩
  intro k e hEntry
  have hLt := (List.getElem?_eq_some_iff.mp hEntry).1
  have hWhole := hChain k e
    (by rw [List.getElem?_append_left hLt]; exact hEntry)
  rw [List.take_append_of_le_length (by omega)] at hWhole
  exact hWhole

/- The leader of a term puts an entry of that term on top. -/
theorem snoc
    (hChain : Chained term leaderLog log)
    {e : E}
    (hLeader : leaderLog (term e) = log ++ [e]) :
    Chained term leaderLog (log ++ [e]) := by
  intro k e' hEntry
  rcases Nat.lt_or_ge k log.length with hLt | hGe
  · rw [List.getElem?_append_left hLt] at hEntry
    rw [List.take_append_of_le_length (by omega)]
    exact hChain k e' hEntry
  · rw [List.getElem?_append_right hGe] at hEntry
    have hZero : k - log.length = 0 := by
      have hLt := (List.getElem?_eq_some_iff.mp hEntry).1
      rw [List.length_singleton] at hLt
      omega
    rw [hZero] at hEntry
    cases hEntry
    rw [hLeader]

/- Two chained logs agree below entries of the same term. -/
theorem matching
    (hChain : Chained term leaderLog log)
    (hChain' : Chained term leaderLog log')
    {k : Nat}
    {e e' : E}
    (hEntry : log[k]? = some e)
    (hEntry' : log'[k]? = some e')
    (hTerm : term e = term e') :
    log.take (k + 1) = log'.take (k + 1) := by
  rw [hChain k e hEntry, hChain' k e' hEntry', hTerm]

/- A chained log is a part of the leader log of its end. -/
theorem eq_take_of_last
    (hChain : Chained term leaderLog log)
    {e : E}
    (hLast : log[log.length - 1]? = some e) :
    log = (leaderLog (term e)).take log.length := by
  have hLt := (List.getElem?_eq_some_iff.mp hLast).1
  have hSucc : log.length - 1 + 1 = log.length := by omega
  have hTake := hChain (log.length - 1) e hLast
  rw [hSucc, List.take_length] at hTake
  exact hTake

end Chained
