import Mathlib.Data.List.Basic
import Mathlib.Data.List.Nodup

/-
  Linearizability of finite histories.

  A history is a list of invocations and responses of calls,
  each call with its own number. It is linearizable for a
  sequential object if all answered calls, and some of the
  pending ones, can be performed one after another such that
  the object gives the answers of the history, and no call is
  performed before one that was answered before it started.

  Main declarations:
    * `SeqObject`, `CallEvent`, `Performed`
    * `Linearization`, `Linearizable`
    * `Linearization.invoke`, `Linearization.perform`,
      `Linearization.respond`, `Linearization.perm_calls`
-/

------------------------------------------------------------
-- Objects And Histories
------------------------------------------------------------

/- A sequential object: its state and what a call does. -/
structure SeqObject (σ Op Val : Type) where
  init : σ
  apply : σ → Op → σ × Val

/- What the clients of an object see. -/
inductive CallEvent (Op Val : Type) where
  | invoke (id : Nat) (op : Op)
  | respond (id : Nat) (value : Val)
deriving DecidableEq

/- A call that has been performed on the object. -/
structure Performed (Op Val : Type) where
  id : Nat
  op : Op
  value : Val
deriving DecidableEq

section Linearizability

variable {σ Op Val : Type}

namespace CallEvent

def invokes (id : Nat) : CallEvent Op Val → Bool
| .invoke id' _ => id' = id
| .respond _ _ => false

def responds (id : Nat) : CallEvent Op Val → Bool
| .invoke _ _ => false
| .respond id' _ => id' = id

end CallEvent

/- Call `id` is answered before call `id'` is invoked. -/
def respondsBefore (id id' : Nat) :
    List (CallEvent Op Val) → Bool
| [] => false
| e :: history =>
    (e.responds id && history.any (CallEvent.invokes id')) ||
      respondsBefore id id' history

theorem respondsBefore_snoc
    (id id' : Nat)
    (history : List (CallEvent Op Val))
    (e : CallEvent Op Val) :
    respondsBefore id id' (history ++ [e]) =
      (respondsBefore id id' history ||
        (history.any (CallEvent.responds id) &&
          e.invokes id')) := by
  induction history with
  | nil => simp [respondsBefore]
  | cons e' history ih =>
      simp only [List.cons_append, respondsBefore, ih,
        List.any_append, List.any_cons, List.any_nil,
        Bool.or_false]
      cases e'.responds id <;>
        cases e.invokes id' <;> simp [Bool.or_comm]

/- A call that is not answered is not answered before any. -/
theorem respondsBefore_of_open
    {id : Nat}
    {history : List (CallEvent Op Val)}
    (hOpen : ∀ value, .respond id value ∉ history)
    (id' : Nat) :
    respondsBefore id id' history = false := by
  induction history with
  | nil => rfl
  | cons e history ih =>
      have hRest :
          respondsBefore id id' history = false := by
        apply ih
        intro value hMem
        exact hOpen value (List.mem_cons_of_mem _ hMem)
      have hHead : e.responds id = false := by
        cases e with
        | invoke id₀ op => rfl
        | respond id₀ value =>
            apply decide_eq_false
            intro hEq
            apply hOpen value
            rw [hEq]
            exact List.mem_cons_self
      rw [respondsBefore, hRest, hHead]
      rfl

namespace SeqObject

variable (O : SeqObject σ Op Val)

/- The state after performing calls in order. -/
def final (done : List (Performed Op Val)) : σ :=
  done.foldl (fun s d => (O.apply s d.op).1) O.init

/- The object gives the recorded answers, from `s`. -/
def LegalFrom : σ → List (Performed Op Val) → Prop
| _, [] => True
| s, d :: done =>
    (O.apply s d.op).2 = d.value ∧
      LegalFrom (O.apply s d.op).1 done

instance decidableLegalFrom
    [DecidableEq Val] :
    (s : σ) →
    (done : List (Performed Op Val)) →
    Decidable (O.LegalFrom s done)
| _, [] => isTrue trivial
| s, d :: done =>
    @instDecidableAnd _ _
      (inferInstanceAs
        (Decidable ((O.apply s d.op).2 = d.value)))
      (decidableLegalFrom (O.apply s d.op).1 done)

def Legal (done : List (Performed Op Val)) : Prop :=
  O.LegalFrom O.init done

instance [DecidableEq Val] (done : List (Performed Op Val)) :
    Decidable (O.Legal done) :=
  O.decidableLegalFrom O.init done

theorem legalFrom_snoc
    {s : σ}
    {done : List (Performed Op Val)}
    (hLegal : O.LegalFrom s done)
    {d : Performed Op Val}
    (hValue : (O.apply
      (done.foldl (fun s d => (O.apply s d.op).1) s)
      d.op).2 = d.value) :
    O.LegalFrom s (done ++ [d]) := by
  induction done generalizing s with
  | nil => exact ⟨hValue, trivial⟩
  | cons d' done ih =>
      rcases hLegal with ⟨hHead, hRest⟩
      exact ⟨hHead, ih hRest hValue⟩

end SeqObject

------------------------------------------------------------
-- Linearizations
------------------------------------------------------------

/- `done` is a linearization of `history`. -/
structure Linearization
    (O : SeqObject σ Op Val)
    (history : List (CallEvent Op Val))
    (done : List (Performed Op Val)) : Prop where
  nodup : (done.map Performed.id).Nodup
  invoked : ∀ d ∈ done, .invoke d.id d.op ∈ history
  answered : ∀ id value,
    .respond id value ∈ history →
    ∃ d ∈ done, d.id = id ∧ d.value = value
  legal : O.Legal done
  realTime : done.Pairwise fun d d' =>
    respondsBefore d'.id d.id history = false

def Linearizable
    (O : SeqObject σ Op Val)
    (history : List (CallEvent Op Val)) : Prop :=
  ∃ done, Linearization O history done

namespace Linearization

variable {O : SeqObject σ Op Val}
variable {history : List (CallEvent Op Val)}
variable {done : List (Performed Op Val)}

theorem nil : Linearization O [] [] where
  nodup := List.nodup_nil
  invoked _ hMem := by cases hMem
  answered _ _ hMem := by cases hMem
  legal := trivial
  realTime := List.Pairwise.nil

/- A new call starts after everything performed so far. -/
theorem invoke
    (hLin : Linearization O history done)
    {id : Nat}
    (hFresh : ∀ d ∈ done, d.id ≠ id)
    (op : Op) :
    Linearization O (history ++ [.invoke id op]) done where
  nodup := hLin.nodup
  invoked d hMem :=
    List.mem_append_left _ (hLin.invoked d hMem)
  answered id' value hMem := by
    rcases List.mem_append.mp hMem with hOld | hNew
    · exact hLin.answered id' value hOld
    · cases List.mem_singleton.mp hNew
  legal := hLin.legal
  realTime := by
    apply hLin.realTime.imp_of_mem
    intro d d' hMem _ hBefore
    have hOther :
        (CallEvent.invoke id op :
          CallEvent Op Val).invokes d.id = false := by
      apply decide_eq_false
      exact Ne.symm (hFresh d hMem)
    rw [respondsBefore_snoc, hBefore, hOther]
    simp

/- The answer of a performed call. -/
theorem respond
    (hLin : Linearization O history done)
    {d : Performed Op Val}
    (hMem : d ∈ done) :
    Linearization O
      (history ++ [.respond d.id d.value]) done where
  nodup := hLin.nodup
  invoked d' hMem' :=
    List.mem_append_left _ (hLin.invoked d' hMem')
  answered id value hMem' := by
    rcases List.mem_append.mp hMem' with hOld | hNew
    · exact hLin.answered id value hOld
    · cases List.mem_singleton.mp hNew
      exact ⟨d, hMem, rfl, rfl⟩
  legal := hLin.legal
  realTime := by
    apply hLin.realTime.imp
    intro d' d'' hBefore
    rw [respondsBefore_snoc, hBefore]
    simp [CallEvent.invokes]

/- A pending call is performed after all others. -/
theorem perform
    (hLin : Linearization O history done)
    {id : Nat}
    {op : Op}
    (hInvoked : .invoke id op ∈ history)
    (hOpen : ∀ value, .respond id value ∉ history)
    (hNew : ∀ d ∈ done, d.id ≠ id) :
    Linearization O history
      (done ++ [⟨id, op, (O.apply (O.final done) op).2⟩])
    where
  nodup := by
    rw [List.map_append, List.nodup_append]
    refine ⟨hLin.nodup, List.nodup_singleton _, ?_⟩
    intro x hX y hY
    rcases List.mem_map.mp hX with ⟨d, hMem, hId⟩
    rw [← hId, List.mem_singleton.mp hY]
    exact hNew d hMem
  invoked d hMem := by
    rcases List.mem_append.mp hMem with hOld | hLast
    · exact hLin.invoked d hOld
    · rw [List.mem_singleton.mp hLast]
      exact hInvoked
  answered id' value hMem := by
    rcases hLin.answered id' value hMem with
      ⟨d, hDone, hAnswer⟩
    exact ⟨d, List.mem_append_left _ hDone, hAnswer⟩
  legal := O.legalFrom_snoc hLin.legal rfl
  realTime := by
    rw [List.pairwise_append]
    refine ⟨hLin.realTime, List.pairwise_singleton _ _, ?_⟩
    intro d _ d' hLast
    rw [List.mem_singleton.mp hLast]
    exact respondsBefore_of_open hOpen d.id

/-
  When all calls of a history are answered, a linearization
  is a permutation of them.
-/
theorem perm_calls
    (hLin : Linearization O history done)
    {calls : List (Performed Op Val)}
    (hNodup : (calls.map Performed.id).Nodup)
    (hAnswered : ∀ c ∈ calls,
      .respond c.id c.value ∈ history)
    (hInvoked : ∀ id op,
      .invoke id op ∈ history →
      ∃ c ∈ calls, c.id = id ∧ c.op = op) :
    done.Perm calls := by
  apply (List.perm_ext_iff_of_nodup hLin.nodup.of_map
    hNodup.of_map).mpr
  -- Both directions meet in one performed call per number.
  have hSame : ∀ d ∈ done, ∀ c ∈ calls,
      c.id = d.id → d = c := by
    intro d hD c hC hId
    rcases hInvoked _ _ (hLin.invoked d hD) with
      ⟨c', hC', hId', hOp⟩
    rcases hLin.answered _ _ (hAnswered c hC) with
      ⟨d', hD', hId'', hValue⟩
    have hCEq : c' = c :=
      List.inj_on_of_nodup_map hNodup hC' hC
        (hId'.trans hId.symm)
    have hDEq : d' = d :=
      List.inj_on_of_nodup_map hLin.nodup hD' hD
        (hId''.trans hId)
    subst hCEq
    subst hDEq
    cases d'
    cases c'
    simp_all
  intro d
  constructor
  · intro hD
    rcases hInvoked _ _ (hLin.invoked d hD) with
      ⟨c, hC, hId, _⟩
    rw [hSame d hD c hC hId]
    exact hC
  · intro hC
    rcases hLin.answered _ _ (hAnswered d hC) with
      ⟨d', hD', hId, _⟩
    rw [← hSame d' hD' d hC hId.symm]
    exact hD'

end Linearization

end Linearizability
