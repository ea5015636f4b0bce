import Mathlib.Data.List.Basic

/-
  Labelled transition systems with an executable step.

  A `System` has a set of initial states and a partial step
  function on actions. Runs are taken relative to a predicate
  `ok` on the state before a step and the action taken: the
  trivial predicate gives all runs, and a stronger one gives
  the runs all of whose steps meet it.

  Main declarations:
    * `System`, `System.Run`, `System.Reachable`
    * `System.exec`, `System.exists_run_of_exec`,
      `System.exists_run_of_execOk`
    * `System.Reachable.induct`
    * `System.withHistory`,
      `System.Reachable.exists_history`
-/

------------------------------------------------------------
-- Systems And Runs
------------------------------------------------------------

/- A transition system with an executable partial step. -/
structure System (σ α : Type) where
  init : σ → Prop
  step : α → σ → Option σ

namespace System

variable {σ α : Type}

/-
  `M.Run ok s t`: some sequence of steps leads from `s` to
  `t`, and each of its steps is taken in a state and with an
  action that `ok` accepts.
-/
inductive Run
    (M : System σ α)
    (ok : σ → α → Prop) :
    σ → σ → Prop
  | refl (s : σ) : Run M ok s s
  | tail
      {s t u : σ}
      {a : α}
      (hRun : Run M ok s t)
      (hOk : ok t a)
      (hStep : M.step a t = some u) :
      Run M ok s u

/- The states that an accepted run reaches. -/
def Reachable
    (M : System σ α)
    (ok : σ → α → Prop)
    (s : σ) : Prop :=
  ∃ s₀, M.init s₀ ∧ M.Run ok s₀ s

/- Every step is accepted. -/
def always (_s : σ) (_a : α) : Prop := True

/- Run a list of actions. -/
def exec
    (M : System σ α) :
    List α → σ → Option σ
| [], s => some s
| a :: as, s => (M.step a s).bind (M.exec as)

/- Run a list of actions, checking each against `ok`. -/
def execOk
    (M : System σ α)
    (ok : σ → α → Bool) :
    List α → σ → Option σ
| [], s => some s
| a :: as, s =>
    if ok s a then
      (M.step a s).bind (M.execOk ok as)
    else
      none

------------------------------------------------------------
-- Run Algebra
------------------------------------------------------------

theorem Run.trans
    {M : System σ α}
    {ok : σ → α → Prop}
    {s t u : σ}
    (hFirst : M.Run ok s t)
    (hSecond : M.Run ok t u) :
    M.Run ok s u := by
  induction hSecond with
  | refl => exact hFirst
  | tail _ hOk hStep ih => exact Run.tail ih hOk hStep

theorem Run.single
    {M : System σ α}
    {ok : σ → α → Prop}
    {s t : σ}
    {a : α}
    (hOk : ok s a)
    (hStep : M.step a s = some t) :
    M.Run ok s t :=
  Run.tail (Run.refl s) hOk hStep

/- Weakening the acceptance predicate keeps every run. -/
theorem Run.mono
    {M : System σ α}
    {ok ok' : σ → α → Prop}
    (hImp : ∀ s a, ok s a → ok' s a)
    {s t : σ}
    (hRun : M.Run ok s t) :
    M.Run ok' s t := by
  induction hRun with
  | refl => exact Run.refl _
  | tail _ hOk hStep ih =>
      exact Run.tail ih (hImp _ _ hOk) hStep

theorem Reachable.init
    {M : System σ α}
    {ok : σ → α → Prop}
    {s : σ}
    (hInit : M.init s) :
    M.Reachable ok s :=
  ⟨s, hInit, Run.refl s⟩

theorem Reachable.trans
    {M : System σ α}
    {ok : σ → α → Prop}
    {s t : σ}
    (hReach : M.Reachable ok s)
    (hRun : M.Run ok s t) :
    M.Reachable ok t := by
  rcases hReach with ⟨s₀, hInit, hFirst⟩
  exact ⟨s₀, hInit, hFirst.trans hRun⟩

theorem Reachable.mono
    {M : System σ α}
    {ok ok' : σ → α → Prop}
    (hImp : ∀ s a, ok s a → ok' s a)
    {s : σ}
    (hReach : M.Reachable ok s) :
    M.Reachable ok' s := by
  rcases hReach with ⟨s₀, hInit, hRun⟩
  exact ⟨s₀, hInit, hRun.mono hImp⟩

/-
  The invariant rule: a property of the initial states that
  accepted steps from reachable states preserve holds in
  every reachable state.
-/
theorem Reachable.induct
    {M : System σ α}
    {ok : σ → α → Prop}
    {P : σ → Prop}
    (hInit : ∀ s, M.init s → P s)
    (hStep :
      ∀ s a t, M.Reachable ok s → P s → ok s a →
        M.step a s = some t → P t)
    {s : σ}
    (hReach : M.Reachable ok s) :
    P s := by
  rcases hReach with ⟨s₀, hInit₀, hRun⟩
  induction hRun with
  | refl => exact hInit _ hInit₀
  | tail hBefore hOk hNext ih =>
      exact hStep _ _ _ ⟨s₀, hInit₀, hBefore⟩ ih hOk hNext

/-
  A relation between two states of one run that is reflexive
  along the run and preserved by accepted steps.
-/
theorem Run.induct
    {M : System σ α}
    {ok : σ → α → Prop}
    {s : σ}
    {P : σ → Prop}
    (hStart : P s)
    (hStep :
      ∀ t a u, M.Run ok s t → P t → ok t a →
        M.step a t = some u → P u)
    {t : σ}
    (hRun : M.Run ok s t) :
    P t := by
  induction hRun with
  | refl => exact hStart
  | tail hBefore hOk hNext ih =>
      exact hStep _ _ _ hBefore ih hOk hNext

------------------------------------------------------------
-- Executions
------------------------------------------------------------

/- A successful execution is a run. -/
theorem exec_run
    {M : System σ α}
    (as : List α)
    {s t : σ}
    (hExec : M.exec as s = some t) :
    M.Run always s t := by
  induction as generalizing s with
  | nil =>
      cases hExec
      exact Run.refl _
  | cons a as ih =>
      rcases Option.bind_eq_some_iff.mp hExec with
        ⟨u, hStep, hRest⟩
      exact (Run.single trivial hStep).trans (ih hRest)

/- A successful checked execution is an accepted run. -/
theorem execOk_run
    {M : System σ α}
    {ok : σ → α → Bool}
    (as : List α)
    {s t : σ}
    (hExec : M.execOk ok as s = some t) :
    M.Run (fun s a => ok s a = true) s t := by
  induction as generalizing s with
  | nil =>
      cases hExec
      exact Run.refl _
  | cons a as ih =>
      rw [execOk] at hExec
      split at hExec
      · rename_i hOk
        rcases Option.bind_eq_some_iff.mp hExec with
          ⟨u, hStep, hRest⟩
        have hFirst : M.Run (fun s a => ok s a = true) s u :=
          Run.single hOk hStep
        exact hFirst.trans (ih hRest)
      · cases hExec

/- A run to a state with a property, found by execution. -/
theorem exists_run_of_exec
    {M : System σ α}
    {as : List α}
    {s : σ}
    {p : σ → Bool}
    (hExec : (M.exec as s).any p = true) :
    ∃ t, M.Run always s t ∧ p t = true := by
  cases hResult : M.exec as s with
  | none =>
      rw [hResult] at hExec
      cases hExec
  | some t =>
      rw [hResult] at hExec
      exact ⟨t, exec_run as hResult, hExec⟩

/- The same for accepted runs. -/
theorem exists_run_of_execOk
    {M : System σ α}
    {ok : σ → α → Bool}
    {as : List α}
    {s : σ}
    {p : σ → Bool}
    (hExec : (M.execOk ok as s).any p = true) :
    ∃ t, M.Run (fun s a => ok s a = true) s t ∧
      p t = true := by
  cases hResult : M.execOk ok as s with
  | none =>
      rw [hResult] at hExec
      cases hExec
  | some t =>
      rw [hResult] at hExec
      exact ⟨t, execOk_run as hResult, hExec⟩

------------------------------------------------------------
-- History Variables
------------------------------------------------------------

variable {γ : Type}

/-
  The system that also keeps a history. `start` is the
  history of an initial state, and `record` takes down a
  step with the states before and after it. The history
  never influences the steps.
-/
def withHistory
    (M : System σ α)
    (start : γ)
    (record : σ → α → σ → γ → γ) :
    System (σ × γ) α where
  init p := M.init p.1 ∧ p.2 = start
  step a p :=
    (M.step a p.1).map (fun t => (t, record p.1 a t p.2))

theorem withHistory_step_iff
    {M : System σ α}
    {start : γ}
    {record : σ → α → σ → γ → γ}
    {a : α}
    {p q : σ × γ} :
    (M.withHistory start record).step a p = some q ↔
      M.step a p.1 = some q.1 ∧
        q.2 = record p.1 a q.1 p.2 := by
  unfold withHistory
  dsimp only
  rw [Option.map_eq_some_iff]
  constructor
  · rintro ⟨t, hStep, rfl⟩
    exact ⟨hStep, rfl⟩
  · rintro ⟨hStep, hHistory⟩
    refine ⟨q.1, hStep, ?_⟩
    rw [← hHistory]

/- Every reachable state is reached with some history. -/
theorem Reachable.exists_history
    {M : System σ α}
    {ok : σ → α → Prop}
    (start : γ)
    (record : σ → α → σ → γ → γ)
    {s : σ}
    (hReach : M.Reachable ok s) :
    ∃ g, (M.withHistory start record).Reachable
      (fun p a => ok p.1 a) (s, g) := by
  refine Reachable.induct
    (P := fun s => ∃ g,
      (M.withHistory start record).Reachable
        (fun p a => ok p.1 a) (s, g)) ?_ ?_ hReach
  · intro s hInit
    exact ⟨start, Reachable.init ⟨hInit, rfl⟩⟩
  · rintro s a t _ ⟨g, hBefore⟩ hOk hStep
    refine ⟨record s a t g, ?_⟩
    have hNext :
        (M.withHistory start record).step a (s, g) =
          some (t, record s a t g) :=
      withHistory_step_iff.mpr ⟨hStep, rfl⟩
    exact hBefore.trans
      (Run.tail (Run.refl (s, g)) hOk hNext)

/- Forgetting the history gives a run of the system. -/
theorem Reachable.forget_history
    {M : System σ α}
    {ok : σ → α → Prop}
    {start : γ}
    {record : σ → α → σ → γ → γ}
    {p : σ × γ}
    (hReach : (M.withHistory start record).Reachable
      (fun p a => ok p.1 a) p) :
    M.Reachable ok p.1 := by
  refine Reachable.induct
    (P := fun p : σ × γ => M.Reachable ok p.1) ?_ ?_ hReach
  · intro p hInit
    exact Reachable.init hInit.1
  · intro p a q _ hBefore hOk hStep
    apply hBefore.trans
    apply Run.single hOk
    exact (withHistory_step_iff.mp hStep).1

end System
