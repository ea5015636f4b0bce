import Mathlib.Data.List.Induction
import Mathlib.Data.List.Nodup

/-
  State machines behind a filter, and the filter that keeps
  one request number per client.

  A `FilteredMachine` consumes entries one after another. On
  an entry it accepts, the part of its state that matters
  (the core) takes the step `apply`; on any other entry the
  core stays as it is. Whatever else the machine keeps may
  change on every entry.

  A filter that compares an entry with the client's previous
  entry accepts exactly the rises of the client's request
  numbers, and these may repeat a request.

  Main declarations:
    * `FilteredMachine`, `FilteredMachine.accepted`
    * `FilteredMachine.run_core`
    * `FilteredMachine.accepted_nodup_iff`
    * `rises`, `RisesOnce`
    * `FilteredMachine.accepted_nodup_iff_risesOnce`
    * `forall_entry_snoc`, `forall_entry_take`
-/

------------------------------------------------------------
-- Filtered Machines
------------------------------------------------------------

/-
  A machine with states `S` and entries `α` whose core moves
  exactly on accepted entries. A step may crash (`none`).
-/
structure FilteredMachine (S σ α : Type) where
  step : S → α → Option S
  core : S → σ
  accepts : S → α → Bool
  apply : σ → α → Option σ
  step_core : ∀ s a,
    (step s a).map core =
      if accepts s a then apply (core s) a
      else some (core s)

namespace FilteredMachine

variable {S σ α κ : Type}
variable (M : FilteredMachine S σ α)

/- Consume a list of entries. -/
def run (s : S) (log : List α) : Option S :=
  log.foldlM M.step s

/- The entries of a log that are accepted on the way. -/
def accepted : S → List α → List α
| _, [] => []
| s, a :: log =>
    (if M.accepts s a then [a] else []) ++
      match M.step s a with
      | some s' => accepted s' log
      | none => []

theorem run_cons (s : S) (a : α) (log : List α) :
    M.run s (a :: log) =
      (M.step s a).bind fun s' => M.run s' log := rfl

theorem run_append (s : S) (pre post : List α) :
    M.run s (pre ++ post) =
      (M.run s pre).bind fun s' => M.run s' post := by
  unfold run
  rw [List.foldlM_append]
  rfl

theorem run_snoc (s : S) (pre : List α) (a : α) :
    M.run s (pre ++ [a]) =
      (M.run s pre).bind fun s' => M.step s' a := by
  rw [run_append]
  congr 1
  funext s'
  rw [run_cons]
  cases M.step s' a <;> rfl

theorem accepted_sublist (s : S) (log : List α) :
    (M.accepted s log).Sublist log := by
  induction log generalizing s with
  | nil => exact List.Sublist.refl []
  | cons a log ih =>
      have hHead :
          (if M.accepts s a then [a] else []).Sublist
            [a] := by
        split
        · exact List.Sublist.refl [a]
        · exact List.nil_sublist [a]
      apply hHead.append
      cases M.step s a with
      | some s' => exact ih s'
      | none => exact List.nil_sublist log

/- The core is the plain fold of the accepted entries. -/
theorem run_core (s : S) (log : List α) :
    (M.run s log).map M.core =
      (M.accepted s log).foldlM M.apply (M.core s) := by
  induction log generalizing s with
  | nil => rfl
  | cons a log ih =>
      have hCore := M.step_core s a
      rw [run_cons]
      unfold accepted
      by_cases hAccepts : M.accepts s a = true
      · rw [if_pos hAccepts] at hCore ⊢
        rw [List.singleton_append, List.foldlM_cons,
          ← hCore]
        cases M.step s a with
        | none => rfl
        | some s' => exact ih s'
      · rw [if_neg hAccepts] at hCore ⊢
        cases hStep : M.step s a with
        | none =>
            rw [hStep] at hCore
            cases hCore
        | some s' =>
            rw [hStep] at hCore
            have hSame : M.core s' = M.core s :=
              Option.some.inj hCore
            rw [← hSame]
            exact ih s'

/- The same when an accepted entry cannot crash. -/
theorem run_core_total
    {f : σ → α → σ}
    (hApply : ∀ c a, M.apply c a = some (f c a))
    {s t : S}
    {log : List α}
    (hRun : M.run s log = some t) :
    M.core t = (M.accepted s log).foldl f (M.core s) := by
  have hCore := M.run_core s log
  have hEta : M.apply = fun c a => pure (f c a) := by
    funext c a
    exact hApply c a
  rw [hRun, hEta, List.foldlM_pure] at hCore
  exact Option.some.inj hCore

/- A log that runs through runs up to each position. -/
theorem run_take
    {s t : S}
    {log : List α}
    (hRun : M.run s log = some t)
    (i : Nat) :
    ∃ s', M.run s (log.take i) = some s' := by
  rw [← List.take_append_drop i log, run_append] at hRun
  cases hTake : M.run s (log.take i) with
  | none =>
      rw [hTake] at hRun
      cases hRun
  | some s' => exact ⟨s', rfl⟩

/- An accepted entry is accepted at one of its positions. -/
theorem mem_accepted_iff
    {s : S}
    {log : List α}
    {a : α} :
    a ∈ M.accepted s log ↔
      ∃ i s',
        log[i]? = some a ∧
        M.run s (log.take i) = some s' ∧
        M.accepts s' a = true := by
  induction log generalizing s with
  | nil => simp [accepted]
  | cons b log ih =>
      rw [accepted, List.mem_append]
      constructor
      · intro hMem
        rcases hMem with hHead | hRest
        · split at hHead
          · next hAccepts =>
              rw [List.mem_singleton.mp hHead]
              exact ⟨0, s, rfl, rfl, hAccepts⟩
          · cases hHead
        · cases hStep : M.step s b with
          | none =>
              rw [hStep] at hRest
              cases hRest
          | some t =>
              rw [hStep] at hRest
              rcases ih.mp hRest with
                ⟨i, s', hAt, hRun, hAccepts⟩
              refine ⟨i + 1, s', hAt, ?_, hAccepts⟩
              rw [List.take_succ_cons, run_cons, hStep]
              exact hRun
      · rintro ⟨i, s', hAt, hRun, hAccepts⟩
        cases i with
        | zero =>
            cases hAt
            cases hRun
            left
            rw [if_pos hAccepts]
            exact List.mem_singleton.mpr rfl
        | succ i =>
            right
            rw [List.take_succ_cons, run_cons] at hRun
            cases hStep : M.step s b with
            | none =>
                rw [hStep] at hRun
                cases hRun
            | some t =>
                rw [hStep] at hRun
                exact ih.mpr ⟨i, s', hAt, hRun, hAccepts⟩

theorem mem_accepted_of_take
    {s : S}
    {log : List α}
    {k : Nat}
    {a : α}
    (hMem : a ∈ M.accepted s (log.take k)) :
    a ∈ M.accepted s log := by
  rcases M.mem_accepted_iff.mp hMem with
    ⟨i, s', hAt, hRun, hAccepts⟩
  have hBefore : i < k := by
    by_contra hNot
    rw [List.getElem?_take, if_neg hNot] at hAt
    cases hAt
  rw [List.getElem?_take, if_pos hBefore] at hAt
  rw [List.take_take, Nat.min_eq_left (by omega)] at hRun
  exact M.mem_accepted_iff.mpr ⟨i, s', hAt, hRun, hAccepts⟩

/-
  No two accepted entries share a key exactly when, of two
  positions with the same key, the later one finds the filter
  closed if the earlier one found it open.
-/
theorem accepted_nodup_iff
    (key : α → κ)
    {s : S}
    {log : List α} :
    ((M.accepted s log).map key).Nodup ↔
      ∀ i j a b s₁ s₂,
        i < j →
        log[i]? = some a →
        log[j]? = some b →
        key a = key b →
        M.run s (log.take i) = some s₁ →
        M.run s (log.take j) = some s₂ →
        M.accepts s₁ a = true →
        M.accepts s₂ b = false := by
  induction log generalizing s with
  | nil => simp [accepted]
  | cons c log ih =>
      cases hStep : M.step s c with
      | none =>
          -- The machine stops here: no later position runs.
          constructor
          · intro _ i j a b s₁ s₂ hLt _ _ _ _ hRun
            rcases Nat.exists_eq_succ_of_ne_zero
              (Nat.ne_of_gt (Nat.zero_lt_of_lt hLt)) with
              ⟨j', rfl⟩
            rw [List.take_succ_cons, run_cons, hStep] at hRun
            cases hRun
          · intro _
            rw [accepted, hStep]
            split <;> simp
      | some t =>
          have hSplit :
              ((M.accepted s (c :: log)).map key).Nodup ↔
                (M.accepts s c = true →
                  key c ∉ (M.accepted t log).map key) ∧
                ((M.accepted t log).map key).Nodup := by
            rw [accepted, hStep]
            cases M.accepts s c <;> simp
          have hRunSucc :
              ∀ j, M.run s ((c :: log).take (j + 1)) =
                M.run t (log.take j) := by
            intro j
            rw [List.take_succ_cons, run_cons, hStep]
            rfl
          rw [hSplit, ih]
          constructor
          · rintro ⟨hHead, hRest⟩ i j a b s₁ s₂ hLt hAt hAt'
              hKey hRun hRun' hAccepts
            rcases Nat.exists_eq_succ_of_ne_zero
              (Nat.ne_of_gt (Nat.zero_lt_of_lt hLt)) with
              ⟨j', rfl⟩
            rw [Nat.succ_eq_add_one, hRunSucc] at hRun'
            cases i with
            | zero =>
                cases hAt
                cases hRun
                apply Bool.eq_false_iff.mpr
                intro hAccepts'
                apply hHead hAccepts
                rw [hKey]
                apply List.mem_map_of_mem
                exact M.mem_accepted_iff.mpr
                  ⟨j', s₂, hAt', hRun', hAccepts'⟩
            | succ i =>
                rw [hRunSucc] at hRun
                exact hRest i j' a b s₁ s₂
                  (Nat.lt_of_succ_lt_succ hLt) hAt hAt' hKey
                  hRun hRun' hAccepts
          · intro hPairs
            constructor
            · intro hAccepts hMem
              rcases List.mem_map.mp hMem with
                ⟨b, hB, hKey⟩
              rcases M.mem_accepted_iff.mp hB with
                ⟨j, s₂, hAt', hRun', hAccepts'⟩
              have hClosed := hPairs 0 (j + 1) c b s s₂
                (Nat.succ_pos j) rfl hAt' hKey.symm rfl
                ((hRunSucc j).trans hRun') hAccepts
              rw [hClosed] at hAccepts'
              cases hAccepts'
            · intro i j a b s₁ s₂ hLt hAt hAt' hKey hRun hRun'
              exact hPairs (i + 1) (j + 1) a b s₁ s₂
                (Nat.succ_lt_succ hLt) hAt hAt' hKey
                ((hRunSucc i).trans hRun)
                ((hRunSucc j).trans hRun')

end FilteredMachine

------------------------------------------------------------
-- Rises Of The Request Numbers
------------------------------------------------------------

section Rises

variable {α ι : Type} [DecidableEq ι]
variable (client : α → ι) (num : α → Int)

/- The last entry of a client in a log. -/
def lastOf (c : ι) (log : List α) : Option α :=
  (log.filter fun a => client a = c).getLast?

theorem lastOf_snoc (c : ι) (log : List α) (a : α) :
    lastOf client c (log ++ [a]) =
      if client a = c then some a
      else lastOf client c log := by
  unfold lastOf
  rw [List.filter_append]
  by_cases hClient : client a = c
  · simp [hClient]
  · simp [hClient]

theorem mem_of_lastOf
    {c : ι}
    {log : List α}
    {a : α}
    (hLast : lastOf client c log = some a) :
    a ∈ log ∧ client a = c := by
  have hMem := List.mem_of_getLast? hLast
  rw [List.mem_filter, decide_eq_true_eq] at hMem
  exact hMem

/-
  After `log`, the entry is the first of its client, or its
  number is above that of the client's previous entry.
-/
def rises (log : List α) (a : α) : Bool :=
  (lastOf client (client a) log).all fun b => num b < num a

/-
  No request stands at two positions of the log at both of
  which it is counted and rises.
-/
def RisesOnce (counts : α → Bool) (log : List α) : Prop :=
  ∀ i j a b,
    i < j →
    log[i]? = some a →
    log[j]? = some b →
    counts a = true →
    counts b = true →
    client a = client b →
    num a = num b →
    rises client num (log.take i) a = true →
    rises client num (log.take j) b = false

/-
  A machine that accepts the counted rises accepts no request
  twice exactly when none rises twice.
-/
theorem FilteredMachine.accepted_nodup_iff_risesOnce
    {S σ : Type}
    (M : FilteredMachine S σ α)
    (counts : α → Bool)
    {s t : S}
    {log : List α}
    (hAccepts : ∀ past s' a,
      M.run s past = some s' →
      M.accepts s' a =
        (rises client num past a && counts a))
    (hRun : M.run s log = some t) :
    ((M.accepted s log).map
        fun a => (client a, num a)).Nodup ↔
      RisesOnce client num counts log := by
  rw [M.accepted_nodup_iff]
  constructor
  · intro hPairs i j a b hLt hAt hAt' hCounts hCounts'
      hClient hNum hRises
    rcases M.run_take hRun i with ⟨s₁, hRun₁⟩
    rcases M.run_take hRun j with ⟨s₂, hRun₂⟩
    have hOpen : M.accepts s₁ a = true := by
      rw [hAccepts _ _ _ hRun₁, hRises, hCounts]
      rfl
    have hClosed := hPairs i j a b s₁ s₂ hLt hAt hAt'
      (Prod.ext hClient hNum) hRun₁ hRun₂ hOpen
    rw [hAccepts _ _ _ hRun₂, hCounts', Bool.and_true]
      at hClosed
    exact hClosed
  · intro hOnce i j a b s₁ s₂ hLt hAt hAt' hKey hRun₁ hRun₂
      hOpen
    rw [hAccepts _ _ _ hRun₁, Bool.and_eq_true] at hOpen
    rw [hAccepts _ _ _ hRun₂]
    cases hCounts' : counts b with
    | false => exact Bool.and_false _
    | true =>
        rw [Bool.and_true]
        exact hOnce i j a b hLt hAt hAt' hOpen.2 hCounts'
          (congrArg Prod.fst hKey) (congrArg Prod.snd hKey)
          hOpen.1

end Rises

------------------------------------------------------------
-- Entries And What Stands Before Them
------------------------------------------------------------

section Before

variable {α : Type} {P : List α → α → Prop} {log : List α}

/- What each entry meets at its place, a new entry as well. -/
theorem forall_entry_snoc
    (hAll : ∀ k a, log[k]? = some a → P (log.take k) a)
    {last : α}
    (hLast : P log last) :
    ∀ k a,
      (log ++ [last])[k]? = some a →
      P ((log ++ [last]).take k) a := by
  intro k a hEntry
  by_cases hOld : k < log.length
  · rw [List.getElem?_append_left hOld] at hEntry
    rw [List.take_append_of_le_length (by omega)]
    exact hAll k a hEntry
  · have hBound :=
      (List.getElem?_eq_some_iff.mp hEntry).1
    rw [List.length_append, List.length_singleton] at hBound
    have hPlace : k = log.length := by omega
    subst hPlace
    rw [List.getElem?_concat_length] at hEntry
    cases hEntry
    rw [List.take_left]
    exact hLast

theorem forall_entry_take
    (hAll : ∀ k a, log[k]? = some a → P (log.take k) a)
    (n : Nat) :
    ∀ k a,
      (log.take n)[k]? = some a →
      P ((log.take n).take k) a := by
  intro k a hEntry
  by_cases hBefore : k < n
  · rw [List.getElem?_take, if_pos hBefore] at hEntry
    rw [List.take_take, Nat.min_eq_left (by omega)]
    exact hAll k a hEntry
  · rw [List.getElem?_take, if_neg hBefore] at hEntry
    cases hEntry

end Before
