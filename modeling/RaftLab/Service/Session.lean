import Mathlib.Logic.Function.Basic
import RaftLab.Lib.DuplicateFilter

/-
  The client sessions that kvraft and shardctrler keep.

  Both services declare the same `Session` and run the same
  test in handleApplyMsg: an entry is a stable operation when
  its client's session is valid, older than the entry, and
  has at least its request number. The session is rewritten
  by every entry of the client, stable or not, so it is
  always the client's last entry.

  Main declarations:
    * `Session`, `Sessions`
    * `Sessions.stable`, `Sessions.setSession`
    * `Sessions.Follows`, `Sessions.Follows.stable_eq`
    * `SessionMachine`, `SessionMachine.executed_nodup_iff`
-/

------------------------------------------------------------
-- Sessions
------------------------------------------------------------

namespace RaftLab

structure Session (Op : Type) where
  lastOp : Op
  lastOpVaild : Bool
  lastOpIndex : Int
deriving DecidableEq, Repr

/- The map ckSessions: no record is the zero Session. -/
abbrev Sessions (Op : Type) : Type :=
  Int → Option (Session Op)

namespace Sessions

variable {Op : Type}
variable (ckId reqNum : Op → Int)

/- The test for a stable operation. -/
def stable
    (ckSessions : Sessions Op)
    (commandIndex : Int)
    (op : Op) : Bool :=
  match ckSessions (ckId op) with
  | some session =>
      session.lastOpVaild &&
        decide (session.lastOpIndex < commandIndex) &&
        decide (reqNum op ≤ reqNum session.lastOp)
  | none => false

/- The write of the session, the same on both paths. -/
def setSession
    (ckSessions : Sessions Op)
    (commandIndex : Int)
    (op : Op) : Sessions Op :=
  Function.update ckSessions (ckId op) (some {
    lastOp := op
    lastOpVaild := true
    lastOpIndex := commandIndex })

------------------------------------------------------------
-- A Session Is The Last Entry Of Its Client
------------------------------------------------------------

/-
  The sessions after the entries `past` were delivered at
  indices 1, 2, …: each is its client's last entry.
-/
structure Follows
    (ckSessions : Sessions Op)
    (past : List Op) : Prop where
  lastOp : ∀ c,
    (ckSessions c).map Session.lastOp =
      lastOf ckId c past
  valid : ∀ c session,
    ckSessions c = some session →
    session.lastOpVaild = true ∧
      session.lastOpIndex ≤ past.length

theorem Follows.empty :
    Follows ckId (fun _ => none : Sessions Op) [] where
  lastOp _ := rfl
  valid _ _ hSession := by cases hSession

variable {ckId reqNum}

/- Every entry, stable or not, becomes its client's session. -/
theorem Follows.setSession
    {ckSessions : Sessions Op}
    {past : List Op}
    (hFollows : Follows ckId ckSessions past)
    (op : Op) :
    Follows ckId
      (ckSessions.setSession ckId (past.length + 1) op)
      (past ++ [op]) where
  lastOp c := by
    rw [lastOf_snoc]
    unfold Sessions.setSession
    by_cases hClient : ckId op = c
    · rw [if_pos hClient, hClient, Function.update_self]
      rfl
    · rw [if_neg hClient,
        Function.update_of_ne (Ne.symm hClient)]
      exact hFollows.lastOp c
  valid c session hSession := by
    unfold Sessions.setSession at hSession
    rw [List.length_append, List.length_singleton]
    by_cases hClient : ckId op = c
    · rw [hClient, Function.update_self] at hSession
      cases hSession
      exact ⟨rfl, by simp⟩
    · rw [Function.update_of_ne (Ne.symm hClient)]
        at hSession
      rcases hFollows.valid c session hSession with
        ⟨hVaild, hIndex⟩
      exact ⟨hVaild, by push_cast; omega⟩

/- So an entry is stable exactly when it does not rise. -/
theorem Follows.stable_eq
    {ckSessions : Sessions Op}
    {past : List Op}
    (hFollows : Follows ckId ckSessions past)
    (op : Op) :
    ckSessions.stable ckId reqNum (past.length + 1) op =
      !rises ckId reqNum past op := by
  unfold Sessions.stable rises
  rw [← hFollows.lastOp]
  cases hSession : ckSessions (ckId op) with
  | none => rfl
  | some session =>
      rcases hFollows.valid _ _ hSession with
        ⟨hVaild, hIndex⟩
      have hOlder :
          session.lastOpIndex < past.length + 1 := by
        omega
      by_cases hRises : reqNum session.lastOp < reqNum op
      · simp [hVaild, hOlder, hRises]
      · simp [hVaild, hOlder, hRises, Int.not_lt.mp hRises]

end Sessions

------------------------------------------------------------
-- Servers With Sessions
------------------------------------------------------------

/-
  A server that delivers a log in index order: each entry
  becomes the session of its client, and the writes among
  the entries that are not stable move the core.
-/
structure SessionMachine
    (S σ Op : Type)
    (ckId reqNum : Op → Int)
    extends FilteredMachine S σ Op where
  ckSessions : S → Sessions Op
  lastApplied : S → Int
  writes : Op → Bool
  step_record : ∀ s op s',
    step s op = some s' →
    lastApplied s' = lastApplied s + 1 ∧
      ckSessions s' =
        (ckSessions s).setSession ckId
          (lastApplied s + 1) op
  accepts_eq : ∀ s op,
    accepts s op =
      (!(ckSessions s).stable ckId reqNum
        (lastApplied s + 1) op && writes op)

namespace SessionMachine

variable {S σ Op : Type}
variable {ckId reqNum : Op → Int}
variable (M : SessionMachine S σ Op ckId reqNum)

/- A server that has delivered nothing. -/
structure Fresh (s : S) : Prop where
  ckSessions : M.ckSessions s = fun _ => none
  lastApplied : M.lastApplied s = 0

theorem run_follows
    {s t : S}
    (hFresh : M.Fresh s)
    {log : List Op}
    (hRun : M.run s log = some t) :
    M.lastApplied t = log.length ∧
      Sessions.Follows ckId (M.ckSessions t) log := by
  induction log using List.reverseRecOn generalizing t with
  | nil =>
      cases hRun
      rw [hFresh.lastApplied, hFresh.ckSessions]
      exact ⟨rfl, Sessions.Follows.empty ckId⟩
  | append_singleton log op ih =>
      rw [FilteredMachine.run_snoc] at hRun
      rcases Option.bind_eq_some_iff.mp hRun with
        ⟨s', hPast, hStep⟩
      rcases ih hPast with ⟨hApplied, hFollows⟩
      rcases M.step_record s' op t hStep with
        ⟨hApplied', hSessions⟩
      rw [hApplied', hSessions, hApplied]
      constructor
      · simp
      · exact hFollows.setSession op

/-
  No request is executed twice exactly when none stands at
  two positions of the log at which it is its client's first
  entry or has a larger number than the one before.
-/
theorem executed_nodup_iff
    {s t : S}
    (hFresh : M.Fresh s)
    {log : List Op}
    (hRun : M.run s log = some t) :
    ((M.accepted s log).map
        fun op => (ckId op, reqNum op)).Nodup ↔
      RisesOnce ckId reqNum M.writes log := by
  apply FilteredMachine.accepted_nodup_iff_risesOnce
    ckId reqNum M.toFilteredMachine M.writes _ hRun
  intro past s' op hPast
  rcases M.run_follows hFresh hPast with
    ⟨hApplied, hFollows⟩
  rw [M.accepts_eq, hApplied, hFollows.stable_eq op,
    Bool.not_not]

end SessionMachine

end RaftLab
