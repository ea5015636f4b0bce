import Mathlib.Data.List.Permutation
import RaftLab.Kvsrv.Server

/-
  Linearizability of kvsrv.

  A call takes effect at one execution of an attempt: Put and
  Append at the first one, Get at the one that is answered.
  For Append the server recognises later attempts by the
  opstate and gives the recorded answer again. For Put nothing
  marks a later attempt; it must find its own value still in
  place.

  Main declarations:
    * `Kvsrv.RequestOk`, `Kvsrv.World.Inv`
    * `Kvsrv.linearizable`
    * `Kvsrv.put_repeated`
-/

------------------------------------------------------------
-- The Invariant
------------------------------------------------------------

namespace RaftLab

namespace Kvsrv

/- The calls performed so far, in their order. -/
abbrev Done : Type := List (Performed Op String)

def Unperformed (done : Done) (call : Nat) : Prop :=
  ∀ d ∈ done, d.id ≠ call

def PerformedAs
    (done : Done)
    (call : Nat)
    (value : String) : Prop :=
  ∃ d ∈ done, d.id = call ∧ d.value = value

/-
  What the server knows about the pending request of a clerk.
  The clerk's entry of cliMap equals its opstate, except
  before the first execution of an Append.
-/
def RequestOk
    (kv : KVServer)
    (executed : List Nat)
    (done : Done)
    (ck : Clerk)
    (request : Request) : Prop :=
  match request.op with
  | .get _ =>
      kv.cliMap ck.id = ck.opstate ∧
        Unperformed done request.call
  | .put _ _ =>
      kv.cliMap ck.id = ck.opstate ∧
        (request.call ∉ executed ∧
            Unperformed done request.call ∨
          request.call ∈ executed ∧
            PerformedAs done request.call "")
  | .append _ _ =>
      ck.opstate = !request.opstate ∧
        (kv.cliMap ck.id = request.opstate ∧
            Unperformed done request.call ∨
          kv.cliMap ck.id = ck.opstate ∧
            PerformedAs done request.call (kv.dupMap ck.id))

/- A pending call was invoked and is not answered. -/
structure Pending
    (history : List (CallEvent Op String))
    (request : Request) : Prop where
  invoked : .invoke request.call request.op ∈ history
  unanswered : ∀ value,
    .respond request.call value ∉ history
  lt_length : request.call < history.length

structure World.Inv
    {n : Nat}
    (w : World n)
    (done : Done) : Prop where
  lin : Linearization mapObject w.history done
  final : mapObject.final done = w.server.mp
  lt_length : ∀ d ∈ done, d.id < w.history.length
  executed_lt : ∀ call ∈ w.executed,
    call < w.history.length
  ids : Function.Injective fun c => (w.clerks c).id
  idle : ∀ c,
    (w.clerks c).request = none →
    w.server.cliMap (w.clerks c).id = (w.clerks c).opstate
  pending : ∀ c request,
    (w.clerks c).request = some request →
    Pending w.history request ∧
      RequestOk w.server w.executed done (w.clerks c) request
  distinct : ∀ c c' request request',
    (w.clerks c).request = some request →
    (w.clerks c').request = some request' →
    request.call = request'.call →
    c = c'

------------------------------------------------------------
-- One Execution
------------------------------------------------------------

/-
  What an execution of a request makes of the performed calls
  when it is answered or not.
-/
structure Executed
    {n : Nat}
    (w : World n)
    (done : Done)
    (ck : Clerk)
    (request : Request)
    (answered : Bool)
    (done' : Done) : Prop where
  lin : Linearization mapObject w.history done'
  final : mapObject.final done' =
    (w.server.handle ck.id request.opstate request.op).1.mp
  keeps : ∀ d ∈ done, d ∈ done'
  adds : ∀ d ∈ done', d ∈ done ∨ d.id = request.call
  others : ∀ id, id ≠ ck.id →
    let kv' :=
      (w.server.handle ck.id request.opstate request.op).1
    kv'.cliMap id = w.server.cliMap id ∧
      kv'.dupMap id = w.server.dupMap id
  answer : answered = true →
    let result :=
      w.server.handle ck.id request.opstate request.op
    PerformedAs done' request.call result.2 ∧
      result.1.cliMap ck.id = ck.opstate
  open_ : answered = false →
    RequestOk
      (w.server.handle ck.id request.opstate request.op).1
      (w.executed ++ [request.call]) done' ck request

section Execution

variable {n : Nat}
variable {w : World n}
variable {done : Done}
variable {ck : Clerk}
variable {request : Request}

/- The call takes effect: it is performed after all others. -/
theorem Executed.now
    (hInv : w.Inv done)
    (hPending : Pending w.history request)
    (hNew : Unperformed done request.call)
    {kv' : KVServer}
    {value : String}
    (hResult :
      w.server.handle ck.id request.opstate request.op =
        (kv', value))
    (hEffect : mapObject.apply w.server.mp request.op =
      (kv'.mp, value))
    (hOthers : ∀ id, id ≠ ck.id →
      kv'.cliMap id = w.server.cliMap id ∧
        kv'.dupMap id = w.server.dupMap id)
    (hOpstate : kv'.cliMap ck.id = ck.opstate)
    {answered : Bool}
    (hOpen : ∀ done',
      answered = false →
      PerformedAs done' request.call value →
      RequestOk kv' (w.executed ++ [request.call]) done' ck
        request) :
    ∃ done', Executed w done ck request answered done' := by
  have hLin := hInv.lin.perform hPending.invoked
    hPending.unanswered hNew
  rw [hInv.final, hEffect] at hLin
  let d : Performed Op String :=
    ⟨request.call, request.op, value⟩
  have hDone : PerformedAs (done ++ [d]) request.call value :=
    ⟨d, by simp, rfl, rfl⟩
  refine ⟨done ++ [d], hLin, ?_, ?_, ?_, ?_, ?_, ?_⟩
  · rw [hResult]
    unfold SeqObject.final
    rw [List.foldl_append]
    change (mapObject.apply (mapObject.final done)
      request.op).1 = kv'.mp
    rw [hInv.final, hEffect]
  · intro d' hMem
    exact List.mem_append_left _ hMem
  · intro d' hMem
    rcases List.mem_append.mp hMem with hOld | hLast
    · exact Or.inl hOld
    · right
      rw [List.mem_singleton.mp hLast]
  · rw [hResult]
    exact hOthers
  · rw [hResult]
    exact fun _ => ⟨hDone, hOpstate⟩
  · rw [hResult]
    exact fun hLost => hOpen _ hLost hDone

/- An execution that leaves the map as it is. -/
theorem Executed.idle
    (hInv : w.Inv done)
    {kv' : KVServer}
    {value : String}
    (hResult :
      w.server.handle ck.id request.opstate request.op =
        (kv', value))
    (hSame : kv' = w.server)
    {answered : Bool}
    (hAnswer : answered = true →
      PerformedAs done request.call value ∧
        w.server.cliMap ck.id = ck.opstate)
    (hOpen : answered = false →
      RequestOk w.server (w.executed ++ [request.call]) done
        ck request) :
    ∃ done', Executed w done ck request answered done' := by
  subst hSame
  refine ⟨done, hInv.lin, ?_, ?_, ?_, ?_, ?_, ?_⟩
  · rw [hResult]
    exact hInv.final
  · exact fun _ hMem => hMem
  · exact fun _ hMem => Or.inl hMem
  · rw [hResult]
    exact fun _ _ => ⟨rfl, rfl⟩
  · rw [hResult]
    exact hAnswer
  · rw [hResult]
    exact hOpen

/- A Get is performed by the execution that is answered. -/
theorem executed_get
    (hInv : w.Inv done)
    {key : String}
    (hOp : request.op = .get key)
    (hPending : Pending w.history request)
    (hOk : RequestOk w.server w.executed done ck request)
    (answered : Bool) :
    ∃ done', Executed w done ck request answered done' := by
  have hResult :
      w.server.handle ck.id request.opstate request.op =
        (w.server, w.server.mp key) := by
    rw [hOp]
    rfl
  simp only [RequestOk, hOp] at hOk
  rcases hOk with ⟨hOpstate, hNew⟩
  cases answered with
  | false =>
      apply Executed.idle hInv hResult rfl
      · intro hAnswered
        cases hAnswered
      · intro _
        simp only [RequestOk, hOp]
        exact ⟨hOpstate, hNew⟩
  | true =>
      apply Executed.now hInv hPending hNew hResult
      · rw [hOp]
        rfl
      · exact fun _ _ => ⟨rfl, rfl⟩
      · exact hOpstate
      · intro _ hLost
        cases hLost

/- A Put is performed by its first execution. -/
theorem executed_put
    (hInv : w.Inv done)
    {key value : String}
    (hOp : request.op = .put key value)
    (hPending : Pending w.history request)
    (hOk : RequestOk w.server w.executed done ck request)
    (hKept : request.call ∈ w.executed →
      w.server.mp key = value)
    (answered : Bool) :
    ∃ done', Executed w done ck request answered done' := by
  have hResult :
      w.server.handle ck.id request.opstate request.op =
        ({ w.server with
          mp := Function.update w.server.mp key value },
          "") := by
    rw [hOp]
    rfl
  have hOpen : ∀ (kv : KVServer) (done' : Done),
      kv.cliMap ck.id = ck.opstate →
      PerformedAs done' request.call "" →
      RequestOk kv (w.executed ++ [request.call]) done' ck
        request := by
    intro kv done' hOpstate hDone
    simp only [RequestOk, hOp]
    exact ⟨hOpstate, Or.inr ⟨by simp, hDone⟩⟩
  simp only [RequestOk, hOp] at hOk
  rcases hOk with ⟨hOpstate, ⟨_, hNew⟩ | ⟨hExec, hDone⟩⟩
  · apply Executed.now hInv hPending hNew hResult
    · rw [hOp]
      rfl
    · exact fun _ _ => ⟨rfl, rfl⟩
    · exact hOpstate
    · exact fun done' _ => hOpen _ done' hOpstate
  · -- The value is still there: writing it changes nothing.
    have hSame :
        { w.server with
          mp := Function.update w.server.mp key value } =
          w.server := by
      rw [← hKept hExec, Function.update_eq_self]
    apply Executed.idle hInv hResult hSame
    · exact fun _ => ⟨hDone, hOpstate⟩
    · exact fun _ => hOpen _ done hOpstate hDone

/- An Append is performed by its first execution. -/
theorem executed_append
    (hInv : w.Inv done)
    {key value : String}
    (hOp : request.op = .append key value)
    (hPending : Pending w.history request)
    (hOk : RequestOk w.server w.executed done ck request)
    (answered : Bool) :
    ∃ done', Executed w done ck request answered done' := by
  simp only [RequestOk, hOp] at hOk
  rcases hOk with
    ⟨hFlipped, ⟨hState, hNew⟩ | ⟨hState, hDone⟩⟩
  · let kv' : KVServer := {
      mp := Function.update w.server.mp key
        (w.server.mp key ++ value)
      cliMap := Function.update w.server.cliMap ck.id
        (!w.server.cliMap ck.id)
      dupMap := Function.update w.server.dupMap ck.id
        (w.server.mp key) }
    have hResult :
        w.server.handle ck.id request.opstate request.op =
          (kv', w.server.mp key) := by
      simp [hOp, KVServer.handle, KVServer.append, hState,
        kv']
    have hOpstate : kv'.cliMap ck.id = ck.opstate := by
      simp [kv', hState, hFlipped]
    apply Executed.now hInv hPending hNew hResult
    · rw [hOp]
      rfl
    · intro id hId
      simp [kv', hId]
    · exact hOpstate
    · intro done' _ hDone
      simp only [RequestOk, hOp]
      refine ⟨hFlipped, Or.inr ⟨hOpstate, ?_⟩⟩
      simpa [kv'] using hDone
  · have hResult :
        w.server.handle ck.id request.opstate request.op =
          (w.server, w.server.dupMap ck.id) := by
      have hNe :
          w.server.cliMap ck.id ≠ request.opstate := by
        rw [hState, hFlipped]
        simp
      simp [hOp, KVServer.handle, KVServer.append, hNe]
    apply Executed.idle hInv hResult rfl
    · exact fun _ => ⟨hDone, hState⟩
    · intro _
      simp only [RequestOk, hOp]
      exact ⟨hFlipped, Or.inr ⟨hState, hDone⟩⟩

theorem executed_of_request
    (hInv : w.Inv done)
    {c : Fin n}
    (hRequest : (w.clerks c).request = some request)
    (answered : Bool)
    (hKept : putKept w (.execute c answered) = true) :
    ∃ done',
      Executed w done (w.clerks c) request answered done' := by
  rcases hInv.pending c request hRequest with
    ⟨hPending, hOk⟩
  cases hOp : request.op with
  | get key =>
      exact executed_get hInv hOp hPending hOk answered
  | put key value =>
      apply executed_put hInv hOp hPending hOk _ answered
      intro hExec
      simpa [putKept, hRequest, hOp, hExec] using hKept
  | append key value =>
      exact executed_append hInv hOp hPending hOk answered

end Execution

------------------------------------------------------------
-- Steps Keep The Invariant
------------------------------------------------------------

/-
  A pending request of another clerk is not touched when
  calls other than it are performed, executed or answered.
-/
theorem RequestOk.frame
    {kv kv' : KVServer}
    {executed executed' : List Nat}
    {done done' : Done}
    {ck : Clerk}
    {request : Request}
    (hOk : RequestOk kv executed done ck request)
    (hCliMap : kv'.cliMap ck.id = kv.cliMap ck.id)
    (hDupMap : kv'.dupMap ck.id = kv.dupMap ck.id)
    (hExecuted : request.call ∈ executed' ↔
      request.call ∈ executed)
    (hKeeps : ∀ d ∈ done, d ∈ done')
    (hAdds : ∀ d ∈ done', d ∈ done ∨ d.id ≠ request.call) :
    RequestOk kv' executed' done' ck request := by
  have hNew :
      Unperformed done request.call →
        Unperformed done' request.call := by
    intro hOld d hMem
    rcases hAdds d hMem with hMem' | hOther
    · exact hOld d hMem'
    · exact hOther
  have hDone : ∀ value,
      PerformedAs done request.call value →
        PerformedAs done' request.call value := by
    rintro value ⟨d, hMem, hAnswer⟩
    exact ⟨d, hKeeps d hMem, hAnswer⟩
  unfold RequestOk at hOk ⊢
  rw [hCliMap, hDupMap, hExecuted]
  cases hOp : request.op with
  | get key =>
      simp only [hOp] at hOk ⊢
      exact ⟨hOk.1, hNew hOk.2⟩
  | put key value =>
      simp only [hOp] at hOk ⊢
      exact ⟨hOk.1, hOk.2.imp
        (fun h => ⟨h.1, hNew h.2⟩)
        (fun h => ⟨h.1, hDone _ h.2⟩)⟩
  | append key value =>
      simp only [hOp] at hOk ⊢
      exact ⟨hOk.1, hOk.2.imp
        (fun h => ⟨h.1, hNew h.2⟩)
        (fun h => ⟨h.1, hDone _ h.2⟩)⟩

/- Other events do not touch a pending call. -/
theorem Pending.snoc
    {history : List (CallEvent Op String)}
    {request : Request}
    (hPending : Pending history request)
    {e : CallEvent Op String}
    (hOther : ∀ value, e ≠ .respond request.call value) :
    Pending (history ++ [e]) request where
  invoked := List.mem_append_left _ hPending.invoked
  unanswered value hMem := by
    rcases List.mem_append.mp hMem with hOld | hNew
    · exact hPending.unanswered value hOld
    · exact hOther value (List.mem_singleton.mp hNew).symm
  lt_length := by
    rw [List.length_append]
    exact Nat.lt_add_right _ hPending.lt_length

namespace World

variable {n : Nat}

theorem inv_initial
    {ids : Fin n → Int}
    (hIds : Function.Injective ids) :
    (initial ids).Inv [] where
  lin := Linearization.nil
  final := rfl
  lt_length _ hMem := by cases hMem
  executed_lt _ hMem := by cases hMem
  ids := hIds
  idle _ _ := rfl
  pending _ _ hRequest := by cases hRequest
  distinct _ _ _ _ hRequest := by cases hRequest

/- What the server knows about a request that starts. -/
theorem Inv.requestOk_begin
    {w : World n}
    {done : Done}
    (hInv : w.Inv done)
    {c : Fin n}
    (hIdle : (w.clerks c).request = none)
    (op : Op) :
    RequestOk w.server w.executed done
      ((w.clerks c).begin w.history.length op) {
        call := w.history.length
        op := op
        opstate := (w.clerks c).opstate } := by
  have hOpstate := hInv.idle c hIdle
  have hNew : Unperformed done w.history.length := by
    intro d hMem
    exact Nat.ne_of_lt (hInv.lt_length d hMem)
  have hFresh : w.history.length ∉ w.executed := by
    intro hMem
    exact Nat.lt_irrefl _ (hInv.executed_lt _ hMem)
  cases op with
  | get key => exact ⟨hOpstate, hNew⟩
  | put key value =>
      exact ⟨hOpstate, Or.inl ⟨hFresh, hNew⟩⟩
  | append key value =>
      exact ⟨rfl, Or.inl ⟨hOpstate, hNew⟩⟩

theorem Inv.invoke
    {w : World n}
    {done : Done}
    (hInv : w.Inv done)
    {c : Fin n}
    (hIdle : (w.clerks c).request = none)
    (op : Op) :
    (w.invoke c op).Inv done := by
  have hLength :
      (w.invoke c op).history.length =
        w.history.length + 1 := by
    simp [World.invoke]
  have hSelf :
      (w.invoke c op).clerks c =
        (w.clerks c).begin w.history.length op := by
    simp [World.invoke]
  have hOther : ∀ c', c' ≠ c →
      (w.invoke c op).clerks c' = w.clerks c' := by
    intro c' hC
    simp [World.invoke, hC]
  have hOld : ∀ c' request,
      (w.clerks c').request = some request →
      request.call ≠ w.history.length := by
    intro c' request hRequest
    have hPending := (hInv.pending c' request hRequest).1
    exact Nat.ne_of_lt hPending.lt_length
  have hBegun : ∀ request,
      ((w.invoke c op).clerks c).request = some request →
      request = {
        call := w.history.length
        op := op
        opstate := (w.clerks c).opstate } := by
    intro request hRequest
    rw [hSelf] at hRequest
    exact (Option.some.inj hRequest).symm
  constructor
  · apply hInv.lin.invoke
    intro d hMem
    exact Nat.ne_of_lt (hInv.lt_length d hMem)
  · exact hInv.final
  · intro d hMem
    rw [hLength]
    exact Nat.lt_succ_of_lt (hInv.lt_length d hMem)
  · intro call hMem
    rw [hLength]
    exact Nat.lt_succ_of_lt (hInv.executed_lt call hMem)
  · intro c₁ c₂ hSame
    have hId : ∀ c',
        ((w.invoke c op).clerks c').id =
          (w.clerks c').id := by
      intro c'
      by_cases hC : c' = c
      · rw [hC, hSelf]
        rfl
      · rw [hOther c' hC]
    simp only [hId] at hSame
    exact hInv.ids hSame
  · intro c' hNone
    by_cases hC : c' = c
    · rw [hC, hSelf] at hNone
      cases hNone
    · rw [hOther c' hC] at hNone ⊢
      exact hInv.idle c' hNone
  · intro c' request hRequest
    by_cases hC : c' = c
    · subst hC
      rw [hBegun request hRequest, hSelf]
      refine ⟨⟨?_, ?_, ?_⟩, hInv.requestOk_begin hIdle op⟩
      · exact List.mem_append_right _
          (List.mem_singleton.mpr rfl)
      · -- No answer carries the number of a new call.
        intro value hMem
        rcases List.mem_append.mp hMem with hMem | hMem
        · rcases hInv.lin.answered _ value hMem with
            ⟨d, hDone, hId, _⟩
          have hLt := hInv.lt_length d hDone
          dsimp only at hId
          omega
        · cases List.mem_singleton.mp hMem
      · rw [hLength]
        exact Nat.lt_succ_self _
    · rw [hOther c' hC] at hRequest ⊢
      rcases hInv.pending c' request hRequest with
        ⟨hPending, hOk⟩
      refine ⟨hPending.snoc ?_, hOk⟩
      intro value hEq
      cases hEq
  · intro c₁ c₂ request₁ request₂ hReq₁ hReq₂ hCall
    by_cases hC₁ : c₁ = c
    · by_cases hC₂ : c₂ = c
      · rw [hC₁, hC₂]
      · rw [hC₁] at hReq₁
        rw [hOther c₂ hC₂] at hReq₂
        rw [hBegun request₁ hReq₁] at hCall
        exact absurd hCall.symm (hOld c₂ request₂ hReq₂)
    · rw [hOther c₁ hC₁] at hReq₁
      by_cases hC₂ : c₂ = c
      · rw [hC₂] at hReq₂
        rw [hBegun request₂ hReq₂] at hCall
        exact absurd hCall (hOld c₁ request₁ hReq₁)
      · rw [hOther c₂ hC₂] at hReq₂
        exact hInv.distinct c₁ c₂ request₁ request₂ hReq₁
          hReq₂ hCall

/- The clerks after an execution. -/
theorem execute_clerks
    (w : World n)
    (c : Fin n)
    (request : Request)
    (answered : Bool)
    (c' : Fin n) :
    (w.execute c request answered).clerks c' =
      if c' = c ∧ answered = true then
        { w.clerks c with request := none }
      else
        w.clerks c' := by
  cases answered with
  | false => simp [World.execute]
  | true =>
      by_cases hC : c' = c
      · subst hC
        simp [World.execute]
      · simp [World.execute, hC]

theorem execute_id
    (w : World n)
    (c : Fin n)
    (request : Request)
    (answered : Bool)
    (c' : Fin n) :
    ((w.execute c request answered).clerks c').id =
      (w.clerks c').id := by
  rw [execute_clerks]
  split
  · next hC => rw [hC.1]
  · rfl

/- A request that is still pending was pending before. -/
theorem execute_request
    {w : World n}
    {c c' : Fin n}
    {request request' : Request}
    {answered : Bool}
    (hRequest :
      ((w.execute c request answered).clerks c').request =
        some request') :
    (w.clerks c').request = some request' ∧
      (w.execute c request answered).clerks c' =
        w.clerks c' ∧
      (c' = c → answered = false) := by
  rw [execute_clerks] at hRequest ⊢
  split at hRequest
  · cases hRequest
  · next hC =>
      refine ⟨hRequest, if_neg hC, ?_⟩
      intro hEq
      exact Bool.eq_false_iff.mpr fun hTrue =>
        hC ⟨hEq, hTrue⟩

theorem Inv.execute
    {w : World n}
    {done : Done}
    (hInv : w.Inv done)
    {c : Fin n}
    {request : Request}
    (hRequest : (w.clerks c).request = some request)
    {answered : Bool}
    (hKept : putKept w (.execute c answered) = true) :
    ∃ done', (w.execute c request answered).Inv done' := by
  rcases executed_of_request hInv hRequest answered hKept with
    ⟨done', hExec⟩
  have hPending := (hInv.pending c request hRequest).1
  have hLength :
      w.history.length ≤
        (w.execute c request answered).history.length := by
    cases answered <;> simp [World.execute]
  refine ⟨done', ?_, hExec.final, ?_, ?_, ?_, ?_, ?_, ?_⟩
  · cases answered with
    | false => exact hExec.lin
    | true =>
        rcases (hExec.answer rfl).1 with
          ⟨d, hMem, hCall, hValue⟩
        have hLin := hExec.lin.respond hMem
        rw [hCall, hValue] at hLin
        exact hLin
  · intro d hMem
    apply Nat.lt_of_lt_of_le _ hLength
    rcases hExec.adds d hMem with hOld | hCall
    · exact hInv.lt_length d hOld
    · rw [hCall]
      exact hPending.lt_length
  · intro call hMem
    apply Nat.lt_of_lt_of_le _ hLength
    rcases List.mem_append.mp hMem with hOld | hCall
    · exact hInv.executed_lt call hOld
    · rw [List.mem_singleton.mp hCall]
      exact hPending.lt_length
  · intro c₁ c₂ hSame
    simp only [execute_id] at hSame
    exact hInv.ids hSame
  · intro c' hNone
    rw [execute_clerks] at hNone ⊢
    split at hNone
    · next hC =>
        rw [if_pos hC]
        exact (hExec.answer hC.2).2
    · next hC =>
        rw [if_neg hC]
        have hNe : c' ≠ c := by
          intro hEq
          rw [hEq, hRequest] at hNone
          cases hNone
        have hOthers := hExec.others (w.clerks c').id
          (fun hEq => hNe (hInv.ids hEq))
        exact hOthers.1.trans (hInv.idle c' hNone)
  · intro c' request' hRequest'
    rcases execute_request hRequest' with
      ⟨hOld, hSame, hLost⟩
    rcases hInv.pending c' request' hOld with
      ⟨hPending', hOk⟩
    rw [hSame]
    by_cases hC : c' = c
    · subst hC
      rw [hRequest] at hOld
      cases hOld
      have hFalse := hLost rfl
      subst hFalse
      exact ⟨hPending', hExec.open_ rfl⟩
    · have hCall : request.call ≠ request'.call := by
        intro hEq
        exact hC (hInv.distinct c c' request request'
          hRequest hOld hEq).symm
      have hOthers := hExec.others (w.clerks c').id
        (fun hEq => hC (hInv.ids hEq))
      constructor
      · cases answered with
        | false => exact hPending'
        | true =>
            apply hPending'.snoc
            intro value hEq
            injection hEq with hId
            exact hCall hId
      · apply hOk.frame hOthers.1 hOthers.2
        · change request'.call ∈
            w.executed ++ [request.call] ↔ _
          rw [List.mem_append, List.mem_singleton]
          exact or_iff_left (Ne.symm hCall)
        · exact hExec.keeps
        · intro d hMem
          rcases hExec.adds d hMem with hMem' | hEq
          · exact Or.inl hMem'
          · right
            rw [hEq]
            exact hCall
  · intro c₁ c₂ request₁ request₂ hReq₁ hReq₂ hCall
    exact hInv.distinct c₁ c₂ request₁ request₂
      (execute_request hReq₁).1
      (execute_request hReq₂).1 hCall

theorem Inv.step
    {w w' : World n}
    {done : Done}
    (hInv : w.Inv done)
    {a : Action n}
    (hKept : putKept w a = true)
    (hStep : World.step a w = some w') :
    ∃ done', w'.Inv done' := by
  cases a with
  | invoke c op =>
      simp only [World.step] at hStep
      split at hStep
      · next hIdle =>
          cases hStep
          exact ⟨done, hInv.invoke hIdle op⟩
      · cases hStep
  | lost c =>
      simp only [World.step] at hStep
      split at hStep
      · cases hStep
      · cases hStep
        exact ⟨done, hInv⟩
  | execute c answered =>
      simp only [World.step] at hStep
      split at hStep
      · cases hStep
      · next request hRequest =>
          cases hStep
          exact hInv.execute hRequest hKept

theorem exists_inv
    {w : World n}
    (hReach : (system n).Reachable
      (fun w a => putKept w a = true) w) :
    ∃ done, w.Inv done := by
  refine System.Reachable.induct
    (P := fun w => ∃ done, World.Inv w done) ?_ ?_ hReach
  · rintro w₀ ⟨ids, hIds, rfl⟩
    exact ⟨[], inv_initial hIds⟩
  · rintro w₁ a w₂ _ ⟨done, hInv⟩ hOk hStep
    exact hInv.step hOk hStep

end World

------------------------------------------------------------
-- Linearizability
------------------------------------------------------------

/-
  In every run in which a repeated Put finds its own value
  still in place, the history is linearizable.
-/
theorem linearizable
    {n : Nat}
    {w : World n}
    (hReach : (system n).Reachable
      (fun w a => putKept w a = true) w) :
    Linearizable mapObject w.history := by
  rcases World.exists_inv hReach with ⟨done, hInv⟩
  exact ⟨done, hInv.lin⟩

/- Two clerks, with ids 0 and 1. -/
def twoClerks : World 2 :=
  World.initial fun c => c.val

theorem twoClerks_init : (system 2).init twoClerks := by
  refine ⟨fun c => c.val, ?_, rfl⟩
  intro c c' hEq
  exact Fin.ext (Int.ofNat.inj hEq)

/- Clerk 0 puts, the reply is lost, and clerk 1 reads it. -/
def lostPut : List (Action 2) :=
  [.invoke 0 (.put "x" "1"), .execute 0 false,
    .invoke 1 (.get "x"), .execute 1 true]

/- Clerk 0 sends its request again before any other write. -/
theorem linearizable_repeated_put :
    ∃ w,
      (system 2).Reachable
        (fun w a => putKept w a = true) w ∧
      w.history =
        [.invoke 0 (.put "x" "1"), .invoke 1 (.get "x"),
          .respond 1 "1", .respond 0 ""] ∧
      Linearizable mapObject w.history := by
  have hExec :
      ((system 2).execOk putKept
        (lostPut ++ [.execute 0 true]) twoClerks).any
          (fun w => w.history =
            [.invoke 0 (.put "x" "1"), .invoke 1 (.get "x"),
              .respond 1 "1", .respond 0 ""]) = true := by
    decide
  rcases System.exists_run_of_execOk hExec with
    ⟨w, hRun, hHistory⟩
  have hReach :=
    (System.Reachable.init twoClerks_init).trans hRun
  exact ⟨w, hReach, of_decide_eq_true hHistory,
    linearizable hReach⟩

/- Clerk 1 puts in between, and reads the old value again. -/
def stalePut : List (Action 2) :=
  lostPut ++
    [.invoke 1 (.put "x" "2"), .execute 1 true,
      .execute 0 true,
      .invoke 1 (.get "x"), .execute 1 true]

/- What the two clerks have seen after that. -/
def staleHistory : List (CallEvent Op String) :=
  [.invoke 0 (.put "x" "1"),
    .invoke 1 (.get "x"), .respond 1 "1",
    .invoke 3 (.put "x" "2"), .respond 3 "",
    .respond 0 "",
    .invoke 6 (.get "x"), .respond 6 "1"]

/-
  The first Get forces the Put of "1" before it, real time
  the Put of "2" after it and before the last Get.
-/
theorem staleHistory_not_linearizable :
    ¬ Linearizable mapObject staleHistory := by
  rintro ⟨done, hLin⟩
  let calls : List (Performed Op String) :=
    [⟨0, .put "x" "1", ""⟩, ⟨1, .get "x", "1"⟩,
      ⟨3, .put "x" "2", ""⟩, ⟨6, .get "x", "1"⟩]
  have hPerm : done.Perm calls := by
    apply hLin.perm_calls
    · decide
    · decide
    · intro id op hMem
      simp only [staleHistory, List.mem_cons,
        CallEvent.invoke.injEq, reduceCtorEq, false_or,
        List.not_mem_nil, or_false] at hMem
      rcases hMem with h | h | h | h <;>
        simp [calls, h]
  have hNone :
      ∀ done ∈ calls.permutations',
        ¬ (mapObject.Legal done ∧
          done.Pairwise fun d d' =>
            respondsBefore d'.id d.id staleHistory =
              false) := by
    decide
  exact hNone done (List.mem_permutations'.mpr hPerm)
    ⟨hLin.legal, hLin.realTime⟩

/- A repeated Put undoes a later one. -/
theorem put_repeated :
    ¬ ∀ (n : Nat) (w : World n),
      (system n).Reachable System.always w →
      Linearizable mapObject w.history := by
  intro hAll
  have hExec :
      ((system 2).exec stalePut twoClerks).any
        (fun w => w.history = staleHistory) = true := by
    decide
  rcases System.exists_run_of_exec hExec with
    ⟨w, hRun, hHistory⟩
  have hReach :=
    (System.Reachable.init twoClerks_init).trans hRun
  have hLin := hAll 2 w hReach
  rw [of_decide_eq_true hHistory] at hLin
  exact staleHistory_not_linearizable hLin

end Kvsrv

end RaftLab
