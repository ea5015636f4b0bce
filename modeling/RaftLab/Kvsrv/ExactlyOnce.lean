import RaftLab.Kvsrv.Linearizability

/-
  Append is applied once.

  The server makes a write for every execution of a Put, and
  for an execution of an Append whose opstate is the one it
  expects. The writes are recorded next to a run, and the map
  is what they leave. An Append that was answered is among
  them once, and its answer is the value before that write,
  whatever Gets and Puts the clerk and others have called.

  Main declarations:
    * `Kvsrv.KVServer.writes`, `Kvsrv.writeSystem`
    * `Kvsrv.AppliedOnce`, `Kvsrv.World.Writes`
    * `Kvsrv.append_exactly_once`
-/

------------------------------------------------------------
-- Writes
------------------------------------------------------------

namespace RaftLab

namespace Kvsrv

/- Whether the handler gets to its write of the map. -/
def KVServer.writes
    (kv : KVServer)
    (id : Int)
    (opstate : Bool) :
    Op → Bool
| .get _ => false
| .put _ _ => true
| .append _ _ => decide (kv.cliMap id = opstate)

/- The writes so far: which call, and what it writes. -/
abbrev WriteLog : Type := List (Nat × Op)

def recordWrite
    {n : Nat}
    (w : World n)
    (a : Action n)
    (_w' : World n)
    (log : WriteLog) : WriteLog :=
  match a with
  | .execute c _ =>
      match (w.clerks c).request with
      | some request =>
          if w.server.writes (w.clerks c).id request.opstate
              request.op then
            log ++ [(request.call, request.op)]
          else
            log
      | none => log
  | _ => log

def writeSystem (n : Nat) :
    System (World n × WriteLog) (Action n) :=
  (system n).withHistory [] recordWrite

/- The map that the writes leave. -/
def replay (log : WriteLog) : String → String :=
  log.foldl (fun mp entry => (mapObject.apply mp entry.2).1)
    mapObject.init

theorem replay_snoc
    (log : WriteLog)
    (entry : Nat × Op) :
    replay (log ++ [entry]) =
      (mapObject.apply (replay log) entry.2).1 := by
  unfold replay
  rw [List.foldl_append]
  rfl

def Unwritten (log : WriteLog) (call : Nat) : Prop :=
  ∀ entry ∈ log, entry.1 ≠ call

/-
  The call is among the writes once, and `before` is the value
  of its key right before.
-/
def AppliedOnce
    (log : WriteLog)
    (call : Nat)
    (key value before : String) : Prop :=
  ∃ first rest,
    log = first ++ (call, .append key value) :: rest ∧
    Unwritten first call ∧
    Unwritten rest call ∧
    replay first key = before

theorem Unwritten.snoc
    {log : WriteLog}
    {call : Nat}
    (hUnwritten : Unwritten log call)
    {entry : Nat × Op}
    (hOther : entry.1 ≠ call) :
    Unwritten (log ++ [entry]) call := by
  intro entry' hMem
  rcases List.mem_append.mp hMem with hOld | hNew
  · exact hUnwritten entry' hOld
  · rw [List.mem_singleton.mp hNew]
    exact hOther

theorem Unwritten.count_eq_zero
    {log : WriteLog}
    {call : Nat}
    (hUnwritten : Unwritten log call) :
    (log.map Prod.fst).count call = 0 := by
  apply List.count_eq_zero_of_not_mem
  intro hMem
  rcases List.mem_map.mp hMem with ⟨entry, hEntry, hCall⟩
  exact hUnwritten entry hEntry hCall

theorem AppliedOnce.now
    {log : WriteLog}
    {call : Nat}
    (hUnwritten : Unwritten log call)
    (key value : String) :
    AppliedOnce (log ++ [(call, .append key value)]) call key
      value (replay log key) := by
  refine ⟨log, [], rfl, hUnwritten, ?_, rfl⟩
  intro entry hMem
  cases hMem

theorem AppliedOnce.snoc
    {log : WriteLog}
    {call : Nat}
    {key value before : String}
    (hOnce : AppliedOnce log call key value before)
    {entry : Nat × Op}
    (hOther : entry.1 ≠ call) :
    AppliedOnce (log ++ [entry]) call key value before := by
  rcases hOnce with ⟨first, rest, rfl, hFirst, hRest, hValue⟩
  refine ⟨first, rest ++ [entry], ?_, hFirst,
    hRest.snoc hOther, hValue⟩
  rw [List.append_assoc, List.cons_append]

theorem AppliedOnce.count_eq_one
    {log : WriteLog}
    {call : Nat}
    {key value before : String}
    (hOnce : AppliedOnce log call key value before) :
    (log.map Prod.fst).count call = 1 := by
  rcases hOnce with ⟨first, rest, rfl, hFirst, hRest, _⟩
  rw [List.map_append, List.count_append, List.map_cons,
    List.count_cons_self, hFirst.count_eq_zero,
    hRest.count_eq_zero]

------------------------------------------------------------
-- Steps
------------------------------------------------------------

variable {n : Nat}

inductive WorldStep (w : World n) :
    Action n → World n → Prop
  | invoke
      (c : Fin n)
      (op : Op)
      (hIdle : (w.clerks c).request = none) :
      WorldStep w (.invoke c op) (w.invoke c op)
  | lost
      (c : Fin n) :
      WorldStep w (.lost c) w
  | execute
      (c : Fin n)
      (request : Request)
      (answered : Bool)
      (hRequest : (w.clerks c).request = some request) :
      WorldStep w (.execute c answered)
        (w.execute c request answered)

theorem World.step_cases
    {w w' : World n}
    {a : Action n}
    (hStep : World.step a w = some w') :
    WorldStep w a w' := by
  cases a with
  | invoke c op =>
      simp only [World.step] at hStep
      split at hStep
      · next hIdle =>
          cases hStep
          exact .invoke c op hIdle
      · cases hStep
  | lost c =>
      simp only [World.step] at hStep
      split at hStep
      · cases hStep
      · cases hStep
        exact .lost c
  | execute c answered =>
      simp only [World.step] at hStep
      split at hStep
      · cases hStep
      · next request hRequest =>
          cases hStep
          exact .execute c request answered hRequest

------------------------------------------------------------
-- Calls
------------------------------------------------------------

/-
  Calls are numbered by their places in the history, and those
  not answered are the pending requests of the clerks.
-/
structure World.Calls (w : World n) : Prop where
  ids : Function.Injective fun c => (w.clerks c).id
  numbered : ∀ (k call : Nat) (op : Op),
    w.history[k]? = some (.invoke call op) → call = k
  answered_lt : ∀ call value,
    .respond call value ∈ w.history →
    call < w.history.length
  pending : ∀ c request,
    (w.clerks c).request = some request →
    Pending w.history request
  distinct : ∀ c c' request request',
    (w.clerks c).request = some request →
    (w.clerks c').request = some request' →
    request.call = request'.call →
    c = c'
  invoked : ∀ call op,
    .invoke call op ∈ w.history →
    (∃ value, .respond call value ∈ w.history) ∨
      ∃ c request,
        (w.clerks c).request = some request ∧
        request.call = call

namespace World

theorem Calls.initial
    {ids : Fin n → Int}
    (hIds : Function.Injective ids) :
    (World.initial ids).Calls where
  ids := hIds
  numbered _ _ _ hAt := by cases hAt
  answered_lt _ _ hMem := by cases hMem
  pending _ _ hRequest := by cases hRequest
  distinct _ _ _ _ hRequest := by cases hRequest
  invoked _ _ hMem := by cases hMem

/- A number stands for one call. -/
theorem Calls.op_unique
    {w : World n}
    (hCalls : w.Calls)
    {call : Nat}
    {op op' : Op}
    (hMem : .invoke call op ∈ w.history)
    (hMem' : .invoke call op' ∈ w.history) :
    op = op' := by
  rcases List.mem_iff_getElem?.mp hMem with ⟨k, hAt⟩
  rcases List.mem_iff_getElem?.mp hMem' with ⟨k', hAt'⟩
  have hNum := hCalls.numbered k call op hAt
  have hNum' := hCalls.numbered k' call op' hAt'
  rw [← hNum', hNum, hAt] at hAt'
  cases hAt'
  rfl

theorem Calls.invoke
    {w : World n}
    (hCalls : w.Calls)
    {c : Fin n}
    (hIdle : (w.clerks c).request = none)
    (op : Op) :
    (w.invoke c op).Calls := by
  have hLength :
      (w.invoke c op).history.length =
        w.history.length + 1 := by
    simp [World.invoke]
  have hOther : ∀ c', c' ≠ c →
      (w.invoke c op).clerks c' = w.clerks c' := by
    intro c' hC
    simp [World.invoke, hC]
  have hBegun : ∀ request,
      ((w.invoke c op).clerks c).request = some request →
      request.call = w.history.length ∧
        request.op = op := by
    intro request hRequest
    simp only [World.invoke, Function.update_self,
      Clerk.begin, Option.some.injEq] at hRequest
    rw [← hRequest]
    exact ⟨rfl, rfl⟩
  have hOld : ∀ c' request,
      (w.clerks c').request = some request →
      request.call ≠ w.history.length := by
    intro c' request hRequest
    exact Nat.ne_of_lt
      (hCalls.pending c' request hRequest).lt_length
  constructor
  · intro c₁ c₂ hSame
    have hId : ∀ c',
        ((w.invoke c op).clerks c').id =
          (w.clerks c').id := by
      intro c'
      by_cases hC : c' = c
      · rw [hC]
        simp [World.invoke, Clerk.begin]
      · rw [hOther c' hC]
    simp only [hId] at hSame
    exact hCalls.ids hSame
  · intro k call op' hAt
    change (w.history ++ [_])[k]? = _ at hAt
    rcases Nat.lt_or_ge k w.history.length with hLt | hGe
    · rw [List.getElem?_append_left hLt] at hAt
      exact hCalls.numbered k call op' hAt
    · have hK := (List.getElem?_eq_some_iff.mp hAt).1
      rw [List.length_append, List.length_singleton] at hK
      have hEq : k = w.history.length := by omega
      subst hEq
      rw [List.getElem?_append_right hGe,
        Nat.sub_self] at hAt
      cases hAt
      rfl
  · intro call value hMem
    rw [hLength]
    rcases List.mem_append.mp hMem with hBefore | hNew
    · exact Nat.lt_succ_of_lt
        (hCalls.answered_lt call value hBefore)
    · cases List.mem_singleton.mp hNew
  · intro c' request hRequest
    by_cases hC : c' = c
    · subst hC
      rcases hBegun request hRequest with ⟨hCall, hOp⟩
      refine ⟨?_, ?_, ?_⟩
      · rw [hCall, hOp]
        exact List.mem_append_right _
          (List.mem_singleton.mpr rfl)
      · intro value hMem
        rcases List.mem_append.mp hMem with hBefore | hNew
        · have hLt := hCalls.answered_lt _ value hBefore
          omega
        · cases List.mem_singleton.mp hNew
      · omega
    · rw [hOther c' hC] at hRequest
      apply (hCalls.pending c' request hRequest).snoc
      intro value hEq
      cases hEq
  · intro c₁ c₂ request₁ request₂ hReq₁ hReq₂ hCall
    by_cases hC₁ : c₁ = c
    · by_cases hC₂ : c₂ = c
      · rw [hC₁, hC₂]
      · rw [hC₁] at hReq₁
        rw [hOther c₂ hC₂] at hReq₂
        have hNew := (hBegun request₁ hReq₁).1
        have hNot := hOld c₂ request₂ hReq₂
        omega
    · rw [hOther c₁ hC₁] at hReq₁
      by_cases hC₂ : c₂ = c
      · rw [hC₂] at hReq₂
        have hNew := (hBegun request₂ hReq₂).1
        have hNot := hOld c₁ request₁ hReq₁
        omega
      · rw [hOther c₂ hC₂] at hReq₂
        exact hCalls.distinct c₁ c₂ request₁ request₂ hReq₁
          hReq₂ hCall
  · intro call op' hMem
    rcases List.mem_append.mp hMem with hBefore | hNew
    · rcases hCalls.invoked call op' hBefore with
        ⟨value, hAnswer⟩ | ⟨c', request, hRequest, hCall⟩
      · exact Or.inl ⟨value, List.mem_append_left _ hAnswer⟩
      · have hC : c' ≠ c := by
          intro hEq
          rw [hEq, hIdle] at hRequest
          cases hRequest
        refine Or.inr ⟨c', request, ?_, hCall⟩
        rw [hOther c' hC]
        exact hRequest
    · cases List.mem_singleton.mp hNew
      right
      refine ⟨c, ⟨w.history.length, op,
        (w.clerks c).opstate⟩, ?_, rfl⟩
      simp only [World.invoke, Function.update_self,
        Clerk.begin]

theorem Calls.execute
    {w : World n}
    (hCalls : w.Calls)
    {c : Fin n}
    {request : Request}
    (hRequest : (w.clerks c).request = some request)
    (answered : Bool) :
    (w.execute c request answered).Calls := by
  have hOwn := hCalls.pending c request hRequest
  -- At most one answer is added, to this request.
  have hHistory :
      (w.execute c request answered).history = w.history ∨
        (answered = true ∧ ∃ value,
          (w.execute c request answered).history =
            w.history ++ [.respond request.call value]) := by
    cases answered with
    | false => exact Or.inl rfl
    | true => exact Or.inr ⟨rfl, _, rfl⟩
  constructor
  · intro c₁ c₂ hSame
    simp only [execute_id] at hSame
    exact hCalls.ids hSame
  · intro k call op hAt
    rcases hHistory with hSame | ⟨_, value, hMore⟩
    · rw [hSame] at hAt
      exact hCalls.numbered k call op hAt
    · rw [hMore] at hAt
      rcases Nat.lt_or_ge k w.history.length with hLt | hGe
      · rw [List.getElem?_append_left hLt] at hAt
        exact hCalls.numbered k call op hAt
      · rw [List.getElem?_append_right hGe] at hAt
        cases List.mem_singleton.mp (List.mem_of_getElem? hAt)
  · intro call value hMem
    rcases hHistory with hSame | ⟨_, value', hMore⟩
    · rw [hSame] at hMem ⊢
      exact hCalls.answered_lt call value hMem
    · rw [hMore] at hMem ⊢
      rw [List.length_append, List.length_singleton]
      rcases List.mem_append.mp hMem with hBefore | hNew
      · exact Nat.lt_succ_of_lt
          (hCalls.answered_lt call value hBefore)
      · cases List.mem_singleton.mp hNew
        exact Nat.lt_succ_of_lt hOwn.lt_length
  · intro c' request' hRequest'
    rcases execute_request hRequest' with
      ⟨hOld, _, hLost⟩
    have hPending := hCalls.pending c' request' hOld
    rcases hHistory with hSame | ⟨hAnswered, value, hMore⟩
    · rw [hSame]
      exact hPending
    · rw [hMore]
      apply hPending.snoc
      intro value' hEq
      injection hEq with hCall
      have hC := hCalls.distinct c' c request' request hOld
        hRequest hCall.symm
      rw [hLost hC] at hAnswered
      cases hAnswered
  · intro c₁ c₂ request₁ request₂ hReq₁ hReq₂ hCall
    exact hCalls.distinct c₁ c₂ request₁ request₂
      (execute_request hReq₁).1 (execute_request hReq₂).1
      hCall
  · intro call op hMem
    have hBefore : .invoke call op ∈ w.history := by
      rcases hHistory with hSame | ⟨_, value, hMore⟩
      · rw [hSame] at hMem
        exact hMem
      · rw [hMore] at hMem
        rcases List.mem_append.mp hMem with hOld | hNew
        · exact hOld
        · cases List.mem_singleton.mp hNew
    rcases hCalls.invoked call op hBefore with
      ⟨value, hAnswer⟩ | ⟨c', request', hRequest', hCall⟩
    · left
      refine ⟨value, ?_⟩
      rcases hHistory with hSame | ⟨_, value', hMore⟩
      · rw [hSame]
        exact hAnswer
      · rw [hMore]
        exact List.mem_append_left _ hAnswer
    · by_cases hAnswered : c' = c ∧ answered = true
      · -- It has just been answered.
        left
        rcases hAnswered with ⟨rfl, rfl⟩
        rw [hRequest] at hRequest'
        cases hRequest'
        rw [← hCall]
        exact ⟨_, List.mem_append_right _
          (List.mem_singleton.mpr rfl)⟩
      · right
        refine ⟨c', request', ?_, hCall⟩
        rw [execute_clerks, if_neg hAnswered]
        exact hRequest'

end World

------------------------------------------------------------
-- What The Server Knows
------------------------------------------------------------

/-
  The clerk's entry of cliMap equals its opstate, except
  before the write of an Append.
-/
def Opstate
    (kv : KVServer)
    (log : WriteLog)
    (ck : Clerk)
    (request : Request) : Prop :=
  match request.op with
  | .append key value =>
      ck.opstate = !request.opstate ∧
        (kv.cliMap ck.id = request.opstate ∧
            Unwritten log request.call ∨
          kv.cliMap ck.id = ck.opstate ∧
            AppliedOnce log request.call key value
              (kv.dupMap ck.id))
  | _ => kv.cliMap ck.id = ck.opstate

/- Other writes do not touch what is known of a request. -/
theorem Opstate.frame
    {kv kv' : KVServer}
    {log log' : WriteLog}
    {ck : Clerk}
    {request : Request}
    (hOk : Opstate kv log ck request)
    (hCliMap : kv'.cliMap ck.id = kv.cliMap ck.id)
    (hDupMap : kv'.dupMap ck.id = kv.dupMap ck.id)
    (hLog : log' = log ∨
      ∃ entry : Nat × Op,
        log' = log ++ [entry] ∧ entry.1 ≠ request.call) :
    Opstate kv' log' ck request := by
  unfold Opstate at hOk ⊢
  rw [hCliMap, hDupMap]
  rcases hLog with rfl | ⟨entry, rfl, hOther⟩
  · exact hOk
  · cases hOp : request.op with
    | append key value =>
        simp only [hOp] at hOk ⊢
        rcases hOk with
          ⟨hFlipped, ⟨hState, hNew⟩ | ⟨hState, hOnce⟩⟩
        · exact ⟨hFlipped,
            Or.inl ⟨hState, hNew.snoc hOther⟩⟩
        · exact ⟨hFlipped,
            Or.inr ⟨hState, hOnce.snoc hOther⟩⟩
    | get key =>
        simp only [hOp] at hOk ⊢
        exact hOk
    | put key value =>
        simp only [hOp] at hOk ⊢
        exact hOk

/- What an execution does to the server and the writes. -/
structure Wrote
    (kv : KVServer)
    (log : WriteLog)
    (ck : Clerk)
    (request : Request)
    (log' : WriteLog) : Prop where
  mp : replay log' =
    (kv.handle ck.id request.opstate request.op).1.mp
  log : log' = log ∨
    log' = log ++ [(request.call, request.op)]
  others : ∀ id, id ≠ ck.id →
    let kv' :=
      (kv.handle ck.id request.opstate request.op).1
    kv'.cliMap id = kv.cliMap id ∧
      kv'.dupMap id = kv.dupMap id
  opstate :
    (kv.handle ck.id request.opstate request.op).1.cliMap
      ck.id = ck.opstate
  knows : Opstate
    (kv.handle ck.id request.opstate request.op).1 log' ck
      request
  answer : ∀ key value,
    request.op = .append key value →
    AppliedOnce log' request.call key value
      (kv.handle ck.id request.opstate request.op).2

section Execution

variable {kv : KVServer}
variable {log : WriteLog}
variable {ck : Clerk}
variable {request : Request}

/- The first execution of an Append. -/
theorem Wrote.append_first
    {key value : String}
    (hOp : request.op = .append key value)
    (hMp : replay log = kv.mp)
    (hFlipped : ck.opstate = !request.opstate)
    (hState : kv.cliMap ck.id = request.opstate)
    (hNew : Unwritten log request.call) :
    Wrote kv log ck request
      (log ++ [(request.call, request.op)]) := by
  have hResult :
      kv.handle ck.id request.opstate request.op =
        ({ mp := Function.update kv.mp key
             (kv.mp key ++ value)
           cliMap := Function.update kv.cliMap ck.id
             (!kv.cliMap ck.id)
           dupMap := Function.update kv.dupMap ck.id
             (kv.mp key) }, kv.mp key) := by
    simp [hOp, KVServer.handle, KVServer.append, hState]
  have hOnce := AppliedOnce.now hNew key value
  rw [hMp] at hOnce
  constructor
  · rw [replay_snoc, hResult, hMp, hOp]
    rfl
  · exact Or.inr rfl
  · intro id hId
    rw [hResult]
    simp [hId]
  · rw [hResult]
    simp [hState, hFlipped]
  · rw [hResult]
    simp only [Opstate, hOp, Function.update_self]
    refine ⟨hFlipped, Or.inr ⟨?_, hOnce⟩⟩
    rw [hState, hFlipped]
  · intro key' value' hAppend
    rw [hOp] at hAppend
    cases hAppend
    rw [hResult, hOp]
    exact hOnce

/- A later one. -/
theorem Wrote.append_again
    {key value : String}
    (hOp : request.op = .append key value)
    (hMp : replay log = kv.mp)
    (hFlipped : ck.opstate = !request.opstate)
    (hState : kv.cliMap ck.id = ck.opstate)
    (hOnce : AppliedOnce log request.call key value
      (kv.dupMap ck.id)) :
    Wrote kv log ck request log := by
  have hNe : kv.cliMap ck.id ≠ request.opstate := by
    rw [hState, hFlipped]
    simp
  have hResult :
      kv.handle ck.id request.opstate request.op =
        (kv, kv.dupMap ck.id) := by
    simp [hOp, KVServer.handle, KVServer.append, hNe]
  constructor
  · rw [hResult]
    exact hMp
  · exact Or.inl rfl
  · intro id _
    rw [hResult]
    exact ⟨rfl, rfl⟩
  · rw [hResult]
    exact hState
  · rw [hResult]
    simp only [Opstate, hOp]
    exact ⟨hFlipped, Or.inr ⟨hState, hOnce⟩⟩
  · intro key' value' hAppend
    rw [hOp] at hAppend
    cases hAppend
    rw [hResult]
    exact hOnce

/- The writes after an execution are those recorded. -/
theorem wrote_of_request
    (hMp : replay log = kv.mp)
    (hOk : Opstate kv log ck request) :
    Wrote kv log ck request
      (if kv.writes ck.id request.opstate request.op then
        log ++ [(request.call, request.op)]
      else
        log) := by
  cases hOp : request.op with
  | get key =>
      simp only [Opstate, hOp] at hOk
      rw [if_neg (by simp [KVServer.writes])]
      refine ⟨?_, Or.inl rfl, ?_, ?_, ?_, ?_⟩
      · rw [hOp]
        exact hMp
      · intro id _
        rw [hOp]
        exact ⟨rfl, rfl⟩
      · rw [hOp]
        exact hOk
      · simp only [Opstate, hOp]
        exact hOk
      · intro key' value' hAppend
        rw [hOp] at hAppend
        cases hAppend
  | put key value =>
      simp only [Opstate, hOp] at hOk
      rw [if_pos (by simp [KVServer.writes]), ← hOp]
      refine ⟨?_, Or.inr rfl, ?_, ?_, ?_, ?_⟩
      · rw [replay_snoc, hMp, hOp]
        rfl
      · intro id _
        rw [hOp]
        exact ⟨rfl, rfl⟩
      · rw [hOp]
        exact hOk
      · simp only [Opstate, hOp]
        exact hOk
      · intro key' value' hAppend
        rw [hOp] at hAppend
        cases hAppend
  | append key value =>
      simp only [Opstate, hOp] at hOk
      rcases hOk with
        ⟨hFlipped, ⟨hState, hNew⟩ | ⟨hState, hOnce⟩⟩
      · rw [if_pos (by simp [KVServer.writes, hState]), ← hOp]
        exact Wrote.append_first hOp hMp hFlipped hState hNew
      · rw [if_neg (by
          simp [KVServer.writes, hState, hFlipped])]
        exact Wrote.append_again hOp hMp hFlipped hState hOnce

end Execution

------------------------------------------------------------
-- Runs
------------------------------------------------------------

structure World.Writes
    (w : World n)
    (log : WriteLog) : Prop where
  calls : w.Calls
  mp : replay log = w.server.mp
  known : ∀ entry ∈ log, entry.1 < w.history.length
  idle : ∀ c,
    (w.clerks c).request = none →
    w.server.cliMap (w.clerks c).id = (w.clerks c).opstate
  pending : ∀ c request,
    (w.clerks c).request = some request →
    Opstate w.server log (w.clerks c) request
  returned : ∀ call key value reply,
    .invoke call (.append key value) ∈ w.history →
    .respond call reply ∈ w.history →
    AppliedOnce log call key value reply

namespace World

theorem Writes.invoke
    {w : World n}
    {log : WriteLog}
    (hWrites : w.Writes log)
    {c : Fin n}
    (hIdle : (w.clerks c).request = none)
    (op : Op) :
    (w.invoke c op).Writes log := by
  have hCalls := hWrites.calls
  have hOpstate := hWrites.idle c hIdle
  have hOther : ∀ c', c' ≠ c →
      (w.invoke c op).clerks c' = w.clerks c' := by
    intro c' hC
    simp [World.invoke, hC]
  have hSelf :
      (w.invoke c op).clerks c =
        (w.clerks c).begin w.history.length op := by
    simp [World.invoke]
  constructor
  · exact hCalls.invoke hIdle op
  · exact hWrites.mp
  · intro entry hMem
    have hLt := hWrites.known entry hMem
    simp only [World.invoke, List.length_append,
      List.length_singleton]
    omega
  · intro c' hNone
    by_cases hC : c' = c
    · rw [hC, hSelf] at hNone
      cases hNone
    · rw [hOther c' hC] at hNone ⊢
      exact hWrites.idle c' hNone
  · intro c' request hRequest
    by_cases hC : c' = c
    · subst hC
      rw [hSelf] at hRequest ⊢
      cases hRequest
      cases op with
      | get key => exact hOpstate
      | put key value => exact hOpstate
      | append key value =>
          refine ⟨rfl, Or.inl ⟨hOpstate, ?_⟩⟩
          intro entry hMem
          exact Nat.ne_of_lt (hWrites.known entry hMem)
    · rw [hOther c' hC] at hRequest ⊢
      exact hWrites.pending c' request hRequest
  · intro call key value reply hInvoked hAnswer
    -- The new call has no answer yet.
    rcases List.mem_append.mp hAnswer with hAnswer | hNone
    · rcases List.mem_append.mp hInvoked with hOld | hNew
      · exact hWrites.returned call key value reply hOld
          hAnswer
      · have hLt := hCalls.answered_lt call reply hAnswer
        have hEq := List.mem_singleton.mp hNew
        injection hEq with hCall
        omega
    · cases List.mem_singleton.mp hNone

theorem Writes.execute
    {w : World n}
    {log : WriteLog}
    (hWrites : w.Writes log)
    {c : Fin n}
    {request : Request}
    (hRequest : (w.clerks c).request = some request)
    (answered : Bool)
    {log' : WriteLog}
    (hWrote :
      Wrote w.server log (w.clerks c) request log') :
    (w.execute c request answered).Writes log' := by
  have hCalls := hWrites.calls
  have hOwn := hCalls.pending c request hRequest
  have hLength :
      w.history.length ≤
        (w.execute c request answered).history.length := by
    cases answered <;> simp [World.execute]
  constructor
  · exact hCalls.execute hRequest answered
  · exact hWrote.mp
  · intro entry hMem
    apply Nat.lt_of_lt_of_le _ hLength
    rcases hWrote.log with rfl | rfl
    · exact hWrites.known entry hMem
    · rcases List.mem_append.mp hMem with hOld | hNew
      · exact hWrites.known entry hOld
      · rw [List.mem_singleton.mp hNew]
        exact hOwn.lt_length
  · intro c' hNone
    rw [execute_clerks] at hNone ⊢
    split at hNone
    · next hC =>
        rw [if_pos hC]
        exact hWrote.opstate
    · next hC =>
        rw [if_neg hC]
        have hNe : c' ≠ c := by
          intro hEq
          rw [hEq, hRequest] at hNone
          cases hNone
        have hOthers := hWrote.others (w.clerks c').id
          (fun hEq => hNe (hCalls.ids hEq))
        exact hOthers.1.trans (hWrites.idle c' hNone)
  · intro c' request' hRequest'
    rcases execute_request hRequest' with ⟨hOld, hSame, _⟩
    rw [hSame]
    by_cases hC : c' = c
    · subst hC
      rw [hRequest] at hOld
      cases hOld
      exact hWrote.knows
    · have hOthers := hWrote.others (w.clerks c').id
        (fun hEq => hC (hCalls.ids hEq))
      apply (hWrites.pending c' request' hOld).frame
        hOthers.1 hOthers.2
      rcases hWrote.log with hLog | hLog
      · exact Or.inl hLog
      · refine Or.inr ⟨_, hLog, ?_⟩
        intro hCall
        exact hC (hCalls.distinct c c' request request'
          hRequest hOld hCall).symm
  · intro call key value reply hInvoked hAnswer
    have hBefore : .invoke call (.append key value) ∈
        w.history := by
      cases answered with
      | false => exact hInvoked
      | true =>
          rcases List.mem_append.mp hInvoked with hOld | hNew
          · exact hOld
          · cases List.mem_singleton.mp hNew
    by_cases hCall : call = request.call
    · -- The answer is that of this execution.
      subst hCall
      have hOp := hCalls.op_unique hOwn.invoked hBefore
      cases answered with
      | false =>
          exact absurd hAnswer (hOwn.unanswered reply)
      | true =>
          rcases List.mem_append.mp hAnswer with hOld | hNew
          · exact absurd hOld (hOwn.unanswered reply)
          · cases List.mem_singleton.mp hNew
            exact hWrote.answer key value hOp
    · have hOld : .respond call reply ∈ w.history := by
        cases answered with
        | false => exact hAnswer
        | true =>
            rcases List.mem_append.mp hAnswer with
              hOld | hNew
            · exact hOld
            · have hEq := List.mem_singleton.mp hNew
              injection hEq with hSame
              exact absurd hSame hCall
      have hOnce := hWrites.returned call key value reply
        hBefore hOld
      rcases hWrote.log with rfl | rfl
      · exact hOnce
      · exact hOnce.snoc (Ne.symm hCall)

theorem writes_of_reachable
    {p : World n × WriteLog}
    (hReach : (writeSystem n).Reachable System.always p) :
    p.1.Writes p.2 := by
  refine System.Reachable.induct
    (P := fun p : World n × WriteLog => p.1.Writes p.2)
    ?_ ?_ hReach
  · rintro ⟨w, log⟩ ⟨⟨ids, hIds, hInit⟩, hLog⟩
    dsimp only at hInit hLog
    subst hInit hLog
    constructor
    · exact Calls.initial hIds
    · rfl
    · intro entry hMem
      cases hMem
    · intro c _
      rfl
    · intro c request hRequest
      cases hRequest
    · intro call key value reply hMem
      cases hMem
  · rintro ⟨w, log⟩ a ⟨w', log'⟩ _ hWrites _ hStep
    rcases System.withHistory_step_iff.mp hStep with
      ⟨hNext, hRecord⟩
    dsimp only at hNext hRecord hWrites ⊢
    rw [hRecord]
    cases step_cases hNext with
    | invoke c op hIdle => exact hWrites.invoke hIdle op
    | lost c => exact hWrites
    | execute c request answered hRequest =>
        dsimp only [recordWrite]
        rw [hRequest]
        exact hWrites.execute hRequest answered
          (wrote_of_request hWrites.mp
            (hWrites.pending c request hRequest))

/- A call that is pending has been written once at most. -/
theorem Writes.count_le_one
    {w : World n}
    {log : WriteLog}
    (hWrites : w.Writes log)
    {call : Nat}
    {key value : String}
    (hInvoked :
      .invoke call (.append key value) ∈ w.history) :
    (log.map Prod.fst).count call ≤ 1 := by
  rcases hWrites.calls.invoked call _ hInvoked with
    ⟨reply, hAnswer⟩ | ⟨c, request, hRequest, hCall⟩
  · have hOnce := hWrites.returned call key value reply
      hInvoked hAnswer
    exact le_of_eq hOnce.count_eq_one
  · have hOwn := hWrites.calls.pending c request hRequest
    have hOk := hWrites.pending c request hRequest
    rw [← hCall] at hInvoked
    have hOp := hWrites.calls.op_unique hOwn.invoked hInvoked
    simp only [Opstate, hOp] at hOk
    rw [← hCall]
    rcases hOk.2 with ⟨_, hNew⟩ | ⟨_, hOnce⟩
    · rw [hNew.count_eq_zero]
      exact Nat.zero_le 1
    · exact le_of_eq hOnce.count_eq_one

end World

/-
  In every run the map is what the writes leave, an Append is
  among them at most once, and one that was answered exactly
  once, with the value of its key right before as the answer.
-/
theorem append_exactly_once
    {w : World n}
    {log : WriteLog}
    (hReach : (writeSystem n).Reachable System.always
      (w, log)) :
    w.server.mp = replay log ∧
      ∀ call key value,
        .invoke call (.append key value) ∈ w.history →
        (log.map Prod.fst).count call ≤ 1 ∧
          ∀ reply,
            .respond call reply ∈ w.history →
            AppliedOnce log call key value reply := by
  have hWrites := World.writes_of_reachable hReach
  refine ⟨hWrites.mp.symm, ?_⟩
  intro call key value hInvoked
  refine ⟨hWrites.count_le_one hInvoked, ?_⟩
  intro reply hAnswer
  exact hWrites.returned call key value reply hInvoked hAnswer

/-
  Clerk 0 appends and the reply is lost. Clerk 1 appends to the
  same key, then clerk 0 sends its request again.
-/
def lostAppend {n : Nat} [NeZero n] : List (Action n) :=
  [.invoke 0 (.append "x" "a"), .execute 0 false,
    .invoke 1 (.append "x" "b"), .execute 1 true,
    .lost 0, .execute 0 true]

theorem append_exactly_once_lost :
    ∃ (w : World 2) (log : WriteLog),
      (writeSystem 2).Reachable System.always (w, log) ∧
      w.history =
        [.invoke 0 (.append "x" "a"),
          .invoke 1 (.append "x" "b"),
          .respond 1 "a", .respond 0 ""] ∧
      w.server.mp = replay log ∧
      AppliedOnce log 0 "x" "a" "" := by
  have hExec :
      ((writeSystem 2).exec lostAppend (twoClerks, [])).any
        (fun p => p.1.history =
          [.invoke 0 (.append "x" "a"),
            .invoke 1 (.append "x" "b"),
            .respond 1 "a", .respond 0 ""]) = true := by
    decide
  rcases System.exists_run_of_exec hExec with
    ⟨⟨w, log⟩, hRun, hHistory⟩
  have hInit : (writeSystem 2).init (twoClerks, []) :=
    ⟨twoClerks_init, rfl⟩
  have hReach := (System.Reachable.init hInit).trans hRun
  have hSeen := of_decide_eq_true hHistory
  dsimp only at hSeen
  rcases append_exactly_once hReach with ⟨hMp, hCalls⟩
  refine ⟨w, log, hReach, hSeen, hMp, ?_⟩
  refine (hCalls 0 "x" "a" ?_).2 "" ?_
  · rw [hSeen]
    simp
  · rw [hSeen]
    simp

end Kvsrv

end RaftLab
