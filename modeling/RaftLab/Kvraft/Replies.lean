import RaftLab.Kvraft.Server
import RaftLab.Lib.Transition
import RaftLab.Service.Replies

/-
  Replies of a kvraft server are backed by the log
  (handleNormalRPC and waittingForCommit in
  src/kvraft/server.go).

  One server takes commands and snapshots of one committed
  sequence from applyCh, in any order in which it does not
  end with `log.Fatalf`, while any number of requests are
  answered at once or poll for their entry. The index that
  Start returns and the number from nrand are inputs.

  Main declarations:
    * `Kvraft.KVServer.handleNormalRPC`
    * `Kvraft.KVServer.waittingForCommit`
    * `Kvraft.Serving`, `Kvraft.Serving.system`
    * `Kvraft.Answer.Backed`
    * `Kvraft.replies_backed_by_log`
-/

------------------------------------------------------------
-- Requests And Replies
------------------------------------------------------------

namespace RaftLab

namespace Kvraft

inductive Err where
  | ok
  | notLeader
  | failedToCommit
  | commitTimeout
deriving DecidableEq, Repr

/- GetArgs or PutAppendArgs, with the type of the RPC. -/
structure Request where
  type : OpType
  key : String
  value : String
  id : Int
  reqNum : Int
deriving DecidableEq, Repr

/- The value is set for a Get only. -/
structure Reply where
  err : Err
  value : String
deriving DecidableEq, Repr

def Reply.ofErr (err : Err) : Reply where
  err := err
  value := ""

/- The entry that handleNormalRPC builds. -/
def Request.op (request : Request) (number : Int) : Op where
  type := request.type
  number := number
  key := request.key
  value :=
    match request.type with
    | .get => ""
    | _ => request.value
  reqNum := request.reqNum
  ckId := request.id

/- Answered at once, or ready to be started. -/
inductive Outcome where
  | answered (reply : Reply)
  | start (op : Op)

namespace KVServer

/- The reply on both success paths, with the map as it is. -/
def success (kv : KVServer) (request : Request) : Reply where
  err := .ok
  value :=
    match request.type with
    | .get => (kv.mp request.key).getD ""
    | _ => ""

/- handleNormalRPC up to Start -/
def handleNormalRPC
    (kv : KVServer)
    (number : Int)
    (request : Request) : Outcome :=
  if kv.ckSessions.completed Op.reqNum Op.number
      kv.logRecord request.id request.reqNum then
    .answered (kv.success request)
  else
    .start (request.op number)

/- One round of waittingForCommit: `none` is another round. -/
def waittingForCommit
    (kv : KVServer)
    (op : Op)
    (index : Int)
    (request : Request) : Option Reply :=
  match pollRecord Op.number kv.logRecord kv.lastApplied
      index op with
  | .finished => some (kv.success request)
  | .failed => some (Reply.ofErr .failedToCommit)
  | .again => none

end KVServer

------------------------------------------------------------
-- A Server And Its Handlers
------------------------------------------------------------

/- A handler that polls for the entry it has started. -/
structure Waiting where
  request : Request
  op : Op
  index : Int
deriving DecidableEq, Repr

/- A reply, with lastApplied when it was made. -/
structure Answer where
  request : Request
  reply : Reply
  lastApplied : Int
deriving DecidableEq, Repr

structure Serving where
  kv : KVServer
  waiting : List Waiting
  answers : List Answer

inductive Event where
  -- applyCh delivers the command at index k + 1
  | command (k : Nat) (full : Bool)
  -- applyCh delivers the snapshot of the first k commands
  | snapshot (k : Nat)
  -- a request comes in; `index` is what Start returns
  | call
      (request : Request)
      (number : Int)
      (index : Option Int)
  | poll (i : Nat)
  -- the time is up, or the server is found killed
  | timeout (i : Nat)
  -- killed and started again; the handlers are gone
  | restart

/- What the state after the first `k` commands encodes to. -/
def snapshotAt (committed : List Op) (k : Nat) :
    Option Snapshot :=
  (KVServer.deliver (fun _ => false) (committed.take k)).map
    fun kv => { mp := kv.mp, ckSessions := kv.ckSessions }

namespace Serving

/- A reply is made: the handler returns. -/
def answer
    (s : Serving)
    (request : Request)
    (reply : Reply) : Serving :=
  { s with
    answers := s.answers ++ [{
      request := request
      reply := reply
      lastApplied := s.kv.lastApplied }] }

/- The handler at place `i` is gone. -/
def leave (s : Serving) (i : Nat) : Serving :=
  { s with waiting := s.waiting.eraseIdx i }

def deliver
    (s : Serving)
    (full : Bool)
    (msg : Delivery) : Option Serving :=
  (s.kv.handleApplyMsg full msg).map fun result =>
    { s with kv := result.1 }

def step
    (committed : List Op) :
    Event → Serving → Option Serving
| .command k full, s =>
    committed[k]?.bind fun op =>
      s.deliver full (.command (k + 1) op)
| .snapshot k, s =>
    if k ≤ committed.length then
      (snapshotAt committed k).bind fun snapshot =>
        s.deliver false (.snapshot k snapshot)
    else
      none
| .call request number index, s =>
    match s.kv.handleNormalRPC number request with
    | .answered reply => some (s.answer request reply)
    | .start op =>
        match index with
        | some index => some { s with
            waiting := s.waiting ++ [{
              request := request
              op := op
              index := index }] }
        | none =>
            some (s.answer request (Reply.ofErr .notLeader))
| .poll i, s =>
    s.waiting[i]?.map fun w =>
      match s.kv.waittingForCommit w.op w.index w.request
        with
      | some reply => (s.answer w.request reply).leave i
      | none => s
| .timeout i, s =>
    s.waiting[i]?.map fun w =>
      (s.answer w.request (Reply.ofErr .commitTimeout)).leave i
| .restart, s =>
    some { s with kv := KVServer.start, waiting := [] }

def initial : Serving where
  kv := KVServer.start
  waiting := []
  answers := []

def system (committed : List Op) : System Serving Event where
  init s := s = initial
  step := step committed

end Serving

/-
  Operation numbers are distinct: an entry with the number
  of a new operation is that operation.
-/
def Event.numbered (committed : List Op) : Event → Bool
| .call request number _ =>
    committed.all fun op =>
      op.number ≠ number || op = request.op number
| _ => true

------------------------------------------------------------
-- What A Reply Rests On
------------------------------------------------------------

/-
  The commands up to lastApplied have an entry of the request,
  and the value of a Get is the one after exactly these.
-/
structure Answer.Backed
    (full : Int → Bool)
    (committed : List Op)
    (answer : Answer) : Prop where
  applied :
    0 ≤ answer.lastApplied ∧
      answer.lastApplied ≤ committed.length
  entry :
    ∃ op ∈ committed.take answer.lastApplied.toNat,
      op.ckId = answer.request.id ∧
      op.reqNum = answer.request.reqNum
  value :
    answer.request.type = .get →
    ∃ kv,
      KVServer.deliver full
          (committed.take answer.lastApplied.toNat) =
        some kv ∧
      answer.reply.value =
        (kv.mp answer.request.key).getD ""

/- The handler's entry is of its request and has its own number. -/
structure Waiting.Numbered
    (committed : List Op)
    (w : Waiting) : Prop where
  id : w.op.ckId = w.request.id
  reqNum : w.op.reqNum = w.request.reqNum
  own : ∀ op ∈ committed, op.number = w.op.number → op = w.op

/- Snapshots and commands keep the server at a prefix. -/
structure Serving.Consistent
    (full : Int → Bool)
    (committed : List Op)
    (s : Serving) : Prop where
  replica : ∃ k,
    (machine full).Replica KVServer.start committed k s.kv
  recorded : Recorded committed s.kv.logRecord
  waiting : ∀ w ∈ s.waiting, w.Numbered committed
  answers : ∀ answer ∈ s.answers,
    answer.reply.err = .ok → answer.Backed full committed

section Steps

variable {full : Int → Bool} {committed : List Op}
variable {s s' : Serving}

/- What is delivered does not depend on the size test. -/
theorem KVServer.handleApplyMsg_command
    (full : Int → Bool)
    (b : Bool)
    (kv : KVServer)
    (op : Op) :
    (kv.handleApplyMsg b
        (.command (kv.lastApplied + 1) op)).map Prod.fst =
      kv.deliverOp full op := by
  simp only [KVServer.deliverOp, KVServer.handleApplyMsg,
    ne_eq, not_true_eq_false, if_false]
  split
  · rfl
  · rfl

theorem deliver_full_eq
    (full full' : Int → Bool)
    (log : List Op) :
    KVServer.deliver full log =
      KVServer.deliver full' log := by
  have hOp : KVServer.deliverOp full =
      KVServer.deliverOp full' := by
    funext kv op
    rw [← KVServer.handleApplyMsg_command full
      (full' (kv.lastApplied + 1))]
    rfl
  unfold KVServer.deliver
  rw [hOp]

/- A reply with the map as it is, for a request of the prefix. -/
theorem Serving.Consistent.backed
    {k : Nat}
    (hReplica : (machine full).Replica
      KVServer.start committed k s.kv)
    {request : Request}
    (hEntry : ∃ op ∈ committed.take k,
      op.ckId = request.id ∧ op.reqNum = request.reqNum) :
    Answer.Backed full committed {
      request := request
      reply := s.kv.success request
      lastApplied := s.kv.lastApplied } := by
  have hApplied : s.kv.lastApplied = k := hReplica.applied
  have hBound := hReplica.bound
  constructor
  · constructor
    · simp only [hApplied]
      omega
    · simp only [hApplied]
      omega
  · simp only [hApplied, Int.toNat_natCast]
    exact hEntry
  · intro hGet
    rcases hReplica.agrees with ⟨kv, hRun, hMp, _⟩
    have hSame : s.kv.mp = kv.mp := hMp
    simp only [hApplied, Int.toNat_natCast]
    refine ⟨kv, hRun, ?_⟩
    simp only at hGet
    simp only [KVServer.success, hGet, hSame]

theorem Serving.Consistent.answer
    (hConsistent : s.Consistent full committed)
    {request : Request}
    {reply : Reply}
    (hBacked : reply.err = .ok →
      Answer.Backed full committed {
        request := request
        reply := reply
        lastApplied := s.kv.lastApplied }) :
    (s.answer request reply).Consistent full committed where
  replica := hConsistent.replica
  recorded := hConsistent.recorded
  waiting := hConsistent.waiting
  answers := by
    intro answer hMem hOk
    rcases List.mem_append.mp hMem with hOld | hNew
    · exact hConsistent.answers answer hOld hOk
    · rw [List.mem_singleton] at hNew
      rw [hNew] at hOk ⊢
      exact hBacked hOk

theorem Serving.Consistent.leave
    (hConsistent : s.Consistent full committed)
    (i : Nat) :
    (s.leave i).Consistent full committed where
  replica := hConsistent.replica
  recorded := hConsistent.recorded
  waiting w hMem :=
    hConsistent.waiting w (List.mem_of_mem_eraseIdx hMem)
  answers := hConsistent.answers

/- A command that does not end the server is the next one. -/
theorem Serving.Consistent.command
    (hConsistent : s.Consistent full committed)
    {k : Nat}
    {op : Op}
    {b : Bool}
    (hEntry : committed[k]? = some op)
    (hStep :
      s.deliver b (.command (k + 1) op) = some s') :
    s'.Consistent full committed := by
  rcases hConsistent.replica with ⟨j, hReplica⟩
  have hApplied : s.kv.lastApplied = j := hReplica.applied
  rcases Option.map_eq_some_iff.mp hStep with
    ⟨result, hResult, hNext⟩
  have hOrder : j = k := by
    by_contra hNe
    have hOut : s.kv.lastApplied + 1 ≠ (k : Int) + 1 := by
      omega
    rw [KVServer.handleApplyMsg, if_pos hOut] at hResult
    cases hResult
  rw [hOrder] at hReplica hApplied
  rw [← hApplied] at hResult
  have hDeliver : s.kv.deliverOp full op = some result.1 := by
    rw [← KVServer.handleApplyMsg_command full b, hResult]
    rfl
  rw [← hNext]
  refine ⟨⟨k + 1, ?_⟩, ?_, hConsistent.waiting,
    hConsistent.answers⟩
  · exact hReplica.deliver (start_fresh full) hEntry hDeliver
  · rw [KVServer.deliverOp_record hDeliver, hApplied]
    exact hConsistent.recorded.update hEntry

/- A snapshot moves the server to its prefix. -/
theorem Serving.Consistent.snapshot
    (hConsistent : s.Consistent full committed)
    {k : Nat}
    {snapshot : Snapshot}
    (hBound : k ≤ committed.length)
    (hSnapshot : snapshotAt committed k = some snapshot)
    (hStep :
      s.deliver false (.snapshot k snapshot) = some s') :
    s'.Consistent full committed := by
  rcases Option.map_eq_some_iff.mp hSnapshot with
    ⟨kv, hRun, hEncoded⟩
  rw [deliver_full_eq _ full] at hRun
  cases hStep
  refine ⟨⟨k, hBound, rfl, kv, hRun, ?_, ?_⟩,
    hConsistent.recorded, hConsistent.waiting,
    hConsistent.answers⟩
  · rw [← hEncoded]
    rfl
  · rw [← hEncoded]
    rfl

theorem Serving.Consistent.call
    (hConsistent : s.Consistent full committed)
    {request : Request}
    {number : Int}
    {index : Option Int}
    (hNumbered : Event.numbered committed
      (.call request number index) = true)
    (hStep : Serving.step committed
      (.call request number index) s = some s') :
    s'.Consistent full committed := by
  rw [Serving.step, KVServer.handleNormalRPC] at hStep
  by_cases hCompleted :
      s.kv.ckSessions.completed Op.reqNum Op.number
        s.kv.logRecord request.id request.reqNum = true
  · rw [if_pos hCompleted] at hStep
    cases hStep
    rcases hConsistent.replica with ⟨k, hReplica⟩
    apply hConsistent.answer
    intro _
    apply Serving.Consistent.backed hReplica
    exact hReplica.mem_of_completed (start_fresh full)
      hCompleted
  · rw [if_neg hCompleted] at hStep
    cases index with
    | none =>
        cases hStep
        apply hConsistent.answer
        intro hOk
        cases hOk
    | some index =>
        cases hStep
        refine ⟨hConsistent.replica, hConsistent.recorded,
          ?_, hConsistent.answers⟩
        intro w hMem
        rcases List.mem_append.mp hMem with hOld | hNew
        · exact hConsistent.waiting w hOld
        · rw [List.mem_singleton] at hNew
          rw [hNew]
          refine ⟨rfl, rfl, ?_⟩
          intro op hOp hNumber
          have hOwn := List.all_eq_true.mp hNumbered op hOp
          have hSame : op.number = number := hNumber
          simpa [hSame] using hOwn

/- A poll that ends well has found the handler's own entry. -/
theorem Serving.Consistent.poll
    (hConsistent : s.Consistent full committed)
    {i : Nat}
    (hStep :
      Serving.step committed (.poll i) s = some s') :
    s'.Consistent full committed := by
  rcases Option.map_eq_some_iff.mp hStep with
    ⟨w, hWaiting, hNext⟩
  rw [← hNext]
  have hNumbered :=
    hConsistent.waiting w (List.mem_of_getElem? hWaiting)
  unfold KVServer.waittingForCommit
  cases hPoll : pollRecord Op.number s.kv.logRecord
      s.kv.lastApplied w.index w.op with
  | again => exact hConsistent
  | failed =>
      apply Serving.Consistent.leave
      apply hConsistent.answer
      intro hOk
      cases hOk
  | finished =>
      apply Serving.Consistent.leave
      apply hConsistent.answer
      intro _
      rcases hConsistent.replica with ⟨k, hReplica⟩
      apply Serving.Consistent.backed hReplica
      rcases hReplica.mem_of_finished hConsistent.recorded
        hPoll with ⟨op, hMem, hNumber⟩
      have hOwn : op = w.op :=
        hNumbered.own op (List.mem_of_mem_take hMem) hNumber
      refine ⟨op, hMem, ?_, ?_⟩
      · rw [hOwn, hNumbered.id]
      · rw [hOwn, hNumbered.reqNum]

theorem Serving.Consistent.step
    (hConsistent : s.Consistent full committed)
    {event : Event}
    (hNumbered : event.numbered committed = true)
    (hStep : Serving.step committed event s = some s') :
    s'.Consistent full committed := by
  cases event with
  | command k b =>
      rcases Option.bind_eq_some_iff.mp hStep with
        ⟨op, hEntry, hDeliver⟩
      exact hConsistent.command hEntry hDeliver
  | snapshot k =>
      rw [Serving.step] at hStep
      split at hStep
      · next hBound =>
          rcases Option.bind_eq_some_iff.mp hStep with
            ⟨snapshot, hSnapshot, hDeliver⟩
          exact hConsistent.snapshot hBound hSnapshot
            hDeliver
      · cases hStep
  | call request number index =>
      exact hConsistent.call hNumbered hStep
  | poll i => exact hConsistent.poll hStep
  | timeout i =>
      rcases Option.map_eq_some_iff.mp hStep with
        ⟨w, _, hNext⟩
      rw [← hNext]
      apply Serving.Consistent.leave
      apply hConsistent.answer
      intro hOk
      cases hOk
  | restart =>
      cases hStep
      refine ⟨⟨0, ?_⟩, Recorded.empty committed, ?_,
        hConsistent.answers⟩
      · exact SessionMachine.Replica.start
          (start_fresh full) committed
      · intro w hMem
        cases hMem

end Steps

------------------------------------------------------------
-- Replies Are Backed By The Log
------------------------------------------------------------

theorem Serving.consistent
    (full : Int → Bool)
    {committed : List Op}
    {s : Serving}
    (hReach : (Serving.system committed).Reachable
      (fun _ event => event.numbered committed = true) s) :
    s.Consistent full committed := by
  apply System.Reachable.induct ?_ ?_ hReach
  · intro s hInit
    rw [hInit]
    refine ⟨⟨0, ?_⟩, Recorded.empty committed, ?_, ?_⟩
    · exact SessionMachine.Replica.start
        (start_fresh full) committed
    · intro w hMem
      cases hMem
    · intro answer hMem
      cases hMem
  · intro s event s' _ hConsistent hNumbered hStep
    exact hConsistent.step hNumbered hStep

/-
  Whatever the order of commands, snapshots, requests and
  polls, a request that is answered without an error has an
  entry among the commands up to lastApplied, and a Get
  returns the value after exactly these.
-/
theorem replies_backed_by_log
    (full : Int → Bool)
    {committed : List Op}
    {s : Serving}
    (hReach : (Serving.system committed).Reachable
      (fun _ event => event.numbered committed = true) s)
    {answer : Answer}
    (hAnswer : answer ∈ s.answers)
    (hOk : answer.reply.err = .ok) :
    answer.Backed full committed :=
  (Serving.consistent full hReach).answers answer hAnswer hOk

/- A Put and a Get of one client, both committed. -/
private def putThenGet : List Op := [
  { type := .put, number := 5, key := "x", value := "v",
    reqNum := 1, ckId := 9 },
  { type := .get, number := 7, key := "x", value := "",
    reqNum := 2, ckId := 9 }]

private def getRequest : Request where
  type := .get
  key := "x"
  value := ""
  id := 9
  reqNum := 2

/-
  A Get polls while a snapshot takes the server back to the
  Put, and is answered when its entry has come again.
-/
theorem replies_backed_by_log_again :
    ∃ s answer,
      (Serving.system putThenGet).Reachable
        (fun _ event => event.numbered putThenGet = true) s ∧
      answer ∈ s.answers ∧
      answer.reply = { err := .ok, value := "v" } ∧
      answer.Backed (fun _ => false) putThenGet := by
  have hExec :
      ((Serving.system putThenGet).execOk
        (fun _ event => event.numbered putThenGet)
        [.call getRequest 7 (some 2), .command 0 false,
          .command 1 true, .snapshot 1, .poll 0,
          .command 1 false, .poll 0]
        Serving.initial).any (fun s =>
          decide (s.answers = [{
            request := getRequest
            reply := { err := .ok, value := "v" }
            lastApplied := 2 }])) = true := by
    decide +kernel
  rcases System.exists_run_of_execOk hExec with
    ⟨s, hRun, hAnswers⟩
  have hReach : (Serving.system putThenGet).Reachable
      (fun _ event => event.numbered putThenGet = true) s :=
    ⟨Serving.initial, rfl, hRun⟩
  have hMem := (of_decide_eq_true hAnswers).symm ▸
    List.mem_singleton_self _
  exact ⟨s, _, hReach, hMem, rfl,
    replies_backed_by_log _ hReach hMem rfl⟩

end Kvraft

end RaftLab
