import RaftLab.Shardctrler.Clerks

/-
  Which calls of the shard controller's clerks are executed.

  A call returns when a server has found an entry of its
  request in the part of the log that it has applied. That
  entry may have been skipped: the filter for duplicates
  skips an entry whose number is below that of its client's
  last entry, and calls that share a clerk can enter the log
  in any order. The request is then answered as a success and
  never executed. A handler that finds its server killed ends
  the call as well. As long as the updates of each client
  enter the log in the order of their numbers and no such
  handler answers them, every update whose call returns has
  been executed.

  Main declarations:
    * `Shardctrler.World.Executed`
    * `Shardctrler.exists_executed`
    * `Shardctrler.World.Consistent`
    * `Shardctrler.returned_updates_executed`
    * `Shardctrler.shared_clerk_loses_update`
-/

------------------------------------------------------------
-- Executed Requests
------------------------------------------------------------

namespace RaftLab

namespace Shardctrler

/-
  An entry of the request has been executed in a part of the
  log that servers can apply.
-/
def World.Executed
    {n m : Nat}
    (full : Int → Bool)
    (w : World n m)
    (request : Request) : Prop :=
  ∃ k sc,
    ShardCtrler.deliver full (w.log.take k) = some sc ∧
    ∃ op ∈ executed full (w.log.take k),
      op = request.op op.number

/- Join, Leave and Move. -/
def Request.updates (request : Request) : Bool :=
  (request.op 0).writes

theorem Request.writes_op
    (request : Request)
    (number : Int) :
    (request.op number).writes = request.updates := rfl

theorem Op.sameRequest_iff
    {op op' : Op} :
    op.sameRequest op' = true ↔
      op.ckId = op'.ckId ∧ op.reqNum = op'.reqNum := by
  unfold Op.sameRequest
  rw [Bool.and_eq_true, decide_eq_true_eq,
    decide_eq_true_eq]

------------------------------------------------------------
-- Updates In Order Are Executed
------------------------------------------------------------

/- Every entry entered the log in order. -/
def Ordered (log : List Op) : Prop :=
  ∀ k op,
    log[k]? = some op →
    inOrder (log.take k) op = true

theorem Ordered.snoc
    {log : List Op}
    {op : Op}
    (hOrdered : Ordered log)
    (hLast : inOrder log op = true) :
    Ordered (log ++ [op]) :=
  forall_entry_snoc
    (P := fun log op => inOrder log op = true)
    hOrdered hLast

theorem Ordered.take
    {log : List Op}
    (hOrdered : Ordered log)
    (n : Nat) :
    Ordered (log.take n) :=
  forall_entry_take
    (P := fun log op => inOrder log op = true)
    hOrdered n

/- An update that rises is executed where it stands. -/
theorem mem_executed_of_rises
    {full : Int → Bool}
    {log : List Op}
    {sc : ShardCtrler}
    (hRun : ShardCtrler.deliver full log = some sc)
    {k : Nat}
    {op : Op}
    (hEntry : log[k]? = some op)
    (hWrites : op.writes = true)
    (hRises :
      rises Op.ckId Op.reqNum (log.take k) op = true) :
    op ∈ executed full log := by
  rcases (machine full).run_take hRun k with ⟨sc', hPast⟩
  rcases (machine full).run_follows (start_fresh full) hPast
    with ⟨hApplied, hFollows⟩
  apply (machine full).mem_accepted_iff.mpr
  refine ⟨k, sc', hEntry, hPast, ?_⟩
  rw [(machine full).accepts_eq, hApplied,
    hFollows.stable_eq op, Bool.not_not, hRises]
  exact hWrites

/-
  By induction on the place: the entry rises, or the log has
  an entry of the request before it, which writes as well.
-/
theorem exists_executed
    {full : Int → Bool}
    {log : List Op}
    {sc : ShardCtrler}
    (hRun : ShardCtrler.deliver full log = some sc)
    (hOrdered : Ordered log)
    (hSame : ∀ op ∈ log, ∀ op' ∈ log,
      op.ckId = op'.ckId → op.reqNum = op'.reqNum →
      op.args = op'.args)
    {k : Nat}
    {op : Op}
    (hEntry : log[k]? = some op)
    (hWrites : op.writes = true) :
    ∃ op' ∈ executed full log,
      op'.ckId = op.ckId ∧ op'.reqNum = op.reqNum := by
  induction k using Nat.strong_induction_on
    generalizing op with
  | h k ih =>
      have hOrder := hOrdered k op hEntry
      unfold inOrder at hOrder
      rw [hWrites, Bool.not_true, Bool.false_or,
        Bool.or_eq_true] at hOrder
      rcases hOrder with hRises | hBefore
      · exact ⟨op, mem_executed_of_rises hRun hEntry hWrites
          hRises, rfl, rfl⟩
      · rcases List.any_eq_true.mp hBefore with
          ⟨op', hMem, hRequest⟩
        rcases Op.sameRequest_iff.mp hRequest with
          ⟨hClient, hNum⟩
        have hArgs : op.args = op'.args :=
          hSame op (List.mem_of_getElem? hEntry) op'
            (List.mem_of_mem_take hMem) hClient hNum
        have hWrites' : op'.writes = true := by
          rw [← hWrites]
          unfold Op.writes
          rw [hArgs]
        rcases List.mem_iff_getElem?.mp hMem with
          ⟨j, hEntry'⟩
        have hEarlier : j < k := by
          by_contra hNot
          rw [List.getElem?_take, if_neg hNot] at hEntry'
          cases hEntry'
        rw [List.getElem?_take, if_pos hEarlier] at hEntry'
        rw [hClient, hNum]
        exact ih j hEarlier hEntry' hWrites'

------------------------------------------------------------
-- Invariants
------------------------------------------------------------

/-
  A request has one number of one clerk, and every entry is
  of a request and has its own number.
-/
structure World.Numbered
    {n m : Nat}
    (w : World n m) : Prop where
  ids : Function.Injective fun c => (w.clerks c).id
  allocated : ∀ request ∈ w.calls,
    ∃ c,
      request.id = (w.clerks c).id ∧
      request.reqNum < (w.clerks c).reqNum
  unique : ∀ request ∈ w.calls, ∀ request' ∈ w.calls,
    request.id = request'.id →
    request.reqNum = request'.reqNum →
    request = request'
  started : ∀ index op,
    (index, op) ∈ w.started →
    ∃ request ∈ w.calls, op = request.op op.number
  numbers : ∀ index op index' op',
    (index, op) ∈ w.started →
    (index', op') ∈ w.started →
    op.number = op'.number →
    op = op'
  log : ∀ op ∈ w.log, ∃ index, (index, op) ∈ w.started

structure Controller.Consistent
    {n m : Nat}
    (full : Int → Bool)
    (w : World n m)
    (ctl : Controller) : Prop where
  replica : ∃ k,
    (machine full).Replica ShardCtrler.start w.log k ctl.sc
  recorded : Recorded w.log ctl.sc.logRecord
  waiting : ∀ h ∈ ctl.waiting,
    h.request ∈ w.calls ∧
    h.op = h.request.op h.op.number ∧
    (h.index, h.op) ∈ w.started

/- An entry of the request can have been applied. -/
def World.Delivered
    {n m : Nat}
    (full : Int → Bool)
    (w : World n m)
    (request : Request) : Prop :=
  ∃ k sc,
    ShardCtrler.deliver full (w.log.take k) = some sc ∧
    ∃ op ∈ w.log.take k,
      op.ckId = request.id ∧ op.reqNum = request.reqNum

structure World.Consistent
    {n m : Nat}
    (full : Int → Bool)
    (w : World n m) : Prop where
  numbered : w.Numbered
  servers : ∀ s, (w.servers s).Consistent full w
  returned : ∀ request ∈ w.returned,
    request ∈ w.calls ∧
      (request.updates = true → w.Delivered full request)
  ordered : Ordered w.log

------------------------------------------------------------
-- What Growth Keeps
------------------------------------------------------------

section Steps

variable {n m : Nat} {full : Int → Bool}
variable {w w' : World n m}

/- Calls, started entries and the log only grow. -/
structure World.Grows (w w' : World n m) : Prop where
  calls : w.calls ⊆ w'.calls
  started : w.started ⊆ w'.started
  log : ∃ more, w'.log = w.log ++ more

theorem Controller.Consistent.grows
    {ctl : Controller}
    (hGrows : w.Grows w')
    (hCtl : ctl.Consistent full w) :
    ctl.Consistent full w' := by
  rcases hGrows.log with ⟨more, hLog⟩
  rcases hCtl.replica with ⟨k, hReplica⟩
  constructor
  · rw [hLog]
    exact ⟨k, hReplica.append more⟩
  · rw [hLog]
    exact hCtl.recorded.append more
  · intro h hMem
    rcases hCtl.waiting h hMem with ⟨hCall, hOp, hStarted⟩
    exact ⟨hGrows.calls hCall, hOp,
      hGrows.started hStarted⟩

/- A longer prefix of the longer log is not needed. -/
theorem World.Delivered.grows
    {request : Request}
    (hGrows : w.Grows w')
    (hDelivered : w.Delivered full request) :
    w'.Delivered full request := by
  rcases hGrows.log with ⟨more, hLog⟩
  rcases hDelivered with ⟨k, sc, hRun, hEntry⟩
  refine ⟨min k w.log.length, sc, ?_, ?_⟩
  · rw [hLog, List.take_append_of_le_length
      (Nat.min_le_right _ _), ← List.take_eq_take_min]
    exact hRun
  · rw [hLog, List.take_append_of_le_length
      (Nat.min_le_right _ _), ← List.take_eq_take_min]
    exact hEntry

theorem World.Consistent.grows
    (hConsistent : w.Consistent full)
    (hGrows : w.Grows w')
    (hNumbered : w'.Numbered)
    (hServers : w'.servers = w.servers)
    (hReturned : w'.returned = w.returned)
    (hOrdered : Ordered w'.log) :
    w'.Consistent full := by
  refine ⟨hNumbered, ?_, ?_, hOrdered⟩
  · intro s
    rw [hServers]
    exact (hConsistent.servers s).grows hGrows
  · intro request hMem
    rw [hReturned] at hMem
    rcases hConsistent.returned request hMem with
      ⟨hCall, hDelivered⟩
    exact ⟨hGrows.calls hCall,
      fun hUpdates => (hDelivered hUpdates).grows hGrows⟩

theorem World.Consistent.setServer
    (hConsistent : w.Consistent full)
    {s : Fin m}
    {ctl : Controller}
    (hCtl : ctl.Consistent full w) :
    (w.setServer s ctl).Consistent full where
  numbered := {
    ids := hConsistent.numbered.ids
    allocated := hConsistent.numbered.allocated
    unique := hConsistent.numbered.unique
    started := hConsistent.numbered.started
    numbers := hConsistent.numbered.numbers
    log := hConsistent.numbered.log }
  servers t := by
    have hGrows : w.Grows (w.setServer s ctl) :=
      ⟨fun _ h => h, fun _ h => h, [],
        (List.append_nil _).symm⟩
    by_cases hServer : t = s
    · have hSelf : (w.setServer s ctl).servers t = ctl := by
        rw [hServer]
        exact Function.update_self s ctl w.servers
      rw [hSelf]
      exact hCtl.grows hGrows
    · have hOther :
          (w.setServer s ctl).servers t = w.servers t := by
        unfold World.setServer
        exact Function.update_of_ne hServer ctl w.servers
      rw [hOther]
      exact (hConsistent.servers t).grows hGrows
  returned := hConsistent.returned
  ordered := hConsistent.ordered

theorem World.Consistent.reply
    (hConsistent : w.Consistent full)
    {request : Request}
    {reply : Reply}
    {arrives : Bool}
    (hReply : arrives = true →
      reply.returns = true →
      request ∈ w.calls ∧
        (request.updates = true →
          w.Delivered full request)) :
    (w.reply request reply arrives).Consistent full := by
  unfold World.reply
  split
  · next hReturns =>
      rw [Bool.and_eq_true] at hReturns
      refine ⟨⟨hConsistent.numbered.ids,
        hConsistent.numbered.allocated,
        hConsistent.numbered.unique,
        hConsistent.numbered.started,
        hConsistent.numbered.numbers,
        hConsistent.numbered.log⟩, ?_, ?_,
        hConsistent.ordered⟩
      · intro s
        have hCtl := hConsistent.servers s
        exact ⟨hCtl.replica, hCtl.recorded, hCtl.waiting⟩
      · intro request' hMem
        rcases List.mem_append.mp hMem with hOld | hNew
        · exact hConsistent.returned request' hOld
        · rw [List.mem_singleton] at hNew
          rw [hNew]
          exact hReply hReturns.1 hReturns.2
  · exact hConsistent

theorem World.Consistent.leave
    (hConsistent : w.Consistent full)
    (s : Fin m)
    (i : Nat) :
    (w.leave s i).Consistent full := by
  apply hConsistent.setServer
  have hCtl := hConsistent.servers s
  refine ⟨hCtl.replica, hCtl.recorded, ?_⟩
  intro h hMem
  exact hCtl.waiting h (List.mem_of_mem_eraseIdx hMem)

------------------------------------------------------------
-- What Each Step Keeps
------------------------------------------------------------

/- A new request has a number that its clerk has not used. -/
theorem World.Consistent.call
    (hConsistent : w.Consistent full)
    (c : Fin n)
    (args : Args) :
    (w.call c args).Consistent full := by
  have hNumbered := hConsistent.numbered
  have hId : ∀ c',
      ((w.call c args).clerks c').id =
        (w.clerks c').id := by
    intro c'
    by_cases hClerk : c' = c
    · simp [World.call, hClerk]
    · simp [World.call, Function.update_of_ne hClerk]
  have hReqNum : ∀ c',
      (w.clerks c').reqNum ≤
        ((w.call c args).clerks c').reqNum := by
    intro c'
    by_cases hClerk : c' = c
    · simp [World.call, hClerk]
    · simp [World.call, Function.update_of_ne hClerk]
  have hNew : ∀ request ∈ w.calls,
      request.id = (w.clerks c).id →
      request.reqNum ≠ (w.clerks c).reqNum := by
    intro request hMem hClient
    rcases hNumbered.allocated request hMem with
      ⟨c', hClient', hBelow⟩
    have hClerk : c' = c :=
      hNumbered.ids (hClient'.symm.trans hClient)
    rw [hClerk] at hBelow
    omega
  have hGrows : w.Grows (w.call c args) :=
    ⟨fun _ h => List.mem_append_left _ h, fun _ h => h, [],
      (List.append_nil _).symm⟩
  apply hConsistent.grows hGrows ?_ rfl rfl
    hConsistent.ordered
  constructor
  · intro c₁ c₂ hEq
    simp only [hId] at hEq
    exact hNumbered.ids hEq
  · intro request hMem
    rcases List.mem_append.mp hMem with hOld | hLast
    · rcases hNumbered.allocated request hOld with
        ⟨c', hClient, hBelow⟩
      refine ⟨c', ?_, ?_⟩
      · rw [hId]
        exact hClient
      · exact lt_of_lt_of_le hBelow (hReqNum c')
    · rw [List.mem_singleton] at hLast
      refine ⟨c, ?_, ?_⟩
      · rw [hId, hLast]
      · rw [hLast]
        simp [World.call]
  · intro request hMem request' hMem' hClient hNum
    rcases List.mem_append.mp hMem with hOld | hLast
    · rcases List.mem_append.mp hMem' with hOld' | hLast'
      · exact hNumbered.unique request hOld request' hOld'
          hClient hNum
      · rw [List.mem_singleton] at hLast'
        rw [hLast'] at hClient hNum
        exact absurd hNum (hNew request hOld hClient)
    · rw [List.mem_singleton] at hLast
      rcases List.mem_append.mp hMem' with hOld' | hLast'
      · rw [hLast] at hClient hNum
        exact absurd hNum.symm
          (hNew request' hOld' hClient.symm)
      · rw [List.mem_singleton] at hLast'
        rw [hLast, hLast']
  · intro index op hMem
    rcases hNumbered.started index op hMem with
      ⟨request, hCall, hOp⟩
    exact ⟨request, List.mem_append_left _ hCall, hOp⟩
  · exact hNumbered.numbers
  · exact hNumbered.log

/- The entry of a new handler has a number of its own. -/
theorem World.Consistent.start
    (hConsistent : w.Consistent full)
    {s : Fin m}
    {request : Request}
    {number index : Int}
    (hCall : request ∈ w.calls)
    (hFresh : w.fresh number = true) :
    (w.start s request (request.op number) index).Consistent
      full := by
  have hNumbered := hConsistent.numbered
  have hNew : ∀ index op,
      (index, op) ∈ w.started → op.number ≠ number := by
    intro index op hMem
    exact of_decide_eq_true
      (List.all_eq_true.mp hFresh (index, op) hMem)
  have hBase : World.Consistent full { w with
      started := w.started ++
        [(index, request.op number)] } := by
    have hGrows : w.Grows { w with
        started := w.started ++
          [(index, request.op number)] } :=
      ⟨fun _ h => h, fun _ h => List.mem_append_left _ h, [],
        (List.append_nil _).symm⟩
    apply hConsistent.grows hGrows ?_ rfl rfl
      hConsistent.ordered
    refine ⟨hNumbered.ids, hNumbered.allocated,
      hNumbered.unique, ?_, ?_, ?_⟩
    · intro index₁ op₁ hMem
      rcases List.mem_append.mp hMem with hOld | hLast
      · exact hNumbered.started index₁ op₁ hOld
      · cases List.mem_singleton.mp hLast
        exact ⟨request, hCall, rfl⟩
    · intro index₁ op₁ index₂ op₂ hMem₁ hMem₂ hNumber
      rcases List.mem_append.mp hMem₁ with hOld₁ | hLast₁
      · rcases List.mem_append.mp hMem₂ with hOld₂ | hLast₂
        · exact hNumbered.numbers index₁ op₁ index₂ op₂
            hOld₁ hOld₂ hNumber
        · cases List.mem_singleton.mp hLast₂
          exact absurd hNumber (hNew index₁ op₁ hOld₁)
      · cases List.mem_singleton.mp hLast₁
        rcases List.mem_append.mp hMem₂ with hOld₂ | hLast₂
        · exact absurd hNumber.symm (hNew index₂ op₂ hOld₂)
        · cases List.mem_singleton.mp hLast₂
          rfl
    · intro op hMem
      rcases hNumbered.log op hMem with ⟨index', hStarted⟩
      exact ⟨index', List.mem_append_left _ hStarted⟩
  apply hBase.setServer
  have hCtl := hBase.servers s
  refine ⟨hCtl.replica, hCtl.recorded, ?_⟩
  intro h hMem
  rcases List.mem_append.mp hMem with hOld | hLast
  · exact hCtl.waiting h hOld
  · rw [List.mem_singleton] at hLast
    rw [hLast]
    exact ⟨hCall, rfl,
      List.mem_append_right _ (List.mem_singleton_self _)⟩

theorem World.Consistent.request
    (hConsistent : w.Consistent full)
    {s : Fin m}
    {i : Nat}
    {number : Int}
    {index : Option Int}
    {arrives : Bool}
    (hStep : World.step
      (.request s i number index arrives) w = some w') :
    w'.Consistent full := by
  rcases Option.bind_eq_some_iff.mp hStep with
    ⟨request, hAt, hRest⟩
  have hCall := List.mem_of_getElem? hAt
  rcases Option.bind_eq_some_iff.mp hRest with
    ⟨outcome, hOutcome, hNext⟩
  unfold ShardCtrler.handleNomalRPC at hOutcome
  split at hOutcome
  · next hCompleted =>
      rcases Option.map_eq_some_iff.mp hOutcome with
        ⟨reply, _, hReply⟩
      rw [← hReply] at hNext
      cases hNext
      apply hConsistent.reply
      intro _ _
      rcases (hConsistent.servers s).replica with
        ⟨k, hReplica⟩
      rcases hReplica.agrees with ⟨sc, hRun, _⟩
      exact ⟨hCall, fun _ => ⟨k, sc, hRun,
        hReplica.mem_of_completed (start_fresh full)
          hCompleted⟩⟩
  · cases hOutcome
    cases index with
    | none =>
        cases hNext
        apply hConsistent.reply
        intro _ hReturns
        cases hReturns
    | some index =>
        simp only at hNext
        split at hNext
        · next hFresh =>
            cases hNext
            exact hConsistent.start hCall hFresh
        · cases hNext

theorem World.Consistent.commit
    (hConsistent : w.Consistent full)
    {i : Nat}
    (hRegular : Event.regular w (.commit i) = true)
    (hStep : World.step (.commit i) w = some w') :
    w'.Consistent full := by
  have hNumbered := hConsistent.numbered
  rcases Option.bind_eq_some_iff.mp hStep with
    ⟨entry, hStarted, hNext⟩
  have hInOrder : inOrder w.log entry.2 = true := by
    rw [Event.regular, hStarted] at hRegular
    exact hRegular
  split at hNext
  · cases hNext
    have hGrows : w.Grows { w with
        log := w.log ++ [entry.2] } :=
      ⟨fun _ h => h, fun _ h => h, [entry.2], rfl⟩
    apply hConsistent.grows hGrows ?_ rfl rfl
      (Ordered.snoc hConsistent.ordered hInOrder)
    refine ⟨hNumbered.ids, hNumbered.allocated,
      hNumbered.unique, hNumbered.started,
      hNumbered.numbers, ?_⟩
    intro op hMem
    rcases List.mem_append.mp hMem with hOld | hLast
    · exact hNumbered.log op hOld
    · rw [List.mem_singleton] at hLast
      rw [hLast]
      exact ⟨entry.1, List.mem_of_getElem? hStarted⟩
  · cases hNext

/- What is delivered does not depend on the size test. -/
theorem ShardCtrler.handleApplyMsg_command
    (full : Int → Bool)
    (b : Bool)
    (sc : ShardCtrler)
    (op : Op) :
    (sc.handleApplyMsg b
        (.command (sc.lastApplied + 1) op)).map Prod.fst =
      sc.deliverOp full op := by
  simp only [ShardCtrler.deliverOp,
    ShardCtrler.handleApplyMsg]
  split
  · rfl
  · rw [Option.map_map, Option.map_map]
    rfl

theorem deliver_full_eq
    (full full' : Int → Bool)
    (log : List Op) :
    ShardCtrler.deliver full log =
      ShardCtrler.deliver full' log := by
  have hOp : ShardCtrler.deliverOp full =
      ShardCtrler.deliverOp full' := by
    funext sc op
    rw [ShardCtrler.deliverOp_eq, ShardCtrler.deliverOp_eq]
  unfold ShardCtrler.deliver
  rw [hOp]

theorem World.Consistent.command
    (hConsistent : w.Consistent full)
    {s : Fin m}
    {b : Bool}
    (hStep : World.step (.command s b) w = some w') :
    w'.Consistent full := by
  have hCtl := hConsistent.servers s
  rcases hCtl.replica with ⟨k, hReplica⟩
  have hApplied : (w.servers s).sc.lastApplied = k :=
    hReplica.applied
  rcases Option.bind_eq_some_iff.mp hStep with
    ⟨op, hEntry, hDelivered⟩
  rw [hApplied, Int.toNat_natCast] at hEntry
  rcases Option.map_eq_some_iff.mp hDelivered with
    ⟨result, hResult, hNext⟩
  have hDeliver : (w.servers s).sc.deliverOp full op =
      some result.1 := by
    rw [← ShardCtrler.handleApplyMsg_command full b, hResult]
    rfl
  have hRecord : result.1.logRecord =
      Function.update (w.servers s).sc.logRecord (k + 1)
        (some op) := by
    rw [ShardCtrler.deliverOp_eq, hApplied] at hDeliver
    rcases Option.map_eq_some_iff.mp hDeliver with
      ⟨configs, _, hServer⟩
    rw [← hServer]
  rw [← hNext]
  apply hConsistent.setServer
  refine ⟨⟨k + 1, ?_⟩, ?_, hCtl.waiting⟩
  · exact hReplica.deliver (start_fresh full) hEntry hDeliver
  · rw [hRecord]
    exact hCtl.recorded.update hEntry

theorem World.Consistent.snapshot
    (hConsistent : w.Consistent full)
    {s : Fin m}
    {k : Nat}
    (hStep : World.step (.snapshot s k) w = some w') :
    w'.Consistent full := by
  have hCtl := hConsistent.servers s
  rw [World.step] at hStep
  split at hStep
  · next hBound =>
      rcases Option.bind_eq_some_iff.mp hStep with
        ⟨snapshot, hSnapshot, hNext⟩
      rcases Option.map_eq_some_iff.mp hSnapshot with
        ⟨sc, hRun, hEncoded⟩
      rw [deliver_full_eq _ full] at hRun
      cases hNext
      apply hConsistent.setServer
      refine ⟨⟨k, hBound, rfl, sc, hRun, ?_, ?_⟩,
        hCtl.recorded, hCtl.waiting⟩
      · rw [← hEncoded]
        rfl
      · rw [← hEncoded]
        rfl
  · cases hStep

/- A poll that ends well has found the handler's own entry. -/
theorem World.Consistent.poll
    (hConsistent : w.Consistent full)
    {s : Fin m}
    {i : Nat}
    {arrives : Bool}
    (hStep : World.step (.poll s i arrives) w = some w') :
    w'.Consistent full := by
  rcases Option.bind_eq_some_iff.mp hStep with
    ⟨h, hAt, hRest⟩
  have hCtl := hConsistent.servers s
  rcases hCtl.waiting h (List.mem_of_getElem? hAt) with
    ⟨hCall, hOp, hStarted⟩
  rcases Option.map_eq_some_iff.mp hRest with
    ⟨round, hRound, hNext⟩
  have hLeft := hConsistent.leave s i
  unfold ShardCtrler.waittingForCommit at hRound
  cases hPoll : pollRecord Op.number
      (w.servers s).sc.logRecord
      (w.servers s).sc.lastApplied h.index h.op with
  | again =>
      rw [hPoll] at hRound
      cases hRound
      rw [← hNext]
      exact hConsistent
  | failed =>
      rw [hPoll] at hRound
      cases hRound
      rw [← hNext]
      apply hLeft.reply
      intro _ hReturns
      cases hReturns
  | finished =>
      rw [hPoll] at hRound
      rcases Option.map_eq_some_iff.mp hRound with
        ⟨reply, _, hReply⟩
      rw [← hReply] at hNext
      rw [← hNext]
      apply hLeft.reply
      intro _ _
      refine ⟨hCall, fun _ => ?_⟩
      rcases hCtl.replica with ⟨k, hReplica⟩
      rcases hReplica.agrees with ⟨sc, hRun, _⟩
      rcases hReplica.mem_of_finished hCtl.recorded hPoll
        with ⟨op, hMem, hNumber⟩
      rcases hConsistent.numbered.log op
        (List.mem_of_mem_take hMem) with ⟨index, hEntry⟩
      have hOwn : op = h.op :=
        hConsistent.numbered.numbers _ _ _ _ hEntry hStarted
          hNumber
      refine ⟨k, sc, hRun, op, hMem, ?_, ?_⟩
      · rw [hOwn, hOp]
        rfl
      · rw [hOwn, hOp]
        rfl

/- A killed server ends no call of an update. -/
theorem World.Consistent.exit
    (hConsistent : w.Consistent full)
    {s : Fin m}
    {i : Nat}
    {arrives : Bool}
    (hRegular : Event.regular w (.exit s i arrives) = true)
    (hStep : World.step (.exit s i arrives) w = some w') :
    w'.Consistent full := by
  rw [World.step] at hStep
  split at hStep
  · rcases Option.map_eq_some_iff.mp hStep with
      ⟨h, hAt, hNext⟩
    rcases (hConsistent.servers s).waiting h
      (List.mem_of_getElem? hAt) with ⟨hCall, hOp, _⟩
    rw [← hNext]
    apply (hConsistent.leave s i).reply
    intro hArrives _
    refine ⟨hCall, ?_⟩
    intro hUpdates
    have hWrites : h.op.writes = true := by
      rw [hOp, h.request.writes_op]
      exact hUpdates
    rw [Event.regular, hArrives, hAt] at hRegular
    simp [hWrites] at hRegular
  · cases hStep

theorem World.Consistent.step
    (hConsistent : w.Consistent full)
    {event : Event n m}
    (hRegular : event.regular w = true)
    (hStep : World.step event w = some w') :
    w'.Consistent full := by
  cases event with
  | call c args =>
      cases hStep
      exact hConsistent.call c args
  | request s i number index arrives =>
      exact hConsistent.request hStep
  | commit i => exact hConsistent.commit hRegular hStep
  | command s b => exact hConsistent.command hStep
  | snapshot s k => exact hConsistent.snapshot hStep
  | poll s i arrives => exact hConsistent.poll hStep
  | timeout s i =>
      rcases Option.map_eq_some_iff.mp hStep with
        ⟨h, _, hNext⟩
      rw [← hNext]
      exact hConsistent.leave s i
  | kill s =>
      cases hStep
      have hCtl := hConsistent.servers s
      exact hConsistent.setServer
        ⟨hCtl.replica, hCtl.recorded, hCtl.waiting⟩
  | exit s i arrives => exact hConsistent.exit hRegular hStep
  | restart s =>
      cases hStep
      apply hConsistent.setServer
      refine ⟨⟨0, ?_⟩, Recorded.empty w.log, ?_⟩
      · exact SessionMachine.Replica.start
          (start_fresh full) w.log
      · intro h hMem
        cases hMem

end Steps

------------------------------------------------------------
-- Returned Updates
------------------------------------------------------------

variable {n m : Nat}

theorem World.consistent
    (full : Int → Bool)
    {w : World n m}
    (hReach : (World.system n m).Reachable
      (fun w event => event.regular w = true) w) :
    w.Consistent full := by
  apply System.Reachable.induct ?_ ?_ hReach
  · intro w hInit
    rcases hInit with ⟨ids, hIds, hInit⟩
    rw [hInit]
    refine ⟨?_, ?_, ?_, ?_⟩
    · refine ⟨hIds, ?_, ?_, ?_, ?_, ?_⟩
      · intro request hMem
        cases hMem
      · intro request hMem
        cases hMem
      · intro index op hMem
        cases hMem
      · intro index op index' op' hMem
        cases hMem
      · intro op hMem
        cases hMem
    · intro s
      refine ⟨⟨0, ?_⟩, Recorded.empty [], ?_⟩
      · exact SessionMachine.Replica.start
          (start_fresh full) []
      · intro h hMem
        cases hMem
    · intro request hMem
      cases hMem
    · intro k op hEntry
      cases hEntry
  · intro w event w' _ hConsistent hRegular hStep
    exact hConsistent.step hRegular hStep

/- The entries of a request are all made from its call. -/
theorem World.Numbered.entry_eq
    {w : World n m}
    (hNumbered : w.Numbered)
    {request : Request}
    (hCall : request ∈ w.calls)
    {op : Op}
    (hMem : op ∈ w.log)
    (hClient : op.ckId = request.id)
    (hNum : op.reqNum = request.reqNum) :
    op = request.op op.number := by
  rcases hNumbered.log op hMem with ⟨index, hStarted⟩
  rcases hNumbered.started index op hStarted with
    ⟨request', hCall', hOp⟩
  have hSame : request' = request := by
    apply hNumbered.unique request' hCall' request hCall
    · rw [← hClient, hOp]
      rfl
    · rw [← hNum, hOp]
      rfl
  rw [← hSame]
  exact hOp

theorem World.Numbered.same_args
    {w : World n m}
    (hNumbered : w.Numbered)
    {op op' : Op}
    (hMem : op ∈ w.log)
    (hMem' : op' ∈ w.log)
    (hClient : op.ckId = op'.ckId)
    (hNum : op.reqNum = op'.reqNum) :
    op.args = op'.args := by
  rcases hNumbered.log op hMem with ⟨index, hStarted⟩
  rcases hNumbered.started index op hStarted with
    ⟨request, hCall, hOp⟩
  have hEq : op.ckId = request.id ∧
      op.reqNum = request.reqNum ∧
      op.args = request.args := by
    rw [hOp]
    exact ⟨rfl, rfl, rfl⟩
  have hOp' : op' = request.op op'.number := by
    apply hNumbered.entry_eq hCall hMem'
    · rw [← hClient, hEq.1]
    · rw [← hNum, hEq.2.1]
  rw [hEq.2.2, hOp']
  rfl

/-
  In every run in which the updates of each client enter the
  log in the order of their numbers, repetitions apart, and
  no handler of a killed server answers an update, every
  Join, Leave or Move whose call returns has been executed.
-/
theorem returned_updates_executed
    (full : Int → Bool)
    {w : World n m}
    (hReach : (World.system n m).Reachable
      (fun w event => event.regular w = true) w)
    {request : Request}
    (hReturned : request ∈ w.returned)
    (hUpdates : request.updates = true) :
    w.Executed full request := by
  have hConsistent := World.consistent full hReach
  have hNumbered := hConsistent.numbered
  rcases hConsistent.returned request hReturned with
    ⟨hCall, hDelivered⟩
  rcases hDelivered hUpdates with
    ⟨k, sc, hRun, op, hMem, hClient, hNum⟩
  have hOp := hNumbered.entry_eq hCall
    (List.mem_of_mem_take hMem) hClient hNum
  have hWrites : op.writes = true := by
    rw [hOp, request.writes_op]
    exact hUpdates
  rcases List.mem_iff_getElem?.mp hMem with ⟨i, hEntry⟩
  have hOrdered : Ordered (w.log.take k) :=
    Ordered.take hConsistent.ordered k
  have hSame : ∀ op ∈ w.log.take k, ∀ op' ∈ w.log.take k,
      op.ckId = op'.ckId → op.reqNum = op'.reqNum →
      op.args = op'.args := by
    intro op₁ hMem₁ op₂ hMem₂ hClient' hNum'
    exact hNumbered.same_args (List.mem_of_mem_take hMem₁)
      (List.mem_of_mem_take hMem₂) hClient' hNum'
  rcases exists_executed hRun hOrdered hSame hEntry hWrites
    with ⟨op', hExecuted, hClient', hNum'⟩
  refine ⟨k, sc, hRun, op', hExecuted, ?_⟩
  apply hNumbered.entry_eq hCall
  · exact List.mem_of_mem_take
      (((machine full).accepted_sublist _ _).mem hExecuted)
  · rw [hClient', hClient]
  · rw [hNum', hNum]

/- Two calls of one clerk. -/
private def twoMoves : List (Event 1 1) :=
  [.call 0 (.move 0 7), .call 0 (.move 1 7)]

private def firstMove : Request where
  id := 9
  reqNum := 1
  args := .move 0 7

/- Both requests are started, the one at place `i` first. -/
private def startedInOrder (i j : Nat) : List (Event 1 1) :=
  [.request 0 i 5 (some 1) true,
    .request 0 j 6 (some 2) true, .commit 0, .commit 1,
    .command 0 false, .command 0 false]

/- The call returns, and what it asked for is executed. -/
theorem returned_updates_executed_in_order :
    ∃ w : World 1 1,
      (World.system 1 1).Reachable
        (fun w event => event.regular w = true) w ∧
      firstMove ∈ w.returned ∧
      w.Executed (fun _ => false) firstMove := by
  have hExec :
      ((World.system 1 1).execOk
        (fun w event => event.regular w)
        (twoMoves ++ startedInOrder 0 1 ++ [.poll 0 0 true])
        (World.initial fun _ => 9)).any (fun w =>
          decide (w.returned = [firstMove])) = true := by
    decide +kernel
  rcases System.exists_run_of_execOk hExec with
    ⟨w, hRun, hReturned⟩
  have hReach : (World.system 1 1).Reachable
      (fun w event => event.regular w = true) w :=
    ⟨_, ⟨fun _ => 9, Function.injective_of_subsingleton _,
      rfl⟩, hRun⟩
  have hMem : firstMove ∈ w.returned := by
    rw [of_decide_eq_true hReturned]
    exact List.mem_singleton_self firstMove
  exact ⟨w, hReach, hMem,
    returned_updates_executed _ hReach hMem rfl⟩

/-
  Two goroutines share a clerk, and the second Move enters
  the log first: the first one is skipped as an old request,
  and its call returns.
-/
theorem shared_clerk_loses_update :
    ∃ w : World 1 1,
      (World.system 1 1).Reachable System.always w ∧
      firstMove ∈ w.returned ∧
      firstMove.updates = true ∧
      ¬ w.Executed (fun _ => false) firstMove := by
  have hExec :
      ((World.system 1 1).exec
        (twoMoves ++ startedInOrder 1 0 ++ [.poll 0 1 true])
        (World.initial fun _ => 9)).any (fun w =>
          decide (w.returned = [firstMove]) &&
          (executed (fun _ => false) w.log).all fun op =>
            decide (op.reqNum ≠ 1)) = true := by
    decide +kernel
  rcases System.exists_run_of_exec hExec with ⟨w, hRun, hw⟩
  rw [Bool.and_eq_true] at hw
  rcases hw with ⟨hReturned, hExecuted⟩
  refine ⟨w, ⟨_, ⟨fun _ => 9,
    Function.injective_of_subsingleton _, rfl⟩, hRun⟩,
    ?_, rfl, ?_⟩
  · rw [of_decide_eq_true hReturned]
    exact List.mem_singleton_self firstMove
  · rintro ⟨k, sc, _, op, hMem, hOp⟩
    have hWhole := (machine _).mem_accepted_of_take hMem
    have hNum := of_decide_eq_true
      (List.all_eq_true.mp hExecuted op hWhole)
    apply hNum
    rw [hOp]
    rfl

end Shardctrler

end RaftLab
