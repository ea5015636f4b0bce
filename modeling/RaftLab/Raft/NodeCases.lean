import RaftLab.Raft.HandlerCases
import RaftLab.Raft.Node

/-
  What a step of a server can do to its Raft structure.

  `RaftStep nd event rf' effects` lists, goroutine by
  goroutine, how a step changes the Raft structure of `nd`
  and which effects it has; it says nothing about the other
  goroutines. `Node.step_raftStep` shows that every step of
  a server is one of these.

  Main declarations:
    * `RaftStep`
    * `Node.step_raftStep`
-/

------------------------------------------------------------
-- Steps Of The Raft Structure
------------------------------------------------------------

namespace RaftLab

variable {C : Type} {n : Nat}

/- The effects of handling a vote request. -/
def voteEffects
    (args : RequestVoteArgs)
    (reply : RequestVoteReply) : List (Effect C n) :=
  if reply.voteGranted then
    [.vote args.term args.candiateId, .voteReply args reply]
  else
    [.voteReply args reply]

inductive RaftStep
    (nd : Node C n)
    (event : Event C n) :
    Raft C n → List (Effect C n) → Prop
  | requestVote
      (args : RequestVoteArgs)
      (hEvent : event = .requestVote args)
      (rf' : Raft C n)
      (reply : RequestVoteReply)
      (hCase : Raft.RequestVoteCase nd.rf args rf' reply) :
      RaftStep nd event rf' (voteEffects args reply)
  | appendEntries
      (args : AppendEntriesArgs C)
      (hEvent : event = .appendEntries args)
      (rf' : Raft C n)
      (reply : AppendEntriesReply)
      (hCase : Raft.AppendEntriesCase nd.rf args rf' reply) :
      RaftStep nd event rf' [.appendReply args reply]
  | installSnapshot
      (args : InstallSnapshotArgs)
      (hEvent : event = .installSnapshot args)
      (rf' : Raft C n)
      (reply : InstallSnapshotReply)
      (hCase :
        Raft.InstallSnapshotCase nd.rf args rf' reply) :
      RaftStep nd event rf' [.snapshotReply args reply]
  | start
      (command : Option C)
      (hEvent : event = .start command)
      (hLeader : nd.rf.state = .leader)
      (len : Int)
      (hLen : nd.rf.globalLogLen = some len) :
      RaftStep nd event
        (nd.rf.appended
          { index := len
            term := nd.rf.currentTerm
            type := .normal
            command := command } len) []
  | takeSnapshot
      (index : Int)
      (snapshot : Bytes)
      (hEvent : event = .takeSnapshot index snapshot)
      (prevIndex : Int)
      (l : Nat)
      (first : LogEntry C)
      (rest : List (LogEntry C))
      (hPrev : nd.rf.internalIndex index = some prevIndex)
      (hNewer : nd.rf.snapshotIndex < index)
      (hApplied : prevIndex ≤ nd.rf.lastApplied)
      (hLocal : nd.rf.localIndex prevIndex = some (l : Int))
      (hDrop : nd.rf.log.drop l = first :: rest) :
      RaftStep nd event
        (nd.rf.compacted index snapshot first rest) []
  | tickerTimeout
      (hEvent : event = .tickerTimeout)
      (hState : nd.rf.state ≠ .leader) :
      RaftStep nd event nd.rf.tickerTimeout []
  | election
      (i k : Nat)
      (hEvent : event = .run i)
      (hThread : nd.threads[i]? = some (.election k))
      (rf' : Raft C n)
      (args : RequestVoteArgs)
      (hStart : nd.rf.electionStart = some (rf', args)) :
      RaftStep nd event rf'
        (.vote args.term (nd.rf.me.val : Int) ::
          nd.otherPeers.map (fun i => .requestVote i args))
  | win
      (i k : Nat)
      (ballot : Int)
      (hEvent : event = .run i)
      (hThread : nd.threads[i]? =
        some (.electionChecked k ballot))
      (hCandiate : nd.rf.state = .candiate)
      (hBallot : ((n / 2 + 1 : Nat) : Int) ≤ ballot)
      (len : Int)
      (hLen : nd.rf.globalLogLen = some len) :
      RaftStep nd event (nd.rf.promoted len)
        [.elected nd.rf.currentTerm]
  | commit
      (i k : Nat)
      (hEvent : event = .run i)
      (hThread : nd.threads[i]? = some (.commitWait k))
      (N : Int)
      (hTarget : nd.rf.commitTarget = some (some N)) :
      RaftStep nd event { nd.rf with commitIndex := N } []
  | sync
      (i k : Nat)
      (hEvent : event = .run i)
      (hThread : nd.threads[i]? = some (.syncEntries k))
      (hToken : nd.cancelToken k = false)
      (requests : List (Fin n × AppendEntriesArgs C × Int))
      (hSync : nd.rf.syncEntries (List.finRange n) =
        some requests) :
      RaftStep nd event nd.rf
        (requests.map (fun r => .appendEntries r.1 r.2.1))
  | success
      (i k : Nat)
      (server : Fin n)
      (args : AppendEntriesArgs C)
      (newNextIndex : Int)
      (reply : AppendEntriesReply)
      (hEvent : event = .run i)
      (hThread : nd.threads[i]? =
        some (.appendReplied k server args newNextIndex
          reply))
      (hSuccess : reply.success = true) :
      RaftStep nd event
        (nd.rf.handleSuccess server newNextIndex) []
  | sendSnapshot
      (i k : Nat)
      (server : Fin n)
      (args : AppendEntriesArgs C)
      (newNextIndex : Int)
      (reply : AppendEntriesReply)
      (hEvent : event = .run i)
      (hThread : nd.threads[i]? =
        some (.appendReplied k server args newNextIndex
          reply))
      (hRefused : reply.success = false)
      (snapshot : InstallSnapshotArgs)
      (hFailed : nd.rf.handleFailedReply server args reply =
        some (.snapshot snapshot)) :
      RaftStep nd event nd.rf
        [.installSnapshot server snapshot]
  -- only `nextIndex` changes
  | nextIndex
      (next : Fin n → Int) :
      RaftStep nd event { nd.rf with nextIndex := next } []
  | applyEntries
      (rf' : Raft C n)
      (hApply : nd.rf.applyEntries = some rf') :
      RaftStep nd event rf' []
  | dequeue
      (msg : ApplyMsg C)
      (queue : List (ApplyMsg C))
      (hQueue : nd.rf.applyQueue = msg :: queue)
      (hEvent : event = .dequeue) :
      RaftStep nd event
        { nd.rf with applyQueue := queue } []
  | applyCh
      (msg : ApplyMsg C)
      (hHand : nd.inHand = some msg) :
      RaftStep nd event nd.rf [.applyCh msg]
  | idle :
      RaftStep nd event nd.rf []
  | restart
      (hEvent : event = .restart)
      (rf' : Raft C n)
      (hMake : Raft.make nd.rf.me nd.rf.persister =
        some rf') :
      RaftStep nd event rf' []

------------------------------------------------------------
-- Steps Of Goroutines
------------------------------------------------------------

namespace Node

theorem runThread_raftStep
    {nd nd' : Node C n}
    {i : Nat}
    {thread : Thread C n}
    {rest : List (Thread C n)}
    {effects : List (Effect C n)}
    (hThread : nd.threads[i]? = some thread)
    (hRun : nd.runThread rest thread =
      some (nd', effects)) :
    RaftStep nd (.run i) nd'.rf effects := by
  cases thread with
  | election k =>
      rcases Option.bind_eq_some_iff.mp hRun with
        ⟨⟨rf', args⟩, hStart, hRun⟩
      cases hRun
      have hMe : rf'.me = nd.rf.me := by
        rw [(Raft.electionStart_spec hStart).1]
        rfl
      dsimp only
      rw [hMe]
      exact .election i k rfl hThread rf' args hStart
  | electionLoop k =>
      cases hRun
      exact .idle
  | electionBallot k ballot =>
      rw [runThread] at hRun
      split at hRun <;>
      · cases hRun
        exact .idle
  | electionChecked k ballot =>
      rcases Option.bind_eq_some_iff.mp hRun with
        ⟨⟨rf', won⟩, hWin, hRun⟩
      rcases Raft.electionWin_cases hWin with
        ⟨rfl, hCandiate, hBallot, len, hLen, rfl⟩ |
        ⟨rfl, rfl⟩
      · cases hRun
        exact .win i k ballot rfl hThread hCandiate hBallot
          len hLen
      · cases hRun
        exact .idle
  | electionWon =>
      cases hRun
      exact .idle
  | requestVote k server args => cases hRun
  | voteCancel k =>
      cases hRun
      exact .idle
  | voteGranted k server =>
      cases hRun
      exact .idle
  | serveAsLeader term k =>
      rw [runThread] at hRun
      split at hRun <;>
      · cases hRun
        exact .idle
  | commitCheck k =>
      rw [runThread] at hRun
      split at hRun <;>
      · cases hRun
        exact .idle
  | commitWait k =>
      rcases Option.bind_eq_some_iff.mp hRun with
        ⟨rf', hCommit, hRun⟩
      cases hRun
      rcases Raft.commitCheck_cases hCommit with
        ⟨rfl, _⟩ | ⟨N, hTarget, rfl⟩
      · exact .idle
      · exact .commit i k rfl hThread N hTarget
  | syncEntries k =>
      rw [runThread, runSyncEntries] at hRun
      split at hRun
      · cases hRun
        exact .idle
      · rename_i hToken
        rcases Option.bind_eq_some_iff.mp hRun with
          ⟨requests, hSync, hRun⟩
        cases hRun
        exact .sync i k rfl hThread (by simpa using hToken)
          requests hSync
  | appendEntries k server args newNextIndex => cases hRun
  | appendReplied k server args newNextIndex reply =>
      rw [runThread, runAppendReplied] at hRun
      split at hRun
      · rename_i hSuccess
        cases hRun
        exact .success i k server args newNextIndex reply rfl
          hThread hSuccess
      · rename_i hRefused
        rcases Option.bind_eq_some_iff.mp hRun with
          ⟨outcome, hFailed, hRun⟩
        cases outcome with
        | cancel =>
            cases hRun
            exact .idle
        | nextIndex rf' =>
            cases hRun
            rcases Raft.handleFailedReply_nextIndex hFailed
              with ⟨next, rfl⟩
            exact .nextIndex _
        | snapshot snapshot =>
            cases hRun
            exact .sendSnapshot i k server args newNextIndex
              reply rfl hThread (by simpa using hRefused)
              snapshot hFailed
  | installSnapshot k server args => cases hRun
  | installReplied k server args reply =>
      rw [runThread, Raft.handleSnapshotReply] at hRun
      split at hRun
      · cases hRun
        exact .idle
      · rename_i rf' hReply
        split at hReply
        · cases hReply
        · cases hReply
          cases hRun
          exact .nextIndex _

theorem receiveVote_rf
    {nd nd' : Node C n}
    {rest : List (Thread C n)}
    {reply : RequestVoteReply}
    {thread : Thread C n}
    (hReceive : nd.receiveVote rest reply thread =
      some nd') :
    nd'.rf = nd.rf := by
  unfold receiveVote at hReceive
  split at hReceive
  · split at hReceive
    · cases hReceive
      rfl
    · split at hReceive
      · cases hReceive
        rfl
      · split at hReceive <;>
        · cases hReceive
          rfl
  · cases hReceive

theorem receiveAppend_rf
    {nd nd' : Node C n}
    {rest : List (Thread C n)}
    {reply : AppendEntriesReply}
    {thread : Thread C n}
    (hReceive : nd.receiveAppend rest reply thread =
      some nd') :
    nd'.rf = nd.rf := by
  unfold receiveAppend at hReceive
  split at hReceive
  · split at hReceive <;>
    · cases hReceive
      rfl
  · cases hReceive

theorem receiveSnapshot_rf
    {nd nd' : Node C n}
    {rest : List (Thread C n)}
    {reply : InstallSnapshotReply}
    {thread : Thread C n}
    (hReceive : nd.receiveSnapshot rest reply thread =
      some nd') :
    nd'.rf = nd.rf := by
  unfold receiveSnapshot at hReceive
  split at hReceive
  · split at hReceive <;>
    · cases hReceive
      rfl
  · cases hReceive

theorem silent_eq_some_iff
    {step : Option (Node C n)}
    {nd : Node C n}
    {effects : List (Effect C n)} :
    silent step = some (nd, effects) ↔
      step = some nd ∧ effects = [] := by
  cases step with
  | none => simp [silent]
  | some nd₁ =>
      simp only [silent, Option.map_some, Option.some.injEq,
        Prod.mk.injEq]
      constructor
      · rintro ⟨rfl, rfl⟩
        exact ⟨rfl, rfl⟩
      · rintro ⟨rfl, rfl⟩
        exact ⟨rfl, rfl⟩

------------------------------------------------------------
-- Steps Of A Server
------------------------------------------------------------

theorem step_raftStep
    {nd nd' : Node C n}
    {event : Event C n}
    {effects : List (Effect C n)}
    (hStep : nd.step event = some (nd', effects)) :
    RaftStep nd event nd'.rf effects := by
  cases event with
  | requestVote args =>
      rcases Option.bind_eq_some_iff.mp hStep with
        ⟨⟨rf', reply⟩, hVote, hStep⟩
      cases hStep
      exact .requestVote args rfl rf' reply
        (Raft.requestVote_case hVote)
  | appendEntries args =>
      rcases Option.bind_eq_some_iff.mp hStep with
        ⟨⟨rf', reply⟩, hAppend, hStep⟩
      cases hStep
      exact .appendEntries args rfl rf' reply
        (Raft.appendEntries_case hAppend)
  | installSnapshot args =>
      rcases Option.bind_eq_some_iff.mp hStep with
        ⟨⟨rf', reply⟩, hInstall, hStep⟩
      cases hStep
      exact .installSnapshot args rfl rf' reply
        (Raft.installSnapshot_case hInstall)
  | start command =>
      rcases Option.bind_eq_some_iff.mp hStep with
        ⟨⟨rf', out⟩, hStart, hStep⟩
      cases hStep
      rcases Raft.start_cases hStart with
        ⟨_, rfl⟩ | ⟨hLeader, len, hLen, rfl⟩
      · exact .idle
      · exact .start command rfl hLeader len hLen
  | takeSnapshot index snapshot =>
      rcases Option.bind_eq_some_iff.mp hStep with
        ⟨rf', hSnapshot, hStep⟩
      cases hStep
      rcases Raft.takeSnapshot_cases hSnapshot with
        rfl | ⟨prevIndex, l, first, rest, hPrev, hNewer,
          hApplied, hLocal, hDrop, rfl⟩
      · exact .idle
      · exact .takeSnapshot index snapshot rfl prevIndex l
          first rest hPrev hNewer hApplied hLocal hDrop
  | tickerTimeout =>
      rw [step] at hStep
      split at hStep
      · rename_i hGuard
        cases hStep
        exact .tickerTimeout rfl hGuard.2
      · cases hStep
  | tickerCancel =>
      rcases Option.map_eq_some_iff.mp hStep with
        ⟨k, _, hStep⟩
      cases hStep
      exact .idle
  | run i =>
      rcases Option.bind_eq_some_iff.mp hStep with
        ⟨thread, hThread, hRun⟩
      exact runThread_raftStep hThread hRun
  | voteReply i reply =>
      rcases Option.bind_eq_some_iff.mp hStep with
        ⟨thread, _, hSilent⟩
      rcases silent_eq_some_iff.mp hSilent with
        ⟨hReceive, rfl⟩
      rw [receiveVote_rf hReceive]
      exact .idle
  | appendReply i reply =>
      rcases Option.bind_eq_some_iff.mp hStep with
        ⟨thread, _, hSilent⟩
      rcases silent_eq_some_iff.mp hSilent with
        ⟨hReceive, rfl⟩
      rw [receiveAppend_rf hReceive]
      exact .idle
  | snapshotReply i reply =>
      rcases Option.bind_eq_some_iff.mp hStep with
        ⟨thread, _, hSilent⟩
      rcases silent_eq_some_iff.mp hSilent with
        ⟨hReceive, rfl⟩
      rw [receiveSnapshot_rf hReceive]
      exact .idle
  | applyEntries =>
      rcases Option.bind_eq_some_iff.mp hStep with
        ⟨rf', hApply, hStep⟩
      cases hStep
      exact .applyEntries rf' hApply
  | dequeue =>
      rw [step] at hStep
      split at hStep
      · rename_i msg queue _ hQueue
        cases hStep
        exact .dequeue msg queue hQueue rfl
      · cases hStep
  | applyCh =>
      rcases Option.map_eq_some_iff.mp hStep with
        ⟨msg, hHand, hStep⟩
      cases hStep
      exact .applyCh msg hHand
  | restart =>
      rcases silent_eq_some_iff.mp hStep with ⟨hBoot, rfl⟩
      rcases Option.map_eq_some_iff.mp hBoot with
        ⟨rf', hMake, rfl⟩
      exact .restart rfl rf' hMake

end Node

end RaftLab
