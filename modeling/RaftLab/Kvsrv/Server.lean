import Mathlib.Algebra.GroupWithZero.Nat
import Mathlib.Logic.Function.Basic
import RaftLab.Lib.Linearizability
import RaftLab.Lib.Transition

/-
  The single-server key/value store (src/kvsrv) and its
  clerks.

  The handlers hold all locks they need for their whole body,
  so each execution is one step. Go maps are read with their
  zero value as default and are never iterated, so they are
  total functions. A clerk sends the same request until Call
  succeeds: every attempt is lost before execution, executed
  with its reply lost, or executed and answered.

  Main declarations:
    * `Kvsrv.KVServer`, `Kvsrv.KVServer.handle`
    * `Kvsrv.Clerk`, `Kvsrv.World`, `Kvsrv.World.step`
    * `Kvsrv.system`, `Kvsrv.mapObject`
-/

------------------------------------------------------------
-- The Server
------------------------------------------------------------

namespace RaftLab

namespace Kvsrv

/- A call of Clerk.Get, Clerk.Put or Clerk.Append. -/
inductive Op where
  | get (key : String)
  | put (key : String) (value : String)
  | append (key : String) (value : String)
deriving DecidableEq, Repr

structure KVServer where
  mp : String → String
  cliMap : Int → Bool
  dupMap : Int → String

/- StartKVServer -/
def KVServer.start : KVServer where
  mp := fun _ => ""
  cliMap := fun _ => false
  dupMap := fun _ => ""

namespace KVServer

def get (kv : KVServer) (key : String) :
    KVServer × String :=
  (kv, kv.mp key)

/- Put leaves the Value of its reply empty. -/
def put (kv : KVServer) (key value : String) :
    KVServer × String :=
  ({ kv with mp := Function.update kv.mp key value }, "")

def append
    (kv : KVServer)
    (key value : String)
    (id : Int)
    (opstate : Bool) : KVServer × String :=
  -- client call for an operation which has been done
  if kv.cliMap id ≠ opstate then
    (kv, kv.dupMap id)
  else
    let value' := kv.mp key
    ({ mp := Function.update kv.mp key (value' ++ value)
       cliMap :=
         Function.update kv.cliMap id (!kv.cliMap id)
       dupMap := Function.update kv.dupMap id value' },
      value')

/- The handler of a request sent by clerk `id`. -/
def handle
    (kv : KVServer)
    (id : Int)
    (opstate : Bool) :
    Op → KVServer × String
| .get key => kv.get key
| .put key value => kv.put key value
| .append key value => kv.append key value id opstate

end KVServer

------------------------------------------------------------
-- Clerks
------------------------------------------------------------

/-
  The request a clerk is sending: the number of the call in
  the history, what is called, and args.Opstate.
-/
structure Request where
  call : Nat
  op : Op
  opstate : Bool
deriving DecidableEq, Repr

structure Clerk where
  id : Int
  opstate : Bool
  request : Option Request
deriving DecidableEq, Repr

/- MakeClerk, with the id that nrand() returned. -/
def Clerk.make (id : Int) : Clerk where
  id := id
  opstate := false
  request := none

/- The start of a call: only Append flips the opstate. -/
def Clerk.begin
    (ck : Clerk)
    (call : Nat)
    (op : Op) : Clerk where
  id := ck.id
  opstate :=
    match op with
    | .append _ _ => !ck.opstate
    | _ => ck.opstate
  request := some {
    call := call
    op := op
    opstate := ck.opstate }

------------------------------------------------------------
-- Clerks And Server Together
------------------------------------------------------------

/-
  `history` is what the callers see. `executed` lists the
  calls of which an attempt has been executed.
-/
structure World (n : Nat) where
  server : KVServer
  clerks : Fin n → Clerk
  history : List (CallEvent Op String)
  executed : List Nat

inductive Action (n : Nat) where
  | invoke (c : Fin n) (op : Op)
  | lost (c : Fin n)
  | execute (c : Fin n) (answered : Bool)
deriving DecidableEq, Repr

namespace World

variable {n : Nat}

/- A call starts; its number is its place in the history. -/
def invoke
    (w : World n)
    (c : Fin n)
    (op : Op) : World n :=
  { w with
    clerks := Function.update w.clerks c
      ((w.clerks c).begin w.history.length op)
    history := w.history ++ [.invoke w.history.length op] }

/- An attempt is executed; its reply may be lost. -/
def execute
    (w : World n)
    (c : Fin n)
    (request : Request)
    (answered : Bool) : World n :=
  let ck := w.clerks c
  let result :=
    w.server.handle ck.id request.opstate request.op
  { server := result.1
    clerks :=
      if answered then
        Function.update w.clerks c
          { ck with request := none }
      else
        w.clerks
    history :=
      if answered then
        w.history ++ [.respond request.call result.2]
      else
        w.history
    executed := w.executed ++ [request.call] }

def step : Action n → World n → Option (World n)
| .invoke c op, w =>
    match (w.clerks c).request with
    | none => some (w.invoke c op)
    | some _ => none
| .lost c, w =>
    match (w.clerks c).request with
    | none => none
    | some _ => some w
| .execute c answered, w =>
    match (w.clerks c).request with
    | none => none
    | some request => some (w.execute c request answered)

/- New clerks with distinct ids and a started server. -/
def initial (ids : Fin n → Int) : World n where
  server := KVServer.start
  clerks := fun c => Clerk.make (ids c)
  history := []
  executed := []

end World

def system (n : Nat) : System (World n) (Action n) where
  init w :=
    ∃ ids, Function.Injective ids ∧ w = World.initial ids
  step := World.step

/- The sequential map. -/
def mapObject : SeqObject (String → String) Op String where
  init := fun _ => ""
  apply mp
    | .get key => (mp, mp key)
    | .put key value => (Function.update mp key value, "")
    | .append key value =>
        (Function.update mp key (mp key ++ value), mp key)

/-
  A Put attempt that is executed after an earlier attempt of
  the same call finds its own value still under its key.
-/
def putKept {n : Nat} (w : World n) : Action n → Bool
| .execute c _ =>
    match (w.clerks c).request with
    | some request =>
        match request.op with
        | .put key value =>
            !w.executed.contains request.call ||
              w.server.mp key == value
        | _ => true
    | none => true
| _ => true

end Kvsrv

end RaftLab
