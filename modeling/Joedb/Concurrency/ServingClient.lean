import Joedb.Concurrency.WritableClient

/-!
# The journal under a server

A server writes to its journal through two doors. The payload of a push goes to
the file directly, behind the checkpoint, and the checkpoint follows it there.
Then the client of the server makes a checkpoint of its own, as any client does
at the end of a transaction, and it makes it where its own buffer stands: that
is where the journal ended when the client took its lock.

With the options of the client at their default nothing waits in that buffer,
so the second checkpoint has nothing to add, and a push that was acknowledged
is there for good. The option `hard_checkpoint` does not make it any safer: the
hard checkpoint goes to where the buffer stands, which is before the payload.

Which session gets the lock, and when, is no matter of the journal. Here a
session may take it whenever nobody has it.
-/

namespace Joedb

open ByteFile StateExcept

/-- A push that was acknowledged. -/
structure Acknowledged where
  start : Int
  stop : Int
  payload : Bytes

/-- What a session receives of a push, and what comes of the rest: the answer of
the connection further up, and whether another session waits for the lock. -/
structure PushRequest where
  start : Int
  stop : Int
  unlockAfter : Bool
  pieces : List Bytes
  now : BitVec 64
  reply : Except Exn Nat
  waited : Bool

/-- The bytes that are to come. -/
def PushRequest.size (p : PushRequest) : Nat := (p.stop - p.start).toNat

/-- The bytes that came. -/
def PushRequest.payload (p : PushRequest) : Bytes := p.pieces.flatten

/-- A server, as far as its journal is concerned. The client is locked when the
server has a `client_lock`. -/
structure ServingClient (ι : Type) where
  client : WritableClient Unit
  holder : Option ι
  acknowledged : List Acknowledged

namespace ServingClient

variable {ι : Type} [DecidableEq ι]

/-- The constructor. Before it, what was not pushed yet is pushed further up. -/
def start (client : WritableClient Unit) (reply : Except Exn Nat) (x : Exchange) :
    Except Exn (ServingClient ι) := do
  let pushed : EStateM Exn (WritableClient Unit) Unit :=
    if client.journal.getCheckpoint > client.connectionCheckpoint then WritableClient.push reply
    else pure ()
  let locked : EStateM Exn (WritableClient Unit) Unit :=
    if client.journal.isShared then pure () else WritableClient.lock .skip x
  match (pushed >>= fun _ => locked) client with
  | .ok _ c => .ok ⟨c, none, []⟩
  | .error e _ => .error e

/-- `Session::lock`, when nobody has the lock. A session that cannot have the
lock of the client ends. -/
def lock (s : ServingClient ι) (i : ι) (x : Exchange) : ServingClient ι :=
  if s.holder.isSome then s
  else if s.client.locked then { s with holder := some i }
  else
    match WritableClient.lock .skip x s.client with
    | .ok _ c => { s with client := c, holder := some i }
    | .error _ c => { s with client := c }

/-- `Session::unlock`, by request or when a session ends or runs out of time. -/
def unlock (s : ServingClient ι) (waited : Bool) : ServingClient ι :=
  { s with holder := none
           client := if s.client.journal.isShared && !waited then s.client.unlock else s.client }

/-- What a session pulls first. -/
def pull (s : ServingClient ι) (x : Exchange) : ServingClient ι :=
  if s.client.locked then s else { s with client := after (WritableClient.pull .skip x) s.client }

/-- `push_writer`, which writes what comes at the tail. -/
def writePayload (s : ServingClient ι) (p : PushRequest) : ServingClient ι :=
  let j := s.client.journal
  { s with client := { s.client with
      journal := j.withFile (j.file.pwriteAll j.getCheckpoint p.pieces) } }

/-- The checkpoints of a payload that is there, up to `position`. -/
def checkpointPush (s : ServingClient ι) (p : PushRequest) (position : Nat) :
    EStateM Exn (WritableClient Unit) Unit := do
  set { s.client with journal := s.client.journal.softCheckpointAt position }
  modify (WritableClient.doCheckpoint p.now)
  WritableClient.push p.reply

/-- The end of `push`, with the status of an accepted push. -/
def finishPush (s : ServingClient ι) (p : PushRequest) : ServingClient ι :=
  let s := { s with acknowledged := s.acknowledged ++ [⟨p.start, p.stop, p.payload⟩] }
  if p.unlockAfter then s.unlock p.waited else s

/-- The payload of a push that is not in conflict. One that stays incomplete is
given up, and so is one that cannot be pushed further. -/
def receive (s : ServingClient ι) (p : PushRequest) : ServingClient ι :=
  let position := s.client.journal.getCheckpoint + p.payload.length
  let s := s.writePayload p
  if p.payload.length < p.size then s.unlock p.waited
  else if p.stop > p.start then
    match s.checkpointPush p position s.client with
    | .ok _ c =>
        let c := if c.journal.isShared && p.unlockAfter then c.unlock else c
        { s with client := c }.finishPush p
    | .error _ c => { s with client := c }.unlock p.waited
  else s.finishPush p

/-- The session of a push that is neither refused nor in conflict. -/
def Accepts (s : ServingClient ι) (i : ι) (p : PushRequest) : Prop :=
  s.holder = some i ∧ p.start = s.client.journal.getCheckpoint

instance (s : ServingClient ι) (i : ι) (p : PushRequest) : Decidable (s.Accepts i p) :=
  inferInstanceAs (Decidable (_ ∧ _))

/-- `push`. One in conflict is thrown away. -/
def push (s : ServingClient ι) (i : ι) (p : PushRequest) (x : Exchange) : ServingClient ι :=
  let s := s.lock i x
  if s.Accepts i p then s.receive p
  else if s.holder = some i ∧ p.unlockAfter then s.unlock p.waited
  else s

inductive Event (ι : Type) where
  | lock (i : ι) (x : Exchange)
  | unlock (waited : Bool)
  | pull (x : Exchange)
  | push (i : ι) (p : PushRequest) (x : Exchange)

/-- No more bytes are read than were announced. -/
def step (s : ServingClient ι) : Event ι → ServingClient ι
  | .lock i x => s.lock i x
  | .unlock waited => s.unlock waited
  | .pull x => s.pull x
  | .push i p x => if p.payload.length ≤ p.size then s.push i p x else s

def run (s : ServingClient ι) (events : List (Event ι)) : ServingClient ι := events.foldl step s

end ServingClient

end Joedb
