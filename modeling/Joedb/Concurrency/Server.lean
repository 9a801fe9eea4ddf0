import Joedb.Lib.Bytes
import Mathlib.Logic.Function.Basic

/-!
# The server

One thread runs the sessions of a server, and a session gives way only where it
waits: for bytes of its client, for a reply to be written, for a timer. What it
does between two waits is one event here, and the phase of a session says what
it is waiting for.

The journal is that of a server that alone owns its file: its bytes, and the
checkpoint. The checkpoints of the server's own client are soft, so a push
moves the checkpoint to where its payload ends and nothing else does. What may
fail outside (taking the client lock, pushing further up) is in the events.

Three lists are no part of the program. `pushes` remembers every push that moved
the checkpoint, `asked` the sessions that had to wait for the lock, `served`
those that then obtained it.
-/

namespace Joedb

open ByteFile

/-- `push_status`: the code of the request, or what went wrong. -/
inductive PushStatus where
  | accepted
  | pullOnly
  | conflict
  | timedOut
  deriving DecidableEq, Repr

/-- A push whose payload is being received. `received` is what came so far. -/
structure Push where
  start : Int
  stop : Int
  unlockAfter : Bool
  status : PushStatus
  writer : Option Nat
  remaining : Nat
  received : Bytes

/-- A push with more of its payload. -/
def Push.grow (p : Push) (bytes : Bytes) : Push :=
  { p with writer := p.writer.map (· + bytes.length)
           remaining := p.remaining - bytes.length
           received := p.received ++ bytes }

/-- What a server answers. The start of the data, the range of a push, and the
range and the hash of a comparison are what the reply is about; they are not
sent. -/
inductive Reply where
  | handshake (checkpoint : Nat) (writable : Bool)
  | hash (full : Bool) (start stop : Int) (hash : Bytes) (matching : Bool)
  /-- The code is `R` instead when a pull-only server was to be locked. -/
  | data (refused : Bool) (start stop : Int) (bytes : Bytes)
  | unlocked
  | pushed (start stop : Int) (status : PushStatus)

inductive Request where
  | checkHash (full : Bool) (start stop : Int) (hash : Bytes)
  | read (start stop : Int)
  | pull (lockBefore sendData wait : Bool) (checkpoint : Int)
  | unlock
  | push (start stop : Int) (unlockAfter : Bool)
  | quit

/-- What a session waits for. -/
inductive Phase where
  | absent
  | connected
  | ready
  | waitingPull (lockBefore sendData : Bool) (checkpoint : Int)
  | waitingLock (sendData : Bool) (checkpoint : Int)
  | receiving (push : Push)
  | replying (reply : Reply)

/-- What a server is started with. -/
structure ServerOptions where
  /-- The client is a `Writable_Journal_Client`. -/
  writable : Bool
  shared : Bool
  /-- `get_full_hash` and `get_fast_hash` of a range. -/
  hash : Bool → Bytes → Bytes

/-- A push that moved the checkpoint. -/
structure Pushed (ι : Type) where
  session : ι
  start : Nat
  payload : Bytes

structure Server (ι : Type) where
  data : Bytes
  checkpoint : Nat
  locked : Bool
  clientLock : Bool
  lockWaiters : List ι
  pullWaiters : List ι
  phase : ι → Phase
  locking : ι → Bool
  /-- The timer of a session that waits for the lock was cancelled. -/
  woken : ι → Bool
  pushes : List (Pushed ι)
  asked : List ι
  served : List ι

namespace Server

variable {ι : Type} [DecidableEq ι] (k : ServerOptions)

def setPhase (s : Server ι) (i : ι) (p : Phase) : Server ι :=
  { s with phase := Function.update s.phase i p }

/-- The constructor: a server that does not share its file locks its client for
good. -/
def start (data : Bytes) (checkpoint : Nat) : Server ι where
  data := data
  checkpoint := checkpoint
  locked := false
  clientLock := k.writable && !k.shared
  lockWaiters := []
  pullWaiters := []
  phase _ := .absent
  locking _ := false
  woken _ := false
  pushes := []
  asked := []
  served := []

/-! ## The lock -/

/-- `unlock`: to the first that waits, or to nobody. -/
def unlock (s : Server ι) (i : ι) : Server ι :=
  if s.locking i then
    let s := { s with locking := Function.update s.locking i false }
    match s.lockWaiters with
    | [] => { s with locked := false, clientLock := s.clientLock && !k.shared }
    | w :: _ => { s with woken := Function.update s.woken w true }
  else s

/-- `cleanup`, when a session ends or throws. -/
def cleanup (s : Server ι) (i : ι) : Server ι :=
  let s := s.unlock k i
  { s with lockWaiters := s.lockWaiters.erase i
           pullWaiters := s.pullWaiters.erase i
           phase := Function.update s.phase i .absent }

/-- The end of `lock`, with the rest of the session. The client lock may throw,
or there may be none to take. -/
def takeLock (s : Server ι) (i : ι) (acquired : Bool) (rest : Bool → Server ι → Server ι) :
    Server ι :=
  let s := { s with locked := true, locking := Function.update s.locking i true }
  if s.clientLock then rest false s
  else if !k.writable then rest true s
  else if acquired then rest false { s with clientLock := true }
  else s.cleanup k i

/-! ## Replies -/

def reply (s : Server ι) (i : ι) (r : Reply) : Server ι := s.setPhase i (.replying r)

/-- `send`, with the reader it is given. Reading before the file throws. -/
def send (s : Server ι) (i : ι) (refused : Bool) (start stop : Int) : Server ι :=
  let current := min start stop
  if current < 0 ∧ current < stop then s.cleanup k i
  else s.reply i (.data refused current stop (slice s.data current.toNat stop.toNat))

def checkHash (s : Server ι) (i : ι) (full : Bool) (start stop : Int) (hash : Bytes) :
    Server ι :=
  if start < 0 ∨ stop < 0 ∨ start > stop ∨ stop > s.checkpoint then
    s.reply i (.hash full start stop hash false)
  else
    s.reply i (.hash full start stop hash
      (hash = k.hash full (slice s.data start.toNat stop.toNat)))

def read (s : Server ι) (i : ι) (start stop : Int) : Server ι :=
  let stop := min stop s.checkpoint
  let start := min start stop
  s.send k i false start stop

/-! ## Pulling -/

/-- The end of `pull`. -/
def sendTail (s : Server ι) (i : ι) (sendData : Bool) (checkpoint : Int) (refused : Bool) :
    Server ι :=
  s.send k i refused (if sendData then checkpoint else s.checkpoint) s.checkpoint

/-- `lock` within `pull`. -/
def pullLocked (s : Server ι) (i : ι) (sendData : Bool) (checkpoint : Int)
    (acquired : Bool) : Server ι :=
  if s.locking i then s.cleanup k i
  else if !s.locked then
    s.takeLock k i acquired fun refused s => s.sendTail k i sendData checkpoint refused
  else
    { s with lockWaiters := s.lockWaiters ++ [i]
             asked := s.asked ++ [i]
             woken := Function.update s.woken i false
             phase := Function.update s.phase i (.waitingLock sendData checkpoint) }

/-- `pull`, past the wait for new data. -/
def pullOn (s : Server ι) (i : ι) (lockBefore sendData : Bool) (checkpoint : Int)
    (acquired : Bool) : Server ι :=
  if lockBefore then s.pullLocked k i sendData checkpoint acquired
  else s.sendTail k i sendData checkpoint false

def pull (s : Server ι) (i : ι) (lockBefore sendData wait : Bool) (checkpoint : Int)
    (acquired : Bool) : Server ι :=
  if wait ∧ checkpoint = s.checkpoint then
    { s with pullWaiters := s.pullWaiters ++ [i]
             phase := Function.update s.phase i (.waitingPull lockBefore sendData checkpoint) }
  else s.pullOn k i lockBefore sendData checkpoint acquired

/-! ## Pushing -/

/-- The end of `push`, when the whole payload is there. -/
def finishPush (s : Server ι) (i : ι) (p : Push) : Server ι :=
  let s := if p.unlockAfter then s.unlock k i else s
  { s with pullWaiters := [] }.reply i (.pushed p.start p.stop p.status)

/-- The checkpoint of a complete payload, and what the server pushes further
up, which may throw. -/
def checkpointPush (s : Server ι) (i : ι) (p : Push) (pushedOn : Bool) : Server ι :=
  match p.writer with
  | none => s.finishPush k i p
  | some position =>
      if s.clientLock then
        let pushed : Pushed ι := ⟨i, s.checkpoint, p.received⟩
        let s : Server ι := { s with
          checkpoint := max s.checkpoint position
          pushes := s.pushes ++ [pushed] }
        if pushedOn then
          { s with clientLock := !(k.shared && p.unlockAfter) }.finishPush k i p
        else s.cleanup k i
      else s.finishPush k i p

/-- What `push` decides before the payload comes: with the lock and from the
checkpoint, or in conflict. -/
def newPush (s : Server ι) (i : ι) (start stop : Int) (unlockAfter : Bool) : Push :=
  let conflict := !s.locking i || start ≠ s.checkpoint
  let status :=
    if !k.writable then PushStatus.pullOnly
    else if conflict then .conflict else .accepted
  let writer := if status = .accepted ∧ s.clientLock then some s.checkpoint else none
  ⟨start, stop, unlockAfter, status, writer, (stop - start).toNat, []⟩

def beginPush (s : Server ι) (i : ι) (start stop : Int) (unlockAfter : Bool) : Server ι :=
  let p := s.newPush k i start stop unlockAfter
  if p.remaining = 0 then s.finishPush k i p else s.setPhase i (.receiving p)

def push (s : Server ι) (i : ι) (start stop : Int) (unlockAfter : Bool) (acquired : Bool) :
    Server ι :=
  if s.locked ∧ !s.locking i then s.cleanup k i
  else if !s.locked then
    if s.locking i then s.cleanup k i
    else s.takeLock k i acquired fun _ s => s.beginPush k i start stop unlockAfter
  else s.beginPush k i start stop unlockAfter

/-- What `push_writer` does with bytes of a payload. -/
def writePayload (s : Server ι) (p : Push) (bytes : Bytes) : Server ι :=
  match p.writer with
  | none => s
  | some position => { s with data := ByteFile.pwrite s.data position bytes }

/-- Bytes of a payload. -/
def receive (s : Server ι) (i : ι) (p : Push) (bytes : Bytes) (pushedOn : Bool) : Server ι :=
  let s := s.writePayload p bytes
  if (p.grow bytes).remaining = 0 then s.checkpointPush k i (p.grow bytes) pushedOn
  else s.setPhase i (.receiving (p.grow bytes))

/-! ## Events -/

inductive Event (ι : Type) where
  | connect (i : ι)
  /-- The bytes of a handshake, of a version that is spoken or not joedb at all. -/
  | hello (i : ι) (joedb : Bool)
  | request (i : ι) (r : Request) (acquired : Bool)
  | payload (i : ι) (bytes : Bytes) (pushedOn : Bool)
  | resume (i : ι) (acquired : Bool)
  | written (i : ι)
  | timeout (i : ι)
  | disconnect (i : ι)

def request (s : Server ι) (i : ι) (r : Request) (acquired : Bool) : Server ι :=
  match r with
  | .checkHash full start stop hash => s.checkHash k i full start stop hash
  | .read start stop => s.read k i start stop
  | .pull lockBefore sendData wait checkpoint =>
      s.pull k i lockBefore sendData wait checkpoint acquired
  | .unlock => (s.unlock k i).reply i .unlocked
  | .push start stop unlockAfter => s.push k i start stop unlockAfter acquired
  | .quit => s.cleanup k i

/-- The handler of the lock timer. -/
def timeout (s : Server ι) (i : ι) : Server ι :=
  let s := match s.phase i with
    | .receiving p =>
        if p.writer.isSome then
          s.setPhase i (.receiving { p with writer := none, status := .timedOut })
        else s
    | _ => s
  s.unlock k i

/-- A timer that ended or was cancelled. -/
def resume (s : Server ι) (i : ι) (acquired : Bool) : Server ι :=
  match s.phase i with
  | .waitingPull lockBefore sendData checkpoint =>
      { s with pullWaiters := s.pullWaiters.erase i }.pullOn k i lockBefore sendData
        checkpoint acquired
  | .waitingLock sendData checkpoint =>
      if s.woken i then
        { s with lockWaiters := s.lockWaiters.tail
                 served := s.served ++ [i]
                 woken := Function.update s.woken i false }.takeLock k i acquired
          fun refused s => s.sendTail k i sendData checkpoint refused
      else s
  | _ => s

/-- What an event does. One that the phase does not wait for does nothing: a
session that waits for a timer hears nothing of its client. -/
def step (s : Server ι) : Event ι → Server ι
  | .connect i =>
      match s.phase i with
      | .absent => s.setPhase i .connected
      | _ => s
  | .hello i joedb =>
      match s.phase i with
      | .connected =>
          if joedb then s.reply i (.handshake s.checkpoint k.writable) else s.cleanup k i
      | _ => s
  | .request i r acquired =>
      match s.phase i with
      | .ready => s.request k i r acquired
      | _ => s
  | .payload i bytes pushedOn =>
      match s.phase i with
      | .receiving p =>
          if 0 < bytes.length ∧ bytes.length ≤ p.remaining then s.receive k i p bytes pushedOn
          else s
      | _ => s
  | .resume i acquired => s.resume k i acquired
  | .written i =>
      match s.phase i with
      | .replying _ => s.setPhase i .ready
      | _ => s
  | .timeout i => s.timeout k i
  | .disconnect i =>
      match s.phase i with
      | .absent => s
      | .waitingPull .. => s
      | .waitingLock .. => s
      | _ => s.cleanup k i

end Server

end Joedb
