import Joedb.Concurrency.ServerFrame
import Joedb.Journal.Header

/-!
# A connection that reconnects

A `Robust_Connection` does each call of its client until it succeeds, over one
session of the server after another. Whatever fails (an attempt to connect, a
request, a reply) is one event here, `fail`, which may come at any time: what was
under way on the session may still arrive, but nobody waits for it any more. A
`Disconnection` is not retried. It ends the call.

A wire is what a session has under way in each direction. What the client sends
behind a request, the payload of a push, is read by the server in pieces. The
topic of a wire is no part of the program: it remembers what the last request on
it was about. The client has one call at a time, the journal of it is what lies
below its checkpoint, and every other session of the server does what it likes.
-/

namespace Joedb

open ByteFile

/-- The sessions of a server: those of one client, as it opens them, and those of
all others. -/
inductive Party where
  | mine (n : Nat)
  | other (n : Nat)
  deriving DecidableEq, Repr

/-- What a client asks of its connection. The checkpoint a push starts from is
that of the connection. -/
inductive ClientCall where
  | handshake
  | checkMatchingContent (start stop : Int)
  | push (until_ : Int) (unlockAfter : Bool)
  | pull (lockBefore wait : Bool)
  | pread (start stop : Int)
  | ping
  | unlock
  deriving DecidableEq, Repr

/-- How a call ended: with the range that was pushed, or otherwise well, or with
an exception. -/
inductive Outcome where
  | pushed (start stop : Int)
  | returned
  | threw (call : Option ClientCall)
  deriving DecidableEq, Repr

/-- What the connection waits for: the server's part of a handshake, the result of
the content check behind it, or the reply to a call. `none` is the constructor,
which calls nothing. -/
inductive Stage where
  | idle
  | connecting (oldServerCheckpoint : Int) (call : Option ClientCall)
  | checking (oldServerCheckpoint : Int) (call : Option ClientCall)
  | calling (call : ClientCall)

inductive Msg where
  | hello
  | request (r : Request)

structure Line where
  inbox : Option Msg
  rest : Bytes
  outbox : Option Reply
  topic : Server.Topic

structure Robust where
  journal : Bytes
  connectionCheckpoint : Int
  /-- `get_server_checkpoint` of the connection of the session. -/
  serverCheckpoint : Int
  session : Nat
  /-- There is a `handshake_journal`. -/
  shaken : Bool
  /-- None at all, or whether of the full hash. -/
  contentCheck : Option Bool
  stage : Stage
  outcomes : List Outcome

structure Net where
  server : Server Party
  client : Robust
  wires : Nat → Line

/-! ## Requests -/

namespace Robust

/-- `check_matching_content` asks nothing of an empty range. -/
def contentRequest (k : ServerOptions) (c : Robust) (start stop : Int) : Option Request :=
  match c.contentCheck with
  | none => none
  | some full =>
      if start ≥ stop then none
      else some (.checkHash full start stop
        (k.hash full (slice c.journal start.toNat stop.toNat)))

/-- The range of the handshake's content check. -/
def handshakeRequest (k : ServerOptions) (c : Robust) : Option Request :=
  c.contentRequest k headerSize (min c.serverCheckpoint c.journal.length)

/-- Where a push stops. -/
def pushStop (c : Robust) (until_ : Int) : Int := min until_ c.journal.length

/-- What a call sends, if it sends anything. -/
def request (k : ServerOptions) (c : Robust) : ClientCall → Option Request
  | .handshake => c.handshakeRequest k
  | .checkMatchingContent start stop => c.contentRequest k start stop
  | .push until_ unlockAfter =>
      some (.push c.connectionCheckpoint (c.pushStop until_) unlockAfter)
  | .pull lockBefore wait => some (.pull lockBefore true wait c.journal.length)
  | .pread start stop => some (.read start stop)
  | .ping => some (.pull false false false 0)
  | .unlock => some .unlock

/-- What follows a request. -/
def payload (c : Robust) : Request → Bytes
  | .push start stop _ => slice c.journal start.toNat stop.toNat
  | _ => []

/-- Reading the journal before its file throws, before anything is sent. -/
def Sends : Request → Bool
  | .push start stop _ => 0 ≤ start || stop ≤ start
  | _ => true

/-- A call that ends. -/
def finish (c : Robust) (o : Outcome) : Robust :=
  { c with stage := .idle, outcomes := c.outcomes ++ [o] }

/-- A call that needs nothing of the server. -/
def skip (c : Robust) : ClientCall → Robust
  | .handshake =>
      { c with shaken := true, connectionCheckpoint := c.serverCheckpoint }.finish .returned
  | _ => c.finish .returned

end Robust

namespace Net

variable (k : ServerOptions)

def setWire (s : Net) (n : Nat) (w : Line) : Net :=
  { s with wires := Function.update s.wires n w }

/-- A request, and what follows it. -/
def send (s : Net) (r : Request) : Net :=
  let w := s.wires s.client.session
  s.setWire s.client.session
    (if Robust.Sends r then
      { w with
        inbox := some (.request r)
        rest := s.client.payload r
        topic := Server.Request.topic r }
    else { w with topic := Server.Request.topic r })

def setStage (s : Net) (stage : Stage) : Net :=
  { s with client := { s.client with stage := stage } }

/-- The body of `try_until_success`: the call, on the connection there is. -/
def issue (s : Net) (c : ClientCall) : Net :=
  match s.client.request k c with
  | none => { s with client := s.client.skip c }
  | some r => (s.send r).setStage (.calling c)

/-- After `reconnect`: the call again, if it was not the constructor. -/
def goOn (s : Net) : Option ClientCall → Net
  | none => { s with client := s.client.finish .returned }
  | some c => s.issue k c

def finish (s : Net) (o : Outcome) : Net := { s with client := s.client.finish o }

/-- One turn of the loop of `reconnect`: a new session, and its handshake. -/
def reconnect (s : Net) (old : Int) (call : Option ClientCall) : Net :=
  let n := s.client.session + 1
  { s with client := { s.client with session := n, stage := .connecting old call }
           wires := Function.update s.wires n ⟨some .hello, [], none, .other⟩ }

/-- An exception that is no `Disconnection`. `unlock` is not done again: what is
left of its session is a channel that nobody will ever listen to. -/
def fail (s : Net) : Net :=
  match s.client.stage with
  | .idle => s
  | .connecting old call => s.reconnect old call
  | .checking old call => s.reconnect old call
  | .calling .unlock =>
      { s with client := { s.client with session := s.client.session + 1 } }.finish
        (.threw (some .unlock))
  | .calling c => s.reconnect s.client.serverCheckpoint (some c)

/-! ## Replies -/

/-- The server's part of a handshake, and the content check of `reconnect`. -/
def connected (s : Net) (old : Int) (call : Option ClientCall) (checkpoint : Nat) : Net :=
  let s := { s with client := { s.client with serverCheckpoint := checkpoint } }
  if (checkpoint : Int) < old then s.finish (.threw call)
  else if s.client.shaken then
    match s.client.handshakeRequest k with
    | none => s.goOn k call
    | some r => (s.send r).setStage (.checking old call)
  else s.goOn k call

/-- The reply to a call. One that is of another kind is unexpected, which is a
`Disconnection`. -/
def answered (s : Net) (c : ClientCall) (r : Reply) : Net :=
  match c, r with
  | .handshake, .hash _ _ _ _ true => { s with client := s.client.skip .handshake }
  | .checkMatchingContent _ _, .hash _ _ _ _ true => s.finish .returned
  | .push until_ _, .pushed _ _ .accepted =>
      let start := s.client.connectionCheckpoint
      let stop := s.client.pushStop until_
      { s with client := { s.client with
          serverCheckpoint := stop
          connectionCheckpoint := stop }.finish (.pushed start stop) }
  | .push _ _, .pushed _ _ .timedOut => s.fail
  | .pull _ _, .data false _ stop bytes =>
      { s with client := { s.client with
          journal := s.client.journal ++ bytes
          serverCheckpoint := stop
          connectionCheckpoint := stop }.finish .returned }
  | .pread _ _, .data _ _ _ _ => s.finish .returned
  | .ping, .data _ _ _ _ => s.finish .returned
  | .unlock, .unlocked => s.finish .returned
  | _, _ => s.finish (.threw (some c))

/-- The reply that the client waits for. -/
def receive (s : Net) (r : Reply) : Net :=
  match s.client.stage with
  | .idle => s
  | .connecting old call =>
      match r with
      | .handshake checkpoint _ => s.connected k old call checkpoint
      | _ => s.reconnect old call
  | .checking _ call =>
      match r with
      | .hash _ _ _ _ true => s.goOn k call
      | _ => s.finish (.threw call)
  | .calling c => s.answered c r

/-! ## Events -/

inductive Event where
  /-- A transaction is checkpointed. -/
  | write (bytes : Bytes)
  | call (c : ClientCall)
  | receive
  | fail
  | connect (n : Nat)
  | hello (n : Nat)
  | request (n : Nat) (acquired : Bool)
  | payload (n : Nat) (size : Nat) (pushedOn : Bool)
  | written (n : Nat)
  | resume (n : Nat) (acquired : Bool)
  | timeout (n : Nat)
  | disconnect (n : Nat)
  | other (e : Server.Event Party)

/-- What the client checks before a call: a handshake once and first, and no pull
when it is ahead. -/
def allowed (c : Robust) : ClientCall → Bool
  | .handshake => !c.shaken
  | .pull _ _ => c.shaken && c.journal.length ≤ c.connectionCheckpoint
  | _ => c.shaken

def serverStep (s : Net) (e : Server.Event Party) : Net :=
  { s with server := s.server.step k e }

def step (s : Net) : Event → Net
  | .write bytes =>
      match s.client.stage with
      | .idle => { s with client := { s.client with journal := s.client.journal ++ bytes } }
      | _ => s
  | .call c =>
      match s.client.stage with
      | .idle => if allowed s.client c then s.issue k c else s.finish (.threw (some c))
      | _ => s
  | .receive =>
      match (s.wires s.client.session).outbox with
      | none => s
      | some r =>
          (s.setWire s.client.session
            { s.wires s.client.session with outbox := none }).receive k r
  | .fail => s.fail
  | .connect n =>
      match (s.wires n).inbox with
      | some .hello => s.serverStep k (.connect (.mine n))
      | _ => s
  | .hello n =>
      match (s.wires n).inbox, s.server.phase (.mine n) with
      | some .hello, .connected =>
          (s.serverStep k (.hello (.mine n) true)).setWire n { s.wires n with inbox := none }
      | _, _ => s
  | .request n acquired =>
      match (s.wires n).inbox, s.server.phase (.mine n) with
      | some (.request r), .ready =>
          (s.serverStep k (.request (.mine n) r acquired)).setWire n
            { s.wires n with inbox := none }
      | _, _ => s
  | .payload n size pushedOn =>
      match s.server.phase (.mine n) with
      | .receiving p =>
          if 0 < size ∧ size ≤ (s.wires n).rest.length ∧ size ≤ p.remaining then
            (s.serverStep k (.payload (.mine n) ((s.wires n).rest.take size) pushedOn)).setWire n
              { s.wires n with rest := (s.wires n).rest.drop size }
          else s
      | _ => s
  | .written n =>
      match s.server.phase (.mine n) with
      | .replying r =>
          (s.serverStep k (.written (.mine n))).setWire n { s.wires n with outbox := some r }
      | _ => s
  | .resume n acquired => s.serverStep k (.resume (.mine n) acquired)
  | .timeout n => s.serverStep k (.timeout (.mine n))
  | .disconnect n =>
      (s.serverStep k (.disconnect (.mine n))).setWire n { s.wires n with inbox := none }
  | .other e =>
      match e.session with
      | .mine _ => s
      | .other _ => s.serverStep k e

def run (s : Net) (es : List Event) : Net := es.foldl (step k) s

/-- The constructor of the connection has sent its first handshake. -/
def start (data : Bytes) (checkpoint : Nat) (journal : Bytes) (contentCheck : Option Bool) :
    Net where
  server := Server.start k data checkpoint
  client :=
    { journal := journal
      connectionCheckpoint := headerSize
      serverCheckpoint := headerSize
      session := 0
      shaken := false
      contentCheck := contentCheck
      stage := .connecting headerSize none
      outcomes := [] }
  wires n := ⟨if n = 0 then some .hello else none, [], none, .other⟩

end Net

end Joedb
