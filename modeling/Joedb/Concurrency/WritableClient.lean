import Joedb.Journal.AppendOnly

/-!
# Writable_Client

A client writes to its local journal, between a pull from its connection and a
push to it. The connection is whatever it is: here it is the data that it puts
into the local journal when it pulls, and what it returns or throws. It puts
data there in two ways, out of a journal that it has, or as it comes from a
server, and a connection that tries again does so several times.

A transaction holds the tail lock of the journal from its start to its end.
`locked` says that there is one, so that what a `Client_Lock` does call by call
and what `transaction` does in one call are the same steps. Calls of the client
do not nest in a body. What a body does to the database is up to the body.
-/

namespace Joedb

open ByteFile StateExcept

namespace Journal

/-- The constructor of `Tail_Exclusive_Lock`. -/
def tailExclusiveLock : EStateM Exn Journal Unit := do
  let j ← get
  when (j.getPosition > j.getCheckpoint)
    (throw (.exception "locking journal with uncheckpointed data (try rollback?)"))
  lockPull

/-- The writes of an `Async_Writer` at the tail, and the soft checkpoint behind
them when all that was to come has come. -/
def download (pieces : List Bytes) (finished : Bool) (j : Journal) : Journal :=
  let position := j.getCheckpoint + pieces.flatten.length
  let j := j.withFile (j.file.pwriteAll j.getCheckpoint pieces)
  if finished then j.softCheckpointAt position else j

/-- The destructors of a journal, which leave a file. -/
def close (j : Journal) : File := j.fileBuffer.destroy.file

end Journal

/-- How data comes into the local journal when a connection pulls. -/
inductive Transfer where
  | pullFrom (source : Journal) (until_ : Nat)
  | download (pieces : List Bytes) (finished : Bool)

/-- What it leaves, also when it throws. -/
def Transfer.run (j : Journal) : Transfer → Journal
  | .pullFrom source until_ => after (Journal.pullFrom source until_) j
  | .download pieces finished => j.download pieces finished

/-- What a connection does for a client that pulls: `check_matching_content`,
which may throw, and `pull`, with its checkpoint. -/
structure Exchange where
  mismatch : Option Exn
  transfers : List Transfer
  reply : Except Exn Nat

/-- `read_journal`: a client of the journal alone skips, one with a database
plays. -/
inductive ReadJournal (ω : Type) where
  | skip
  | play (W : Writable ω)

/-- `Writable_Client`, its journal, and its database if it has one. -/
structure WritableClient (ω : Type) where
  journal : Journal
  database : ω
  connectionCheckpoint : Nat
  useValidData : Bool
  useTimestamp : Bool
  useHardCheckpoint : Bool
  locked : Bool

/-- What the body of a transaction does. -/
structure Body (ω : Type) where
  actions : List Action
  database : ω
  thrown : Option Exn

namespace WritableClient

variable {ω α : Type}

def onJournal : EStateM Exn Journal α → EStateM Exn (WritableClient ω) α :=
  onPart (·.journal) fun c journal => { c with journal }

/-- The end of a call, as the connection decides it. -/
def conclude : Option Exn → EStateM Exn (WritableClient ω) Unit
  | none => pure ()
  | some e => throw e

def readJournal : ReadJournal ω → EStateM Exn (WritableClient ω) Unit
  | .skip => modify fun c =>
      { c with journal := c.journal.skipDirectlyTo c.journal.getCheckpoint }
  | .play W => fun c =>
      match Replay.playUntilCheckpoint W ⟨c.journal, c.database⟩ with
      | .ok _ t => .ok () { c with journal := t.journal, database := t.writable }
      | .error e t => .error e { c with journal := t.journal, database := t.writable }

def getTailLock (x : Exchange) : EStateM Exn (WritableClient ω) Unit := do
  let c ← get
  when (c.journal.getCheckpoint > c.connectionCheckpoint)
    (throw (.exception "pulling when ahead of connection"))
  onJournal Journal.tailExclusiveLock
  conclude x.mismatch

/-- `connection.pull`. -/
def connectionPull (x : Exchange) : EStateM Exn (WritableClient ω) Unit := do
  modify fun c => { c with journal := x.transfers.foldl Transfer.run c.journal }
  match x.reply with
  | .ok checkpoint => modify fun c => { c with connectionCheckpoint := checkpoint }
  | .error e => throw e

/-- `start_transaction`. The `emergency_unlock` is of the connection. -/
def startTransaction (r : ReadJournal ω) (x : Exchange) :
    EStateM Exn (WritableClient ω) Unit := do
  connectionPull x
  readJournal r

/-- The constructor of `Client_Lock`, and the start of `transaction`. -/
def lock (r : ReadJournal ω) (x : Exchange) : EStateM Exn (WritableClient ω) Unit := do
  getTailLock x
  startTransaction r x
  modify fun c => { c with locked := true }

/-- `Tail_Exclusive_Lock::~Tail_Exclusive_Lock`. -/
def unlock (c : WritableClient ω) : WritableClient ω := { c with locked := false }

def doCheckpoint (now : BitVec 64) (c : WritableClient ω) : WritableClient ω :=
  let j := c.journal
  let j := if c.useValidData then j.validData else j
  let j := if c.useTimestamp then j.timestamp now else j
  let j := j.softCheckpoint
  let j := if c.useHardCheckpoint then j.hardCheckpoint else j
  { c with journal := j }

/-- `push`, which reads the journal, and its checkpoint. -/
def push (reply : Except Exn Nat) : EStateM Exn (WritableClient ω) Unit :=
  match reply with
  | .ok checkpoint => modify fun c => { c with connectionCheckpoint := checkpoint }
  | .error e => throw e

/-- `Writable_Client::pull`. -/
def pull (r : ReadJournal ω) (x : Exchange) : EStateM Exn (WritableClient ω) Nat := do
  let oldCheckpoint := (← get).journal.getCheckpoint
  getTailLock x
  connectionPull x
  readJournal r
  return (← get).journal.getCheckpoint - oldCheckpoint

/-- An action of a body, on the journal. -/
def act (a : Action) (c : WritableClient ω) : WritableClient ω :=
  { c with journal := c.journal.act a }

/-- The body of a transaction, up to where it throws. -/
def runBody (body : Body ω) : EStateM Exn (WritableClient ω) Unit := do
  modify fun c => { body.actions.foldl (fun c a => c.act a) c with database := body.database }
  conclude body.thrown

/-- What `transaction` does under its lock. -/
def transactionBody (body : Body ω) (now : BitVec 64) (reply : Except Exn Nat) :
    EStateM Exn (WritableClient ω) Unit := do
  runBody body
  modify (doCheckpoint now)
  push reply

/-- `Writable_Client::transaction`. However it ends, the lock is gone. -/
def transaction (r : ReadJournal ω) (x : Exchange) (body : Body ω) (now : BitVec 64)
    (reply : Except Exn Nat) : EStateM Exn (WritableClient ω) Unit := fun c =>
  match (lock r x >>= fun _ => transactionBody body now reply) c with
  | .ok _ c => .ok () c.unlock
  | .error e c => .error e c.unlock

def touch (c : WritableClient ω) : WritableClient ω := { c with journal := c.journal.touch }

/-- The constructors of `Writable_Journal_Client` and `Writable_Database_Client`:
an exception leaves the file that the journal was opened on. `handshake` is what
the connection returns or throws. -/
def construct (r : ReadJournal ω) (file : File) (recovery : Recovery) (database : ω)
    (handshake : Except Exn Nat) : Except File (WritableClient ω) :=
  match Journal.openWritable file recovery with
  | .error _ => .error file
  | .ok j =>
      match handshake with
      | .error _ => .error j.close
      | .ok checkpoint =>
          match readJournal r ⟨j, database, checkpoint, false, false, false, false⟩ with
          | .ok _ c => .ok c
          | .error _ c => .error c.journal.close

end WritableClient

end Joedb
