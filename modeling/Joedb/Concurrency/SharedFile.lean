import Joedb.Concurrency.WritableClient
import Joedb.Journal.RoundTrip
import Joedb.Journal.Sharing
import Joedb.Packing.Pack

/-!
# Clients of one file

Several clients work on one file, which all of them have opened. Those that
write are a `Writable_Journal_Client` or a `Writable_Database_Client`, as
`plays` says of each: the first skips what the others wrote, the second plays
it. A `Readonly_Database_Client` only plays.

Whoever writes holds the tail lock of the file from the start of a
`Client_Lock` to its end, and between these two, operations, checkpoints and
pushes come in any order. A `transaction` is such a lock with one checkpoint and
one push, unless its callback throws. The clients that only read take no notice
of the lock: they open the file and pull at any moment.

Nothing comes into the file through a connection here. `turn` is what the holder
of the lock has done since it took it, and `past` are the turns before, in the
order of their locks.
-/

namespace Joedb

open ByteFile StateExcept

/-- What a client did while it held the lock: what it has made a checkpoint of,
and what it wrote since. -/
structure Turn (ι : Type) where
  client : ι
  kept : List Op
  fresh : List Op

/-- The file, its clients, and what was done. -/
structure SharedFile (ι ω : Type) where
  data : Bytes
  clients : ι → Option (WritableClient ω)
  readers : ι → Option (Replay ω)
  past : List (Turn ι)
  turn : Option (Turn ι)

/-- What may happen. The answers of the connection are whatever they are. -/
inductive SharedEvent (ι : Type) where
  | openClient (i : ι) (reads : Pread) (recovery : Recovery) (handshake : Except Exn Nat)
  | openReader (i : ι) (reads : Pread) (recovery : Recovery)
  | setOptions (i : ι) (validData timestamp hardCheckpoint : Bool)
  | lock (i : ι) (x : Exchange)
  | perform (i : ι) (op : Op)
  | checkpoint (i : ι) (now : BitVec 64)
  | push (i : ι) (reply : Except Exn Nat)
  | unlock (i : ι)
  | pull (i : ι) (x : Exchange)
  | pullReader (i : ι)
  | close (i : ι)

/-- A call by one who knows that blob data are not always wanted. -/
def Writable.say {ω : Type} (W : Writable ω) : Op → EStateM Exn ω Unit
  | .writeBlob data => do
      let w ← get
      when (W.wantsBlobData w) (W.call (.writeBlob data))
  | op => W.call op

namespace WritableClient

variable {ω : Type}

/-- A client whose file is as the others left it. -/
def onto (c : WritableClient ω) (data : Bytes) : WritableClient ω :=
  { c with journal := Sharing.onto c.journal data }

/-- An operation on the `Writable` of a lock: a `Writable_Journal`, or the
`Multiplexer` of a database and a journal. -/
def perform (r : ReadJournal ω) (op : Op) : EStateM Exn (WritableClient ω) Unit :=
  match r with
  | .skip => modify fun c => { c with journal := c.journal.perform op }
  | .play W => fun c =>
      match (Multiplexer.asWritable W Journal.asWritable).call op (c.database, c.journal) with
      | .ok _ s => .ok () { c with database := s.1, journal := s.2 }
      | .error e s => .error e { c with database := s.1, journal := s.2 }

/-- What a checkpoint writes of its own. -/
def marks (c : WritableClient ω) (now : BitVec 64) : List Op :=
  (if c.useValidData then [.validData] else []) ++
    (if c.useTimestamp then [.timestamp now] else [])

end WritableClient

namespace Replay

variable {ω : Type}

def onto (t : Replay ω) (data : Bytes) : Replay ω :=
  { t with journal := Sharing.onto t.journal data }

/-- The constructor of `Readonly_Database_Client`, with no connection. -/
def openReader (W : Writable ω) (w₀ : ω) (file : File) (recovery : Recovery) :
    Except Exn (Replay ω) :=
  match Journal.openReadonly file recovery false with
  | .error e => .error e
  | .ok j =>
      match playUntilCheckpoint W ⟨j, w₀⟩ with
      | .error e _ => .error e
      | .ok _ t => .ok t

/-- `Readonly_Journal::pull`, from a client that is a journal. -/
def pullJournal : Play ω Nat :=
  onPart (·.journal) (fun t journal => { t with journal }) Journal.pull

/-- `Readonly_Client::pull`. -/
def pullReader (W : Writable ω) : Play ω Nat := do
  let result ← pullJournal
  when (result ≠ 0) (playUntilCheckpoint W)
  return result

end Replay

namespace SharedFile

variable {ι ω : Type} [DecidableEq ι]

/-- A file that nobody has opened yet. -/
def initial : SharedFile ι ω := ⟨[], fun _ => none, fun _ => none, [], none⟩

/-- What has been made a checkpoint of, in the order of the locks. -/
def log (s : SharedFile ι ω) : List Op :=
  s.past.flatMap (·.kept) ++ s.turn.elim [] (·.kept)

/-- The same, with what the holder of the lock has written since. -/
def written (s : SharedFile ι ω) : List Op := s.log ++ s.turn.elim [] (·.fresh)

/-- The client has the lock. -/
def Holds (s : SharedFile ι ω) (i : ι) : Prop := s.turn.map (·.client) = some i

instance (s : SharedFile ι ω) (i : ι) : Decidable (s.Holds i) := inferInstanceAs (Decidable (_ = _))

def put (s : SharedFile ι ω) (i : ι) (c : WritableClient ω) : SharedFile ι ω :=
  { s with data := c.journal.file.data, clients := Function.update s.clients i (some c) }

def putReader (s : SharedFile ι ω) (i : ι) (t : Replay ω) : SharedFile ι ω :=
  { s with readers := Function.update s.readers i (some t) }

def take (s : SharedFile ι ω) (i : ι) : SharedFile ι ω := { s with turn := some ⟨i, [], []⟩ }

def give (s : SharedFile ι ω) : SharedFile ι ω :=
  { s with past := s.past ++ s.turn.toList, turn := none }

/-- An operation of the holder. -/
def write (s : SharedFile ι ω) (op : Op) : SharedFile ι ω :=
  { s with turn := s.turn.map fun t => { t with fresh := t.fresh ++ [op] } }

/-- A checkpoint of the holder. -/
def keep (s : SharedFile ι ω) (marks : List Op) : SharedFile ι ω :=
  { s with turn := s.turn.map fun t =>
      { t with kept := t.kept ++ (t.fresh ++ marks), fresh := [] } }

/-- What a client does to the file that it finds. -/
def through (s : SharedFile ι ω) (i : ι) (f : WritableClient ω → SharedFile ι ω) : SharedFile ι ω :=
  match s.clients i with
  | none => s
  | some c => f (c.onto s.data)

variable (W : Writable ω) (plays : ι → Bool) (w₀ : ω)

/-- The `read_journal` of a client. -/
def reading (i : ι) : ReadJournal ω := if plays i then .play W else .skip

/-- Whoever calls catches what is thrown, and keeps the client. -/
def step (s : SharedFile ι ω) : SharedEvent ι → SharedFile ι ω
  | .openClient i reads recovery handshake =>
      match WritableClient.construct (reading W plays i) ⟨.sharedWrite, reads, s.data, []⟩
          recovery w₀ handshake with
      | .ok c => s.put i c
      | .error file => { s with data := file.data }
  | .openReader i reads recovery =>
      match Replay.openReader W w₀ ⟨.readExisting, reads, s.data, []⟩ recovery with
      | .ok t => s.putReader i t
      | .error _ => s
  | .setOptions i validData timestamp hardCheckpoint => s.through i fun c =>
      s.put i { c with useValidData := validData
                       useTimestamp := timestamp
                       useHardCheckpoint := hardCheckpoint }
  | .lock i x => s.through i fun c =>
      match WritableClient.lock (reading W plays i) x c with
      | .ok _ c => (s.put i c).take i
      | .error _ c => s.put i c
  | .perform i op => s.through i fun c =>
      match WritableClient.perform (reading W plays i) op c with
      | .ok _ c => (s.put i c).write op
      | .error _ c => s.put i c
  | .checkpoint i now => s.through i fun c =>
      (s.put i (c.doCheckpoint now)).keep (c.marks now)
  | .push i reply => s.through i fun c => s.put i (after (WritableClient.push reply) c)
  | .unlock i => s.through i fun c => (s.put i c.unlock).give
  | .pull i x => s.through i fun c =>
      s.put i (after (WritableClient.pull (reading W plays i) x) c)
  | .pullReader i =>
      match s.readers i with
      | none => s
      | some t => s.putReader i (after (Replay.pullReader W) (t.onto s.data))
  | .close i => s.through i fun c =>
      { s with data := c.journal.close.data, clients := Function.update s.clients i none }

/-- What an operation of a client relies on. A database refuses what it does not
take before it has changed anything, and the numbers of what it takes fit. What a
journal client writes is not checked by anybody: the databases of the others must
take it, and an abbreviation must stand for the same operation after all that is in
the file as it does after the last operation of the client. -/
def Writes (s : SharedFile ι ω) (i : ι) (op : Op) (c : WritableClient ω) : Prop :=
  c.journal.getPosition + (abbreviate c.journal.context op).bytes.length < 2 ^ 63 ∧
    if plays i then
      (∀ w', W.say op c.database = .ok () w' → op.Fits) ∧
        ∀ e w', W.say op c.database = .error e w' → w' = c.database
    else
      op.Fits ∧ op.Readable ∧
        (abbreviate c.journal.context op).meaning (contextAfter .reset s.written) = op ∧
        ∀ w, W.hearAll s.written w₀ = .ok () w → ∃ w', W.hear op w = .ok () w'

/-- The tail lock is for one, and an opening takes it, too. A client is closed when nothing
waits in its buffer, and the file ends before `last_position`. -/
def Allowed (s : SharedFile ι ω) : SharedEvent ι → Prop
  | .openClient i _ recovery _ =>
      s.turn = none ∧ s.clients i = none ∧ recovery ≠ .ignoreHeader
  | .openReader _ _ recovery => recovery ≠ .ignoreHeader
  | .setOptions _ _ _ _ => True
  | .lock _ x => s.turn = none ∧ x.transfers = []
  | .perform i op => s.Holds i ∧ ∀ c ∈ s.clients i, Writes W plays w₀ s i op c
  | .checkpoint i _ => s.Holds i ∧
      ∀ c ∈ s.clients i, c.journal.getPosition + 10 < 2 ^ 63
  | .push i _ => s.Holds i
  | .unlock i => s.Holds i
  | .pull _ x => s.turn = none ∧ x.transfers = []
  | .pullReader _ => True
  | .close i => ¬ s.Holds i ∧ ∀ c ∈ s.clients i, c.journal.getPosition ≤ c.journal.getCheckpoint

inductive Reach : SharedFile ι ω → Prop where
  | initial : Reach .initial
  | step {s : SharedFile ι ω} (hs : Reach s) {e : SharedEvent ι}
      (he : s.Allowed W plays w₀ e) : Reach (s.step W plays w₀ e)

end SharedFile

end Joedb
