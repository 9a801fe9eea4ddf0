import Joedb.Journal.Header
import Joedb.Journal.Operation

/-!
# Readonly_Journal

A journal is a buffer over its file, what is known of the checkpoints, and the
context of the abbreviations. Reading it means decoding one operation after
another and telling each to a `Writable`, which may refuse it by an exception.

The order of effects is kept: the context moves while an operation is decoded,
before or after the `Writable` hears of it, and an exception leaves behind what
had moved by then.
-/

namespace Joedb

open ByteFile StateExcept

structure Journal where
  fileBuffer : FileBuffer
  checkpoints : Checkpoints
  context : Context

/-- A listener: the virtual functions of `Writable`, over a state of its own.
`call` receives the operations. `ownStorage` is `get_own_storage` from record 0
(none is a null pointer, else the capacity), `storeOwn` the assignments through
that pointer, and `storePart` the first bytes of one value that a read did not
get to the end of. -/
structure Writable (ω : Type) where
  getPosition : ω → Nat
  startWriting : Nat → EStateM Exn ω Unit
  endWriting : Nat → EStateM Exn ω Unit
  softCheckpoint : EStateM Exn ω Unit
  call : Op → EStateM Exn ω Unit
  ownStorage : Ty → TableId → FieldId → EStateM Exn ω (Option Nat)
  storeOwn : (ty : Ty) → TableId → FieldId → Nat → List ty.Storage → ω → ω
  storePart : Ty → TableId → FieldId → Nat → Bytes → ω → ω
  onBlob : Blob → EStateM Exn ω Unit
  wantsBlobData : ω → Bool

/-- `Dummy_Writable`. -/
def dummyWritable : Writable Unit where
  getPosition _ := 0
  startWriting _ := pure ()
  endWriting _ := pure ()
  softCheckpoint := pure ()
  call _ := pure ()
  ownStorage _ _ _ := pure none
  storeOwn _ _ _ _ _ st := st
  storePart _ _ _ _ _ st := st
  onBlob _ := pure ()
  wantsBlobData _ := false

/-- A journal and the `Writable` it is played into. -/
structure Replay (ω : Type) where
  journal : Journal
  writable : ω

abbrev Play (ω : Type) := EStateM Exn (Replay ω)

namespace Journal

def getPosition (j : Journal) : Nat := j.fileBuffer.getPosition

def getCheckpoint (j : Journal) : Nat := j.checkpoints.checkpointPosition

def getHardCheckpoint (j : Journal) : Nat := j.checkpoints.hardCheckpointPosition

def file (j : Journal) : File := j.fileBuffer.file

def isShared (j : Journal) : Bool := j.file.isShared

/-- The fields before anything is read. -/
def blank (file : File) : Journal where
  fileBuffer := .create file
  checkpoints := .initial
  context := .reset

/-- The header that `lock.header` holds. -/
def lockHeader (file : File) : Header := .ofBytes (file.fullPread headerSize 0).1

/-- The checkpoints a constructor makes of a file that is not empty. -/
def openCheckpoints (file : File) (recovery : Recovery) : Except Exn Checkpoints :=
  let c := Checkpoints.initial
  if recovery = .ignoreHeader then
    if file.getSize > c.checkpointPosition then
      .ok { c with checkpointPosition := file.getSize }
    else .ok c
  else if (lockHeader file).signature ≠ signature then
    .error (.exception "missing joedb signature")
  else if (lockHeader file).version ≠ formatVersion then
    .error (.exception "unsupported file format version")
  else
    let c := c.readCheckpoint (lockHeader file).checkpoint file.getSize
    if file.getSize > 0 ∧ file.getSize < c.checkpointPosition then
      .error (.exception "Checkpoint is bigger than file size")
    else .ok c

/-- The constructor of `Readonly_Journal`. -/
def openReadonly (file : File) (recovery : Recovery) (forWritableJournal : Bool) :
    Except Exn Journal :=
  let j := blank file
  if file.getSize ≠ 0 then
    if (file.fullPread headerSize 0).2 then
      match openCheckpoints file recovery with
      | .error e => .error e
      | .ok c =>
          .ok { j with fileBuffer := j.fileBuffer.setPosition headerSize
                       checkpoints := c }
    else .error File.readingPastEndOfFile
  else if !forWritableJournal then .error (.exception "file is empty")
  else .ok j

def pullWithoutLocking : EStateM Exn Journal Unit := fun j =>
  let pos := j.file.fullPread 32 0
  if pos.2 then
    .ok () { j with checkpoints := j.checkpoints.readCheckpoint (headerWord pos.1) (-1) }
  else .error File.readingPastEndOfFile j

def pull : EStateM Exn Journal Nat := do
  let oldCheckpoint := (← get).getCheckpoint
  pullWithoutLocking
  return (← get).getCheckpoint - oldCheckpoint

def rewind (j : Journal) : Journal :=
  { j with fileBuffer := j.fileBuffer.setPosition headerSize, context := .reset }

def skipDirectlyTo (j : Journal) (position : Nat) : Journal :=
  { j with fileBuffer := j.fileBuffer.setPosition position }

def flush (j : Journal) : Journal := { j with fileBuffer := j.fileBuffer.flush }

end Journal

namespace Replay

variable {ω : Type}

def withBuffer (s : Replay ω) (b : FileBuffer) : Replay ω :=
  { s with journal := { s.journal with fileBuffer := b } }

def withContext (s : Replay ω) (c : Context) : Replay ω :=
  { s with journal := { s.journal with context := c } }

def withWritable (s : Replay ω) (w : ω) : Replay ω := { s with writable := w }

def context (s : Replay ω) : Context := s.journal.context

def checkpoint (s : Replay ω) : Nat := s.journal.getCheckpoint

/-- A read from the buffer. -/
def buffer {α : Type} : EStateM Exn FileBuffer α → Play ω α :=
  onPart (·.journal.fileBuffer) withBuffer

/-- A call of the `Writable`. -/
def tell {α : Type} : EStateM Exn ω α → Play ω α := onPart (·.writable) withWritable

def setTable (t : TableId) : Play ω Unit :=
  modify fun s => s.withContext { s.context with tableOfLastOperation := t }

def setRecord (r : RecordId) : Play ω Unit :=
  modify fun s => s.withContext { s.context with recordOfLastOperation := r }

def setField (f : FieldId) : Play ω Unit :=
  modify fun s => s.withContext { s.context with fieldOfLastUpdate := f }

/-- `++record_of_last_operation`. -/
def nextRecord : Play ω Unit := do
  let s ← get
  setRecord (s.context.recordOfLastOperation + 1)

def safeReadString : Play ω Bytes := do
  let s ← get
  buffer (FileBuffer.safeReadString s.checkpoint)

def readType : Play ω FieldType := do
  let typeId ← buffer FileBuffer.readByte
  if typeId = referenceTypeId then
    let tableId ← buffer FileBuffer.readId
    pure (.reference tableId)
  else pure (.plain typeId)

/-- `read_method`. -/
def readMethod : (k : Kind) → Play ω k.Val
  | .string => safeReadString
  | .reference => buffer FileBuffer.readReference
  | .blob => buffer FileBuffer.readBlob
  | .fixed size => do
      let bytes ← buffer (FileBuffer.readData size)
      pure (BitVec.ofNat (8 * size) (leDecode bytes))

/-- How far a vector was read: its values, and where the reading broke off, the
exception and the bytes of one more value. -/
abbrev ReadValues (k : Kind) := List k.Val × Option (Exn × Bytes)

/-- `size` values one after another. What was read before an exception is
delivered with it. -/
def readEach (k : Kind) : Nat → List k.Val → Play ω (ReadValues k)
  | 0, vs => pure (vs, none)
  | size + 1, vs => fun s =>
      match readMethod k s with
      | .ok v s => readEach k size (vs ++ [v]) s
      | .error e s => .ok (vs, some (e, [])) s

/-- Memory, cut into values of `n` bytes; what does not fill a value is left
out. -/
def fixedValues (n : Nat) : Nat → Bytes → List (BitVec (8 * n))
  | 0, _ => []
  | size + 1, bytes =>
      if bytes.length < n then []
      else BitVec.ofNat (8 * n) (leDecode (bytes.take n)) :: fixedValues n size (bytes.drop n)

/-- `read_vector_of`: the values delivered, and how it ended. What lies in memory
as it is written is copied into it, the bytes of a value that is not all there
among them. -/
def readVector : (k : Kind) → Nat → Play ω (ReadValues k)
  | .string, size => readEach .string size []
  | .reference, size => readEach .reference size []
  | .blob, size => readEach .blob size []
  | .fixed n, size => fun s =>
      let r := s.journal.fileBuffer.readDataInto (size * n)
      let vs := fixedValues n size r.1
      .ok (vs, if r.2.1 then none
          else some (File.readingPastEndOfFile, r.1.drop (n * vs.length)))
        (s.withBuffer r.2.2)

variable (W : Writable ω)

def performUpdate (ty : Ty) : Play ω Unit := do
  let value ← readMethod ty.kind
  let c := (← get).context
  tell (W.call (.update ty c.tableOfLastOperation c.recordOfLastOperation
    c.fieldOfLastUpdate (ty.toArg value)))

/-- `update_vector` before its values are read: the checks, and the capacity of
the own storage. -/
def prepareUpdateVector (ty : Ty) (size : Nat) : Play ω (Option Nat) := do
  let s ← get
  when (size > s.checkpoint) (throw (.exception "update_vector too big"))
  let c := s.context
  let capacity ← tell (W.ownStorage ty c.tableOfLastOperation c.fieldOfLastUpdate)
  -- a negative record id is no place to start from, and an own storage has an end
  when (c.recordOfLastOperation < 0 ∨
      (∃ n ∈ capacity, c.recordOfLastOperation > n ∨
        size > n - c.recordOfLastOperation))
    (throw (.exception "update_vector out of range"))
  pure capacity

/-- `update_vector` after its values were read: an own storage has them by now,
whether the read returned or not. -/
def finishUpdateVector (ty : Ty) (capacity : Option Nat) (read : ReadValues ty.kind) :
    Play ω Unit := do
  let s ← get
  let c := s.context
  when capacity.isSome
    (modify fun s => s.withWritable
      (W.storeOwn ty c.tableOfLastOperation c.fieldOfLastUpdate
        c.recordOfLastOperation.toNat read.1 s.writable))
  match read.2 with
  | some (e, first) =>
      when capacity.isSome
        (modify fun s => s.withWritable
          (W.storePart ty c.tableOfLastOperation c.fieldOfLastUpdate
            (c.recordOfLastOperation.toNat + read.1.length) first s.writable))
      throw e
  | none =>
      tell (W.call (.updateVector ty c.tableOfLastOperation c.recordOfLastOperation
        c.fieldOfLastUpdate read.1))

def performUpdateVector (ty : Ty) (size : Nat) : Play ω Unit := do
  let capacity ← prepareUpdateVector W ty size
  let read ← readVector ty.kind size
  finishUpdateVector W ty capacity read

def readBlobData (size : Nat) : Play ω Bytes :=
  if size > 0 then buffer (FileBuffer.readData size) else pure []

/-- The data of a blob, for a `Writable` that wants them, or skipped. -/
def performBlobData (size : Nat) : Play ω Unit := do
  let s ← get
  if W.wantsBlobData s.writable ∧ size < s.checkpoint then
    let data ← readBlobData size
    tell (W.call (.writeBlob data))
  else modify fun s => s.withBuffer (s.journal.fileBuffer.ignore size)

def performBlob (size : Nat) : Play ω Unit := do
  let s ← get
  tell (W.onBlob ⟨s.journal.getPosition, size⟩)
  performBlobData W size

/-- The `switch` of `one_step`. -/
def perform : Operation → Play ω Unit
  | .createTable => do
      let name ← safeReadString
      tell (W.call (.createTable name))
  | .dropTable => do
      let tableId ← buffer FileBuffer.readId
      tell (W.call (.dropTable tableId))
  | .renameTable => do
      let tableId ← buffer FileBuffer.readId
      let name ← safeReadString
      tell (W.call (.renameTable tableId name))
  | .addField => do
      let tableId ← buffer FileBuffer.readId
      let name ← safeReadString
      let type ← readType
      tell (W.call (.addField tableId name type))
  | .dropField => do
      let tableId ← buffer FileBuffer.readId
      let fieldId ← buffer FileBuffer.readId
      tell (W.call (.dropField tableId fieldId))
  | .renameField => do
      let tableId ← buffer FileBuffer.readId
      let fieldId ← buffer FileBuffer.readId
      let name ← safeReadString
      tell (W.call (.renameField tableId fieldId name))
  | .insertInto => do
      let tableId ← buffer FileBuffer.readId
      let recordId ← buffer FileBuffer.readReference
      tell (W.call (.insertInto tableId recordId))
      setTable tableId
      setRecord recordId
  | .deleteFrom => do
      let tableId ← buffer FileBuffer.readId
      let recordId ← buffer FileBuffer.readReference
      tell (W.call (.deleteFrom tableId recordId))
  | .insertVector => do
      let tableId ← buffer FileBuffer.readId
      let recordId ← buffer FileBuffer.readReference
      let size ← buffer (FileBuffer.compactRead 64)
      tell (W.call (.insertVector tableId recordId size))
      setTable tableId
      setRecord recordId
  | .deleteVector => do
      let tableId ← buffer FileBuffer.readId
      let recordId ← buffer FileBuffer.readReference
      let size ← buffer (FileBuffer.compactRead 64)
      tell (W.call (.deleteVector tableId recordId size))
  | .append => do
      nextRecord
      let c := (← get).context
      tell (W.call (.insertInto c.tableOfLastOperation c.recordOfLastOperation))
  | .update ty => do
      setTable (← buffer FileBuffer.readId)
      setRecord (← buffer FileBuffer.readReference)
      setField (← buffer FileBuffer.readId)
      performUpdate W ty
  | .updateLast ty => do
      setField (← buffer FileBuffer.readId)
      performUpdate W ty
  | .updateNext ty => do
      nextRecord
      performUpdate W ty
  | .updateVector ty => do
      setTable (← buffer FileBuffer.readId)
      setRecord (← buffer FileBuffer.readReference)
      setField (← buffer FileBuffer.readId)
      let size ← buffer (FileBuffer.compactRead 64)
      if size = 0 then pure () else performUpdateVector W ty size
  | .custom => do
      let name ← safeReadString
      tell (W.call (.custom name))
  | .comment => do
      let comment ← safeReadString
      tell (W.call (.comment comment))
  | .timestamp => do
      let bytes ← buffer (FileBuffer.readData 8)
      tell (W.call (.timestamp (BitVec.ofNat 64 (leDecode bytes))))
  | .validData => tell (W.call .validData)
  | .blob => do
      let size ← buffer (FileBuffer.compactRead 64)
      performBlob W size

def oneStep : Play ω Unit := do
  let code ← buffer FileBuffer.readByte
  match Operation.ofCode code with
  | some operation => perform W operation
  | none =>
      let s ← get
      throw (.exception s!"Unexpected operation: get_position() = {s.journal.getPosition}")

/-- The loop of `raw_play_until`. A step that returns has read a byte, so
`fuel` bytes are enough for as many steps. -/
def rawPlayUntilGo (stop : Nat) : Nat → Play ω Unit
  | 0 => pure ()
  | fuel + 1 => do
      let s ← get
      if s.journal.getPosition < stop then
        oneStep W
        rawPlayUntilGo stop fuel

def rawPlayUntil (stop : Nat) : Play ω Unit := do
  let s ← get
  rawPlayUntilGo W stop (stop - s.journal.getPosition)

/-- Run with another `Writable`, and come back with the journal. -/
def detour {ψ α : Type} (w : ψ) (m : Play ψ α) : Play ω α := fun s =>
  match m ⟨s.journal, w⟩ with
  | .ok a t => .ok a { s with journal := t.journal }
  | .error e t => .error e { s with journal := t.journal }

/-- What the `Writable` is past already is decoded for the context only. -/
def catchUp : Play ω Unit := do
  let s ← get
  when (s.journal.getPosition < W.getPosition s.writable)
    (detour () (rawPlayUntil dummyWritable (W.getPosition s.writable)))

/-- `play_until`, for a position that is not reached yet. -/
def playOn (stop : Nat) : Play ω Unit := do
  catchUp W
  let s ← get
  tell (W.startWriting s.journal.getPosition)
  rawPlayUntil W stop
  let s ← get
  tell (W.endWriting s.journal.getPosition)
  tell W.softCheckpoint

def playUntil (stop : Nat) : Play ω Unit := do
  let s ← get
  when (s.journal.getPosition < stop) (playOn W stop)
  modify fun s => s.withBuffer s.journal.fileBuffer.flush

def playUntilCheckpoint : Play ω Unit := do
  let s ← get
  playUntil W s.checkpoint

/-- `replay_log`. -/
def replayLog : Play ω Unit := do
  modify fun s => { s with journal := s.journal.rewind }
  playUntilCheckpoint W

end Replay

end Joedb
