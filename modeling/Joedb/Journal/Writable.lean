import Joedb.Journal.Readonly

/-!
# Writable_Journal

Opening for writing, the two checkpoints, and one writer for each operation.
A checkpoint is a header word (soft) or a header pair (hard); which one is
written next is decided by the two index bits, and the calls on the file come
in the order of the source, since a crash may fall between any two of them.
-/

namespace Joedb

open ByteFile

namespace FileBuffer

def writeCode (b : FileBuffer) (code : UInt8) : FileBuffer := b.write [code]

/-- `compact_write` of a table or field id. -/
def writeId (b : FileBuffer) (id : UInt16) : FileBuffer := b.writeCompact id.toNat

/-- `write_method`. -/
def writeMethod (b : FileBuffer) : (k : Kind) → k.Val → FileBuffer
  | .string => b.writeString
  | .reference => b.writeReference
  | .blob => b.writeBlob
  | .fixed size => fun v : BitVec (8 * size) => b.write (leEncode size v.toNat)

/-- The values of a vector: one by one, or the memory they lie in. -/
def writeVector (b : FileBuffer) : (k : Kind) → List k.Val → FileBuffer
  | .string, vs => vs.foldl writeString b
  | .reference, vs => vs.foldl writeReference b
  | .blob, vs => vs.foldl writeBlob b
  | .fixed size, vs => b.writeData (Kind.vectorBytes (.fixed size) vs)

end FileBuffer

namespace File

/-- The loop of `copy_to`: the destination, and whether everything was there
to copy. -/
def copyToGo (source : File) : Nat → File → Nat → Nat → File × Bool
  | 0, destination, _, size => (destination, size == 0)
  | fuel + 1, destination, start, size =>
      if size = 0 then (destination, true)
      else
        let received := source.pread (min 4096 size) start
        if received.length = 0 then (destination, false)
        else
          source.copyToGo fuel (destination.pwrite start received)
            (start + received.length) (size - received.length)

def copyTo (source destination : File) (start size : Nat) : File × Bool :=
  source.copyToGo size destination start size

end File

namespace Journal

def withFile (j : Journal) (f : File) : Journal :=
  { j with fileBuffer := { j.fileBuffer with file := f } }

/-- Apply a writer of the buffer. -/
def put (j : Journal) (f : FileBuffer → FileBuffer) : Journal :=
  { j with fileBuffer := f j.fileBuffer }

/-! ## Opening -/

/-- A soft checkpoint past the end of the file must not become valid by
appending to it. -/
def repairWord (header : Header) (size : Nat) (j : Journal) (i : Nat) : Journal :=
  if neg (header.checkpoint i) > size then
    j.withFile ((j.file.pwrite (8 * i) (encodeInt64 (neg j.getCheckpoint))).datasync)
  else j

/-- The constructor of `Writable_Journal`. -/
def openWritable (file : File) (recovery : Recovery) : Except Exn Journal :=
  match openReadonly file recovery true with
  | .error e => .error e
  | .ok j =>
      if file.isReadonly then
        .error (.exception "Cannot create Writable_Journal with read-only file")
      else if file.getSize = 0 then
        .ok (j.put (·.iteratorWrite Header.initial.bytes))
      else if file.getSize > j.getCheckpoint ∧ recovery ≠ .overwrite then
        .error (.exception (s!"Checkpoint ({j.getCheckpoint}) is smaller than file "
          ++ s!"size ({file.getSize}). This file may contain an aborted transaction. "
          ++ "'joedb_push file.joedb file fixed.joedb' can be used to truncate it."))
      else
        .ok ([0, 1, 2, 3].foldl (repairWord (lockHeader file) file.getSize) j)

/-! ## Checkpoints -/

def softCheckpointAt (j : Journal) (position : Nat) : Journal :=
  if j.checkpoints.checkpointPosition ≥ position then j
  else
    let j := j.flush
    let c := { j.checkpoints with softIndex := !j.checkpoints.softIndex
                                  checkpointPosition := position }
    { j with checkpoints := c }.withFile
      (j.file.pwrite (8 * (2 * (!c.hardIndex).toNat + c.softIndex.toNat))
        (encodeInt64 (neg position)))

def hardCheckpointAt (j : Journal) (position : Nat) : Journal :=
  if j.checkpoints.hardCheckpointPosition ≥ position then j
  else
    let j := j.flush
    let c := { j.checkpoints with hardIndex := !j.checkpoints.hardIndex
                                  hardCheckpointPosition := position
                                  checkpointPosition := position }
    { j with checkpoints := c }.withFile
      ((((j.file.pwrite (8 * (2 * c.hardIndex.toNat)) (encodeInt64 position)).sync).pwrite
        (8 * (2 * c.hardIndex.toNat + 1)) (encodeInt64 position)).datasync)

def softCheckpoint (j : Journal) : Journal := j.softCheckpointAt j.getPosition

def hardCheckpoint (j : Journal) : Journal := j.hardCheckpointAt j.getPosition

/-- `ahead_of_checkpoint`. -/
def aheadOfCheckpoint (j : Journal) : Int := (j.getPosition : Int) - j.getCheckpoint

def startWriting (position : Nat) : EStateM Exn Journal Unit := do
  if position ≠ (← get).getCheckpoint then
    throw (.exception "writing must start at checkpoint position")

def endWriting (position : Nat) : EStateM Exn Journal Unit := do
  if position ≠ (← get).getPosition then
    throw (.exception "end_writing position is not matching file position")

/-- `pull_from`: copy the bytes another journal has past this one's
checkpoint. -/
def pullFrom (source : Journal) (until_ : Nat) : EStateM Exn Journal Nat := fun j =>
  if j.getCheckpoint < until_ then
    let copied := source.file.copyTo j.file j.getCheckpoint (until_ - j.getCheckpoint)
    let j := j.withFile copied.1
    if copied.2 then
      let j := j.softCheckpointAt until_
      .ok j.getCheckpoint j
    else .error File.readingPastEndOfFile j
  else .ok j.getCheckpoint j

def lockPull : EStateM Exn Journal Unit := do
  if (← get).isShared then pullWithoutLocking

def touch (j : Journal) : Journal := j.withFile (j.file.pwrite 36 signature)

/-! ## Operations -/

def createTable (j : Journal) (name : Bytes) : Journal :=
  j.put fun b => (b.writeCode Operation.createTable.code).writeString name

def dropTable (j : Journal) (tableId : TableId) : Journal :=
  j.put fun b => (b.writeCode Operation.dropTable.code).writeId tableId

def renameTable (j : Journal) (tableId : TableId) (name : Bytes) : Journal :=
  j.put fun b =>
    ((b.writeCode Operation.renameTable.code).writeId tableId).writeString name

def addField (j : Journal) (tableId : TableId) (name : Bytes) (type : FieldType) :
    Journal :=
  let j := j.put fun b =>
    (((b.writeCode Operation.addField.code).writeId tableId).writeString name).write
      [type.typeId]
  if type.typeId = referenceTypeId then j.put (·.writeId type.tableId) else j

def dropField (j : Journal) (tableId : TableId) (fieldId : FieldId) : Journal :=
  j.put fun b =>
    ((b.writeCode Operation.dropField.code).writeId tableId).writeId fieldId

def renameField (j : Journal) (tableId : TableId) (fieldId : FieldId)
    (name : Bytes) : Journal :=
  j.put fun b =>
    (((b.writeCode Operation.renameField.code).writeId tableId).writeId
      fieldId).writeString name

def custom (j : Journal) (name : Bytes) : Journal :=
  j.put fun b => (b.writeCode Operation.custom.code).writeString name

def comment (j : Journal) (comment : Bytes) : Journal :=
  j.put fun b => (b.writeCode Operation.comment.code).writeString comment

def timestamp (j : Journal) (timestamp : BitVec 64) : Journal :=
  j.put fun b =>
    (b.writeCode Operation.timestamp.code).write (leEncode 8 timestamp.toNat)

def validData (j : Journal) : Journal :=
  j.put fun b => b.writeCode Operation.validData.code

def insertInto (j : Journal) (tableId : TableId) (recordId : RecordId) : Journal :=
  let c := j.context
  let j :=
    if tableId = c.tableOfLastOperation ∧ recordId = c.recordOfLastOperation + 1 then
      j.put fun b => b.writeCode Operation.append.code
    else
      j.put fun b =>
        ((b.writeCode Operation.insertInto.code).writeId tableId).writeReference recordId
  { j with context := { c with tableOfLastOperation := tableId
                               recordOfLastOperation := recordId } }

def deleteFrom (j : Journal) (tableId : TableId) (recordId : RecordId) : Journal :=
  j.put fun b =>
    ((b.writeCode Operation.deleteFrom.code).writeId tableId).writeReference recordId

def insertVector (j : Journal) (tableId : TableId) (recordId : RecordId)
    (size : Nat) : Journal :=
  let j := j.put fun b =>
    (((b.writeCode Operation.insertVector.code).writeId tableId).writeReference
      recordId).writeCompact size
  { j with context := { j.context with tableOfLastOperation := tableId
                                       recordOfLastOperation := recordId } }

def deleteVector (j : Journal) (tableId : TableId) (recordId : RecordId)
    (size : Nat) : Journal :=
  j.put fun b =>
    (((b.writeCode Operation.deleteVector.code).writeId tableId).writeReference
      recordId).writeCompact size

/-- `generic_update`. The codes of a type stand side by side, so the
abbreviated codes are one and two further. -/
def genericUpdate (j : Journal) (tableId : TableId) (recordId : RecordId)
    (fieldId : FieldId) (operation : UInt8) : Journal :=
  let c := j.context
  if tableId = c.tableOfLastOperation ∧ recordId = c.recordOfLastOperation then
    { j.put fun b => (b.writeCode (operation + 1)).writeId fieldId with
      context := { c with fieldOfLastUpdate := fieldId } }
  else if tableId = c.tableOfLastOperation ∧ recordId = c.recordOfLastOperation + 1 ∧
      fieldId = c.fieldOfLastUpdate then
    { j.put fun b => b.writeCode (operation + 2) with
      context := { c with recordOfLastOperation := c.recordOfLastOperation + 1 } }
  else
    { j.put fun b =>
        (((b.writeCode operation).writeId tableId).writeReference recordId).writeId
          fieldId with
      context := ⟨tableId, recordId, fieldId⟩ }

def update (j : Journal) (ty : Ty) (tableId : TableId) (recordId : RecordId)
    (fieldId : FieldId) (value : ty.Arg) : Journal :=
  (j.genericUpdate tableId recordId fieldId (Operation.update ty).code).put
    (·.writeMethod ty.kind value.val)

def updateVector (j : Journal) (ty : Ty) (tableId : TableId) (recordId : RecordId)
    (fieldId : FieldId) (values : List ty.Storage) : Journal :=
  let j := j.put fun b =>
    ((((b.writeCode (Operation.updateVector ty).code).writeId tableId).writeReference
      recordId).writeId fieldId).writeCompact values.length
  { j with context := ⟨tableId, recordId, fieldId⟩ }.put
    (·.writeVector ty.kind values)

/-- `write_blob`: the data goes to the file behind a flush. -/
def writeBlob (j : Journal) (data : Bytes) : Blob × Journal :=
  let j := j.put fun b =>
    (b.writeCode Operation.blob.code).writeCompact data.length
  (⟨j.getPosition, data.length⟩,
    j.put fun b => b.flush.iteratorWrite data)

/-- The writer of an operation. -/
def perform (j : Journal) : Op → Journal
  | .createTable name => j.createTable name
  | .dropTable t => j.dropTable t
  | .renameTable t name => j.renameTable t name
  | .addField t name type => j.addField t name type
  | .dropField t f => j.dropField t f
  | .renameField t f name => j.renameField t f name
  | .custom name => j.custom name
  | .comment c => j.comment c
  | .timestamp ts => j.timestamp ts
  | .validData => j.validData
  | .insertInto t r => j.insertInto t r
  | .deleteFrom t r => j.deleteFrom t r
  | .insertVector t r size => j.insertVector t r size
  | .deleteVector t r size => j.deleteVector t r size
  | .update ty t r f v => j.update ty t r f v
  | .updateVector ty t r f vs => j.updateVector ty t r f vs
  | .writeBlob data => (j.writeBlob data).2

/-- A journal as the listener of another replay. -/
def asWritable : Writable Journal where
  getPosition := getPosition
  startWriting := startWriting
  endWriting := endWriting
  softCheckpoint := modify softCheckpoint
  call op := modify (·.perform op)
  ownStorage _ _ _ := pure none
  storeOwn _ _ _ _ _ j := j
  storePart _ _ _ _ _ j := j
  onBlob _ := pure ()
  wantsBlobData _ := true

end Journal

end Joedb
