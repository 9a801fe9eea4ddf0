import Joedb.Lib.Containers
import Joedb.Journal.Operation

/-!
# Encoded files

A file that is kept as rows of a database: each row names a blob, which is some
bytes of the file encoded by a codec, and says where they go. Later rows cover
earlier ones. Writes are gathered in a buffer as long as each goes on where the last one
ended.

The database is generated from a schema, so it is a parameter here, with what
the file does with it.
-/

namespace Joedb

open ByteFile Containers

/-- `Codec`. -/
structure Codec where
  encode : Bytes → Bytes
  decode : Bytes → Nat → Except Exn Bytes

/-- A row of the table `buffer`. -/
structure BufferRow where
  data : Blob
  size : Int
  offset : Int

/-- `db::encoded_file::Writable_Database`. -/
structure EncodedDatabase (σ : Type) where
  /-- On a new file. -/
  create : σ
  /-- Closed, and opened again. -/
  reopen : σ → σ
  bufferTable : σ → List (RecordId × BufferRow)
  /-- `get_journal().get_file()`. -/
  file : σ → File
  writeBlob : Bytes → σ → Blob × σ
  newBuffer : Blob → Int → Int → σ → σ
  softCheckpoint : σ → σ
  hardCheckpoint : σ → σ

/-- `Abstract_File::read_blob`. -/
def File.readBlob (f : File) (blob : Blob) (maxSize : Int) : Except Exn Bytes :=
  if blob.position < 0 ∨ blob.size < 0 ∨ blob.size > maxSize then
    .error File.readingPastEndOfFile
  else
    let result := f.fullPread blob.size.toNat blob.position.toNat
    if result.2 then .ok result.1 else .error File.readingPastEndOfFile

/-- A conversion to `uint64_t`. -/
def toUint64 (x : Int) : Nat := (x % 2 ^ 64).toNat

/-- A conversion to `int64_t`. -/
def toInt64 (x : Int) : Int :=
  if toUint64 x < 2 ^ 63 then toUint64 x else toUint64 x - 2 ^ 64

/-- `decoded_buffer` is the row that `read_buffer` starts with, and `write_buffer` is what
it is filled with. -/
structure EncodedFile (σ : Type) where
  db : σ
  readBuffer : Bytes
  decodedBuffer : Option RecordId
  writeBuffer : Bytes
  writeBufferOffset : Nat

namespace EncodedFile

def maxBufferSize : Nat := 2 ^ 24

def writeBufferCapacity : Nat := 2 ^ 20

variable {σ : Type} (C : Codec) (S : EncodedDatabase σ)

/-- The constructor. -/
def create (db : σ) : EncodedFile σ := ⟨db, [], none, [], 0⟩

/-! ## Readonly_Encoded_File -/

/-- What `pread` changes while it goes through the rows. -/
structure Overlay where
  buffer : Bytes
  actualEnd : Int
  readBuffer : Bytes
  decodedBuffer : Option RecordId

/-- The copy of an intersection. -/
def copyRow (start intersectionStart intersectionEnd : Int) (row : BufferRow) (o : Overlay) :
    Overlay :=
  { o with
    buffer := copyN o.buffer (intersectionStart - start).toNat
      (slice o.readBuffer (intersectionStart - row.offset).toNat
        (intersectionEnd - row.offset).toNat)
    actualEnd := if intersectionEnd > o.actualEnd then intersectionEnd else o.actualEnd }

/-- One round of the loop of `pread`. -/
def overlayRow (file : File) (start stop : Int) (b : RecordId) (row : BufferRow) (o : Overlay) :
    Except Exn Overlay :=
  if row.size ≤ 0 then .ok o
  else
    let rowEnd := toInt64 (row.offset + row.size)
    let intersectionStart := max start row.offset
    let intersectionEnd := min stop rowEnd
    if intersectionStart < intersectionEnd ∧ intersectionStart ≤ o.actualEnd then
      if o.decodedBuffer ≠ some b then
        if row.size > maxBufferSize then .ok o
        else do
          let encoded ← file.readBlob row.data maxBufferSize
          let decoded ← C.decode encoded row.size.toNat
          let o := { o with readBuffer := ByteFile.pwrite o.readBuffer 0 decoded
                            decodedBuffer := some b }
          .ok (copyRow start intersectionStart intersectionEnd row o)
      else .ok (copyRow start intersectionStart intersectionEnd row o)
    else .ok o

def overlayRows (file : File) (start stop : Int) :
    List (RecordId × BufferRow) → Overlay → Except Exn Overlay
  | [], o => .ok o
  | (b, row) :: rows, o => do
      let o ← overlayRow C file start stop b row o
      overlayRows file start stop rows o

/-- `Readonly_Encoded_File::get_size`. -/
def tableSize (rows : List (RecordId × BufferRow)) : Int :=
  let result := rows.foldl (fun result e =>
    if toUint64 (e.2.offset + e.2.size) > result then toUint64 (e.2.offset + e.2.size)
    else result) 0
  max 0 (toInt64 result)

/-! ## Encoded_File -/

def writeBlob (buffer : Bytes) (offset : Nat) (f : EncodedFile σ) : EncodedFile σ :=
  let blob := S.writeBlob (C.encode buffer) f.db
  { f with db := S.softCheckpoint (S.newBuffer blob.1 buffer.length offset blob.2) }

def flushWriteBuffer (f : EncodedFile σ) : EncodedFile σ :=
  if f.writeBuffer.length > 0 then
    { writeBlob C S f.writeBuffer f.writeBufferOffset f with writeBuffer := [] }
  else f

def getSize (f : EncodedFile σ) : Int :=
  max (f.writeBufferOffset + f.writeBuffer.length : Int) (tableSize (S.bufferTable f.db))

def sync (f : EncodedFile σ) : EncodedFile σ :=
  let f := flushWriteBuffer C S f
  { f with db := S.hardCheckpoint f.db }

/-- How many bytes were read, and the caller's buffer. -/
def pread (buffer : Bytes) (offset : Nat) (f : EncodedFile σ) :
    Except Exn ((Nat × Bytes) × EncodedFile σ) := do
  let f := flushWriteBuffer C S f
  let start : Int := offset
  let o ← overlayRows C (S.file f.db) start (offset + buffer.length) (S.bufferTable f.db)
    ⟨buffer, start, f.readBuffer, f.decodedBuffer⟩
  .ok (((o.actualEnd - start).toNat, o.buffer),
    { f with readBuffer := o.readBuffer, decodedBuffer := o.decodedBuffer })

/-- The part of `pwrite` before what does not go on in the buffer: what is left to write,
and where. -/
def absorb (buffer : Bytes) (offset : Nat) (f : EncodedFile σ) : EncodedFile σ × Bytes × Nat :=
  if f.writeBuffer.length ≠ 0 then
    if f.writeBufferOffset + f.writeBuffer.length ≠ offset then
      (flushWriteBuffer C S f, buffer, offset)
    else
      let s := min (writeBufferCapacity - f.writeBuffer.length) buffer.length
      ({ f with writeBuffer := f.writeBuffer ++ buffer.take s }, buffer.drop s, offset + s)
  else (f, buffer, offset)

/-- The loop of `pwrite`, with as many rounds as there are chunks as large as the buffer. -/
def writeChunks : Nat → Bytes → Nat → EncodedFile σ → EncodedFile σ × Bytes × Nat
  | 0, buffer, offset, f => (f, buffer, offset)
  | fuel + 1, buffer, offset, f =>
      if buffer.length ≥ writeBufferCapacity then
        writeChunks fuel (buffer.drop writeBufferCapacity) (offset + writeBufferCapacity)
          (writeBlob C S (buffer.take writeBufferCapacity) offset f)
      else (f, buffer, offset)

def pwrite (buffer : Bytes) (offset : Nat) (f : EncodedFile σ) : EncodedFile σ :=
  let (f, buffer, offset) := absorb C S buffer offset f
  let (f, buffer, offset) :=
    if buffer.length > 0 then
      writeChunks C S (buffer.length / writeBufferCapacity) buffer offset (flushWriteBuffer C S f)
    else (f, buffer, offset)
  if buffer.length > 0 then { f with writeBuffer := buffer, writeBufferOffset := offset } else f

/-- The destructor, and the constructor on a database that was closed and opened again. -/
def reopen (f : EncodedFile σ) : EncodedFile σ :=
  create (S.reopen (flushWriteBuffer C S f).db)

end EncodedFile

end Joedb
