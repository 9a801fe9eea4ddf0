import Joedb.Journal.File
import Joedb.Journal.CompactInt

/-!
# File_Buffer

One buffer for both directions over one file position. While it is written,
`data[0, index)` waits to be flushed at `position`; while it is read,
`data[0, readBufferSize)` is the end of what was read before `position`, and
`index` says how far into it the reader is. `readBufferSize` alone tells the
two modes apart, which is why a flush stands between them.

The writing half cannot throw here and is made of functions; the reading half
throws at the end of the file and is made of computations that keep the buffer
as the exception left it.
-/

namespace Joedb

open ByteFile

/-- `Buffer<12>::size`. -/
def bufferSize : Nat := 4096

/-- `Buffer<12>::extra_size`. -/
def extraSize : Nat := 8

/-- The position and the length of a blob in its journal. -/
structure Blob where
  position : Int
  size : Int
  deriving DecidableEq, Repr

structure FileBuffer where
  file : File
  position : Nat
  data : Bytes
  index : Nat
  readBufferSize : Nat

namespace FileBuffer

def create (file : File) : FileBuffer :=
  { file, position := 0, data := [], index := 0, readBufferSize := 0 }

def getPosition (b : FileBuffer) : Nat :=
  b.position - b.readBufferSize + b.index

def bufferHasWriteData (b : FileBuffer) : Bool :=
  b.index > 0 && b.readBufferSize == 0

/-! ## Writing -/

/-- `File_Iterator::write`. -/
def iteratorWrite (b : FileBuffer) (bytes : Bytes) : FileBuffer :=
  { b with file := b.file.pwrite b.position bytes
           position := b.position + bytes.length }

def writeBuffer (b : FileBuffer) : FileBuffer :=
  { b.iteratorWrite (b.data.take b.index) with index := 0 }

def checkWriteBuffer (b : FileBuffer) : FileBuffer :=
  if bufferSize ≤ b.index then b.writeBuffer else b

def flush (b : FileBuffer) : FileBuffer :=
  if b.bufferHasWriteData then b.writeBuffer
  else { b with position := b.getPosition, readBufferSize := 0, index := 0 }

def setPosition (b : FileBuffer) (newPosition : Nat) : FileBuffer :=
  { b.flush with position := newPosition }

/-- Put bytes into the buffer at its index. -/
def put (b : FileBuffer) (bytes : Bytes) : FileBuffer :=
  { b with data := ByteFile.pwrite b.data b.index bytes
           index := b.index + bytes.length }

/-- `write<T>`, given the bytes of the value as they lie in memory. -/
def write (b : FileBuffer) (bytes : Bytes) : FileBuffer :=
  (b.put bytes).checkWriteBuffer

/-- `File_Buffer::compact_write`. -/
def writeCompact (b : FileBuffer) (x : Int) : FileBuffer :=
  (b.put (compactWrite x)).checkWriteBuffer

def writeReference (b : FileBuffer) (id : Int) : FileBuffer :=
  b.writeCompact (id + 1)

def writeData (b : FileBuffer) (bytes : Bytes) : FileBuffer :=
  if bytes.length ≤ extraSize ∨
      bytes.length < bufferSize + extraSize - b.index then
    (b.put bytes).checkWriteBuffer
  else b.flush.iteratorWrite bytes

def writeString (b : FileBuffer) (s : Bytes) : FileBuffer :=
  (b.writeCompact s.length).writeData s

def writeBlob (b : FileBuffer) (blob : Blob) : FileBuffer :=
  (b.writeCompact blob.position).writeCompact blob.size

/-! ## Reading -/

/-- `read_buffer`: `File_Iterator::read` into the start of the buffer. -/
def readBuffer (b : FileBuffer) : FileBuffer :=
  let got := b.file.pread bufferSize b.position
  { b with data := ByteFile.pwrite b.data 0 got
           index := 0
           readBufferSize := got.length
           position := b.position + got.length }

/-- `File_Iterator::full_read` behind bytes that are already delivered. The
position moves only when it did not throw. -/
def fullRead (b : FileBuffer) (got : Bytes) (n : Nat) : Bytes × Bool × FileBuffer :=
  let rest := b.file.fullPread n b.position
  (got ++ rest.1, rest.2,
    if rest.2 then { b with position := b.position + n } else b)

/-- `read_data`: the bytes that reached the destination, whether the call
returned (it threw otherwise), and the buffer. -/
def readDataInto (b : FileBuffer) (n : Nat) : Bytes × Bool × FileBuffer :=
  if b.index + n ≤ b.readBufferSize then
    (slice b.data b.index (b.index + n), true, { b with index := b.index + n })
  else
    let n0 := b.readBufferSize - b.index
    let first := slice b.data b.index b.readBufferSize
    let b := { b with index := b.index + n0 }
    if n ≤ bufferSize then
      let b := b.readBuffer
      if b.readBufferSize = 0 then (first, false, b)
      else
        let m := min (n - n0) b.readBufferSize
        { b with index := m }.fullRead (first ++ b.data.take m) (n - n0 - m)
    else b.fullRead first (n - n0)

def readData (n : Nat) : EStateM Exn FileBuffer Bytes := fun b =>
  let r := b.readDataInto n
  if r.2.1 then .ok r.1 r.2.2 else .error File.readingPastEndOfFile r.2.2

/-- `read<uint8_t>`. -/
def readByte : EStateM Exn FileBuffer UInt8 := do
  let bytes ← readData 1
  pure (bytes.headD 0)

/-- `Buffer::read<uint8_t>`: straight from the array. -/
def bufferReadByte : EStateM Exn FileBuffer UInt8 := fun b =>
  .ok (b.data.getD b.index 0) { b with index := b.index + 1 }

/-- The loop over the extra bytes of a compact integer. -/
def compactLoop (next : EStateM Exn FileBuffer UInt8) (bits : Nat) :
    Nat → Nat → EStateM Exn FileBuffer Nat
  | 0, result => pure result
  | extra + 1, result => do
      let byte ← next
      compactLoop next bits extra (compactStep bits result byte)

def compactReadWith (next : EStateM Exn FileBuffer UInt8) (bits : Nat) :
    EStateM Exn FileBuffer Nat := do
  let first ← next
  compactLoop next bits (first.toNat >>> 5) (first.toNat &&& 0x1f)

/-- `compact_read<T>`, `bits` wide: with eight bytes at hand straight from the
buffer, else one byte at a time. -/
def compactRead (bits : Nat) : EStateM Exn FileBuffer Nat := do
  let b ← get
  if b.index + 8 ≤ b.readBufferSize then compactReadWith bufferReadByte bits
  else compactReadWith readByte bits

/-- `read_strong_type` of a table or field id. -/
def readId : EStateM Exn FileBuffer UInt16 := do
  let id ← compactRead 16
  pure (UInt16.ofNat id)

def readReference : EStateM Exn FileBuffer Int := do
  let id ← compactRead 64
  pure (id - 1)

def safeReadString (maxSize : Nat) : EStateM Exn FileBuffer Bytes := do
  let size ← compactRead 64
  if size > 0 ∧ size < maxSize then readData size else pure []

def readBlob : EStateM Exn FileBuffer Blob := do
  let position ← compactRead 64
  let size ← compactRead 64
  pure ⟨position, size⟩

def ignore (b : FileBuffer) (n : Nat) : FileBuffer :=
  if b.index + n ≤ b.readBufferSize then { b with index := b.index + n }
  else b.setPosition (b.getPosition + n)

end FileBuffer

end Joedb
