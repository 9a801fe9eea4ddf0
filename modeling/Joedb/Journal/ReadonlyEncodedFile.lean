import Joedb.Journal.EncodedFile

/-!
# Readonly_Encoded_File

The reading half of an encoded file once more, with what an exception leaves
behind. A decoder writes into the read buffer of the file, and may have written
something there when it throws, while `decoded_buffer` still names the blob that
was decoded before.
-/

namespace Joedb

open ByteFile Containers StateExcept

/-- `Decoder`: what a call writes at the start of the buffer it is given, and how it ends. It stays
inside the buffer, and has filled it when it returns. -/
structure Decoder where
  decode : Bytes → Nat → Bytes × Option Exn
  inside : ∀ encoded size, (decode encoded size).1.length ≤ size
  fills : ∀ encoded size, (decode encoded size).2 = none → (decode encoded size).1.length = size

/-- `BrotliDecoderDecompress`: whether it succeeded, and what it has put into a buffer of a given
size. -/
structure Brotli where
  decompress : Bytes → Nat → Bool × Bytes
  inside : ∀ encoded size, (decompress encoded size).2.length ≤ size

/-- `Brotli_Decoder::decode`. -/
def Brotli.decode (B : Brotli) (encoded : Bytes) (decodedSize : Nat) : Bytes × Option Exn :=
  let result := B.decompress encoded decodedSize
  let brotliDecodedSize := result.2.length
  if result.1 = false then (result.2, some (.exception "Brotli decompression failed"))
  else if brotliDecodedSize ≠ decodedSize then
    (result.2, some (.exception
      "joedb/journal/Brotli_Decoder.cpp:31:decode:!(brotli_decoded_size == decoded_size)"))
  else (result.2, none)

/-- `Brotli_Decoder`. -/
def Brotli.decoder (B : Brotli) : Decoder where
  decode := B.decode
  inside encoded size := by
    rw [decode]
    split
    · exact B.inside encoded size
    · split <;> exact B.inside encoded size
  fills encoded size h := by
    rw [decode] at h ⊢
    split at h
    · cases h
    · next hok =>
        rw [if_neg hok]
        split at h
        · cases h
        · next hsize =>
            rw [if_neg hsize]
            exact not_not.mp hsize

/-- What the file reads from: the rows in the order of their table, and the file of the blobs. -/
structure EncodedContent where
  rows : List (RecordId × BufferRow)
  nodup : (rows.map Prod.fst).Nodup
  int64 : ∀ e ∈ rows, -2 ^ 63 ≤ e.2.offset
  blobReader : File

/-- The members that reading changes. -/
structure EncodedReader where
  readBuffer : Bytes
  decodedBuffer : Option RecordId

namespace EncodedReader

open EncodedFile

def create : EncodedReader := ⟨[], none⟩

def intersectionStart (start : Int) (row : BufferRow) : Int := max start row.offset

def intersectionEnd (stop : Int) (row : BufferRow) : Int :=
  min stop (toInt64 (row.offset + row.size))

/-- Whether a row is read, when the rows before it have served the range up to `actualEnd`. -/
def Meets (start stop actualEnd : Int) (row : BufferRow) : Prop :=
  0 < row.size ∧ intersectionStart start row < intersectionEnd stop row ∧
    intersectionStart start row ≤ actualEnd

instance (start stop actualEnd : Int) (row : BufferRow) :
    Decidable (Meets start stop actualEnd row) :=
  inferInstanceAs (Decidable (_ ∧ _ ∧ _))

section Reading

variable (D : Decoder) (file : File)

/-- Reading a blob and decoding it: what is written, and how it ends. -/
def attempt (row : BufferRow) : Bytes × Option Exn :=
  match file.readBlob row.data maxBufferSize with
  | .error e => ([], some e)
  | .ok encoded => D.decode encoded row.size.toNat

/-- A row into the read buffer. `decoded_buffer` changes only when the decoder has returned. -/
def decodeRow (b : RecordId) (row : BufferRow) : EStateM Exn Overlay Unit := fun o =>
  let readBuffer :=
    if o.readBuffer.length < row.size.toNat then resize o.readBuffer row.size.toNat 0
    else o.readBuffer
  let decoded := attempt D file row
  let readBuffer := ByteFile.pwrite readBuffer 0 decoded.1
  match decoded.2 with
  | some e => .error e { o with readBuffer }
  | none => .ok () { o with readBuffer, decodedBuffer := some b }

/-- One round of the loop of `pread`. -/
def readRow (start stop : Int) (b : RecordId) (row : BufferRow) : EStateM Exn Overlay Unit := do
  let o ← get
  if Meets start stop o.actualEnd row then
    if o.decodedBuffer ≠ some b ∧ row.size > maxBufferSize then pure ()
    else
      when (o.decodedBuffer ≠ some b) (decodeRow D file b row)
      modify (copyRow start (intersectionStart start row) (intersectionEnd stop row) row)
  else pure ()

def readRows (start stop : Int) : List (RecordId × BufferRow) → EStateM Exn Overlay Unit
  | [] => pure ()
  | (b, row) :: rows => do
      readRow D file start stop b row
      readRows start stop rows

end Reading

/-- How many bytes were read, and the caller's buffer. -/
def pread (D : Decoder) (c : EncodedContent) (buffer : Bytes) (offset : Nat) :
    EStateM Exn EncodedReader (Nat × Bytes) := fun r =>
  match readRows D c.blobReader offset (offset + buffer.length) c.rows
      ⟨buffer, offset, r.readBuffer, r.decodedBuffer⟩ with
  | .ok _ o => .ok ((o.actualEnd - offset).toNat, o.buffer) ⟨o.readBuffer, o.decodedBuffer⟩
  | .error e o => .error e ⟨o.readBuffer, o.decodedBuffer⟩

end EncodedReader

end Joedb
