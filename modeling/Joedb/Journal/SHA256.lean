import Joedb.Journal.File
import Joedb.Lib.SecureHash

/-!
# SHA_256

The hash of a range of a file, as it is computed: a chunk of 64 bytes at a time,
out of a buffer that holds 2048 of them.
-/

namespace Joedb

open ByteFile

/-- Rotate `x` `n` bits to the right. -/
def rotr (x : UInt32) (n : UInt8) : UInt32 :=
  (x >>> n.toUInt32) ||| (x <<< ((-n).toUInt32 &&& 31))

namespace SHA256

/-- `SHA_256::Hash`. -/
abbrev Hash := Vector UInt32 8

def hashInit : Hash :=
  #v[0x6a09e667, 0xbb67ae85, 0x3c6ef372, 0xa54ff53a,
    0x510e527f, 0x9b05688c, 0x1f83d9ab, 0x5be0cd19]

def k : List UInt32 :=
  [0x428a2f98, 0x71374491, 0xb5c0fbcf, 0xe9b5dba5,
   0x3956c25b, 0x59f111f1, 0x923f82a4, 0xab1c5ed5,
   0xd807aa98, 0x12835b01, 0x243185be, 0x550c7dc3,
   0x72be5d74, 0x80deb1fe, 0x9bdc06a7, 0xc19bf174,
   0xe49b69c1, 0xefbe4786, 0x0fc19dc6, 0x240ca1cc,
   0x2de92c6f, 0x4a7484aa, 0x5cb0a9dc, 0x76f988da,
   0x983e5152, 0xa831c66d, 0xb00327c8, 0xbf597fc7,
   0xc6e00bf3, 0xd5a79147, 0x06ca6351, 0x14292967,
   0x27b70a85, 0x2e1b2138, 0x4d2c6dfc, 0x53380d13,
   0x650a7354, 0x766a0abb, 0x81c2c92e, 0x92722c85,
   0xa2bfe8a1, 0xa81a664b, 0xc24b8b70, 0xc76c51a3,
   0xd192e819, 0xd6990624, 0xf40e3585, 0x106aa070,
   0x19a4c116, 0x1e376c08, 0x2748774c, 0x34b0bcb5,
   0x391c0cb3, 0x4ed8aa4a, 0x5b9cca4f, 0x682e6ff3,
   0x748f82ee, 0x78a5636f, 0x84c87814, 0x8cc70208,
   0x90befffa, 0xa4506ceb, 0xbef9a3f7, 0xc67178f2]

def chunkSize : Nat := 64

/-! ## Chunks -/

/-- Four bytes of the data. -/
def loadWord (data : Bytes) (i : Nat) : UInt32 :=
  ((data.getD (4 * i + 0) 0).toUInt32 <<< 24) |||
  ((data.getD (4 * i + 1) 0).toUInt32 <<< 16) |||
  ((data.getD (4 * i + 2) 0).toUInt32 <<< 8) |||
  (data.getD (4 * i + 3) 0).toUInt32

/-- The first rounds of the loop that loads the data. -/
def loadWords (data : Bytes) : Nat → List UInt32 → List UInt32
  | 0, w => w
  | i + 1, w => (loadWords data i w).set i (loadWord data i)

def extendWord (w : List UInt32) (i : Nat) : UInt32 :=
  let w0 := w.getD (i - 15) 0
  let s0 := rotr w0 7 ^^^ rotr w0 18 ^^^ (w0 >>> 3)
  let w1 := w.getD (i - 2) 0
  let s1 := rotr w1 17 ^^^ rotr w1 19 ^^^ (w1 >>> 10)
  w.getD (i - 16) 0 + s0 + w.getD (i - 7) 0 + s1

/-- The first rounds of the loop behind it, which starts at 16. -/
def extendWords : Nat → List UInt32 → List UInt32
  | 0, w => w
  | i + 1, w =>
      let w := extendWords i w
      w.set (16 + i) (extendWord w (16 + i))

/-- One round over the working variables. -/
def mix (w : List UInt32) (i : Nat) (x : Hash) : Hash :=
  let s1 := rotr x[4] 6 ^^^ rotr x[4] 11 ^^^ rotr x[4] 25
  let ch := (x[4] &&& x[5]) ^^^ (~~~x[4] &&& x[6])
  let temp1 := x[7] + s1 + ch + k.getD i 0 + w.getD i 0
  let s0 := rotr x[0] 2 ^^^ rotr x[0] 13 ^^^ rotr x[0] 22
  let maj := (x[0] &&& x[1]) ^^^ (x[0] &&& x[2]) ^^^ (x[1] &&& x[2])
  let temp2 := s0 + maj
  #v[temp1 + temp2, x[0], x[1], x[2], x[3] + temp1, x[4], x[5], x[6]]

def mixes (w : List UInt32) : Nat → Hash → Hash
  | 0, x => x
  | i + 1, x => mix w i (mixes w i x)

/-- `process_chunk`. The array of words is not initialised: every word is written before it
is read. -/
def processChunk (data : Bytes) (hash : Hash) : Hash :=
  let w := extendWords 48 (loadWords data 16 (List.replicate 64 0))
  Vector.zipWith (· + ·) hash (mixes w 64 hash)

/-- The loop that writes the length in front of `index`, from its last byte on. -/
def writeLength : Nat → Nat → UInt64 → Bytes → Bytes
  | 0, _, _, byteBuffer => byteBuffer
  | i + 1, index, lengthInBits, byteBuffer =>
      writeLength i (index - 1) (lengthInBits >>> 8)
        (byteBuffer.set (index - 1) lengthInBits.toUInt8)

/-- The chunks at the start of a buffer, one after another. -/
def processChunks (buffer : Bytes) : Nat → Hash → Hash
  | 0, hash => hash
  | i + 1, hash => processChunk (buffer.drop (i * chunkSize)) (processChunks buffer i hash)

def processFinalChunk (data : Bytes) (totalLengthInBytes : UInt64) (hash : Hash) : Hash :=
  let n := (totalLengthInBytes &&& 0x3f).toNat
  let byteBuffer := pwrite (List.replicate 128 0) 0 (data.take n)
  let byteBuffer := byteBuffer.set n 0x80
  let chunkCount := if n + 9 ≤ 64 then 1 else 2
  let byteBuffer := writeLength 8 (chunkCount * 64) (totalLengthInBytes * 8) byteBuffer
  processChunks byteBuffer chunkCount hash

/-- The words of a hash. -/
def state (hash : Hash) : SecureHash.State :=
  ⟨hash[0].toBitVec, hash[1].toBitVec, hash[2].toBitVec, hash[3].toBitVec, hash[4].toBitVec,
    hash[5].toBitVec, hash[6].toBitVec, hash[7].toBitVec⟩

end SHA256

/-! ## get_hash -/

/-- The size of `hashing_buffer`. -/
def hashingBufferSize : Nat := SHA256.chunkSize * 2048

/-- How much the next round of the loop reads. -/
def hashBlockSize (stop current : Nat) : Nat :=
  if current + hashingBufferSize > stop then stop - current else hashingBufferSize

/-- The loop of `get_full_hash`, with as many rounds as the buffer is filled. -/
def fullHashLoop (file : File) (start stop : Nat) :
    Nat → Nat → Bytes → SHA256.Hash → Except Exn SHA256.Hash
  | 0, _, _, hash => .ok hash
  | fuel + 1, current, hashingBuffer, hash =>
      let blockSize := hashBlockSize stop current
      let read := file.fullPread blockSize current
      if read.2 then
        let hashingBuffer := pwrite hashingBuffer 0 read.1
        let current := current + blockSize
        let fullChunks := blockSize / SHA256.chunkSize
        let hash := SHA256.processChunks hashingBuffer fullChunks hash
        let remainder := blockSize % SHA256.chunkSize
        if remainder ≠ 0 ∨ current ≥ stop then
          .ok (SHA256.processFinalChunk (hashingBuffer.drop (fullChunks * SHA256.chunkSize))
            (UInt64.ofNat (current - start)) hash)
        else fullHashLoop file start stop fuel current hashingBuffer hash
      else .error File.readingPastEndOfFile

/-- `get_full_hash` of a range. -/
def getFullHash (file : File) (start stop : Nat) : Except Exn SHA256.Hash :=
  fullHashLoop file start stop ((stop - start) / hashingBufferSize + 1) start
    (List.replicate hashingBufferSize 0) SHA256.hashInit

/-- `get_full_hash` of a whole file. -/
def getFullHashOfFile (file : File) : Except Exn SHA256.Hash := getFullHash file 0 file.getSize

end Joedb
