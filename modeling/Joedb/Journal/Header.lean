import Joedb.Journal.File

/-!
# The header of a journal

Four checkpoint words in two pairs, a version and a signature. A pair that
holds the same positive value twice is a hard checkpoint; a negative word is a
soft checkpoint. `readCheckpoint` is what every opening and every pull makes of
the four words, starting from what is known already.
-/

namespace Joedb

open ByteFile

/-- `neg`: the negation of an `int64_t`, without an overflow. -/
def neg (x : Int) : Int := if x = -(2 ^ 63) then x else -x

/-- `Header::size`. -/
def headerSize : Nat := 41

/-- `Readonly_Journal::format_version`. -/
def formatVersion : Nat := 5

/-- `Header::joedb`. -/
def signature : Bytes := [0x6a, 0x6f, 0x65, 0x64, 0x62]

structure Header where
  checkpoint : Nat → Int
  version : Nat
  signature : Bytes

/-- A checkpoint word, as it lies in the file. -/
def headerWord (bytes : Bytes) (i : Nat) : Int :=
  decodeInt64 (slice bytes (8 * i) (8 * i + 8))

def Header.ofBytes (bytes : Bytes) : Header where
  checkpoint := headerWord bytes
  version := leDecode (slice bytes 32 36)
  signature := slice bytes 36 41

def Header.bytes (h : Header) : Bytes :=
  encodeInt64 (h.checkpoint 0) ++ encodeInt64 (h.checkpoint 1)
    ++ encodeInt64 (h.checkpoint 2) ++ encodeInt64 (h.checkpoint 3)
    ++ leEncode 4 h.version ++ h.signature

/-- The header of an empty journal. -/
def Header.initial : Header where
  checkpoint := fun _ => headerSize
  version := formatVersion
  signature := Joedb.signature

inductive Recovery where
  | none
  | ignoreHeader
  | overwrite
  deriving DecidableEq, Repr

/-- The checkpoint fields of a journal; the two indices are bits. -/
structure Checkpoints where
  hardIndex : Bool
  softIndex : Bool
  checkpointPosition : Nat
  hardCheckpointPosition : Nat
  deriving DecidableEq, Repr

namespace Checkpoints

def initial : Checkpoints := ⟨false, false, headerSize, headerSize⟩

/-- The hard checkpoint of pair `i`, when it is one and not behind. -/
def readHard (pos : Nat → Int) (i : Bool) (c : Checkpoints) : Checkpoints :=
  if pos (2 * i.toNat) = pos (2 * i.toNat + 1) ∧
      pos (2 * i.toNat) ≥ c.hardCheckpointPosition then
    { c with hardCheckpointPosition := (pos (2 * i.toNat)).toNat, hardIndex := i }
  else c

/-- The soft checkpoint of word `j` of pair `i`, when it is not behind and not
past the end of the file. A negative size is an unknown one. -/
def readSoft (pos : Nat → Int) (fileSize : Int) (i j : Bool) (c : Checkpoints) :
    Checkpoints :=
  let soft := neg (pos (2 * i.toNat + j.toNat))
  if soft ≥ c.checkpointPosition ∧ (fileSize < 0 ∨ soft ≤ fileSize) then
    { c with checkpointPosition := soft.toNat, hardIndex := !i, softIndex := j }
  else c

def readPair (pos : Nat → Int) (fileSize : Int) (i : Bool) (c : Checkpoints) :
    Checkpoints :=
  readSoft pos fileSize i true (readSoft pos fileSize i false (readHard pos i c))

def readCheckpoint (pos : Nat → Int) (fileSize : Int) (c : Checkpoints) :
    Checkpoints :=
  let c := readPair pos fileSize true (readPair pos fileSize false c)
  if c.hardCheckpointPosition > c.checkpointPosition then
    { c with checkpointPosition := c.hardCheckpointPosition }
  else c

end Checkpoints

end Joedb
