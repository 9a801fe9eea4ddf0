import Joedb.Journal.File

/-!
# filebuf

`joedb::filebuf` makes an `std::streambuf` of a file. Its get area and its put area share one
array. The get area is what was read ahead from `in_pos` on, the put area is what waits to be
written at `out_pos`, and each has its own position of the file.

The base class does the easy part of a call, with the pointers of the two areas, and leaves the
rest to the virtual functions. Both parts are here: the functions under the names of the class
are the virtual ones, `call` is what a user calls. A pointer is its distance from the start of the
array. `eof()` is `none`, and a file whose size is not known has the size -1.
-/

namespace Joedb

open ByteFile

/-- `std::ios_base::seekdir`. -/
inductive Seekdir where
  | beg
  | cur
  | end_
  deriving DecidableEq

/-- `std::ios_base::openmode`, of which two bits matter. -/
structure Openmode where
  in_ : Bool
  out : Bool
  deriving DecidableEq

structure Filebuf where
  file : File
  knowsSize : Bool
  buffer : Bytes
  inPos : Nat
  outPos : Nat
  gptr : Nat
  egptr : Nat
  pptr : Nat

inductive StreambufCall where
  | sgetc
  | sbumpc
  | sgetn (count : Nat)
  | sungetc
  | sputbackc (c : UInt8)
  | sputc (c : UInt8)
  | sputn (s : Bytes)
  | pubseekoff (off : Int) (dir : Seekdir) (which : Openmode)
  | pubseekpos (pos : Int) (which : Openmode)
  | pubsync

/-- What a call returns. -/
inductive StreambufValue where
  | char (c : Option UInt8)
  | bytes (s : Bytes)
  | count (n : Nat)
  | position (pos : Int)
  deriving DecidableEq

namespace Filebuf

/-- The size of `buffer`. -/
def bufferSize : Nat := 1 <<< 13

/-- The constructor. -/
def create (file : File) (knowsSize : Bool) : Filebuf :=
  { file, knowsSize, buffer := List.replicate bufferSize 0,
    inPos := 0, outPos := 0, gptr := 0, egptr := 0, pptr := 0 }

def getSize (b : Filebuf) : Int := if b.knowsSize then b.file.getSize else -1

def syncg (b : Filebuf) : Filebuf := { b with inPos := b.inPos + b.gptr, gptr := 0, egptr := 0 }

def syncp (b : Filebuf) : Filebuf :=
  let n := b.pptr
  if n ≠ 0 then
    { b with file := b.file.pwrite b.outPos (b.buffer.take n), outPos := b.outPos + n, pptr := 0 }
  else b

def sync (b : Filebuf) : Filebuf := b.syncg.syncp

/-! ## Seeking -/

def seekpos (pos : Int) (which : Openmode) (b : Filebuf) : Int × Filebuf :=
  if pos < 0 then (-1, b)
  else
    let b := b.sync
    let b := if which.in_ then { b with inPos := pos.toNat } else b
    let b := if which.out then { b with outPos := pos.toNat } else b
    (pos, b)

def seekoff (off : Int) (dir : Seekdir) (which : Openmode) (b : Filebuf) : Int × Filebuf :=
  let (base, b) : Int × Filebuf :=
    match dir with
    | .beg => (0, b)
    | .cur => (if which.in_ then b.inPos + b.gptr else b.outPos + b.pptr, b)
    | .end_ =>
        let b := b.syncp
        (b.getSize, b)
  if base < 0 then (-1, b) else seekpos (base + off) which b

/-! ## Reading -/

/-- `*gptr()`. -/
def char (b : Filebuf) : UInt8 := b.buffer.getD b.gptr 0

def underflow (b : Filebuf) : Option UInt8 × Filebuf :=
  if b.gptr = b.egptr then
    let inPos := b.inPos + b.gptr
    let got := b.file.pread bufferSize inPos
    let b := { b with inPos, buffer := pwrite b.buffer 0 got, gptr := 0, egptr := got.length }
    if got.length = 0 then (none, b) else (some b.char, b)
  else (some b.char, b)

/-- The loop of `xsgetn` is the one of `full_pread`, but that it stops at the end of the file. -/
def xsgetn (count : Nat) (b : Filebuf) : Bytes × Filebuf :=
  let available := b.egptr - b.gptr
  let n := min available count
  let first := slice b.buffer b.gptr (b.gptr + n)
  let b := { b with gptr := b.gptr + n }
  let count := count - n
  if count > 0 then
    let b := b.syncg
    let rest := (b.file.fullPread count b.inPos).1
    (first ++ rest, { b with inPos := b.inPos + rest.length })
  else (first, b)

def pbackfail (c : Option UInt8) (b : Filebuf) : Option UInt8 × Filebuf :=
  let b :=
    if b.gptr = 0 ∧ b.inPos > 0 then
      let previousPosition := b.inPos - 1
      let got := b.file.pread 1 previousPosition
      if got.length = 1 then
        { b with buffer := pwrite b.buffer 0 got, inPos := previousPosition, gptr := 1, egptr := 1 }
      else b
    else b
  if b.gptr > 0 then
    let b := { b with gptr := b.gptr - 1 }
    let b :=
      match c with
      | none => b
      | some cc =>
          if b.char ≠ cc then
            { b with
              buffer := b.buffer.set b.gptr cc
              file := b.file.pwrite (b.inPos + b.gptr) [cc] }
          else b
    (some b.char, b)
  else (none, b)

/-! ## Writing -/

def xsputn (s : Bytes) (b : Filebuf) : Nat × Filebuf :=
  let available := bufferSize - b.pptr
  if available ≥ s.length then
    (s.length, { b with buffer := pwrite b.buffer b.pptr s, pptr := b.pptr + s.length })
  else
    let b := b.syncp
    (s.length, { b with file := b.file.pwrite b.outPos s, outPos := b.outPos + s.length })

/-- `*pptr() = c; pbump(1)`. -/
def bump (c : UInt8) (b : Filebuf) : Filebuf :=
  { b with buffer := b.buffer.set b.pptr c, pptr := b.pptr + 1 }

def overflow (c : UInt8) (b : Filebuf) : Option UInt8 × Filebuf :=
  let b := if b.pptr ≥ bufferSize then b.syncp else b
  (some c, b.bump c)

/-! ## The calls of the base class -/

def sgetc (b : Filebuf) : Option UInt8 × Filebuf :=
  if b.gptr < b.egptr then (some b.char, b) else b.underflow

/-- At the end of the get area this is `uflow`, which takes what `underflow` found. -/
def sbumpc (b : Filebuf) : Option UInt8 × Filebuf :=
  if b.gptr < b.egptr then (some b.char, { b with gptr := b.gptr + 1 })
  else
    let read := b.underflow
    match read.1 with
    | none => read
    | some c => (some c, { read.2 with gptr := read.2.gptr + 1 })

def sungetc (b : Filebuf) : Option UInt8 × Filebuf :=
  if b.gptr > 0 then
    let b := { b with gptr := b.gptr - 1 }
    (some b.char, b)
  else b.pbackfail none

def sputbackc (c : UInt8) (b : Filebuf) : Option UInt8 × Filebuf :=
  if b.gptr > 0 ∧ c = b.buffer.getD (b.gptr - 1) 0 then
    let b := { b with gptr := b.gptr - 1 }
    (some b.char, b)
  else b.pbackfail (some c)

def sputc (c : UInt8) (b : Filebuf) : Option UInt8 × Filebuf :=
  if b.pptr < bufferSize then (some c, b.bump c) else b.overflow c

def call : StreambufCall → Filebuf → StreambufValue × Filebuf
  | .sgetc, b => let r := b.sgetc; (.char r.1, r.2)
  | .sbumpc, b => let r := b.sbumpc; (.char r.1, r.2)
  | .sgetn count, b => let r := b.xsgetn count; (.bytes r.1, r.2)
  | .sungetc, b => let r := b.sungetc; (.char r.1, r.2)
  | .sputbackc c, b => let r := b.sputbackc c; (.char r.1, r.2)
  | .sputc c, b => let r := b.sputc c; (.char r.1, r.2)
  | .sputn s, b => let r := b.xsputn s; (.count r.1, r.2)
  | .pubseekoff off dir which, b => let r := b.seekoff off dir which; (.position r.1, r.2)
  | .pubseekpos pos which, b => let r := b.seekpos pos which; (.position r.1, r.2)
  | .pubsync, b => (.count 0, b.sync)

def run : List StreambufCall → Filebuf → List StreambufValue × Filebuf
  | [], b => ([], b)
  | c :: cs, b =>
      let r := call c b
      let rest := run cs r.2
      (r.1 :: rest.1, rest.2)

end Filebuf

end Joedb
