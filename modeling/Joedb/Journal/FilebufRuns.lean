import Joedb.Journal.Filebuf

/-!
# The iostream adapter is a file

`PlainFile` is a file without a buffer: its bytes, a get position and a put position. `filebuf`
behaves as one, whatever the sizes of the calls and however short the reads of its file are.

Because the two areas share an array, what is read ahead is good until something is written, and
what waits to be written must not be read over. Reading before writing does no harm: a flush drops
what was read ahead before it writes. Writing before reading does, unless the put area is emptied
between them. `sync` empties it, and so does a seek, but only one to a position that is not
negative: `seekpos` refuses the others before it gets to `sync`.
-/

namespace Joedb

open ByteFile

/-! ## The file without a buffer -/

structure PlainFile where
  data : Bytes
  knowsSize : Bool
  get : Nat
  put : Nat

/-- A write of nothing does not reach the file. -/
def writeAt (data : Bytes) (off : Nat) (s : Bytes) : Bytes :=
  if s = [] then data else pwrite data off s

theorem writeAt_nil (data : Bytes) (off : Nat) : writeAt data off [] = data := if_pos rfl

/-- Two writes one behind the other are one. -/
theorem writeAt_writeAt (data : Bytes) (off : Nat) (s t : Bytes) :
    writeAt (writeAt data off s) (off + s.length) t = writeAt data off (s ++ t) := by
  by_cases hs : s = []
  · subst hs
    rw [writeAt_nil, List.nil_append, List.length_nil, Nat.add_zero]
  · by_cases ht : t = []
    · subst ht
      rw [writeAt_nil, List.append_nil]
    · rw [writeAt, writeAt, writeAt, if_neg ht, if_neg hs, if_neg (by simp [hs]),
        pwrite_pwrite_of_ne_nil _ _ _ _ hs]

namespace PlainFile

/-- The position before is the one of a character, or there is nothing to put back. -/
def putback (c : Option UInt8) (s : PlainFile) : Option UInt8 × PlainFile :=
  if s.get > 0 then
    match s.data[s.get - 1]? with
    | none => (none, s)
    | some old =>
        let c := c.getD old
        (some c, { s with data := s.data.set (s.get - 1) c, get := s.get - 1 })
  else (none, s)

def write (t : Bytes) (s : PlainFile) : PlainFile :=
  { s with data := writeAt s.data s.put t, put := s.put + t.length }

/-- Where a seek goes. It fails if that is negative. -/
def target (s : PlainFile) (off : Int) (dir : Seekdir) (which : Openmode) : Int :=
  match dir with
  | .beg => off
  | .cur => (if which.in_ then s.get else s.put) + off
  | .end_ => if s.knowsSize then s.data.length + off else -1

def seek (pos : Int) (which : Openmode) (s : PlainFile) : Int × PlainFile :=
  if pos < 0 then (-1, s)
  else
    (pos, { s with get := if which.in_ then pos.toNat else s.get
                   put := if which.out then pos.toNat else s.put })

def call : StreambufCall → PlainFile → StreambufValue × PlainFile
  | .sgetc, s => (.char s.data[s.get]?, s)
  | .sbumpc, s =>
      (.char s.data[s.get]?, if s.get < s.data.length then { s with get := s.get + 1 } else s)
  | .sgetn count, s =>
      let got := slice s.data s.get (s.get + count)
      (.bytes got, { s with get := s.get + got.length })
  | .sungetc, s => let r := s.putback none; (.char r.1, r.2)
  | .sputbackc c, s => let r := s.putback (some c); (.char r.1, r.2)
  | .sputc c, s => (.char (some c), s.write [c])
  | .sputn t, s => (.count t.length, s.write t)
  | .pubseekoff off dir which, s =>
      let r := s.seek (s.target off dir which) which
      (.position r.1, r.2)
  | .pubseekpos pos which, s => let r := s.seek pos which; (.position r.1, r.2)
  | .pubsync, s => (.count 0, s)

def run : List StreambufCall → PlainFile → List StreambufValue × PlainFile
  | [], s => ([], s)
  | c :: cs, s =>
      let r := call c s
      let rest := run cs r.2
      (r.1 :: rest.1, rest.2)

end PlainFile

/-! ## Switching between writing and reading -/

namespace StreambufCall

def reads : StreambufCall → Bool
  | sgetc | sbumpc | sgetn _ | sungetc | sputbackc _ => true
  | _ => false

def writes : StreambufCall → Bool
  | sputc _ | sputn _ => true
  | _ => false

/-- A flush, or a seek that does not fail. -/
def settles : StreambufCall → PlainFile → Bool
  | pubsync, _ => true
  | pubseekoff off dir which, s => 0 ≤ s.target off dir which
  | pubseekpos pos _, _ => 0 ≤ pos
  | _, _ => false

/-- To learn where the end is, the put area is emptied, even if the seek fails then. -/
def findsEnd : StreambufCall → Bool
  | pubseekoff _ .end_ _ => true
  | _ => false

end StreambufCall

/-- What the areas may hold. -/
structure AreaUse where
  ahead : Bool
  pending : Bool
  deriving DecidableEq

/-- After a call. Where something was read ahead before something was written, the get area is no
good any more, even when nothing waits. -/
def AreaUse.next (m : AreaUse) (c : StreambufCall) (s : PlainFile) : AreaUse :=
  if c.reads then { m with ahead := true }
  else if c.writes then { m with pending := true }
  else if c.settles s ∨ c.findsEnd ∧ m.ahead = false then ⟨false, false⟩
  else m

/-- Before reading or putting back, nothing waits to be written. -/
def Switches : AreaUse → PlainFile → List StreambufCall → Prop
  | _, _, [] => True
  | m, s, c :: cs => (c.reads → m.pending = false) ∧ Switches (m.next c s) (PlainFile.call c s).2 cs

/-! ## The areas -/

namespace Filebuf

/-- How the two areas make up for the difference between the file and what it stands for. -/
structure Refines (m : AreaUse) (b : Filebuf) (s : PlainFile) : Prop where
  length : b.buffer.length = bufferSize
  gptr_le : b.gptr ≤ b.egptr
  egptr_le : b.egptr ≤ bufferSize
  pptr_le : b.pptr ≤ bufferSize
  size : b.knowsSize = s.knowsSize
  get : b.inPos + b.gptr = s.get
  put : b.outPos + b.pptr = s.put
  data : writeAt b.file.data b.outPos (b.buffer.take b.pptr) = s.data
  noAhead : m.ahead = false → b.egptr = 0
  noPending : m.pending = false → b.pptr = 0
  read : m.pending = false →
    b.buffer.take b.egptr = slice b.file.data b.inPos (b.inPos + b.egptr)

theorem create_refines (file : File) (knowsSize : Bool) :
    (create file knowsSize).Refines ⟨false, false⟩ ⟨file.data, knowsSize, 0, 0⟩ where
  length := List.length_replicate
  gptr_le := Nat.le_refl _
  egptr_le := Nat.zero_le _
  pptr_le := Nat.zero_le _
  size := rfl
  get := rfl
  put := rfl
  data := writeAt_nil ..
  noAhead _ := rfl
  noPending _ := rfl
  read _ := (slice_self ..).symm

section Sync

variable (b : Filebuf)

/-- `syncp` writes what waits, and leaves the get area alone. -/
theorem syncp_cases : b.pptr = 0 ∧ b.syncp = b ∨ b.pptr ≠ 0 ∧
    b.syncp = { b with file := b.file.pwrite b.outPos (b.buffer.take b.pptr)
                       outPos := b.outPos + b.pptr
                       pptr := 0 } := by
  rw [syncp]
  by_cases h : b.pptr = 0
  · exact .inl ⟨h, if_neg (not_not.mpr h)⟩
  · exact .inr ⟨h, if_pos h⟩

@[simp] theorem syncp_buffer : b.syncp.buffer = b.buffer := by
  obtain ⟨-, h⟩ | ⟨-, h⟩ := b.syncp_cases <;> rw [h]

@[simp] theorem syncp_knowsSize : b.syncp.knowsSize = b.knowsSize := by
  obtain ⟨-, h⟩ | ⟨-, h⟩ := b.syncp_cases <;> rw [h]

@[simp] theorem syncp_inPos : b.syncp.inPos = b.inPos := by
  obtain ⟨-, h⟩ | ⟨-, h⟩ := b.syncp_cases <;> rw [h]

@[simp] theorem syncp_gptr : b.syncp.gptr = b.gptr := by
  obtain ⟨-, h⟩ | ⟨-, h⟩ := b.syncp_cases <;> rw [h]

@[simp] theorem syncp_egptr : b.syncp.egptr = b.egptr := by
  obtain ⟨-, h⟩ | ⟨-, h⟩ := b.syncp_cases <;> rw [h]

@[simp] theorem syncp_pptr : b.syncp.pptr = 0 := by
  obtain ⟨hzero, h⟩ | ⟨-, h⟩ := b.syncp_cases <;> rw [h]
  exact hzero

@[simp] theorem syncp_outPos : b.syncp.outPos = b.outPos + b.pptr := by
  obtain ⟨hzero, h⟩ | ⟨-, h⟩ := b.syncp_cases <;> rw [h]
  rw [hzero, Nat.add_zero]

end Sync

section Spec

variable {m : AreaUse} {b : Filebuf} {s : PlainFile}

theorem Refines.data_eq (h : b.Refines m s) (hm : m.pending = false) : b.file.data = s.data := by
  have hdata := h.data
  rwa [h.noPending hm, List.take_zero, writeAt_nil] at hdata

theorem Refines.syncp_data (h : b.Refines m s) : b.syncp.file.data = s.data := by
  obtain ⟨hzero, heq⟩ | ⟨hne, heq⟩ := b.syncp_cases
  · rw [heq, ← h.data, hzero, List.take_zero, writeAt_nil]
  · have hlen := h.length
    have hpptr := h.pptr_le
    rw [heq, ← h.data, writeAt,
      if_neg (List.ne_nil_of_length_pos (by rw [List.length_take]; omega))]
    rfl

theorem Refines.syncg (h : b.Refines m s) : b.syncg.Refines { m with ahead := false } s where
  length := h.length
  gptr_le := Nat.le_refl _
  egptr_le := Nat.zero_le _
  pptr_le := h.pptr_le
  size := h.size
  get := h.get
  put := h.put
  data := h.data
  noAhead _ := rfl
  noPending := h.noPending
  read _ := (slice_self ..).symm

/-- Without a put area that waits, what the get area is good for has not changed. -/
theorem Refines.syncp (h : b.Refines m s) :
    b.syncp.Refines (if m.ahead then m else ⟨false, false⟩) s where
  length := by rw [syncp_buffer]; exact h.length
  gptr_le := by rw [syncp_gptr, syncp_egptr]; exact h.gptr_le
  egptr_le := by rw [syncp_egptr]; exact h.egptr_le
  pptr_le := by rw [syncp_pptr]; exact Nat.zero_le _
  size := by rw [syncp_knowsSize]; exact h.size
  get := by rw [syncp_inPos, syncp_gptr]; exact h.get
  put := by rw [syncp_outPos, syncp_pptr]; exact h.put
  data := by rw [syncp_pptr, List.take_zero, writeAt_nil]; exact h.syncp_data
  noAhead hm := by
    rw [syncp_egptr]
    refine h.noAhead ?_
    by_cases hahead : m.ahead
    · rwa [if_pos hahead] at hm
    · exact eq_false_of_ne_true hahead
  noPending _ := b.syncp_pptr
  read hm := by
    rw [syncp_buffer, syncp_egptr, syncp_inPos]
    by_cases hahead : m.ahead
    · rw [if_pos hahead] at hm
      rw [h.syncp_data, ← h.data_eq hm]
      exact h.read hm
    · rw [h.noAhead (eq_false_of_ne_true hahead), List.take_zero, Nat.add_zero, slice_self]

theorem Refines.sync (h : b.Refines m s) : b.sync.Refines ⟨false, false⟩ s := h.syncg.syncp

/-! ## Seeking -/

theorem Refines.getSize (h : b.Refines m s) (hpptr : b.pptr = 0) :
    b.getSize = if s.knowsSize then (s.data.length : Int) else -1 := by
  have hdata := h.data
  rw [hpptr, List.take_zero, writeAt_nil] at hdata
  rw [Filebuf.getSize, File.getSize, h.size, hdata]

/-- With an empty get area, the get position can be set. -/
theorem Refines.moveGet (h : b.Refines m s) (hm : m.ahead = false) (get : Nat) :
    ({ b with inPos := get } : Filebuf).Refines m { s with get } where
  length := h.length
  gptr_le := h.gptr_le
  egptr_le := h.egptr_le
  pptr_le := h.pptr_le
  size := h.size
  get := by
    have := h.gptr_le
    have := h.noAhead hm
    show get + b.gptr = get
    omega
  put := h.put
  data := h.data
  noAhead := h.noAhead
  noPending := h.noPending
  read _ := by
    show b.buffer.take b.egptr = slice b.file.data get (get + b.egptr)
    rw [h.noAhead hm, List.take_zero, Nat.add_zero, slice_self]

/-- With an empty put area, the put position can be set. -/
theorem Refines.movePut (h : b.Refines m s) (hm : m.pending = false) (put : Nat) :
    ({ b with outPos := put } : Filebuf).Refines m { s with put } where
  length := h.length
  gptr_le := h.gptr_le
  egptr_le := h.egptr_le
  pptr_le := h.pptr_le
  size := h.size
  get := h.get
  put := by
    have := h.noPending hm
    show put + b.pptr = put
    omega
  data := by
    have hdata := h.data_eq hm
    show writeAt b.file.data put (b.buffer.take b.pptr) = s.data
    rw [h.noPending hm, List.take_zero, writeAt_nil, hdata]
  noAhead := h.noAhead
  noPending := h.noPending
  read := h.read

theorem Refines.seekpos (h : b.Refines m s) (pos : Int) (which : Openmode) :
    (b.seekpos pos which).1 = (s.seek pos which).1 ∧
      (b.seekpos pos which).2.Refines (if 0 ≤ pos then ⟨false, false⟩ else m)
        (s.seek pos which).2 := by
  rw [Filebuf.seekpos, PlainFile.seek]
  by_cases hneg : pos < 0
  · rw [if_pos hneg, if_pos hneg, if_neg (show ¬0 ≤ pos by omega)]
    exact ⟨rfl, h⟩
  · rw [if_neg hneg, if_neg hneg, if_pos (show 0 ≤ pos by omega)]
    have hsync := h.sync
    have hget : b.sync.inPos = s.get := by
      have := hsync.get
      have := hsync.gptr_le
      have := hsync.noAhead rfl
      omega
    have hput : b.sync.outPos = s.put := by
      have := hsync.put
      have := hsync.noPending rfl
      omega
    have hplace := (hsync.moveGet rfl (if which.in_ then pos.toNat else s.get)).movePut rfl
      (if which.out then pos.toNat else s.put)
    refine ⟨rfl, ?_⟩
    cases hin : which.in_ <;> cases hout : which.out <;>
      simpa [hin, hout, ← hget, ← hput] using hplace

theorem Refines.seekoff (h : b.Refines m s) (off : Int) (dir : Seekdir) (which : Openmode) :
    (b.seekoff off dir which).1 = (s.seek (s.target off dir which) which).1 ∧
      (b.seekoff off dir which).2.Refines
        (if 0 ≤ s.target off dir which ∨ dir = .end_ ∧ m.ahead = false then ⟨false, false⟩ else m)
        (s.seek (s.target off dir which) which).2 := by
  have hget := h.get
  have hput := h.put
  cases dir with
  | beg =>
      have hseek := h.seekpos off which
      rw [Filebuf.seekoff]
      simpa [PlainFile.target] using hseek
  | cur =>
      have hseek := h.seekpos ((if which.in_ then (s.get : Int) else s.put) + off) which
      rw [Filebuf.seekoff]
      have hbase : (if which.in_ then (b.inPos : Int) + b.gptr else b.outPos + b.pptr)
          = if which.in_ then (s.get : Int) else s.put := by
        split <;> omega
      simp only [hbase]
      rw [if_neg (by split <;> omega)]
      simpa [PlainFile.target] using hseek
  | end_ =>
      have hsync := h.syncp
      have hsize := hsync.getSize b.syncp_pptr
      have huse : ∀ pos : Int, (if 0 ≤ pos then (⟨false, false⟩ : AreaUse)
            else if m.ahead then m else ⟨false, false⟩)
          = if 0 ≤ pos ∨ True ∧ m.ahead = false then ⟨false, false⟩ else m := by
        intro pos
        by_cases hpos : 0 ≤ pos <;> cases m.ahead <;> simp [hpos]
      rw [Filebuf.seekoff]
      simp only [hsize, PlainFile.target]
      cases hknows : s.knowsSize with
      | false =>
          rw [← huse]
          exact ⟨rfl, hsync⟩
      | true =>
          have hseek := hsync.seekpos ((s.data.length : Int) + off) which
          rw [if_pos rfl, if_pos rfl, if_neg (show ¬(s.data.length : Int) < 0 by omega), ← huse]
          exact hseek

/-! ## Reading -/

/-- A byte of the get area is a byte of the file. -/
theorem Refines.char_eq (h : b.Refines m s) (hm : m.pending = false) (hlt : b.gptr < b.egptr) :
    s.data[s.get]? = some b.char := by
  have hlen := h.length
  have hegptr := h.egptr_le
  have hread := congrArg (fun t : Bytes => t[b.gptr]?) (h.read hm)
  simp only [List.getElem?_take, getElem?_slice, Nat.add_sub_cancel_left, if_pos hlt] at hread
  rw [← h.data_eq hm, ← h.get, ← hread, List.getElem?_eq_getElem (by omega), Filebuf.char,
    List.getD_eq_getElem?_getD, List.getElem?_eq_getElem (by omega)]
  rfl

/-- The get position moves inside of the get area. -/
theorem Refines.advance (h : b.Refines m s) (gptr : Nat) (hle : gptr ≤ b.egptr) :
    ({ b with gptr } : Filebuf).Refines m { s with get := b.inPos + gptr } where
  length := h.length
  gptr_le := hle
  egptr_le := h.egptr_le
  pptr_le := h.pptr_le
  size := h.size
  get := rfl
  put := h.put
  data := h.data
  noAhead := h.noAhead
  noPending := h.noPending
  read := h.read

theorem Refines.weaken (h : b.Refines m s) : b.Refines { m with ahead := true } s where
  length := h.length
  gptr_le := h.gptr_le
  egptr_le := h.egptr_le
  pptr_le := h.pptr_le
  size := h.size
  get := h.get
  put := h.put
  data := h.data
  noAhead hm := Bool.noConfusion hm
  noPending := h.noPending
  read := h.read

/-- The array filled again from somewhere in the file. -/
theorem Refines.fill (h : b.Refines m s) (hm : m.pending = false) {inPos : Nat} (gptr : Nat)
    {got : Bytes} (hsize : got.length ≤ bufferSize) (hgptr : gptr ≤ got.length)
    (hgot : got = slice s.data inPos (inPos + got.length)) :
    ({ b with inPos, gptr, egptr := got.length, buffer := pwrite b.buffer 0 got } : Filebuf).Refines
      { m with ahead := true } { s with get := inPos + gptr } where
  length := by
    show (pwrite b.buffer 0 got).length = bufferSize
    rw [length_pwrite, h.length]
    omega
  gptr_le := hgptr
  egptr_le := hsize
  pptr_le := h.pptr_le
  size := h.size
  get := rfl
  put := h.put
  data := by
    have hdata := h.data_eq hm
    show writeAt b.file.data b.outPos ((pwrite b.buffer 0 got).take b.pptr) = s.data
    rw [h.noPending hm, List.take_zero, writeAt_nil, hdata]
  noAhead hm := Bool.noConfusion hm
  noPending := h.noPending
  read _ := by
    show (pwrite b.buffer 0 got).take got.length = slice b.file.data inPos (inPos + got.length)
    have hself : slice (pwrite b.buffer 0 got) 0 (0 + got.length) = got :=
      slice_pwrite_self (Nat.zero_le _) got
    rw [slice, List.drop_zero, Nat.zero_add, Nat.sub_zero] at hself
    rw [hself, h.data_eq hm, ← hgot]

theorem Refines.underflow (h : b.Refines m s) (hm : m.pending = false) (hge : b.egptr ≤ b.gptr) :
    b.underflow.1 = s.data[s.get]? ∧ b.underflow.2.Refines { m with ahead := true } s ∧
      (b.underflow.1 = none ∨ b.underflow.2.gptr < b.underflow.2.egptr) := by
  have heq : b.gptr = b.egptr := Nat.le_antisymm h.gptr_le hge
  have hlen := b.file.length_pread_le bufferSize s.get
  have hgot := b.file.pread_eq_slice bufferSize s.get
  have hzero := @File.pread_length_eq_zero b.file bufferSize s.get (by decide)
  rw [h.data_eq hm] at hgot hzero
  rw [Filebuf.underflow, if_pos heq, h.get]
  have hfill := h.fill hm 0 hlen (Nat.zero_le _) hgot
  by_cases hnone : (b.file.pread bufferSize s.get).length = 0
  · simp only [if_pos hnone]
    exact ⟨(List.getElem?_eq_none (hzero.mp hnone)).symm, hfill, .inl trivial⟩
  · simp only [if_neg hnone]
    exact ⟨(hfill.char_eq hm (Nat.pos_of_ne_zero hnone)).symm, hfill,
      .inr (Nat.pos_of_ne_zero hnone)⟩

theorem Refines.sgetc (h : b.Refines m s) (hm : m.pending = false) :
    b.sgetc.1 = s.data[s.get]? ∧ b.sgetc.2.Refines { m with ahead := true } s := by
  rw [Filebuf.sgetc]
  by_cases hlt : b.gptr < b.egptr
  · rw [if_pos hlt]
    exact ⟨(h.char_eq hm hlt).symm, h.weaken⟩
  · rw [if_neg hlt]
    obtain ⟨hvalue, hrefines, -⟩ := h.underflow hm (by omega)
    exact ⟨hvalue, hrefines⟩

theorem Refines.sbumpc (h : b.Refines m s) (hm : m.pending = false) :
    b.sbumpc.1 = s.data[s.get]? ∧ b.sbumpc.2.Refines { m with ahead := true }
      (if s.get < s.data.length then { s with get := s.get + 1 } else s) := by
  rw [Filebuf.sbumpc]
  by_cases hlt : b.gptr < b.egptr
  · have hchar := h.char_eq hm hlt
    have hin := (List.getElem?_eq_some_iff.mp hchar).1
    have hadvance := h.advance (b.gptr + 1) (by omega)
    rw [if_pos hlt, if_pos hin, ← h.get]
    exact ⟨by rw [← hchar, h.get], hadvance.weaken⟩
  · rw [if_neg hlt]
    obtain ⟨hvalue, hrefines, hroom⟩ := h.underflow hm (by omega)
    simp only []
    split
    · next hnone =>
        rw [hvalue] at hnone
        rw [if_neg (by rw [List.getElem?_eq_none_iff] at hnone; omega)]
        exact ⟨hvalue, hrefines⟩
    · next c hsome =>
        have hadvance := hrefines.advance (b.underflow.2.gptr + 1)
          (hroom.resolve_left (by rw [hsome]; exact nofun))
        rw [hvalue] at hsome
        have hin := (List.getElem?_eq_some_iff.mp hsome).1
        rw [if_pos hin, hsome, ← hrefines.get]
        exact ⟨rfl, hadvance⟩

/-- Bytes of the get area are bytes of the file. -/
theorem Refines.slice_eq (h : b.Refines m s) (hm : m.pending = false) {n : Nat}
    (hn : b.gptr + n ≤ b.egptr) :
    slice b.buffer b.gptr (b.gptr + n) = slice s.data s.get (s.get + n) ∧
      (slice s.data s.get (s.get + n)).length = n := by
  have hlen := h.length
  have hegptr := h.egptr_le
  have hread := congrArg (fun t : Bytes => slice t b.gptr (b.gptr + n)) (h.read hm)
  simp only [slice_take hn] at hread
  rw [slice_slice (by omega), h.data_eq hm, ← Nat.add_assoc, h.get] at hread
  refine ⟨hread, ?_⟩
  rw [← hread, length_slice]
  omega

theorem Refines.xsgetn (h : b.Refines m s) (hm : m.pending = false) (count : Nat) :
    (b.xsgetn count).1 = slice s.data s.get (s.get + count) ∧
      (b.xsgetn count).2.Refines { m with ahead := true }
        { s with get := s.get + (slice s.data s.get (s.get + count)).length } := by
  have hgptr := h.gptr_le
  have hget := h.get
  obtain ⟨n, hn⟩ : ∃ n, n = min (b.egptr - b.gptr) count := ⟨_, rfl⟩
  obtain ⟨hfirst, hlen⟩ := h.slice_eq hm (n := n) (by omega)
  have hadvance := h.advance (b.gptr + n) (by omega)
  rw [← Nat.add_assoc, hget] at hadvance
  rw [Filebuf.xsgetn]
  simp only [← hn, hfirst]
  by_cases hmore : count - n > 0
  · -- the rest comes from the file, with an empty get area
    have hsync := hadvance.syncg
    have hinPos : ({ b with gptr := b.gptr + n } : Filebuf).syncg.inPos = s.get + n := by
      rw [← hget, Nat.add_assoc]
      rfl
    have hrest : slice s.data s.get (s.get + n)
            ++ slice s.data (s.get + n) (s.get + n + (count - n))
          = slice s.data s.get (s.get + count) := by
      rw [slice_append (by omega) (by omega)]
      congr 1
      omega
    have hdata : ({ b with gptr := b.gptr + n } : Filebuf).syncg.file.data = s.data := h.data_eq hm
    have hmove := hsync.moveGet rfl
      (s.get + n + (slice s.data (s.get + n) (s.get + n + (count - n))).length)
    rw [if_pos hmore, File.fullPread_eq, hdata, hinPos]
    refine ⟨hrest, ?_⟩
    rw [← hrest, List.length_append, hlen, ← Nat.add_assoc]
    exact hmove.weaken
  · have hall : n = count := by omega
    rw [if_neg hmore, ← hall, hlen]
    exact ⟨rfl, hadvance.weaken⟩

/-! ## Putting back -/

/-- A byte of the get area is changed, in the array and in the file. -/
theorem Refines.overwrite (h : b.Refines m s) (hm : m.pending = false) (hlt : b.gptr < b.egptr)
    (c : UInt8) :
    ({ b with buffer := b.buffer.set b.gptr c
              file := b.file.pwrite (b.inPos + b.gptr) [c] } : Filebuf).Refines m
      { s with data := s.data.set s.get c } where
  length := by
    show (b.buffer.set b.gptr c).length = bufferSize
    rw [List.length_set, h.length]
  gptr_le := h.gptr_le
  egptr_le := h.egptr_le
  pptr_le := h.pptr_le
  size := h.size
  get := h.get
  put := h.put
  data := by
    have hin := (List.getElem?_eq_some_iff.mp (h.char_eq hm hlt)).1
    show writeAt (pwrite b.file.data (b.inPos + b.gptr) [c]) b.outPos _ = s.data.set s.get c
    rw [h.noPending hm, List.take_zero, writeAt_nil, h.data_eq hm, h.get, pwrite_singleton hin]
  noAhead := h.noAhead
  noPending := h.noPending
  read _ := by
    have hin := (List.getElem?_eq_some_iff.mp (h.char_eq hm hlt)).1
    show (b.buffer.set b.gptr c).take b.egptr
      = slice (pwrite b.file.data (b.inPos + b.gptr) [c]) b.inPos (b.inPos + b.egptr)
    rw [h.data_eq hm, pwrite_singleton (by rw [h.get]; exact hin), slice_set, List.take_set,
      h.read hm, h.data_eq hm]

/-- The end of `pbackfail`, with room before the get pointer. -/
theorem Refines.back (h : b.Refines m s) (hm : m.pending = false) (hpos : b.gptr > 0)
    (c : Option UInt8) :
    let b₁ : Filebuf := { b with gptr := b.gptr - 1 }
    let b₂ : Filebuf :=
      match c with
      | none => b₁
      | some cc =>
          if b₁.char ≠ cc then
            { b₁ with buffer := b₁.buffer.set b₁.gptr cc
                      file := b₁.file.pwrite (b₁.inPos + b₁.gptr) [cc] }
          else b₁
    some b₂.char = (s.putback c).1 ∧ b₂.Refines m (s.putback c).2 := by
  have hget := h.get
  have hgptr := h.gptr_le
  have hback := h.advance (b.gptr - 1) (by omega)
  rw [show b.inPos + (b.gptr - 1) = s.get - 1 by omega] at hback
  have hlt : ({ b with gptr := b.gptr - 1 } : Filebuf).gptr < b.egptr := by
    show b.gptr - 1 < b.egptr
    omega
  have hold := hback.char_eq hm hlt
  have hput : s.putback c = (some (c.getD ({ b with gptr := b.gptr - 1 } : Filebuf).char),
      { s with
        data := s.data.set (s.get - 1) (c.getD ({ b with gptr := b.gptr - 1 } : Filebuf).char)
        get := s.get - 1 }) := by
    rw [PlainFile.putback, if_pos (by omega)]
    simp only [hold]
  have hsame : s.data.set (s.get - 1) ({ b with gptr := b.gptr - 1 } : Filebuf).char = s.data := by
    obtain ⟨hin, hval⟩ := List.getElem?_eq_some_iff.mp hold
    rw [← hval]
    exact List.set_getElem_self hin
  rw [hput]
  cases c with
  | none =>
      rw [Option.getD_none, hsame]
      exact ⟨rfl, hback⟩
  | some cc =>
      by_cases heq : ({ b with gptr := b.gptr - 1 } : Filebuf).char = cc
      · simp only [Option.getD_some, ne_eq, heq, not_true_eq_false, if_false]
        rw [heq] at hsame
        rw [hsame]
        exact ⟨trivial, hback⟩
      · have hover := hback.overwrite hm hlt cc
        simp only [Option.getD_some, ne_eq, heq, not_false_eq_true, if_true]
        refine ⟨?_, hover⟩
        have hlen := h.length
        have hegptr := h.egptr_le
        rw [Filebuf.char, List.getD_eq_getElem?_getD, List.getElem?_set_self (by
          show b.gptr - 1 < b.buffer.length
          omega)]
        rfl

theorem Refines.pbackfail (h : b.Refines m s) (hm : m.pending = false) (c : Option UInt8) :
    (b.pbackfail c).1 = (s.putback c).1 ∧
      (b.pbackfail c).2.Refines { m with ahead := true } (s.putback c).2 := by
  have hget := h.get
  rw [Filebuf.pbackfail]
  by_cases hstart : b.gptr = 0 ∧ b.inPos > 0
  · have hprev : b.inPos - 1 = s.get - 1 := by omega
    have hgot := b.file.pread_eq_slice 1 (s.get - 1)
    have hle := b.file.length_pread_le 1 (s.get - 1)
    have hzero := @File.pread_length_eq_zero b.file 1 (s.get - 1) (by omega)
    rw [h.data_eq hm] at hgot hzero
    simp only [if_pos hstart, hprev]
    by_cases hone : (b.file.pread 1 (s.get - 1)).length = 1
    · have hfill := h.fill hm 1 (by rw [hone]; decide) (by omega) hgot
      rw [show s.get - 1 + 1 = s.get by omega, hone] at hfill
      simp only [if_pos hone]
      exact hfill.back hm Nat.one_pos c
    · have hnone := List.getElem?_eq_none (hzero.mp (by omega))
      simp only [if_neg hone, hstart.1, gt_iff_lt, Nat.lt_irrefl, if_false]
      rw [PlainFile.putback, if_pos (by omega)]
      simp only [hnone]
      exact ⟨trivial, h.weaken⟩
  · simp only [if_neg hstart]
    by_cases hpos : b.gptr > 0
    · rw [if_pos hpos]
      exact h.weaken.back hm hpos c
    · rw [if_neg hpos, PlainFile.putback, if_neg (by omega)]
      exact ⟨rfl, h.weaken⟩

theorem Refines.sungetc (h : b.Refines m s) (hm : m.pending = false) :
    b.sungetc.1 = (s.putback none).1 ∧
      b.sungetc.2.Refines { m with ahead := true } (s.putback none).2 := by
  rw [Filebuf.sungetc]
  by_cases hpos : b.gptr > 0
  · rw [if_pos hpos]
    exact h.weaken.back hm hpos none
  · rw [if_neg hpos]
    exact h.pbackfail hm none

theorem Refines.sputbackc (h : b.Refines m s) (hm : m.pending = false) (c : UInt8) :
    (b.sputbackc c).1 = (s.putback (some c)).1 ∧
      (b.sputbackc c).2.Refines { m with ahead := true } (s.putback (some c)).2 := by
  rw [Filebuf.sputbackc]
  by_cases hsame : b.gptr > 0 ∧ c = b.buffer.getD (b.gptr - 1) 0
  · rw [if_pos hsame]
    have hback := h.weaken.back hm hsame.1 (some c)
    have hchar : ({ b with gptr := b.gptr - 1 } : Filebuf).char = c := hsame.2.symm
    simpa only [hchar, ne_eq, not_true_eq_false, if_false] using hback
  · rw [if_neg hsame]
    exact h.pbackfail hm (some c)

/-! ## Writing -/

/-- Bytes join those that wait. -/
theorem Refines.append (h : b.Refines m s) {t : Bytes} (hroom : b.pptr + t.length ≤ bufferSize) :
    ({ b with buffer := pwrite b.buffer b.pptr t, pptr := b.pptr + t.length } : Filebuf).Refines
      { m with pending := true } (s.write t) where
  length := by
    show (pwrite b.buffer b.pptr t).length = bufferSize
    rw [length_pwrite, h.length]
    omega
  gptr_le := h.gptr_le
  egptr_le := h.egptr_le
  pptr_le := hroom
  size := h.size
  get := h.get
  put := by
    have := h.put
    show b.outPos + (b.pptr + t.length) = s.put + t.length
    omega
  data := by
    have hlen := h.length
    have hpptr := h.pptr_le
    have htake : (pwrite b.buffer b.pptr t).take (b.pptr + t.length)
        = b.buffer.take b.pptr ++ t := by
      have hself := slice_append (f := pwrite b.buffer b.pptr t) (Nat.zero_le b.pptr)
        (Nat.le_add_right b.pptr t.length)
      rw [slice_pwrite_self (by omega), slice, slice, List.drop_zero, Nat.sub_zero, Nat.sub_zero,
        take_pwrite (by omega) (Nat.le_refl _)] at hself
      exact hself.symm
    show writeAt b.file.data b.outPos ((pwrite b.buffer b.pptr t).take (b.pptr + t.length))
      = writeAt s.data s.put t
    rw [htake, ← h.data, ← h.put, ← writeAt_writeAt, List.length_take, Nat.min_eq_left (by omega)]
  noAhead := h.noAhead
  noPending hm := Bool.noConfusion hm
  read hm := Bool.noConfusion hm

theorem Refines.syncp_pending (h : b.Refines m s) :
    b.syncp.Refines { m with pending := true } s where
  length := h.syncp.length
  gptr_le := h.syncp.gptr_le
  egptr_le := h.syncp.egptr_le
  pptr_le := h.syncp.pptr_le
  size := h.syncp.size
  get := h.syncp.get
  put := h.syncp.put
  data := h.syncp.data
  noAhead hm := by
    rw [syncp_egptr]
    exact h.noAhead hm
  noPending hm := Bool.noConfusion hm
  read hm := Bool.noConfusion hm

theorem Refines.xsputn (h : b.Refines m s) (t : Bytes) :
    (b.xsputn t).1 = t.length ∧ (b.xsputn t).2.Refines { m with pending := true } (s.write t) := by
  rw [Filebuf.xsputn]
  by_cases hroom : bufferSize - b.pptr ≥ t.length
  · have hpptr := h.pptr_le
    rw [if_pos hroom]
    exact ⟨rfl, h.append (by omega)⟩
  · rw [if_neg hroom]
    -- the put area is emptied, and the bytes go past it
    have hsync := h.syncp_pending
    have hput := hsync.put
    rw [syncp_pptr, Nat.add_zero] at hput
    refine ⟨rfl, ⟨hsync.length, hsync.gptr_le, hsync.egptr_le, hsync.pptr_le, hsync.size, hsync.get,
      ?_, ?_, hsync.noAhead, fun hm => Bool.noConfusion hm, fun hm => Bool.noConfusion hm⟩⟩
    · show b.syncp.outPos + t.length + b.syncp.pptr = s.put + t.length
      rw [syncp_pptr, hput, Nat.add_zero]
    · have ht : t ≠ [] := fun hnil => hroom (by rw [hnil]; exact Nat.zero_le _)
      show writeAt (pwrite b.syncp.file.data b.syncp.outPos t) _ (b.syncp.buffer.take b.syncp.pptr)
        = writeAt s.data s.put t
      rw [syncp_pptr, List.take_zero, writeAt_nil, h.syncp_data, hput, writeAt, if_neg ht]

theorem Refines.bump (h : b.Refines m s) (hroom : b.pptr < bufferSize) (c : UInt8) :
    (b.bump c).Refines { m with pending := true } (s.write [c]) := by
  have hlen := h.length
  have happend := h.append (t := [c]) hroom
  rwa [pwrite_singleton (by omega)] at happend

theorem Refines.sputc (h : b.Refines m s) (c : UInt8) :
    (b.sputc c).1 = some c ∧ (b.sputc c).2.Refines { m with pending := true } (s.write [c]) := by
  rw [Filebuf.sputc]
  by_cases hroom : b.pptr < bufferSize
  · rw [if_pos hroom]
    exact ⟨rfl, h.bump hroom c⟩
  · rw [if_neg hroom, overflow, if_pos (Nat.le_of_not_lt hroom)]
    exact ⟨rfl, h.syncp_pending.bump (by rw [syncp_pptr]; decide) c⟩

/-! ## Runs -/

/-- One call. -/
theorem Refines.call (h : b.Refines m s) (c : StreambufCall)
    (hread : c.reads → m.pending = false) :
    (call c b).1 = (PlainFile.call c s).1 ∧
      (call c b).2.Refines (m.next c s) (PlainFile.call c s).2 := by
  cases c with
  | sgetc =>
      obtain ⟨hvalue, hrefines⟩ := h.sgetc (hread rfl)
      exact ⟨congrArg _ hvalue, hrefines⟩
  | sbumpc =>
      obtain ⟨hvalue, hrefines⟩ := h.sbumpc (hread rfl)
      exact ⟨congrArg _ hvalue, hrefines⟩
  | sgetn count =>
      obtain ⟨hvalue, hrefines⟩ := h.xsgetn (hread rfl) count
      exact ⟨congrArg _ hvalue, hrefines⟩
  | sungetc =>
      obtain ⟨hvalue, hrefines⟩ := h.sungetc (hread rfl)
      exact ⟨congrArg _ hvalue, hrefines⟩
  | sputbackc c =>
      obtain ⟨hvalue, hrefines⟩ := h.sputbackc (hread rfl) c
      exact ⟨congrArg _ hvalue, hrefines⟩
  | sputc c =>
      obtain ⟨hvalue, hrefines⟩ := h.sputc c
      exact ⟨congrArg _ hvalue, hrefines⟩
  | sputn t =>
      obtain ⟨hvalue, hrefines⟩ := h.xsputn t
      exact ⟨congrArg _ hvalue, hrefines⟩
  | pubseekoff off dir which =>
      obtain ⟨hvalue, hrefines⟩ := h.seekoff off dir which
      refine ⟨congrArg _ hvalue, ?_⟩
      have hnext : m.next (.pubseekoff off dir which) s
          = if 0 ≤ s.target off dir which ∨ dir = .end_ ∧ m.ahead = false then ⟨false, false⟩
            else m := by
        cases dir <;> simp [AreaUse.next, StreambufCall.reads, StreambufCall.writes,
          StreambufCall.settles, StreambufCall.findsEnd]
      rw [hnext]
      exact hrefines
  | pubseekpos pos which =>
      obtain ⟨hvalue, hrefines⟩ := h.seekpos pos which
      refine ⟨congrArg _ hvalue, ?_⟩
      have hnext : m.next (.pubseekpos pos which) s
          = if 0 ≤ pos then ⟨false, false⟩ else m := by
        simp [AreaUse.next, StreambufCall.reads, StreambufCall.writes, StreambufCall.settles,
          StreambufCall.findsEnd]
      rw [hnext]
      exact hrefines
  | pubsync => exact ⟨rfl, h.sync⟩

theorem Refines.run (cs : List StreambufCall) : ∀ {m : AreaUse} {b : Filebuf} {s : PlainFile},
    b.Refines m s → Switches m s cs →
    (run cs b).1 = (PlainFile.run cs s).1 ∧
      ∃ m', (run cs b).2.Refines m' (PlainFile.run cs s).2 := by
  induction cs with
  | nil => exact fun h _ => ⟨rfl, _, h⟩
  | cons c cs ih =>
      intro m b s h hswitches
      obtain ⟨hvalue, hrefines⟩ := h.call c hswitches.1
      obtain ⟨hrest, hlast⟩ := ih hrefines hswitches.2
      exact ⟨congrArg₂ List.cons hvalue hrest, hlast⟩

end Spec

/-- A flush or a seek between writing and reading, and between reading and writing, whether or
not the seek fails. -/
def SeeksBetween : Bool → Bool → List StreambufCall → Prop
  | _, _, [] => True
  | wrote, read, c :: cs =>
      if c.reads then wrote = false ∧ SeeksBetween false true cs
      else if c.writes then read = false ∧ SeeksBetween true false cs
      else SeeksBetween false false cs

/-- A seek to a negative position fails before it flushes. The `x` that was written is then
neither read nor, after the next flush, in the file. -/
theorem run_failed_seek :
    ¬ ∀ (file : File) (knowsSize : Bool) (calls : List StreambufCall),
      SeeksBetween false false calls →
      (run calls (create file knowsSize)).1
          = (PlainFile.run calls ⟨file.data, knowsSize, 0, 0⟩).1 ∧
        (run calls (create file knowsSize)).2.sync.file.data
          = (PlainFile.run calls ⟨file.data, knowsSize, 0, 0⟩).2.data := by
  intro h
  obtain ⟨hvalues, hdata⟩ := h ⟨.writeExisting, .whole, [97, 98, 99], []⟩ true
    [.sputn [120], .pubseekpos (-1) ⟨true, true⟩, .sgetc] ⟨rfl, rfl, trivial⟩
  revert hdata
  decide +kernel

/-- As long as nothing waits to be written when something is read or put back, the adapter is the
file: what the calls return, what is in the file after a flush, and the two positions. -/
theorem run_plainFile {file : File} {knowsSize : Bool} {calls : List StreambufCall}
    (h : Switches ⟨false, false⟩ ⟨file.data, knowsSize, 0, 0⟩ calls) :
    let b := run calls (create file knowsSize)
    let s := PlainFile.run calls ⟨file.data, knowsSize, 0, 0⟩
    b.1 = s.1 ∧ b.2.sync.file.data = s.2.data ∧ b.2.inPos + b.2.gptr = s.2.get ∧
      b.2.outPos + b.2.pptr = s.2.put := by
  obtain ⟨hvalues, m, hrefines⟩ := (create_refines file knowsSize).run calls h
  exact ⟨hvalues, hrefines.sync.data_eq rfl, hrefines.get, hrefines.put⟩

/-- A write, a seek that succeeds, and the put-back of a character of its own. -/
theorem run_plainFile_putback :
    (run [.sputn [120, 121], .pubseekpos 1 ⟨true, false⟩, .sputbackc 122]
        (create .empty true)).1
      = (PlainFile.run [.sputn [120, 121], .pubseekpos 1 ⟨true, false⟩, .sputbackc 122]
          ⟨File.empty.data, true, 0, 0⟩).1 :=
  (@run_plainFile .empty true [.sputn [120, 121], .pubseekpos 1 ⟨true, false⟩, .sputbackc 122]
    ⟨nofun, nofun, fun _ => rfl, trivial⟩).1

end Filebuf

end Joedb
