import Joedb.Journal.FileBuffer
import Joedb.Lib.Cursor

/-!
# File_Buffer is a byte stream with one position

Writing: whatever splits the buffer makes, the bytes flushed so far followed by
the bytes that wait are the bytes written, and the calls made on the file are
writes at consecutive offsets. `Appends` says that, and composes.

Reading: the buffer holds the end of what was read, so a read returns the bytes
of the file at the logical position, across refills and short reads, and throws
exactly when the file ends before the request does. With that, every decoder
below is a `Reads` statement and no later proof looks into a buffer again.
-/

namespace Joedb

open ByteFile StateExcept

/-! ## Writing -/

namespace File

/-- Writes at consecutive offsets, the way a buffer flushes. -/
def pwriteAll (f : File) : Nat → List Bytes → File
  | _, [] => f
  | off, c :: cs => (f.pwrite off c).pwriteAll (off + c.length) cs

/-- The calls of `pwriteAll`. -/
def callsAt : Nat → List Bytes → List Call
  | _, [] => []
  | off, c :: cs => .pwrite off c :: callsAt (off + c.length) cs

theorem pwriteAll_append (f : File) (off : Nat) (cs ds : List Bytes) :
    f.pwriteAll off (cs ++ ds)
      = (f.pwriteAll off cs).pwriteAll (off + cs.flatten.length) ds := by
  induction cs generalizing f off with
  | nil => simp [pwriteAll]
  | cons c cs ih =>
      rw [List.cons_append, pwriteAll, pwriteAll, ih, List.flatten_cons,
        List.length_append, Nat.add_assoc]

@[simp] theorem pwriteAll_mode (f : File) (off : Nat) (cs : List Bytes) :
    (f.pwriteAll off cs).mode = f.mode := by
  induction cs generalizing f off with
  | nil => rfl
  | cons c cs ih => rw [pwriteAll, ih, pwrite_mode]

@[simp] theorem pwriteAll_reads (f : File) (off : Nat) (cs : List Bytes) :
    (f.pwriteAll off cs).reads = f.reads := by
  induction cs generalizing f off with
  | nil => rfl
  | cons c cs ih => rw [pwriteAll, ih, pwrite_reads]

theorem pwriteAll_data {f : File} {off : Nat} (hoff : off ≤ f.data.length)
    (cs : List Bytes) :
    (f.pwriteAll off cs).data = ByteFile.pwrite f.data off cs.flatten := by
  induction cs generalizing f off with
  | nil => rw [pwriteAll, List.flatten_nil, pwrite_nil hoff]
  | cons c cs ih =>
      have hlen : off + c.length ≤ (f.pwrite off c).data.length := by
        rw [pwrite_data, length_pwrite]; omega
      rw [pwriteAll, ih hlen, pwrite_data, pwrite_pwrite hoff, List.flatten_cons]

/-- What is written is there, also with a gap before it. -/
theorem slice_pwriteAll (f : File) (off : Nat) (cs : List Bytes) :
    slice (f.pwriteAll off cs).data off (off + cs.flatten.length) = cs.flatten := by
  have hone : ∀ bs, slice (ByteFile.pwrite f.data off bs) off (off + bs.length) = bs := fun bs => by
    have hlen : ((f.data ++ List.replicate (off - f.data.length) 0).take off).length = off := by
      simp only [List.length_take, List.length_append, List.length_replicate]
      omega
    rw [slice, ByteFile.pwrite, List.append_assoc, List.drop_left' hlen, Nat.add_sub_cancel_left,
      List.take_left]
  cases cs with
  | nil => exact slice_eq_nil (Nat.le_refl _)
  | cons c cs =>
      have hlen : off + c.length ≤ (ByteFile.pwrite f.data off c).length := by
        rw [length_pwrite]
        exact Nat.le_max_right _ _
      rw [pwriteAll, pwriteAll_data (f := f.pwrite off c) hlen, List.flatten_cons,
        List.length_append, pwrite_data,
        ← slice_append (Nat.le_add_right off c.length) (by omega), ← Nat.add_assoc,
        slice_pwrite_self hlen, slice_pwrite_of_disjoint hlen (.inl (Nat.le_refl _)), hone]

theorem pwriteAll_calls (f : File) (off : Nat) (cs : List Bytes) :
    (f.pwriteAll off cs).calls = f.calls ++ callsAt off cs := by
  induction cs generalizing f off with
  | nil => simp [pwriteAll, callsAt]
  | cons c cs ih => rw [pwriteAll, ih, pwrite_calls, callsAt]; simp

end File

namespace FileBuffer

theorem bufferSize_pos : 0 < bufferSize := by decide

/-- The bytes that wait to be flushed. -/
def pending (b : FileBuffer) : Bytes := b.data.take b.index

/-- The buffer is in write mode and below its nominal size. -/
structure Writing (b : FileBuffer) : Prop where
  noRead : b.readBufferSize = 0
  index_le : b.index ≤ b.data.length
  index_lt : b.index < bufferSize

theorem Writing.length_pending {b : FileBuffer} (h : b.Writing) :
    b.pending.length = b.index := by
  rw [pending, List.length_take]
  exact Nat.min_eq_left h.index_le

theorem Writing.getPosition {b : FileBuffer} (h : b.Writing) :
    b.getPosition = b.position + b.index := by
  rw [FileBuffer.getPosition, h.noRead, Nat.sub_zero]

/-- `b'` is `b` after `bs` went through it: `chunks` reached the file, the rest
waits. -/
structure Appends (b : FileBuffer) (bs : Bytes) (b' : FileBuffer) : Prop where
  writing : b'.Writing
  chunks : ∃ cs : List Bytes,
    b'.file = b.file.pwriteAll b.position cs ∧
    cs.flatten ++ b'.pending = b.pending ++ bs ∧
    b'.position = b.position + cs.flatten.length

theorem Appends.trans {b b' b'' : FileBuffer} {bs cs : Bytes}
    (h₁ : b.Appends bs b') (h₂ : b'.Appends cs b'') :
    b.Appends (bs ++ cs) b'' := by
  obtain ⟨xs, hf₁, hp₁, hn₁⟩ := h₁.chunks
  obtain ⟨ys, hf₂, hp₂, hn₂⟩ := h₂.chunks
  refine ⟨h₂.writing, xs ++ ys, ?_, ?_, ?_⟩
  · rw [hf₂, hf₁, hn₁, File.pwriteAll_append]
  · rw [List.flatten_append, List.append_assoc, hp₂, ← List.append_assoc, hp₁,
      List.append_assoc]
  · rw [hn₂, hn₁, List.flatten_append, List.length_append, Nat.add_assoc]

theorem Appends.refl {b : FileBuffer} (h : b.Writing) : b.Appends [] b :=
  ⟨h, [], rfl, by simp, by simp⟩

theorem Appends.getPosition {b b' : FileBuffer} {bs : Bytes} (hb : b.Writing)
    (h : b.Appends bs b') : b'.getPosition = b.getPosition + bs.length := by
  obtain ⟨cs, -, hp, hn⟩ := h.chunks
  have hlen := congrArg List.length hp
  rw [List.length_append, List.length_append, h.writing.length_pending,
    hb.length_pending] at hlen
  rw [h.writing.getPosition, hb.getPosition, hn]
  omega

theorem Appends.position_le {b b' : FileBuffer} {bs : Bytes}
    (h : b.Appends bs b') : b.position ≤ b'.position := by
  obtain ⟨cs, -, -, hn⟩ := h.chunks
  omega

theorem Appends.mode {b b' : FileBuffer} {bs : Bytes} (h : b.Appends bs b') :
    b'.file.mode = b.file.mode := by
  obtain ⟨cs, hf, -, -⟩ := h.chunks
  rw [hf, File.pwriteAll_mode]

/-- Flushing moves everything that waits to the file. -/
theorem flush_appends {b : FileBuffer} (h : b.Writing) :
    b.Appends [] b.flush ∧ b.flush.index = 0 ∧ b.flush.pending = [] := by
  unfold flush bufferHasWriteData
  by_cases hi : b.index = 0
  · have hpos : b.getPosition = b.position := by rw [h.getPosition, hi]; rfl
    simp only [hi, hpos, h.noRead, Nat.lt_irrefl, decide_false, Bool.false_and,
      Bool.false_eq_true, if_false, gt_iff_lt]
    refine ⟨⟨⟨rfl, Nat.zero_le _, bufferSize_pos⟩, [], ?_, ?_, ?_⟩, trivial, ?_⟩
    · rfl
    · simp [pending, hi]
    · rfl
    · simp [pending]
  · have hpos : 0 < b.index := by omega
    simp only [h.noRead, gt_iff_lt, hpos, decide_true, Bool.true_and, beq_self_eq_true,
      if_true, writeBuffer, iteratorWrite]
    refine ⟨⟨⟨rfl, Nat.zero_le _, bufferSize_pos⟩, [b.pending], ?_, ?_, ?_⟩,
      trivial, ?_⟩
    · rfl
    · simp [pending]
    · simp [pending]
    · simp [pending]

/-- Putting at most eight bytes, or any number that stays below the capacity,
and flushing when the buffer is full. -/
theorem put_appends {b : FileBuffer} (h : b.Writing) (bs : Bytes) :
    b.Appends bs (b.put bs).checkWriteBuffer := by
  have hdata : (ByteFile.pwrite b.data b.index bs).take (b.index + bs.length)
      = b.pending ++ bs := by
    have h1 := slice_append (f := ByteFile.pwrite b.data b.index bs)
      (Nat.zero_le b.index) (Nat.le_add_right b.index bs.length)
    rw [slice_pwrite_self h.index_le] at h1
    have h2 := take_pwrite h.index_le (Nat.le_refl b.index) bs
    simp only [slice, List.drop_zero, Nat.sub_zero] at h1
    rw [← h1, h2, pending]
  have hlen : b.index + bs.length ≤ (ByteFile.pwrite b.data b.index bs).length := by
    rw [length_pwrite]; exact Nat.le_max_right _ _
  unfold checkWriteBuffer put
  simp only []
  split
  · next hfull =>
      refine ⟨⟨h.noRead, Nat.zero_le _, bufferSize_pos⟩,
        [b.pending ++ bs], ?_, ?_, ?_⟩
      · simp only [writeBuffer, iteratorWrite, hdata, File.pwriteAll]
      · simp [pending, writeBuffer]
      · simp only [writeBuffer, iteratorWrite, hdata, List.flatten_cons, List.flatten_nil,
          List.append_nil]
  · next hroom =>
      refine ⟨⟨h.noRead, hlen, Nat.lt_of_not_le hroom⟩, [], rfl, ?_, rfl⟩
      simpa [pending] using hdata

theorem write_appends {b : FileBuffer} (h : b.Writing) (bs : Bytes) :
    b.Appends bs (b.write bs) := put_appends h bs

theorem writeCompact_appends {b : FileBuffer} (h : b.Writing) (x : Int) :
    b.Appends (compactWrite x) (b.writeCompact x) := put_appends h _

theorem writeReference_appends {b : FileBuffer} (h : b.Writing) (id : Int) :
    b.Appends (compactWrite (id + 1)) (b.writeReference id) :=
  writeCompact_appends h _

/-- The direct path for large data: flush, then write past the buffer. -/
theorem flush_iteratorWrite_appends {b : FileBuffer} (h : b.Writing) (bs : Bytes) :
    b.Appends bs (b.flush.iteratorWrite bs) := by
  obtain ⟨hfl, hi, hp⟩ := flush_appends h
  have hstep : b.flush.Appends bs (b.flush.iteratorWrite bs) := by
    refine ⟨⟨hfl.writing.noRead, ?_, ?_⟩, [bs], rfl, ?_, ?_⟩
    · exact hfl.writing.index_le
    · exact hfl.writing.index_lt
    · rw [hp]; simp [pending, iteratorWrite, hi]
    · simp [iteratorWrite]
  simpa using hfl.trans hstep

theorem writeData_appends {b : FileBuffer} (h : b.Writing) (bs : Bytes) :
    b.Appends bs (b.writeData bs) := by
  unfold writeData
  split
  · exact put_appends h bs
  · exact flush_iteratorWrite_appends h bs

theorem writeString_appends {b : FileBuffer} (h : b.Writing) (s : Bytes) :
    b.Appends (compactWrite s.length ++ s) (b.writeString s) :=
  have h₁ := writeCompact_appends h (s.length : Int)
  h₁.trans (writeData_appends h₁.writing s)

theorem writeBlob_appends {b : FileBuffer} (h : b.Writing) (blob : Blob) :
    b.Appends (compactWrite blob.position ++ compactWrite blob.size)
      (b.writeBlob blob) :=
  have h₁ := writeCompact_appends h blob.position
  h₁.trans (writeCompact_appends h₁.writing blob.size)

/-! ## Reading -/

/-- The buffer is in read mode: what it holds past its index is the file just
before its position. -/
structure Reading (b : FileBuffer) : Prop where
  index_le : b.index ≤ b.readBufferSize
  size_le : b.readBufferSize ≤ b.position
  size_le_data : b.readBufferSize ≤ b.data.length
  unread : slice b.data b.index b.readBufferSize
    = slice b.file.data b.getPosition b.position

/-- A buffer read at a logical position of its file. -/
def cursor : Cursor FileBuffer where
  At b p := b.Reading ∧ b.getPosition = p
  input b := b.file.data
  frame b b' := b'.file = b.file
  frame_refl _ := rfl
  frame_trans _ _ _ h₁ h₂ := h₂.trans h₁
  frame_input _ _ h := by rw [h]

theorem Reading.position_eq {b : FileBuffer} (h : b.Reading) :
    b.position = b.getPosition + (b.readBufferSize - b.index) := by
  have h1 := h.index_le
  have h2 := h.size_le
  rw [getPosition]
  omega

/-- Unread bytes are bytes of the file. -/
theorem Reading.position_le {b : FileBuffer} (h : b.Reading)
    (hi : b.index < b.readBufferSize) : b.position ≤ b.file.data.length := by
  have hl := congrArg List.length h.unread
  have h1 := h.position_eq
  have h2 := h.size_le_data
  rw [length_slice, length_slice] at hl
  omega

/-- The bytes at hand, read from the array. -/
theorem Reading.slice_data {b : FileBuffer} (h : b.Reading) {n : Nat}
    (hn : b.index + n ≤ b.readBufferSize) :
    slice b.data b.index (b.index + n)
      = slice b.file.data b.getPosition (b.getPosition + n) := by
  have h1 := h.position_eq
  have hs := congrArg (List.take n) h.unread
  rw [slice, slice, List.take_take, List.take_take] at hs
  rw [slice, slice, Nat.add_sub_cancel_left, Nat.add_sub_cancel_left]
  rwa [Nat.min_eq_left (by omega), Nat.min_eq_left (by omega)] at hs

/-- Consuming bytes at hand. -/
theorem Reading.advance {b : FileBuffer} (h : b.Reading) {n : Nat}
    (hn : b.index + n ≤ b.readBufferSize) :
    ({ b with index := b.index + n } : FileBuffer).Reading ∧
      ({ b with index := b.index + n } : FileBuffer).getPosition
        = b.getPosition + n := by
  have hpos : ({ b with index := b.index + n } : FileBuffer).getPosition
      = b.getPosition + n := by
    simp only [getPosition]; omega
  refine ⟨⟨hn, h.size_le, h.size_le_data, ?_⟩, hpos⟩
  have hs := congrArg (List.drop n) h.unread
  rw [slice, slice, List.drop_take, List.drop_take, List.drop_drop,
    List.drop_drop] at hs
  rw [hpos, slice, slice, ← Nat.sub_sub, ← Nat.sub_sub]
  exact hs

/-- A refill reads what `pread` gives, from the position. -/
theorem readBuffer_reading (b : FileBuffer) :
    b.readBuffer.Reading ∧ b.readBuffer.getPosition = b.position ∧
      b.readBuffer.file = b.file ∧
      (b.readBuffer.readBufferSize = 0 ↔ b.file.data.length ≤ b.position) := by
  have hgot := b.file.pread_eq_slice bufferSize b.position
  have hz := @File.pread_length_eq_zero b.file _ b.position bufferSize_pos
  have hpos : b.readBuffer.getPosition = b.position := by
    simp only [getPosition, readBuffer]; omega
  have htake := slice_pwrite_self (f := b.data) (Nat.zero_le _)
    (b.file.pread bufferSize b.position)
  refine ⟨⟨Nat.zero_le _, ?_, ?_, ?_⟩, hpos, rfl, hz⟩
  · exact Nat.le_add_left _ _
  · simp only [readBuffer, length_pwrite]; omega
  · rw [hpos]
    simp only [readBuffer]
    rw [Nat.zero_add] at htake
    rw [htake]
    exact hgot

/-- A buffer whose bytes are all consumed. -/
theorem reading_of_consumed {b : FileBuffer} (hi : b.index = b.readBufferSize)
    (hs : b.readBufferSize ≤ b.position) (hd : b.readBufferSize ≤ b.data.length) :
    b.Reading ∧ b.getPosition = b.position := by
  have hpos : b.getPosition = b.position := by rw [getPosition, hi]; omega
  refine ⟨⟨Nat.le_of_eq hi, hs, hd, ?_⟩, hpos⟩
  rw [hi, hpos, slice_self, slice_self]

/-- `full_read` behind a consumed buffer. -/
theorem fullRead_spec {b : FileBuffer} (hi : b.index = b.readBufferSize)
    (hs : b.readBufferSize ≤ b.position) (hd : b.readBufferSize ≤ b.data.length)
    (got : Bytes) (n : Nat) :
    ∃ b', b.fullRead got n
        = (got ++ slice b.file.data b.position (b.position + n),
            decide (n = 0 ∨ b.position + n ≤ b.file.data.length), b') ∧
      b'.Reading ∧ b'.file = b.file ∧ b.position ≤ b'.getPosition ∧
      ((n = 0 ∨ b.position + n ≤ b.file.data.length) →
        b'.getPosition = b.position + n) := by
  rw [fullRead, File.fullPread_eq]
  simp only []
  by_cases hok : n = 0 ∨ b.position + n ≤ b.file.data.length
  · have hr := reading_of_consumed (b := { b with position := b.position + n }) hi
      (Nat.le_trans hs (Nat.le_add_right _ _)) hd
    rw [decide_eq_true hok, if_pos rfl]
    exact ⟨_, rfl, hr.1, rfl, by rw [hr.2]; exact Nat.le_add_right _ _, fun _ => hr.2⟩
  · have hr := reading_of_consumed hi hs hd
    rw [decide_eq_false hok, if_neg (by decide)]
    exact ⟨_, rfl, hr.1, rfl, Nat.le_of_eq hr.2.symm, fun h => absurd h hok⟩

/-- `read_data` returns the bytes of the file at the logical position, and
throws exactly when the file ends before them; even then the bytes there are
were delivered. -/
theorem readDataInto_spec {b : FileBuffer} (h : b.Reading) (n : Nat) :
    ∃ b', b.readDataInto n
        = (slice b.file.data b.getPosition (b.getPosition + n),
            decide (n = 0 ∨ b.getPosition + n ≤ b.file.data.length), b') ∧
      b'.Reading ∧ b'.file = b.file ∧ b.getPosition ≤ b'.getPosition ∧
      ((n = 0 ∨ b.getPosition + n ≤ b.file.data.length) →
        b'.getPosition = b.getPosition + n) := by
  have hpos := h.position_eq
  have hile := h.index_le
  rw [readDataInto]
  split
  · next hn =>
      obtain ⟨hr, hp⟩ := h.advance hn
      have hok : n = 0 ∨ b.getPosition + n ≤ b.file.data.length := by
        rcases Nat.lt_or_ge b.index b.readBufferSize with hlt | hge
        · have := h.position_le hlt; omega
        · omega
      rw [h.slice_data hn, decide_eq_true hok]
      exact ⟨_, rfl, hr, rfl, by rw [hp]; exact Nat.le_add_right _ _, fun _ => hp⟩
  · next hn =>
      -- what is at hand goes first, and ends at the position of the file
      have hfirst : slice b.data b.index b.readBufferSize
          = slice b.file.data b.getPosition b.position := h.unread
      have hconsumed : b.index + (b.readBufferSize - b.index) = b.readBufferSize := by
        omega
      have hend : b.getPosition + n
          = b.position + (n - (b.readBufferSize - b.index)) := by omega
      have hglue : ∀ q, b.position ≤ q →
          slice b.file.data b.getPosition b.position ++ slice b.file.data b.position q
            = slice b.file.data b.getPosition q := fun q hq =>
        slice_append (by omega) hq
      simp only [hfirst, hconsumed]
      split
      · next hsmall =>
          obtain ⟨hr, hp, hf, hz⟩ := readBuffer_reading
            { b with index := b.readBufferSize }
          generalize hrb : ({ b with index := b.readBufferSize } : FileBuffer).readBuffer
            = rb at *
          simp only [] at hp hf hz
          have hrbi : rb.index = 0 := by rw [← hrb]; rfl
          have hrbp : rb.position = b.position + rb.readBufferSize := by
            rw [← hrb]; rfl
          split
          · next hempty =>
              have hlen := hz.mp hempty
              have hnone : slice b.file.data b.position (b.getPosition + n) = [] := by
                rw [slice, List.drop_eq_nil_of_le hlen, List.take_nil]
              have hbad : ¬ (n = 0 ∨ b.getPosition + n ≤ b.file.data.length) := by
                omega
              refine ⟨rb, ?_, hr, hf, by omega, fun hok => absurd hok hbad⟩
              rw [decide_eq_false hbad, ← hglue (b.getPosition + n) (by omega), hnone,
                List.append_nil]
          · next hsome =>
              have htake : ∀ m, m ≤ rb.readBufferSize →
                  rb.data.take m = slice b.file.data b.position (b.position + m) := by
                intro m hm
                have hsd := hr.slice_data (n := m) (by omega)
                rw [hrbi, hp, hf, Nat.zero_add] at hsd
                rw [← hsd]; simp [slice]
              rcases Nat.le_total (n - (b.readBufferSize - b.index)) rb.readBufferSize
                with hle | hge
              · -- the refill covers the request
                rw [Nat.min_eq_left hle, Nat.sub_self]
                obtain ⟨hra, hpa⟩ := hr.advance
                  (n := n - (b.readBufferSize - b.index)) (by omega)
                rw [hrbi, Nat.zero_add] at hra hpa
                have hok : n = 0 ∨ b.getPosition + n ≤ b.file.data.length := by
                  have := hr.position_le (by omega)
                  rw [hf] at this; omega
                rw [fullRead, File.fullPread_eq, htake _ hle, hglue _ (by omega)]
                simp only [Nat.add_zero, slice_self, List.append_nil, true_or,
                  decide_true, if_true]
                rw [decide_eq_true hok, hend]
                refine ⟨_, rfl, hra, hf, ?_, fun _ => ?_⟩
                · rw [hpa, hp]; omega
                · rw [hpa, hp]
              · -- the rest is read straight from the file
                rw [Nat.min_eq_right hge, htake _ (Nat.le_refl _),
                  hglue _ (by omega)]
                obtain ⟨b', heq, hr', hf', hge', hok'⟩ := fullRead_spec
                  (b := { rb with index := rb.readBufferSize }) rfl hr.size_le
                  hr.size_le_data
                  (slice b.file.data b.getPosition rb.position)
                  (n - (b.readBufferSize - b.index) - rb.readBufferSize)
                have hsum : rb.position
                    + (n - (b.readBufferSize - b.index) - rb.readBufferSize)
                    = b.getPosition + n := by omega
                have hiff : (n - (b.readBufferSize - b.index) - rb.readBufferSize = 0
                      ∨ b.getPosition + n ≤ b.file.data.length)
                    ↔ (n = 0 ∨ b.getPosition + n ≤ b.file.data.length) := by
                  have := hr.position_le (by omega)
                  rw [hf] at this; omega
                simp only [hsum, hf] at hf' hge' hok'
                refine ⟨b', ?_, hr', hf', by omega, fun hk => hok' (hiff.mpr hk)⟩
                rw [← hrbp]
                refine heq.trans ?_
                simp only [hsum, hf]
                rw [slice_append (by omega) (by omega), decide_eq_decide.mpr hiff]
      · next hlarge =>
          obtain ⟨b', heq, hr', hf', hge', hok'⟩ := fullRead_spec
            (b := { b with index := b.readBufferSize }) rfl h.size_le h.size_le_data
            (slice b.file.data b.getPosition b.position)
            (n - (b.readBufferSize - b.index))
          simp only [] at heq hf' hge' hok'
          have hiff : (n - (b.readBufferSize - b.index) = 0
                ∨ b.getPosition + n ≤ b.file.data.length)
              ↔ (n = 0 ∨ b.getPosition + n ≤ b.file.data.length) := by omega
          rw [← hend] at heq hok'
          rw [hglue _ (by omega), decide_eq_decide.mpr hiff] at heq
          exact ⟨b', heq, hr', hf', by omega, fun hk => hok' (hiff.mpr hk)⟩

theorem readData_reads (bs : Bytes) {n : Nat} (hn : n = bs.length) :
    Reads cursor (readData n) bs bs := by
  subst hn
  rintro b p ⟨hr, rfl⟩ hpre
  have hslice := prefix_drop_iff_slice.mp hpre
  have hlen : bs.length = 0 ∨ b.getPosition + bs.length ≤ b.file.data.length := by
    rcases length_le_of_prefix_drop hpre with hnil | hle
    · exact .inl (by rw [hnil]; rfl)
    · exact .inr hle
  obtain ⟨b', heq, hr', hf', -, hok⟩ := readDataInto_spec hr bs.length
  refine ⟨b', ?_, ⟨hr', hok hlen⟩, hf'⟩
  simp only [readData, heq, decide_eq_true hlen, if_true]
  exact congrArg (EStateM.Result.ok · b') hslice

theorem readByte_reads (byte : UInt8) : Reads cursor readByte [byte] byte :=
  (readData_reads [byte] rfl).map rfl

/-- With a byte at hand, both ways to read it agree. -/
theorem bufferReadByte_eq {b : FileBuffer} (h : b.index + 1 ≤ b.readBufferSize) :
    bufferReadByte b = readByte b := by
  have hread : readData 1 b = .ok (slice b.data b.index (b.index + 1))
      { b with index := b.index + 1 } := by
    simp only [readData, readDataInto, if_pos h, if_true]
  rw [readByte, bind_ok hread, pure_run, bufferReadByte, slice,
    Nat.add_sub_cancel_left]
  congr 1
  rw [List.getD_eq_getElem?_getD]
  cases hd : b.data.drop b.index with
  | nil => rw [List.getElem?_eq_none (List.drop_eq_nil_iff.mp hd)]; rfl
  | cons x xs =>
      have hx := @List.getElem?_drop _ b.data b.index 0
      rw [hd, Nat.add_zero] at hx
      rw [← hx]
      rfl

theorem compactLoop_fast (bits : Nat) : ∀ (k result : Nat) (b : FileBuffer),
    b.index + k ≤ b.readBufferSize →
      compactLoop bufferReadByte bits k result b
        = compactLoop readByte bits k result b := by
  intro k
  induction k with
  | zero => intro result b _; rfl
  | succ k ih =>
      intro result b hb
      have hone := bufferReadByte_eq (b := b) (by omega)
      rw [compactLoop, compactLoop, bind_ok (show bufferReadByte b = .ok _ _ from rfl),
        bind_ok (hone.symm.trans rfl)]
      exact ih _ _ (by simp only []; omega)

/-- With eight bytes at hand, the path through the array does what the path through `read` does. -/
theorem compactReadWith_fast (bits : Nat) {b : FileBuffer}
    (hfast : b.index + 8 ≤ b.readBufferSize) :
    compactReadWith bufferReadByte bits b = compactReadWith readByte bits b := by
  have hone := bufferReadByte_eq (b := b) (by omega)
  rw [compactReadWith, compactReadWith,
    bind_ok (show bufferReadByte b = .ok _ _ from rfl),
    bind_ok (hone.symm.trans rfl)]
  refine compactLoop_fast bits _ _ _ ?_
  have hbyte : (b.data.getD b.index 0).toNat >>> 5 ≤ 7 := by
    have := (b.data.getD b.index 0).toNat_lt
    omega
  simp only []
  omega

theorem compactRead_eq (bits : Nat) :
    compactRead bits = compactReadWith readByte bits := by
  funext b
  rw [compactRead, get_bind_run]
  split
  · next hfast => exact compactReadWith_fast bits hfast
  · rfl

theorem compactLoop_reads (bits : Nat) : ∀ (bytes : Bytes) (result : Nat),
    Reads cursor (compactLoop readByte bits bytes.length result) bytes
      (bytes.foldl (compactStep bits) result) := by
  intro bytes
  induction bytes with
  | nil => exact reads_pure
  | cons byte bytes ih =>
      intro result
      exact (readByte_reads byte).bind (ih _)

/-- `compact_read` undoes `compact_write`, at any width that holds the value. -/
theorem compactRead_reads {bits : Nat} {x : Int} (hlo : 0 ≤ x) (hhi : x < 2 ^ 61)
    (hbits : x.toNat < 2 ^ bits) :
    Reads cursor (compactRead bits) (compactWrite x) x.toNat := by
  obtain ⟨extra, he, htop, heq⟩ := compactWrite_shape hlo hhi
  have hfirst := firstByte_toNat he htop
  rw [compactRead_eq, heq]
  refine Reads.bind (u := [_]) (readByte_reads _) ?_
  have hloop := compactLoop_reads bits (bigEndian x.toNat extra)
    (x.toNat / 256 ^ extra)
  rw [foldl_compactStep hbits, length_bigEndian] at hloop
  rw [hfirst]
  have hhead : (extra * 32 + x.toNat / 256 ^ extra) >>> 5 = extra := by
    rw [Nat.shiftRight_eq_div_pow]
    generalize x.toNat / 256 ^ extra = top at *
    omega
  have htail : (extra * 32 + x.toNat / 256 ^ extra) &&& 0x1f
      = x.toNat / 256 ^ extra := by
    rw [show (0x1f : Nat) = 2 ^ 5 - 1 from rfl, Nat.and_two_pow_sub_one_eq_mod]
    omega
  rw [hhead, htail]
  exact hloop

theorem compactLoop_lt {next : EStateM Exn FileBuffer UInt8} {bits extra result bound v : Nat}
    {b b' : FileBuffer} (h : result < bound)
    (hrun : compactLoop next bits extra result b = .ok v b') : v < bound * 256 ^ extra := by
  induction extra generalizing result bound b with
  | zero =>
      obtain ⟨rfl, -⟩ := EStateM.Result.ok.inj hrun
      rwa [Nat.pow_zero, Nat.mul_one]
  | succ extra ih =>
      obtain ⟨byte, b₁, -, hrest⟩ := bind_eq_ok hrun
      have hlt := ih (compactStep_lt bits h byte) hrest
      rwa [Nat.mul_assoc, ← Nat.pow_succ'] at hlt

/-- Three bits of the first byte are for the length. -/
theorem compactRead_lt {bits v : Nat} {b b' : FileBuffer} (hrun : compactRead bits b = .ok v b') :
    v < 2 ^ 61 := by
  rw [compactRead_eq] at hrun
  obtain ⟨first, b₁, -, hrest⟩ := bind_eq_ok hrun
  have hfirst := first.toNat_lt
  have hlow : first.toNat &&& 0x1f < 32 := Nat.lt_succ_of_le Nat.and_le_right
  have hextra : first.toNat >>> 5 ≤ 7 := by omega
  refine Nat.lt_of_lt_of_le (compactLoop_lt hlow hrest) ?_
  exact Nat.mul_le_mul_left 32 (Nat.pow_le_pow_right (by decide) hextra)

theorem readReference_lt {id : Int} {b b' : FileBuffer} (hrun : readReference b = .ok id b') :
    id < 2 ^ 61 - 1 := by
  obtain ⟨n, b₁, hread, hrest⟩ := bind_eq_ok hrun
  obtain ⟨rfl, -⟩ := EStateM.Result.ok.inj hrest
  have := compactRead_lt hread
  omega

theorem compactRead64_reads {n : Nat} (hn : n < 2 ^ 61) :
    Reads cursor (compactRead 64) (compactWrite n) n :=
  compactRead_reads (x := n) (by omega) (by omega) (by omega)

theorem readId_reads (id : UInt16) :
    Reads cursor readId (compactWrite id.toNat) id := by
  have hlt := id.toNat_lt
  have h := @compactRead_reads 16 id.toNat (by omega) (by omega)
    (by omega)
  exact h.map (by simp)

theorem readReference_reads {id : Int} (hlo : -1 ≤ id) (hhi : id < 2 ^ 61 - 1) :
    Reads cursor readReference (compactWrite (id + 1)) id := by
  have h := @compactRead_reads 64 (id + 1) (by omega) (by omega)
    (by omega)
  refine h.map ?_
  congr 1
  omega

theorem safeReadString_reads {s : Bytes} {maxSize : Nat} (hmax : s.length < maxSize)
    (hs : s.length < 2 ^ 61) :
    Reads cursor (safeReadString maxSize) (compactWrite s.length ++ s) s := by
  refine (compactRead64_reads hs).bind ?_
  by_cases hpos : 0 < s.length
  · rw [if_pos ⟨hpos, hmax⟩]
    exact readData_reads s rfl
  · obtain rfl : s = [] := List.length_eq_zero_iff.mp (by omega)
    rw [if_neg (by omega)]
    exact reads_pure []

theorem readBlob_reads {blob : Blob} (hp : 0 ≤ blob.position)
    (hp' : blob.position < 2 ^ 61) (hs : 0 ≤ blob.size) (hs' : blob.size < 2 ^ 61) :
    Reads cursor readBlob (compactWrite blob.position ++ compactWrite blob.size)
      blob := by
  refine (compactRead_reads hp hp' (by omega)).bind
    ((compactRead_reads hs hs' (by omega)).map ?_)
  cases blob with
  | mk position size =>
      simp only [] at hp hs ⊢
      rw [Int.toNat_of_nonneg hp, Int.toNat_of_nonneg hs]

/-! ## Between the two -/

/-- Nothing read and nothing written: ready for both. -/
structure Idle (b : FileBuffer) : Prop where
  noRead : b.readBufferSize = 0
  noIndex : b.index = 0

namespace Idle

variable {b : FileBuffer}

theorem writing (h : b.Idle) : b.Writing :=
  ⟨h.noRead, by rw [h.noIndex]; exact Nat.zero_le _, by rw [h.noIndex]; exact bufferSize_pos⟩

theorem reading (h : b.Idle) : b.Reading :=
  (reading_of_consumed (h.noIndex.trans h.noRead.symm)
    (by rw [h.noRead]; exact Nat.zero_le _) (by rw [h.noRead]; exact Nat.zero_le _)).1

theorem getPosition (h : b.Idle) : b.getPosition = b.position := by
  rw [FileBuffer.getPosition, h.noRead, h.noIndex]; rfl

theorem pending (h : b.Idle) : b.pending = [] := by
  rw [FileBuffer.pending, h.noIndex, List.take_zero]

end Idle

theorem flush_idle_of_writing {b : FileBuffer} (h : b.Writing) : b.flush.Idle :=
  ⟨(flush_appends h).1.writing.noRead, (flush_appends h).2.1⟩

theorem flush_of_reading {b : FileBuffer} (h : b.Reading) :
    b.flush = { b with position := b.getPosition, readBufferSize := 0, index := 0 } := by
  have hwrite : b.bufferHasWriteData = false := by
    have := h.index_le
    rw [bufferHasWriteData]
    by_cases hz : b.index = 0
    · simp [hz]
    · have : b.readBufferSize ≠ 0 := by omega
      simp [this]
  simp [flush, hwrite]

/-- Skipping bytes that are at hand or not. -/
theorem ignore_reading {b : FileBuffer} (h : b.Reading) (n : Nat) :
    (b.ignore n).Reading ∧ (b.ignore n).getPosition = b.getPosition + n ∧
      (b.ignore n).file = b.file := by
  rw [ignore]
  split
  · next hn =>
      obtain ⟨hr, hp⟩ := h.advance hn
      exact ⟨hr, hp, rfl⟩
  · next hn =>
      rw [setPosition, flush_of_reading h]
      exact ⟨(reading_of_consumed rfl (Nat.zero_le _) (Nat.zero_le _)).1,
        by simp [getPosition], rfl⟩

theorem flush_idle_of_reading {b : FileBuffer} (h : b.Reading) :
    b.flush.Idle ∧ b.flush.position = b.getPosition ∧ b.flush.file = b.file := by
  rw [flush_of_reading h]
  exact ⟨⟨rfl, rfl⟩, rfl, rfl⟩

theorem setPosition_idle {b : FileBuffer} (h : b.Idle) (p : Nat) :
    (b.setPosition p).Idle ∧ (b.setPosition p).position = p ∧
      (b.setPosition p).file = b.file := by
  rw [setPosition, flush_of_reading h.reading]
  exact ⟨⟨rfl, rfl⟩, rfl, rfl⟩

theorem create_idle (f : File) : (create f).Idle := ⟨rfl, rfl⟩

end FileBuffer

end Joedb
