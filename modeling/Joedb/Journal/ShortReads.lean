import Joedb.Journal.Writable

/-!
# Loops over short reads

A `pread` may return less than it was asked for, and how much is the file's choice. Four loops
live with that: `full_pread`, `copy_to`, `equal_to` and the reader that feeds a socket. Each is
given by what it has done when it is at some offset, and the offset moves by at least one byte a
round, so the number of bytes is enough rounds.

What they return depends on the bytes of the files only. An empty range is in every file.
-/

namespace Joedb

open ByteFile

namespace File

/-! ## copy_to -/

/-- The loop of `copy_to` when the size is negative: it returns at the end of the source. -/
def copyRestGo (source : File) : Nat → File → Nat → File
  | 0, destination, _ => destination
  | fuel + 1, destination, start =>
      let received := source.pread 4096 start
      if received.length = 0 then destination
      else
        source.copyRestGo fuel (destination.pwrite start received) (start + received.length)

/-- `copy_to` with any size. Where the second component is `false`, it throws. -/
def copyRange (source destination : File) (start : Nat) (size : Int) : File × Bool :=
  if size < 0 then (source.copyRestGo (source.getSize - start) destination start, true)
  else source.copyTo destination start size.toNat

/-- The bytes of a range, at the same offsets of another file. -/
def copied (data destination : Bytes) (start stop : Nat) : Bytes :=
  if start < stop then ByteFile.pwrite destination start (slice data start stop) else destination

theorem copied_of_le {data destination : Bytes} {start stop : Nat} (h : stop ≤ start) :
    copied data destination start stop = destination := if_neg (by omega)

/-- A first piece, and then the rest. -/
theorem copied_copied {data destination : Bytes} {start mid stop : Nat} (hstart : start < mid)
    (hmid : mid ≤ stop) (hlen : mid ≤ data.length) :
    copied data (ByteFile.pwrite destination start (slice data start mid)) mid stop
      = copied data destination start stop := by
  rw [copied, copied, if_pos (show start < stop by omega)]
  have hslice := length_slice_of_le (f := data) (a := start) hlen
  split
  · have h := pwrite_pwrite_of_ne_nil destination start (slice data start mid) (slice data mid stop)
      (List.ne_nil_of_length_pos (by omega))
    rw [hslice, show start + (mid - start) = mid by omega] at h
    rw [h, slice_append (by omega) hmid]
  · obtain rfl : mid = stop := by omega
    rfl

/-- What one `pread` gets: nothing at the end, else a piece of the range that is in the file. -/
theorem pread_cases (f : File) {size : Nat} (hsize : 0 < size) (off : Nat) :
    (f.pread size off).length = 0 ∧ f.data.length ≤ off ∨
      ∃ k, 0 < k ∧ k ≤ size ∧ off + k ≤ f.data.length ∧ (f.pread size off).length = k ∧
        f.pread size off = slice f.data off (off + k) := by
  by_cases hz : (f.pread size off).length = 0
  · exact .inl ⟨hz, (pread_length_eq_zero hsize).mp hz⟩
  · have heq := f.pread_eq_slice size off
    have hlen := congrArg List.length heq
    rw [length_slice] at hlen
    exact .inr ⟨_, by omega, f.length_pread_le size off, by omega, rfl, heq⟩

theorem copyToGo_eq (source : File) : ∀ fuel (destination : File) start size, size ≤ fuel →
    (source.copyToGo fuel destination start size).1.data
        = copied source.data destination.data start (min (start + size) source.data.length) ∧
      (source.copyToGo fuel destination start size).2
        = decide (size = 0 ∨ start + size ≤ source.data.length) := by
  intro fuel
  induction fuel with
  | zero =>
      intro destination start size h
      obtain rfl : size = 0 := by omega
      rw [copyToGo, copied_of_le (by omega)]
      simp
  | succ fuel ih =>
      intro destination start size h
      rw [copyToGo]
      by_cases hsize : size = 0
      · subst hsize
        rw [if_pos rfl, copied_of_le (by omega)]
        simp
      · rw [if_neg hsize]
        simp only []
        rcases source.pread_cases (show 0 < min 4096 size by omega) start with
          ⟨hz, hend⟩ | ⟨k, hpos, hk, hin, hlen, hread⟩
        · rw [if_pos hz, copied_of_le (by omega), decide_eq_false (by omega)]
          exact ⟨rfl, rfl⟩
        · rw [if_neg (by omega), hlen, hread]
          obtain ⟨hdata, hdone⟩ :=
            ih (destination.pwrite start (slice source.data start (start + k)))
            (start + k) (size - k) (by omega)
          rw [hdata, hdone, pwrite_data, show start + k + (size - k) = start + size by omega,
            copied_copied (by omega) (by omega) hin]
          refine ⟨rfl, ?_⟩
          congr 1
          apply propext
          omega

theorem copyRestGo_eq (source : File) : ∀ fuel (destination : File) start,
    source.data.length - start ≤ fuel →
    (source.copyRestGo fuel destination start).data
      = copied source.data destination.data start source.data.length := by
  intro fuel
  induction fuel with
  | zero =>
      intro destination start h
      rw [copyRestGo, copied_of_le (by omega)]
  | succ fuel ih =>
      intro destination start h
      rw [copyRestGo]
      rcases source.pread_cases (show 0 < 4096 by omega) start with
        ⟨hz, hend⟩ | ⟨k, hpos, hk, hin, hlen, hread⟩
      · rw [if_pos hz, copied_of_le hend]
      · rw [if_neg (by omega), hlen, hread, ih _ _ (by omega), pwrite_data,
          copied_copied (by omega) hin hin]

/-! ## equal_to -/

/-- The loop of `equal_to`. Its inner loop is the one of `full_pread`, with a `break` where that
throws. -/
def equalToGo (file destination : File) (stop : Nat) : Nat → Nat → Except Exn Bool
  | 0, _ => .ok true
  | fuel + 1, current =>
      if current < stop then
        let buffer := file.pread (min 4096 (stop - current)) current
        let n0 := buffer.length
        let destinationBuffer := (destination.fullPread n0 current).1
        let n1 := destinationBuffer.length
        if n1 ≠ n0 then .ok false
        else if n0 = 0 then .error readingPastEndOfFile
        else if buffer ≠ destinationBuffer then .ok false
        else equalToGo file destination stop fuel (current + n0)
      else .ok true

def equalTo (file destination : File) (start stop : Nat) : Except Exn Bool :=
  equalToGo file destination stop (stop - start) start

/-- What is compared is what this file has of the range; only if it is all the same does it
matter whether the range ends there. -/
theorem equalToGo_eq (file destination : File) (stop : Nat) : ∀ fuel current,
    stop - current ≤ fuel →
    equalToGo file destination stop fuel current =
      if slice file.data current stop
          = slice destination.data current (min stop (max current file.data.length)) then
        if current < stop ∧ file.data.length < stop then .error readingPastEndOfFile else .ok true
      else .ok false := by
  intro fuel
  induction fuel with
  | zero =>
      intro current h
      rw [equalToGo, slice_eq_nil (by omega), slice_eq_nil (by omega), if_pos rfl,
        if_neg (by omega)]
  | succ fuel ih =>
      intro current h
      rw [equalToGo]
      by_cases hlt : current < stop
      · rw [if_pos hlt]
        simp only [fullPread_eq]
        rcases file.pread_cases (show 0 < min 4096 (stop - current) by omega) current with
          ⟨hz, hend⟩ | ⟨k, hpos, hk, hin, hlen, hread⟩
        · rw [hz, Nat.add_zero, slice_self, slice_of_length_le_left hend, slice_eq_nil (by omega)]
          simp only [List.length_nil, ne_eq, not_true_eq_false, if_false, if_true]
          rw [if_pos (by omega)]
        · have hfile := length_slice_of_le (f := file.data) (a := current) hin
          have hfirst : ∀ (data : Bytes) m, current + k ≤ m →
              (slice data current m).take k = slice data current (current + k) := by
            intro data m hm
            rw [slice, List.take_take, slice]
            congr 1
            omega
          rw [hlen, hread]
          by_cases hsame : slice file.data current (current + k)
              = slice destination.data current (current + k)
          · have hrest : ∀ m, current + k ≤ m →
                (slice file.data current stop = slice destination.data current m ↔
                  slice file.data (current + k) stop = slice destination.data (current + k) m) :=
              fun m hm => by
                rw [← slice_append (f := file.data) (show current ≤ current + k by omega)
                    (show current + k ≤ stop by omega),
                  ← slice_append (f := destination.data) (show current ≤ current + k by omega) hm,
                  hsame, List.append_cancel_left_eq]
            have hmax : max current file.data.length
                = max (current + k) file.data.length := by omega
            rw [← hsame, hfile, Nat.add_sub_cancel_left, if_neg (by simp), if_neg (by omega),
              if_neg (by simp), ih _ (by omega), hmax]
            by_cases heq : slice file.data (current + k) stop
                = slice destination.data (current + k)
                    (min stop (max (current + k) file.data.length))
            · rw [if_pos heq, if_pos ((hrest _ (by omega)).mpr heq)]
              by_cases hshort : file.data.length < stop
              · rw [if_pos (by omega), if_pos (by omega)]
              · rw [if_neg (by omega), if_neg (by omega)]
            · rw [if_neg heq, if_neg fun h => heq ((hrest _ (by omega)).mp h)]
          · rw [if_neg (show ¬slice file.data current stop = _ from fun heq => by
              have := congrArg (List.take k) heq
              rw [hfirst _ _ (by omega), hfirst _ _ (by omega)] at this
              exact hsame this)]
            split
            · rfl
            · rw [if_neg (by omega)]
      · rw [if_neg hlt, slice_eq_nil (by omega), slice_eq_nil (by omega), if_pos rfl,
          if_neg (by omega)]

end File

/-! ## Async_Reader -/

structure AsyncReader where
  file : File
  end_ : Nat
  current : Nat
  endOfFile : Bool

namespace AsyncReader

def new (file : File) (start end_ : Nat) : AsyncReader :=
  ⟨file, end_, if start > end_ then end_ else start, false⟩

/-- The loop of `read`: the bytes it puts into the buffer. -/
def readGo : Nat → Nat → AsyncReader → Bytes × AsyncReader
  | 0, _, r => ([], r)
  | fuel + 1, size, r =>
      if size > 0 then
        let got := r.file.pread size r.current
        if got.length = 0 then ([], { r with endOfFile := true })
        else
          let rest := readGo fuel (size - got.length)
            { r with endOfFile := false, current := r.current + got.length }
          (got ++ rest.1, rest.2)
      else ([], r)

def read (capacity : Nat) (r : AsyncReader) : Bytes × AsyncReader :=
  let size := r.end_ - r.current
  let size := if size > capacity then capacity else size
  readGo size size r

/-- Calls with these capacities, and what they deliver together. -/
def reads : List Nat → AsyncReader → Bytes × AsyncReader
  | [], r => ([], r)
  | capacity :: capacities, r =>
      let first := r.read capacity
      let rest := reads capacities first.2
      (first.1 ++ rest.1, rest.2)

/-- The loop stops where it was to stop or where the file does, and the flag says whether it
last asked for a byte that is not there. -/
theorem readGo_eq : ∀ fuel size (r : AsyncReader), size ≤ fuel →
    readGo fuel size r = (slice r.file.data r.current (r.current + size),
      { r with
        current := max r.current (min (r.current + size) r.file.data.length)
        endOfFile := if size = 0 then r.endOfFile
          else decide (r.file.data.length < r.current + size) }) := by
  intro fuel
  induction fuel with
  | zero =>
      intro size r h
      obtain rfl : size = 0 := by omega
      rw [readGo, Nat.add_zero, slice_self, if_pos rfl, Nat.max_eq_left (by omega)]
  | succ fuel ih =>
      intro size r h
      rw [readGo]
      by_cases hsize : size = 0
      · subst hsize
        rw [if_neg (by omega), Nat.add_zero, slice_self, if_pos rfl, Nat.max_eq_left (by omega)]
      · rw [if_pos (by omega), if_neg hsize]
        rcases r.file.pread_cases (show 0 < size by omega) r.current with
          ⟨hz, hend⟩ | ⟨k, hpos, hk, hin, hlen, hread⟩
        · rw [if_pos hz, slice_of_length_le_left hend, Nat.max_eq_left (by omega),
            decide_eq_true (by omega)]
        · rw [if_neg (by omega), hlen, hread, ih _ _ (by omega)]
          simp only []
          rw [show r.current + k + (size - k) = r.current + size by omega,
            slice_append (by omega) (by omega),
            show max (r.current + k) (min (r.current + size) r.file.data.length)
              = max r.current (min (r.current + size) r.file.data.length) by omega]
          by_cases hall : size - k = 0
          · rw [if_pos hall, decide_eq_false (by omega)]
          · rw [if_neg hall]

/-- From any state of the reader: the next bytes of the range in order, as far as the file has
them, and the flag once a byte was asked for that is not there. -/
theorem reads_eq (capacities : List Nat) : ∀ r : AsyncReader, r.current ≤ r.end_ →
    (reads capacities r).1
        = slice r.file.data r.current (min (r.current + capacities.sum) r.end_) ∧
      ((r.endOfFile = true → r.file.data.length ≤ r.current) →
        ((reads capacities r).2.endOfFile = true ↔ r.endOfFile = true ∨
          max r.current r.file.data.length < min (r.current + capacities.sum) r.end_)) := by
  induction capacities with
  | nil =>
      intro r hle
      rw [reads, List.sum_nil, Nat.add_zero, Nat.min_eq_left hle, slice_self]
      exact ⟨rfl, fun _ => ⟨fun h => .inl h, fun h => h.resolve_right (by omega)⟩⟩
  | cons capacity capacities ih =>
      intro r hle
      obtain ⟨size, hsize⟩ : ∃ size, size =
          if r.end_ - r.current > capacity then capacity else r.end_ - r.current := ⟨_, rfl⟩
      have hread := readGo_eq size size r (Nat.le_refl _)
      obtain ⟨hrest, hflag⟩ := ih (readGo size size r).2 (by
        rw [hread]
        simp only []
        split at hsize <;> omega)
      have hstep : size = min capacity (r.end_ - r.current) := by
        rw [hsize]
        split <;> omega
      rw [reads, read, ← hsize, List.sum_cons]
      rw [hread] at hrest hflag ⊢
      simp only [] at hrest hflag ⊢
      constructor
      · rw [hrest]
        by_cases hin : r.current + size ≤ r.file.data.length
        · rw [Nat.min_eq_left hin, Nat.max_eq_right (by omega), slice_append (by omega) (by omega)]
          congr 1
          omega
        · rw [slice_of_length_le_left (a := max _ _) (by omega), List.append_nil,
            slice_of_length_le_right (by omega), slice_of_length_le_right (by omega)]
      · intro hend
        by_cases hzero : size = 0
        · rw [if_pos hzero] at hflag ⊢
          rw [hflag fun h => Nat.le_trans (hend h) (Nat.le_max_left ..)]
          constructor
          · exact fun h => h.imp_right fun h => by omega
          · exact fun h => h.imp_right fun h => by omega
        · rw [if_neg hzero] at hflag ⊢
          rw [hflag fun h => by have := of_decide_eq_true h; omega, decide_eq_true_eq]
          constructor
          · exact fun h => .inr (by omega)
          · rintro (h | h)
            · have := hend h
              exact .inl (by omega)
            · omega

end AsyncReader

/-! ## The four loops -/

/-- Every byte of the range is in the file. -/
def File.Contains (f : File) (start stop : Nat) : Prop := start < stop → stop ≤ f.data.length

theorem File.copyRange_eq (source destination : File) (start : Nat) (size : Int) :
    (source.copyRange destination start size).1.data = copied source.data destination.data start
        (if size < 0 then source.data.length
          else min (start + size.toNat) source.data.length) ∧
      ((source.copyRange destination start size).2 = true ↔
        source.Contains start (start + size.toNat)) := by
  rw [copyRange, Contains]
  split
  · next hneg =>
      refine ⟨source.copyRestGo_eq _ destination start (Nat.le_refl _), ?_⟩
      simp only [true_iff]
      omega
  · obtain ⟨hdata, hdone⟩ := source.copyToGo_eq size.toNat destination start size.toNat
      (Nat.le_refl _)
    rw [copyTo, hdata, hdone, decide_eq_true_eq]
    exact ⟨rfl, by omega⟩

theorem File.equalTo_of_contains {file other : File} {start stop : Nat}
    (h : file.Contains start stop) : ∃ equal, file.equalTo other start stop = .ok equal ∧
      (equal = true ↔
        other.Contains start stop ∧ slice file.data start stop = slice other.data start stop) := by
  rw [Contains] at h
  have hrange : slice other.data start (min stop (max start file.data.length))
      = slice other.data start stop := by
    by_cases hlt : start < stop
    · rw [Nat.min_eq_left (by omega)]
    · rw [slice_eq_nil (by omega), slice_eq_nil (by omega)]
  rw [equalTo, equalToGo_eq _ _ _ _ _ (Nat.le_refl _), hrange]
  split
  · next heq =>
      rw [if_neg (by omega)]
      refine ⟨true, rfl, fun _ => ⟨fun hlt => ?_, heq⟩, fun _ => rfl⟩
      have hlen := congrArg List.length heq
      rw [length_slice, length_slice] at hlen
      have := h hlt
      omega
  · next hne => exact ⟨false, rfl, fun h => Bool.noConfusion h, fun h => absurd h.2 hne⟩

theorem File.equalTo_of_not_contains {file other : File} {start stop : Nat}
    (h : ¬file.Contains start stop) : file.equalTo other start stop ≠ .ok true := by
  rw [Contains] at h
  rw [equalTo, equalToGo_eq _ _ _ _ _ (Nat.le_refl _)]
  split
  · rw [if_pos (by omega)]
    exact fun h => nomatch h
  · exact fun h => nomatch h

theorem AsyncReader.reads_new (file : File) (start end_ : Nat) (capacities : List Nat) :
    (reads capacities (new file start end_)).1
        = slice file.data start (min (start + capacities.sum) end_) ∧
      ((reads capacities (new file start end_)).2.endOfFile = true ↔
        max start file.data.length < min (start + capacities.sum) end_) := by
  have hnew : new file start end_ = ⟨file, end_, min start end_, false⟩ := by
    rw [new]
    congr 1
    split <;> omega
  obtain ⟨hread, hflag⟩ := reads_eq capacities ⟨file, end_, min start end_, false⟩
    (Nat.min_le_right ..)
  rw [hnew, hread, hflag fun h => Bool.noConfusion h]
  simp only [Bool.false_eq_true, false_or]
  rcases Nat.le_total start end_ with hle | hle
  · rw [Nat.min_eq_left hle]
    exact ⟨rfl, Iff.rfl⟩
  · rw [Nat.min_eq_right hle, slice_eq_nil (Nat.min_le_right ..), slice_eq_nil (by omega)]
    exact ⟨rfl, by omega⟩

/-- Whatever `pread` does, each loop does what one reading of the whole range would. -/
theorem shortReads_exact (file other : File) (start stop : Nat) :
    file.fullPread (stop - start) start =
        (slice file.data start stop, decide (stop ≤ start ∨ stop ≤ file.data.length)) ∧
      (∀ size : Int,
        (file.copyRange other start size).1.data = File.copied file.data other.data start
            (if size < 0 then file.data.length
              else min (start + size.toNat) file.data.length) ∧
          ((file.copyRange other start size).2 = true ↔
            file.Contains start (start + size.toNat))) ∧
      (file.Contains start stop → ∃ equal, file.equalTo other start stop = .ok equal ∧
        (equal = true ↔ other.Contains start stop ∧
          slice file.data start stop = slice other.data start stop)) ∧
      (¬file.Contains start stop → file.equalTo other start stop ≠ .ok true) ∧
      ∀ capacities : List Nat,
        let reads := AsyncReader.reads capacities (AsyncReader.new file start stop)
        reads.1 = slice file.data start (min (start + capacities.sum) stop) ∧
          (reads.2.endOfFile = true ↔
            max start file.data.length < min (start + capacities.sum) stop) ∧
          (stop - start ≤ capacities.sum → reads.1 = slice file.data start stop ∧
            (reads.2.endOfFile = true ↔ ¬file.Contains start stop)) := by
  refine ⟨?_, file.copyRange_eq other start, File.equalTo_of_contains,
    File.equalTo_of_not_contains, fun capacities => ?_⟩
  · rw [File.fullPread_eq]
    rcases Nat.le_total start stop with hle | hle
    · rw [show start + (stop - start) = stop by omega]
      congr 2
      apply propext
      omega
    · rw [Nat.sub_eq_zero_of_le hle, Nat.add_zero, slice_self, slice_eq_nil hle,
        decide_eq_true (.inl rfl), decide_eq_true (.inl hle)]
  · obtain ⟨hread, hflag⟩ := AsyncReader.reads_new file start stop capacities
    refine ⟨hread, hflag, fun hall => ⟨?_, ?_⟩⟩
    · rw [hread]
      rcases Nat.le_total start stop with hle | hle
      · rw [Nat.min_eq_right (by omega)]
      · rw [slice_eq_nil (by omega), slice_eq_nil hle]
    · rw [hflag, File.Contains]
      omega

end Joedb
