import Joedb.Journal.BufferSpec

/-!
# A stream without a buffer

What `File_Buffer` stands for: the bytes of a file and one position. Every call
of the buffer is a call of the stream, and gives the same value, the same
position and the same exception.

Two things are the buffer's own. It has to be told by `set_position`, or by a
flush, that reading follows writing or writing reading. And where it stands
after a read that threw is a matter of what it had at hand: somewhere between
where it was and the end of the file.
-/

namespace Joedb

open ByteFile StateExcept

/-- The calls that write. A primitive is given as it lies in memory. -/
inductive WriteCall where
  | primitive (bytes : Bytes) (h : bytes.length ≤ extraSize)
  | compact (x : Int)
  | reference (id : Int)
  | string (s : Bytes)
  | blob (blob : Blob)
  | data (bytes : Bytes)

/-- The calls that read. A primitive is read as the bytes that it has in memory. -/
inductive ReadCall where
  | data (n : Nat)
  | compact (bits : Nat)
  | reference
  | string
  | safeString (maxSize : Nat)
  | blob

inductive StreamCall where
  | write (call : WriteCall)
  | read (call : ReadCall)
  | flush
  | setPosition (position : Nat)

/-- What a call returns. -/
inductive StreamValue where
  | nothing
  | bytes (bytes : Bytes)
  | number (n : Nat)
  | reference (id : Int)
  | blob (blob : Blob)
  deriving DecidableEq

/-- How a call ended: an exception, or what it returned, between the position before it and the
position after it. -/
abbrev StreamOutcome := Except Exn (Nat × StreamValue × Nat)

/-! ## The stream -/

structure ByteStream where
  data : Bytes
  position : Nat

namespace ByteStream

def write (bytes : Bytes) (s : ByteStream) : ByteStream :=
  ⟨ByteFile.pwrite s.data s.position bytes, s.position + bytes.length⟩

def readData (n : Nat) : EStateM Exn ByteStream Bytes := fun s =>
  if n = 0 ∨ s.position + n ≤ s.data.length then
    .ok (slice s.data s.position (s.position + n)) { s with position := s.position + n }
  else .error File.readingPastEndOfFile s

def readByte : EStateM Exn ByteStream UInt8 := do
  let bytes ← readData 1
  pure (bytes.headD 0)

def compactLoop (bits : Nat) : Nat → Nat → EStateM Exn ByteStream Nat
  | 0, result => pure result
  | extra + 1, result => do
      let byte ← readByte
      compactLoop bits extra (compactStep bits result byte)

def compactRead (bits : Nat) : EStateM Exn ByteStream Nat := do
  let first ← readByte
  compactLoop bits (first.toNat >>> 5) (first.toNat &&& 0x1f)

def readReference : EStateM Exn ByteStream Int := do
  let id ← compactRead 64
  pure (id - 1)

def readString : EStateM Exn ByteStream Bytes := do
  let size ← compactRead 64
  readData size

def safeReadString (maxSize : Nat) : EStateM Exn ByteStream Bytes := do
  let size ← compactRead 64
  if size > 0 ∧ size < maxSize then readData size else pure []

def readBlob : EStateM Exn ByteStream Blob := do
  let position ← compactRead 64
  let size ← compactRead 64
  pure ⟨position, size⟩

end ByteStream

/-- The bytes that a call writes. -/
def WriteCall.bytes : WriteCall → Bytes
  | primitive bytes _ => bytes
  | compact x => compactWrite x
  | reference id => compactWrite (id + 1)
  | string s => compactWrite s.length ++ s
  | blob b => compactWrite b.position ++ compactWrite b.size
  | data bytes => bytes

namespace ByteStream

def read : ReadCall → EStateM Exn ByteStream StreamValue
  | .data n => do pure (.bytes (← readData n))
  | .compact bits => do pure (.number (← compactRead bits))
  | .reference => do pure (.reference (← readReference))
  | .string => do pure (.bytes (← readString))
  | .safeString maxSize => do pure (.bytes (← safeReadString maxSize))
  | .blob => do pure (.blob (← readBlob))

def call : StreamCall → EStateM Exn ByteStream StreamValue
  | .write w => do
      modify (write w.bytes)
      pure .nothing
  | .read r => read r
  | .flush => pure .nothing
  | .setPosition position => do
      modify fun s => { s with position }
      pure .nothing

/-- A run of the stream. `Stalls c s q` says that the call `c` may leave the stream at `q` when it
throws. -/
inductive Runs (Stalls : StreamCall → ByteStream → Nat → Prop) :
    ByteStream → List StreamCall → List StreamOutcome → ByteStream → Prop
  | done {s : ByteStream} : Runs Stalls s [] [] s
  | returns {s s' t : ByteStream} {c : StreamCall} {cs : List StreamCall} {v : StreamValue}
      {outcomes : List StreamOutcome} (h : call c s = .ok v s')
      (hrest : Runs Stalls s' cs outcomes t) :
      Runs Stalls s (c :: cs) (.ok (s.position, v, s'.position) :: outcomes) t
  | throws {s s' t : ByteStream} {c : StreamCall} {cs : List StreamCall} {e : Exn} {q : Nat}
      {outcomes : List StreamOutcome} (h : call c s = .error e s') (hq : Stalls c s q)
      (hrest : Runs Stalls { s with position := q } cs outcomes t) :
      Runs Stalls s (c :: cs) (.error e :: outcomes) t

theorem Runs.returned {Stalls : StreamCall → ByteStream → Nat → Prop} {s t : ByteStream}
    {c : StreamCall} {cs : List StreamCall} {o : Nat × StreamValue × Nat}
    {outcomes : List StreamOutcome}
    (h : Runs Stalls s (c :: cs) (.ok o :: outcomes) t) :
    ∃ v s', call c s = .ok v s' ∧ o = (s.position, v, s'.position) ∧
      Runs Stalls s' cs outcomes t := by
  cases h with
  | returns h hrest => exact ⟨_, _, h, rfl, hrest⟩

theorem Runs.threw {Stalls : StreamCall → ByteStream → Nat → Prop} {s t : ByteStream}
    {c : StreamCall} {cs : List StreamCall} {e : Exn} {outcomes : List StreamOutcome}
    (h : Runs Stalls s (c :: cs) (.error e :: outcomes) t) :
    ∃ s' q, call c s = .error e s' ∧ Stalls c s q ∧
      Runs Stalls { s with position := q } cs outcomes t := by
  cases h with
  | throws h hq hrest => exact ⟨_, _, h, hq, hrest⟩

/-- Between where it was and the end. -/
def Ahead (_ : StreamCall) (s : ByteStream) (q : Nat) : Prop :=
  s.position ≤ q ∧ q ≤ s.data.length

end ByteStream

/-! ## The buffer -/

namespace FileBuffer

variable {α β : Type}

def readString : EStateM Exn FileBuffer Bytes := do
  let size ← compactRead 64
  readData size

def perform : WriteCall → FileBuffer → FileBuffer
  | .primitive bytes _, b => b.write bytes
  | .compact x, b => b.writeCompact x
  | .reference id, b => b.writeReference id
  | .string s, b => b.writeString s
  | .blob blob, b => b.writeBlob blob
  | .data bytes, b => b.writeData bytes

def read : ReadCall → EStateM Exn FileBuffer StreamValue
  | .data n => do pure (.bytes (← readData n))
  | .compact bits => do pure (.number (← compactRead bits))
  | .reference => do pure (.reference (← readReference))
  | .string => do pure (.bytes (← readString))
  | .safeString maxSize => do pure (.bytes (← safeReadString maxSize))
  | .blob => do pure (.blob (← readBlob))

def call : StreamCall → EStateM Exn FileBuffer StreamValue
  | .write w => do
      modify (perform w)
      pure .nothing
  | .read r => read r
  | .flush => do
      modify flush
      pure .nothing
  | .setPosition position => do
      modify (setPosition · position)
      pure .nothing

/-- How each call ends, with `get_position` before and after it. -/
def run : List StreamCall → FileBuffer → List StreamOutcome × FileBuffer
  | [], b => ([], b)
  | c :: cs, b =>
      match call c b with
      | .ok v b' => (.ok (b.getPosition, v, b'.getPosition) :: (run cs b').1, (run cs b').2)
      | .error e b' => (.error e :: (run cs b').1, (run cs b').2)

/-- The file as it is when everything has been flushed. -/
def written (b : FileBuffer) : Bytes :=
  if b.bufferHasWriteData then ByteFile.pwrite b.file.data b.position b.pending else b.file.data

/-- The index each time bytes have been put into the array. -/
def dataFilled (bytes : Bytes) (b : FileBuffer) : List Nat :=
  if bytes.length ≤ extraSize ∨ bytes.length < bufferSize + extraSize - b.index then
    [b.index + bytes.length]
  else []

def filled : WriteCall → FileBuffer → List Nat
  | .primitive bytes _, b => [(b.put bytes).index]
  | .compact x, b => [(b.put (compactWrite x)).index]
  | .reference id, b => [(b.put (compactWrite (id + 1))).index]
  | .string s, b =>
      (b.put (compactWrite s.length)).index :: dataFilled s (b.writeCompact s.length)
  | .blob blob, b =>
      [(b.put (compactWrite blob.position)).index,
        ((b.writeCompact blob.position).put (compactWrite blob.size)).index]
  | .data bytes, b => dataFilled bytes b

/-- Whether the buffer is written, read, or neither. -/
inductive Mode where
  | idle
  | writing
  | reading
  deriving DecidableEq

/-- `set_position` or `flush` stands between writing and reading. -/
def Mode.next : Mode → StreamCall → Option Mode
  | _, .flush => some .idle
  | _, .setPosition _ => some .idle
  | .reading, .write _ => none
  | _, .write _ => some .writing
  | .writing, .read _ => none
  | _, .read _ => some .reading

/-- Calls that switch between writing and reading as they should, and go to no position past the
end. -/
def Switches : Mode → FileBuffer → List StreamCall → Prop
  | _, _, [] => True
  | m, b, c :: cs =>
      (∀ position, c = .setPosition position → position ≤ b.written.length) ∧
        ∃ m', m.next c = some m' ∧ Switches m' (after (call c) b) cs

/-! ## Writing -/

theorem perform_appends {b : FileBuffer} (h : b.Writing) :
    (w : WriteCall) → b.Appends w.bytes (perform w b)
  | .primitive bytes _ => write_appends h bytes
  | .compact x => writeCompact_appends h x
  | .reference id => writeReference_appends h id
  | .string s => writeString_appends h s
  | .blob blob => writeBlob_appends h blob
  | .data bytes => writeData_appends h bytes

theorem Writing.written {b : FileBuffer} (h : b.Writing)
    (hposition : b.position ≤ b.file.data.length) :
    b.written = ByteFile.pwrite b.file.data b.position b.pending := by
  rw [FileBuffer.written, bufferHasWriteData, h.noRead]
  rcases Nat.eq_zero_or_pos b.index with hzero | hpos
  · have hpending : b.pending = [] := by rw [pending, hzero, List.take_zero]
    rw [hpending, pwrite_nil hposition, ite_self]
  · simp [hpos]

/-- What went through the buffer is in the file or waits, as it would be in the stream. -/
theorem Appends.written {b b' : FileBuffer} {bs : Bytes} (h : b.Writing) (ha : b.Appends bs b')
    (hposition : b.position ≤ b.file.data.length) :
    b'.position ≤ b'.file.data.length ∧
      b'.written = ByteFile.pwrite b.written b.getPosition bs := by
  obtain ⟨cs, hfile, hbytes, hend⟩ := ha.chunks
  have hdata : b'.file.data = ByteFile.pwrite b.file.data b.position cs.flatten := by
    rw [hfile, File.pwriteAll_data hposition]
  have hposition' : b'.position ≤ b'.file.data.length := by
    rw [hdata, length_pwrite]
    omega
  refine ⟨hposition', ?_⟩
  rw [ha.writing.written hposition', h.written hposition, hdata, hend,
    pwrite_pwrite hposition, hbytes, h.getPosition, ← h.length_pending, pwrite_pwrite hposition]

theorem extraBytes_le (value : Nat) : ∀ fuel extra, extraBytes value fuel extra ≤ extra + fuel := by
  intro fuel
  induction fuel with
  | zero => exact fun extra => Nat.le_refl _
  | succ fuel ih =>
      intro extra
      rw [extraBytes]
      split
      · have hrest := ih (extra + 1)
        omega
      · exact Nat.le_add_right _ _

theorem length_compactWrite_le (x : Int) : (compactWrite x).length ≤ extraSize := by
  rw [compactWrite]
  split
  · split <;> exact Nat.le_add_left 1 7
  · split
    · exact Nat.le_add_left 2 6
    · have hextra := extraBytes_le x.toNat 5 2
      rw [List.length_cons, length_bigEndian]
      exact Nat.succ_le_succ hextra

theorem dataFilled_le {b : FileBuffer} (h : b.Writing) (bytes : Bytes) {n : Nat}
    (hn : n ∈ dataFilled bytes b) : n ≤ bufferSize + extraSize := by
  have hindex := h.index_lt
  rw [dataFilled] at hn
  split at hn
  · next hsmall =>
      obtain rfl := List.mem_singleton.mp hn
      omega
  · cases hn

theorem filled_le {b : FileBuffer} (h : b.Writing) (w : WriteCall) {n : Nat}
    (hn : n ∈ filled w b) : n ≤ bufferSize + extraSize := by
  have hcompact : ∀ {b : FileBuffer}, b.Writing → ∀ x,
      (b.put (compactWrite x)).index ≤ bufferSize + extraSize := by
    intro b hb x
    have hindex := hb.index_lt
    have hlength := length_compactWrite_le x
    simp only [put]
    omega
  have hindex := h.index_lt
  cases w with
  | primitive bytes hbytes =>
      obtain rfl := List.mem_singleton.mp hn
      simp only [put]
      omega
  | compact x =>
      obtain rfl := List.mem_singleton.mp hn
      exact hcompact h x
  | reference id =>
      obtain rfl := List.mem_singleton.mp hn
      exact hcompact h _
  | string s =>
      rcases List.mem_cons.mp hn with rfl | hn
      · exact hcompact h _
      · exact dataFilled_le (writeCompact_appends h _).writing s hn
  | blob blob =>
      rcases List.mem_cons.mp hn with rfl | hn
      · exact hcompact h _
      · obtain rfl := List.mem_singleton.mp hn
        exact hcompact (writeCompact_appends h _).writing _
  | data bytes => exact dataFilled_le h bytes hn

/-! ## Reading -/

/-- The buffer is read where the stream is. -/
structure ReadsFrom (b : FileBuffer) (s : ByteStream) : Prop where
  reading : b.Reading
  size_le : b.readBufferSize ≤ bufferSize
  position_le : b.position ≤ b.file.data.length
  data : b.file.data = s.data
  position : b.getPosition = s.position

theorem ReadsFrom.le_length {b : FileBuffer} {s : ByteStream} (h : b.ReadsFrom s) :
    s.position ≤ s.data.length := by
  have hposition := h.reading.position_eq
  have hlength := h.position_le
  rw [← h.data, ← h.position]
  omega

/-- A read never gets past the end of the file. -/
theorem readDataInto_inside {b : FileBuffer} (hsize : b.readBufferSize ≤ bufferSize)
    (hposition : b.position ≤ b.file.data.length) (n : Nat) :
    (b.readDataInto n).2.2.readBufferSize ≤ bufferSize ∧
      (b.readDataInto n).2.2.position ≤ b.file.data.length := by
  have hfull : ∀ (b' : FileBuffer) (got : Bytes) (n : Nat), b'.readBufferSize ≤ bufferSize →
      b'.position ≤ b'.file.data.length →
      (b'.fullRead got n).2.2.readBufferSize ≤ bufferSize ∧
        (b'.fullRead got n).2.2.position ≤ b'.file.data.length := by
    intro b' got n hsize' hposition'
    rw [fullRead, File.fullPread_eq]
    dsimp only
    split
    · next hok =>
        have hend := of_decide_eq_true hok
        exact ⟨hsize', by dsimp only; omega⟩
    · exact ⟨hsize', hposition'⟩
  have hrefill : ∀ b' : FileBuffer, b'.position ≤ b'.file.data.length →
      b'.readBuffer.readBufferSize ≤ bufferSize ∧
        b'.readBuffer.position ≤ b'.file.data.length := by
    intro b' hposition'
    have hlength := (b'.file.reads.isPrefix b'.file.data bufferSize b'.position).length_le
    rw [length_slice] at hlength
    refine ⟨b'.file.length_pread_le bufferSize b'.position, ?_⟩
    simp only [readBuffer, File.pread]
    omega
  rw [readDataInto]
  split
  · exact ⟨hsize, hposition⟩
  · dsimp only
    split
    · obtain ⟨hsize', hposition'⟩ :=
        hrefill { b with index := b.index + (b.readBufferSize - b.index) } hposition
      split
      · exact ⟨hsize', hposition'⟩
      · exact hfull { FileBuffer.readBuffer _ with index := _ } _ _ hsize' hposition'
    · exact hfull { b with index := _ } _ _ hsize hposition

/-- What the stream reads, the buffer reads, and where the stream throws, it throws. -/
def Simulates (m : EStateM Exn FileBuffer α) (m' : EStateM Exn ByteStream α) : Prop :=
  ∀ b s, ReadsFrom b s →
    (∃ a b' s', m b = .ok a b' ∧ m' s = .ok a s' ∧ ReadsFrom b' s' ∧
      s'.data = s.data ∧ s.position ≤ s'.position) ∨
    ∃ e b' s', m b = .error e b' ∧ m' s = .error e s' ∧ s'.data = s.data ∧
      s.position ≤ b'.getPosition ∧ ReadsFrom b' { s with position := b'.getPosition }

theorem simulates_pure (a : α) : Simulates (pure a) (pure a) :=
  fun b s h => .inl ⟨a, b, s, rfl, rfl, h, rfl, Nat.le_refl _⟩

theorem Simulates.bind {m : EStateM Exn FileBuffer α} {m' : EStateM Exn ByteStream α}
    {f : α → EStateM Exn FileBuffer β} {f' : α → EStateM Exn ByteStream β}
    (hm : Simulates m m') (hf : ∀ a, Simulates (f a) (f' a)) :
    Simulates (m >>= f) (m' >>= f') := by
  intro b s h
  obtain ⟨a, b₁, s₁, hrun, hrun', hreads, hdata, hle⟩ | ⟨e, b₁, s₁, hrun, hrun', hstalls⟩ :=
    hm b s h
  · rw [bind_ok hrun, bind_ok hrun']
    obtain ⟨a', b₂, s₂, hrun₂, hrun₂', hreads₂, hdata₂, hle₂⟩ |
      ⟨e, b₂, s₂, hrun₂, hrun₂', hdata₂, hle₂, hreads₂⟩ := hf a b₁ s₁ hreads
    · exact .inl ⟨a', b₂, s₂, hrun₂, hrun₂', hreads₂, hdata₂.trans hdata, Nat.le_trans hle hle₂⟩
    · refine .inr ⟨e, b₂, s₂, hrun₂, hrun₂', hdata₂.trans hdata, Nat.le_trans hle hle₂, ?_⟩
      rw [← show ({ s₁ with position := b₂.getPosition } : ByteStream)
        = { s with position := b₂.getPosition } by rw [hdata]]
      exact hreads₂
  · exact .inr ⟨e, b₁, s₁, bind_error hrun, bind_error hrun', hstalls⟩

theorem simulates_ite {c : Prop} [Decidable c] {m n : EStateM Exn FileBuffer α}
    {m' n' : EStateM Exn ByteStream α} (hm : Simulates m m') (hn : Simulates n n') :
    Simulates (if c then m else n) (if c then m' else n') := by
  split
  · exact hm
  · exact hn

theorem readData_simulates (n : Nat) : Simulates (readData n) (ByteStream.readData n) := by
  intro b s h
  obtain ⟨b', hread, hreading, hfile, hle, hok⟩ := readDataInto_spec h.reading n
  obtain ⟨hsize, hposition⟩ := readDataInto_inside h.size_le h.position_le n
  rw [hread] at hsize hposition
  rw [h.position] at hread hle hok
  rw [h.data] at hread hok
  rw [← hfile] at hposition
  rw [readData, ByteStream.readData, hread]
  by_cases hfits : n = 0 ∨ s.position + n ≤ s.data.length
  · have hend := hok hfits
    rw [decide_eq_true hfits, if_pos rfl, if_pos hfits]
    exact .inl ⟨_, b', _, rfl, rfl,
      ⟨hreading, hsize, hposition, by rw [hfile, h.data], hend⟩, rfl, Nat.le_add_right _ _⟩
  · rw [decide_eq_false hfits, if_neg Bool.false_ne_true, if_neg hfits]
    exact .inr ⟨_, b', s, rfl, rfl, rfl, hle,
      ⟨hreading, hsize, hposition, by rw [hfile, h.data], rfl⟩⟩

theorem readByte_simulates : Simulates readByte ByteStream.readByte :=
  (readData_simulates 1).bind fun _ => simulates_pure _

theorem compactRead_simulates (bits : Nat) :
    Simulates (compactRead bits) (ByteStream.compactRead bits) := by
  have hloop : ∀ extra result, Simulates (compactLoop readByte bits extra result)
      (ByteStream.compactLoop bits extra result) := by
    intro extra
    induction extra with
    | zero => exact fun result => simulates_pure result
    | succ extra ih => exact fun result => readByte_simulates.bind fun _ => ih _
  rw [compactRead_eq]
  exact readByte_simulates.bind fun _ => hloop _ _

theorem read_simulates : (r : ReadCall) → Simulates (read r) (ByteStream.read r)
  | .data n => (readData_simulates n).bind fun _ => simulates_pure _
  | .compact bits => (compactRead_simulates bits).bind fun _ => simulates_pure _
  | .reference =>
      ((compactRead_simulates 64).bind fun _ => simulates_pure _).bind fun _ => simulates_pure _
  | .string =>
      ((compactRead_simulates 64).bind fun size => readData_simulates size).bind fun _ =>
        simulates_pure _
  | .safeString _ =>
      ((compactRead_simulates 64).bind fun size =>
        simulates_ite (readData_simulates size) (simulates_pure _)).bind fun _ => simulates_pure _
  | .blob =>
      ((compactRead_simulates 64).bind fun _ => (compactRead_simulates 64).bind fun _ =>
        simulates_pure _).bind fun _ => simulates_pure _

/-! ## Any sequence of calls -/

/-- What a buffer has to do with a stream, by what it is used for. -/
def Refines : Mode → FileBuffer → ByteStream → Prop
  | .idle, b, s =>
      b.Idle ∧ s.position ≤ s.data.length ∧ b.file.data = s.data ∧ b.position = s.position
  | .writing, b, s =>
      b.Writing ∧ b.position ≤ b.file.data.length ∧ b.written = s.data ∧
        b.getPosition = s.position
  | .reading, b, s => ReadsFrom b s

theorem Idle.written {b : FileBuffer} (h : b.Idle) : b.written = b.file.data := by
  rw [FileBuffer.written, bufferHasWriteData, h.noIndex]
  rfl

theorem Reading.written {b : FileBuffer} (h : b.Reading) : b.written = b.file.data := by
  have hindex := h.index_le
  rw [FileBuffer.written, bufferHasWriteData]
  rcases Nat.eq_zero_or_pos b.index with hzero | hpos
  · simp [hzero]
  · have hsome : b.readBufferSize ≠ 0 := by omega
    simp [hsome]

theorem Refines.idle_writing {b : FileBuffer} {s : ByteStream} (h : Refines .idle b s) :
    Refines .writing b s := by
  obtain ⟨hidle, hle, hdata, hposition⟩ := h
  refine ⟨hidle.writing, ?_, hidle.written.trans hdata, hidle.getPosition.trans hposition⟩
  rw [hdata, hposition]
  exact hle

theorem Refines.idle_reading {b : FileBuffer} {s : ByteStream} (h : Refines .idle b s) :
    Refines .reading b s := by
  obtain ⟨hidle, hle, hdata, hposition⟩ := h
  refine ⟨hidle.reading, ?_, ?_, hdata, hidle.getPosition.trans hposition⟩
  · rw [hidle.noRead]
    exact Nat.zero_le _
  · rw [hdata, hposition]
    exact hle

theorem Refines.written {m : Mode} {b : FileBuffer} {s : ByteStream} (h : Refines m b s) :
    b.written = s.data := by
  cases m with
  | idle => exact h.1.written.trans h.2.2.1
  | writing => exact h.2.2.1
  | reading => exact h.reading.written.trans h.data

theorem Refines.position {m : Mode} {b : FileBuffer} {s : ByteStream} (h : Refines m b s) :
    b.getPosition = s.position := by
  cases m with
  | idle => exact h.1.getPosition.trans h.2.2.2
  | writing => exact h.2.2.2
  | reading => exact ReadsFrom.position h

theorem Refines.index_le {m : Mode} {b : FileBuffer} {s : ByteStream} (h : Refines m b s) :
    b.index ≤ bufferSize + extraSize := by
  cases m with
  | idle =>
      rw [h.1.noIndex]
      exact Nat.zero_le _
  | writing => exact Nat.le_trans (Nat.le_of_lt h.1.index_lt) (Nat.le_add_right _ _)
  | reading =>
      exact Nat.le_trans (Nat.le_trans h.reading.index_le h.size_le) (Nat.le_add_right _ _)

theorem refines_write {b : FileBuffer} {s : ByteStream} (h : Refines .writing b s)
    (w : WriteCall) : Refines .writing (perform w b) (s.write w.bytes) := by
  obtain ⟨hwriting, hle, hwritten, hposition⟩ := h
  have happends := perform_appends hwriting w
  obtain ⟨hle', hwritten'⟩ := happends.written hwriting hle
  refine ⟨happends.writing, hle', ?_, ?_⟩
  · rw [hwritten', hwritten, hposition]
    rfl
  · rw [happends.getPosition hwriting, hposition]
    rfl

theorem refines_flush {m : Mode} {b : FileBuffer} {s : ByteStream} (h : Refines m b s) :
    Refines .idle b.flush s := by
  have hread : ∀ {b : FileBuffer}, Refines .reading b s → Refines .idle b.flush s := by
    intro b h
    obtain ⟨hidle, hposition, hfile⟩ := flush_idle_of_reading h.reading
    exact ⟨hidle, h.le_length, by rw [hfile, h.data], hposition.trans h.position⟩
  cases m with
  | idle => exact hread h.idle_reading
  | writing =>
      obtain ⟨hwriting, hle, hwritten, hposition⟩ := h
      obtain ⟨happends, -, hpending⟩ := flush_appends hwriting
      obtain ⟨hle', hwritten'⟩ := happends.written hwriting hle
      have hidle := flush_idle_of_writing hwriting
      have hend : b.flush.position = s.position := by
        rw [← hidle.getPosition, happends.getPosition hwriting, hposition]
        rfl
      have hinside : b.getPosition ≤ b.written.length := by
        rw [hwriting.written hle, length_pwrite, hwriting.getPosition, ← hwriting.length_pending]
        exact Nat.le_max_right _ _
      have hdata : b.flush.file.data = s.data := by
        rw [← hidle.written, hwritten', pwrite_nil hinside, hwritten]
      refine ⟨hidle, ?_, hdata, hend⟩
      rw [← hdata, ← hend]
      exact hle'
  | reading => exact hread h

theorem refines_setPosition {m : Mode} {b : FileBuffer} {s : ByteStream} (h : Refines m b s)
    {position : Nat} (hle : position ≤ s.data.length) :
    Refines .idle (b.setPosition position) { s with position } := by
  obtain ⟨hidle, -, hdata, -⟩ := refines_flush h
  exact ⟨⟨hidle.noRead, hidle.noIndex⟩, hle, hdata, rfl⟩

/-- One call. -/
theorem refines_call {m m' : Mode} {b : FileBuffer} {s : ByteStream} {c : StreamCall}
    (h : Refines m b s) (hnext : m.next c = some m')
    (hend : ∀ position, c = .setPosition position → position ≤ b.written.length) :
    (∃ v b' s', call c b = .ok v b' ∧ ByteStream.call c s = .ok v s' ∧ Refines m' b' s') ∨
    ∃ e b' s', call c b = .error e b' ∧ ByteStream.call c s = .error e s' ∧
      ByteStream.Ahead c s b'.getPosition ∧
      Refines m' b' { s with position := b'.getPosition } := by
  cases c with
  | write w =>
      have hwriting : Refines .writing b s ∧ m' = .writing := by
        cases m with
        | idle => exact ⟨h.idle_writing, (Option.some.inj hnext).symm⟩
        | writing => exact ⟨h, (Option.some.inj hnext).symm⟩
        | reading => cases hnext
      obtain ⟨hwriting, rfl⟩ := hwriting
      exact .inl ⟨.nothing, _, _, rfl, rfl, refines_write hwriting w⟩
  | read r =>
      have hreading : Refines .reading b s ∧ m' = .reading := by
        cases m with
        | idle => exact ⟨h.idle_reading, (Option.some.inj hnext).symm⟩
        | writing => cases hnext
        | reading => exact ⟨h, (Option.some.inj hnext).symm⟩
      obtain ⟨hreading, rfl⟩ := hreading
      obtain ⟨v, b', s', hrun, hrun', hreads, -⟩ | ⟨e, b', s', hrun, hrun', -, hle, hreads⟩ :=
        read_simulates r b s hreading
      · exact .inl ⟨v, b', s', hrun, hrun', hreads⟩
      · exact .inr ⟨e, b', s', hrun, hrun', ⟨hle, hreads.le_length⟩, hreads⟩
  | flush =>
      obtain rfl : Mode.idle = m' := by cases m <;> exact Option.some.inj hnext
      exact .inl ⟨.nothing, _, _, rfl, rfl, refines_flush h⟩
  | setPosition position =>
      obtain rfl : Mode.idle = m' := by cases m <;> exact Option.some.inj hnext
      have hle := hend position rfl
      rw [h.written] at hle
      exact .inl ⟨.nothing, _, _, rfl, rfl, refines_setPosition h hle⟩

theorem refines_run {m : Mode} {b : FileBuffer} {s : ByteStream} {calls : List StreamCall}
    (h : Refines m b s) (hswitches : Switches m b calls) :
    ∃ m' s', ByteStream.Runs ByteStream.Ahead s calls (run calls b).1 s' ∧
      Refines m' (run calls b).2 s' ∧
      ∀ more, Switches m b (calls ++ more) → Switches m' (run calls b).2 more := by
  induction calls generalizing m b s with
  | nil => exact ⟨m, s, .done, h, fun _ hmore => hmore⟩
  | cons c cs ih =>
      obtain ⟨hend, m', hnext, hrest⟩ := hswitches
      have hmore : ∀ {b' : FileBuffer}, after (call c) b = b' → ∀ more,
          Switches m b (c :: cs ++ more) → Switches m' b' (cs ++ more) := by
        rintro b' rfl more ⟨-, m₁, hnext₁, hrest₁⟩
        obtain rfl := Option.some.inj (hnext₁.symm.trans hnext)
        exact hrest₁
      rw [run]
      obtain ⟨v, b', s', hrun, hrun', hrefines⟩ | ⟨e, b', s', hrun, hrun', hahead, hrefines⟩ :=
        refines_call h hnext hend
      · rw [after_ok hrun] at hrest
        obtain ⟨m'', t, hruns, hlast, hswitch⟩ := ih hrefines hrest
        rw [hrun]
        refine ⟨m'', t, ?_, hlast, fun more h => hswitch more (hmore (after_ok hrun) more h)⟩
        dsimp only
        rw [h.position, hrefines.position]
        exact .returns hrun' hruns
      · rw [after_error hrun] at hrest
        obtain ⟨m'', t, hruns, hlast, hswitch⟩ := ih hrefines hrest
        rw [hrun]
        exact ⟨m'', t, .throws hrun' hahead hruns, hlast,
          fun more h => hswitch more (hmore (after_error hrun) more h)⟩

/-- A buffer over a file is a stream over the same file, as long as it is told when it is to be
read after it was written and written after it was read. The array is never filled past its end. -/
theorem run_refines (file : File) (calls : List StreamCall)
    (h : Switches .idle (create file) calls) :
    ∃ s, ByteStream.Runs ByteStream.Ahead ⟨file.data, 0⟩ calls (run calls (create file)).1 s ∧
      (run calls (create file)).2.flush.file.data = s.data ∧
      (run calls (create file)).2.getPosition = s.position ∧
      (run calls (create file)).2.index ≤ bufferSize + extraSize ∧
      ∀ w, Switches .idle (create file) (calls ++ [.write w]) →
        ∀ n ∈ filled w (run calls (create file)).2, n ≤ bufferSize + extraSize := by
  have hcreate : Refines .idle (create file) ⟨file.data, 0⟩ :=
    ⟨create_idle file, Nat.zero_le _, rfl, rfl⟩
  obtain ⟨m, s, hruns, hrefines, hmore⟩ := refines_run hcreate h
  refine ⟨s, hruns, (refines_flush hrefines).2.2.1, hrefines.position, hrefines.index_le,
    fun w hw n hn => ?_⟩
  obtain ⟨-, m', hnext, -⟩ := hmore [.write w] hw
  have hwriting : (run calls (create file)).2.Writing := by
    cases m with
    | idle => exact hrefines.1.writing
    | writing => exact hrefines.1
    | reading => cases hnext
  exact filled_le hwriting w hn

/-- A compact integer is written and read again. -/
theorem run_refines_compact :
    ∃ s, ByteStream.Runs ByteStream.Ahead ⟨[], 0⟩
      [.write (.compact 300), .setPosition 0, .read (.compact 64)]
      (run [.write (.compact 300), .setPosition 0, .read (.compact 64)] (create .empty)).1 s := by
  have hswitches : Switches .idle (create .empty)
      [.write (.compact 300), .setPosition 0, .read (.compact 64)] := by
    refine ⟨nofun, .writing, rfl, ?_, .idle, rfl, nofun, .reading, rfl, trivial⟩
    rintro position h
    cases h
    exact Nat.zero_le _
  obtain ⟨s, hruns, -⟩ := run_refines .empty _ hswitches
  exact ⟨s, hruns⟩

/-- Two bytes, of which the second is to be read next, and then more than the buffer holds: where
the buffer stands after that depends on whether it has the second byte at hand. And a byte that
is written after one was read is lost. -/
theorem run_not_one_position :
    (¬ ∃ stall : StreamCall → ByteStream → Nat, ∀ (file : File) (calls : List StreamCall),
      Switches .idle (create file) calls →
        ∃ s, ByteStream.Runs (fun c s q => q = stall c s) ⟨file.data, 0⟩ calls
          (run calls (create file)).1 s) ∧
    ¬ ∀ (file : File) (calls : List StreamCall),
      ∃ s, ByteStream.Runs ByteStream.Ahead ⟨file.data, 0⟩ calls (run calls (create file)).1 s ∧
        (run calls (create file)).2.flush.file.data = s.data := by
  constructor
  · rintro ⟨stall, h⟩
    obtain ⟨s, hempty⟩ := h ⟨.readExisting, .whole, [0, 1], []⟩
      [.setPosition 1, .read (.data 5000), .read (.data 1)]
      ⟨by rintro position h; cases h; decide, .idle, rfl, nofun, .reading, rfl, nofun, .reading,
        rfl, trivial⟩
    obtain ⟨s', hfull⟩ := h ⟨.readExisting, .whole, [0, 1], []⟩
      [.read (.data 1), .read (.data 5000), .read (.data 1)]
      ⟨nofun, .reading, rfl, nofun, .reading, rfl, nofun, .reading, rfl, trivial⟩
    have houtcomes : (run [.setPosition 1, .read (.data 5000), .read (.data 1)]
        (create ⟨.readExisting, .whole, [0, 1], []⟩)).1
        = [.ok (0, .nothing, 1), .error File.readingPastEndOfFile, .ok (1, .bytes [1], 2)] := by
      decide +kernel
    have houtcomes' : (run [.read (.data 1), .read (.data 5000), .read (.data 1)]
        (create ⟨.readExisting, .whole, [0, 1], []⟩)).1
        = [.ok (0, .bytes [0], 1), .error File.readingPastEndOfFile,
            .error File.readingPastEndOfFile] := by
      decide +kernel
    rw [houtcomes] at hempty
    rw [houtcomes'] at hfull
    -- both runs are at the second byte when they read too much
    obtain ⟨v, s₁, hcall, -, hempty⟩ := hempty.returned
    obtain ⟨-, rfl⟩ := EStateM.Result.ok.inj hcall
    obtain ⟨s₂, q, -, rfl, hempty⟩ := hempty.threw
    obtain ⟨v, s₃, -, hbefore, -⟩ := hempty.returned
    obtain ⟨v, s₁', hcall', -, hfull⟩ := hfull.returned
    obtain ⟨-, rfl⟩ := EStateM.Result.ok.inj hcall'
    obtain ⟨s₂', q', -, rfl, hfull⟩ := hfull.threw
    obtain ⟨s₃', q', hlast, -⟩ := hfull.threw
    -- the first run goes on from there, so the second one must as well
    have hstall : 1 = stall (.read (.data 5000)) ⟨[0, 1], 1⟩ := congrArg Prod.fst hbefore
    rw [← show stall (.read (.data 5000)) ⟨[0, 1], 1⟩
      = stall (.read (.data 5000)) { (⟨[0, 1], 0⟩ : ByteStream) with position := 0 + 1 } from rfl,
      ← hstall] at hlast
    cases hlast
  · intro h
    obtain ⟨s, hruns, hdata⟩ := h ⟨.createNew, .whole, [0, 1], []⟩
      [.read (.data 1), .write (.primitive [9] (by decide))]
    have houtcomes : (run [.read (.data 1), .write (.primitive [9] (by decide))]
        (create ⟨.createNew, .whole, [0, 1], []⟩)).1
        = [.ok (0, .bytes [0], 1), .ok (1, .nothing, 2)] := by
      decide +kernel
    have hfile : (run [.read (.data 1), .write (.primitive [9] (by decide))]
        (create ⟨.createNew, .whole, [0, 1], []⟩)).2.flush.file.data = [0, 1] := by
      decide +kernel
    rw [houtcomes] at hruns
    rw [hfile] at hdata
    obtain ⟨v, s₁, hcall, -, hruns⟩ := hruns.returned
    obtain ⟨-, rfl⟩ := EStateM.Result.ok.inj hcall
    obtain ⟨v, s₂, hcall', -, hruns⟩ := hruns.returned
    obtain ⟨-, rfl⟩ := EStateM.Result.ok.inj hcall'
    cases hruns
    exact absurd hdata (by decide)

end FileBuffer

end Joedb
