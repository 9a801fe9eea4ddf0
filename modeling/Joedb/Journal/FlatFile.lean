import Mathlib.Data.List.Nodup
import Joedb.Journal.EncodedFile

/-!
# An encoded file is a flat file

The rows of an encoded file, laid over each other in their order, make the bytes
of a file, since no row starts behind the end of those before it. A read goes through them in the
same order, so what it has after a few rows is what these rows say about its range, as far as
they reach into it.
-/

namespace Joedb

open ByteFile Containers

/-! ## What the database does -/

/-- The bytes that a blob names. -/
def File.HoldsBlob (f : File) (blob : Blob) (bytes : Bytes) : Prop :=
  0 ≤ blob.position ∧ blob.size = bytes.length ∧
    slice f.data blob.position.toNat (blob.position.toNat + bytes.length) = bytes

theorem File.readBlob_ok {f : File} {blob : Blob} {bytes : Bytes} (h : f.HoldsBlob blob bytes)
    {maxSize : Nat} (hmax : bytes.length ≤ maxSize) : f.readBlob blob maxSize = .ok bytes := by
  obtain ⟨hpos, hsize, hslice⟩ := h
  have hnat : blob.size.toNat = bytes.length := by omega
  have hin : bytes.length = 0 ∨ blob.position.toNat + bytes.length ≤ f.data.length := by
    have hlen := congrArg List.length hslice
    rw [length_slice] at hlen
    omega
  rw [readBlob, if_neg (by omega), fullPread_eq, hnat, hslice]
  exact if_pos (decide_eq_true hin)

namespace EncodedDatabase

variable {σ : Type}

/-- Nothing that was there is changed. -/
structure Keeps (S : EncodedDatabase σ) (s s' : σ) : Prop where
  bufferTable : S.bufferTable s' = S.bufferTable s
  blobs : ∀ blob bytes, (S.file s).HoldsBlob blob bytes → (S.file s').HoldsBlob blob bytes

/-- What the file relies on: a blob that was written can be read, a row that was inserted comes
last, nothing else changes, and what a checkpoint covers is there when the database is opened
again. `Checkpointed` says that a checkpoint covers everything. -/
structure Lawful (S : EncodedDatabase σ) (Checkpointed : σ → Prop) : Prop where
  bufferTable_create : S.bufferTable S.create = []
  create_checkpointed : Checkpointed S.create
  writeBlob : ∀ bytes s, S.Keeps s (S.writeBlob bytes s).2 ∧
    (S.file (S.writeBlob bytes s).2).HoldsBlob (S.writeBlob bytes s).1 bytes
  newBuffer_table : ∀ data size offset s, ∃ id, id ∉ (S.bufferTable s).map Prod.fst ∧
    S.bufferTable (S.newBuffer data size offset s) = S.bufferTable s ++ [(id, ⟨data, size, offset⟩)]
  newBuffer_blobs : ∀ data size offset s blob bytes, (S.file s).HoldsBlob blob bytes →
    (S.file (S.newBuffer data size offset s)).HoldsBlob blob bytes
  softCheckpoint : ∀ s, S.Keeps s (S.softCheckpoint s) ∧ Checkpointed (S.softCheckpoint s)
  hardCheckpoint : ∀ s, S.Keeps s (S.hardCheckpoint s) ∧ Checkpointed (S.hardCheckpoint s)
  reopen : ∀ s, Checkpointed s → S.Keeps s (S.reopen s) ∧ Checkpointed (S.reopen s)

end EncodedDatabase

namespace Codec

/-- `decode` undoes `encode`. -/
def Undoes (C : Codec) : Prop := ∀ bytes, C.decode (C.encode bytes) bytes.length = .ok bytes

/-- What the write buffer can hold is encoded into what a read accepts. -/
def Limited (C : Codec) : Prop :=
  ∀ bytes, bytes.length ≤ EncodedFile.writeBufferCapacity →
    (C.encode bytes).length ≤ EncodedFile.maxBufferSize

end Codec

theorem toInt64_of_lt {n : Nat} (h : n < 2 ^ 63) : toInt64 n = n := by
  rw [toInt64, toUint64]
  omega

namespace EncodedFile

/-! ## Layers -/

/-- A row, and the bytes it stands for. -/
structure Piece where
  id : RecordId
  row : BufferRow
  start : Nat
  data : Bytes

def Piece.entry (p : Piece) : RecordId × BufferRow := (p.id, p.row)

/-- The row of the piece says where its bytes go, and names the blob that they are encoded in. -/
structure Piece.Stored (C : Codec) (file : File) (p : Piece) : Prop where
  offset : p.row.offset = p.start
  size : p.row.size = p.data.length
  blob : file.HoldsBlob p.row.data (C.encode p.data)

/-- What can be laid over bytes of length `n`: it leaves no hole. -/
structure Piece.FitsOn (n : Nat) (p : Piece) : Prop where
  start : p.start ≤ n
  nonempty : 0 < p.data.length
  bounded : p.data.length ≤ writeBufferCapacity

/-- Pieces laid one over the other, over `bs`, make `bs'`. -/
def Layered : Bytes → List Piece → Bytes → Prop
  | bs, [], bs' => bs' = bs
  | bs, p :: ps, bs' => p.FitsOn bs.length ∧ Layered (ByteFile.pwrite bs p.start p.data) ps bs'

theorem Layered.snoc {bs bs' : Bytes} {ps : List Piece} (h : Layered bs ps bs') {p : Piece}
    (hp : p.FitsOn bs'.length) : Layered bs (ps ++ [p]) (ByteFile.pwrite bs' p.start p.data) := by
  induction ps generalizing bs with
  | nil =>
      obtain rfl := h
      exact ⟨hp, rfl⟩
  | cons q ps ih => exact ⟨h.1, ih h.2⟩

theorem Layered.length_le {bs bs' : Bytes} {ps : List Piece} (h : Layered bs ps bs') :
    bs.length ≤ bs'.length := by
  induction ps generalizing bs with
  | nil => exact Nat.le_of_eq (congrArg List.length h).symm
  | cons p ps ih => exact Nat.le_trans (length_le_pwrite _ _ _) (ih h.2)

/-- The size that the rows tell. -/
theorem tableSize_of_layered {C : Codec} {file : File} {ps : List Piece} {bs : Bytes}
    (h : Layered [] ps bs) (hstored : ∀ p ∈ ps, p.Stored C file) (hlimit : bs.length < 2 ^ 63) :
    tableSize (ps.map Piece.entry) = bs.length := by
  have hgo : ∀ {bs₀ : Bytes} {ps : List Piece}, Layered bs₀ ps bs → (∀ p ∈ ps, p.Stored C file) →
      (ps.map Piece.entry).foldl (fun result e =>
        if toUint64 (e.2.offset + e.2.size) > result then toUint64 (e.2.offset + e.2.size)
        else result) bs₀.length = bs.length := by
    intro bs₀ ps
    induction ps generalizing bs₀ with
    | nil =>
        intro h _
        exact (congrArg List.length h).symm
    | cons p ps ih =>
        intro h hstored
        obtain ⟨hp, hps⟩ := List.forall_mem_cons.mp hstored
        have hlen := h.2.length_le
        rw [length_pwrite] at hlen
        have hend : toUint64 (p.row.offset + p.row.size) = p.start + p.data.length := by
          rw [hp.offset, hp.size, toUint64]
          omega
        rw [List.map_cons, List.foldl_cons]
        show List.foldl _ (if toUint64 (p.row.offset + p.row.size) > bs₀.length then
          toUint64 (p.row.offset + p.row.size) else bs₀.length) _ = _
        rw [hend, ← ih h.2 hps, length_pwrite]
        congr 1
        split <;> omega
  have hsize := hgo h hstored
  rw [tableSize]
  simp only [List.length_nil] at hsize
  rw [hsize, toInt64_of_lt hlimit]
  omega

/-! ## Reading -/

/-- A read of `n` bytes at `start` by the time it has seen the rows that make `bs`: it has got as
far as `bs` reaches, and has what is there. -/
structure Overlay.Shows (start n : Nat) (bs : Bytes) (o : Overlay) : Prop where
  length : o.buffer.length = n
  actualEnd : o.actualEnd = max start (min (start + n) bs.length : Nat)
  bytes : ∀ i < n, start + i < bs.length → o.buffer[i]? = bs[start + i]?

/-- The row that was decoded last is still in the read buffer. -/
def Cached (ps : List Piece) (decodedBuffer : Option RecordId) (readBuffer : Bytes) : Prop :=
  ∀ p ∈ ps, decodedBuffer = some p.id → readBuffer.take p.data.length = p.data

/-- The bytes of a piece, copied to where it meets the range. -/
theorem Overlay.Shows.copyRow {start n : Nat} {bs : Bytes} {o : Overlay} (h : o.Shows start n bs)
    {C : Codec} {file : File} {p : Piece} (hp : p.Stored C file) (hfits : p.FitsOn bs.length)
    (hcached : o.readBuffer.take p.data.length = p.data)
    (hmeets : max start p.start < min (start + n) (p.start + p.data.length)) :
    (EncodedFile.copyRow start (max start p.start : Nat)
      (min (start + n) (p.start + p.data.length) : Nat) p.row o).Shows start n
        (ByteFile.pwrite bs p.start p.data) := by
  have hstart := hfits.start
  have hend := h.actualEnd
  refine ⟨(length_copyN _ _ _).trans h.length, ?_, fun i hi hin => ?_⟩
  · rw [EncodedFile.copyRow, length_pwrite]
    simp only
    split <;> omega
  · rw [length_pwrite] at hin
    rw [EncodedFile.copyRow, hp.offset]
    simp only [Int.toNat_sub]
    have hinside : min (start + n) (p.start + p.data.length) - p.start ≤ p.data.length :=
      Nat.sub_le_iff_le_add'.mpr (Nat.min_le_right _ _)
    rw [slice_of_take (hcached.trans List.take_length.symm) hinside, getElem?_copyN,
      getElem?_pwrite hstart, length_slice, h.length]
    -- without `max` and `min` in the way, what is left is about the order of six positions
    obtain ⟨lo, hlo⟩ : ∃ a, a = max start p.start := ⟨_, rfl⟩
    obtain ⟨stop, hstop⟩ : ∃ b, b = min (start + n) (p.start + p.data.length) := ⟨_, rfl⟩
    rw [← hlo, ← hstop] at hmeets ⊢
    have hcover : (start + i < stop ∧ lo ≤ start + i)
        ↔ p.start ≤ start + i ∧ start + i < p.start + p.data.length := by
      rw [hlo, hstop, Nat.lt_min, Nat.max_le]
      exact ⟨fun h => ⟨h.2.2, h.1.2⟩, fun h => ⟨⟨by omega, h.2⟩, Nat.le_add_right _ _, h.1⟩⟩
    by_cases hcovered : p.start ≤ start + i ∧ start + i < p.start + p.data.length
    · rw [if_pos hcovered, if_pos (by omega), getElem?_slice, if_pos (by omega)]
      congr 1
      omega
    · rw [if_neg hcovered, if_neg (by omega)]
      exact h.bytes i hi (by omega)

/-- A piece that does not meet the range does not change what is there. -/
theorem Overlay.Shows.skip {start n : Nat} {bs : Bytes} {o : Overlay} (h : o.Shows start n bs)
    {p : Piece} (hfits : p.FitsOn bs.length)
    (hmeets : ¬ max start p.start < min (start + n) (p.start + p.data.length)) :
    o.Shows start n (ByteFile.pwrite bs p.start p.data) := by
  have hstart := hfits.start
  have hnonempty := hfits.nonempty
  refine ⟨h.length, ?_, fun i hi hin => ?_⟩
  · rw [h.actualEnd, length_pwrite]
    omega
  · rw [length_pwrite] at hin
    rw [getElem?_pwrite hstart, if_neg (by omega)]
    exact h.bytes i hi (by omega)

theorem overlayRow_shows {C : Codec} (hC : C.Undoes) (hlimited : C.Limited) {file : File}
    {start n : Nat} {bs : Bytes} {o : Overlay} (h : o.Shows start n bs) {ps : List Piece}
    {p : Piece} (hmem : p ∈ ps) (hnodup : (ps.map Piece.id).Nodup) (hp : p.Stored C file)
    (hfits : p.FitsOn bs.length) (hcached : Cached ps o.decodedBuffer o.readBuffer)
    (hlimit : p.start + p.data.length < 2 ^ 63) :
    ∃ o', overlayRow C file start (start + n) p.id p.row o = .ok o' ∧
      o'.Shows start n (ByteFile.pwrite bs p.start p.data) ∧
      Cached ps o'.decodedBuffer o'.readBuffer ∧
      (o'.decodedBuffer = o.decodedBuffer ∨ o'.decodedBuffer = some p.id) := by
  have hnonempty := hfits.nonempty
  have hbounded := hfits.bounded
  have hsize : ¬ p.row.size ≤ 0 := by rw [hp.size]; omega
  have hrowEnd : toInt64 ((p.start : Int) + p.row.size)
      = ((p.start + p.data.length : Nat) : Int) := by
    rw [hp.size, ← Int.natCast_add, toInt64_of_lt hlimit]
  have hlo : max (start : Int) (p.start : Int) = ((max start p.start : Nat) : Int) := by omega
  have hhi : min ((start : Int) + (n : Int)) ((p.start + p.data.length : Nat) : Int)
      = ((min (start + n) (p.start + p.data.length) : Nat) : Int) := by omega
  rw [overlayRow, if_neg hsize]
  simp only [hp.offset, hrowEnd, hlo, hhi]
  by_cases hmeets : max start p.start < min (start + n) (p.start + p.data.length)
  · have hstart := hfits.start
    have hreached : ((max start p.start : Nat) : Int)
          < ((min (start + n) (p.start + p.data.length) : Nat) : Int) ∧
        ((max start p.start : Nat) : Int) ≤ o.actualEnd := by
      rw [h.actualEnd]
      omega
    rw [if_pos hreached]
    by_cases hdecoded : o.decodedBuffer = some p.id
    · rw [if_neg (not_not.mpr hdecoded)]
      exact ⟨_, rfl, h.copyRow hp hfits (hcached p hmem hdecoded) hmeets, hcached, .inl rfl⟩
    · have haccepted : ¬ p.row.size > (maxBufferSize : Int) := by
        have : writeBufferCapacity ≤ maxBufferSize := by decide
        rw [hp.size]
        omega
      have hdecode : C.decode (C.encode p.data) p.row.size.toNat = .ok p.data := by
        rw [hp.size, Int.toNat_natCast]
        exact hC p.data
      have htake : (ByteFile.pwrite o.readBuffer 0 p.data).take p.data.length = p.data := by
        have hself := slice_pwrite_self (Nat.zero_le o.readBuffer.length) p.data
        rwa [Nat.zero_add, slice, List.drop_zero, Nat.sub_zero] at hself
      rw [if_pos hdecoded, if_neg haccepted, File.readBlob_ok hp.blob (hlimited _ hbounded)]
      simp only [bind, Except.bind, hdecode]
      have hread : Overlay.Shows start n bs { o with
          readBuffer := ByteFile.pwrite o.readBuffer 0 p.data, decodedBuffer := some p.id } :=
        ⟨h.length, h.actualEnd, h.bytes⟩
      refine ⟨_, rfl, hread.copyRow hp hfits htake hmeets, fun q hq hid => ?_, .inr rfl⟩
      · obtain rfl : q = p := List.inj_on_of_nodup_map hnodup hq hmem (Option.some.inj hid).symm
        exact htake
  · rw [if_neg fun hreached => hmeets (by omega)]
    exact ⟨o, rfl, h.skip hfits hmeets, hcached, .inl rfl⟩

theorem overlayRows_shows {C : Codec} (hC : C.Undoes) (hlimited : C.Limited) {file : File}
    {start n : Nat} {ps : List Piece} (hnodup : (ps.map Piece.id).Nodup)
    (hstored : ∀ p ∈ ps, p.Stored C file) {qs : List Piece} (hsub : ∀ p ∈ qs, p ∈ ps)
    {bs bs' : Bytes} (hlayered : Layered bs qs bs') (hlimit : bs'.length < 2 ^ 63) {o : Overlay}
    (h : o.Shows start n bs) (hcached : Cached ps o.decodedBuffer o.readBuffer)
    (hknown : ∀ id, o.decodedBuffer = some id → id ∈ ps.map Piece.id) :
    ∃ o', overlayRows C file start (start + n) (qs.map Piece.entry) o = .ok o' ∧
      o'.Shows start n bs' ∧ Cached ps o'.decodedBuffer o'.readBuffer ∧
      ∀ id, o'.decodedBuffer = some id → id ∈ ps.map Piece.id := by
  induction qs generalizing bs o with
  | nil =>
      obtain rfl := hlayered
      exact ⟨o, rfl, h, hcached, hknown⟩
  | cons p qs ih =>
      obtain ⟨hp, hqs⟩ := List.forall_mem_cons.mp hsub
      obtain ⟨hfits, hrest⟩ := hlayered
      have hend := hrest.length_le
      rw [length_pwrite] at hend
      obtain ⟨o₁, hrow, hshows, hcached₁, hdecoded⟩ := overlayRow_shows hC hlimited h hp hnodup
        (hstored p hp) hfits hcached (by omega)
      have hknown₁ : ∀ id, o₁.decodedBuffer = some id → id ∈ ps.map Piece.id := by
        intro id hid
        rcases hdecoded with hsame | hnew
        · exact hknown id (hsame.symm.trans hid)
        · obtain rfl := Option.some.inj (hnew.symm.trans hid)
          exact List.mem_map_of_mem hp
      obtain ⟨o', hrows, hresult⟩ := ih hqs hrest hshows hcached₁ hknown₁
      refine ⟨o', ?_, hresult⟩
      rw [List.map_cons, Piece.entry, overlayRows, hrow]
      exact hrows

/-! ## The invariant -/

section Invariant

variable {σ : Type} {S : EncodedDatabase σ} {Checkpointed : σ → Prop} {C : Codec}

/-- The rows are pieces that make `base`, and the read buffer has what it says. -/
structure Tabled (C : Codec) (S : EncodedDatabase σ) (Checkpointed : σ → Prop)
    (f : EncodedFile σ) (ps : List Piece) (base : Bytes) : Prop where
  table : S.bufferTable f.db = ps.map Piece.entry
  nodup : (ps.map Piece.id).Nodup
  stored : ∀ p ∈ ps, p.Stored C (S.file f.db)
  layered : Layered [] ps base
  cached : Cached ps f.decodedBuffer f.readBuffer
  known : ∀ id, f.decodedBuffer = some id → id ∈ ps.map Piece.id
  limit : base.length < 2 ^ 63
  checkpointed : Checkpointed f.db

/-- The file has the bytes `bs`, those in the write buffer included. -/
def IsFlat (C : Codec) (S : EncodedDatabase σ) (Checkpointed : σ → Prop) (f : EncodedFile σ)
    (bs : Bytes) : Prop :=
  ∃ ps base, Tabled C S Checkpointed f ps base ∧ f.writeBufferOffset ≤ base.length ∧
    f.writeBuffer.length ≤ writeBufferCapacity ∧ bs.length < 2 ^ 63 ∧
    bs = ByteFile.pwrite base f.writeBufferOffset f.writeBuffer

theorem Piece.Stored.keeps {db db' : σ} {p : Piece} (h : p.Stored C (S.file db))
    (hblobs : ∀ blob bytes, (S.file db).HoldsBlob blob bytes → (S.file db').HoldsBlob blob bytes) :
    p.Stored C (S.file db') := ⟨h.offset, h.size, hblobs _ _ h.blob⟩

theorem Tabled.keeps {f : EncodedFile σ} {ps : List Piece} {base : Bytes}
    (h : Tabled C S Checkpointed f ps base) {db : σ} (hkeeps : S.Keeps f.db db)
    (hdb : Checkpointed db) : Tabled C S Checkpointed { f with db := db } ps base :=
  { h with
    table := hkeeps.bufferTable.trans h.table
    stored := fun p hp => (h.stored p hp).keeps hkeeps.blobs
    checkpointed := hdb }

/-- Nothing in the write buffer: the rows are the file. -/
theorem IsFlat.tabled {f : EncodedFile σ} {bs : Bytes} (h : IsFlat C S Checkpointed f bs)
    (hempty : f.writeBuffer = []) :
    ∃ ps, Tabled C S Checkpointed f ps bs ∧ f.writeBufferOffset ≤ bs.length := by
  obtain ⟨ps, base, htabled, hoffset, -, -, hc⟩ := h
  rw [hempty, pwrite_nil hoffset] at hc
  subst hc
  exact ⟨ps, htabled, hoffset⟩

theorem Tabled.isFlat {f : EncodedFile σ} {ps : List Piece} {bs : Bytes}
    (h : Tabled C S Checkpointed f ps bs) (hempty : f.writeBuffer = [])
    (hoffset : f.writeBufferOffset ≤ bs.length) : IsFlat C S Checkpointed f bs := by
  refine ⟨ps, bs, h, hoffset, ?_, h.limit, ?_⟩
  · rw [hempty]
    exact Nat.zero_le _
  · rw [hempty, pwrite_nil hoffset]

theorem isFlat_create (hS : S.Lawful Checkpointed) :
    IsFlat C S Checkpointed (create S.create) [] := by
  have htabled : Tabled C S Checkpointed (create S.create) [] [] := by
    refine ⟨hS.bufferTable_create, List.nodup_nil, ?_, rfl, ?_, ?_, Nat.two_pow_pos 63,
      hS.create_checkpointed⟩
    · intro p hp
      cases hp
    · intro p hp
      cases hp
    · intro id hid
      cases hid
  exact htabled.isFlat rfl (Nat.le_refl 0)

/-! ## Writing -/

theorem Tabled.writeBlob (hS : S.Lawful Checkpointed) {f : EncodedFile σ} {ps : List Piece}
    {base : Bytes} (h : Tabled C S Checkpointed f ps base) {data : Bytes} {offset : Nat}
    (hnonempty : 0 < data.length) (hbounded : data.length ≤ writeBufferCapacity)
    (hoffset : offset ≤ base.length) (hlimit : offset + data.length < 2 ^ 63) :
    ∃ ps', Tabled C S Checkpointed (EncodedFile.writeBlob C S data offset f) ps'
      (ByteFile.pwrite base offset data) := by
  obtain ⟨hblob, hholds⟩ := hS.writeBlob (C.encode data) f.db
  obtain ⟨db, hdb⟩ : ∃ db, db = (S.writeBlob (C.encode data) f.db).2 := ⟨_, rfl⟩
  obtain ⟨blob, hblobeq⟩ : ∃ blob, blob = (S.writeBlob (C.encode data) f.db).1 := ⟨_, rfl⟩
  rw [← hdb] at hblob hholds
  rw [← hblobeq] at hholds
  obtain ⟨id, hfresh, htable⟩ := hS.newBuffer_table blob data.length offset db
  obtain ⟨hsoft, hcheckpointed⟩ := hS.softCheckpoint (S.newBuffer blob data.length offset db)
  have hblobs : ∀ blob' bytes, (S.file db).HoldsBlob blob' bytes →
      (S.file (S.softCheckpoint (S.newBuffer blob data.length offset db))).HoldsBlob blob' bytes :=
    fun blob' bytes hb => hsoft.blobs _ _ (hS.newBuffer_blobs _ _ _ _ _ _ hb)
  rw [hblob.bufferTable, h.table] at hfresh htable
  rw [List.map_map] at hfresh
  have hwritten : EncodedFile.writeBlob C S data offset f
      = { f with db := S.softCheckpoint (S.newBuffer blob data.length offset db) } := by
    rw [EncodedFile.writeBlob, hdb, hblobeq]
  rw [hwritten]
  refine ⟨ps ++ [⟨id, ⟨blob, data.length, offset⟩, offset, data⟩], ?_, ?_, ?_, ?_, ?_, ?_, ?_,
    hcheckpointed⟩
  · rw [List.map_append]
    exact hsoft.bufferTable.trans htable
  · rw [List.map_append, List.nodup_append]
    refine ⟨h.nodup, List.nodup_singleton _, ?_⟩
    intro x hx y hy hxy
    obtain rfl := List.mem_singleton.mp hy
    exact hfresh (hxy ▸ hx)
  · intro p hp
    rcases List.mem_append.mp hp with hold | hnew
    · exact (h.stored p hold).keeps fun blob' bytes hb => hblobs _ _ (hblob.blobs _ _ hb)
    · obtain rfl := List.mem_singleton.mp hnew
      exact ⟨rfl, rfl, hblobs _ _ hholds⟩
  · exact h.layered.snoc ⟨hoffset, hnonempty, hbounded⟩
  · intro p hp hdecoded
    rcases List.mem_append.mp hp with hold | hnew
    · exact h.cached p hold hdecoded
    · obtain rfl := List.mem_singleton.mp hnew
      exact absurd (h.known id hdecoded) hfresh
  · intro id' hid'
    rw [List.map_append]
    exact List.mem_append_left _ (h.known id' hid')
  · rw [length_pwrite]
    have := h.limit
    omega

theorem IsFlat.flushWriteBuffer (hS : S.Lawful Checkpointed) {f : EncodedFile σ} {bs : Bytes}
    (h : IsFlat C S Checkpointed f bs) :
    IsFlat C S Checkpointed (flushWriteBuffer C S f) bs ∧
      (EncodedFile.flushWriteBuffer C S f).writeBuffer = [] := by
  rw [EncodedFile.flushWriteBuffer]
  by_cases hwaiting : f.writeBuffer.length > 0
  · rw [if_pos hwaiting]
    obtain ⟨ps, base, htabled, hoffset, hbounded, hlimit, rfl⟩ := h
    rw [length_pwrite] at hlimit
    obtain ⟨ps', htabled'⟩ := htabled.writeBlob hS hwaiting hbounded hoffset (by omega)
    have hemptied : Tabled C S Checkpointed { EncodedFile.writeBlob C S f.writeBuffer
        f.writeBufferOffset f with writeBuffer := [] } ps' _ := { htabled' with }
    refine ⟨hemptied.isFlat rfl ?_, rfl⟩
    show f.writeBufferOffset ≤ _
    rw [length_pwrite]
    omega
  · rw [if_neg hwaiting]
    exact ⟨h, List.length_eq_zero_iff.mp (by omega)⟩

/-- What is left to write makes of what is written by now what the whole makes of what was
there. -/
structure Writes (bs : Bytes) (offset : Nat) (data : Bytes) (bs' : Bytes) (offset' : Nat)
    (data' : Bytes) : Prop where
  bytes : ByteFile.pwrite bs' offset' data' = ByteFile.pwrite bs offset data
  inside : offset' ≤ bs'.length
  stop : offset' + data'.length = offset + data.length

/-- The first `k` bytes were written. -/
theorem writes_take {bs : Bytes} {offset : Nat} (hoffset : offset ≤ bs.length) (data : Bytes)
    {k : Nat} (hk : k ≤ data.length) :
    Writes bs offset data (ByteFile.pwrite bs offset (data.take k)) (offset + k) (data.drop k) := by
  have hlen : (data.take k).length = k := List.length_take_of_le hk
  refine ⟨?_, ?_, ?_⟩
  · have hboth := pwrite_pwrite hoffset (data.take k) (data.drop k)
    rwa [hlen, List.take_append_drop] at hboth
  · rw [length_pwrite, hlen]
    exact Nat.le_max_right _ _
  · rw [List.length_drop]
    omega

theorem Writes.trans {bs₀ bs₁ bs₂ : Bytes} {o₀ o₁ o₂ : Nat} {d₀ d₁ d₂ : Bytes}
    (h : Writes bs₀ o₀ d₀ bs₁ o₁ d₁) (h' : Writes bs₁ o₁ d₁ bs₂ o₂ d₂) :
    Writes bs₀ o₀ d₀ bs₂ o₂ d₂ :=
  ⟨h'.bytes.trans h.bytes, h'.inside, h'.stop.trans h.stop⟩

theorem IsFlat.absorb (hS : S.Lawful Checkpointed) {f : EncodedFile σ} {bs : Bytes}
    (h : IsFlat C S Checkpointed f bs) {data : Bytes} {offset : Nat} (hoffset : offset ≤ bs.length)
    (hlimit : offset + data.length < 2 ^ 63) :
    ∃ f' data' offset' bs', EncodedFile.absorb C S data offset f = (f', data', offset') ∧
      IsFlat C S Checkpointed f' bs' ∧ Writes bs offset data bs' offset' data' := by
  rw [EncodedFile.absorb]
  by_cases hwaiting : f.writeBuffer.length ≠ 0
  · rw [if_pos hwaiting]
    by_cases hcontiguous : f.writeBufferOffset + f.writeBuffer.length ≠ offset
    · rw [if_pos hcontiguous]
      exact ⟨_, _, _, bs, rfl, (h.flushWriteBuffer hS).1, rfl, hoffset, rfl⟩
    · rw [if_neg hcontiguous]
      have hend : f.writeBufferOffset + f.writeBuffer.length = offset := not_not.mp hcontiguous
      have hk : min (writeBufferCapacity - f.writeBuffer.length) data.length ≤ data.length :=
        Nat.min_le_right _ _
      have hwrites := writes_take hoffset data hk
      obtain ⟨ps, base, htabled, hbase, hbounded, hsmall, hc⟩ := h
      refine ⟨_, _, _, _, rfl, ⟨ps, base, { htabled with }, hbase, ?_, ?_, ?_⟩, hwrites⟩
      · rw [List.length_append, List.length_take]
        omega
      · rw [length_pwrite, List.length_take]
        omega
      · rw [hc, ← hend, pwrite_pwrite hbase]
  · rw [if_neg hwaiting]
    exact ⟨_, _, _, bs, rfl, h, rfl, hoffset, rfl⟩

theorem IsFlat.writeChunks (hS : S.Lawful Checkpointed) (fuel : Nat) {f : EncodedFile σ}
    {bs : Bytes} (h : IsFlat C S Checkpointed f bs) (hempty : f.writeBuffer = []) {data : Bytes}
    {offset : Nat} (hoffset : offset ≤ bs.length) (hlimit : offset + data.length < 2 ^ 63)
    (hfuel : data.length / writeBufferCapacity ≤ fuel) :
    ∃ f' data' offset' bs', EncodedFile.writeChunks C S fuel data offset f = (f', data', offset') ∧
      IsFlat C S Checkpointed f' bs' ∧ f'.writeBuffer = [] ∧
      data'.length < writeBufferCapacity ∧ Writes bs offset data bs' offset' data' := by
  have hpos : 0 < writeBufferCapacity := by decide
  induction fuel generalizing f bs data offset with
  | zero =>
      have hsmall : data.length < writeBufferCapacity :=
        (Nat.div_eq_zero_iff_lt hpos).mp (Nat.le_zero.mp hfuel)
      exact ⟨f, data, offset, bs, rfl, h, hempty, hsmall, rfl, hoffset, rfl⟩
  | succ fuel ih =>
      rw [EncodedFile.writeChunks]
      by_cases hchunk : data.length ≥ writeBufferCapacity
      · rw [if_pos hchunk]
        have hlen : (data.take writeBufferCapacity).length = writeBufferCapacity :=
          List.length_take_of_le hchunk
        obtain ⟨ps, htabled, hstale⟩ := h.tabled hempty
        have hnonempty : 0 < (data.take writeBufferCapacity).length := by
          rw [hlen]
          exact hpos
        obtain ⟨ps', htabled'⟩ := htabled.writeBlob hS hnonempty (Nat.le_of_eq hlen) hoffset (by
          rw [hlen]
          omega)
        have hflat : IsFlat C S Checkpointed
            (EncodedFile.writeBlob C S (data.take writeBufferCapacity) offset f)
            (ByteFile.pwrite bs offset (data.take writeBufferCapacity)) := by
          refine htabled'.isFlat hempty (Nat.le_trans hstale ?_)
          exact length_le_pwrite _ _ _
        have hwrites := writes_take hoffset data hchunk
        have hstop := hwrites.stop
        have hrounds : (data.drop writeBufferCapacity).length / writeBufferCapacity ≤ fuel := by
          rw [List.length_drop]
          rw [Nat.div_eq_sub_div hpos hchunk] at hfuel
          exact Nat.le_of_succ_le_succ hfuel
        obtain ⟨f', data', offset', bs', hrun, hflat', hempty', hsmall, hrest⟩ :=
          ih hflat hempty hwrites.inside (by omega) hrounds
        exact ⟨f', data', offset', bs', hrun, hflat', hempty', hsmall, hwrites.trans hrest⟩
      · rw [if_neg hchunk]
        exact ⟨f, data, offset, bs, rfl, h, hempty, Nat.lt_of_not_le hchunk, rfl, hoffset, rfl⟩

theorem IsFlat.pwrite (hS : S.Lawful Checkpointed) {f : EncodedFile σ} {bs : Bytes}
    (h : IsFlat C S Checkpointed f bs) {data : Bytes} {offset : Nat} (hoffset : offset ≤ bs.length)
    (hlimit : offset + data.length < 2 ^ 63) :
    IsFlat C S Checkpointed (EncodedFile.pwrite C S data offset f)
      (ByteFile.pwrite bs offset data) := by
  obtain ⟨f₁, data₁, offset₁, bs₁, habsorb, hflat₁, hwrites₁⟩ := h.absorb hS hoffset hlimit
  have hstop₁ := hwrites₁.stop
  rw [EncodedFile.pwrite, habsorb]
  simp only
  by_cases hleft : data₁.length > 0
  · rw [if_pos hleft]
    obtain ⟨hflushed, hempty⟩ := hflat₁.flushWriteBuffer hS
    obtain ⟨f₂, data₂, offset₂, bs₂, hchunks, hflat₂, hempty₂, hsmall, hwrites₂⟩ :=
      hflushed.writeChunks hS (data₁.length / writeBufferCapacity) hempty hwrites₁.inside
        (show offset₁ + data₁.length < 2 ^ 63 by omega) (Nat.le_refl _)
    have hwrites := hwrites₁.trans hwrites₂
    have hstop₂ := hwrites.stop
    rw [hchunks]
    simp only
    rw [← hwrites.bytes]
    obtain ⟨ps, htabled, hstale⟩ := hflat₂.tabled hempty₂
    have hlimit₂ := htabled.limit
    by_cases hrest : data₂.length > 0
    · rw [if_pos hrest]
      refine ⟨ps, bs₂, { htabled with }, hwrites.inside, Nat.le_of_lt hsmall, ?_, rfl⟩
      rw [length_pwrite]
      omega
    · rw [if_neg hrest, List.length_eq_zero_iff.mp (Nat.eq_zero_of_not_pos hrest),
        pwrite_nil hwrites.inside]
      exact hflat₂
  · have hnil : data₁ = [] := List.length_eq_zero_iff.mp (by omega)
    rw [if_neg hleft]
    simp only
    rw [if_neg hleft, ← hwrites₁.bytes, hnil, pwrite_nil hwrites₁.inside]
    exact hflat₁

/-! ## The other calls -/

theorem IsFlat.sync (hS : S.Lawful Checkpointed) {f : EncodedFile σ} {bs : Bytes}
    (h : IsFlat C S Checkpointed f bs) : IsFlat C S Checkpointed (EncodedFile.sync C S f) bs := by
  obtain ⟨hflushed, hempty⟩ := h.flushWriteBuffer hS
  obtain ⟨ps, htabled, hstale⟩ := hflushed.tabled hempty
  obtain ⟨hkeeps, hcheckpointed⟩ := hS.hardCheckpoint (EncodedFile.flushWriteBuffer C S f).db
  exact (htabled.keeps hkeeps hcheckpointed).isFlat hempty hstale

theorem IsFlat.reopen (hS : S.Lawful Checkpointed) {f : EncodedFile σ} {bs : Bytes}
    (h : IsFlat C S Checkpointed f bs) : IsFlat C S Checkpointed (EncodedFile.reopen C S f) bs := by
  obtain ⟨hflushed, hempty⟩ := h.flushWriteBuffer hS
  obtain ⟨ps, htabled, -⟩ := hflushed.tabled hempty
  obtain ⟨hkeeps, hcheckpointed⟩ := hS.reopen _ htabled.checkpointed
  have hkept := htabled.keeps hkeeps hcheckpointed
  have hreopened : Tabled C S Checkpointed (EncodedFile.reopen C S f) ps bs :=
    ⟨hkept.table, hkept.nodup, hkept.stored, hkept.layered, fun p _ hid => (by cases hid),
      fun id hid => (by cases hid), hkept.limit, hcheckpointed⟩
  exact hreopened.isFlat rfl (Nat.zero_le _)

theorem IsFlat.getSize {f : EncodedFile σ} {bs : Bytes} (h : IsFlat C S Checkpointed f bs) :
    EncodedFile.getSize S f = bs.length := by
  obtain ⟨ps, base, htabled, hoffset, -, -, rfl⟩ := h
  rw [EncodedFile.getSize, htabled.table,
    tableSize_of_layered htabled.layered htabled.stored htabled.limit, length_pwrite]
  omega

/-- How far a read of `n` bytes gets. -/
def readable (bs : Bytes) (offset n : Nat) : Nat := min (offset + n) bs.length - offset

theorem IsFlat.pread (hS : S.Lawful Checkpointed) (hC : C.Undoes) (hlimited : C.Limited)
    {f : EncodedFile σ} {bs : Bytes} (h : IsFlat C S Checkpointed f bs) (buffer : Bytes)
    (offset : Nat) :
    ∃ buffer' f', EncodedFile.pread C S buffer offset f
        = .ok ((readable bs offset buffer.length, buffer'), f') ∧
      buffer'.length = buffer.length ∧
      buffer'.take (readable bs offset buffer.length) = slice bs offset (offset + buffer.length) ∧
      IsFlat C S Checkpointed f' bs := by
  obtain ⟨hflushed, hempty⟩ := h.flushWriteBuffer hS
  obtain ⟨ps, htabled, hstale⟩ := hflushed.tabled hempty
  have hstart : Overlay.Shows offset buffer.length []
      ⟨buffer, offset, (EncodedFile.flushWriteBuffer C S f).readBuffer,
        (EncodedFile.flushWriteBuffer C S f).decodedBuffer⟩ := by
    refine ⟨rfl, ?_, fun i _ hi => absurd hi (Nat.not_lt_zero _)⟩
    show (offset : Int) = _
    rw [List.length_nil]
    omega
  obtain ⟨o, hrows, hshows, hcached, hknown⟩ := overlayRows_shows hC hlimited htabled.nodup
    htabled.stored (fun p hp => hp) htabled.layered htabled.limit hstart htabled.cached
    htabled.known
  have hcount : (o.actualEnd - (offset : Int)).toNat = readable bs offset buffer.length := by
    rw [hshows.actualEnd, readable]
    omega
  refine ⟨o.buffer, { EncodedFile.flushWriteBuffer C S f with
    readBuffer := o.readBuffer, decodedBuffer := o.decodedBuffer }, ?_, hshows.length, ?_, ?_⟩
  · rw [EncodedFile.pread, htabled.table]
    simp only [hrows, bind, Except.bind, hcount]
  · apply List.ext_getElem?
    intro i
    rw [List.getElem?_take, getElem?_slice]
    have hreadable : readable bs offset buffer.length
        = min (offset + buffer.length) bs.length - offset := rfl
    by_cases hi : i < readable bs offset buffer.length
    · rw [if_pos hi, if_pos (by omega), hshows.bytes i (by omega) (by omega)]
    · rw [if_neg hi]
      split
      · exact (List.getElem?_eq_none (by omega)).symm
      · rfl
  · have hread : Tabled C S Checkpointed { EncodedFile.flushWriteBuffer C S f with
        readBuffer := o.readBuffer, decodedBuffer := o.decodedBuffer } ps bs :=
      { htabled with cached := hcached, known := hknown }
    exact hread.isFlat hempty hstale

end Invariant

/-! ## Runs -/

inductive Call where
  | pwrite (data : Bytes) (offset : Nat)
  | pread (buffer : Bytes) (offset : Nat)
  | sync
  | reopen

namespace Call

/-- What becomes of the bytes of the file. -/
def apply (bs : Bytes) : Call → Bytes
  | pwrite data offset => ByteFile.pwrite bs offset data
  | _ => bs

/-- A write leaves no hole, and its end is a position. -/
def Legal (bs : Bytes) : Call → Prop
  | pwrite data offset => offset ≤ bs.length ∧ offset + data.length < 2 ^ 63
  | _ => True

/-- The byte at `p` after a call, if it was `byte` before. -/
def byteAt (p : Nat) (byte : Option UInt8) : Call → Option UInt8
  | pwrite data offset =>
      if offset ≤ p ∧ p < offset + data.length then data[p - offset]? else byte
  | _ => byte

/-- The largest end after a call, if it was `n` before. -/
def largestEnd (n : Nat) : Call → Nat
  | pwrite data offset => max n (offset + data.length)
  | _ => n

variable {σ : Type} (C : Codec) (S : EncodedDatabase σ)

def run (f : EncodedFile σ) : Call → Except Exn (EncodedFile σ)
  | pwrite data offset => .ok (EncodedFile.pwrite C S data offset f)
  | pread buffer offset => (EncodedFile.pread C S buffer offset f).map Prod.snd
  | sync => .ok (EncodedFile.sync C S f)
  | reopen => .ok (EncodedFile.reopen C S f)

end Call

def Legal : Bytes → List Call → Prop
  | _, [] => True
  | bs, call :: calls => call.Legal bs ∧ Legal (call.apply bs) calls

/-- The byte that the latest write to `p` put there. -/
def latest (calls : List Call) (p : Nat) : Option UInt8 := calls.foldl (Call.byteAt p) none

/-- The largest end of a write. -/
def largestEnd (calls : List Call) : Nat := calls.foldl Call.largestEnd 0

def run {σ : Type} (C : Codec) (S : EncodedDatabase σ) :
    List Call → EncodedFile σ → Except Exn (EncodedFile σ)
  | [], f => .ok f
  | call :: calls, f => do
      let f ← call.run C S f
      run C S calls f

theorem getElem?_apply {calls : List Call} {bs : Bytes} (h : Legal bs calls) (p : Nat) :
    (calls.foldl Call.apply bs)[p]? = calls.foldl (Call.byteAt p) bs[p]? := by
  induction calls generalizing bs with
  | nil => rfl
  | cons call calls ih =>
      obtain ⟨hlegal, hrest⟩ := h
      rw [List.foldl_cons, List.foldl_cons, ih hrest]
      congr 1
      cases call with
      | pwrite data offset => exact getElem?_pwrite hlegal.1 data p
      | _ => rfl

theorem length_apply (calls : List Call) (bs : Bytes) :
    (calls.foldl Call.apply bs).length = calls.foldl Call.largestEnd bs.length := by
  induction calls generalizing bs with
  | nil => rfl
  | cons call calls ih =>
      rw [List.foldl_cons, List.foldl_cons, ih]
      congr 1
      cases call with
      | pwrite data offset => exact length_pwrite _ _ _
      | _ => rfl

section Runs

variable {σ : Type} {S : EncodedDatabase σ} {Checkpointed : σ → Prop} {C : Codec}

theorem IsFlat.call (hS : S.Lawful Checkpointed) (hC : C.Undoes) (hlimited : C.Limited)
    {f : EncodedFile σ} {bs : Bytes} (h : IsFlat C S Checkpointed f bs) {call : Call}
    (hlegal : call.Legal bs) :
    ∃ f', call.run C S f = .ok f' ∧ IsFlat C S Checkpointed f' (call.apply bs) := by
  cases call with
  | pwrite data offset => exact ⟨_, rfl, h.pwrite hS hlegal.1 hlegal.2⟩
  | pread buffer offset =>
      obtain ⟨buffer', f', hread, -, -, hflat⟩ := h.pread hS hC hlimited buffer offset
      refine ⟨f', ?_, hflat⟩
      rw [Call.run, hread]
      rfl
  | sync => exact ⟨_, rfl, h.sync hS⟩
  | reopen => exact ⟨_, rfl, h.reopen hS⟩

theorem IsFlat.run (hS : S.Lawful Checkpointed) (hC : C.Undoes) (hlimited : C.Limited)
    {calls : List Call} {f : EncodedFile σ} {bs : Bytes} (h : IsFlat C S Checkpointed f bs)
    (hlegal : Legal bs calls) :
    ∃ f', EncodedFile.run C S calls f = .ok f' ∧
      IsFlat C S Checkpointed f' (calls.foldl Call.apply bs) := by
  induction calls generalizing f bs with
  | nil => exact ⟨f, rfl, h⟩
  | cons call calls ih =>
      obtain ⟨f₁, hcall, hflat⟩ := h.call hS hC hlimited hlegal.1
      obtain ⟨f', hrun, hflat'⟩ := ih hflat hlegal.2
      refine ⟨f', ?_, hflat'⟩
      rw [EncodedFile.run, hcall]
      exact hrun

end Runs

/-- Every run of calls that leaves no hole goes through, and then the size is the largest end
of a write, and a read of any range goes through, returns at least a byte of what is below
the size, and fills as much of the buffer as it says with the bytes of the latest writes. -/
theorem encoded_file_is_flat {σ : Type} {S : EncodedDatabase σ} {Checkpointed : σ → Prop}
    (hS : S.Lawful Checkpointed) {C : Codec} (hC : C.Undoes) (hlimited : C.Limited)
    {calls : List Call} (hlegal : Legal [] calls) :
    ∃ f, run C S calls (create S.create) = .ok f ∧ getSize S f = largestEnd calls ∧
      ∀ (buffer : Bytes) (offset : Nat), ∃ n buffer' f',
        pread C S buffer offset f = .ok ((n, buffer'), f') ∧
        n ≤ buffer.length ∧ buffer'.length = buffer.length ∧
        (∀ i < n, (latest calls (offset + i)).isSome ∧
          buffer'[i]? = latest calls (offset + i)) ∧
        (0 < buffer.length → offset < largestEnd calls → 0 < n) := by
  obtain ⟨f, hrun, hflat⟩ := (isFlat_create hS).run hS hC hlimited hlegal
  obtain ⟨bs, hc⟩ : ∃ bs : Bytes, bs = calls.foldl Call.apply [] := ⟨_, rfl⟩
  rw [← hc] at hflat
  have hlen : bs.length = largestEnd calls := by rw [hc, length_apply]; rfl
  refine ⟨f, hrun, by rw [hflat.getSize, hlen], fun buffer offset => ?_⟩
  obtain ⟨buffer', f', hread, hsame, hbytes, -⟩ := hflat.pread hS hC hlimited buffer offset
  have hreadable : readable bs offset buffer.length
      = min (offset + buffer.length) bs.length - offset := rfl
  refine ⟨_, buffer', f', hread, by omega, hsame, fun i hi => ?_, fun _ _ => by omega⟩
  have hlatest : latest calls (offset + i) = bs[offset + i]? := by
    rw [hc, getElem?_apply hlegal, List.getElem?_nil]
    rfl
  have hgot : buffer'[i]? = bs[offset + i]? := by
    have hslice := congrArg (·[i]?) hbytes
    simp only [List.getElem?_take, getElem?_slice] at hslice
    rwa [if_pos hi, if_pos (by omega)] at hslice
  rw [hlatest]
  have hin : offset + i < bs.length := by omega
  refine ⟨?_, hgot⟩
  rw [List.getElem?_eq_getElem hin]
  rfl

/-! ## In memory -/

/-- The table, what the last checkpoint covers of it, and the bytes of the blobs. -/
structure PlainDatabase where
  rows : List BufferRow
  saved : List BufferRow
  bytes : Bytes

/-- A database that does what the file relies on. -/
def plain : EncodedDatabase PlainDatabase where
  create := ⟨[], [], []⟩
  reopen s := { s with rows := s.saved }
  bufferTable s := s.rows.zipIdx.map fun e => ((e.2 : Int), e.1)
  file s := ⟨.sharedWrite, .whole, s.bytes, []⟩
  writeBlob bytes s := (⟨s.bytes.length, bytes.length⟩, { s with bytes := s.bytes ++ bytes })
  newBuffer data size offset s := { s with rows := s.rows ++ [⟨data, size, offset⟩] }
  softCheckpoint s := { s with saved := s.rows }
  hardCheckpoint s := { s with saved := s.rows }

theorem plain_lawful : plain.Lawful fun s => s.saved = s.rows where
  bufferTable_create := rfl
  create_checkpointed := rfl
  writeBlob bytes s := by
    have happend : (plain.file (plain.writeBlob bytes s).2).data
        = ByteFile.pwrite s.bytes s.bytes.length bytes := (pwrite_length_self _ _).symm
    refine ⟨⟨rfl, fun blob bytes' h => ⟨h.1, h.2.1, ?_⟩⟩, Int.natCast_nonneg _, rfl, ?_⟩
    · have hslice : slice s.bytes _ _ = bytes' := h.2.2
      rw [happend]
      by_cases hnil : bytes' = []
      · rw [hnil]
        exact slice_self _ _
      · have hlen := congrArg List.length hslice
        have hpos := List.length_pos_iff.mpr hnil
        rw [length_slice] at hlen
        rw [slice_pwrite_of_disjoint (Nat.le_refl _) (.inl (by omega))]
        exact hslice
    · rw [happend]
      exact slice_pwrite_self (Nat.le_refl _) bytes
  newBuffer_table data size offset s := by
    refine ⟨(s.rows.length : Int), ?_, ?_⟩
    · intro hmem
      obtain ⟨e, he, hid⟩ := List.mem_map.mp hmem
      obtain ⟨⟨row, i⟩, hrow, rfl⟩ := List.mem_map.mp he
      have hlt := (List.mem_zipIdx hrow).2.1
      have hsame : (i : Int) = s.rows.length := hid
      omega
    · show List.map _ (s.rows ++ [_]).zipIdx = _
      rw [List.zipIdx_append, List.map_append, Nat.zero_add]
      rfl
  newBuffer_blobs _ _ _ _ _ _ h := h
  softCheckpoint s := ⟨⟨rfl, fun _ _ h => h⟩, rfl⟩
  hardCheckpoint s := ⟨⟨rfl, fun _ _ h => h⟩, rfl⟩
  reopen s h := by
    have hreopen : plain.reopen s = s := by
      show PlainDatabase.mk s.saved s.saved s.bytes = s
      rw [h]
      exact congrArg (PlainDatabase.mk s.rows · s.bytes) h.symm
    rw [hreopen]
    exact ⟨⟨rfl, fun _ _ h => h⟩, h⟩

/-- `Identity_Codec`. -/
def identityCodec : Codec where
  encode decoded := decoded
  decode encoded decodedSize :=
    if encoded.length = decodedSize then .ok encoded
    else .error (.exception
      "joedb/journal/Identity_Codec.h:27:decode:!(encoded.size() == decoded_size)")

theorem identityCodec_undoes : identityCodec.Undoes := fun _ => if_pos rfl

/-- Two writes, the second into the first, before and after the file is opened again. -/
theorem encoded_file_is_flat_overwritten :
    ∃ f, run identityCodec plain
        [.pwrite [1, 2, 3] 0, .pread [0] 1, .pwrite [9] 1, .reopen, .sync] (create plain.create)
        = .ok f ∧ getSize plain f = 3 ∧
      ∀ (buffer : Bytes) (offset : Nat), ∃ n buffer' f',
        pread identityCodec plain buffer offset f = .ok ((n, buffer'), f') ∧
        n ≤ buffer.length ∧ buffer'.length = buffer.length ∧
        (∀ i < n, (latest [.pwrite [1, 2, 3] 0, .pread [0] 1, .pwrite [9] 1, .reopen, .sync]
            (offset + i)).isSome ∧
          buffer'[i]? = latest [.pwrite [1, 2, 3] 0, .pread [0] 1, .pwrite [9] 1, .reopen, .sync]
            (offset + i)) ∧
        (0 < buffer.length → offset < 3 → 0 < n) :=
  encoded_file_is_flat plain_lawful identityCodec_undoes
    (fun _ h => Nat.le_trans h (by decide)) (by
      refine ⟨⟨Nat.le_refl 0, by decide⟩, trivial, ⟨?_, by decide⟩, trivial, trivial, trivial⟩
      decide)

/-- A codec that makes what it encodes `n` bytes longer. -/
def paddingCodec (n : Nat) : Codec where
  encode decoded := decoded ++ List.replicate n 0
  decode encoded decodedSize := .ok (encoded.take decodedSize)

theorem paddingCodec_undoes (n : Nat) : (paddingCodec n).Undoes := fun bytes => by
  show Except.ok ((bytes ++ List.replicate n 0).take bytes.length) = .ok bytes
  rw [List.take_left]

theorem length_paddingCodec (n : Nat) (bytes : Bytes) :
    ((paddingCodec n).encode bytes).length = bytes.length + n := by
  show (bytes ++ List.replicate n (0 : UInt8)).length = _
  rw [List.length_append, List.length_replicate]

/-- A short write into an empty write buffer stays there. -/
theorem pwrite_short {σ : Type} {C : Codec} {S : EncodedDatabase σ} {f : EncodedFile σ}
    (hempty : f.writeBuffer = []) {data : Bytes} (hpos : 0 < data.length)
    (hsmall : data.length < writeBufferCapacity) (offset : Nat) :
    pwrite C S data offset f = { f with writeBuffer := data, writeBufferOffset := offset } := by
  have hnone : ¬ f.writeBuffer.length ≠ 0 := by
    rw [hempty]
    exact fun h => h rfl
  have hflush : flushWriteBuffer C S f = f := by
    rw [flushWriteBuffer, if_neg fun h => hnone (Nat.ne_of_gt h)]
  rw [pwrite, absorb, if_neg hnone]
  simp only
  rw [if_pos hpos, Nat.div_eq_of_lt hsmall, hflush, writeChunks]
  simp only
  rw [if_pos hpos]

theorem pread_of_long {C : Codec} (hlong : maxBufferSize < (C.encode [7]).length) :
    pread C plain [0] 0 { create plain.create with writeBuffer := [7] }
      = .error File.readingPastEndOfFile := by
  have hblob : ∀ file : File, file.readBlob ⟨0, (C.encode [7]).length⟩ maxBufferSize
      = .error File.readingPastEndOfFile := by
    intro file
    rw [File.readBlob, if_pos (.inr (.inr (Int.ofNat_lt.mpr hlong)))]
  have hrow : ∀ file : File, overlayRow C file 0 1 0 ⟨⟨0, (C.encode [7]).length⟩, 1, 0⟩
      ⟨[0], 0, [], none⟩ = .error File.readingPastEndOfFile := by
    intro file
    have hend : toInt64 (0 + 1) = 1 := by decide
    have hmeets : max (0 : Int) 0 < min 1 1 ∧ max (0 : Int) 0 ≤ 0 := by decide
    have haccepted : ¬ (1 : Int) > (maxBufferSize : Int) := by decide
    have hsize : ¬ (1 : Int) ≤ 0 := by decide
    have hother : (none : Option RecordId) ≠ some 0 := fun h => (by cases h)
    rw [overlayRow]
    simp only [hend]
    rw [if_neg hsize, if_pos hmeets, if_pos hother, if_neg haccepted, hblob]
    rfl
  rw [pread]
  show (overlayRows C _ 0 1 [((0 : Int), ⟨⟨0, (C.encode [7]).length⟩, 1, 0⟩)]
    ⟨[0], 0, [], none⟩ >>= _) = _
  rw [overlayRows, hrow]
  rfl

theorem run_padded {n : Nat} (hn : maxBufferSize < n) :
    run (paddingCodec n) plain [.pwrite [7] 0, .pread [0] 0] (create plain.create)
      = .error File.readingPastEndOfFile := by
  have hlong : maxBufferSize < ((paddingCodec n).encode [7]).length := by
    rw [length_paddingCodec]
    omega
  have hpos : 0 < ([7] : Bytes).length := Nat.one_pos
  have hsmall : ([7] : Bytes).length < writeBufferCapacity := Nat.one_lt_two_pow (by decide)
  have hwritten : Call.run (paddingCodec n) plain (create plain.create) (.pwrite [7] 0)
      = .ok { create plain.create with writeBuffer := [7] } :=
    congrArg Except.ok (pwrite_short rfl hpos hsmall 0)
  rw [run, hwritten]
  show run _ plain [.pread [0] 0] _ = _
  rw [run, Call.run, pread_of_long hlong]
  rfl

/-- A byte is written, and a read of it throws, since what it is encoded into is longer than a
read takes. -/
theorem encoded_file_too_long :
    ¬ ∀ C : Codec, C.Undoes → ∀ calls, Legal [] calls →
      ∃ f, run C plain calls (create plain.create) = .ok f := by
  intro h
  obtain ⟨f, hrun⟩ := h (paddingCodec (maxBufferSize + 1)) (paddingCodec_undoes _)
    [.pwrite [7] 0, .pread [0] 0] ⟨⟨Nat.le_refl 0, by decide⟩, trivial, trivial⟩
  cases (run_padded (Nat.lt_succ_self maxBufferSize)).symm.trans hrun

end EncodedFile

end Joedb
