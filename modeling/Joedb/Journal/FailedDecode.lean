import Mathlib.Data.List.Nodup
import Joedb.Journal.ReadonlyEncodedFile

/-!
# A decoder that throws

An encoded file that has been read gives what a freshly opened one gives, as
long as the read buffer has the blob that `decoded_buffer` names. A decoder that
throws may break that: it has written over the blob that was decoded before, and
that blob is still the one that `decoded_buffer` names. So everything is well
until a decoder throws over other data, and from then on the blob before it is
served with what the failed one left there.

`overwritten` is the walk of `pread` through the rows without the bytes: where
the decoder throws, if it does, and which blob is in the buffer by then.
-/

namespace Joedb

open ByteFile Containers StateExcept EncodedFile

namespace EncodedReader

variable {D : Decoder} {c : EncodedContent} {file : File}

/-- The row of a blob that can be decoded, and what it is decoded to. -/
def Decodes (D : Decoder) (file : File) (row : BufferRow) (bytes : Bytes) : Prop :=
  attempt D file row = (bytes, none)

/-- The read buffer starts with the blob that `decoded_buffer` names. -/
def Holds (D : Decoder) (c : EncodedContent) (decodedBuffer : Option RecordId)
    (readBuffer : Bytes) : Prop :=
  ∀ b row, (b, row) ∈ c.rows → decodedBuffer = some b →
    row.size ≤ maxBufferSize ∧
      ∃ bytes, Decodes D c.blobReader row bytes ∧ readBuffer.take row.size.toNat = bytes

/-- The row at which a `pread` throws, with the blob that is in the buffer then. -/
def overwritten (D : Decoder) (file : File) (start stop : Int) :
    List (RecordId × BufferRow) → Int → Option RecordId → Option (BufferRow × RecordId)
  | [], _, _ => none
  | (b, row) :: rows, actualEnd, decodedBuffer =>
      if Meets start stop actualEnd row then
        if decodedBuffer = some b then
          overwritten D file start stop rows (max actualEnd (intersectionEnd stop row))
            decodedBuffer
        else if row.size > maxBufferSize then
          overwritten D file start stop rows actualEnd decodedBuffer
        else if (attempt D file row).2 = none then
          overwritten D file start stop rows (max actualEnd (intersectionEnd stop row)) (some b)
        else decodedBuffer.map (row, ·)
      else overwritten D file start stop rows actualEnd decodedBuffer

/-- What a decoder that throws in this `pread` writes leaves the blob that is in the buffer as it
is. -/
def Spares (D : Decoder) (c : EncodedContent) (r : EncodedReader) (size offset : Nat) : Prop :=
  ∀ row b, overwritten D c.blobReader offset (offset + size) c.rows offset r.decodedBuffer
      = some (row, b) →
    ∀ row', (b, row') ∈ c.rows →
      (ByteFile.pwrite (attempt D c.blobReader row').1 0 (attempt D c.blobReader row).1).take
        row'.size.toNat = (attempt D c.blobReader row').1

/-- What the caller of a `pread` gets. -/
def outcome (D : Decoder) (c : EncodedContent) (buffer : Bytes) (offset : Nat)
    (r : EncodedReader) : Except Exn (Nat × Bytes) :=
  match pread D c buffer offset r with
  | .ok a _ => .ok a
  | .error e _ => .error e

/-! ## One row -/

theorem mem_unique {b : RecordId} {row row' : BufferRow} (h : (b, row) ∈ c.rows)
    (h' : (b, row') ∈ c.rows) : row = row' :=
  congrArg Prod.snd (List.inj_on_of_nodup_map c.nodup h h' rfl)

theorem Decodes.length {row : BufferRow} {bytes : Bytes} (h : Decodes D file row bytes) :
    bytes.length = row.size.toNat := by
  rw [Decodes, attempt] at h
  split at h
  · cases h
  · next encoded _ =>
      have hfills := D.fills encoded row.size.toNat
      rw [h] at hfills
      exact hfills rfl

theorem take_pwrite_zero (f bytes : Bytes) :
    (ByteFile.pwrite f 0 bytes).take bytes.length = bytes := by
  have h := slice_pwrite_self (Nat.zero_le f.length) bytes
  rwa [Nat.zero_add, slice, List.drop_zero, Nat.sub_zero] at h

/-- Two readers in the same place of the same `pread`, whatever each has in its read buffer. -/
structure Along (D : Decoder) (c : EncodedContent) (o o' : Overlay) : Prop where
  buffer : o.buffer = o'.buffer
  actualEnd : o.actualEnd = o'.actualEnd
  left : Holds D c o.decodedBuffer o.readBuffer
  right : Holds D c o'.decodedBuffer o'.readBuffer

/-- The data of a decoder that threw, over what was in the read buffer. -/
theorem take_pwrite_congr {f g written : Bytes} {n : Nat} (hf : f.take n = g) (hg : g.length = n) :
    (ByteFile.pwrite f 0 written).take n = (ByteFile.pwrite g 0 written).take n := by
  subst hf
  simp only [ByteFile.pwrite, Nat.zero_sub, List.take_zero, List.nil_append, Nat.zero_add,
    List.replicate_zero, List.append_nil, List.take_append, List.drop_take]
  rw [List.take_take, Nat.min_self]

theorem decodeRow_error {b : RecordId} {row : BufferRow} {e : Exn} {o : Overlay}
    (hholds : Holds D c o.decodedBuffer o.readBuffer)
    (h : (attempt D c.blobReader row).2 = some e) :
    ∃ readBuffer, decodeRow D c.blobReader b row o = .error e { o with readBuffer } ∧
      ∀ b' row', (b', row') ∈ c.rows → o.decodedBuffer = some b' →
        readBuffer.take row'.size.toNat
          = (ByteFile.pwrite (attempt D c.blobReader row').1 0
              (attempt D c.blobReader row).1).take row'.size.toNat := by
  rw [decodeRow]
  simp only [h]
  refine ⟨_, rfl, fun b' row' hmem hb => ?_⟩
  obtain ⟨-, bytes, hbytes, htake⟩ := hholds b' row' hmem hb
  have hlen := hbytes.length
  rw [Decodes] at hbytes
  rw [hbytes]
  refine take_pwrite_congr ?_ hlen
  split
  · -- a longer buffer starts with what the shorter one had
    next hshort =>
      have hlen' := congrArg List.length htake
      rw [List.length_take] at hlen'
      rw [resize, List.take_append_of_le_length (by rw [List.length_take]; omega), List.take_take]
      rw [Nat.min_eq_left (by omega), htake]
  · exact htake

theorem decodeRow_ok {b : RecordId} {row : BufferRow} {bytes : Bytes} (o : Overlay)
    (h : Decodes D file row bytes) :
    ∃ readBuffer, decodeRow D file b row o = .ok () { o with readBuffer, decodedBuffer := some b } ∧
      readBuffer.take row.size.toNat = bytes := by
  rw [Decodes] at h
  rw [decodeRow]
  simp only [h]
  refine ⟨_, rfl, ?_⟩
  rw [← Decodes.length h, take_pwrite_zero]

/-- The blob of a row, brought into the read buffer or there already. -/
theorem loadRow {b : RecordId} {row : BufferRow} (hmem : (b, row) ∈ c.rows) {o : Overlay}
    (hholds : Holds D c o.decodedBuffer o.readBuffer) :
    (∃ bytes readBuffer, Decodes D c.blobReader row bytes ∧
      when (o.decodedBuffer ≠ some b) (decodeRow D c.blobReader b row) o
        = .ok () { o with readBuffer, decodedBuffer := some b } ∧
      readBuffer.take row.size.toNat = bytes) ∨
    ∃ e readBuffer, o.decodedBuffer ≠ some b ∧ (attempt D c.blobReader row).2 = some e ∧
      when (o.decodedBuffer ≠ some b) (decodeRow D c.blobReader b row) o
        = .error e { o with readBuffer } ∧
      ∀ b' row', (b', row') ∈ c.rows → o.decodedBuffer = some b' →
        readBuffer.take row'.size.toNat
          = (ByteFile.pwrite (attempt D c.blobReader row').1 0
              (attempt D c.blobReader row).1).take row'.size.toNat := by
  by_cases hdecoded : o.decodedBuffer = some b
  · obtain ⟨-, bytes, hbytes, htake⟩ := hholds b row hmem hdecoded
    refine .inl ⟨bytes, o.readBuffer, hbytes, ?_, htake⟩
    rw [when_neg (not_not.mpr hdecoded), ← hdecoded]
    rfl
  · rw [when_pos hdecoded]
    cases hattempt : (attempt D c.blobReader row).2 with
    | none =>
        have hbytes : Decodes D c.blobReader row (attempt D c.blobReader row).1 :=
          Prod.ext rfl hattempt
        obtain ⟨readBuffer, hrun, htake⟩ := decodeRow_ok (b := b) o hbytes
        exact .inl ⟨_, readBuffer, hbytes, hrun, htake⟩
    | some e =>
        obtain ⟨readBuffer, hrun, htake⟩ := decodeRow_error (b := b) hholds hattempt
        exact .inr ⟨e, readBuffer, hdecoded, rfl, hrun, htake⟩

theorem holds_of_decodes {b : RecordId} {row : BufferRow} (hmem : (b, row) ∈ c.rows)
    (hsize : row.size ≤ maxBufferSize) {bytes readBuffer : Bytes}
    (h : Decodes D c.blobReader row bytes) (htake : readBuffer.take row.size.toNat = bytes) :
    Holds D c (some b) readBuffer := by
  intro b' row' hmem' hb
  obtain rfl := Option.some.inj hb
  obtain rfl := mem_unique hmem hmem'
  exact ⟨hsize, bytes, h, htake⟩

theorem toInt64_le {x : Int} (h : -2 ^ 63 ≤ x) : toInt64 x ≤ x := by
  rw [toInt64, toUint64]
  split <;> omega

/-- What is copied from a row is in the blob of the row. -/
theorem copyRow_congr {start stop : Int} {b : RecordId} {row : BufferRow}
    (hmem : (b, row) ∈ c.rows) {bytes : Bytes} (o o' : Overlay) (hbuffer : o.buffer = o'.buffer)
    (hend : o.actualEnd = o'.actualEnd) (hmeets : Meets start stop o.actualEnd row)
    (htake : o.readBuffer.take row.size.toNat = bytes)
    (htake' : o'.readBuffer.take row.size.toNat = bytes) :
    (copyRow start (intersectionStart start row) (intersectionEnd stop row) row o).buffer
        = (copyRow start (intersectionStart start row) (intersectionEnd stop row) row o').buffer ∧
      (copyRow start (intersectionStart start row) (intersectionEnd stop row) row o).actualEnd
        = (copyRow start (intersectionStart start row) (intersectionEnd stop row) row
            o').actualEnd := by
  have hint64 : -2 ^ 63 ≤ row.offset := c.int64 _ hmem
  have hsize : 0 < row.size := hmeets.1
  have hrowEnd := toInt64_le (x := row.offset + row.size) (by omega)
  have hinside : (intersectionEnd stop row - row.offset).toNat ≤ row.size.toNat := by
    rw [intersectionEnd]
    omega
  constructor
  · rw [copyRow, copyRow, hbuffer, ← slice_take hinside, htake, ← htake', slice_take hinside]
  · rw [copyRow, copyRow, hend]

theorem readRow_skip {start stop : Int} {b : RecordId} {row : BufferRow} {o : Overlay}
    (h : Meets start stop o.actualEnd row → o.decodedBuffer ≠ some b ∧ row.size > maxBufferSize) :
    readRow D file start stop b row o = .ok () o := by
  rw [readRow, get_bind_run]
  split
  · next hmeets =>
      rw [if_pos (h hmeets)]
      rfl
  · rfl

theorem readRow_serve {start stop : Int} {b : RecordId} {row : BufferRow} {o : Overlay}
    (hmeets : Meets start stop o.actualEnd row) (hsize : row.size ≤ maxBufferSize) :
    readRow D file start stop b row o
      = (when (o.decodedBuffer ≠ some b) (decodeRow D file b row) >>= fun _ =>
          modify (copyRow start (intersectionStart start row) (intersectionEnd stop row)
            row)) o := by
  rw [readRow, get_bind_run, if_pos hmeets, if_neg (by omega)]

/-- What a row does to a read buffer that has the blob that it should have. -/
theorem readRow_cases (start stop : Int) {b : RecordId} {row : BufferRow}
    (hmem : (b, row) ∈ c.rows) {o : Overlay} (hholds : Holds D c o.decodedBuffer o.readBuffer) :
    ((Meets start stop o.actualEnd row → row.size > maxBufferSize) ∧
      (Meets start stop o.actualEnd row → o.decodedBuffer ≠ some b) ∧
      readRow D c.blobReader start stop b row o = .ok () o) ∨
    (Meets start stop o.actualEnd row ∧ row.size ≤ maxBufferSize ∧
      ∃ bytes readBuffer, Decodes D c.blobReader row bytes ∧
        readBuffer.take row.size.toNat = bytes ∧
        readRow D c.blobReader start stop b row o
          = .ok () (copyRow start (intersectionStart start row) (intersectionEnd stop row) row
              { o with readBuffer, decodedBuffer := some b })) ∨
    (Meets start stop o.actualEnd row ∧ row.size ≤ maxBufferSize ∧ o.decodedBuffer ≠ some b ∧
      ∃ e readBuffer, (attempt D c.blobReader row).2 = some e ∧
        (∀ b' row', (b', row') ∈ c.rows → o.decodedBuffer = some b' →
          readBuffer.take row'.size.toNat
            = (ByteFile.pwrite (attempt D c.blobReader row').1 0
                (attempt D c.blobReader row).1).take row'.size.toNat) ∧
        readRow D c.blobReader start stop b row o = .error e { o with readBuffer }) := by
  by_cases hmeets : Meets start stop o.actualEnd row
  case neg =>
    exact .inl ⟨fun h => absurd h hmeets, fun h => absurd h hmeets,
      readRow_skip fun h => absurd h hmeets⟩
  by_cases hsize : row.size ≤ maxBufferSize
  case neg =>
    have hdecoded : o.decodedBuffer ≠ some b := fun h => hsize (hholds b row hmem h).1
    exact .inl ⟨fun _ => by omega, fun _ => hdecoded,
      readRow_skip fun _ => ⟨hdecoded, by omega⟩⟩
  rw [readRow_serve hmeets hsize]
  obtain ⟨bytes, readBuffer, hbytes, hrun, htake⟩ |
    ⟨e, readBuffer, hdecoded, hattempt, hrun, htake⟩ := loadRow hmem hholds
  · refine .inr (.inl ⟨hmeets, hsize, bytes, readBuffer, hbytes, htake, ?_⟩)
    rw [bind_ok hrun]
    rfl
  · refine .inr (.inr ⟨hmeets, hsize, hdecoded, e, readBuffer, hattempt, htake, ?_⟩)
    rw [bind_error hrun]

/-! ## The loop of `pread` -/

theorem actualEnd_copyRow (start : Int) (row : BufferRow) (a stop : Int) (o : Overlay) :
    (copyRow start a stop row o).actualEnd = max o.actualEnd stop := by
  rw [copyRow]
  dsimp only
  split <;> omega

/-- Two readers go through the rows together: what one has decoded, the other can decode. -/
theorem readRows_along (start stop : Int) {rows : List (RecordId × BufferRow)}
    (hrows : ∀ e ∈ rows, e ∈ c.rows) {o o' : Overlay} (h : Along D c o o') :
    (∃ o₁ o₁', readRows D c.blobReader start stop rows o = .ok () o₁ ∧
      readRows D c.blobReader start stop rows o' = .ok () o₁' ∧ Along D c o₁ o₁') ∨
    ∃ e o₁ o₁', readRows D c.blobReader start stop rows o = .error e o₁ ∧
      readRows D c.blobReader start stop rows o' = .error e o₁' := by
  induction rows generalizing o o' with
  | nil => exact .inl ⟨o, o', rfl, rfl, h⟩
  | cons entry rows ih =>
      obtain ⟨b, row⟩ := entry
      have hmem : (b, row) ∈ c.rows := hrows _ List.mem_cons_self
      have hrest : ∀ e ∈ rows, e ∈ c.rows := fun e he => hrows e (List.mem_cons_of_mem _ he)
      have hmeets_iff : Meets start stop o'.actualEnd row ↔ Meets start stop o.actualEnd row := by
        rw [h.actualEnd]
      simp only [readRows]
      have hcases := readRow_cases start stop hmem h.left
      have hcases' := readRow_cases start stop hmem h.right
      rw [hmeets_iff] at hcases'
      obtain ⟨hskip, -, hrun⟩ | ⟨hmeets, hsize, bytes, readBuffer, hbytes, htake, hrun⟩ |
        ⟨hmeets, hsize, -, e, readBuffer, herror, -, hrun⟩ := hcases
      · obtain ⟨-, -, hrun'⟩ | ⟨hmeets', hsize', -⟩ | ⟨hmeets', hsize', -⟩ := hcases'
        · rw [bind_ok hrun, bind_ok hrun']
          exact ih hrest h
        · exact absurd (hskip hmeets') (by omega)
        · exact absurd (hskip hmeets') (by omega)
      · obtain ⟨hskip', -⟩ | ⟨-, -, bytes', readBuffer', hbytes', htake', hrun'⟩ |
          ⟨-, -, -, e', -, herror', -⟩ := hcases'
        · exact absurd (hskip' hmeets) (by omega)
        · rw [bind_ok hrun, bind_ok hrun']
          have hsame : bytes' = bytes := congrArg Prod.fst (hbytes'.symm.trans hbytes)
          have hcopy := copyRow_congr hmem { o with readBuffer, decodedBuffer := some b }
            { o' with readBuffer := readBuffer', decodedBuffer := some b } h.buffer
            h.actualEnd hmeets htake (htake'.trans hsame)
          exact ih hrest ⟨hcopy.1, hcopy.2, holds_of_decodes hmem hsize hbytes htake,
            holds_of_decodes hmem hsize hbytes' htake'⟩
        · rw [Decodes] at hbytes
          rw [hbytes] at herror'
          cases herror'
      · obtain ⟨hskip', -⟩ | ⟨-, -, bytes', -, hbytes', -⟩ | ⟨-, -, -, e', readBuffer', herror', -,
          hrun'⟩ := hcases'
        · exact absurd (hskip' hmeets) (by omega)
        · rw [Decodes] at hbytes'
          rw [hbytes'] at herror
          cases herror
        · obtain rfl := Option.some.inj (herror.symm.trans herror')
          exact .inr ⟨e, _, _, bind_error hrun, bind_error hrun'⟩

/-- What one reader has in its read buffer after the rows, whether it threw or not. -/
theorem readRows_leaves (start stop : Int) {rows : List (RecordId × BufferRow)}
    (hrows : ∀ e ∈ rows, e ∈ c.rows) (o : Overlay)
    (hholds : Holds D c o.decodedBuffer o.readBuffer) :
    (∃ o₁, readRows D c.blobReader start stop rows o = .ok () o₁ ∧
      overwritten D c.blobReader start stop rows o.actualEnd o.decodedBuffer = none ∧
      Holds D c o₁.decodedBuffer o₁.readBuffer) ∨
    ∃ e o₁ row, readRows D c.blobReader start stop rows o = .error e o₁ ∧
      overwritten D c.blobReader start stop rows o.actualEnd o.decodedBuffer
        = o₁.decodedBuffer.map (row, ·) ∧
      ∀ b' row', (b', row') ∈ c.rows → o₁.decodedBuffer = some b' →
        row'.size ≤ maxBufferSize ∧ Decodes D c.blobReader row' (attempt D c.blobReader row').1 ∧
        o₁.readBuffer.take row'.size.toNat
          = (ByteFile.pwrite (attempt D c.blobReader row').1 0
              (attempt D c.blobReader row).1).take row'.size.toNat := by
  induction rows generalizing o with
  | nil => exact .inl ⟨o, rfl, rfl, hholds⟩
  | cons entry rows ih =>
      obtain ⟨b, row⟩ := entry
      have hmem : (b, row) ∈ c.rows := hrows _ List.mem_cons_self
      have hrest : ∀ e ∈ rows, e ∈ c.rows := fun e he => hrows e (List.mem_cons_of_mem _ he)
      simp only [readRows]
      rw [overwritten]
      obtain ⟨hskip, hdecoded, hrun⟩ | ⟨hmeets, hsize, bytes, readBuffer, hbytes, htake, hrun⟩ |
        ⟨hmeets, hsize, hdecoded, e', readBuffer, herror, hwritten, hrun⟩ :=
        readRow_cases start stop hmem hholds
      · rw [bind_ok hrun]
        split
        · next hmeets =>
            rw [if_neg (hdecoded hmeets), if_pos (hskip hmeets)]
            exact ih hrest o hholds
        · exact ih hrest o hholds
      · rw [bind_ok hrun]
        have hrest' := ih hrest
          (copyRow start (intersectionStart start row) (intersectionEnd stop row) row
            { o with readBuffer, decodedBuffer := some b })
          (holds_of_decodes hmem hsize hbytes htake)
        rw [actualEnd_copyRow] at hrest'
        rw [if_pos hmeets]
        split
        · next hcached =>
            rw [hcached]
            exact hrest'
        · rw [if_neg (by omega), if_pos (congrArg Prod.snd hbytes)]
          exact hrest'
      · rw [bind_error hrun]
        rw [if_pos hmeets, if_neg hdecoded, if_neg (by omega), if_neg (by rw [herror]; nofun)]
        refine .inr ⟨e', _, row, rfl, rfl, fun b' row' hmem' hb => ?_⟩
        obtain ⟨hsize', bytes, hbytes, -⟩ := hholds b' row' hmem' hb
        refine ⟨hsize', ?_, hwritten b' row' hmem' hb⟩
        rw [hbytes]
        exact hbytes

/-! ## A sequence of reads -/

/-- The reader after a `pread`, whether it threw or not. -/
def after (D : Decoder) (c : EncodedContent) (buffer : Bytes) (offset : Nat)
    (r : EncodedReader) : EncodedReader :=
  match pread D c buffer offset r with
  | .ok _ r' => r'
  | .error _ r' => r'

/-- The readers that a run of preads gets to, when each decoder that throws spares the blob that is
in the buffer. -/
inductive Reach (D : Decoder) (c : EncodedContent) : EncodedReader → Prop
  | create : Reach D c create
  | pread {r : EncodedReader} (h : Reach D c r) (buffer : Bytes) (offset : Nat)
      (hspares : Spares D c r buffer.length offset) : Reach D c (after D c buffer offset r)

theorem holds_create : Holds D c create.decodedBuffer create.readBuffer := nofun

theorem outcome_eq {r : EncodedReader} (h : Holds D c r.decodedBuffer r.readBuffer)
    (buffer : Bytes) (offset : Nat) :
    outcome D c buffer offset r = outcome D c buffer offset create := by
  have halong : Along D c ⟨buffer, offset, r.readBuffer, r.decodedBuffer⟩
      ⟨buffer, offset, create.readBuffer, create.decodedBuffer⟩ := ⟨rfl, rfl, h, holds_create⟩
  rw [outcome, outcome, pread, pread]
  obtain ⟨o₁, o₁', hrun, hrun', hsame⟩ | ⟨e, o₁, o₁', hrun, hrun'⟩ :=
    readRows_along offset (offset + buffer.length) (fun e (he : e ∈ c.rows) => he) halong
  · rw [hrun, hrun']
    dsimp only
    rw [hsame.actualEnd, hsame.buffer]
  · rw [hrun, hrun']

theorem holds_after_iff {r : EncodedReader} (h : Holds D c r.decodedBuffer r.readBuffer)
    (buffer : Bytes) (offset : Nat) :
    Holds D c (after D c buffer offset r).decodedBuffer (after D c buffer offset r).readBuffer ↔
      Spares D c r buffer.length offset := by
  rw [after, pread]
  obtain ⟨o, hrun, hnone, hholds⟩ | ⟨e, o, row, hrun, hrow, hleft⟩ :=
    readRows_leaves offset (offset + buffer.length) (fun e (he : e ∈ c.rows) => he)
      ⟨buffer, offset, r.readBuffer, r.decodedBuffer⟩ h
  · rw [hrun]
    refine ⟨fun _ row b hrow => ?_, fun _ => hholds⟩
    rw [hnone] at hrow
    cases hrow
  · rw [hrun, Spares, hrow]
    constructor
    · intro hholds row₀ b hsome row' hmem
      obtain ⟨b₀, hb, hpair⟩ := Option.map_eq_some_iff.mp hsome
      obtain ⟨rfl, rfl⟩ := Prod.mk.inj hpair
      obtain ⟨-, bytes, hbytes, htake⟩ := hholds b₀ row' hmem hb
      rw [← (hleft b₀ row' hmem hb).2.2, htake]
      exact (congrArg Prod.fst hbytes).symm
    · intro hspares b row' hmem hb
      obtain ⟨hsize, hbytes, htake⟩ := hleft b row' hmem hb
      refine ⟨hsize, _, hbytes, ?_⟩
      rw [htake]
      exact hspares row b (Option.map_eq_some_iff.mpr ⟨b, hb, rfl⟩) row' hmem

theorem Reach.holds {r : EncodedReader} (h : Reach D c r) :
    Holds D c r.decodedBuffer r.readBuffer := by
  induction h with
  | create => exact holds_create
  | pread _ buffer offset hspares ih => exact (holds_after_iff ih buffer offset).mpr hspares

/-- As long as no decoder that throws writes over the blob that is in the read buffer, every
`pread` gives what it gives on a file that was just opened. The read buffer has the blob that
`decoded_buffer` names until the first one does. -/
theorem pread_like_new {r : EncodedReader} (h : Reach D c r) :
    (∀ buffer offset, outcome D c buffer offset r = outcome D c buffer offset create) ∧
      Holds D c r.decodedBuffer r.readBuffer ∧
      ∀ buffer offset,
        (Holds D c (after D c buffer offset r).decodedBuffer
            (after D c buffer offset r).readBuffer ↔
          Spares D c r buffer.length offset) :=
  ⟨outcome_eq h.holds, h.holds, holds_after_iff h.holds⟩

/-- Two texts, and what `BrotliDecoderDecompress` makes of them. -/
def brotliLetters : Brotli where
  decompress encoded size :=
    if encoded = [0x0b, 0x00, 0x80, 0x61, 0x03] then (decide (1 ≤ size), [0x61].take size)
    else if encoded = [0x0b, 0x00, 0x80, 0x62, 0x03] then (decide (1 ≤ size), [0x62].take size)
    else (false, [])
  inside encoded size := by
    split
    · exact List.length_take_le _ _
    · split
      · exact List.length_take_le _ _
      · exact Nat.zero_le _

/-- The letter a, and the letter b in a row that says that it is two bytes long. -/
def letterRows : EncodedContent where
  rows := [(0, ⟨⟨0, 5⟩, 1, 0⟩), (1, ⟨⟨5, 5⟩, 2, 1⟩)]
  nodup := by decide
  int64 := by decide
  blobReader :=
    ⟨.readExisting, .whole,
      [0x0b, 0x00, 0x80, 0x61, 0x03, 0x0b, 0x00, 0x80, 0x62, 0x03], []⟩

/-- The letter a, and a row whose data have no window size and are no Brotli stream. -/
def brokenRows : EncodedContent where
  rows := [(0, ⟨⟨0, 5⟩, 1, 0⟩), (1, ⟨⟨5, 1⟩, 1, 1⟩)]
  nodup := by decide
  int64 := by decide
  blobReader := ⟨.readExisting, .whole, [0x0b, 0x00, 0x80, 0x61, 0x03, 0x11], []⟩

/-- The first row is read, then the second one, whose decoder throws before it has written
anything, then the first one again. -/
theorem pread_like_new_broken :
    outcome brotliLetters.decoder brokenRows [0] 1
        (after brotliLetters.decoder brokenRows [0] 0 create)
      = .error (.exception "Brotli decompression failed") ∧
    outcome brotliLetters.decoder brokenRows [0] 0
        (after brotliLetters.decoder brokenRows [0] 1
          (after brotliLetters.decoder brokenRows [0] 0 create))
      = outcome brotliLetters.decoder brokenRows [0] 0 create := by
  have hfirst : overwritten brotliLetters.decoder brokenRows.blobReader 0 (0 + 1) brokenRows.rows 0
      create.decodedBuffer = none := by decide +kernel
  have hsecond : overwritten brotliLetters.decoder brokenRows.blobReader 1 (1 + 1) brokenRows.rows
      1 (after brotliLetters.decoder brokenRows [0] 0 create).decodedBuffer
        = some (⟨⟨5, 1⟩, 1, 1⟩, 0) := rfl
  refine ⟨by decide +kernel, (pread_like_new (.pread (.pread .create [0] 0 ?_) [0] 1 ?_)).1 [0] 0⟩
  · intro row b h
    exact absurd (hfirst.symm.trans h) nofun
  · intro row b h row' hmem
    obtain ⟨rfl, rfl⟩ := Prod.mk.inj (Option.some.inj (hsecond.symm.trans h))
    obtain rfl : row' = ⟨⟨0, 5⟩, 1, 0⟩ := mem_unique (c := brokenRows) hmem List.mem_cons_self
    decide +kernel

/-- The first row is read, then the second one, whose decoder throws, then the first one again: it
is the letter that the decoder that threw has left. -/
theorem pread_after_failed_decode :
    ¬ ∀ (D : Decoder) (c : EncodedContent) (preads : List (Bytes × Nat)) (buffer : Bytes)
        (offset : Nat),
      outcome D c buffer offset (preads.foldl (fun r p => after D c p.1 p.2 r) create)
        = outcome D c buffer offset create := by
  intro h
  have hsame := h brotliLetters.decoder letterRows [([0], 0), ([0], 1)] [0] 0
  exact absurd hsame (by decide +kernel)

end EncodedReader

end Joedb
