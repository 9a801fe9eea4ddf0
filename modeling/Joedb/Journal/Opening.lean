import Joedb.Journal.Session

/-!
# Opening a journal

What the constructors make of a file: a journal at the first operation, with an
empty context, and the two checkpoints of the header. A journal that is opened
for writing has read the same; it writes only where a word of the header is not
to be believed.
-/

namespace Joedb

open ByteFile FileBuffer

/-- A file that starts with a header of this format. -/
structure HasHeader (data : Bytes) : Prop where
  length : headerSize ≤ data.length
  version : leDecode (slice data 32 36) = formatVersion
  signature : slice data 36 41 = signature

/-- Writes behind the checkpoint words leave the rest of the header alone. -/
theorem HasHeader.of_slice {f f' : Bytes} (h : HasHeader f)
    (hlen : f.length ≤ f'.length) (hsame : slice f' 32 41 = slice f 32 41) :
    HasHeader f' := by
  have hsub : ∀ {a b}, 32 ≤ a → b ≤ 41 → slice f' a b = slice f a b := by
    intro a b ha hb
    have hcut := congrArg (slice · (a - 32) (b - 32)) hsame
    rw [slice_slice (by omega), slice_slice (by omega)] at hcut
    rcases Nat.lt_or_ge b a with hlt | hge
    · rw [slice_eq_nil (Nat.le_of_lt hlt), slice_eq_nil (Nat.le_of_lt hlt)]
    · rwa [show 32 + (a - 32) = a by omega, show 32 + (b - 32) = b by omega] at hcut
  exact ⟨Nat.le_trans h.length hlen, by rw [hsub (by omega) (by omega)]; exact h.version,
    by rw [hsub (by omega) (by omega)]; exact h.signature⟩

theorem HasHeader.pwrite_word {f : Bytes} (h : HasHeader f) {i : Nat} (hi : i < 4)
    (x : Int) : HasHeader (pwrite f (8 * i) (encodeInt64 x)) :=
  h.of_slice (Nat.le_of_eq (length_pwrite_word h.length hi x).symm)
    (slice_pwrite_word h.length hi x (Nat.le_refl _))

theorem HasHeader.pwrite_behind {f : Bytes} (h : HasHeader f) {off : Nat}
    (hoff : off ≤ f.length) (hle : headerSize ≤ off) (bs : Bytes) :
    HasHeader (pwrite f off bs) :=
  h.of_slice (length_le_pwrite f off bs) (slice_pwrite_of_disjoint hoff (.inl hle))

/-- The header of a new journal. -/
theorem hasHeader_initial : HasHeader Header.initial.bytes :=
  ⟨by decide, by decide, by decide⟩

theorem headerWord_initial {k : Nat} (hk : k < 4) :
    headerWord Header.initial.bytes k = headerSize := by
  have hall : ∀ k < 4, headerWord Header.initial.bytes k = headerSize := by decide
  exact hall k hk

namespace Journal

variable {file : File}

theorem fullPread_header (h : headerSize ≤ file.data.length) :
    file.fullPread headerSize 0 = (slice file.data 0 headerSize, true) := by
  rw [File.fullPread_eq, Nat.zero_add, decide_eq_true (.inr h)]

theorem lockHeader_eq (h : headerSize ≤ file.data.length) :
    lockHeader file = .ofBytes (slice file.data 0 headerSize) := by
  rw [lockHeader, fullPread_header h]

theorem lockHeader_checkpoint (h : headerSize ≤ file.data.length) {k : Nat} (hk : k < 4) :
    (lockHeader file).checkpoint k = headerWord file.data k := by
  rw [lockHeader_eq h]
  show decodeInt64 (slice (slice file.data 0 headerSize) (8 * k) (8 * k + 8)) = _
  rw [slice_slice (by rw [headerSize]; omega), Nat.zero_add, Nat.zero_add, headerWord]

theorem lockHeader_version (h : headerSize ≤ file.data.length) :
    (lockHeader file).version = leDecode (slice file.data 32 36) := by
  rw [lockHeader_eq h]
  show leDecode (slice (slice file.data 0 headerSize) 32 36) = _
  rw [slice_slice (by decide)]

theorem lockHeader_signature (h : headerSize ≤ file.data.length) :
    (lockHeader file).signature = slice file.data 36 41 := by
  rw [lockHeader_eq h]
  show slice (slice file.data 0 headerSize) 36 41 = _
  rw [slice_slice (by decide)]

theorem lockHeader_valid (h : HasHeader file.data) :
    (lockHeader file).version = formatVersion ∧ (lockHeader file).signature = signature :=
  ⟨(lockHeader_version h.length).trans h.version,
    (lockHeader_signature h.length).trans h.signature⟩

/-- Past the checks of the format, the checkpoints are those of the four
words. -/
theorem openCheckpoints_eq (h : HasHeader file.data) {recovery : Recovery}
    (hr : recovery ≠ .ignoreHeader) :
    openCheckpoints file recovery =
      let c := Checkpoints.initial.readCheckpoint (lockHeader file).checkpoint file.getSize
      if file.getSize > 0 ∧ file.getSize < c.checkpointPosition then
        .error (.exception "Checkpoint is bigger than file size")
      else .ok c := by
  obtain ⟨hversion, hsig⟩ := lockHeader_valid h
  rw [openCheckpoints, if_neg hr, if_neg (by rw [hsig]; exact fun hne => hne rfl),
    if_neg (by rw [hversion]; exact fun hne => hne rfl)]

/-- A journal as the constructor leaves it: `c` is what its header says. -/
structure Opened (file : File) (c : Checkpoints) (j : Journal) : Prop where
  file_eq : j.file = file
  idle : j.fileBuffer.Idle
  position : j.fileBuffer.position = headerSize
  context : j.context = .reset
  hardCheckpoint : j.getHardCheckpoint = c.hardCheckpointPosition
  checkpoint : j.getCheckpoint = c.checkpointPosition
  agrees : Agrees (headerWord file.data) j.checkpoints

theorem openReadonly_opened (h : HasHeader file.data) {c : Checkpoints}
    (hc : Agrees (headerWord file.data) c)
    (hsize : c.checkpointPosition ≤ file.data.length) (recovery : Recovery)
    (hr : recovery ≠ .ignoreHeader) (forWritable : Bool) :
    ∃ j, openReadonly file recovery forWritable = .ok j ∧ Opened file c j := by
  have hlen : 41 ≤ file.data.length := h.length
  have hlock : Agrees (lockHeader file).checkpoint c :=
    hc.congr fun k hk => lockHeader_checkpoint h.length hk
  obtain ⟨hhard, hcp, hagrees⟩ := Checkpoints.readCheckpoint_agrees
    (n := file.getSize) hlock (.inr (by
      rw [File.getSize]; omega)) hlock.header_le (Nat.le_refl _)
    (Nat.le_trans hlock.header_le hlock.hard_le)
    (by decide : 0 < Checkpoints.initial.checkpointPosition)
  have hidle := setPosition_idle (create_idle file) headerSize
  rw [openReadonly, if_pos (by rw [File.getSize]; omega), fullPread_header h.length,
    if_pos rfl, openCheckpoints_eq h hr]
  simp only []
  rw [if_neg (by rw [hcp, File.getSize]; omega)]
  exact ⟨_, rfl, hidle.2.2, hidle.1, hidle.2.1, rfl, hhard, hcp,
    hagrees.congr fun k hk => (lockHeader_checkpoint h.length hk).symm⟩

/-- A header whose soft checkpoints all lie in the file needs no repair. -/
theorem foldl_repairWord {w : Nat → Int} {c : Checkpoints} (hc : Agrees w c) {size : Nat}
    (hsize : c.checkpointPosition ≤ size) {header : Header}
    (hheader : ∀ k < 4, header.checkpoint k = w k) (j : Journal) :
    [0, 1, 2, 3].foldl (repairWord header size) j = j := by
  have hword : ∀ k < 4, ∀ j, repairWord header size j k = j := by
    intro k hk j
    obtain ⟨i, s, rfl⟩ : ∃ i s, k = wordIndex i s := by
      have hall : ∀ k < 4, ∃ i s, k = wordIndex i s := by decide
      exact hall k hk
    have hlt := hc.lt_max
    have hlow := hc.le_word i s
    rw [repairWord, hheader _ hk, neg_of_lt (by omega), if_neg (by omega)]
  simp only [List.foldl_cons, List.foldl_nil]
  rw [hword 0 (by decide), hword 1 (by decide), hword 2 (by decide), hword 3 (by decide)]

theorem openWritable_opened (h : HasHeader file.data) {c : Checkpoints}
    (hc : Agrees (headerWord file.data) c)
    (hsize : c.checkpointPosition ≤ file.data.length) (recovery : Recovery)
    (hr : recovery ≠ .ignoreHeader)
    (htail : file.data.length = c.checkpointPosition ∨ recovery = .overwrite)
    (hmode : file.isReadonly = false) :
    ∃ j, openWritable file recovery = .ok j ∧ Opened file c j := by
  obtain ⟨j, hopen, hj⟩ := openReadonly_opened h hc hsize recovery hr true
  have hlen : 41 ≤ file.data.length := h.length
  refine ⟨j, ?_, hj⟩
  rw [openWritable, hopen]
  simp only [hmode, Bool.false_eq_true, if_false]
  have hrepair := foldl_repairWord hc (show c.checkpointPosition ≤ file.getSize from hsize)
    (fun k hk => lockHeader_checkpoint h.length hk) j
  rw [if_neg (by rw [File.getSize]; omega), if_neg, hrepair]
  rw [hj.checkpoint, File.getSize]
  rcases htail with heq | hover
  · omega
  · exact fun hne => hne.2 hover

/-- Whatever opened for writing has read what its header says. -/
theorem opened_of_openWritable (h : HasHeader file.data) {c : Checkpoints}
    (hc : Agrees (headerWord file.data) c)
    (hsize : c.checkpointPosition ≤ file.data.length) {recovery : Recovery}
    (hr : recovery ≠ .ignoreHeader) {j : Journal}
    (hopen : openWritable file recovery = .ok j) : Opened file c j := by
  obtain ⟨j', hread, hj'⟩ := openReadonly_opened h hc hsize recovery hr true
  have hlen : 41 ≤ file.data.length := h.length
  have hok := hopen
  rw [openWritable, hread] at hok
  simp only [] at hok
  split at hok
  · cases hok
  · next hmode =>
      rw [if_neg (by rw [File.getSize]; omega)] at hok
      split at hok
      · cases hok
      · next htail =>
          have htail' : file.data.length = c.checkpointPosition ∨ recovery = .overwrite := by
            rw [hj'.checkpoint, File.getSize] at htail
            by_cases hover : recovery = .overwrite
            · exact .inr hover
            · exact .inl (Nat.le_antisymm
                (Nat.not_lt.mp fun hgt => htail ⟨hgt, hover⟩) hsize)
          obtain ⟨j'', hopen', hj''⟩ := openWritable_opened h hc hsize recovery hr htail'
            (Bool.eq_false_iff.mpr hmode)
          rw [hopen] at hopen'
          exact Except.ok.inj hopen' ▸ hj''

theorem headerWord_range (f : Bytes) (k : Nat) :
    -(2 ^ 63) ≤ headerWord f k ∧ headerWord f k < 2 ^ 63 :=
  decodeInt64_range (by rw [length_slice]; omega)

/-- The calls by which an opening takes back a soft checkpoint that lies past
the end of the file. -/
def repairCalls (header : Header) (size checkpoint i : Nat) : List Call :=
  if neg (header.checkpoint i) > size then
    [.pwrite (8 * i) (encodeInt64 (neg checkpoint)), .datasync]
  else []

/-- What a journal is when an opening has been through, whatever the words are:
only the format is checked. -/
structure Read (file : File) (c : Checkpoints) (j : Journal) : Prop where
  header : HasHeader file.data
  checkpoints_eq : c = Checkpoints.initial.readCheckpoint (lockHeader file).checkpoint file.getSize
  size : c.checkpointPosition ≤ file.data.length
  checkpoints : j.checkpoints = c
  idle : j.fileBuffer.Idle

theorem read_of_openReadonly {recovery : Recovery} (hr : recovery ≠ .ignoreHeader)
    (hne : file.data ≠ []) {forWritable : Bool} {j : Journal}
    (hopen : openReadonly file recovery forWritable = .ok j) :
    j.file = file ∧ ∃ c, Read file c j := by
  have hpos : 0 < file.data.length := List.length_pos_iff.mpr hne
  have hsize : file.getSize ≠ 0 := Nat.pos_iff_ne_zero.mp hpos
  have hidle := setPosition_idle (create_idle file) headerSize
  rw [openReadonly, if_pos hsize] at hopen
  split at hopen
  · next hfull =>
      have hlen : headerSize ≤ file.data.length := by
        rw [File.fullPread_eq, Nat.zero_add] at hfull
        rcases of_decide_eq_true hfull with hz | hle
        · exact absurd hz (by decide)
        · exact hle
      rw [openCheckpoints, if_neg hr] at hopen
      split at hopen
      · cases hopen
      · next c hc =>
          obtain rfl := Except.ok.inj hopen
          split at hc
          · cases hc
          · next hsig =>
              split at hc
              · cases hc
              · next hversion =>
                  simp only [] at hc
                  split at hc
                  · cases hc
                  · next hle =>
                      obtain rfl := Except.ok.inj hc
                      rw [lockHeader_version hlen] at hversion
                      rw [lockHeader_signature hlen] at hsig
                      exact ⟨hidle.2.2, _, ⟨hlen, Decidable.not_not.mp hversion,
                        Decidable.not_not.mp hsig⟩, rfl,
                        Nat.not_lt.mp fun hlt => hle ⟨hpos, hlt⟩, rfl, hidle.1⟩
  · cases hopen

/-- A new journal: one write, the header. -/
theorem openWritable_new (hempty : file.data = []) (hmode : file.isReadonly = false)
    (recovery : Recovery) :
    ∃ j, openWritable file recovery = .ok j ∧ j.Ready ∧ j.body = [] ∧
      j.file = file.pwrite 0 Header.initial.bytes ∧ j.file.data = Header.initial.bytes ∧
      j.checkpoints = .initial ∧ j.context = .reset ∧ j.fileBuffer.Idle ∧
      j.fileBuffer.position = headerSize := by
  have hsize : file.getSize = 0 := by rw [File.getSize, hempty]; rfl
  have hdata : (file.pwrite 0 Header.initial.bytes).data = Header.initial.bytes := by
    rw [File.pwrite_data, hempty]; decide
  have hlen : Header.initial.bytes.length = 41 := by decide
  have hopen : openWritable file recovery
      = .ok ((blank file).put (·.iteratorWrite Header.initial.bytes)) := by
    rw [openWritable, openReadonly, if_neg (by rw [hsize]; exact fun h => h rfl)]
    simp only [Bool.not_true, Bool.false_eq_true, if_false, hmode, hsize, if_true]
  have hpos : ((blank file).put (·.iteratorWrite Header.initial.bytes)).fileBuffer.position
      = headerSize := by
    show 0 + Header.initial.bytes.length = headerSize
    rw [hlen]; rfl
  refine ⟨_, hopen, ?_, ?_, rfl, hdata, rfl, rfl, ⟨rfl, rfl⟩, hpos⟩
  · refine ⟨⟨rfl, Nat.le_refl _, bufferSize_pos⟩, ?_, Nat.le_refl _, Nat.le_refl _, ?_⟩
    · rw [hpos]
      show headerSize ≤ (file.pwrite 0 Header.initial.bytes).data.length
      rw [hdata, hlen]; decide
    · rw [hpos]; exact Nat.le_refl _
  · rw [body, hpos, slice_self]; rfl

end Journal

end Joedb
