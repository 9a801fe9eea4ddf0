import Joedb.Journal.Following
import Joedb.Journal.HeldCheckpoints

/-!
# What a journal writes, and where

A writer at work is at its checkpoint or behind it, so its data leaves what lies
below alone, and a checkpoint is words of the header. `SameUpTo` says so of the
bytes of the file before and after. Nothing here needs the position to lie in
the file: a blob of a size that was made up sends a reader past the end of it.
-/

namespace Joedb

open ByteFile FileBuffer StateExcept

/-- The bytes between the header and `stop` are the same. -/
structure SameUpTo (stop : Nat) (f f' : Bytes) : Prop where
  grows : f.length ≤ f'.length
  same : ∀ k, headerSize ≤ k → k < stop → k < f.length → f'[k]? = f[k]?

namespace SameUpTo

variable {stop stop' : Nat} {f f' f'' : Bytes}

theorem refl (stop : Nat) (f : Bytes) : SameUpTo stop f f := ⟨Nat.le_refl _, fun _ _ _ _ => rfl⟩

theorem trans (h : SameUpTo stop f f') (h' : SameUpTo stop f' f'') : SameUpTo stop f f'' := by
  refine ⟨Nat.le_trans h.grows h'.grows, fun k hheader hstop hk => ?_⟩
  rw [h'.same k hheader hstop (Nat.lt_of_lt_of_le hk h.grows), h.same k hheader hstop hk]

theorem mono (h : SameUpTo stop f f') (hle : stop' ≤ stop) : SameUpTo stop' f f' :=
  ⟨h.grows, fun k hheader hk => h.same k hheader (Nat.lt_of_lt_of_le hk hle)⟩

/-- There is nothing between the header and its end. -/
theorem of_header (h : SameUpTo stop f f') (hle : stop' ≤ headerSize) : SameUpTo stop' f f' :=
  ⟨h.grows, fun k hheader hk => absurd hk (by omega)⟩

/-- A write that starts behind, also with a gap. -/
theorem pwrite_behind {off : Nat} (h : stop ≤ off) (f bs : Bytes) :
    SameUpTo stop f (pwrite f off bs) := by
  refine ⟨length_le_pwrite f off bs, fun k _ hk hlen => ?_⟩
  have htake : (pwrite f off bs).take (k + 1) = f.take (k + 1) :=
    take_pwrite_of_le (by omega) hlen bs
  have hget := congrArg (·[k]?) htake
  simpa [List.getElem?_take] using hget

/-- A write into the header. -/
theorem pwrite_header {off : Nat} {bs : Bytes} (h : off + bs.length ≤ headerSize) (stop : Nat)
    (f : Bytes) : SameUpTo stop f (pwrite f off bs) := by
  refine ⟨length_le_pwrite f off bs, fun k hheader _ hlen => ?_⟩
  rw [getElem?_pwrite (by omega), if_neg (by omega)]

/-- What lies between the header and the end of both. -/
theorem slice {stop : Nat} {f f' : Bytes} (h : SameUpTo stop f f') {a b : Nat}
    (ha : headerSize ≤ a) (hb : b ≤ stop) (hlen : b ≤ f.length) :
    ByteFile.slice f' a b = ByteFile.slice f a b := by
  apply List.ext_getElem?
  intro k
  rw [getElem?_slice, getElem?_slice]
  split
  · exact h.same _ (by omega) (by omega) (by omega)
  · rfl

end SameUpTo

namespace File

theorem pwriteAll_sameUpTo {stop off : Nat} (h : stop ≤ off) (f : File) (cs : List Bytes) :
    SameUpTo stop f.data (f.pwriteAll off cs).data := by
  induction cs generalizing f off with
  | nil => exact .refl _ _
  | cons c cs ih =>
      have hone : SameUpTo stop f.data (f.pwrite off c).data := .pwrite_behind h f.data c
      exact hone.trans (ih (Nat.le_add_right_of_le h) (f.pwrite off c))

theorem copyToGo_sameUpTo (source : File) (fuel : Nat) {stop start : Nat} (h : stop ≤ start)
    (f : File) (size : Nat) : SameUpTo stop f.data (source.copyToGo fuel f start size).1.data := by
  induction fuel generalizing f start size with
  | zero => exact .refl _ _
  | succ fuel ih =>
      rw [copyToGo]
      simp only []
      split
      · exact .refl _ _
      · split
        · exact .refl _ _
        · have hone : SameUpTo stop f.data
              (f.pwrite start (source.pread (min 4096 size) start)).data :=
            .pwrite_behind h f.data _
          exact hone.trans (ih (Nat.le_add_right_of_le h) _ _)

/-- A word of the header. -/
theorem pwrite_word_sameUpTo (f : File) {k : Nat} (hk : k < 4) (x : Int) (stop : Nat) :
    SameUpTo stop f.data (f.pwrite (8 * k) (encodeInt64 x)).data :=
  .pwrite_header (by rw [length_encodeInt64, headerSize]; omega) _ _

end File

namespace FileBuffer

theorem Appends.sameUpTo {b b' : FileBuffer} {bs : Bytes} (h : b.Appends bs b') {stop : Nat}
    (hstop : stop ≤ b.position) : SameUpTo stop b.file.data b'.file.data := by
  obtain ⟨cs, hfile, -, -⟩ := h.chunks
  rw [hfile]
  exact File.pwriteAll_sameUpTo hstop _ _

/-- `File_Buffer::~File_Buffer`. -/
def destroy (b : FileBuffer) : FileBuffer := if b.bufferHasWriteData then b.writeBuffer else b

theorem Consuming.noWriteData {b : FileBuffer} (h : b.Consuming) :
    b.bufferHasWriteData = false := by
  have hindex := h.index_le
  rw [bufferHasWriteData]
  rcases Nat.eq_zero_or_pos b.index with hzero | hpos
  · simp [hzero]
  · have hsome : b.readBufferSize ≠ 0 := by omega
    simp [hsome]

theorem Consuming.flush {b : FileBuffer} (h : b.Consuming) :
    b.flush.Idle ∧ b.flush.file = b.file ∧ b.flush.position = b.getPosition := by
  rw [flush_of_consuming h]
  exact ⟨⟨rfl, rfl⟩, rfl, rfl⟩

end FileBuffer

namespace Journal

/-- The writer is at work: it is not behind its checkpoint. -/
structure Working (j : Journal) : Prop where
  writing : j.fileBuffer.Writing
  checkpoint_le : j.getCheckpoint ≤ j.fileBuffer.position

/-- Either at work, or reading, wherever that is. -/
def Guarded (j : Journal) : Prop := j.fileBuffer.Consuming ∨ j.Working

variable {j : Journal}

/-- With nothing behind its checkpoint, a journal has nothing to write. -/
theorem Guarded.consuming (h : j.Guarded) (hpos : j.getPosition ≤ j.getCheckpoint) :
    j.fileBuffer.Consuming := by
  rcases h with hconsuming | hworking
  · exact hconsuming
  · have hcp := hworking.checkpoint_le
    rw [getPosition, hworking.writing.getPosition] at hpos
    exact Idle.consuming ⟨hworking.writing.noRead, by omega⟩

/-- What becomes of a journal that writes behind its checkpoint only. -/
structure Grows (j j' : Journal) : Prop where
  working : j'.Working
  same : SameUpTo j.getCheckpoint j.file.data j'.file.data

theorem Working.writes (h : j.Working) {j' : Journal} {bs : Bytes}
    (happ : j.fileBuffer.Appends bs j'.fileBuffer) (hc : j'.checkpoints = j.checkpoints) :
    j.Grows j' := by
  refine ⟨⟨happ.writing, ?_⟩, happ.sameUpTo h.checkpoint_le⟩
  rw [getCheckpoint, hc]
  exact Nat.le_trans h.checkpoint_le happ.position_le

theorem Working.flush (h : j.Working) : j.Grows j.flush :=
  h.writes (flush_appends h.writing).1 rfl

theorem Working.flush_position (h : j.Working) :
    j.flush.fileBuffer.position = j.getPosition := by
  have happ := flush_appends h.writing
  have hpos := happ.1.getPosition h.writing
  rw [(flush_idle_of_writing h.writing).getPosition, List.length_nil, Nat.add_zero] at hpos
  exact hpos

/-- Whatever is flushed before it, a checkpoint is a word of the header. -/
theorem softCheckpointAt_sameUpTo {stop : Nat}
    (h : SameUpTo stop j.file.data j.flush.file.data) (p : Nat) :
    SameUpTo stop j.file.data (j.softCheckpointAt p).file.data := by
  rcases Nat.lt_or_ge j.getCheckpoint p with hlt | hge
  · rw [softCheckpointAt_of_lt hlt]
    exact h.trans (j.flush.file.pwrite_word_sameUpTo (wordIndex_lt _ _) _ _)
  · rw [softCheckpointAt_of_le hge]
    exact .refl _ _

theorem hardCheckpointAt_sameUpTo {stop : Nat}
    (h : SameUpTo stop j.file.data j.flush.file.data) (p : Nat) :
    SameUpTo stop j.file.data (j.hardCheckpointAt p).file.data := by
  rcases Nat.lt_or_ge j.getHardCheckpoint p with hlt | hge
  · rw [hardCheckpointAt_of_lt hlt]
    exact (h.trans (j.flush.file.pwrite_word_sameUpTo (wordIndex_lt _ _) _ _)).trans
      (File.pwrite_word_sameUpTo _ (wordIndex_lt _ _) _ _)
  · rw [hardCheckpointAt_of_le hge]
    exact .refl _ _

theorem Working.softCheckpointAt (h : j.Working) {p : Nat} (hp : p ≤ j.getPosition) :
    j.Grows (j.softCheckpointAt p) := by
  refine ⟨?_, softCheckpointAt_sameUpTo h.flush.same p⟩
  rcases Nat.lt_or_ge j.getCheckpoint p with hlt | hge
  · have hwriting := h.flush.working.writing
    rw [softCheckpointAt_of_lt hlt]
    exact ⟨⟨hwriting.noRead, hwriting.index_le, hwriting.index_lt⟩,
      Nat.le_trans hp (Nat.le_of_eq h.flush_position.symm)⟩
  · rw [softCheckpointAt_of_le hge]
    exact h

theorem Working.hardCheckpointAt (h : j.Working) {p : Nat} (hp : p ≤ j.getPosition) :
    j.Grows (j.hardCheckpointAt p) := by
  refine ⟨?_, hardCheckpointAt_sameUpTo h.flush.same p⟩
  rcases Nat.lt_or_ge j.getHardCheckpoint p with hlt | hge
  · have hwriting := h.flush.working.writing
    rw [hardCheckpointAt_of_lt hlt]
    exact ⟨⟨hwriting.noRead, hwriting.index_le, hwriting.index_lt⟩,
      Nat.le_trans hp (Nat.le_of_eq h.flush_position.symm)⟩
  · rw [hardCheckpointAt_of_le hge]
    exact h

/-- Whatever a writer does, if its checkpoints are for data that was written. -/
theorem Working.act (h : j.Working) {a : Action} (ha : ∀ p ∈ a.target, p ≤ j.getPosition) :
    j.Grows (j.act a) := by
  cases a with
  | perform op =>
      exact h.writes (perform_performs h.writing op).appends
        (perform_performs h.writing op).checkpoints
  | flush => exact h.flush
  | softCheckpointAt p => exact h.softCheckpointAt (ha p rfl)
  | hardCheckpointAt p => exact h.hardCheckpointAt (ha p rfl)

/-- The next of two, when the checkpoint does not go back between them. -/
theorem Grows.trans {j' j'' : Journal} (h : j.Grows j') (h' : j'.Grows j'')
    (hle : j.getCheckpoint ≤ j'.getCheckpoint) : j.Grows j'' :=
  ⟨h'.working, h.same.trans (h'.same.mono hle)⟩

/-- What becomes of a journal that only reads, while data is put behind its
checkpoint. -/
structure Receives (j j' : Journal) : Prop where
  consuming : j'.fileBuffer.Consuming
  checkpoint_le : j.getCheckpoint ≤ j'.getCheckpoint
  same : SameUpTo j.getCheckpoint j.file.data j'.file.data

theorem Receives.refl (h : j.fileBuffer.Consuming) : j.Receives j :=
  ⟨h, Nat.le_refl _, .refl _ _⟩

theorem Receives.trans {j' j'' : Journal} (h : j.Receives j') (h' : j'.Receives j'') :
    j.Receives j'' :=
  ⟨h'.consuming, Nat.le_trans h.checkpoint_le h'.checkpoint_le,
    h.same.trans (h'.same.mono h.checkpoint_le)⟩

theorem receives_withFile (h : j.fileBuffer.Consuming) {f : File}
    (hf : SameUpTo j.getCheckpoint j.file.data f.data) : j.Receives (j.withFile f) :=
  ⟨⟨h.index_le, h.size_le⟩, Nat.le_refl _, hf⟩

theorem receives_softCheckpointAt (h : j.fileBuffer.Consuming) (p : Nat) :
    j.Receives (j.softCheckpointAt p) := by
  obtain ⟨hidle, hfile, -⟩ := h.flush
  have hflush : j.flush.file = j.file := hfile
  refine ⟨?_, ?_, softCheckpointAt_sameUpTo (by rw [hflush]; exact .refl _ _) p⟩
  · rcases Nat.lt_or_ge j.getCheckpoint p with hlt | hge
    · rw [softCheckpointAt_of_lt hlt]
      exact ⟨hidle.consuming.index_le, hidle.consuming.size_le⟩
    · rw [softCheckpointAt_of_le hge]
      exact h
  · rcases Nat.lt_or_ge j.getCheckpoint p with hlt | hge
    · rw [softCheckpointAt_of_lt hlt]
      exact Nat.le_of_lt hlt
    · rw [softCheckpointAt_of_le hge]

theorem receives_pullFrom (h : j.fileBuffer.Consuming) (source : Journal) (until_ : Nat) :
    j.Receives (after (pullFrom source until_) j) := by
  have hcopied : j.Receives (j.withFile
      (source.file.copyTo j.file j.getCheckpoint (until_ - j.getCheckpoint)).1) :=
    receives_withFile h (source.file.copyToGo_sameUpTo _ (Nat.le_refl _) _ _)
  unfold after pullFrom
  simp only []
  split
  · next n j' hrun =>
      split at hrun
      · split at hrun
        · obtain ⟨-, rfl⟩ := EStateM.Result.ok.inj hrun
          exact hcopied.trans (receives_softCheckpointAt hcopied.consuming until_)
        · cases hrun
      · obtain ⟨-, rfl⟩ := EStateM.Result.ok.inj hrun
        exact .refl h
  · next e j' hrun =>
      split at hrun
      · split at hrun
        · cases hrun
        · obtain ⟨-, rfl⟩ := EStateM.Result.error.inj hrun
          exact hcopied
      · cases hrun

/-- What a pull under the lock finds. -/
structure Finds (j j' : Journal) : Prop where
  buffer : j'.fileBuffer = j.fileBuffer
  checkpoint_le : j.getCheckpoint ≤ j'.getCheckpoint

theorem Finds.refl (j : Journal) : j.Finds j := ⟨rfl, Nat.le_refl _⟩

theorem Finds.trans (j j' j'' : Journal) (h : j.Finds j') (h' : j'.Finds j'') : j.Finds j'' :=
  ⟨h'.buffer.trans h.buffer, Nat.le_trans h.checkpoint_le h'.checkpoint_le⟩

theorem finds_pullWithoutLocking : Keeps Finds pullWithoutLocking := by
  intro j
  unfold after pullWithoutLocking
  simp only []
  cases (j.file.fullPread 32 0).2 with
  | true => exact ⟨rfl, Checkpoints.le_readCheckpoint_cp _ _ _⟩
  | false => exact .refl j

theorem finds_lockPull : Keeps Finds lockPull :=
  keeps_bind Finds.trans (keeps_get Finds.refl) fun _ =>
    keeps_ite finds_pullWithoutLocking (keeps_pure Finds.refl ())

/-- On a shared file, a pull under the lock gets to whatever the header tells. -/
theorem le_of_lockPull {j' : Journal} (hshared : j.isShared = true) {p : Nat}
    (hp : Holds (headerWord j.file.data) p) (hpull : lockPull j = .ok () j') :
    p ≤ j'.getCheckpoint ∨ p ≤ headerSize := by
  rw [lockPull, get_bind_run, if_pos hshared, pullWithoutLocking, File.fullPread_eq] at hpull
  simp only [] at hpull
  split at hpull
  · obtain ⟨-, rfl⟩ := EStateM.Result.ok.inj hpull
    have hword : ∀ k < 4, headerWord (slice j.file.data 0 (0 + 32)) k
        = headerWord j.file.data k := by
      intro k hk
      rw [headerWord, slice_slice (by omega), Nat.zero_add, Nat.zero_add, headerWord]
    obtain rfl | hhard | hsoft := hp.congr hword
    · exact .inr (Nat.le_refl _)
    · exact .inl (Nat.le_trans (Checkpoints.le_readCheckpoint_hard hhard)
        Checkpoints.hard_le_readCheckpoint)
    · exact .inl (Checkpoints.le_readCheckpoint_soft hsoft (.inl (by decide)))
  · cases hpull

end Journal

end Joedb
