import Joedb.Journal.Readers

/-!
# What playing does to a journal

Whatever the bytes are, and whether it ends or throws, playing writes nothing
and never goes back, and when it ends the journal is where it was to be played
to, between reading and writing. What was read ahead need not be what is in the
file any more: another process may have written since.
-/

namespace Joedb

open ByteFile StateExcept

namespace FileBuffer

/-- The index has not run past what was read ahead. -/
structure Consuming (b : FileBuffer) : Prop where
  index_le : b.index ≤ b.readBufferSize
  size_le : b.readBufferSize ≤ b.position

theorem Idle.consuming {b : FileBuffer} (h : b.Idle) : b.Consuming :=
  ⟨by rw [h.noIndex]; exact Nat.zero_le _, by rw [h.noRead]; exact Nat.zero_le _⟩

/-- What a read leaves. -/
structure Forth (b b' : FileBuffer) : Prop where
  consuming : b'.Consuming
  file : b'.file = b.file
  position_le : b.getPosition ≤ b'.getPosition

theorem Forth.trans {b b' b'' : FileBuffer} (h : b.Forth b') (h' : b'.Forth b'') : b.Forth b'' :=
  ⟨h'.consuming, h'.file.trans h.file, Nat.le_trans h.position_le h'.position_le⟩

/-- The relation that reads keep. -/
def Consumes (b b' : FileBuffer) : Prop := b.Consuming → b.Forth b'

theorem Consumes.refl (b : FileBuffer) : b.Consumes b := fun h => ⟨h, rfl, Nat.le_refl _⟩

theorem Consumes.trans (b b' b'' : FileBuffer) (h : b.Consumes b') (h' : b'.Consumes b'') :
    b.Consumes b'' := fun hb => (h hb).trans (h' (h hb).consuming)

theorem fullRead_forth {b : FileBuffer} (h : b.Consuming) (got : Bytes) (n : Nat) :
    b.Forth (b.fullRead got n).2.2 ∧ ((b.fullRead got n).2.1 = true →
      (b.fullRead got n).2.2.getPosition = b.getPosition + n) := by
  have hindex := h.index_le
  have hsize := h.size_le
  rw [fullRead]
  cases hfull : (b.file.fullPread n b.position).2 with
  | true =>
      simp only [if_true]
      refine ⟨⟨⟨hindex, Nat.le_trans hsize (Nat.le_add_right _ _)⟩, rfl, ?_⟩, fun _ => ?_⟩
      all_goals simp only [getPosition]; omega
  | false =>
      simp only [Bool.false_eq_true, if_false]
      exact ⟨⟨h, rfl, Nat.le_refl _⟩, fun hfalse => hfalse.elim⟩

/-- A refill starts where the last one ended. -/
theorem readBuffer_forth (b : FileBuffer) {m : Nat} (hm : m ≤ b.readBuffer.readBufferSize) :
    ({ b.readBuffer with index := m } : FileBuffer).Consuming ∧
      ({ b.readBuffer with index := m } : FileBuffer).getPosition = b.position + m := by
  refine ⟨⟨hm, Nat.le_add_left _ _⟩, ?_⟩
  simp only [getPosition, readBuffer]
  omega

theorem readDataInto_forth {b : FileBuffer} (h : b.Consuming) (n : Nat) :
    b.Forth (b.readDataInto n).2.2 ∧ ((b.readDataInto n).2.1 = true →
      (b.readDataInto n).2.2.getPosition = b.getPosition + n) := by
  have hindex := h.index_le
  have hsize := h.size_le
  have hposition : b.getPosition + (b.readBufferSize - b.index) = b.position := by
    rw [getPosition]
    omega
  rw [readDataInto]
  split
  · next hn =>
      refine ⟨⟨⟨hn, hsize⟩, rfl, ?_⟩, fun _ => ?_⟩
      all_goals simp only [getPosition]; omega
  · next hn =>
      obtain ⟨consumed, hconsumed⟩ : ∃ consumed : FileBuffer,
          consumed = { b with index := b.index + (b.readBufferSize - b.index) } := ⟨_, rfl⟩
      have hfile : consumed.file = b.file := by rw [hconsumed]
      have hend : consumed.position = b.position := by rw [hconsumed]
      simp only []
      rw [← hconsumed]
      split
      · split
        · next hnone =>
            obtain ⟨hconsuming, hpos⟩ := consumed.readBuffer_forth (Nat.zero_le _)
            refine ⟨⟨hconsuming, hfile, ?_⟩, fun hread => Bool.noConfusion hread⟩
            show b.getPosition ≤ ({ consumed.readBuffer with index := 0 } : FileBuffer).getPosition
            omega
        · obtain ⟨hconsuming, hpos⟩ := consumed.readBuffer_forth (Nat.min_le_right
            (n - (b.readBufferSize - b.index)) consumed.readBuffer.readBufferSize)
          obtain ⟨hforth, hok⟩ := fullRead_forth hconsuming
            (slice b.data b.index b.readBufferSize ++ consumed.readBuffer.data.take
              (min (n - (b.readBufferSize - b.index)) consumed.readBuffer.readBufferSize))
            (n - (b.readBufferSize - b.index)
              - min (n - (b.readBufferSize - b.index)) consumed.readBuffer.readBufferSize)
          have hle := hforth.position_le
          refine ⟨⟨hforth.consuming, hforth.file.trans hfile, Nat.le_trans ?_ hle⟩, fun hread => ?_⟩
          · rw [hpos]
            omega
          · rw [hok hread, hpos]
            omega
      · have hconsuming : consumed.Consuming := by
          rw [hconsumed]
          exact ⟨by simp only []; omega, hsize⟩
        have hpos : consumed.getPosition = b.position := by
          rw [hconsumed, getPosition]
          simp only []
          omega
        obtain ⟨hforth, hok⟩ := fullRead_forth hconsuming
          (slice b.data b.index b.readBufferSize) (n - (b.readBufferSize - b.index))
        have hle := hforth.position_le
        refine ⟨⟨hforth.consuming, hforth.file.trans hfile, ?_⟩, fun hread => ?_⟩
        · omega
        · rw [hok hread]
          omega

theorem readData_consumes (n : Nat) : Keeps Consumes (readData n) := by
  intro b h
  obtain ⟨hforth, -⟩ := readDataInto_forth h n
  unfold after readData
  simp only []
  cases (b.readDataInto n).2.1 <;> exact hforth

theorem readByte_consumes : Keeps Consumes readByte :=
  keeps_bind Consumes.trans (readData_consumes 1) fun _ => keeps_pure Consumes.refl _

theorem readByte_forth {b b' : FileBuffer} {byte : UInt8} (h : b.Consuming)
    (hread : readByte b = .ok byte b') : b'.getPosition = b.getPosition + 1 := by
  obtain ⟨bytes, b₁, hdata, hrest⟩ := bind_eq_ok hread
  obtain ⟨-, rfl⟩ := EStateM.Result.ok.inj hrest
  unfold readData at hdata
  simp only [] at hdata
  split at hdata
  · next hok =>
      obtain ⟨-, rfl⟩ := EStateM.Result.ok.inj hdata
      exact (readDataInto_forth h 1).2 hok
  · cases hdata

theorem compactRead_consumes (bits : Nat) : Keeps Consumes (compactRead bits) := by
  have hloop : ∀ extra result, Keeps Consumes (compactLoop readByte bits extra result) := by
    intro extra
    induction extra with
    | zero => exact fun result => keeps_pure Consumes.refl result
    | succ extra ih =>
        exact fun result => keeps_bind Consumes.trans readByte_consumes fun byte => ih _
  rw [compactRead_eq]
  exact keeps_bind Consumes.trans readByte_consumes fun first => hloop _ _

theorem readId_consumes : Keeps Consumes readId :=
  keeps_bind Consumes.trans (compactRead_consumes 16) fun _ => keeps_pure Consumes.refl _

theorem readReference_consumes : Keeps Consumes readReference :=
  keeps_bind Consumes.trans (compactRead_consumes 64) fun _ => keeps_pure Consumes.refl _

theorem safeReadString_consumes (maxSize : Nat) : Keeps Consumes (safeReadString maxSize) :=
  keeps_bind Consumes.trans (compactRead_consumes 64) fun _ =>
    keeps_ite (readData_consumes _) (keeps_pure Consumes.refl _)

theorem readBlob_consumes : Keeps Consumes readBlob :=
  keeps_bind Consumes.trans (compactRead_consumes 64) fun _ =>
    keeps_bind Consumes.trans (compactRead_consumes 64) fun _ => keeps_pure Consumes.refl _

theorem flush_of_consuming {b : FileBuffer} (h : b.Consuming) :
    b.flush = { b with position := b.getPosition, readBufferSize := 0, index := 0 } := by
  have hindex := h.index_le
  have hwrite : b.bufferHasWriteData = false := by
    rw [bufferHasWriteData]
    rcases Nat.eq_zero_or_pos b.index with hzero | hpos
    · simp [hzero]
    · have hsome : b.readBufferSize ≠ 0 := by omega
      simp [hsome]
  simp [flush, hwrite]

theorem ignore_consumes (n : Nat) (b : FileBuffer) : b.Consumes (b.ignore n) := by
  intro h
  have hsize := h.size_le
  rw [ignore]
  split
  · next hn =>
      refine ⟨⟨hn, hsize⟩, rfl, ?_⟩
      simp only [getPosition]
      omega
  · rw [setPosition, flush_of_consuming h]
    refine ⟨⟨Nat.le_refl _, Nat.zero_le _⟩, rfl, ?_⟩
    simp only [getPosition]
    omega

end FileBuffer

namespace Replay

open FileBuffer

variable {ω α β : Type}

/-! ## One step -/

/-- What a part of a step leaves of the journal. -/
def Follows (t t' : Replay ω) : Prop :=
  t'.journal.checkpoints = t.journal.checkpoints ∧
    t.journal.fileBuffer.Consumes t'.journal.fileBuffer

theorem Follows.refl (t : Replay ω) : Follows t t := ⟨rfl, .refl _⟩

theorem Follows.trans (t t' t'' : Replay ω) (h : Follows t t') (h' : Follows t' t'') :
    Follows t t'' := ⟨h'.1.trans h.1, h.2.trans _ _ _ h'.2⟩

theorem follows_bind {m : Play ω α} {f : α → Play ω β} (hm : Keeps Follows m)
    (hf : ∀ a, Keeps Follows (f a)) : Keeps Follows (m >>= f) := keeps_bind Follows.trans hm hf

theorem follows_get : Keeps Follows (get : Play ω (Replay ω)) := keeps_get Follows.refl

theorem follows_pure (a : α) : Keeps Follows (pure a : Play ω α) := keeps_pure Follows.refl a

theorem follows_throw (e : Exn) : Keeps Follows (throw e : Play ω α) := keeps_throw Follows.refl e

theorem follows_buffer {m : EStateM Exn FileBuffer α} (hm : Keeps Consumes m) :
    Keeps Follows (buffer m : Play ω α) := by
  intro t
  rw [show after (buffer m) t = t.withBuffer (after m t.journal.fileBuffer) from after_onPart m t]
  exact ⟨rfl, hm t.journal.fileBuffer⟩

theorem follows_of_journal {m : Play ω α}
    (h : Keeps (fun t t' : Replay ω => t'.journal = t.journal) m) : Keeps Follows m := by
  intro t
  have hsame : (after m t).journal = t.journal := h t
  rw [Follows, hsame]
  exact ⟨rfl, .refl _⟩

theorem follows_tell (m : EStateM Exn ω α) : Keeps Follows (tell m : Play ω α) :=
  follows_of_journal (keeps_tell m)

theorem follows_context (g : Replay ω → Context) :
    Keeps Follows (modify fun t => t.withContext (g t) : Play ω Unit) :=
  keeps_modify fun _ => ⟨rfl, .refl _⟩

theorem follows_nextRecord : Keeps Follows (nextRecord : Play ω Unit) :=
  follows_bind follows_get fun _ => follows_context _

theorem follows_safeReadString : Keeps Follows (safeReadString : Play ω ByteFile.Bytes) :=
  follows_bind follows_get fun _ => follows_buffer (safeReadString_consumes _)

theorem follows_readType : Keeps Follows (readType : Play ω FieldType) :=
  follows_bind (follows_buffer readByte_consumes) fun _ =>
    keeps_ite (follows_bind (follows_buffer readId_consumes) fun _ => follows_pure _)
      (follows_pure _)

theorem follows_readMethod : (k : Kind) → Keeps Follows (readMethod k : Play ω k.Val)
  | .string => follows_safeReadString
  | .reference => follows_buffer readReference_consumes
  | .blob => follows_buffer readBlob_consumes
  | .fixed size => follows_bind (follows_buffer (readData_consumes size)) fun _ => follows_pure _

theorem follows_readEach (k : Kind) (size : Nat) (vs : List k.Val) :
    Keeps Follows (readEach k size vs : Play ω (ReadValues k)) := by
  induction size generalizing vs with
  | zero => exact follows_pure _
  | succ size ih =>
      intro t
      unfold after readEach
      cases hm : readMethod k t with
      | ok v t' => exact ((follows_readMethod k).ok hm).trans _ _ _ (ih (vs ++ [v]) t')
      | error e t' => exact (follows_readMethod k).error hm

theorem follows_readVector : (k : Kind) → (size : Nat) →
    Keeps Follows (readVector k size : Play ω (ReadValues k))
  | .string, size => follows_readEach _ size []
  | .reference, size => follows_readEach _ size []
  | .blob, size => follows_readEach _ size []
  | .fixed n, size => fun _ => ⟨rfl, fun h => (readDataInto_forth h (size * n)).1⟩

variable (W : Writable ω)

theorem follows_performUpdate (ty : Ty) : Keeps Follows (performUpdate W ty) :=
  follows_bind (follows_readMethod ty.kind) fun _ => follows_bind follows_get fun _ =>
    follows_tell _

theorem follows_performUpdateVector (ty : Ty) (size : Nat) :
    Keeps Follows (performUpdateVector W ty size) := by
  refine follows_bind (follows_of_journal (prepareUpdateVector_journal ty size)) fun capacity =>
    follows_bind (follows_readVector ty.kind size) fun read => follows_bind follows_get fun t =>
      follows_bind (keeps_when Follows.refl (keeps_modify fun _ => ⟨rfl, .refl _⟩)) fun _ => ?_
  cases read.2 with
  | some stop =>
      exact follows_bind (keeps_when Follows.refl (keeps_modify fun _ => ⟨rfl, .refl _⟩))
        fun _ => follows_throw stop.1
  | none => exact follows_tell _

theorem follows_performBlob (size : Nat) : Keeps Follows (performBlob W size) := by
  refine follows_bind follows_get fun t => follows_bind (follows_tell _) fun _ =>
    follows_bind follows_get fun t' => keeps_ite (follows_bind ?_ fun _ => follows_tell _)
      (keeps_modify fun t => ⟨rfl, ignore_consumes size _⟩)
  exact keeps_ite (follows_buffer (readData_consumes size)) (follows_pure _)

theorem follows_perform (o : Operation) : Keeps Follows (perform W o) := by
  have hid : Keeps Follows (buffer readId : Play ω UInt16) := follows_buffer readId_consumes
  have hrecord : Keeps Follows (buffer readReference : Play ω Int) :=
    follows_buffer readReference_consumes
  have hsize : Keeps Follows (buffer (compactRead 64) : Play ω Nat) :=
    follows_buffer (compactRead_consumes 64)
  cases o with
  | createTable => exact follows_bind follows_safeReadString fun _ => follows_tell _
  | dropTable => exact follows_bind hid fun _ => follows_tell _
  | renameTable =>
      exact follows_bind hid fun _ => follows_bind follows_safeReadString fun _ => follows_tell _
  | addField =>
      exact follows_bind hid fun _ => follows_bind follows_safeReadString fun _ =>
        follows_bind follows_readType fun _ => follows_tell _
  | dropField => exact follows_bind hid fun _ => follows_bind hid fun _ => follows_tell _
  | renameField =>
      exact follows_bind hid fun _ => follows_bind hid fun _ =>
        follows_bind follows_safeReadString fun _ => follows_tell _
  | insertInto =>
      exact follows_bind hid fun _ => follows_bind hrecord fun _ =>
        follows_bind (follows_tell _) fun _ => follows_bind (follows_context _) fun _ =>
          follows_context _
  | deleteFrom => exact follows_bind hid fun _ => follows_bind hrecord fun _ => follows_tell _
  | insertVector =>
      exact follows_bind hid fun _ => follows_bind hrecord fun _ => follows_bind hsize fun _ =>
        follows_bind (follows_tell _) fun _ => follows_bind (follows_context _) fun _ =>
          follows_context _
  | deleteVector =>
      exact follows_bind hid fun _ => follows_bind hrecord fun _ => follows_bind hsize fun _ =>
        follows_tell _
  | append =>
      exact follows_bind follows_nextRecord fun _ => follows_bind follows_get fun _ =>
        follows_tell _
  | update ty =>
      exact follows_bind hid fun _ => follows_bind (follows_context _) fun _ =>
        follows_bind hrecord fun _ => follows_bind (follows_context _) fun _ =>
          follows_bind hid fun _ => follows_bind (follows_context _) fun _ =>
            follows_performUpdate W ty
  | updateLast ty =>
      exact follows_bind hid fun _ => follows_bind (follows_context _) fun _ =>
        follows_performUpdate W ty
  | updateNext ty => exact follows_bind follows_nextRecord fun _ => follows_performUpdate W ty
  | updateVector ty =>
      exact follows_bind hid fun _ => follows_bind (follows_context _) fun _ =>
        follows_bind hrecord fun _ => follows_bind (follows_context _) fun _ =>
          follows_bind hid fun _ => follows_bind (follows_context _) fun _ =>
            follows_bind hsize fun size => keeps_ite (follows_pure _)
              (follows_performUpdateVector W ty size)
  | custom => exact follows_bind follows_safeReadString fun _ => follows_tell _
  | comment => exact follows_bind follows_safeReadString fun _ => follows_tell _
  | timestamp => exact follows_bind (follows_buffer (readData_consumes 8)) fun _ => follows_tell _
  | validData => exact follows_tell _
  | blob => exact follows_bind hsize fun size => follows_performBlob W size

/-- What follows the code of an operation. -/
theorem follows_rest (code : UInt8) : Keeps Follows (match Operation.ofCode code with
    | some operation => perform W operation
    | none => do
        let t ← get
        throw (.exception s!"Unexpected operation: get_position() = {t.journal.getPosition}")) := by
  cases Operation.ofCode code with
  | some operation => exact follows_perform W operation
  | none => exact follows_bind follows_get fun _ => follows_throw _

theorem follows_oneStep : Keeps Follows (oneStep W) :=
  follows_bind (follows_buffer readByte_consumes) fun code => follows_rest W code

/-- A step that returns has read its code. -/
theorem oneStep_forth {t t' : Replay ω} (h : t.journal.fileBuffer.Consuming)
    (hstep : oneStep W t = .ok () t') : t.journal.getPosition < t'.journal.getPosition := by
  obtain ⟨code, t₁, hcode, hrest⟩ := bind_eq_ok hstep
  obtain ⟨b, hread, rfl⟩ := onPart_eq_ok hcode
  have hone := readByte_forth h hread
  have hconsuming := (readByte_consumes.ok hread h).consuming
  have hle := (((follows_rest W _).ok hrest).2 hconsuming).position_le
  have hlt : t.journal.fileBuffer.getPosition < b.getPosition := by omega
  exact Nat.lt_of_lt_of_le hlt hle

/-! ## Many steps -/

theorem follows_rawPlayUntilGo (stop fuel : Nat) : Keeps Follows (rawPlayUntilGo W stop fuel) := by
  induction fuel with
  | zero => exact follows_pure ()
  | succ fuel ih =>
      exact follows_bind follows_get fun t =>
        keeps_ite (follows_bind (follows_oneStep W) fun _ => ih) (follows_pure ())

theorem follows_rawPlayUntil (stop : Nat) : Keeps Follows (rawPlayUntil W stop) :=
  follows_bind follows_get fun _ => follows_rawPlayUntilGo W stop _

theorem rawPlayUntilGo_reaches {stop : Nat} (fuel : Nat) {t t' : Replay ω}
    (h : t.journal.fileBuffer.Consuming) (hfuel : stop ≤ t.journal.getPosition + fuel)
    (hplay : rawPlayUntilGo W stop fuel t = .ok () t') : stop ≤ t'.journal.getPosition := by
  induction fuel generalizing t with
  | zero =>
      obtain ⟨-, rfl⟩ := EStateM.Result.ok.inj hplay
      exact hfuel
  | succ fuel ih =>
      rw [rawPlayUntilGo, get_bind_run] at hplay
      split at hplay
      · next hlt =>
          obtain ⟨⟨⟩, t₁, hstep, hrest⟩ := bind_eq_ok hplay
          have hone := oneStep_forth W h hstep
          exact ih (((follows_oneStep W).ok hstep).2 h).consuming (by omega) hrest
      · next hge =>
          obtain ⟨-, rfl⟩ := EStateM.Result.ok.inj hplay
          exact Nat.not_lt.mp hge

theorem follows_detour {ψ : Type} (w : ψ) {m : Play ψ α} (hm : Keeps Follows m) :
    Keeps Follows (detour w m : Play ω α) := by
  intro t
  have hrun := hm ⟨t.journal, w⟩
  unfold after at hrun
  unfold after detour
  cases h : m ⟨t.journal, w⟩ with
  | ok a t' =>
      rw [h] at hrun
      exact hrun
  | error e t' =>
      rw [h] at hrun
      exact hrun

theorem follows_catchUp : Keeps Follows (catchUp W) :=
  follows_bind follows_get fun _ =>
    keeps_when Follows.refl (follows_detour () (follows_rawPlayUntil dummyWritable _))

theorem follows_playOn (stop : Nat) : Keeps Follows (playOn W stop) :=
  follows_bind (follows_catchUp W) fun _ => follows_bind follows_get fun _ =>
    follows_bind (follows_tell _) fun _ => follows_bind (follows_rawPlayUntil W stop) fun _ =>
      follows_bind follows_get fun _ => follows_bind (follows_tell _) fun _ => follows_tell _

theorem playOn_reaches {stop : Nat} {t t' : Replay ω} (h : t.journal.fileBuffer.Consuming)
    (hplay : playOn W stop t = .ok () t') : stop ≤ t'.journal.getPosition := by
  obtain ⟨⟨⟩, t₁, hcatch, hplay⟩ := bind_eq_ok hplay
  rw [get_bind_run] at hplay
  obtain ⟨⟨⟩, t₂, hstart, hplay⟩ := bind_eq_ok hplay
  obtain ⟨⟨⟩, t₃, hraw, hplay⟩ := bind_eq_ok hplay
  have h₁ := (((follows_catchUp W).ok hcatch).2 h).consuming
  have h₂ := (((follows_tell _).ok hstart).2 h₁).consuming
  have h₃ := (((follows_rawPlayUntil W stop).ok hraw).2 h₂).consuming
  rw [rawPlayUntil, get_bind_run] at hraw
  have hreach := rawPlayUntilGo_reaches W _ h₂ (by omega) hraw
  have hlast : Keeps Follows (do
      let t ← get
      tell (W.endWriting t.journal.getPosition)
      tell W.softCheckpoint : Play ω Unit) :=
    follows_bind follows_get fun _ => follows_bind (follows_tell _) fun _ => follows_tell _
  exact Nat.le_trans hreach ((hlast.ok hplay).2 h₃).position_le

theorem follows_playUntilCheckpoint : Keeps Follows (playUntilCheckpoint W) := by
  refine follows_bind follows_get fun t => follows_bind follows_get fun t' =>
    follows_bind (keeps_when Follows.refl (follows_playOn W _)) fun _ => keeps_modify fun t'' =>
      ⟨rfl, fun h => ?_⟩
  show FileBuffer.Forth _ t''.journal.fileBuffer.flush
  rw [flush_of_consuming h]
  exact ⟨⟨Nat.le_refl _, Nat.zero_le _⟩, rfl, Nat.le_of_eq (by simp [getPosition])⟩

/-- Played to its checkpoint, a journal is there, and ready for writing. -/
theorem playUntilCheckpoint_reaches {t t' : Replay ω} (h : t.journal.fileBuffer.Consuming)
    (hplay : playUntilCheckpoint W t = .ok () t') :
    t'.journal.fileBuffer.Idle ∧ t'.journal.getCheckpoint ≤ t'.journal.getPosition := by
  have hfollows := (follows_playUntilCheckpoint W).ok hplay
  have hcp : t'.journal.getCheckpoint = t.journal.getCheckpoint := by
    rw [Journal.getCheckpoint, hfollows.1, Journal.getCheckpoint]
  rw [playUntilCheckpoint, get_bind_run, playUntil, get_bind_run] at hplay
  obtain ⟨⟨⟩, t₁, hplayed, hflush⟩ := bind_eq_ok hplay
  obtain ⟨-, rfl⟩ := EStateM.Result.ok.inj hflush
  have hreach : t.journal.getCheckpoint ≤ t₁.journal.getPosition := by
    by_cases hlt : t.journal.getPosition < t.checkpoint
    · rw [when_pos hlt] at hplayed
      exact playOn_reaches W h hplayed
    · rw [when_neg hlt] at hplayed
      obtain ⟨-, rfl⟩ := EStateM.Result.ok.inj hplayed
      exact Nat.not_lt.mp hlt
  have h₁ : t₁.journal.fileBuffer.Consuming :=
    ((keeps_when Follows.refl (follows_playOn W _)).ok hplayed).2 h |>.consuming
  rw [hcp]
  have hbuffer := flush_of_consuming h₁
  have hidle : t₁.journal.fileBuffer.flush.Idle := by rw [hbuffer]; exact ⟨rfl, rfl⟩
  refine ⟨hidle, ?_⟩
  have hposition : t₁.journal.fileBuffer.flush.getPosition = t₁.journal.getPosition := by
    rw [hbuffer]
    simp [getPosition, Journal.getPosition]
  exact Nat.le_trans hreach (Nat.le_of_eq hposition.symm)

end Replay

end Joedb
