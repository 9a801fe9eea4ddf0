import Joedb.Journal.HeaderSpec
import Joedb.Journal.Writers

/-!
# A session of writing

A journal that is being written is `Ready`: its buffer writes, what it has
flushed is in the file, and both checkpoints lie in what is flushed. Its `body`
is everything behind the header, flushed or waiting.

The effects of an action are told once, here: an operation or a flush appends
to the body and touches nothing below the flushed position; a checkpoint sets
one word or one pair of the header. The results about round trips, crashes and
power failures all start from these.
-/

namespace Joedb

open ByteFile FileBuffer

namespace FileBuffer

/-- What a stretch of writing does to the file. -/
structure Effect (b : FileBuffer) (bs : Bytes) (b' : FileBuffer) : Prop where
  position_le : b.position ≤ b'.position
  flushed : b'.position ≤ b'.file.data.length
  below : ∀ a c, c ≤ b.position → slice b'.file.data a c = slice b.file.data a c
  stream : ∀ a, a ≤ b.position →
    slice b'.file.data a b'.position ++ b'.pending
      = slice b.file.data a b.position ++ b.pending ++ bs
  grows : b.file.data.length ≤ b'.file.data.length
  exact : b.position = b.file.data.length → b'.position = b'.file.data.length

theorem Appends.effect {b b' : FileBuffer} {bs : Bytes} (h : b.Appends bs b')
    (hpos : b.position ≤ b.file.data.length) : b.Effect bs b' := by
  obtain ⟨cs, hfile, hpending, hposition⟩ := h.chunks
  have hdata : b'.file.data = pwrite b.file.data b.position cs.flatten := by
    rw [hfile, File.pwriteAll_data hpos]
  have hlen : b'.file.data.length
      = max b.file.data.length (b.position + cs.flatten.length) := by
    rw [hdata, length_pwrite]
  refine ⟨by omega, by omega, fun a c hc => ?_, fun a ha => ?_, by omega, fun h => by omega⟩
  · rw [hdata, slice_pwrite_of_disjoint hpos (.inl hc)]
  · have hsplit := slice_append (f := b'.file.data) ha
      (show b.position ≤ b'.position by omega)
    have hlow : slice b'.file.data a b.position = slice b.file.data a b.position := by
      rw [hdata, slice_pwrite_of_disjoint hpos (.inl (Nat.le_refl _))]
    have hhigh : slice b'.file.data b.position b'.position = cs.flatten := by
      rw [hdata, hposition, slice_pwrite_self hpos]
    rw [← hsplit, hlow, hhigh, List.append_assoc, hpending, List.append_assoc]

theorem Effect.headerWord {b b' : FileBuffer} {bs : Bytes} (h : b.Effect bs b')
    (hpos : 32 ≤ b.position) {k : Nat} (hk : k < 4) :
    headerWord b'.file.data k = headerWord b.file.data k := by
  rw [Joedb.headerWord, h.below _ _ (by omega), Joedb.headerWord]

end FileBuffer

namespace Journal

/-- Everything behind the header, flushed or waiting. -/
def body (j : Journal) : Bytes :=
  slice j.file.data headerSize j.fileBuffer.position ++ j.fileBuffer.pending

structure Ready (j : Journal) : Prop where
  writing : j.fileBuffer.Writing
  flushed : j.fileBuffer.position ≤ j.file.data.length
  header_le : headerSize ≤ j.getHardCheckpoint
  hard_le : j.getHardCheckpoint ≤ j.getCheckpoint
  checkpoint_le : j.getCheckpoint ≤ j.fileBuffer.position

namespace Ready

variable {j : Journal}

theorem header_le_position (h : j.Ready) : headerSize ≤ j.fileBuffer.position :=
  Nat.le_trans h.header_le (Nat.le_trans h.hard_le h.checkpoint_le)

theorem header_le_length (h : j.Ready) : headerSize ≤ j.file.data.length :=
  Nat.le_trans h.header_le_position h.flushed

theorem length_body (h : j.Ready) : headerSize + j.body.length = j.getPosition := by
  have := h.header_le_position
  rw [body, List.length_append, length_slice_of_le h.flushed, h.writing.length_pending,
    getPosition, h.writing.getPosition]
  omega

theorem position_le (h : j.Ready) : j.fileBuffer.position ≤ j.getPosition := by
  rw [getPosition, h.writing.getPosition]; exact Nat.le_add_right _ _

/-- The body below what is flushed can be read from the file. -/
theorem slice_eq_take_body (h : j.Ready) {p : Nat} (hp : p ≤ j.fileBuffer.position) :
    slice j.file.data headerSize p = j.body.take (p - headerSize) := by
  have hflushed := h.flushed
  rw [body, List.take_append_of_le_length
    (by rw [length_slice_of_le hflushed]; omega), slice, slice, List.take_take]
  congr 1
  omega

/-- A stretch of writing that keeps the checkpoints. -/
theorem writes (h : j.Ready) {j' : Journal} {bs : Bytes}
    (happ : j.fileBuffer.Appends bs j'.fileBuffer) (hc : j'.checkpoints = j.checkpoints) :
    j'.Ready ∧ j'.body = j.body ++ bs := by
  have heff := happ.effect h.flushed
  refine ⟨⟨happ.writing, heff.flushed, ?_, ?_, ?_⟩, ?_⟩
  · rw [getHardCheckpoint, hc]; exact h.header_le
  · rw [getHardCheckpoint, getCheckpoint, hc]; exact h.hard_le
  · rw [getCheckpoint, hc]; exact Nat.le_trans h.checkpoint_le heff.position_le
  · exact heff.stream _ h.header_le_position

theorem perform (h : j.Ready) (op : Op) :
    (j.perform op).Ready ∧
      (j.perform op).body = j.body ++ (abbreviate j.context op).bytes :=
  h.writes (perform_performs h.writing op).appends (perform_performs h.writing op).checkpoints

theorem flush (h : j.Ready) : j.flush.Ready ∧ j.flush.body = j.body := by
  have hw := @writes j h j.flush _ (flush_appends h.writing).1 rfl
  rwa [List.append_nil] at hw

end Ready

/-! ## Checkpoints -/

theorem softCheckpointAt_of_le {j : Journal} {p : Nat} (h : p ≤ j.getCheckpoint) :
    j.softCheckpointAt p = j := if_pos h

theorem softCheckpointAt_of_lt {j : Journal} {p : Nat} (h : j.getCheckpoint < p) :
    j.softCheckpointAt p = { j.flush with checkpoints := j.checkpoints.soft p }.withFile
      (j.flush.file.pwrite
        (8 * wordIndex (!j.checkpoints.hardIndex) (!j.checkpoints.softIndex))
        (encodeInt64 (neg p))) := by
  rw [softCheckpointAt,
    if_neg (show ¬ j.checkpoints.checkpointPosition ≥ p from Nat.not_le.mpr h)]
  rfl

theorem hardCheckpointAt_of_le {j : Journal} {p : Nat} (h : p ≤ j.getHardCheckpoint) :
    j.hardCheckpointAt p = j := if_pos h

theorem hardCheckpointAt_of_lt {j : Journal} {p : Nat} (h : j.getHardCheckpoint < p) :
    j.hardCheckpointAt p = { j.flush with checkpoints := j.checkpoints.hard p }.withFile
      ((((j.flush.file.pwrite (8 * wordIndex (!j.checkpoints.hardIndex) false)
        (encodeInt64 p)).sync).pwrite
          (8 * wordIndex (!j.checkpoints.hardIndex) true) (encodeInt64 p)).datasync) := by
  rw [hardCheckpointAt,
    if_neg (show ¬ j.checkpoints.hardCheckpointPosition ≥ p from Nat.not_le.mpr h)]
  rfl

/-- A journal whose file differs in header words only. -/
theorem Ready.withWords {j : Journal} (h : j.Ready) {c : Checkpoints} {f : File}
    (hhead : headerSize ≤ c.hardCheckpointPosition)
    (hhard : c.hardCheckpointPosition ≤ c.checkpointPosition)
    (hc : c.checkpointPosition ≤ j.fileBuffer.position)
    (hlen : f.data.length = j.file.data.length)
    (hsame : ∀ a b, 32 ≤ a → slice f.data a b = slice j.file.data a b) :
    ({ j with checkpoints := c }.withFile f).Ready ∧
      ({ j with checkpoints := c }.withFile f).body = j.body := by
  have hflushed := h.flushed
  refine ⟨⟨⟨h.writing.noRead, h.writing.index_le, h.writing.index_lt⟩, ?_, hhead, hhard,
    hc⟩, ?_⟩
  · show j.fileBuffer.position ≤ f.data.length
    omega
  · show slice f.data headerSize _ ++ j.fileBuffer.pending = _
    rw [hsame _ _ (by decide)]
    rfl

/-- The words after a soft checkpoint. -/
def softWords (j : Journal) (p : Nat) : Nat → Int :=
  setWord (headerWord j.file.data)
    (wordIndex (!j.checkpoints.hardIndex) (!j.checkpoints.softIndex)) (-(p : Int))

/-- The words between the two halves of a hard checkpoint. -/
def tornWords (j : Journal) (p : Nat) : Nat → Int :=
  setWord (headerWord j.file.data) (wordIndex (!j.checkpoints.hardIndex) false) p

/-- The words after a hard checkpoint. -/
def hardWords (j : Journal) (p : Nat) : Nat → Int :=
  setWord (j.tornWords p) (wordIndex (!j.checkpoints.hardIndex) true) p

theorem headerWord_pwrite_setWord {f : Bytes} (hf : headerSize ≤ f.length) (i j : Bool)
    {x : Int} (hlo : -(2 ^ 63) ≤ x) (hhi : x < 2 ^ 63) :
    headerWord (pwrite f (8 * wordIndex i j) (encodeInt64 x))
      = setWord (headerWord f) (wordIndex i j) x := by
  funext k
  rw [headerWord_pwrite hf (wordIndex_lt i j) hlo hhi]
  rfl

/-- What a checkpoint leaves: everything flushed, and the words `w`. -/
structure Checkpointed (j : Journal) (w : Nat → Int) (j' : Journal) : Prop where
  ready : j'.Ready
  body : j'.body = j.body
  words : ∀ k < 4, headerWord j'.file.data k = w k
  position : j'.fileBuffer.position = j.getPosition
  length : j'.file.data.length = j.flush.file.data.length
  behind : ∀ a b, 32 ≤ a → slice j'.file.data a b = slice j.flush.file.data a b

section Effects

variable {j : Journal} (h : j.Ready) {p : Nat}
include h

theorem Ready.flush_word {k : Nat} (hk : k < 4) :
    headerWord j.flush.file.data k = headerWord j.file.data k := by
  have := h.header_le_position
  rw [headerSize] at this
  exact ((flush_appends h.writing).1.effect h.flushed).headerWord (by omega) hk

theorem Ready.flush_setWord (i : Nat) (x : Int) {k : Nat} (hk : k < 4) :
    setWord (headerWord j.flush.file.data) i x k
      = setWord (headerWord j.file.data) i x k := by
  rw [setWord, setWord, h.flush_word hk]

theorem Ready.flush_position : j.flush.fileBuffer.position = j.getPosition := by
  have hidle := flush_idle_of_writing h.writing
  have hpos := (flush_appends h.writing).1.getPosition h.writing
  rw [hidle.getPosition, List.length_nil, Nat.add_zero] at hpos
  exact hpos

/-- A soft checkpoint flushes and writes one word. -/
theorem Ready.softCheckpointAt (hlt : j.getCheckpoint < p) (hp : p ≤ j.getPosition)
    (hmax : p < 2 ^ 63) :
    j.Checkpointed (j.softWords p) (j.softCheckpointAt p) := by
  obtain ⟨hready, hbody⟩ := h.flush
  have hlen := hready.header_le_length
  have hpos := h.flush_position
  have hhard := h.hard_le
  rw [softCheckpointAt_of_lt hlt]
  have hsize := length_pwrite_word hlen (wordIndex_lt (!j.checkpoints.hardIndex)
    (!j.checkpoints.softIndex)) (neg p)
  have hsame := fun a b (ha : 32 ≤ a) => slice_pwrite_word hlen
    (wordIndex_lt (!j.checkpoints.hardIndex) (!j.checkpoints.softIndex)) (neg p)
    (b := b) ha
  have hword := hready.withWords (c := j.checkpoints.soft p)
    (f := j.flush.file.pwrite _ (encodeInt64 (neg p))) h.header_le
    (Nat.le_trans hhard (Nat.le_of_lt hlt)) (by rw [hpos]; exact hp) hsize hsame
  refine ⟨hword.1, hword.2.trans hbody, fun k hk => ?_, hpos, hsize, hsame⟩
  rw [softWords, ← h.flush_setWord _ _ hk]
  show headerWord (pwrite _ _ _) k = _
  rw [neg_of_lt (by omega), headerWord_pwrite_setWord hlen _ _ (by omega) (by omega)]

/-- A hard checkpoint flushes and writes one pair. -/
theorem Ready.hardCheckpointAt (hlt : j.getHardCheckpoint < p) (hp : p ≤ j.getPosition)
    (hmax : p < 2 ^ 63) :
    j.Checkpointed (j.hardWords p) (j.hardCheckpointAt p) := by
  obtain ⟨hready, hbody⟩ := h.flush
  have hlen := hready.header_le_length
  have hpos := h.flush_position
  have hlen₁ := length_pwrite_word hlen (wordIndex_lt (!j.checkpoints.hardIndex) false) p
  have hlen' : headerSize ≤ (pwrite j.flush.file.data
      (8 * wordIndex (!j.checkpoints.hardIndex) false) (encodeInt64 p)).length := by
    rw [hlen₁]; exact hlen
  have hsize := (length_pwrite_word hlen' (wordIndex_lt (!j.checkpoints.hardIndex) true)
    p).trans hlen₁
  have hsame := fun a b (ha : 32 ≤ a) =>
    (slice_pwrite_word hlen' (wordIndex_lt (!j.checkpoints.hardIndex) true) p
      (b := b) ha).trans (slice_pwrite_word hlen (wordIndex_lt _ _) _ ha)
  rw [hardCheckpointAt_of_lt hlt]
  have hword := hready.withWords (c := j.checkpoints.hard p)
    (f := (((j.flush.file.pwrite (8 * wordIndex (!j.checkpoints.hardIndex) false)
      (encodeInt64 p)).sync).pwrite
        (8 * wordIndex (!j.checkpoints.hardIndex) true) (encodeInt64 p)).datasync)
    (Nat.le_trans h.header_le (Nat.le_of_lt hlt)) (Nat.le_refl _)
    (by rw [hpos]; exact hp) hsize hsame
  refine ⟨hword.1, hword.2.trans hbody, fun k hk => ?_, hpos, hsize, hsame⟩
  show headerWord (pwrite (pwrite _ _ _) _ _) k = _
  rw [headerWord_pwrite_setWord hlen' _ _ (by omega) (by omega),
    headerWord_pwrite_setWord hlen _ _ (by omega) (by omega), hardWords, tornWords,
    setWord, setWord, h.flush_word hk, setWord, setWord]

end Effects

end Journal

end Joedb
