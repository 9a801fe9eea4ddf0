import Joedb.Journal.Actions
import Mathlib.Logic.Function.Basic

/-!
# Journals that share a file

Any number of writers and readers over the bytes of one file. Each journal
keeps its own buffer, its own positions and its own two indices, and knows of
the others only through the header: a pull reads the four words again, from
whatever the journal knew before.

A writer takes the tail lock and pulls, goes to its checkpoint, writes behind
it, makes soft and hard checkpoints where its data ends, and gives the lock
back when nothing is left without a checkpoint. Openings and pulls of others
fall anywhere between; a reader may have been opened with any recovery, also
one that ignores the header.

What carries every run is that the words always tell one pair of checkpoints,
in the sense of `Agrees`, that no journal that has read them is ahead of them,
and that the writer with the lock knows them exactly.
-/

namespace Joedb.Sharing

open ByteFile FileBuffer Journal StateExcept

/-- A checkpoint that was written to the header. -/
inductive Written where
  | soft (position : Nat)
  | hard (position : Nat)
  deriving DecidableEq, Repr

def Written.position : Written → Nat
  | .soft p => p
  | .hard p => p

/-- The last checkpoint of a record that is kept newest first. -/
def lastCheckpoint : List Written → Nat
  | [] => headerSize
  | w :: _ => w.position

/-- The last hard one. -/
def lastHardCheckpoint : List Written → Nat
  | [] => headerSize
  | .hard p :: _ => p
  | .soft _ :: ws => lastHardCheckpoint ws

/-- The checkpoint that an action writes to the header, if it does. -/
def written (j : Journal) : Action → List Written
  | .perform _ => []
  | .flush => []
  | .softCheckpointAt p => if j.getCheckpoint < p then [.soft p] else []
  | .hardCheckpointAt p => if j.getHardCheckpoint < p then [.hard p] else []

/-- Checkpoints are for the end of the written data, as `soft_checkpoint` and
`hard_checkpoint` make them. -/
def AtEnd (j : Journal) (a : Action) : Prop :=
  ∀ p, a.target = some p → p = j.getPosition ∧ p < 2 ^ 63

/-- A journal whose file is as the others left it. -/
def onto (j : Journal) (data : Bytes) : Journal :=
  j.withFile { j.file with data }

/-- The openings that believe the header. -/
def Believing (recovery : Recovery) : Prop := recovery ≠ .ignoreHeader

/-- A journal for reading, and how it was opened. -/
structure Reader where
  recovery : Recovery
  journal : Journal

/-- The file, the journals over it, who has the tail lock, and a record of the
checkpoints that were written. -/
structure Shared (ι : Type) where
  data : Bytes
  readers : ι → Option Reader
  writers : ι → Option Journal
  tail : Option ι
  record : List Written

namespace Shared

variable {ι : Type} [DecidableEq ι]

def initial : Shared ι := ⟨[], fun _ => none, fun _ => none, none, []⟩

def setReader (s : Shared ι) (i : ι) (r : Reader) : Shared ι :=
  { s with readers := Function.update s.readers i (some r) }

def setWriter (s : Shared ι) (i : ι) (j : Journal) : Shared ι :=
  { s with writers := Function.update s.writers i (some j) }

/-- What an action of a writer leaves in the file. -/
def act (s : Shared ι) (i : ι) (j : Journal) (a : Action) : Shared ι :=
  { s.setWriter i (j.act a) with data := (j.act a).file.data
                                 record := written j a ++ s.record }

/-- The journal knows the last checkpoint, and the last hard one. -/
def Knows (s : Shared ι) (j : Journal) : Prop :=
  j.getCheckpoint = lastCheckpoint s.record ∧
    j.getHardCheckpoint = lastHardCheckpoint s.record

end Shared

/-- The steps of a shared file. A journal opens under the lock of its
constructor, so a writer does it while no other has the tail. `trusted` says
which recoveries a writer may be opened with. -/
inductive Step {ι : Type} [DecidableEq ι] (trusted : Recovery → Prop) :
    Shared ι → Shared ι → Prop where
  | openReader {s : Shared ι} (i : ι) {file : File} {recovery : Recovery} {j : Journal}
      (hfile : file.data = s.data) (hopen : openReadonly file recovery false = .ok j) :
      Step trusted s (s.setReader i ⟨recovery, j⟩)
  | openWriter {s : Shared ι} (i : ι) {file : File} {recovery : Recovery} {j : Journal}
      (hfile : file.data = s.data) (hshared : file.isShared = true) (htail : s.tail = none)
      (hr : trusted recovery) (hopen : openWritable file recovery = .ok j) :
      Step trusted s { s.setWriter i j with data := j.file.data }
  | pullReader {s : Shared ι} {i : ι} {r : Reader} {j' : Journal} {n : Nat}
      (hr : s.readers i = some r) (hpull : pull (onto r.journal s.data) = .ok n j') :
      Step trusted s (s.setReader i ⟨r.recovery, j'⟩)
  | pullWriter {s : Shared ι} {i : ι} {j j' : Journal} {n : Nat}
      (hj : s.writers i = some j) (hpull : pull (onto j s.data) = .ok n j') :
      Step trusted s (s.setWriter i j')
  /-- `Tail_Exclusive_Lock`: it throws when data is left without a checkpoint. -/
  | lock {s : Shared ι} {i : ι} {j j' : Journal} (hj : s.writers i = some j)
      (htail : s.tail = none) (hpos : j.getPosition ≤ j.getCheckpoint)
      (hpull : lockPull (onto j s.data) = .ok () j') :
      Step trusted s { s.setWriter i j' with tail := some i }
  /-- To the checkpoint, by skipping or by playing: both end between reading and
  writing, and write nothing. -/
  | catchUp {s : Shared ι} {i : ι} {j j' : Journal} (hj : s.writers i = some j)
      (htail : s.tail = some i) (hpos : j.getPosition ≤ j.getCheckpoint)
      (hfile : j'.file = j.file) (hc : j'.checkpoints = j.checkpoints)
      (hidle : j'.fileBuffer.Idle) (hend : j'.getPosition = j.getCheckpoint) :
      Step trusted s (s.setWriter i j')
  | act {s : Shared ι} {i : ι} {j : Journal} (hj : s.writers i = some j)
      (htail : s.tail = some i) (hpos : j.getCheckpoint ≤ j.getPosition) (a : Action)
      (ha : AtEnd j a) : Step trusted s (s.act i j a)
  | unlock {s : Shared ι} {i : ι} {j : Journal} (hj : s.writers i = some j)
      (htail : s.tail = some i) (hpos : j.getPosition ≤ j.getCheckpoint) :
      Step trusted s { s with tail := none }

inductive Reach {ι : Type} [DecidableEq ι] (trusted : Recovery → Prop) : Shared ι → Prop where
  | initial : Reach trusted .initial
  | step {s s' : Shared ι} (hs : Reach trusted s) (h : Step trusted s s') : Reach trusted s'

/-! ## Pulling -/

/-- Checkpoints that are known to a journal which may have missed the last. -/
structure Behind (b c : Checkpoints) : Prop where
  header_le_hard : headerSize ≤ b.hardCheckpointPosition
  hard_le : b.hardCheckpointPosition ≤ c.hardCheckpointPosition
  header_le : headerSize ≤ b.checkpointPosition
  le : b.checkpointPosition ≤ c.checkpointPosition

theorem Behind.trans {b c d : Checkpoints} (h : Behind b c)
    (hhard : c.hardCheckpointPosition ≤ d.hardCheckpointPosition)
    (hle : c.checkpointPosition ≤ d.checkpointPosition) : Behind b d :=
  ⟨h.header_le_hard, Nat.le_trans h.hard_le hhard, h.header_le, Nat.le_trans h.le hle⟩

theorem behind_of_agrees {w : Nat → Int} {b c : Checkpoints} (h : Agrees w b)
    (hhard : b.hardCheckpointPosition = c.hardCheckpointPosition)
    (hcp : b.checkpointPosition = c.checkpointPosition) : Behind b c :=
  ⟨h.header_le, Nat.le_of_eq hhard, Nat.le_trans h.header_le h.hard_le, Nat.le_of_eq hcp⟩

/-- What a reader knows: only one that ignored the header can be ahead of it. -/
structure Reader.Follows (r : Reader) (c : Checkpoints) : Prop where
  header_le_hard : headerSize ≤ r.journal.getHardCheckpoint
  hard_le : r.journal.getHardCheckpoint ≤ c.hardCheckpointPosition
  header_le : headerSize ≤ r.journal.getCheckpoint
  le : Believing r.recovery → r.journal.getCheckpoint ≤ c.checkpointPosition

theorem Reader.Follows.trans {r : Reader} {c d : Checkpoints} (h : r.Follows c)
    (hhard : c.hardCheckpointPosition ≤ d.hardCheckpointPosition)
    (hle : c.checkpointPosition ≤ d.checkpointPosition) : r.Follows d :=
  ⟨h.header_le_hard, Nat.le_trans h.hard_le hhard, h.header_le,
    fun hr => Nat.le_trans (h.le hr) hle⟩

theorem Reader.Follows.behind {r : Reader} {c : Checkpoints} (h : r.Follows c)
    (hr : Believing r.recovery) : Behind r.journal.checkpoints c :=
  ⟨h.header_le_hard, h.hard_le, h.header_le, h.le hr⟩

theorem Behind.follows {j : Journal} {c : Checkpoints} (h : Behind j.checkpoints c)
    (recovery : Recovery) : Reader.Follows ⟨recovery, j⟩ c :=
  ⟨h.header_le_hard, h.hard_le, h.header_le, fun _ => h.le⟩

/-- A journal whose last read of the header was of these bytes. -/
def pulled (j : Journal) (data : Bytes) : Journal :=
  { onto j data with
    checkpoints := j.checkpoints.readCheckpoint (headerWord (slice data 0 32)) (-1) }

/-- What a pull makes of the words `c`. -/
structure Pulled (j : Journal) (data : Bytes) (c : Checkpoints) (j' : Journal) : Prop where
  buffer : j'.fileBuffer = (onto j data).fileBuffer
  agrees : Agrees (headerWord data) j'.checkpoints
  hard : j'.getHardCheckpoint = c.hardCheckpointPosition
  checkpoint : j'.getCheckpoint = c.checkpointPosition

section Pulling

variable {j : Journal} {data : Bytes} {c : Checkpoints} (hlen : headerSize ≤ data.length)
  (hc : Agrees (headerWord data) c)

theorem headerWord_pulled {k : Nat} (hk : k < 4) :
    headerWord (slice data 0 32) k = headerWord data k := by
  rw [headerWord, slice_slice (by omega), Nat.zero_add, Nat.zero_add, headerWord]

include hlen

/-- A pull never fails. -/
theorem pullWithoutLocking_onto :
    pullWithoutLocking (onto j data) = .ok () (pulled j data) := by
  have hlen' : 0 + 32 ≤ data.length := by rw [headerSize] at hlen; omega
  have hread : (onto j data).file.fullPread 32 0 = (slice data 0 32, true) := by
    rw [File.fullPread_eq]
    exact Prod.ext rfl (decide_eq_true (.inr hlen'))
  rw [pullWithoutLocking, hread]
  rfl

include hc

/-- Whatever a reader believed, a pull finds the hard checkpoint, and the last
checkpoint unless the reader is ahead of it. -/
theorem pull_follows {r : Reader} (hr : r.Follows c) :
    ∃ j', pull (onto r.journal data) = .ok (j'.getCheckpoint - r.journal.getCheckpoint) j' ∧
      j'.getHardCheckpoint = c.hardCheckpointPosition ∧
      j'.getCheckpoint = max r.journal.getCheckpoint c.checkpointPosition := by
  obtain ⟨hhard, hcp⟩ := Checkpoints.readCheckpoint_max (n := -1)
    (hc.congr fun _ hk => headerWord_pulled hk) (.inl (by decide)) hr.hard_le
    hr.header_le_hard (Nat.lt_of_lt_of_le (by decide) hr.header_le)
  refine ⟨pulled r.journal data, ?_, hhard, hcp⟩
  rw [pull, get_bind_run, bind_ok (pullWithoutLocking_onto hlen)]
  rfl

variable (hb : Behind j.checkpoints c)
include hb

/-- A journal that is not ahead finds the checkpoints that the header tells. -/
theorem pullWithoutLocking_pulled :
    ∃ j', pullWithoutLocking (onto j data) = .ok () j' ∧ Pulled j data c j' := by
  obtain ⟨hhard, hcp, hagrees⟩ := Checkpoints.readCheckpoint_agrees (n := -1)
    (hc.congr fun _ hk => headerWord_pulled hk) (.inl (by decide)) hb.hard_le
    hb.header_le_hard hb.le (Nat.lt_of_lt_of_le (by decide) hb.header_le)
  exact ⟨pulled j data, pullWithoutLocking_onto hlen, rfl,
    hagrees.congr fun _ hk => (headerWord_pulled hk).symm, hhard, hcp⟩

theorem pull_pulled :
    ∃ j', pull (onto j data) = .ok (j'.getCheckpoint - j.getCheckpoint) j' ∧
      Pulled j data c j' := by
  obtain ⟨j', hpull, hj'⟩ := pullWithoutLocking_pulled hlen hc hb
  refine ⟨j', ?_, hj'⟩
  rw [pull, get_bind_run, bind_ok hpull]
  rfl

theorem lockPull_pulled (hshared : j.isShared = true) :
    ∃ j', lockPull (onto j data) = .ok () j' ∧ Pulled j data c j' := by
  obtain ⟨j', hpull, hj'⟩ := pullWithoutLocking_pulled hlen hc hb
  refine ⟨j', ?_, hj'⟩
  have hs : (onto j data).isShared = true := hshared
  rw [lockPull, get_bind_run, if_pos hs]
  exact hpull

end Pulling

/-! ## What carries a run -/

namespace Shared

variable {ι : Type}

/-- A writer without the lock has nothing to write. -/
structure Waiting (j : Journal) : Prop where
  idle : j.fileBuffer.Idle
  position_le : j.getPosition ≤ j.getCheckpoint

/-- The writer with the lock knows the header, and is at work behind its
checkpoint unless it is still on its way there. -/
structure Holding (j : Journal) (data : Bytes) (c : Checkpoints) : Prop where
  data_eq : j.file.data = data
  agrees : Agrees (headerWord data) j.checkpoints
  hard : j.getHardCheckpoint = c.hardCheckpointPosition
  checkpoint : j.getCheckpoint = c.checkpointPosition
  work : j.Sound ∨ Waiting j

/-- What holds of a file with a header that tells `c`. -/
structure Good (s : Shared ι) (c : Checkpoints) : Prop where
  header : HasHeader s.data
  agrees : Agrees (headerWord s.data) c
  size : c.checkpointPosition ≤ s.data.length
  last : c.checkpointPosition = lastCheckpoint s.record
  lastHard : c.hardCheckpointPosition = lastHardCheckpoint s.record
  readers : ∀ i r, s.readers i = some r → r.Follows c
  writers : ∀ i j, s.writers i = some j → Behind j.checkpoints c ∧ j.isShared = true
  waiting : ∀ i j, s.writers i = some j → s.tail ≠ some i → Waiting j
  holding : ∀ i j, s.writers i = some j → s.tail = some i → Holding j s.data c

/-- A file that nobody has opened yet. -/
structure New (s : Shared ι) : Prop where
  data : s.data = []
  readers : ∀ i, s.readers i = none
  writers : ∀ i, s.writers i = none
  tail : s.tail = none
  record : s.record = []

end Shared

theorem waiting_of_pulled {j : Journal} (h : Shared.Waiting j) {data : Bytes} {c : Checkpoints}
    {j' : Journal} (hj : Pulled j data c j') (hle : j.getCheckpoint ≤ c.checkpointPosition) :
    Shared.Waiting j' := by
  have hbuffer : j'.fileBuffer = (Sharing.onto j data).fileBuffer := hj.buffer
  have hidle := h.idle
  refine ⟨?_, ?_⟩
  · rw [hbuffer]
    exact ⟨hidle.noRead, hidle.noIndex⟩
  · have hpos : j'.getPosition = j.getPosition := by
      rw [Journal.getPosition, hbuffer]
      rfl
    rw [hpos, hj.checkpoint]
    exact Nat.le_trans h.position_le hle

/-- A waiting writer that has come to its checkpoint is at work. -/
theorem sound_of_waiting {j : Journal} (h : Shared.Waiting j) (hheader : HasHeader j.file.data)
    (hagrees : Agrees (headerWord j.file.data) j.checkpoints)
    (hsize : j.getCheckpoint ≤ j.file.data.length)
    (hpos : j.getCheckpoint ≤ j.getPosition) : j.Sound := by
  have heq : j.fileBuffer.position = j.getCheckpoint := by
    rw [← h.idle.getPosition]
    exact Nat.le_antisymm h.position_le hpos
  refine ⟨⟨h.idle.writing, ?_, hagrees.header_le, hagrees.hard_le, ?_⟩, hagrees, hheader⟩
  · rw [heq]; exact hsize
  · rw [heq]

/-- A writer at work with nothing beyond its checkpoint may wait. -/
theorem waiting_of_sound {j : Journal} (h : j.Sound) (hpos : j.getPosition ≤ j.getCheckpoint) :
    Shared.Waiting j := by
  have hready := h.ready
  have hcp := hready.checkpoint_le
  rw [Journal.getPosition, hready.writing.getPosition] at hpos
  refine ⟨⟨hready.writing.noRead, by omega⟩, ?_⟩
  rw [Journal.getPosition, hready.writing.getPosition]
  exact hpos

theorem holding_of_pulled {j j' : Journal} {data : Bytes} {c : Checkpoints}
    (hj : Pulled j data c j') (hwork : j'.Sound ∨ Shared.Waiting j') :
    Shared.Holding j' data c where
  data_eq := by
    rw [Journal.file, hj.buffer]
    rfl
  agrees := hj.agrees
  hard := hj.hard
  checkpoint := hj.checkpoint
  work := hwork

/-! ## Writing -/

theorem pwriteAll_isShared (f : File) (off : Nat) (cs : List Bytes) :
    (f.pwriteAll off cs).isShared = f.isShared := by
  induction cs generalizing f off with
  | nil => rfl
  | cons c cs ih =>
      rw [File.pwriteAll, ih]
      rfl

theorem isShared_of_appends {b b' : FileBuffer} {bs : Bytes} (h : b.Appends bs b') :
    b'.file.isShared = b.file.isShared := by
  obtain ⟨cs, hfile, -, -⟩ := h.chunks
  rw [hfile, pwriteAll_isShared]

theorem act_isShared {j : Journal} (h : j.Ready) (a : Action) :
    (j.act a).isShared = j.isShared := by
  have hflush : j.flush.isShared = j.isShared :=
    isShared_of_appends (flush_appends h.writing).1
  cases a with
  | perform op => exact isShared_of_appends (perform_performs h.writing op).appends
  | flush => exact hflush
  | softCheckpointAt p =>
      rw [Journal.act]
      rcases Nat.lt_or_ge j.getCheckpoint p with hlt | hge
      · rw [softCheckpointAt_of_lt hlt]
        exact hflush
      · rw [softCheckpointAt_of_le hge]
  | hardCheckpointAt p =>
      rw [Journal.act]
      rcases Nat.lt_or_ge j.getHardCheckpoint p with hlt | hge
      · rw [hardCheckpointAt_of_lt hlt]
        exact hflush
      · rw [hardCheckpointAt_of_le hge]

/-- The record keeps what the journal knows of itself. -/
theorem act_record {j : Journal} (h : j.Ready) (a : Action)
    {record : List Written} (hlast : j.getCheckpoint = lastCheckpoint record)
    (hhard : j.getHardCheckpoint = lastHardCheckpoint record) :
    (j.act a).getCheckpoint = lastCheckpoint (written j a ++ record) ∧
      (j.act a).getHardCheckpoint = lastHardCheckpoint (written j a ++ record) := by
  cases a with
  | perform op =>
      have hc := (perform_performs h.writing op).checkpoints
      exact ⟨(congrArg Checkpoints.checkpointPosition hc).trans hlast,
        (congrArg Checkpoints.hardCheckpointPosition hc).trans hhard⟩
  | flush => exact ⟨hlast, hhard⟩
  | softCheckpointAt p =>
      rw [Journal.act, written]
      rcases Nat.lt_or_ge j.getCheckpoint p with hlt | hge
      · rw [softCheckpointAt_of_lt hlt, if_pos hlt]
        exact ⟨rfl, hhard⟩
      · rw [softCheckpointAt_of_le hge, if_neg (Nat.not_lt.mpr hge)]
        exact ⟨hlast, hhard⟩
  | hardCheckpointAt p =>
      rw [Journal.act, written]
      rcases Nat.lt_or_ge j.getHardCheckpoint p with hlt | hge
      · rw [hardCheckpointAt_of_lt hlt, if_pos hlt]
        exact ⟨rfl, rfl⟩
      · rw [hardCheckpointAt_of_le hge, if_neg (Nat.not_lt.mpr hge)]
        exact ⟨hlast, hhard⟩

/-- No checkpoint goes back. -/
theorem act_le {j : Journal} (h : j.Ready) {a : Action} (ha : AtEnd j a) :
    j.getCheckpoint ≤ (j.act a).getCheckpoint ∧
      j.getHardCheckpoint ≤ (j.act a).getHardCheckpoint := by
  have hend : j.getCheckpoint ≤ j.getPosition :=
    Nat.le_trans h.checkpoint_le h.position_le
  cases a with
  | perform op =>
      have hc := (perform_performs h.writing op).checkpoints
      exact ⟨Nat.le_of_eq (congrArg Checkpoints.checkpointPosition hc).symm,
        Nat.le_of_eq (congrArg Checkpoints.hardCheckpointPosition hc).symm⟩
  | flush => exact ⟨Nat.le_refl _, Nat.le_refl _⟩
  | softCheckpointAt p =>
      rw [Journal.act]
      rcases Nat.lt_or_ge j.getCheckpoint p with hlt | hge
      · rw [softCheckpointAt_of_lt hlt]
        exact ⟨Nat.le_of_lt hlt, Nat.le_refl _⟩
      · rw [softCheckpointAt_of_le hge]
        exact ⟨Nat.le_refl _, Nat.le_refl _⟩
  | hardCheckpointAt p =>
      obtain ⟨rfl, -⟩ := ha p rfl
      rw [Journal.act]
      rcases Nat.lt_or_ge j.getHardCheckpoint j.getPosition with hlt | hge
      · rw [hardCheckpointAt_of_lt hlt]
        exact ⟨hend, Nat.le_of_lt hlt⟩
      · rw [hardCheckpointAt_of_le hge]
        exact ⟨Nat.le_refl _, Nat.le_refl _⟩

theorem allowed_of_atEnd {j : Journal} {a : Action} (ha : AtEnd j a) : j.Allowed a := by
  cases a with
  | perform op => trivial
  | flush => trivial
  | softCheckpointAt p => exact ⟨Nat.le_of_eq (ha p rfl).1, (ha p rfl).2⟩
  | hardCheckpointAt p => exact ⟨Nat.le_of_eq (ha p rfl).1, (ha p rfl).2⟩

/-! ## The steps -/

namespace Shared

variable {ι : Type} [DecidableEq ι] {s : Shared ι} {c : Checkpoints}

/-- A journal that is found after one was put in is that one or an old one. -/
theorem update_some {α : Type} {f : ι → Option α} {i k : ι} {j j' : α}
    (hk : Function.update f i (some j) k = some j') :
    (k = i ∧ j' = j) ∨ (k ≠ i ∧ f k = some j') := by
  by_cases hki : k = i
  · rw [hki, Function.update_self] at hk
    exact .inl ⟨hki, (Option.some.inj hk).symm⟩
  · rw [Function.update_of_ne hki] at hk
    exact .inr ⟨hki, hk⟩

theorem Good.setReader (h : s.Good c) (i : ι) {r : Reader} (hr : r.Follows c) :
    (s.setReader i r).Good c := by
  refine { h with readers := fun k r' hk => ?_ }
  rcases update_some hk with ⟨-, rfl⟩ | ⟨-, hk'⟩
  · exact hr
  · exact h.readers k r' hk'

theorem Good.setWriter (h : s.Good c) (i : ι) {j : Journal} (hj : Behind j.checkpoints c)
    (hshared : j.isShared = true) (hwaiting : s.tail ≠ some i → Waiting j)
    (hholding : s.tail = some i → Holding j s.data c) : (s.setWriter i j).Good c := by
  refine { h with writers := ?_, waiting := ?_, holding := ?_ }
  · intro k j' hk
    rcases update_some hk with ⟨-, rfl⟩ | ⟨-, hk'⟩
    · exact ⟨hj, hshared⟩
    · exact h.writers k j' hk'
  · intro k j' hk htail
    rcases update_some hk with ⟨rfl, rfl⟩ | ⟨-, hk'⟩
    · exact hwaiting htail
    · exact h.waiting k j' hk' htail
  · intro k j' hk htail
    rcases update_some hk with ⟨rfl, rfl⟩ | ⟨-, hk'⟩
    · exact hholding htail
    · exact h.holding k j' hk' htail

omit [DecidableEq ι] in
/-- Taking the lock with what was pulled. -/
theorem Good.lock (h : s.Good c) {i : ι} {j : Journal} (hj : s.writers i = some j)
    (htail : s.tail = none) (hholding : Holding j s.data c) :
    ({ s with tail := some i } : Shared ι).Good c := by
  refine { h with waiting := fun k j' hk hne => ?_, holding := fun k j' hk heq => ?_ }
  · exact h.waiting k j' hk (by rw [htail]; exact fun h => nomatch h)
  · obtain rfl := Option.some.inj heq
    rw [show s.writers i = some j' from hk] at hj
    exact Option.some.inj hj ▸ hholding

omit [DecidableEq ι] in
/-- Giving it back. -/
theorem Good.unlock (h : s.Good c) {i : ι} {j : Journal} (hj : s.writers i = some j)
    (htail : s.tail = some i) (hwaiting : Waiting j) :
    ({ s with tail := none } : Shared ι).Good c := by
  refine { h with waiting := fun k j' hk _ => ?_, holding := fun k j' _ heq => nomatch heq }
  by_cases hki : k = i
  · rw [← hki, show s.writers k = some j' from hk] at hj
    exact Option.some.inj hj ▸ hwaiting
  · exact h.waiting k j' hk (by rw [htail]; exact fun h => hki (Option.some.inj h).symm)

/-- What the writer with the lock does is known to all that look. -/
theorem Good.act (h : s.Good c) {i : ι} {j : Journal} (hj : s.writers i = some j)
    (htail : s.tail = some i) (hpos : j.getCheckpoint ≤ j.getPosition) {a : Action}
    (ha : AtEnd j a) : (s.act i j a).Good (j.act a).checkpoints := by
  have hholding := h.holding i j hj htail
  have hdata := hholding.data_eq
  have hsound : j.Sound := by
    rcases hholding.work with hsound | hwaiting
    · exact hsound
    · exact sound_of_waiting hwaiting (by rw [hdata]; exact h.header)
        (by rw [hdata]; exact hholding.agrees)
        (by rw [hholding.checkpoint, hdata]; exact h.size) hpos
  have hsound' := hsound.act (allowed_of_atEnd ha)
  obtain ⟨hcp, hhard⟩ := act_record hsound.ready a
    (hholding.checkpoint.trans h.last) (hholding.hard.trans h.lastHard)
  obtain ⟨hle, hlehard⟩ := act_le hsound.ready ha
  have hbehind : ∀ {b : Checkpoints}, Behind b c → Behind b (j.act a).checkpoints := by
    intro b hb
    exact hb.trans (hholding.hard ▸ hlehard) (hholding.checkpoint ▸ hle)
  refine ⟨hsound'.header, hsound'.agrees, ?_, hcp, hhard,
    fun k r hk => (h.readers k r hk).trans (hholding.hard ▸ hlehard) (hholding.checkpoint ▸ hle),
    ?_, ?_, ?_⟩
  · exact Nat.le_trans hsound'.ready.checkpoint_le hsound'.ready.flushed
  · intro k j' hk
    rcases update_some hk with ⟨rfl, rfl⟩ | ⟨-, hk'⟩
    · exact ⟨behind_of_agrees hsound'.agrees rfl rfl,
        (act_isShared hsound.ready a).trans (h.writers k j hj).2⟩
    · exact ⟨hbehind (h.writers k j' hk').1, (h.writers k j' hk').2⟩
  · intro k j' hk hne
    rcases update_some hk with ⟨rfl, rfl⟩ | ⟨-, hk'⟩
    · exact absurd htail hne
    · exact h.waiting k j' hk' hne
  · intro k j' hk heq
    rcases update_some hk with ⟨rfl, rfl⟩ | ⟨hki, -⟩
    · exact ⟨rfl, hsound'.agrees, rfl, rfl, .inl hsound'⟩
    · have htail' : s.tail = some k := heq
      rw [htail] at htail'
      exact absurd (Option.some.inj htail').symm hki

/-- Every writer knows what a pull tells it. -/
theorem Good.pulledWriter (h : s.Good c) {i : ι} {j j' : Journal}
    (hj : s.writers i = some j) (hj' : Pulled j s.data c j') : (s.setWriter i j').Good c := by
  obtain ⟨hbehind, hshared⟩ := h.writers i j hj
  have hshared' : j'.isShared = true := by
    rw [isShared, Journal.file, hj'.buffer]
    exact hshared
  refine h.setWriter i (behind_of_agrees hj'.agrees hj'.hard hj'.checkpoint) hshared'
    (fun hne => waiting_of_pulled (h.waiting i j hj hne) hj' hbehind.le) fun heq => ?_
  have hholding := h.holding i j hj heq
  refine holding_of_pulled hj' ?_
  rcases hholding.work with hsound | hwaiting
  · have hbuffer : j'.fileBuffer = j.fileBuffer := by
      rw [hj'.buffer, onto, ← hholding.data_eq]
      rfl
    have hfile : j'.file = j.file := congrArg FileBuffer.file hbuffer
    refine .inl ⟨⟨?_, ?_, hj'.agrees.header_le, hj'.agrees.hard_le, ?_⟩, ?_, ?_⟩
    · rw [hbuffer]; exact hsound.ready.writing
    · rw [hbuffer, hfile]; exact hsound.ready.flushed
    · rw [hj'.checkpoint, hbuffer, ← hholding.checkpoint]; exact hsound.ready.checkpoint_le
    · rw [hfile, hholding.data_eq]; exact hj'.agrees
    · rw [hfile]; exact hsound.header
  · exact .inr (waiting_of_pulled hwaiting hj' hbehind.le)

theorem good_of_opened {file : File} {j : Journal} (h : s.Good c) (i : ι)
    (hfile : file.data = s.data) (hshared : file.isShared = true) (htail : s.tail = none)
    (hj : Opened file c j) : ({ s.setWriter i j with data := j.file.data } : Shared ι).Good c := by
  have hdata : j.file.data = s.data := by rw [hj.file_eq, hfile]
  have hpos : j.getPosition = headerSize := hj.idle.getPosition.trans hj.position
  have hgood := h.setWriter i (behind_of_agrees hj.agrees hj.hardCheckpoint hj.checkpoint)
    (by rw [isShared, hj.file_eq]; exact hshared)
    (fun _ => ⟨hj.idle, by
      rw [hpos]; exact Nat.le_trans hj.agrees.header_le hj.agrees.hard_le⟩)
    (fun heq => by rw [htail] at heq; cases heq)
  rwa [hdata]

end Shared

/-- A reader that ignores the header knows the size of the file alone. -/
theorem openReadonly_ignoring {file : File} {j : Journal} (hlen : headerSize ≤ file.data.length)
    (hopen : openReadonly file .ignoreHeader false = .ok j) :
    j.getHardCheckpoint = headerSize ∧ j.getCheckpoint = file.data.length := by
  rw [openReadonly, if_pos (by rw [File.getSize]; rw [headerSize] at hlen; omega),
    fullPread_header hlen, if_pos rfl, openCheckpoints, if_pos rfl] at hopen
  split at hopen
  · cases hopen
  · next c hc =>
      obtain rfl := Except.ok.inj hopen
      split at hc
      · obtain rfl := Except.ok.inj hc
        exact ⟨rfl, rfl⟩
      · next hsize =>
          obtain rfl := Except.ok.inj hc
          exact ⟨rfl, Nat.le_antisymm hlen (Nat.not_lt.mp hsize)⟩

/-- A file that is shared can be written to. -/
theorem isReadonly_of_isShared {file : File} (h : file.isShared = true) :
    file.isReadonly = false := by
  have hmode : file.mode = .sharedWrite := of_decide_eq_true h
  rw [File.isReadonly, hmode]
  rfl

/-- A reader refuses a new file. -/
theorem openReadonly_empty {file : File} (h : file.data = []) (recovery : Recovery) :
    openReadonly file recovery false = .error (.exception "file is empty") := by
  have hsize : file.getSize = 0 := by rw [File.getSize, h]; rfl
  rw [openReadonly, if_neg (not_not_intro hsize)]
  rfl

section Steps

variable {ι : Type} [DecidableEq ι] {s s' : Shared ι} {c : Checkpoints}

/-- Nothing can be done with a new file but to open it for writing. -/
theorem good_of_new (h : s.New) (hstep : Step Believing s s') :
    s'.Good .initial := by
  cases hstep with
  | @openReader i file recovery j hfile hopen =>
      rw [openReadonly_empty (hfile.trans h.data)] at hopen
      cases hopen
  | @openWriter i file recovery j hfile hshared htail hr hopen =>
      have hempty : file.data = [] := hfile.trans h.data
      have hmode := isReadonly_of_isShared hshared
      obtain ⟨j', hopen', hready, -, hjfile, hdata, hc, -, hidle, hpos⟩ :=
        openWritable_new hempty hmode recovery
      rw [hopen] at hopen'
      obtain rfl := Except.ok.inj hopen'
      obtain ⟨hsound, -⟩ := openWritable_sound hempty hmode hopen
      have hjshared : j.isShared = true := by
        rw [isShared, hjfile]
        exact hshared
      have hone : ∀ k j', Function.update s.writers i (some j) k = some j' → j' = j := by
        intro k j' hk
        rcases Shared.update_some hk with ⟨-, rfl⟩ | ⟨-, hk'⟩
        · rfl
        · rw [h.writers k] at hk'
          cases hk'
      refine ⟨hsound.header, hc ▸ hsound.agrees, ?_, ?_, ?_, fun k j' hk => ?_,
        fun k j' hk => ?_, fun k j' hk _ => ?_, fun k j' _ heq => ?_⟩
      · exact hsound.ready.header_le_length
      · show headerSize = lastCheckpoint s.record
        rw [h.record]
        rfl
      · show headerSize = lastHardCheckpoint s.record
        rw [h.record]
        rfl
      · have hnone : s.readers k = some j' := hk
        rw [h.readers k] at hnone
        cases hnone
      · rw [hone k j' hk, hc]
        exact ⟨⟨Nat.le_refl _, Nat.le_refl _, Nat.le_refl _, Nat.le_refl _⟩, hjshared⟩
      · rw [hone k j' hk]
        refine ⟨hidle, ?_⟩
        rw [Journal.getPosition, hidle.getPosition, hpos, getCheckpoint, hc]
        exact Nat.le_refl _
      · have hnone : s.tail = some k := heq
        rw [htail] at hnone
        cases hnone
  | pullReader hr _ => rw [h.readers] at hr; cases hr
  | pullWriter hj _ => rw [h.writers] at hj; cases hj
  | lock hj _ _ _ => rw [h.writers] at hj; cases hj
  | catchUp hj _ _ _ _ _ _ => rw [h.writers] at hj; cases hj
  | act hj _ _ _ _ => rw [h.writers] at hj; cases hj
  | unlock hj _ _ => rw [h.writers] at hj; cases hj

theorem good_step (h : s.Good c) (hstep : Step Believing s s') : ∃ c', s'.Good c' := by
  cases hstep with
  | @openReader i file recovery j hfile hopen =>
      have hheader : HasHeader file.data := by rw [hfile]; exact h.header
      by_cases hr : recovery = .ignoreHeader
      · obtain rfl := hr
        obtain ⟨hhard, hcp⟩ := openReadonly_ignoring hheader.length hopen
        exact ⟨c, h.setReader i ⟨Nat.le_of_eq hhard.symm, hhard ▸ h.agrees.header_le,
          hcp ▸ hheader.length, fun hr => absurd rfl hr⟩⟩
      · obtain ⟨j', hopen', hj'⟩ := openReadonly_opened hheader
          (by rw [hfile]; exact h.agrees) (by rw [hfile]; exact h.size) recovery hr false
        rw [hopen] at hopen'
        obtain rfl := Except.ok.inj hopen'
        exact ⟨c, h.setReader i
          ((behind_of_agrees hj'.agrees hj'.hardCheckpoint hj'.checkpoint).follows recovery)⟩
  | @openWriter i file recovery j hfile hshared htail hr hopen =>
      have hj := opened_of_openWritable (by rw [hfile]; exact h.header)
        (by rw [hfile]; exact h.agrees) (by rw [hfile]; exact h.size) hr hopen
      exact ⟨c, Shared.good_of_opened h i hfile hshared htail hj⟩
  | @pullReader i r j' n hr hpull =>
      have hfollows := h.readers i r hr
      obtain ⟨j'', hpull', hhard, hcp⟩ := pull_follows h.header.length h.agrees hfollows
      rw [hpull] at hpull'
      obtain ⟨-, rfl⟩ := EStateM.Result.ok.inj hpull'
      exact ⟨c, h.setReader i ⟨hhard ▸ h.agrees.header_le, Nat.le_of_eq hhard,
        hcp ▸ Nat.le_trans hfollows.header_le (Nat.le_max_left ..),
        fun hbelieving => hcp ▸ Nat.max_le.mpr ⟨hfollows.le hbelieving, Nat.le_refl _⟩⟩⟩
  | @pullWriter i j j' n hj hpull =>
      obtain ⟨j'', hpull', hj''⟩ := pull_pulled h.header.length h.agrees (h.writers i j hj).1
      rw [hpull] at hpull'
      obtain ⟨-, rfl⟩ := EStateM.Result.ok.inj hpull'
      exact ⟨c, h.pulledWriter hj hj''⟩
  | @lock i j j' hj htail hpos hpull =>
      obtain ⟨hbehind, hshared⟩ := h.writers i j hj
      obtain ⟨j'', hpull', hj''⟩ := lockPull_pulled h.header.length h.agrees hbehind hshared
      rw [hpull] at hpull'
      obtain ⟨-, rfl⟩ := EStateM.Result.ok.inj hpull'
      have hwait := h.waiting i j hj (by rw [htail]; exact fun h => nomatch h)
      exact ⟨c, (h.pulledWriter hj hj'').lock (Function.update_self ..) htail
        (holding_of_pulled hj'' (.inr (waiting_of_pulled hwait hj'' hbehind.le)))⟩
  | @catchUp i j j' hj htail hpos hfile hc hidle hend =>
      obtain ⟨hbehind, hshared⟩ := h.writers i j hj
      have hholding := h.holding i j hj htail
      have hcp : j'.getCheckpoint = j.getCheckpoint := by rw [getCheckpoint, hc]; rfl
      refine ⟨c, h.setWriter i (by rw [hc]; exact hbehind)
        (by rw [isShared, hfile]; exact hshared) (fun hne => absurd htail hne) fun _ =>
        ⟨by rw [hfile]; exact hholding.data_eq, by rw [hc]; exact hholding.agrees, ?_,
          hcp.trans hholding.checkpoint, .inr ⟨hidle, ?_⟩⟩⟩
      · rw [getHardCheckpoint, hc]
        exact hholding.hard
      · rw [hend, hcp]
  | act hj htail hpos a ha => exact ⟨_, h.act hj htail hpos ha⟩
  | @unlock i j hj htail hpos =>
      refine ⟨c, h.unlock hj htail ?_⟩
      rcases (h.holding i j hj htail).work with hsound | hwaiting
      · exact waiting_of_sound hsound hpos
      · exact hwaiting

/-- Every run: the file is new, or its header tells what the record says. -/
theorem Reach.good (h : Reach Believing s) : s.New ∨ ∃ c, s.Good c := by
  induction h with
  | initial => exact .inl ⟨rfl, fun _ => rfl, fun _ => rfl, rfl, rfl⟩
  | step _ hstep ih =>
      rcases ih with hnew | ⟨c, hgood⟩
      · exact .inr ⟨_, good_of_new hnew hstep⟩
      · exact .inr (good_step hgood hstep)

end Steps

/-! ## What the journals read -/

/-- The pair that `hard_index` names holds the last hard checkpoint twice. -/
def NamesHard (data : Bytes) (record : List Written) (j : Journal) : Prop :=
  ∀ b, headerWord data (wordIndex j.checkpoints.hardIndex b) = lastHardCheckpoint record

section Agreement

variable {ι : Type} [DecidableEq ι] {s : Shared ι} {c : Checkpoints}

omit [DecidableEq ι] in
theorem knows_of_opened (h : s.Good c) {file : File} {j : Journal} (hj : Opened file c j) :
    s.Knows j :=
  ⟨hj.checkpoint.trans h.last, hj.hardCheckpoint.trans h.lastHard⟩

omit [DecidableEq ι] in
/-- An opening that reads the header. -/
theorem knows_of_opening (h : s.Good c) {file : File} {recovery : Recovery} {j : Journal}
    (hfile : file.data = s.data) (hr : Believing recovery)
    (hopen : openReadonly file recovery false = .ok j ∨
      file.isShared = true ∧ openWritable file recovery = .ok j) : s.Knows j := by
  have hheader : HasHeader file.data := by rw [hfile]; exact h.header
  have hagrees : Agrees (headerWord file.data) c := by rw [hfile]; exact h.agrees
  have hsize : c.checkpointPosition ≤ file.data.length := by rw [hfile]; exact h.size
  rcases hopen with hopen | ⟨-, hopen⟩
  · obtain ⟨j', hopen', hj'⟩ := openReadonly_opened hheader hagrees hsize recovery hr false
    rw [hopen] at hopen'
    exact knows_of_opened h (Except.ok.inj hopen' ▸ hj')
  · exact knows_of_opened h (opened_of_openWritable hheader hagrees hsize hr hopen)

omit [DecidableEq ι] in
/-- Of a new file there is only the opening that writes the header. -/
theorem knows_of_new (h : s.New) {file : File} {recovery : Recovery} {j : Journal}
    (hfile : file.data = s.data)
    (hopen : openReadonly file recovery false = .ok j ∨
      file.isShared = true ∧ openWritable file recovery = .ok j) : s.Knows j := by
  have hempty : file.data = [] := hfile.trans h.data
  rcases hopen with hopen | ⟨hshared, hopen⟩
  · rw [openReadonly_empty hempty] at hopen
    cases hopen
  · have hc := (openWritable_sound hempty (isReadonly_of_isShared hshared) hopen).2
    rw [Shared.Knows, h.record, getCheckpoint, getHardCheckpoint, hc]
    exact ⟨rfl, rfl⟩

omit [DecidableEq ι] in
theorem knows_of_pulled (h : s.Good c) {j j' : Journal} (hj : Pulled j s.data c j') :
    s.Knows j' :=
  ⟨hj.checkpoint.trans h.last, hj.hard.trans h.lastHard⟩

omit [DecidableEq ι] in
theorem namesHard_of_pulled (h : s.Good c) {j j' : Journal} (hj : Pulled j s.data c j') :
    NamesHard s.data s.record j' := by
  intro b
  rw [hj.agrees.pair b, ← h.lastHard]
  exact congrArg Nat.cast hj.hard

omit [DecidableEq ι] in
/-- A soft checkpoint goes across from the pair of the hard one. -/
theorem softCheckpoint_namesHard (h : s.Good c) {i : ι} {j : Journal}
    (hj : s.writers i = some j) (htail : s.tail = some i) (hmax : j.getPosition < 2 ^ 63) :
    NamesHard j.softCheckpoint.file.data s.record j := by
  have hholding := h.holding i j hj htail
  have hdata := hholding.data_eq
  have hpair : ∀ b, headerWord s.data (wordIndex j.checkpoints.hardIndex b)
      = lastHardCheckpoint s.record := by
    intro b
    rw [hholding.agrees.pair b, ← h.lastHard]
    exact congrArg Nat.cast hholding.hard
  intro b
  rw [softCheckpoint]
  rcases Nat.lt_or_ge j.getCheckpoint j.getPosition with hlt | hge
  · have hsound : j.Sound := by
      rcases hholding.work with hsound | hwaiting
      · exact hsound
      · exact absurd hwaiting.position_le (Nat.not_le.mpr hlt)
    rw [(hsound.ready.softCheckpointAt hlt (Nat.le_refl _) hmax).words _ (wordIndex_lt _ _),
      softWords, setWord_pair_of_ne _ (.inl (by simp)), hdata]
    exact hpair b
  · rw [softCheckpointAt_of_le hge, hdata]
    exact hpair b

end Agreement

/-- In every run, every opening that reads the header and every pull after it
knows the last checkpoints, and a writer that has pulled under the lock names
the pair of the hard one, which no soft checkpoint of it overwrites. A reader
that has ignored the header pulls the hard checkpoint as well, and stays where
it was only as long as it is ahead. -/
theorem header_agreement {ι : Type} [DecidableEq ι] {s : Shared ι}
    (hs : Reach Believing s) :
    (∀ (file : File) (recovery : Recovery) (j : Journal), file.data = s.data →
      Believing recovery → openReadonly file recovery false = .ok j ∨
        file.isShared = true ∧ openWritable file recovery = .ok j → s.Knows j) ∧
    (∀ i r, s.readers i = some r →
      ∃ j', pull (onto r.journal s.data) = .ok (j'.getCheckpoint - r.journal.getCheckpoint) j' ∧
        (Believing r.recovery → s.Knows j') ∧
        j'.getHardCheckpoint = lastHardCheckpoint s.record ∧
        j'.getCheckpoint = max r.journal.getCheckpoint (lastCheckpoint s.record)) ∧
    (∀ i j, s.writers i = some j →
      ∃ j', pull (onto j s.data) = .ok (j'.getCheckpoint - j.getCheckpoint) j' ∧ s.Knows j') ∧
    (∀ i j, s.writers i = some j → ∃ j', lockPull (onto j s.data) = .ok () j' ∧
      s.Knows j' ∧ NamesHard s.data s.record j') ∧
    (∀ i j, s.writers i = some j → s.tail = some i →
      s.Knows j ∧ NamesHard s.data s.record j ∧
        (j.getPosition < 2 ^ 63 → NamesHard j.softCheckpoint.file.data s.record j)) := by
  rcases hs.good with hnew | ⟨c, hgood⟩
  · have hnone : ∀ i j, s.writers i ≠ some j := by
      intro i j hj
      rw [hnew.writers] at hj
      cases hj
    refine ⟨fun file recovery j hfile hr hopen => ?_, fun i r hr => ?_,
      fun i j hj => absurd hj (hnone i j), fun i j hj => absurd hj (hnone i j),
      fun i j hj => absurd hj (hnone i j)⟩
    · exact knows_of_new hnew hfile hopen
    · rw [hnew.readers] at hr
      cases hr
  · refine ⟨fun file recovery j hfile hr hopen => ?_, fun i r hr => ?_, fun i j hj => ?_,
      fun i j hj => ?_,
      fun i j hj htail => ⟨?_, ?_, softCheckpoint_namesHard hgood hj htail⟩⟩
    · exact knows_of_opening hgood hfile hr hopen
    · have hfollows := hgood.readers i r hr
      obtain ⟨j', hpull, hhard, hcp⟩ :=
        pull_follows hgood.header.length hgood.agrees hfollows
      refine ⟨j', hpull, fun hbelieving => ⟨?_, hhard.trans hgood.lastHard⟩,
        hhard.trans hgood.lastHard, hgood.last ▸ hcp⟩
      rw [hcp, Nat.max_eq_right (hfollows.le hbelieving), hgood.last]
    · obtain ⟨j', hpull, hj'⟩ :=
        pull_pulled hgood.header.length hgood.agrees (hgood.writers i j hj).1
      exact ⟨j', hpull, knows_of_pulled hgood hj'⟩
    · obtain ⟨hbehind, hshared⟩ := hgood.writers i j hj
      obtain ⟨j', hpull, hj'⟩ :=
        lockPull_pulled hgood.header.length hgood.agrees hbehind hshared
      exact ⟨j', hpull, knows_of_pulled hgood hj', namesHard_of_pulled hgood hj'⟩
    · have hholding := hgood.holding i j hj htail
      exact ⟨hholding.checkpoint.trans hgood.last, hholding.hard.trans hgood.lastHard⟩
    · have hholding := hgood.holding i j hj htail
      intro b
      rw [hholding.agrees.pair b, ← hgood.lastHard]
      exact congrArg Nat.cast hholding.hard

/-! ## A run -/

/-- The first writer of a shared file. -/
def firstWriter : Journal :=
  (blank ⟨.sharedWrite, .whole, [], []⟩).put (·.iteratorWrite Header.initial.bytes)

/-- It has the lock and has written one operation. -/
def firstWritten : Journal :=
  (after lockPull (onto firstWriter Header.initial.bytes)).act (.perform .validData)

/-- The file after its hard checkpoint. -/
def firstRun : Shared Unit :=
  ((({ ({ Shared.initial.setWriter () firstWriter with data := firstWriter.file.data }
      : Shared Unit).setWriter () (after lockPull (onto firstWriter Header.initial.bytes)) with
      tail := some () } : Shared Unit).act ()
        (after lockPull (onto firstWriter Header.initial.bytes)) (.perform .validData)).act ()
          firstWritten (.hardCheckpointAt 42))

theorem reach_firstRun {trusted : Recovery → Prop} (h : trusted .none) :
    Reach trusted firstRun := by
  have hdata : firstWriter.file.data = Header.initial.bytes := by decide
  have hlock : lockPull (onto firstWriter firstWriter.file.data)
      = .ok () (after lockPull (onto firstWriter Header.initial.bytes)) := by
    obtain ⟨j', hpull, -⟩ := lockPull_pulled (j := firstWriter) (c := .initial)
      hasHeader_initial.length (agrees_initial.congr fun k hk => headerWord_initial hk)
      ⟨Nat.le_refl _, Nat.le_refl _, Nat.le_refl _, Nat.le_refl _⟩ rfl
    rw [hdata, hpull, after_ok hpull]
  have hopen : openWritable ⟨.sharedWrite, .whole, [], []⟩ .none = .ok firstWriter := rfl
  refine .step (.step (.step (.step .initial (.openWriter () rfl rfl rfl h hopen))
    (.lock rfl rfl (by decide +kernel) hlock)) (.act rfl rfl (by decide +kernel)
      (.perform .validData) fun p hp => nomatch hp)) (.act rfl rfl (by decide +kernel)
        (.hardCheckpointAt 42) fun p hp => ?_)
  obtain rfl := Option.some.inj hp
  exact ⟨by decide +kernel, by decide⟩

theorem header_agreement_firstRun :
    ∃ j', lockPull (onto (firstWritten.act (.hardCheckpointAt 42)) firstRun.data) = .ok () j' ∧
      firstRun.Knows j' ∧ NamesHard firstRun.data firstRun.record j' :=
  (header_agreement (reach_firstRun (show Believing .none from fun h => nomatch h))).2.2.2.1
    () _ rfl

/-- An opening that ignores the header knows the size of the file, and nothing
of the hard checkpoint. -/
theorem ignored_header :
    ∃ s : Shared Unit, Reach Believing s ∧ ∃ j,
      openReadonly ⟨.readExisting, .whole, s.data, []⟩ .ignoreHeader false = .ok j ∧
        ¬ s.Knows j := by
  have heval : (openReadonly ⟨.readExisting, .whole, firstRun.data, []⟩ .ignoreHeader
      false).toOption.map (fun j => j.getHardCheckpoint) = some 41 ∧
      lastHardCheckpoint firstRun.record = 42 := by decide +kernel
  refine ⟨firstRun, reach_firstRun (fun h => nomatch h), ?_⟩
  cases hopen : openReadonly ⟨.readExisting, .whole, firstRun.data, []⟩ .ignoreHeader false with
  | error e => rw [hopen] at heval; exact nomatch heval.1
  | ok j =>
      rw [hopen] at heval
      refine ⟨j, rfl, fun hknows => ?_⟩
      have hhard : j.getHardCheckpoint = 41 := Option.some.inj heval.1
      have := hknows.2
      omega

end Joedb.Sharing
