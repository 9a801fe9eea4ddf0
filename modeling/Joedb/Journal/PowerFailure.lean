import Joedb.Lib.Disk
import Joedb.Journal.Actions

/-!
# Power failures

The file lies on a disk: what was not synced may be lost, in any part. What has
to be kept is the hard checkpoint. `Secure` is the invariant, a property of the
disk: whatever the words turn out to be, one pair holds the hard checkpoint
twice, no second word reaches it in the other pair, and below it nothing is
pending. Every call of a journal keeps that, but for the second word of a hard
checkpoint, from which on the new checkpoint may be read, and after the
`datasync` must be.

Between these two calls the new pair can be seen but is not durable. A process
that is killed there leaves a file whose next opening takes the new pair for the
hard checkpoint, and whose next soft checkpoint goes to the only durable one.
`Trusted` rules such an opening out, and one that ignores the header.
-/

namespace Joedb

open ByteFile FileBuffer

/-- What a call does to the disk. -/
def Call.onDisk (d : Disk) : Call → Disk
  | .pwrite off bytes => d.write off bytes
  | .sync => d.sync
  | .datasync => d.sync

namespace PowerFailure

def runCalls (d : Disk) (cs : List Call) : Disk := cs.foldl Call.onDisk d

theorem runCalls_append (d : Disk) (cs cs' : List Call) :
    runCalls d (cs ++ cs') = runCalls (runCalls d cs) cs' := List.foldl_append

@[simp] theorem runCalls_cons (d : Disk) (c : Call) (cs : List Call) :
    runCalls d (c :: cs) = runCalls (c.onDisk d) cs := rfl

@[simp] theorem runCalls_nil (d : Disk) : runCalls d [] = d := rfl

theorem content_onDisk (d : Disk) (c : Call) : (c.onDisk d).content = c.apply d.content := by
  cases c with
  | pwrite off bytes => exact Disk.content_write
  | sync => rfl
  | datasync => rfl

theorem content_runCalls (d : Disk) (cs : List Call) :
    (runCalls d cs).content = cs.foldl Call.apply d.content := by
  induction cs generalizing d with
  | nil => rfl
  | cons c cs ih => rw [runCalls_cons, ih, content_onDisk]; rfl

theorem length_durable_le (d : Disk) : d.durable.length ≤ d.content.length := by
  obtain ⟨f, ws⟩ := d
  show f.length ≤ (ws.foldl (fun f w => pwrite f w.1 w.2) f).length
  induction ws generalizing f with
  | nil => exact Nat.le_refl _
  | cons w ws ih => exact Nat.le_trans (length_le_pwrite _ _ _) (ih _)

/-! ## Words -/

/-- What a power failure may make of word `k` of the header. -/
def Word (d : Disk) (k : Nat) (v : Int) : Prop :=
  ∃ word, d.MayHold (8 * k) 8 word ∧ v = decodeInt64 word

theorem word_settled {f : Bytes} (h : headerSize ≤ f.length) {k : Nat} (hk : k < 4) {v : Int} :
    Word ⟨f, []⟩ k v ↔ v = headerWord f k := by
  have hle : 8 * k + 8 ≤ f.length := by rw [headerSize] at h; omega
  constructor
  · rintro ⟨word, hword, rfl⟩
    rw [(Disk.mayHold_settled hle).mp hword]; rfl
  · rintro rfl
    exact ⟨_, (Disk.mayHold_settled hle).mpr rfl, rfl⟩

/-- A write behind the words is none to a word. -/
theorem word_of_write_data {d : Disk} {off : Nat} {bytes : Bytes} (hoff : 32 ≤ off) {k : Nat}
    (hk : k < 4) {v : Int} (h : Word (d.write off bytes) k v) : Word d k v := by
  obtain ⟨word, hword, rfl⟩ := h
  rcases hword.of_write with hold | ⟨hle, -⟩
  · exact ⟨word, hold, rfl⟩
  · omega

theorem word_of_write_word {d : Disk} {i k : Nat} {x v : Int} (hlo : -(2 ^ 63) ≤ x)
    (hhi : x < 2 ^ 63) (h : Word (d.write (8 * i) (encodeInt64 x)) k v) :
    Word d k v ∨ (k = i ∧ v = x) := by
  obtain ⟨word, hword, rfl⟩ := h
  rcases hword.of_write with hold | ⟨hle, hge, rfl⟩
  · exact .inl ⟨word, hold, rfl⟩
  · rw [length_encodeInt64] at hge
    obtain rfl : k = i := by omega
    refine .inr ⟨rfl, ?_⟩
    have hself := slice_zero_length (encodeInt64 x)
    rw [length_encodeInt64] at hself
    rw [Nat.sub_self, Nat.zero_add, hself, decodeInt64_encodeInt64 hlo hhi]

theorem word_write {d : Disk} {k : Nat} {v : Int} (h : Word d k v) (off : Nat) (bytes : Bytes) :
    Word (d.write off bytes) k v := by
  obtain ⟨word, hword, rfl⟩ := h
  exact ⟨word, hword.write off bytes, rfl⟩

theorem word_write_self (d : Disk) (i : Nat) {x : Int} (hlo : -(2 ^ 63) ≤ x)
    (hhi : x < 2 ^ 63) : Word (d.write (8 * i) (encodeInt64 x)) i x := by
  have hself := Disk.mayHold_write_self d (8 * i) (encodeInt64 x)
  rw [length_encodeInt64] at hself
  exact ⟨_, hself, (decodeInt64_encodeInt64 hlo hhi).symm⟩

/-- The header of a new file is one write to all words. -/
theorem word_of_write_initial {d : Disk} {k : Nat} (hk : k < 4) {v : Int}
    (h : Word (d.write 0 Header.initial.bytes) k v) : Word d k v ∨ v = headerSize := by
  obtain ⟨word, hword, rfl⟩ := h
  rcases hword.of_write with hold | ⟨-, -, rfl⟩
  · exact .inl ⟨word, hold, rfl⟩
  · exact .inr (headerWord_initial hk)

theorem word_write_initial (d : Disk) {k : Nat} (hk : k < 4) :
    Word (d.write 0 Header.initial.bytes) k headerSize := by
  refine ⟨_, .inr ⟨_, List.mem_append_right _ (List.mem_singleton_self _), Nat.zero_le _, ?_, rfl⟩,
    (headerWord_initial hk).symm⟩
  have hlen : Header.initial.bytes.length = 41 := by decide
  show 8 * k + 8 ≤ 0 + Header.initial.bytes.length
  omega

/-! ## The invariant -/

/-- The hard checkpoint of `c` is durable. `passed` are the positions that hard
checkpoints were asked for, each with what the journal had below it. -/
structure Durable (d : Disk) (c : Checkpoints) (passed : List (Nat × Bytes)) : Prop where
  pair : ∀ j v, Word d (wordIndex c.hardIndex j) v → v = c.hardCheckpointPosition
  other : ∀ v, Word d (wordIndex (!c.hardIndex) true) v → v < c.hardCheckpointPosition
  length : c.hardCheckpointPosition ≤ d.durable.length
  header : HasHeader d.durable
  away : ∀ w ∈ d.pending, w.1 + w.2.length ≤ 32 ∨ c.hardCheckpointPosition ≤ w.1
  below : slice d.content 32 c.hardCheckpointPosition
    = slice d.durable 32 c.hardCheckpointPosition
  passed : (c.hardCheckpointPosition, slice d.durable headerSize c.hardCheckpointPosition)
    ∈ passed

structure Secure (d : Disk) (c : Checkpoints) (passed : List (Nat × Bytes)) : Prop where
  header_le : headerSize ≤ c.hardCheckpointPosition
  second : ∀ i v, Word d (wordIndex i true) v → v ≤ c.hardCheckpointPosition
  current : headerSize ≤ d.content.length → ∀ k < 4, Word d k (headerWord d.content k)
  durable : headerSize < c.hardCheckpointPosition → Durable d c passed

namespace Secure

variable {d : Disk} {c : Checkpoints} {passed : List (Nat × Bytes)}

theorem mono (h : Secure d c passed) (more : List (Nat × Bytes)) :
    Secure d c (passed ++ more) :=
  ⟨h.header_le, h.second, h.current, fun hlt =>
    { h.durable hlt with passed := List.mem_append_left _ (h.durable hlt).passed }⟩

/-- Only the position and the pair of the hard checkpoint count. -/
theorem congr (h : Secure d c passed) {c' : Checkpoints}
    (hhard : c'.hardCheckpointPosition = c.hardCheckpointPosition)
    (hindex : headerSize < c.hardCheckpointPosition → c'.hardIndex = c.hardIndex) :
    Secure d c' passed := by
  refine ⟨by rw [hhard]; exact h.header_le, by rw [hhard]; exact h.second, h.current,
    fun hlt => ?_⟩
  rw [hhard] at hlt
  have hdurable := h.durable hlt
  refine ⟨?_, ?_, ?_, hdurable.header, ?_, ?_, ?_⟩
  · rw [hhard, hindex hlt]; exact hdurable.pair
  · rw [hhard, hindex hlt]; exact hdurable.other
  · rw [hhard]; exact hdurable.length
  · rw [hhard]; exact hdurable.away
  · rw [hhard]; exact hdurable.below
  · rw [hhard]; exact hdurable.passed

/-- What is seen agrees with the hard checkpoint. -/
theorem hardAgrees (h : Secure d c passed) (hlen : headerSize ≤ d.content.length) :
    HardAgrees (headerWord d.content) c :=
  ⟨h.header_le,
    fun hlt j => (h.durable hlt).pair j _ (h.current hlen _ (wordIndex_lt _ _)),
    fun i => h.second i _ (h.current hlen _ (wordIndex_lt _ _))⟩

/-- A power failure keeps what is secure. -/
theorem survives (h : Secure d c passed) {image : Bytes} (him : d.Survives 4 8 image) :
    Secure ⟨image, []⟩ c passed := by
  have hword : ∀ i j v, Word ⟨image, []⟩ (wordIndex i j) v → Word d (wordIndex i j) v := by
    rintro i j v ⟨word, hword, rfl⟩
    exact ⟨word, him.mayHold (wordIndex_lt i j) hword, rfl⟩
  refine ⟨h.header_le, fun i v hv => h.second i v (hword _ _ _ hv),
    fun hlen k hk => (word_settled hlen hk).mpr rfl, fun hlt => ?_⟩
  have hdurable := h.durable hlt
  have hrest : ∀ a, 32 ≤ a → slice image a c.hardCheckpointPosition
      = slice d.durable a c.hardCheckpointPosition := fun a ha =>
    him.rest a _ ha hdurable.length fun w hw =>
      (hdurable.away w hw).imp (fun hle => Nat.le_trans hle ha) id
  refine ⟨fun j v hv => hdurable.pair j v (hword _ _ _ hv),
    fun v hv => hdurable.other v (hword _ _ _ hv),
    Nat.le_trans hdurable.length him.length_le, ?_, fun w hw => absurd hw List.not_mem_nil,
    rfl, ?_⟩
  · refine hdurable.header.of_slice him.length_le ?_
    refine him.rest 32 41 (Nat.le_refl _) hdurable.header.length fun w hw => ?_
    rw [headerSize] at hlt
    exact (hdurable.away w hw).imp id fun hle => by omega
  · show (_, slice image headerSize _) ∈ passed
    rw [hrest headerSize (by decide)]
    exact hdurable.passed

end Secure

/-! ## Calls that keep it -/

/-- Secure, with a header to be seen. -/
structure Steady (d : Disk) (c : Checkpoints) (passed : List (Nat × Bytes)) : Prop
    extends Secure d c passed where
  header : HasHeader d.content

/-- A call on the header that leaves the hard checkpoint alone. -/
inductive HeadCall (c : Checkpoints) : Call → Prop where
  | word (i j : Bool) (x : Int) (hlo : -(2 ^ 63) ≤ x) (hhi : x < 2 ^ 63)
      (hpair : headerSize < c.hardCheckpointPosition → i ≠ c.hardIndex)
      (hsecond : j = true → x < 0) :
      HeadCall c (.pwrite (8 * wordIndex i j) (encodeInt64 x))
  | sync : HeadCall c .sync
  | datasync : HeadCall c .datasync

namespace Steady

variable {d : Disk} {c : Checkpoints} {passed : List (Nat × Bytes)}

/-- A write of data, behind the hard checkpoint. -/
theorem data (h : Steady d c passed) {off : Nat} (hoff : c.hardCheckpointPosition ≤ off)
    (hlen : off ≤ d.content.length) (bytes : Bytes) :
    Steady (d.write off bytes) c passed := by
  have hhead : 41 ≤ off := Nat.le_trans h.header_le hoff
  refine ⟨⟨h.header_le, fun i v hv => ?_, fun _ k hk => ?_, fun hlt => ?_⟩, ?_⟩
  · exact h.second i v (word_of_write_data (by omega) (wordIndex_lt _ _) hv)
  · rw [Disk.content_write, headerWord_pwrite_of_le hlen (by omega) bytes hk]
    exact word_write (h.current h.header.length k hk) _ _
  · have hdurable := h.durable hlt
    refine ⟨fun j v hv => ?_, fun v hv => ?_, hdurable.length, hdurable.header,
      fun w hw => ?_, ?_, hdurable.passed⟩
    · exact hdurable.pair j v (word_of_write_data (by omega) (wordIndex_lt _ _) hv)
    · exact hdurable.other v (word_of_write_data (by omega) (wordIndex_lt _ _) hv)
    · rcases List.mem_append.mp hw with hold | hnew
      · exact hdurable.away w hold
      · rw [List.mem_singleton.mp hnew]; exact .inr hoff
    · rw [Disk.content_write, slice_pwrite_of_disjoint hlen (.inl hoff)]
      exact hdurable.below
  · rw [Disk.content_write]
    exact h.header.pwrite_behind hlen hhead bytes

theorem callsAt (h : Steady d c passed) {off : Nat} (hoff : c.hardCheckpointPosition ≤ off)
    (hlen : off ≤ d.content.length) (cs : List Bytes) :
    Steady (runCalls d (File.callsAt off cs)) c passed := by
  induction cs generalizing d off with
  | nil => exact h
  | cons bytes cs ih =>
      refine ih (h.data hoff hlen bytes) (Nat.le_trans hoff (Nat.le_add_right _ _)) ?_
      show off + bytes.length ≤ (d.write off bytes).content.length
      rw [Disk.content_write, length_pwrite]
      omega

/-- What was seen is durable, and all that can be. -/
theorem sync (h : Steady d c passed) : Steady d.sync c passed := by
  have hlen := h.header.length
  have hword : ∀ i j v, Word d.sync (wordIndex i j) v → Word d (wordIndex i j) v := by
    intro i j v hv
    rw [(word_settled hlen (wordIndex_lt i j)).mp hv]
    exact h.current hlen _ (wordIndex_lt i j)
  refine ⟨⟨h.header_le, fun i v hv => h.second i v (hword _ _ _ hv),
    fun _ k hk => (word_settled hlen hk).mpr rfl, fun hlt => ?_⟩, h.header⟩
  have hdurable := h.durable hlt
  have hbelow : slice d.content headerSize c.hardCheckpointPosition
      = slice d.durable headerSize c.hardCheckpointPosition := by
    have hcut := congrArg (slice · 9 (c.hardCheckpointPosition - 32)) hdurable.below
    rw [slice_slice (Nat.le_refl _), slice_slice (Nat.le_refl _)] at hcut
    have hle := h.header_le
    rw [headerSize] at hle
    rwa [show 32 + 9 = headerSize from rfl,
      show 32 + (c.hardCheckpointPosition - 32) = c.hardCheckpointPosition by omega] at hcut
  refine ⟨fun j v hv => hdurable.pair j v (hword _ _ _ hv),
    fun v hv => hdurable.other v (hword _ _ _ hv),
    Nat.le_trans hdurable.length (length_durable_le d), h.header,
    fun w hw => absurd hw List.not_mem_nil, rfl, ?_⟩
  show (_, slice d.content headerSize _) ∈ passed
  rw [hbelow]
  exact hdurable.passed

theorem head (h : Steady d c passed) {call : Call} (hcall : HeadCall c call) :
    Steady (call.onDisk d) c passed := by
  have hlen := h.header.length
  cases hcall with
  | sync => exact h.sync
  | datasync => exact h.sync
  | word i j x hlo hhi hpair hsecond =>
      have hi := wordIndex_lt i j
      have hhead := hlen
      rw [headerSize] at hhead
      refine ⟨⟨h.header_le, fun i' v hv => ?_, fun _ k hk => ?_, fun hlt => ?_⟩, ?_⟩
      · rcases word_of_write_word hlo hhi hv with hold | ⟨hidx, rfl⟩
        · exact h.second i' v hold
        · have := hsecond (wordIndex_inj hidx).2.symm
          omega
      · show Word (d.write _ _) k (headerWord (d.write _ _).content k)
        rw [Disk.content_write, headerWord_pwrite hlen hi hlo hhi]
        split
        · next hk' => rw [hk']; exact word_write_self d _ hlo hhi
        · exact word_write (h.current hlen k hk) _ _
      · have hdurable := h.durable hlt
        have hne := hpair hlt
        refine ⟨fun j' v hv => ?_, fun v hv => ?_, hdurable.length, hdurable.header,
          fun w hw => ?_, ?_, hdurable.passed⟩
        · rcases word_of_write_word hlo hhi hv with hold | ⟨hidx, -⟩
          · exact hdurable.pair j' v hold
          · exact absurd (wordIndex_inj hidx).1.symm hne
        · rcases word_of_write_word hlo hhi hv with hold | ⟨hidx, rfl⟩
          · exact hdurable.other v hold
          · have := hsecond (wordIndex_inj hidx).2.symm
            omega
        · rcases List.mem_append.mp hw with hold | hnew
          · exact hdurable.away w hold
          · rw [List.mem_singleton.mp hnew]
            exact .inl (by rw [length_encodeInt64]; omega)
        · show slice (d.write _ _).content _ _ = _
          rw [Disk.content_write, slice_pwrite_word hlen hi x (Nat.le_refl _)]
          exact hdurable.below
      · show HasHeader (d.write _ _).content
        rw [Disk.content_write]
        exact h.header.pwrite_word hi x

theorem heads (h : Steady d c passed) {cs : List Call} (hcs : ∀ call ∈ cs, HeadCall c call) :
    Steady (runCalls d cs) c passed := by
  induction cs generalizing d with
  | nil => exact h
  | cons call cs ih =>
      obtain ⟨hcall, hrest⟩ := List.forall_mem_cons.mp hcs
      exact ih (h.head hcall) hrest

end Steady

/-! ## A hard checkpoint -/

/-- A pair that is durable is the hard checkpoint, when it is ahead of the other
one. -/
theorem secure_hard {f : Bytes} {c : Checkpoints} {p : Nat} {passed : List (Nat × Bytes)}
    (hheader : HasHeader f) (hbase : headerSize ≤ c.hardCheckpointPosition)
    (hlt : c.hardCheckpointPosition < p)
    (hold : headerWord f (wordIndex c.hardIndex true) ≤ c.hardCheckpointPosition)
    (hnew : ∀ j, headerWord f (wordIndex (!c.hardIndex) j) = p) (hlen : p ≤ f.length)
    (hpassed : (p, slice f headerSize p) ∈ passed) : Secure ⟨f, []⟩ (c.hard p) passed := by
  have hword : ∀ i j v, Word ⟨f, []⟩ (wordIndex i j) v → v = headerWord f (wordIndex i j) :=
    fun i j v hv => (word_settled hheader.length (wordIndex_lt i j)).mp hv
  refine ⟨Nat.le_trans hbase (Nat.le_of_lt hlt), fun i v hv => ?_,
    fun _ k hk => (word_settled hheader.length hk).mpr rfl, fun _ => ?_⟩
  · rw [hword _ _ _ hv]
    by_cases hi : i = c.hardIndex
    · rw [hi]
      exact Int.le_trans hold (Int.ofNat_le.mpr (Nat.le_of_lt hlt))
    · exact Int.le_of_eq (by rw [Bool.eq_not.mpr hi]; exact hnew true)
  · refine ⟨fun j v hv => ?_, fun v hv => ?_, hlen, hheader,
      fun w hw => absurd hw List.not_mem_nil, rfl, hpassed⟩
    · rw [hword _ _ _ hv]; exact hnew j
    · rw [hword _ _ _ hv, show (!(c.hard p).hardIndex) = c.hardIndex from Bool.not_not _]
      exact Int.lt_of_le_of_lt hold (Int.ofNat_lt.mpr hlt)

/-- The second word of a hard checkpoint is written and not durable: either it is
there after a power failure or it is not. -/
theorem survives_doubt {f : Bytes} {i : Nat} (hi : i < 4) (hlen : headerSize ≤ f.length)
    {x : Int} {image : Bytes}
    (him : ((⟨f, []⟩ : Disk).write (8 * i) (encodeInt64 x)).Survives 4 8 image) :
    Disk.Survives 4 8 ⟨f, []⟩ image ∨
      Disk.Survives 4 8 ⟨pwrite f (8 * i) (encodeInt64 x), []⟩ image := by
  have hhead := hlen
  rw [headerSize] at hhead
  have hlen' := length_pwrite_word hlen hi x
  have hrest : ∀ a b, 4 * 8 ≤ a → b ≤ f.length → slice image a b = slice f a b :=
    fun a b ha hb => him.rest a b ha hb fun w hw => by
      rw [List.mem_singleton.mp hw]
      exact .inl (by rw [length_encodeInt64]; omega)
  -- the word itself, by what the image has for it
  rcases (him.word i hi).of_write with hold | ⟨-, -, hnew⟩
  · refine .inl ⟨him.length_le, fun k hk => ?_, fun a b ha hb _ => hrest a b ha hb⟩
    by_cases hki : k = i
    · rw [hki]; exact hold
    · rcases (him.word k hk).of_write with hother | ⟨hle, hge, -⟩
      · exact hother
      · rw [length_encodeInt64] at hge; omega
  · refine .inr ⟨by rw [hlen']; exact him.length_le, fun k hk => ?_, fun a b ha hb _ => ?_⟩
    · rw [Disk.mayHold_settled (by rw [hlen']; omega)]
      by_cases hki : k = i
      · have hself := slice_zero_length (encodeInt64 x)
        have hat := slice_pwrite_self (show 8 * i ≤ f.length by omega) (encodeInt64 x)
        rw [length_encodeInt64] at hself hat
        rw [hki, hnew, Nat.sub_self, Nat.zero_add, hself, hat]
      · rw [slice_pwrite_of_disjoint (by omega) (by rw [length_encodeInt64]; omega)]
        rcases (him.word k hk).of_write with hother | ⟨hle, hge, -⟩
        · exact (Disk.mayHold_settled (by omega)).mp hother
        · rw [length_encodeInt64] at hge; omega
    · rw [hlen'] at hb
      rw [slice_pwrite_word hlen hi x ha]
      exact hrest a b ha hb

/-! ## States -/

/-- What a hard checkpoint was asked for, with what the journal has below. -/
def asked (j : Journal) : Action → List (Nat × Bytes)
  | .hardCheckpointAt p => [(p, j.body.take (p - headerSize))]
  | .perform _ => []
  | .flush => []
  | .softCheckpointAt _ => []

/-- The last hard checkpoint that completed, after an action. -/
def completes (completed : Nat) : Action → Nat
  | .hardCheckpointAt p => max completed p
  | .perform _ => completed
  | .flush => completed
  | .softCheckpointAt _ => completed

/-- A journal on its disk. -/
structure Running (d : Disk) (j : Journal) (passed : List (Nat × Bytes)) (completed : Nat) :
    Prop where
  ready : j.Ready
  content : j.file.data = d.content
  steady : Steady d j.checkpoints passed
  completed_le : completed ≤ j.getHardCheckpoint

/-- A file nobody has open. -/
inductive Down (passed : List (Nat × Bytes)) (completed : Nat) : Disk → Prop where
  | secure {d : Disk} {c : Checkpoints} (h : Secure d c passed)
      (hle : completed ≤ c.hardCheckpointPosition) : Down passed completed d
  | doubt {f : Bytes} {c : Checkpoints} {p : Nat} (hheader : HasHeader f)
      (hold : Secure ⟨f, []⟩ c passed)
      (hnew : Secure ⟨pwrite f (8 * wordIndex (!c.hardIndex) true) (encodeInt64 p), []⟩
        (c.hard p) passed)
      (hfirst : headerWord f (wordIndex (!c.hardIndex) false) = p)
      (hlt : c.hardCheckpointPosition < p) (hp : (p : Int) < 2 ^ 63)
      (hle : completed ≤ c.hardCheckpointPosition) :
      Down passed completed
        ((⟨f, []⟩ : Disk).write (8 * wordIndex (!c.hardIndex) true) (encodeInt64 p))

/-- A power failure leaves no doubt. -/
theorem Down.survives {passed : List (Nat × Bytes)} {completed : Nat} {d : Disk}
    (h : Down passed completed d) {image : Bytes} (him : d.Survives 4 8 image) :
    ∃ c, Secure ⟨image, []⟩ c passed ∧ completed ≤ c.hardCheckpointPosition := by
  cases h with
  | secure h hle => exact ⟨_, h.survives him, hle⟩
  | doubt hheader hold hnew hfirst hlt hp hle =>
      rcases survives_doubt (wordIndex_lt _ _) hheader.length him with hless | hmore
      · exact ⟨_, hold.survives hless, hle⟩
      · exact ⟨_, hnew.survives hmore, Nat.le_trans hle (Nat.le_of_lt hlt)⟩

namespace Running

variable {d : Disk} {j : Journal} {passed : List (Nat × Bytes)} {completed : Nat}

theorem down (h : Running d j passed completed) : Down passed completed d :=
  .secure h.steady.toSecure h.completed_le

/-- The data of an action. -/
theorem data (h : Running d j passed completed) (ds : List Bytes) :
    Steady (runCalls d (File.callsAt j.fileBuffer.position ds)) j.checkpoints passed :=
  h.steady.callsAt (Nat.le_trans h.ready.hard_le h.ready.checkpoint_le)
    (by rw [← h.content]; exact h.ready.flushed) ds

theorem content_data (h : Running d j passed completed) {ds : List Bytes}
    (hflush : pwrite j.file.data j.fileBuffer.position ds.flatten = j.flush.file.data) :
    (runCalls d (File.callsAt j.fileBuffer.position ds)).content = j.flush.file.data := by
  rw [content_runCalls, ← h.content, Journal.foldl_callsAt h.ready.flushed, hflush]

/-- What a hard checkpoint leaves on the disk. -/
theorem hard_done (h : Running d j passed completed) {p : Nat} (hlt : j.getHardCheckpoint < p)
    (hpos : p ≤ j.getPosition) (hmax : p < 2 ^ 63) :
    Secure ⟨(j.hardCheckpointAt p).file.data, []⟩ (j.checkpoints.hard p)
      (passed ++ asked j (.hardCheckpointAt p)) := by
  have hdone := h.ready.hardCheckpointAt hlt hpos hmax
  have hagrees := h.steady.hardAgrees h.steady.header.length
  rw [← h.content] at hagrees
  have hheader : HasHeader j.flush.file.data := by
    have hold : HasHeader j.file.data := by rw [h.content]; exact h.steady.header
    have heff := (flush_appends h.ready.writing).1.effect h.ready.flushed
    exact hold.of_slice heff.grows (heff.below 32 41 h.ready.header_le_position)
  have hlen : p ≤ (j.hardCheckpointAt p).fileBuffer.position := by
    rw [hdone.position]; exact hpos
  refine secure_hard ?_ h.ready.header_le hlt ?_ (fun s => ?_)
    (Nat.le_trans hlen hdone.ready.flushed) ?_
  · exact hheader.of_slice (Nat.le_of_eq hdone.length.symm) (hdone.behind 32 41 (Nat.le_refl _))
  · rw [hdone.words _ (wordIndex_lt _ _), Journal.hardWords, Journal.tornWords,
      setWord_pair_of_ne _ (.inl (by simp)), setWord_pair_of_ne _ (.inl (by simp))]
    exact hagrees.second _
  · rw [hdone.words _ (wordIndex_lt _ _), Journal.hardWords, Journal.tornWords]
    cases s with
    | false => rw [setWord_pair_of_ne _ (.inr Bool.noConfusion), setWord_pair_self]
    | true => exact setWord_pair_self _ _ _ _
  · rw [hdone.ready.slice_eq_take_body hlen, hdone.body]
    exact List.mem_append_right _ (List.mem_singleton_self _)

/-- A hard checkpoint, up to the `sync`. -/
theorem hard_first (h : Running d j passed completed) {p : Nat} (hmax : p < 2 ^ 63)
    (ds : List Bytes) :
    Steady ((runCalls d (File.callsAt j.fileBuffer.position ds)).write
      (8 * wordIndex (!j.checkpoints.hardIndex) false) (encodeInt64 p)) j.checkpoints passed :=
  (h.data ds).head (.word _ _ _ (by omega) (by omega) (fun _ => by simp) Bool.noConfusion)

/-- Wherever an action is stopped, the file is down and nothing is lost. -/
theorem instant (h : Running d j passed completed) {a : Action} (ha : j.Allowed a)
    {cut : List Call} (hcut : cut <+: j.callsOf a) :
    Down (passed ++ asked j a) completed (runCalls d cut) := by
  have hsecure : ∀ {d' : Disk}, Steady d' j.checkpoints passed →
      Down (passed ++ asked j a) completed d' :=
    fun h' => .secure (h'.toSecure.mono _) h.completed_le
  rcases h.ready.instant hcut with ⟨ds, rfl⟩ | ⟨ds, rest, rfl, hrest, hne, hflush⟩
  · exact hsecure (h.data ds)
  · have hdata := h.content_data hflush
    cases a with
    | perform op => exact absurd (List.prefix_nil.mp hrest) hne
    | flush => exact absurd (List.prefix_nil.mp hrest) hne
    | softCheckpointAt p =>
        rw [Journal.headCalls] at hrest
        split at hrest
        · next hlt =>
            rcases List.prefix_cons_iff.mp hrest with rfl | ⟨tail, rfl, htail⟩
            · exact absurd rfl hne
            · obtain rfl := List.prefix_nil.mp htail
              have hmax := ha.2
              rw [runCalls_append, neg_of_lt (by omega)]
              exact hsecure ((h.data ds).head (.word _ _ _ (by omega) (by omega)
                (fun _ => by simp) (fun _ => by omega)))
        · exact absurd (List.prefix_nil.mp hrest) hne
    | hardCheckpointAt p =>
        rw [Journal.headCalls] at hrest
        split at hrest
        · next hlt =>
            have hmax := ha.2
            have hfirst := h.hard_first hmax ds
            have hdone := h.hard_done hlt ha.1 hmax
            rw [Journal.hardCheckpointAt_of_lt hlt] at hdone
            have hsynced : ((runCalls d (File.callsAt j.fileBuffer.position ds)).write
                (8 * wordIndex (!j.checkpoints.hardIndex) false) (encodeInt64 p)).sync
                = ⟨pwrite j.flush.file.data (8 * wordIndex (!j.checkpoints.hardIndex) false)
                    (encodeInt64 p), []⟩ := by
              rw [Disk.sync, Disk.content_write, hdata]
            have hsync := hfirst.sync
            rw [hsynced] at hsync
            have hhead : headerSize ≤ j.flush.file.data.length := by
              rw [← hdata]; exact (h.data ds).header.length
            have hword := Journal.headerWord_pwrite_setWord hhead (!j.checkpoints.hardIndex) false
              (x := p) (by omega) (by omega)
            rw [runCalls_append]
            rcases Journal.prefix_four hrest hne with (rfl | rfl) | (rfl | rfl)
            · exact hsecure hfirst
            · show Down _ _ (Disk.sync (Disk.write _ _ _))
              rw [hsynced]
              exact hsecure hsync
            · show Down _ _ (Disk.write (Disk.sync (Disk.write _ _ _)) _ _)
              rw [hsynced]
              refine .doubt hsync.header (hsync.toSecure.mono _) hdone ?_ hlt (by omega)
                h.completed_le
              rw [hword, setWord_pair_self]
            · show Down _ _ (Disk.sync (Disk.write (Disk.sync (Disk.write _ _ _)) _ _))
              rw [hsynced]
              exact .secure hdone (Nat.le_trans h.completed_le (Nat.le_of_lt hlt))
        · exact absurd (List.prefix_nil.mp hrest) hne

theorem content_act (h : Running d j passed completed) (a : Action) :
    (j.act a).file.data = (runCalls d (j.callsOf a)).content := by
  obtain ⟨cs, -, -, hdata⟩ := h.ready.callsOf_eq a
  rw [content_runCalls, ← h.content, ← hdata]
  rfl

/-- An action that changes no checkpoint. -/
theorem act_steady (h : Running d j passed completed) {a : Action}
    (hhead : j.headCalls a = []) (hc : (j.act a).checkpoints = j.checkpoints) :
    Steady (runCalls d (j.callsOf a)) (j.act a).checkpoints passed := by
  obtain ⟨cs, hcalls, -, -⟩ := h.ready.callsOf_eq a
  rw [hcalls, hhead, List.append_nil, hc]
  exact h.data cs

theorem soft_steady (h : Running d j passed completed) {p : Nat} (hmax : p < 2 ^ 63) :
    Steady (runCalls d (j.callsOf (.softCheckpointAt p)))
      (j.softCheckpointAt p).checkpoints passed := by
  rcases Nat.lt_or_ge j.getCheckpoint p with hlt | hge
  · obtain ⟨cs, hcalls, -, -⟩ := h.ready.callsOf_eq (.softCheckpointAt p)
    rw [hcalls, Journal.headCalls, if_pos hlt, runCalls_append, neg_of_lt (by omega),
      Journal.softCheckpointAt_of_lt hlt]
    have hcall : HeadCall j.checkpoints (.pwrite (8 * wordIndex (!j.checkpoints.hardIndex)
        (!j.checkpoints.softIndex)) (encodeInt64 (-(p : Int)))) :=
      .word _ _ _ (by omega) (by omega) (fun _ => by simp) (fun _ => by omega)
    have hword := (h.data cs).head hcall
    exact ⟨hword.toSecure.congr rfl fun _ => rfl, hword.header⟩
  · exact h.act_steady (if_neg (Nat.not_lt.mpr hge))
      (congrArg Journal.checkpoints (Journal.softCheckpointAt_of_le hge))

theorem hard_steady (h : Running d j passed completed) {p : Nat} (hpos : p ≤ j.getPosition)
    (hmax : p < 2 ^ 63) :
    Steady (runCalls d (j.callsOf (.hardCheckpointAt p))) (j.hardCheckpointAt p).checkpoints
      (passed ++ asked j (.hardCheckpointAt p)) := by
  rcases Nat.lt_or_ge j.getHardCheckpoint p with hlt | hge
  · obtain ⟨cs, hcalls, -, -⟩ := h.ready.callsOf_eq (.hardCheckpointAt p)
    have hdone := h.hard_done hlt hpos hmax
    have hcontent := h.content_act (.hardCheckpointAt p)
    have hdisk : runCalls d (j.callsOf (.hardCheckpointAt p))
        = ⟨(j.hardCheckpointAt p).file.data, []⟩ := by
      rw [show (j.hardCheckpointAt p).file.data = _ from hcontent, hcalls, Journal.headCalls,
        if_pos hlt, runCalls_append]
      rfl
    rw [hdisk, show (j.hardCheckpointAt p).checkpoints = j.checkpoints.hard p by
      rw [Journal.hardCheckpointAt_of_lt hlt]; rfl]
    exact ⟨hdone, (hdone.durable (Nat.lt_of_le_of_lt h.ready.header_le hlt)).header⟩
  · have hsame := h.act_steady (a := .hardCheckpointAt p) (if_neg (Nat.not_lt.mpr hge))
      (congrArg Journal.checkpoints (Journal.hardCheckpointAt_of_le hge))
    exact ⟨hsame.toSecure.mono _, hsame.header⟩

theorem act (h : Running d j passed completed) {a : Action} (ha : j.Allowed a) :
    Running (runCalls d (j.callsOf a)) (j.act a) (passed ++ asked j a)
      (completes completed a) := by
  refine ⟨h.ready.act ha, h.content_act a, ?_, ?_⟩
  · cases a with
    | perform op =>
        rw [asked, List.append_nil]
        exact h.act_steady rfl (Journal.perform_performs h.ready.writing op).checkpoints
    | flush =>
        rw [asked, List.append_nil]
        exact h.act_steady rfl rfl
    | softCheckpointAt p =>
        rw [asked, List.append_nil]
        exact h.soft_steady ha.2
    | hardCheckpointAt p => exact h.hard_steady ha.1 ha.2
  · have hle := h.completed_le
    cases a with
    | perform op =>
        rw [completes, Journal.act, Journal.getHardCheckpoint,
          (Journal.perform_performs h.ready.writing op).checkpoints]
        exact hle
    | flush => exact hle
    | softCheckpointAt p =>
        rw [completes, Journal.act]
        rcases Nat.lt_or_ge j.getCheckpoint p with hlt | hge
        · rw [Journal.softCheckpointAt_of_lt hlt]; exact hle
        · rw [Journal.softCheckpointAt_of_le hge]; exact hle
    | hardCheckpointAt p =>
        rw [completes, Journal.act]
        rcases Nat.lt_or_ge j.getHardCheckpoint p with hlt | hge
        · rw [Journal.hardCheckpointAt_of_lt hlt]
          show max completed p ≤ p
          omega
        · rw [Journal.hardCheckpointAt_of_le hge]; omega

end Running

/-! ## Opening -/

theorem length_le_foldl_apply (cs : List Call) (f : Bytes) :
    f.length ≤ (cs.foldl Call.apply f).length := by
  induction cs generalizing f with
  | nil => exact Nat.le_refl _
  | cons c cs ih =>
      refine Nat.le_trans ?_ (ih _)
      cases c with
      | pwrite off bytes => exact length_le_pwrite _ _ _
      | sync => exact Nat.le_refl _
      | datasync => exact Nat.le_refl _

/-- What the repairs do to the journal. -/
theorem foldl_repairWord_calls (header : Header) (size : Nat) (l : List Nat) {j : Journal}
    (hidle : j.fileBuffer.Idle) :
    (l.foldl (Journal.repairWord header size) j).checkpoints = j.checkpoints ∧
      (l.foldl (Journal.repairWord header size) j).fileBuffer.Idle ∧
      (l.foldl (Journal.repairWord header size) j).file.calls = j.file.calls
        ++ l.flatMap (Journal.repairCalls header size j.getCheckpoint) ∧
      (l.foldl (Journal.repairWord header size) j).file.data
        = (l.flatMap (Journal.repairCalls header size j.getCheckpoint)).foldl Call.apply
            j.file.data := by
  induction l generalizing j with
  | nil => exact ⟨rfl, hidle, (List.append_nil _).symm, rfl⟩
  | cons k l ih =>
      rw [List.foldl_cons, List.flatMap_cons]
      by_cases hk : neg (header.checkpoint k) > size
      · have hword : Journal.repairWord header size j k = j.withFile ((j.file.pwrite (8 * k)
            (encodeInt64 (neg j.getCheckpoint))).datasync) := if_pos hk
        have hcalls : Journal.repairCalls header size j.getCheckpoint k
            = [.pwrite (8 * k) (encodeInt64 (neg j.getCheckpoint)), .datasync] := if_pos hk
        obtain ⟨hc, hidle', hcs, hdata⟩ := ih (j := j.withFile ((j.file.pwrite (8 * k)
          (encodeInt64 (neg j.getCheckpoint))).datasync)) ⟨hidle.noRead, hidle.noIndex⟩
        rw [hword, hcalls]
        refine ⟨hc, hidle', hcs.trans ?_, hdata.trans ?_⟩
        · show ((j.file.calls ++ [_]) ++ [_]) ++ _ = _
          simp only [List.append_assoc]
          rfl
        · rw [List.foldl_append]
          rfl
      · have hword : Journal.repairWord header size j k = j := if_neg hk
        have hcalls : Journal.repairCalls header size j.getCheckpoint k = [] := if_neg hk
        rw [hword, hcalls]
        exact ih hidle

/-- What an opening for writing has read, and the calls it made. -/
theorem read_of_openWritable {file : File} {recovery : Recovery} (hr : recovery ≠ .ignoreHeader)
    (hne : file.data ≠ []) {j : Journal}
    (hopen : Journal.openWritable file recovery = .ok j) :
    ∃ c, Journal.Read file c j ∧
      j.file.calls = file.calls ++ [0, 1, 2, 3].flatMap
        (Journal.repairCalls (Journal.lockHeader file) file.getSize c.checkpointPosition) ∧
      j.file.data = ([0, 1, 2, 3].flatMap (Journal.repairCalls (Journal.lockHeader file)
        file.getSize c.checkpointPosition)).foldl Call.apply file.data := by
  have hsize : file.getSize ≠ 0 :=
    Nat.pos_iff_ne_zero.mp (List.length_pos_iff.mpr hne)
  rw [Journal.openWritable] at hopen
  split at hopen
  · cases hopen
  · next j₀ hread =>
      obtain ⟨hfile, c, hc⟩ := Journal.read_of_openReadonly hr hne hread
      split at hopen
      · cases hopen
      · split at hopen
        · cases hopen
        · obtain rfl := Except.ok.inj hopen
          obtain ⟨hcheck, hidle, hcalls, hdata⟩ := foldl_repairWord_calls
            (Journal.lockHeader file) file.getSize [0, 1, 2, 3] hc.idle
          rw [Journal.getCheckpoint, hc.checkpoints, hfile] at hcalls hdata
          exact ⟨c, ⟨hc.header, hc.checkpoints_eq, hc.size, hcheck.trans hc.checkpoints, hidle⟩,
            hcalls, hdata⟩

/-- A file as a process opens it. -/
def opened (d : Disk) (mode : OpenMode) (reads : Pread) : File := ⟨mode, reads, d.content, []⟩

namespace Secure

variable {d : Disk} {c : Checkpoints} {passed : List (Nat × Bytes)}
variable {mode : OpenMode} {reads : Pread}

/-- What is read is the hard checkpoint, and the pair it is in. -/
theorem read (h : Secure d c passed) {c' : Checkpoints} {j : Journal}
    (hread : Journal.Read (opened d mode reads) c' j) :
    Secure d c' passed ∧ c'.hardCheckpointPosition = c.hardCheckpointPosition ∧
      c'.hardCheckpointPosition ≤ c'.checkpointPosition ∧ c'.checkpointPosition < 2 ^ 63 := by
  have hlen : headerSize ≤ d.content.length := hread.header.length
  have hwords : ∀ k < 4, (Journal.lockHeader (opened d mode reads)).checkpoint k
      = headerWord d.content k := fun k hk => Journal.lockHeader_checkpoint hlen hk
  have hcontent := h.hardAgrees hlen
  obtain ⟨hhard, hagrees⟩ := Checkpoints.readCheckpoint_hardAgrees (b := .initial)
    (n := (opened d mode reads).getSize) (hcontent.congr hwords) h.header_le (Nat.le_refl _)
    (by decide)
  rw [← hread.checkpoints_eq] at hhard hagrees
  refine ⟨h.congr hhard fun hlt => ?_, hhard, ?_, ?_⟩
  · -- the other pair never shows the hard checkpoint
    by_contra hne
    have hother := (h.durable hlt).other _ (h.current hlen _ (wordIndex_lt _ true))
    have hpair := hagrees.hard (by rw [hhard]; exact hlt) true
    rw [hwords _ (wordIndex_lt _ _), Bool.eq_not.mpr hne, hhard] at hpair
    omega
  · rw [hread.checkpoints_eq, Checkpoints.readCheckpoint_cp, Checkpoints.readCheckpoint_hard]
    exact Nat.le_max_right _ _
  · have hmax : c.hardCheckpointPosition < 2 ^ 63 := by
      rcases Nat.lt_or_ge headerSize c.hardCheckpointPosition with hlt | hge
      · have hpair := hcontent.hard hlt true
        have := (Journal.headerWord_range d.content (wordIndex c.hardIndex true)).2
        omega
      · rw [headerSize] at hge; omega
    rw [hread.checkpoints_eq] at hhard ⊢
    refine Nat.lt_of_le_of_lt (m := 2 ^ 63 - 1) (Checkpoints.readCheckpoint_le (fun i s _ => ?_)
      (by decide) (by omega)) (by decide)
    rw [hwords _ (wordIndex_lt _ _), neg]
    have := Journal.headerWord_range d.content (wordIndex i s)
    split <;> omega

/-- The repairs of an opening leave the hard checkpoint alone. -/
theorem repairs (h : Secure d c passed) (hlen : headerSize ≤ d.content.length)
    {header : Header} (hwords : ∀ k < 4, header.checkpoint k = headerWord d.content k)
    {size checkpoint : Nat} (hpos : 0 < checkpoint) (hmax : checkpoint < 2 ^ 63) :
    ∀ call ∈ [0, 1, 2, 3].flatMap (Journal.repairCalls header size checkpoint),
      HeadCall c call := by
  intro call hcall
  obtain ⟨k, hk, hmem⟩ := List.mem_flatMap.mp hcall
  obtain ⟨i, s, rfl⟩ : ∃ i s, k = wordIndex i s := by
    have hall : ∀ k ∈ [0, 1, 2, 3], ∃ i s, k = wordIndex i s := by decide
    exact hall k hk
  rw [Journal.repairCalls] at hmem
  split at hmem
  · next hback =>
      rw [hwords _ (wordIndex_lt _ _)] at hback
      rcases List.mem_cons.mp hmem with rfl | hmem
      · rw [neg_of_lt (by omega)]
        refine .word _ _ _ (by omega) (by omega) (fun hlt heq => ?_) (fun _ => by omega)
        have hpair := (h.hardAgrees hlen).hard hlt s
        rw [heq, hpair, neg_of_lt (by omega)] at hback
        omega
      · obtain rfl := List.mem_singleton.mp hmem
        exact .datasync
  · exact absurd hmem List.not_mem_nil

/-- Opening a file that holds a header, and stopping the opening anywhere. -/
theorem open_steady (h : Secure d c passed) {recovery : Recovery}
    (hr : recovery ≠ .ignoreHeader) (hne : d.content ≠ []) {j : Journal}
    (hopen : Journal.openWritable (opened d mode reads) recovery = .ok j) {completed : Nat}
    (hle : completed ≤ c.hardCheckpointPosition) :
    (∀ cut, cut <+: j.file.calls → Down passed completed (runCalls d cut)) ∧
      Running (runCalls d j.file.calls) (j.skipDirectlyTo j.getCheckpoint) passed completed := by
  obtain ⟨c', hread, hcalls, hdata⟩ := read_of_openWritable hr hne hopen
  obtain ⟨hsecure, hhard, hhardle, hmax⟩ := h.read hread
  have hlen : headerSize ≤ d.content.length := hread.header.length
  have hcp : headerSize ≤ c'.checkpointPosition := Nat.le_trans hsecure.header_le hhardle
  rw [show (opened d mode reads).calls = [] from rfl, List.nil_append] at hcalls
  have hheads : ∀ call ∈ j.file.calls, HeadCall c' call := by
    rw [hcalls]
    exact hsecure.repairs hlen (fun k hk => Journal.lockHeader_checkpoint hlen hk)
      (Nat.lt_of_lt_of_le (by decide) hcp) hmax
  have hsteady : ∀ cut, cut <+: j.file.calls → Steady (runCalls d cut) c' passed :=
    fun cut hcut => Steady.heads ⟨hsecure, hread.header⟩ fun call hcall =>
      hheads call (hcut.subset hcall)
  refine ⟨fun cut hcut => .secure (hsteady cut hcut).toSecure (by rw [hhard]; exact hle), ?_⟩
  have hcontent : j.file.data = (runCalls d j.file.calls).content := by
    rw [content_runCalls, hdata, hcalls]
    rfl
  have hgrows : d.content.length ≤ j.file.data.length := by
    rw [hdata]; exact length_le_foldl_apply _ _
  obtain ⟨hready, hfile⟩ := Journal.ready_skip hread.idle
    (by rw [Journal.getHardCheckpoint, hread.checkpoints]; exact hsecure.header_le)
    (by rw [Journal.getHardCheckpoint, Journal.getCheckpoint, hread.checkpoints]; exact hhardle)
    (by rw [Journal.getCheckpoint, hread.checkpoints]; exact Nat.le_trans hread.size hgrows)
  refine ⟨hready, by rw [hfile]; exact hcontent, ?_, ?_⟩
  · rw [show (j.skipDirectlyTo j.getCheckpoint).checkpoints = c' from hread.checkpoints]
    exact hsteady _ (List.prefix_refl _)
  · rw [Journal.getHardCheckpoint,
      show (j.skipDirectlyTo j.getCheckpoint).checkpoints = c' from hread.checkpoints, hhard]
    exact hle

/-- Opening an empty file, and stopping the creation. -/
theorem open_new (h : Secure d c passed) (hempty : d.content = [])
    (hmode : (opened d mode reads).isReadonly = false) {recovery : Recovery} {j : Journal}
    (hopen : Journal.openWritable (opened d mode reads) recovery = .ok j) {completed : Nat}
    (hle : completed ≤ c.hardCheckpointPosition) :
    (∀ cut, cut <+: j.file.calls → Down passed completed (runCalls d cut)) ∧
      Running (runCalls d j.file.calls) (j.skipDirectlyTo j.getCheckpoint) passed completed := by
  have hbase : c.hardCheckpointPosition = headerSize := by
    refine Nat.le_antisymm (Nat.not_lt.mp fun hlt => ?_) h.header_le
    have hlen := Nat.le_trans (h.durable hlt).length (length_durable_le d)
    rw [hempty] at hlen
    exact absurd (Nat.lt_of_lt_of_le hlt hlen) (Nat.not_lt_zero _)
  obtain ⟨j', hopen', -, -, hfile, hdata, hc, -, hidle, -⟩ :=
    @Journal.openWritable_new (opened d mode reads) hempty hmode recovery
  rw [hopen] at hopen'
  obtain rfl := Except.ok.inj hopen'
  have hcalls : j.file.calls = [.pwrite 0 Header.initial.bytes] := by rw [hfile]; rfl
  have hcontent : (d.write 0 Header.initial.bytes).content = Header.initial.bytes := by
    rw [Disk.content_write, hempty]; decide
  rw [hbase] at hle
  have hsecure : Secure (d.write 0 Header.initial.bytes) .initial passed := by
    refine ⟨Nat.le_refl _, fun i v hv => ?_, fun _ k hk => ?_,
      fun hlt => absurd hlt (Nat.lt_irrefl _)⟩
    · rcases word_of_write_initial (wordIndex_lt _ _) hv with hold | rfl
      · have := h.second i v hold
        rw [hbase] at this
        exact this
      · exact Int.le_refl _
    · rw [hcontent, headerWord_initial hk]
      exact word_write_initial d hk
  have hdown : Down passed completed (d.write 0 Header.initial.bytes) := .secure hsecure hle
  obtain ⟨hready, hsame⟩ := Journal.ready_skip hidle
    (by rw [Journal.getHardCheckpoint, hc]; exact Nat.le_refl _)
    (by rw [Journal.getHardCheckpoint, Journal.getCheckpoint, hc]; exact Nat.le_refl _)
    (by rw [Journal.getCheckpoint, hc, hdata]; decide)
  rw [hcalls]
  refine ⟨fun cut hcut => ?_, ⟨hready, ?_, ⟨?_, ?_⟩, ?_⟩⟩
  · rcases List.prefix_cons_iff.mp hcut with rfl | ⟨tail, rfl, htail⟩
    · exact .secure h (by rw [hbase]; exact hle)
    · obtain rfl := List.prefix_nil.mp htail
      exact hdown
  · rw [hsame, hdata]; exact hcontent.symm
  · rw [show (j.skipDirectlyTo j.getCheckpoint).checkpoints = .initial from hc]
    exact hsecure
  · show HasHeader (d.write 0 Header.initial.bytes).content
    rw [hcontent]
    exact hasHeader_initial
  · rw [Journal.getHardCheckpoint,
      show (j.skipDirectlyTo j.getCheckpoint).checkpoints = .initial from hc]
    exact hle

end Secure

/-! ## Runs -/

/-- The file on its disk, the journal that has it open if there is one, and what
hard checkpoints were asked for and completed. -/
structure State where
  running : Option Journal
  disk : Disk
  passed : List (Nat × Bytes)
  completed : Nat

/-- An opening that reads the header, and does not find there a pair that is not
durable. -/
def Trusted (d : Disk) (recovery : Recovery) : Prop :=
  recovery ≠ .ignoreHeader ∧
    ∀ i, headerWord d.content (wordIndex i false) = headerWord d.content (wordIndex i true) →
      headerSize < headerWord d.content (wordIndex i true) →
      headerWord d.durable (wordIndex i true) = headerWord d.content (wordIndex i true)

/-- The runs from an empty file whose openings are all `trusted`. A process may
be killed between any two calls, also of an opening, and the power may fail
whenever none has the file open. -/
inductive Reach (trusted : Disk → Recovery → Prop) : State → Prop where
  | empty : Reach trusted ⟨none, ⟨[], []⟩, [], headerSize⟩
  | act {j : Journal} {d : Disk} {passed : List (Nat × Bytes)} {completed : Nat} {a : Action}
      (hs : Reach trusted ⟨some j, d, passed, completed⟩) (ha : j.Allowed a) :
      Reach trusted ⟨some (j.act a), runCalls d (j.callsOf a), passed ++ asked j a,
        completes completed a⟩
  | kill {j : Journal} {d : Disk} {passed : List (Nat × Bytes)} {completed : Nat} {a : Action}
      {cut : List Call} (hs : Reach trusted ⟨some j, d, passed, completed⟩)
      (ha : j.Allowed a) (hcut : cut <+: j.callsOf a) :
      Reach trusted ⟨none, runCalls d cut, passed ++ asked j a, completed⟩
  | powerFailure {d : Disk} {passed : List (Nat × Bytes)} {completed : Nat} {image : Bytes}
      (hs : Reach trusted ⟨none, d, passed, completed⟩) (him : d.Survives 4 8 image) :
      Reach trusted ⟨none, ⟨image, []⟩, passed, completed⟩
  | reopen {d : Disk} {passed : List (Nat × Bytes)} {completed : Nat} {j : Journal}
      (hs : Reach trusted ⟨none, d, passed, completed⟩) (mode : OpenMode) (reads : Pread)
      (recovery : Recovery) (htrust : trusted d recovery)
      (hopen : Journal.openWritable (opened d mode reads) recovery = .ok j) :
      Reach trusted ⟨some (j.skipDirectlyTo j.getCheckpoint), runCalls d j.file.calls, passed,
        completed⟩
  | killOpening {d : Disk} {passed : List (Nat × Bytes)} {completed : Nat} {j : Journal}
      {cut : List Call} (hs : Reach trusted ⟨none, d, passed, completed⟩) (mode : OpenMode)
      (reads : Pread) (recovery : Recovery) (htrust : trusted d recovery)
      (hopen : Journal.openWritable (opened d mode reads) recovery = .ok j)
      (hcut : cut <+: j.file.calls) :
      Reach trusted ⟨none, runCalls d cut, passed, completed⟩

/-- The invariant of a state. -/
def Good (s : State) : Prop :=
  match s.running with
  | none => Down s.passed s.completed s.disk
  | some j => Running s.disk j s.passed s.completed

/-- A trusted opening of a good file. -/
theorem Down.reopen {passed : List (Nat × Bytes)} {completed : Nat} {d : Disk}
    (h : Down passed completed d) {recovery : Recovery} (htrust : Trusted d recovery)
    {mode : OpenMode} {reads : Pread} {j : Journal}
    (hopen : Journal.openWritable (opened d mode reads) recovery = .ok j) :
    (∀ cut, cut <+: j.file.calls → Down passed completed (runCalls d cut)) ∧
      Running (runCalls d j.file.calls) (j.skipDirectlyTo j.getCheckpoint) passed completed := by
  cases h with
  | secure h hle =>
      by_cases hempty : d.content = []
      · refine h.open_new hempty (Bool.eq_false_iff.mpr fun hread => ?_) hopen hle
        rw [Journal.openWritable] at hopen
        split at hopen
        · cases hopen
        · rw [if_pos hread] at hopen; cases hopen
      · exact h.open_steady htrust.1 hempty hopen hle
  | doubt hheader hold hnew hfirst hlt hp hle =>
      rename_i f c p
      -- the new pair is seen, and its second word is not durable
      have hword := Journal.headerWord_pwrite_setWord hheader.length (!c.hardIndex) true
        (x := p) (by omega) hp
      have hpair := htrust.2 (!c.hardIndex)
      rw [Disk.content_write, Disk.content_settled, hword, setWord_pair_self,
        setWord_pair_of_ne _ (.inr Bool.noConfusion)] at hpair
      have hbase := hold.header_le
      have hlow := (hold.hardAgrees hheader.length).second (!c.hardIndex)
      have hdurable : headerWord f (wordIndex (!c.hardIndex) true) = p :=
        hpair hfirst (by omega)
      rw [Disk.content_settled, hdurable] at hlow
      omega

theorem secure_empty : Secure ⟨[], []⟩ .initial [] := by
  refine ⟨Nat.le_refl _, ?_, fun hlen => absurd hlen (by decide),
    fun hlt => absurd hlt (Nat.lt_irrefl _)⟩
  rintro i v ⟨word, rfl | ⟨w, hw, -⟩, rfl⟩
  · cases i <;> decide
  · exact absurd hw List.not_mem_nil

theorem Reach.good {s : State} (h : Reach Trusted s) : Good s := by
  induction h with
  | empty => exact Down.secure secure_empty (Nat.le_refl _)
  | act hs ha ih => exact Running.act ih ha
  | kill hs ha hcut ih => exact Running.instant ih ha hcut
  | powerFailure hs him ih =>
      obtain ⟨c, hc, hle⟩ := Down.survives ih him
      exact .secure hc hle
  | reopen hs mode reads recovery htrust hopen ih => exact (Down.reopen ih htrust hopen).2
  | killOpening hs mode reads recovery htrust hopen hcut ih =>
      exact (Down.reopen ih htrust hopen).1 _ hcut

/-- A durable hard checkpoint is read from what the power failure left. -/
theorem Secure.openReadonly {image : Bytes} {c : Checkpoints} {passed : List (Nat × Bytes)}
    (h : Secure ⟨image, []⟩ c passed) (hlt : headerSize < c.hardCheckpointPosition)
    (mode : OpenMode) (reads : Pread) {recovery : Recovery} (hr : recovery ≠ .ignoreHeader)
    (forWritable : Bool) :
    ∃ j, Journal.openReadonly ⟨mode, reads, image, []⟩ recovery forWritable = .ok j ∧
      j.getHardCheckpoint = c.hardCheckpointPosition := by
  have hdurable := h.durable hlt
  have hheader : HasHeader (File.data ⟨mode, reads, image, []⟩) := hdurable.header
  have hlen : headerSize ≤ image.length := hheader.length
  have hagrees := (h.hardAgrees hlen).congr fun k hk =>
    @Journal.lockHeader_checkpoint ⟨mode, reads, image, []⟩ hlen k hk
  obtain ⟨hhard, -⟩ := Checkpoints.readCheckpoint_hardAgrees (b := .initial)
    (n := image.length) hagrees h.header_le (Nat.le_refl _) (by decide)
  have hle := Checkpoints.readCheckpoint_le (b := .initial) (n := image.length)
    (w := (Journal.lockHeader ⟨mode, reads, image, []⟩).checkpoint) (C := image.length)
    (fun _ _ hsize => hsize.elim (fun hneg => by omega) id) hlen (by
      rw [hhard]; exact hdurable.length)
  have hpos : File.getSize ⟨mode, reads, image, []⟩ ≠ 0 := by
    show image.length ≠ 0
    rw [headerSize] at hlen
    omega
  rw [Journal.openReadonly, if_pos hpos, Journal.fullPread_header hlen, if_pos rfl,
    Journal.openCheckpoints_eq hheader hr]
  simp only []
  rw [if_neg (fun hbig => Nat.not_lt.mpr hle hbig.2)]
  exact ⟨_, rfl, hhard⟩

/-- In every run whose openings can be trusted, a power failure after a completed
hard checkpoint leaves a file that opens, at a hard checkpoint that was asked
for and is not before the last completed one, with everything below it as it
was written. No soft checkpoint touches the pair of the hard one. -/
theorem hard_checkpoint_kept {s : State} (h : Reach Trusted s) :
    (∀ image, s.disk.Survives 4 8 image → headerSize < s.completed →
      ∀ mode reads recovery, recovery ≠ .ignoreHeader → ∀ forWritable, ∃ j,
        Journal.openReadonly ⟨mode, reads, image, []⟩ recovery forWritable = .ok j ∧
        s.completed ≤ j.getHardCheckpoint ∧
        (j.getHardCheckpoint, slice image headerSize j.getHardCheckpoint) ∈ s.passed) ∧
    ∀ j, s.running = some j → headerSize < j.getHardCheckpoint →
      ∀ p, j.Allowed (.softCheckpointAt p) → ∀ i,
        headerWord j.file.data (wordIndex j.checkpoints.hardIndex i) = j.getHardCheckpoint ∧
        headerWord (j.softCheckpointAt p).file.data (wordIndex j.checkpoints.hardIndex i)
          = j.getHardCheckpoint := by
  have hgood := h.good
  obtain ⟨running, disk, passed, completed⟩ := s
  constructor
  · intro image him hdone mode reads recovery hr forWritable
    have hdown : Down passed completed disk := by
      cases running with
      | none => exact hgood
      | some j => exact Running.down hgood
    obtain ⟨c, hc, hle⟩ := hdown.survives him
    have hlt := Nat.lt_of_lt_of_le hdone hle
    obtain ⟨j, hopen, hhard⟩ := hc.openReadonly hlt mode reads hr forWritable
    refine ⟨j, hopen, by rw [hhard]; exact hle, ?_⟩
    rw [hhard]
    exact (hc.durable hlt).passed
  · intro j hj hlt p hp i
    obtain rfl : running = some j := hj
    have hrun : Running disk j passed completed := hgood
    have hsoft := hrun.act hp
    have hword : ∀ {d : Disk} {j' : Journal} {passed' : List (Nat × Bytes)} {completed' : Nat},
        Running d j' passed' completed' → headerSize < j'.getHardCheckpoint →
        headerWord j'.file.data (wordIndex j'.checkpoints.hardIndex i)
          = j'.getHardCheckpoint := fun hr hlt' => by
      rw [hr.content]
      exact (hr.steady.hardAgrees hr.steady.header.length).hard hlt' i
    have hsame : (j.softCheckpointAt p).checkpoints.hardIndex = j.checkpoints.hardIndex ∧
        (j.softCheckpointAt p).getHardCheckpoint = j.getHardCheckpoint := by
      rcases Nat.lt_or_ge j.getCheckpoint p with hlt' | hge
      · rw [Journal.softCheckpointAt_of_lt hlt']; exact ⟨rfl, rfl⟩
      · rw [Journal.softCheckpointAt_of_le hge]; exact ⟨rfl, rfl⟩
    refine ⟨hword hrun hlt, ?_⟩
    have hafter := hword hsoft (by rw [Journal.act, hsame.2]; exact hlt)
    rwa [Journal.act, hsame.1, hsame.2] at hafter

/-! ## Images -/

/-- All that is pending may be lost. -/
theorem survives_durable (d : Disk) : d.Survives 4 8 d.durable :=
  ⟨Nat.le_refl _, fun _ _ => .inl rfl, fun _ _ _ _ _ => rfl⟩

/-- A single word may get through. -/
theorem survives_word {d : Disk} (hlen : headerSize ≤ d.durable.length) {i : Nat} (hi : i < 4)
    {x : Int} (hmem : (8 * i, encodeInt64 x) ∈ d.pending) :
    d.Survives 4 8 (pwrite d.durable (8 * i) (encodeInt64 x)) := by
  have hlen' := length_pwrite_word hlen hi x
  have hhead := hlen
  rw [headerSize] at hhead
  refine ⟨Nat.le_of_eq hlen'.symm, fun k hk => ?_, fun a b ha _ _ => slice_pwrite_word hlen hi x ha⟩
  rw [Disk.padded_of_le (by omega)]
  by_cases hki : k = i
  · have hself := slice_pwrite_self (show 8 * i ≤ d.durable.length by omega) (encodeInt64 x)
    have hall := slice_zero_length (encodeInt64 x)
    rw [length_encodeInt64] at hself hall
    refine .inr ⟨_, hmem, by omega, by rw [length_encodeInt64]; omega, ?_⟩
    rw [hki, hself, Nat.sub_self, Nat.zero_add, hall]
  · refine .inl ?_
    rw [slice_pwrite_of_disjoint (by omega) (by rw [length_encodeInt64]; omega),
      Disk.padded_of_le (by omega)]

/-- A record, a hard checkpoint, and a power failure. -/
theorem hard_checkpoint_kept_once :
    ∃ s : State, s.completed = 42 ∧ ∃ j,
      Journal.openReadonly ⟨.readExisting, .whole, s.disk.durable, []⟩ .none false = .ok j ∧
        42 ≤ j.getHardCheckpoint := by
  have hempty : Reach Trusted _ := .empty
  have hopen := hempty.reopen .createNew .whole .none
    ⟨by decide, fun i _ hlt => absurd hlt (by cases i <;> decide)⟩ rfl
  have hdata := hopen.act (a := .perform .validData) trivial
  have hhard := hdata.act (a := .hardCheckpointAt 42) ⟨by decide, by decide⟩
  obtain ⟨j, hread, hle, -⟩ := (hard_checkpoint_kept hhard).1 _ (survives_durable _) (by decide)
    .readExisting .whole .none (by decide) false
  exact ⟨_, rfl, j, hread, hle⟩

/-- A process is killed between the second word of a hard checkpoint and its
`datasync`, the file is opened again and gets a soft checkpoint, and the power
fails: the first hard checkpoint had completed, and neither is left. -/
theorem hard_checkpoint_lost :
    ∃ (s : State) (image : Bytes),
      Reach (fun _ recovery => recovery ≠ .ignoreHeader) s ∧ s.disk.Survives 4 8 image ∧
      s.completed = 42 ∧
      (Journal.openReadonly ⟨.readExisting, .whole, image, []⟩ .none false).toOption.map
        Journal.getHardCheckpoint = some 41 := by
  have hempty : Reach (fun _ recovery => recovery ≠ .ignoreHeader) _ := .empty
  have hopen := hempty.reopen .createNew .whole .none (by decide) rfl
  have hone := hopen.act (a := .perform .validData) trivial
  have hhard := hone.act (a := .hardCheckpointAt 42) ⟨by decide, by decide⟩
  have htwo := hhard.act (a := .perform .validData) trivial
  have hkill := htwo.kill (a := .hardCheckpointAt 43) ⟨by decide, by decide⟩
    (List.take_prefix 4 _)
  have hagain := hkill.reopen .writeExisting .whole .none (by decide) rfl
  have hthree := hagain.act (a := .perform .validData) trivial
  have hsoft := hthree.act (a := .softCheckpointAt 44) ⟨by decide, by decide⟩
  refine ⟨_, _, hsoft, survives_word (i := 3) (x := -44) ?_ (by decide) ?_, ?_, ?_⟩
  all_goals decide +kernel

end PowerFailure

end Joedb
