import Joedb.Journal.HeldCheckpoints
import Joedb.Journal.PowerFailure
import Joedb.Journal.Sharing

/-!
# Checkpoints only move forward

Any writer that was opened, whatever the header says, and any run of its calls:
writing, checkpoints of both kinds at any position that is written, pulling from
the file and from another journal. `Ahead` is what carries a run: no word of the
header holds a checkpoint past the one of the journal. From there, whatever is
written is ahead of all that was held, and no reader goes back.

One call breaks this. `hard_checkpoint_at` has a test against the hard
checkpoint only, so between the two checkpoints it moves the soft one back, in
memory and, since it overwrites the pair of the soft words, in the file.
`Forward` rules that out.
-/

namespace Joedb

open ByteFile StateExcept FileBuffer

namespace Monotone

/-- The calls of a writer. When it pulls under its lock, `data` is what is in
the file. -/
inductive Step where
  | perform (op : Op)
  | flush
  | skipDirectlyTo (position : Nat)
  | softCheckpoint
  | softCheckpointAt (position : Nat)
  | hardCheckpoint
  | hardCheckpointAt (position : Nat)
  | lockPull (data : Bytes)
  | pullFrom (source : Journal) (until_ : Nat)

/-- What a call leaves, also when it throws. -/
def step (j : Journal) : Step → Journal
  | .perform op => j.perform op
  | .flush => j.flush
  | .skipDirectlyTo p => j.skipDirectlyTo p
  | .softCheckpoint => j.softCheckpoint
  | .softCheckpointAt p => j.softCheckpointAt p
  | .hardCheckpoint => j.hardCheckpoint
  | .hardCheckpointAt p => j.hardCheckpointAt p
  | .lockPull data => after Journal.lockPull (Sharing.onto j data)
  | .pullFrom source until_ => after (Journal.pullFrom source until_) j

/-- The position that a call is for. One that throws is for none. -/
def target (j : Journal) : Step → Option Nat
  | .softCheckpoint => some j.getPosition
  | .softCheckpointAt p => some p
  | .hardCheckpoint => some j.getPosition
  | .hardCheckpointAt p => some p
  | .pullFrom source until_ =>
      match Journal.pullFrom source until_ j with
      | .ok _ _ => some until_
      | .error _ _ => none
  | _ => none

def hardTarget (j : Journal) : Step → Option Nat
  | .hardCheckpoint => some j.getPosition
  | .hardCheckpointAt p => some p
  | _ => none

/-- What was held in a file is held in what became of it, or a checkpoint that
is ahead and lies in the file. -/
structure ReadsOn (f f' : Bytes) : Prop where
  grows : f.length ≤ f'.length
  held : ∀ p, Holds (headerWord f) p →
    ∃ q, p ≤ q ∧ Holds (headerWord f') q ∧ (q ≤ p ∨ q ≤ f'.length)

/-- Positions are of the data that was written, and `int64_t`. What others did
to a shared file does not go back either. -/
def Allowed (j : Journal) : Step → Prop
  | .skipDirectlyTo p => headerSize ≤ p ∧ p ≤ j.flush.file.data.length
  | .softCheckpoint => j.getPosition < 2 ^ 63
  | .softCheckpointAt p => p ≤ j.flush.file.data.length ∧ p < 2 ^ 63
  | .hardCheckpoint => j.getPosition < 2 ^ 63
  | .hardCheckpointAt p => p ≤ j.flush.file.data.length ∧ p < 2 ^ 63
  | .lockPull data => data = j.file.data ∨ (j.isShared = true ∧ ReadsOn j.file.data data)
  | .pullFrom _ until_ => until_ < 2 ^ 63
  | _ => True

/-- A hard checkpoint that is not idle is not behind the soft one. -/
def Forward (j : Journal) (s : Step) : Prop :=
  ∀ p ∈ hardTarget j s, j.getHardCheckpoint < p → j.getCheckpoint ≤ p

/-- The runs whose calls are all `kept`. -/
inductive Run (kept : Journal → Step → Prop) : Journal → Journal → Prop where
  | refl (j : Journal) : Run kept j j
  | step {j j' : Journal} {s : Step} (h : Run kept j j') (ha : Allowed j' s) (hk : kept j' s) :
      Run kept j (step j' s)

/-! ## Reading on -/

namespace ReadsOn

variable {f f' f'' : Bytes}

theorem of_words (hlen : f.length ≤ f'.length)
    (hw : ∀ k < 4, headerWord f' k = headerWord f k) : ReadsOn f f' :=
  ⟨hlen, fun p hp => ⟨p, Nat.le_refl _, hp.congr hw, .inl (Nat.le_refl _)⟩⟩

theorem refl (f : Bytes) : ReadsOn f f := of_words (Nat.le_refl _) fun _ _ => rfl

theorem trans (h : ReadsOn f f') (h' : ReadsOn f' f'') : ReadsOn f f'' := by
  refine ⟨Nat.le_trans h.grows h'.grows, fun p hp => ?_⟩
  obtain ⟨q, hpq, hq, hin⟩ := h.held p hp
  obtain ⟨r, hqr, hr, hin'⟩ := h'.held q hq
  have hgrows := h'.grows
  exact ⟨r, Nat.le_trans hpq hqr, hr, by omega⟩

/-- A checkpoint ahead of all that is held. -/
theorem of_ahead {q : Nat} (hlen : f.length ≤ f'.length)
    (hle : ∀ p, Holds (headerWord f) p → p ≤ q) (hq : Holds (headerWord f') q)
    (hin : q ≤ f'.length) : ReadsOn f f' :=
  ⟨hlen, fun p hp => ⟨q, hle p hp, hq, .inr hin⟩⟩

/-- A journal that opens the file later does not find less. -/
theorem opening (h : ReadsOn f f') {mode mode' : OpenMode} {reads reads' : Pread}
    {recovery recovery' : Recovery} (hr : recovery ≠ .ignoreHeader)
    (hr' : recovery' ≠ .ignoreHeader) {forWritable forWritable' : Bool} {r r' : Journal}
    (hne : f ≠ [])
    (hopen : Journal.openReadonly ⟨mode, reads, f, []⟩ recovery forWritable = .ok r)
    (hopen' : Journal.openReadonly ⟨mode', reads', f', []⟩ recovery' forWritable' = .ok r') :
    r.getCheckpoint ≤ r'.getCheckpoint := by
  have hpos : 0 < f.length := List.length_pos_iff.mpr hne
  have hgrows := h.grows
  have hne' : f' ≠ [] := List.length_pos_iff.mp (by omega)
  obtain ⟨-, c, hc⟩ := Journal.read_of_openReadonly hr hne hopen
  obtain ⟨-, c', hc'⟩ := Journal.read_of_openReadonly hr' hne' hopen'
  have hword : ∀ k < 4, headerWord f k
      = (Journal.lockHeader ⟨mode, reads, f, []⟩).checkpoint k := fun k hk =>
    (Journal.lockHeader_checkpoint hc.header.length hk).symm
  have hword' : ∀ k < 4, (Journal.lockHeader ⟨mode', reads', f', []⟩).checkpoint k
      = headerWord f' k := fun k hk =>
    @Journal.lockHeader_checkpoint ⟨mode', reads', f', []⟩ hc'.header.length k hk
  have hheld : Holds (headerWord f) c.checkpointPosition := by
    rw [hc.checkpoints_eq]
    exact Checkpoints.holds_readCheckpoint.congr hword
  have hsize : c.checkpointPosition ≤ f.length := hc.size
  obtain ⟨q, hle, hq, hin⟩ := h.held _ hheld
  have hread := Checkpoints.le_readCheckpoint (n := File.getSize ⟨mode', reads', f', []⟩)
    (c := .initial) (hq.congr hword') (.inr (by
      show (q : Int) ≤ (f'.length : Int)
      omega)) (Nat.le_refl _)
  rw [← hc'.checkpoints_eq] at hread
  rw [Journal.getCheckpoint, Journal.getCheckpoint, hc.checkpoints, hc'.checkpoints]
  exact Nat.le_trans hle hread

/-- Nor does one that pulls later. -/
theorem pulling (h : ReadsOn f f') {c : Checkpoints}
    (hbase : headerSize ≤ c.hardCheckpointPosition) (hbase' : headerSize ≤ c.checkpointPosition) :
    (c.readCheckpoint (headerWord f) (-1)).checkpointPosition
      ≤ (c.readCheckpoint (headerWord f') (-1)).checkpointPosition := by
  have hheld : ∀ p, Holds (headerWord f) p →
      p ≤ (c.readCheckpoint (headerWord f') (-1)).checkpointPosition := fun p hp => by
    obtain ⟨q, hle, hq, -⟩ := h.held p hp
    exact Nat.le_trans hle (Checkpoints.le_readCheckpoint hq (.inl (by decide)) hbase')
  have hhard : c.hardCheckpointPosition
      ≤ (c.readCheckpoint (headerWord f') (-1)).checkpointPosition := by
    refine Nat.le_trans ?_ Checkpoints.hard_le_readCheckpoint
    rw [Checkpoints.readCheckpoint_hard]
    exact Nat.le_trans (Checkpoints.le_readPair_hard false c)
      (Checkpoints.le_readPair_hard true _)
  exact Checkpoints.readCheckpoint_of
    (P := (· ≤ (c.readCheckpoint (headerWord f') (-1)).checkpointPosition))
    (fun p hp => hheld p (.inr (.inl hp))) (fun p hp _ => hheld p (.inr (.inr hp)))
    hbase hbase' hhard (Checkpoints.le_readCheckpoint_cp _ _ c)

end ReadsOn

/-! ## What carries a run -/

/-- A buffer in the middle of its file, behind the header. -/
structure Placed (j : Journal) : Prop where
  writing : j.fileBuffer.Writing
  header_le : headerSize ≤ j.fileBuffer.position
  flushed : j.fileBuffer.position ≤ j.file.data.length

theorem Placed.header_le_length {j : Journal} (h : Placed j) :
    headerSize ≤ j.file.data.length := Nat.le_trans h.header_le h.flushed

/-- No word holds a checkpoint past the one that is known. -/
structure Ahead (j : Journal) : Prop extends Placed j where
  header_le_hard : headerSize ≤ j.getHardCheckpoint
  hard_le : j.getHardCheckpoint ≤ j.getCheckpoint
  held_le : ∀ p, Holds (headerWord j.file.data) p → p ≤ j.getCheckpoint

/-- What a call does. -/
structure Advance (j j' : Journal) : Prop where
  ahead : Ahead j'
  checkpoint_le : j.getCheckpoint ≤ j'.getCheckpoint
  reads : ReadsOn j.file.data j'.file.data

variable {j j' j'' : Journal}

theorem Advance.refl (h : Ahead j) : Advance j j :=
  ⟨h, Nat.le_refl _, .refl _⟩

theorem Advance.trans (h : Advance j j') (h' : Advance j' j'') : Advance j j'' :=
  ⟨h'.ahead, Nat.le_trans h.checkpoint_le h'.checkpoint_le, h.reads.trans h'.reads⟩

namespace Ahead

/-- What leaves the words and the checkpoints alone. -/
theorem same_words (h : Ahead j) (hplaced : Placed j') (hc : j'.checkpoints = j.checkpoints)
    (hgrows : j.file.data.length ≤ j'.file.data.length)
    (hw : ∀ k < 4, headerWord j'.file.data k = headerWord j.file.data k) : Advance j j' := by
  have hcp : j'.getCheckpoint = j.getCheckpoint := by
    rw [Journal.getCheckpoint, hc, Journal.getCheckpoint]
  have hhard : j'.getHardCheckpoint = j.getHardCheckpoint := by
    rw [Journal.getHardCheckpoint, hc, Journal.getHardCheckpoint]
  refine ⟨⟨hplaced, ?_, ?_, fun p hp => ?_⟩, Nat.le_of_eq hcp.symm, .of_words hgrows hw⟩
  · rw [hhard]; exact h.header_le_hard
  · rw [hhard, hcp]; exact h.hard_le
  · rw [hcp]
    exact h.held_le p (hp.congr fun k hk => (hw k hk).symm)

/-- A stretch of writing. -/
theorem writes (h : Ahead j) {bs : Bytes} (happ : j.fileBuffer.Appends bs j'.fileBuffer)
    (hc : j'.checkpoints = j.checkpoints) : Advance j j' := by
  have heff := happ.effect h.flushed
  have hpos := h.header_le
  rw [headerSize] at hpos
  exact h.same_words ⟨happ.writing, Nat.le_trans h.header_le heff.position_le, heff.flushed⟩ hc
    heff.grows fun k hk => heff.headerWord (by omega) hk

theorem flush (h : Ahead j) : Advance j j.flush :=
  h.writes (flush_appends h.writing).1 rfl

theorem perform (h : Ahead j) (op : Op) : Advance j (j.perform op) :=
  h.writes (Journal.perform_performs h.writing op).appends
    (Journal.perform_performs h.writing op).checkpoints

theorem skipDirectlyTo (h : Ahead j) {p : Nat} (hbase : headerSize ≤ p)
    (hp : p ≤ j.flush.file.data.length) : Advance j (j.skipDirectlyTo p) := by
  have hflush := h.flush
  have hidle := flush_idle_of_writing h.writing
  have hplaced : Placed (j.skipDirectlyTo p) :=
    ⟨⟨hidle.noRead, hidle.writing.index_le, hidle.writing.index_lt⟩, hbase, hp⟩
  exact hflush.trans (hflush.ahead.same_words hplaced rfl (Nat.le_refl _) fun _ _ => rfl)

/-- New words, which hold `p` and else what was held, and `p` is ahead. -/
theorem new_words (h : Ahead j) {c : Checkpoints} {f : File} {p : Nat} {w : Nat → Int}
    (hcp : c.checkpointPosition = p) (hle : j.getCheckpoint ≤ p)
    (hbase : headerSize ≤ c.hardCheckpointPosition) (hhard : c.hardCheckpointPosition ≤ p)
    (hlen : f.data.length = j.file.data.length) (hp : p ≤ j.file.data.length)
    (hf : headerWord f.data = w) (hw : Holds w p)
    (hold : ∀ q, Holds w q → Holds (headerWord j.file.data) q ∨ q = p) :
    Advance j ({ j with checkpoints := c }.withFile f) := by
  have hheld : ∀ q, Holds w q → q ≤ p := fun q hq => by
    rcases hold q hq with hbefore | rfl
    · exact Nat.le_trans (h.held_le q hbefore) hle
    · exact Nat.le_refl _
  have hflushed := h.flushed
  refine ⟨⟨⟨⟨h.writing.noRead, h.writing.index_le, h.writing.index_lt⟩, h.header_le, ?_⟩, hbase,
    ?_, fun q hq => ?_⟩, ?_, .of_ahead (Nat.le_of_eq hlen.symm) (fun q hq =>
      Nat.le_trans (h.held_le q hq) hle) (hf ▸ hw) (by rw [← hlen] at hp; exact hp)⟩
  · show j.fileBuffer.position ≤ f.data.length
    omega
  · show c.hardCheckpointPosition ≤ c.checkpointPosition
    omega
  · show q ≤ c.checkpointPosition
    rw [hcp]
    exact hheld q (hf ▸ hq)
  · show j.getCheckpoint ≤ c.checkpointPosition
    omega

end Ahead

/-! ## Checkpoints -/

namespace Ahead

theorem softCheckpointAt (h : Ahead j) {p : Nat} (hp : p ≤ j.flush.file.data.length)
    (hmax : p < 2 ^ 63) :
    Advance j (j.softCheckpointAt p) ∧ p ≤ (j.softCheckpointAt p).getCheckpoint := by
  rcases Nat.lt_or_ge j.getCheckpoint p with hlt | hge
  · have hflush := h.flush
    have hlen := hflush.ahead.header_le_length
    have hbase : 41 ≤ p := Nat.le_trans h.header_le_hard (Nat.le_trans h.hard_le
      (Nat.le_of_lt hlt))
    have hmax' : (p : Int) < 2 ^ 63 := by exact_mod_cast hmax
    rw [Journal.softCheckpointAt_of_lt hlt]
    refine ⟨hflush.trans ?_, Nat.le_refl _⟩
    refine hflush.ahead.new_words (c := j.checkpoints.soft p) (p := p) rfl (Nat.le_of_lt hlt)
      h.header_le_hard (Nat.le_trans h.hard_le (Nat.le_of_lt hlt))
      (length_pwrite_word hlen (wordIndex_lt _ _) _) hp
      (w := setWord (headerWord j.flush.file.data)
        (wordIndex (!j.checkpoints.hardIndex) (!j.checkpoints.softIndex)) (-(p : Int)))
      ?_ ?_ fun q hq => ?_
    · show headerWord (pwrite _ _ _) = _
      rw [neg_of_lt (by omega)]
      exact Journal.headerWord_pwrite_setWord hlen _ _ (by omega) (by omega)
    · refine .inr (.inr ⟨hbase, !j.checkpoints.hardIndex, !j.checkpoints.softIndex, ?_⟩)
      rw [setWord_pair_self, neg_of_lt (by omega)]
      omega
    · have hpos : 41 ≤ q := hq.header_le
      rcases hq.of_setWord with hold | heq | heq
      · exact .inl hold
      · omega
      · rw [neg_of_lt (by omega)] at heq
        exact .inr (by omega)
  · rw [Journal.softCheckpointAt_of_le hge]
    exact ⟨.refl h, hge⟩

theorem hardCheckpointAt (h : Ahead j) {p : Nat} (hp : p ≤ j.flush.file.data.length)
    (hmax : p < 2 ^ 63) (hforward : j.getHardCheckpoint < p → j.getCheckpoint ≤ p) :
    Advance j (j.hardCheckpointAt p) ∧ p ≤ (j.hardCheckpointAt p).getHardCheckpoint := by
  rcases Nat.lt_or_ge j.getHardCheckpoint p with hlt | hge
  · have hflush := h.flush
    have hlen := hflush.ahead.header_le_length
    have hlen₁ := length_pwrite_word hlen (wordIndex_lt (!j.checkpoints.hardIndex) false) p
    have hlen' : headerSize ≤ (pwrite j.flush.file.data
        (8 * wordIndex (!j.checkpoints.hardIndex) false) (encodeInt64 p)).length := by
      rw [hlen₁]; exact hlen
    have hbase : 41 ≤ p := Nat.le_trans h.header_le_hard (Nat.le_of_lt hlt)
    have hmax' : (p : Int) < 2 ^ 63 := by exact_mod_cast hmax
    rw [Journal.hardCheckpointAt_of_lt hlt]
    refine ⟨hflush.trans ?_, Nat.le_refl _⟩
    refine hflush.ahead.new_words (c := j.checkpoints.hard p) (p := p) rfl (hforward hlt) hbase
      (Nat.le_refl _)
      ((length_pwrite_word hlen' (wordIndex_lt (!j.checkpoints.hardIndex) true) _).trans hlen₁) hp
      (w := setWord (setWord (headerWord j.flush.file.data)
        (wordIndex (!j.checkpoints.hardIndex) false) p)
          (wordIndex (!j.checkpoints.hardIndex) true) p) ?_ ?_ fun q hq => ?_
    · show headerWord (pwrite (pwrite _ _ _) _ _) = _
      rw [Journal.headerWord_pwrite_setWord hlen' _ _ (by omega) (by omega),
        Journal.headerWord_pwrite_setWord hlen _ _ (by omega) (by omega)]
    · refine .inr (.inl ⟨hbase, !j.checkpoints.hardIndex, fun i => ?_⟩)
      cases i with
      | false => rw [setWord_pair_of_ne _ (.inr (by decide)), setWord_pair_self]
      | true => exact setWord_pair_self _ _ _ _
    · have hpos : 41 ≤ q := hq.header_le
      have hnew : ∀ {w k}, Holds (setWord w k (p : Int)) q → Holds w q ∨ q = p := by
        intro w k hset
        rcases hset.of_setWord with hold | heq | heq
        · exact .inl hold
        · exact .inr (by omega)
        · rw [neg_of_lt (by omega)] at heq
          omega
      rcases hnew hq with hold | heq
      · exact hnew hold
      · exact .inr heq
  · rw [Journal.hardCheckpointAt_of_le hge]
    exact ⟨.refl h, hge⟩

/-! ## Pulling -/

/-- A pull of a writer, from what the file has by then. -/
theorem lockPull (h : Ahead j) {data : Bytes}
    (hdata : data = j.file.data ∨ (j.isShared = true ∧ ReadsOn j.file.data data)) :
    Advance j (after Journal.lockPull (Sharing.onto j data)) := by
  have hreads : ReadsOn j.file.data data := by
    rcases hdata with rfl | ⟨-, hreads⟩
    · exact .refl _
    · exact hreads
  have hlen : headerSize ≤ data.length := Nat.le_trans h.header_le_length hreads.grows
  have hplaced : Placed (Sharing.onto j data) :=
    ⟨⟨h.writing.noRead, h.writing.index_le, h.writing.index_lt⟩, h.header_le,
      Nat.le_trans h.flushed hreads.grows⟩
  by_cases hshared : j.isShared = true
  · obtain ⟨c, hc, hpull⟩ : ∃ c, c = j.checkpoints.readCheckpoint (headerWord data) (-1) ∧
        after Journal.lockPull (Sharing.onto j data)
          = { Sharing.onto j data with checkpoints := c } := by
      refine ⟨_, rfl, ?_⟩
      have hs : (Sharing.onto j data).isShared = true := hshared
      refine after_ok (a := ()) ?_
      rw [Journal.lockPull, get_bind_run, if_pos hs]
      exact Journal.pullWithoutLocking_onto hlen
    rw [hpull]
    have hcp := Checkpoints.le_readCheckpoint_cp (headerWord data) (-1) j.checkpoints
    rw [← hc] at hcp
    refine ⟨⟨⟨hplaced.writing, hplaced.header_le, hplaced.flushed⟩, ?_, ?_, fun p hp => ?_⟩,
      hcp, hreads⟩
    · refine Nat.le_trans h.header_le_hard ?_
      show _ ≤ c.hardCheckpointPosition
      rw [hc, Checkpoints.readCheckpoint_hard]
      exact Nat.le_trans (Checkpoints.le_readPair_hard false _)
        (Checkpoints.le_readPair_hard true _)
    · show c.hardCheckpointPosition ≤ c.checkpointPosition
      rw [hc]
      exact Checkpoints.hard_le_readCheckpoint
    · show p ≤ c.checkpointPosition
      rw [hc]
      exact Checkpoints.le_readCheckpoint hp (.inl (by decide))
        (Nat.le_trans h.header_le_hard h.hard_le)
  · obtain rfl : data = j.file.data := hdata.resolve_right fun hboth => hshared hboth.1
    have hsame : after Journal.lockPull (Sharing.onto j j.file.data)
        = Sharing.onto j j.file.data := by
      have hs : ¬ (Sharing.onto j j.file.data).isShared = true := hshared
      refine after_ok (a := ()) ?_
      rw [Journal.lockPull, get_bind_run, if_neg hs]
      rfl
    rw [hsame]
    exact h.same_words hplaced rfl (Nat.le_refl _) fun _ _ => rfl

end Ahead

/-- Copying from another file leaves the words alone, and when it ends the file
reaches as far as was asked. -/
theorem copyToGo_grows (source : File) : ∀ fuel (f : File) start size,
    headerSize ≤ f.data.length → 32 ≤ start →
      f.data.length ≤ (source.copyToGo fuel f start size).1.data.length ∧
      (∀ k < 4, headerWord (source.copyToGo fuel f start size).1.data k = headerWord f.data k) ∧
      ((source.copyToGo fuel f start size).2 = true → 0 < size →
        start + size ≤ (source.copyToGo fuel f start size).1.data.length) := by
  intro fuel
  induction fuel with
  | zero =>
      intro f start size hlen hstart
      refine ⟨Nat.le_refl _, fun _ _ => rfl, fun hdone hsize => ?_⟩
      have hzero : size = 0 := beq_iff_eq.mp hdone
      omega
  | succ fuel ih =>
      intro f start size hlen hstart
      rw [File.copyToGo]
      by_cases hsize : size = 0
      · rw [if_pos hsize]
        exact ⟨Nat.le_refl _, fun _ _ => rfl, fun _ hpos => absurd hsize (by omega)⟩
      · rw [if_neg hsize]
        simp only []
        by_cases hend : (source.pread (min 4096 size) start).length = 0
        · rw [if_pos hend]
          exact ⟨Nat.le_refl _, fun _ _ => rfl, fun hdone => Bool.noConfusion hdone⟩
        · rw [if_neg hend]
          have hread := source.length_pread_le (min 4096 size) start
          generalize source.pread (min 4096 size) start = received at hend hread ⊢
          have hone : (f.pwrite start received).data.length
              = max f.data.length (start + received.length) := length_pwrite _ _ _
          obtain ⟨hgrows, hw, hreach⟩ := ih (f.pwrite start received) (start + received.length)
            (size - received.length) (by rw [hone]; omega) (by omega)
          refine ⟨by omega, fun k hk => ?_, fun hdone _ => ?_⟩
          · rw [hw k hk]
            exact headerWord_pwrite_behind hlen hstart received hk
          · by_cases hrest : size - received.length = 0
            · omega
            · have := hreach hdone (by omega)
              omega

namespace Ahead

/-- What a pull from another journal leaves, and how far it is when it ends. -/
theorem pullFrom (h : Ahead j) (source : Journal) {until_ : Nat} (hmax : until_ < 2 ^ 63) :
    Advance j (after (Journal.pullFrom source until_) j) ∧
      ∀ p ∈ target j (.pullFrom source until_),
        p ≤ (after (Journal.pullFrom source until_) j).getCheckpoint := by
  by_cases hlt : j.getCheckpoint < until_
  · have hbase : 41 ≤ j.getCheckpoint := Nat.le_trans h.header_le_hard h.hard_le
    obtain ⟨hgrows, hw, hreach⟩ := copyToGo_grows source.file (until_ - j.getCheckpoint) j.file
      j.getCheckpoint (until_ - j.getCheckpoint) h.header_le_length (by omega)
    have hcopied : Advance j (j.withFile
        (source.file.copyTo j.file j.getCheckpoint (until_ - j.getCheckpoint)).1) :=
      h.same_words ⟨⟨h.writing.noRead, h.writing.index_le, h.writing.index_lt⟩, h.header_le,
        Nat.le_trans h.flushed hgrows⟩ rfl hgrows hw
    have hpull : Journal.pullFrom source until_ j
        = if (source.file.copyTo j.file j.getCheckpoint (until_ - j.getCheckpoint)).2 then
            .ok ((j.withFile (source.file.copyTo j.file j.getCheckpoint
                (until_ - j.getCheckpoint)).1).softCheckpointAt until_).getCheckpoint
              ((j.withFile (source.file.copyTo j.file j.getCheckpoint
                (until_ - j.getCheckpoint)).1).softCheckpointAt until_)
          else .error File.readingPastEndOfFile (j.withFile
            (source.file.copyTo j.file j.getCheckpoint (until_ - j.getCheckpoint)).1) :=
      if_pos hlt
    by_cases hdone : (source.file.copyTo j.file j.getCheckpoint (until_ - j.getCheckpoint)).2
        = true
    · rw [if_pos hdone] at hpull
      have hlen := hreach hdone (by omega)
      have hsoft := hcopied.ahead.softCheckpointAt (Nat.le_trans
        (show until_ ≤ _ by rw [Nat.add_sub_cancel' (Nat.le_of_lt hlt)] at hlen; exact hlen)
        hcopied.ahead.flush.reads.grows) hmax
      rw [after_ok hpull]
      refine ⟨hcopied.trans hsoft.1, fun p hp => ?_⟩
      rw [target, hpull] at hp
      exact Option.mem_some_iff.mp hp ▸ hsoft.2
    · rw [if_neg hdone] at hpull
      rw [after_error hpull]
      refine ⟨hcopied, fun p hp => ?_⟩
      rw [target, hpull] at hp
      exact absurd hp (Option.not_mem_none p)
  · have hpull : Journal.pullFrom source until_ j = .ok j.getCheckpoint j := if_neg hlt
    rw [after_ok hpull]
    refine ⟨.refl h, fun p hp => ?_⟩
    rw [target, hpull] at hp
    exact Option.mem_some_iff.mp hp ▸ Nat.not_lt.mp hlt

theorem getPosition_le_flush (h : Ahead j) : j.getPosition ≤ j.flush.file.data.length := by
  have hidle := flush_idle_of_writing h.writing
  have hpos := (flush_appends h.writing).1.getPosition h.writing
  rw [hidle.getPosition, List.length_nil, Nat.add_zero] at hpos
  have hflushed := h.flush.ahead.flushed
  rw [Journal.getPosition, ← hpos]
  exact hflushed

/-- One call. -/
theorem step (h : Ahead j) {s : Step} (ha : Allowed j s) (hforward : Forward j s) :
    Advance j (Monotone.step j s) ∧ (∀ p ∈ target j s, p ≤ (Monotone.step j s).getCheckpoint) ∧
      ∀ p ∈ hardTarget j s, p ≤ (Monotone.step j s).getHardCheckpoint := by
  have hsoft : ∀ p, p ≤ j.flush.file.data.length → p < 2 ^ 63 →
      Advance j (j.softCheckpointAt p) ∧
        (∀ q ∈ some p, q ≤ (j.softCheckpointAt p).getCheckpoint) ∧
        ∀ q ∈ (none : Option Nat), q ≤ (j.softCheckpointAt p).getHardCheckpoint :=
    fun p hp hmax => by
      obtain ⟨hadvance, hle⟩ := h.softCheckpointAt hp hmax
      exact ⟨hadvance, fun q hq => Option.mem_some_iff.mp hq ▸ hle,
        fun q hq => absurd hq (Option.not_mem_none q)⟩
  have hhard : ∀ p, p ≤ j.flush.file.data.length → p < 2 ^ 63 →
      (j.getHardCheckpoint < p → j.getCheckpoint ≤ p) →
      Advance j (j.hardCheckpointAt p) ∧
        (∀ q ∈ some p, q ≤ (j.hardCheckpointAt p).getCheckpoint) ∧
        ∀ q ∈ some p, q ≤ (j.hardCheckpointAt p).getHardCheckpoint :=
    fun p hp hmax hkept => by
      obtain ⟨hadvance, hle⟩ := h.hardCheckpointAt hp hmax hkept
      exact ⟨hadvance, fun q hq => Option.mem_some_iff.mp hq ▸
        Nat.le_trans hle hadvance.ahead.hard_le, fun q hq => Option.mem_some_iff.mp hq ▸ hle⟩
  have hnone : ∀ {j' : Journal}, Advance j j' → Advance j j' ∧
      (∀ q ∈ (none : Option Nat), q ≤ j'.getCheckpoint) ∧
      ∀ q ∈ (none : Option Nat), q ≤ j'.getHardCheckpoint := fun hadvance =>
    ⟨hadvance, fun q hq => absurd hq (Option.not_mem_none q),
      fun q hq => absurd hq (Option.not_mem_none q)⟩
  cases s with
  | perform op => exact hnone (h.perform op)
  | flush => exact hnone h.flush
  | skipDirectlyTo p => exact hnone (h.skipDirectlyTo ha.1 ha.2)
  | softCheckpoint => exact hsoft j.getPosition h.getPosition_le_flush ha
  | softCheckpointAt p => exact hsoft p ha.1 ha.2
  | hardCheckpoint =>
      exact hhard j.getPosition h.getPosition_le_flush ha (hforward _ (Option.mem_some_self _))
  | hardCheckpointAt p => exact hhard p ha.1 ha.2 (hforward _ (Option.mem_some_self _))
  | lockPull data => exact hnone (h.lockPull ha)
  | pullFrom source until_ =>
      obtain ⟨hadvance, hle⟩ := h.pullFrom source ha
      exact ⟨hadvance, hle, fun q hq => absurd hq (Option.not_mem_none q)⟩

end Ahead

/-- A run of calls. -/
theorem Run.advance (h : Run Forward j j') (hj : Ahead j) : Advance j j' := by
  induction h with
  | refl => exact .refl hj
  | step h ha hk ih => exact ih.trans (ih.ahead.step ha hk).1

/-! ## Opening -/

theorem openReadonly_buffer {file : File} {recovery : Recovery} (hne : file.data ≠ [])
    {forWritable : Bool} (hopen : Journal.openReadonly file recovery forWritable = .ok j) :
    headerSize ≤ file.data.length ∧ Journal.openCheckpoints file recovery = .ok j.checkpoints ∧
      j.fileBuffer = (FileBuffer.create file).setPosition headerSize := by
  have hsize : file.getSize ≠ 0 := Nat.pos_iff_ne_zero.mp (List.length_pos_iff.mpr hne)
  rw [Journal.openReadonly, if_pos hsize] at hopen
  split at hopen
  · next hfull =>
      have hlen : headerSize ≤ file.data.length := by
        rw [File.fullPread_eq, Nat.zero_add] at hfull
        exact (of_decide_eq_true hfull).resolve_left (by decide)
      split at hopen
      · cases hopen
      · next c hc =>
          obtain rfl := Except.ok.inj hopen
          exact ⟨hlen, hc, rfl⟩
  · cases hopen

theorem openWritable_repairs {file : File} {recovery : Recovery} (hne : file.data ≠ [])
    (hopen : Journal.openWritable file recovery = .ok j) :
    ∃ j₀, Journal.openReadonly file recovery true = .ok j₀ ∧
      j = [0, 1, 2, 3].foldl (Journal.repairWord (Journal.lockHeader file) file.getSize) j₀ := by
  have hsize : file.getSize ≠ 0 := Nat.pos_iff_ne_zero.mp (List.length_pos_iff.mpr hne)
  rw [Journal.openWritable] at hopen
  split at hopen
  · cases hopen
  · next j₀ hread =>
      split at hopen
      · cases hopen
      · split at hopen
        · cases hopen
        · exact ⟨j₀, hread, (Except.ok.inj hopen).symm⟩

theorem foldl_repairWord_position (header : Header) (size : Nat) (l : List Nat) (j : Journal) :
    (l.foldl (Journal.repairWord header size) j).fileBuffer.position = j.fileBuffer.position := by
  induction l generalizing j with
  | nil => rfl
  | cons i l ih =>
      rw [List.foldl_cons, ih, Journal.repairWord]
      split <;> rfl

/-- What the checkpoints of an opening owe to the words. -/
structure Believes (w : Nat → Int) (size : Nat) (c : Checkpoints) : Prop where
  header_le : headerSize ≤ c.hardCheckpointPosition
  hard_le : c.hardCheckpointPosition ≤ c.checkpointPosition
  within : c.checkpointPosition ≤ size
  hard : ∀ p, HoldsHard w p → p ≤ c.checkpointPosition
  soft : ∀ p, HoldsSoft w p → p ≤ size → p ≤ c.checkpointPosition

/-- Without its header, a file is believed up to its end. That is ahead of its
words unless a hard checkpoint lies past the end. -/
theorem believes_openCheckpoints {file : File} {recovery : Recovery} (hne : file.data ≠ [])
    (hlen : headerSize ≤ file.data.length)
    (hheader : recovery = .ignoreHeader →
      ∀ p, HoldsHard (headerWord file.data) p → p ≤ file.data.length)
    {forWritable : Bool} (hopen : Journal.openReadonly file recovery forWritable = .ok j) :
    Believes (headerWord file.data) file.getSize j.checkpoints := by
  by_cases hr : recovery = .ignoreHeader
  · have hc := (openReadonly_buffer hne hopen).2.1
    rw [Journal.openCheckpoints, if_pos hr] at hc
    have hcp : Checkpoints.checkpointPosition j.checkpoints = file.data.length ∧
        Checkpoints.hardCheckpointPosition j.checkpoints = headerSize := by
      split at hc
      · rw [← Except.ok.inj hc]
        exact ⟨rfl, rfl⟩
      · next hsmall =>
          rw [← Except.ok.inj hc]
          exact ⟨Nat.le_antisymm hlen (Nat.not_lt.mp hsmall), rfl⟩
    refine ⟨Nat.le_of_eq hcp.2.symm, ?_, Nat.le_of_eq hcp.1, fun p hp => ?_, fun p _ hp => ?_⟩
    · rw [hcp.1, hcp.2]; exact hlen
    · rw [hcp.1]; exact hheader hr p hp
    · rw [hcp.1]; exact hp
  · obtain ⟨-, c, hc⟩ := Journal.read_of_openReadonly hr hne hopen
    have hword : ∀ k < 4, (Journal.lockHeader file).checkpoint k = headerWord file.data k :=
      fun k hk => Journal.lockHeader_checkpoint hlen hk
    rw [hc.checkpoints, hc.checkpoints_eq, Checkpoints.readCheckpoint_congr hword]
    have hsize := hc.size
    rw [hc.checkpoints_eq, Checkpoints.readCheckpoint_congr hword] at hsize
    exact ⟨Checkpoints.holds_readCheckpoint_hard.header_le, Checkpoints.hard_le_readCheckpoint,
      hsize, fun p hp => Checkpoints.le_readCheckpoint (.inr (.inl hp)) (.inr (Nat.le_trans
        (Nat.le_trans (Checkpoints.le_readCheckpoint_hard hp) Checkpoints.hard_le_readCheckpoint)
        hsize |> Int.ofNat_le.mpr)) (Nat.le_refl _),
      fun p hp hle => Checkpoints.le_readCheckpoint_soft hp (.inr (Int.ofNat_le.mpr hle))⟩

/-- A journal that was opened is ahead of its words, once they are repaired. -/
theorem ahead_of_openWritable {file : File} {recovery : Recovery}
    (hopen : Journal.openWritable file recovery = .ok j)
    (hheader : recovery = .ignoreHeader →
      ∀ p, HoldsHard (headerWord file.data) p → p ≤ file.data.length) : Ahead j := by
  by_cases hne : file.data = []
  · have hmode : file.isReadonly = false := Bool.eq_false_iff.mpr fun hread => by
      rw [Journal.openWritable] at hopen
      split at hopen
      · cases hopen
      · rw [if_pos hread] at hopen; cases hopen
    obtain ⟨j', hopen', hready, -, -, hdata, hc, -⟩ :=
      Journal.openWritable_new hne hmode recovery
    rw [hopen] at hopen'
    obtain rfl := Except.ok.inj hopen'
    refine ⟨⟨hready.writing, hready.header_le_position, hready.flushed⟩, hready.header_le,
      hready.hard_le, fun p hp => ?_⟩
    have hcp : j.getCheckpoint = 41 := by rw [Journal.getCheckpoint, hc]; rfl
    rw [hdata] at hp
    obtain rfl | ⟨-, i, hi⟩ | ⟨-, i, k, hik⟩ := hp
    · exact Nat.le_of_eq hcp.symm
    · have hword := hi false
      rw [headerWord_initial (wordIndex_lt i false), headerSize] at hword
      omega
    · rw [headerWord_initial (wordIndex_lt i k), neg_of_lt (by decide), headerSize] at hik
      omega
  · obtain ⟨j₀, hread, rfl⟩ := openWritable_repairs hne hopen
    obtain ⟨hlen, -, hbuffer⟩ := openReadonly_buffer hne hread
    have hb := believes_openCheckpoints hne hlen hheader hread
    have hidle := setPosition_idle (create_idle file) headerSize
    have hidle₀ : j₀.fileBuffer.Idle := by rw [hbuffer]; exact hidle.1
    have hfile : j₀.file = file := by rw [Journal.file, hbuffer]; exact hidle.2.2
    obtain ⟨hc, hidle', -, hdata⟩ := PowerFailure.foldl_repairWord_calls
      (Journal.lockHeader file) file.getSize [0, 1, 2, 3] hidle₀
    have hposition := foldl_repairWord_position (Journal.lockHeader file) file.getSize
      [0, 1, 2, 3] j₀
    rw [hbuffer, hidle.2.1] at hposition
    rw [hfile] at hdata
    have hgrows := PowerFailure.length_le_foldl_apply ([0, 1, 2, 3].flatMap
      (Journal.repairCalls (Journal.lockHeader file) file.getSize j₀.getCheckpoint)) file.data
    have hheader : ∀ k < 4, (Journal.lockHeader file).checkpoint k = headerWord file.data k :=
      fun k hk => Journal.lockHeader_checkpoint hlen hk
    have hsize : j₀.getCheckpoint ≤ file.getSize := hb.within
    have hword := @Journal.headerWord_repaired (Journal.lockHeader file)
      file.getSize j₀.getCheckpoint (fun k hk hbig => by
        have hrange := Journal.headerWord_range file.data k
        rw [hheader k hk, neg] at hbig
        split at hbig <;> omega) [0, 1, 2, 3] (by decide) _ hlen
    rw [← hdata] at hword
    refine ⟨⟨hidle'.writing, ?_, ?_⟩, ?_, ?_, fun p hp => ?_⟩
    · rw [hposition]
    · rw [hposition, hdata]
      exact Nat.le_trans hlen hgrows
    · rw [Journal.getHardCheckpoint, hc]; exact hb.header_le
    · rw [Journal.getHardCheckpoint, Journal.getCheckpoint, hc]; exact hb.hard_le
    · rw [Journal.getCheckpoint, hc]
      have hbase := Nat.le_trans hb.header_le hb.hard_le
      have hall : ∀ i k, wordIndex i k ∈ [0, 1, 2, 3] := by decide
      obtain rfl | ⟨hpos, i, hi⟩ | ⟨hpos, i, k, hik⟩ := hp
      · exact hbase
      · refine hb.hard p ⟨hpos, i, fun k => ?_⟩
        have hik := hi k
        have hpos' : 41 ≤ p := hpos
        rw [hword] at hik
        split at hik
        · omega
        · exact hik
      · have hpos' : 41 ≤ p := hpos
        rw [hword] at hik
        split at hik
        · have hcp : j₀.getCheckpoint = j₀.checkpoints.checkpointPosition := rfl
          rw [neg] at hik
          split at hik <;> omega
        · next hgood =>
            have hsmall : ¬ neg (headerWord file.data (wordIndex i k)) > file.getSize :=
              fun hbig => hgood ⟨hall i k, by rw [hheader _ (wordIndex_lt i k)]; exact hbig⟩
            exact hb.soft p ⟨hpos, i, k, hik⟩ (by omega)

/-- In every run of a writer in which no hard checkpoint goes back behind the
soft one, the checkpoint never decreases and is not below the hard one, no
reader that comes later reads less, whether it opens the file or pulls from it,
and a call for a position gets there. -/
theorem checkpoint_moves_forward {file : File} {recovery : Recovery} {j₀ : Journal}
    (hopen : Journal.openWritable file recovery = .ok j₀)
    (hheader : recovery = .ignoreHeader →
      ∀ p, HoldsHard (headerWord file.data) p → p ≤ file.data.length)
    (h : Run Forward j₀ j) (h' : Run Forward j j') :
    j.getCheckpoint ≤ j'.getCheckpoint ∧ j'.getHardCheckpoint ≤ j'.getCheckpoint ∧
    (∀ (mode mode' : OpenMode) (reads reads' : Pread) (recovery recovery' : Recovery)
      (forWritable forWritable' : Bool) (r r' : Journal),
      recovery ≠ .ignoreHeader → recovery' ≠ .ignoreHeader →
      Journal.openReadonly ⟨mode, reads, j.file.data, []⟩ recovery forWritable = .ok r →
      Journal.openReadonly ⟨mode', reads', j'.file.data, []⟩ recovery' forWritable' = .ok r' →
      r.getCheckpoint ≤ r'.getCheckpoint) ∧
    (∀ r : Journal, headerSize ≤ r.getHardCheckpoint → headerSize ≤ r.getCheckpoint →
      (after Journal.pullWithoutLocking (Sharing.onto r j.file.data)).getCheckpoint
        ≤ (after Journal.pullWithoutLocking (Sharing.onto r j'.file.data)).getCheckpoint) ∧
    ∀ s, Allowed j' s → Forward j' s →
      (∀ p ∈ target j' s, p ≤ (step j' s).getCheckpoint) ∧
      ∀ p ∈ hardTarget j' s, p ≤ (step j' s).getHardCheckpoint := by
  have hj := (h.advance (ahead_of_openWritable hopen hheader)).ahead
  have hadvance := h'.advance hj
  have hlen := hj.header_le_length
  have hlen' := hadvance.ahead.header_le_length
  refine ⟨hadvance.checkpoint_le, hadvance.ahead.hard_le, ?_, ?_, ?_⟩
  · intro mode mode' reads reads' recovery recovery' fw fw' r r' hr hr' hread hread'
    have hne : j.file.data ≠ [] := List.length_pos_iff.mp (Nat.lt_of_lt_of_le (by decide) hlen)
    exact hadvance.reads.opening hr hr' hne hread hread'
  · intro r hbase hbase'
    have hpull := @Journal.pullWithoutLocking_onto r _ hlen
    have hpull' := @Journal.pullWithoutLocking_onto r _ hlen'
    rw [Sharing.onto, Sharing.onto, after_ok hpull, after_ok hpull']
    exact hadvance.reads.pulling hbase hbase'
  · intro s ha hforward
    exact (hadvance.ahead.step ha hforward).2

/-- What opening an empty file in memory makes. -/
def created : Journal := (Journal.blank File.empty).put (·.iteratorWrite Header.initial.bytes)

/-- The calls of a list, in order. -/
def steps (l : List Step) : Journal := l.foldl step created

/-- Two operations, each behind a checkpoint of its own. -/
theorem checkpoint_moves_forward_twice :
    (steps [.perform .validData, .softCheckpoint]).getCheckpoint
      ≤ (steps [.perform .validData, .softCheckpoint, .perform .validData,
          .hardCheckpoint]).getCheckpoint := by
  have hone : Run Forward created (steps [.perform .validData, .softCheckpoint]) :=
    ((Run.refl created).step (s := .perform .validData) trivial
      (fun p hp => absurd hp (Option.not_mem_none p))).step (s := .softCheckpoint)
      (show _ < _ by decide +kernel) (fun p hp => absurd hp (Option.not_mem_none p))
  have htwo : Run Forward (steps [.perform .validData, .softCheckpoint])
      (steps [.perform .validData, .softCheckpoint, .perform .validData, .hardCheckpoint]) :=
    ((Run.refl (steps [.perform .validData, .softCheckpoint])).step (s := .perform .validData)
      trivial (fun p hp => absurd hp (Option.not_mem_none p))).step (s := .hardCheckpoint)
      (show _ < _ by decide +kernel) fun p hp _ => by
        obtain rfl := Option.mem_some_iff.mp hp
        decide +kernel
  have hopen : Journal.openWritable File.empty .none = .ok created := rfl
  exact (checkpoint_moves_forward hopen (fun hr => absurd hr (by decide)) hone htwo).1

/-- A hard checkpoint between the two checkpoints takes the soft one back, in
the journal and for whoever opens the file. -/
theorem checkpoint_goes_back : ∃ j : Journal,
    Run (fun _ _ => True) created j ∧ Allowed j (.hardCheckpointAt 43) ∧
    j.getCheckpoint = 44 ∧ (step j (.hardCheckpointAt 43)).getCheckpoint = 43 ∧
    (Journal.openReadonly ⟨.readExisting, .whole, j.file.data, []⟩ .none false).toOption.map
      Journal.getCheckpoint = some 44 ∧
    (Journal.openReadonly ⟨.readExisting, .whole, (step j (.hardCheckpointAt 43)).file.data, []⟩
      .none false).toOption.map Journal.getCheckpoint = some 43 := by
  refine ⟨steps [.perform .validData, .perform .validData, .perform .validData, .softCheckpoint],
    (((Run.refl created).step (s := .perform .validData) trivial trivial).step
      (s := .perform .validData) trivial trivial).step (s := .perform .validData) trivial
      trivial |>.step (s := .softCheckpoint) (show _ < _ by decide +kernel) trivial,
    show _ ∧ _ from ?_, ?_, ?_, ?_, ?_⟩
  all_goals decide +kernel

end Monotone

end Joedb
