import Joedb.Journal.Replaying

/-!
# Written and read back

A history of writing: operations with flushes and checkpoints between them, and
the file closed at a checkpoint, reopened, replayed and written on. Whatever
the history, replaying the file gives back the operations up to its last
checkpoint, and ends at that checkpoint with the context of the writer.

The invariant is short, since neither side can see the buffers any more: the
body of the journal is the encoding of the operations, from the context at the
start of the file.
-/

namespace Joedb

open ByteFile StateExcept FileBuffer Replay

/-! ## Listening -/

/-- A `Writable` that writes down what it hears. -/
def recorder : Writable (List Op) where
  getPosition _ := 0
  startWriting _ := pure ()
  endWriting _ := pure ()
  softCheckpoint := pure ()
  call op := modify (· ++ [op])
  ownStorage _ _ _ := pure none
  storeOwn _ _ _ _ _ heard := heard
  storePart _ _ _ _ _ heard := heard
  onBlob _ := pure ()
  wantsBlobData _ := true

theorem recorder_passive : recorder.Passive :=
  ⟨fun _ => rfl, fun _ => rfl, fun _ => rfl, rfl, fun _ => rfl⟩

/-- An empty `update_vector` is not passed on. -/
def Op.visible : Op → List Op
  | updateVector ty t r f vs =>
      if vs.length = 0 then [] else [updateVector ty t r f vs]
  | op => [op]

/-- The reader refuses to write a vector before record 0. -/
def Op.Readable : Op → Prop
  | updateVector _ _ r _ vs => vs.length = 0 ∨ 0 ≤ r
  | _ => True

/-- A listener hears every operation that is readable. -/
theorem recorder_hear {op : Op} (hread : op.Readable) (heard : List Op) :
    recorder.hear op heard = .ok () (heard ++ op.visible) := by
  cases op with
  | updateVector ty tableId recordId fieldId vs =>
      rw [Writable.hear_updateVector, Op.visible]
      by_cases hempty : vs.length = 0
      · rw [when_neg (not_not_intro hempty), if_pos hempty, List.append_nil]
        rfl
      · have hrecord : 0 ≤ recordId := by
          simpa only [Op.Readable, hempty, false_or] using hread
        have hown : recorder.ownStorage ty tableId fieldId heard = .ok none heard := rfl
        rw [when_pos hempty, if_neg hempty, Writable.hearVector, bind_ok hown, when_neg,
          pure_bind_run]
        · rfl
        · rintro (hneg | ⟨n, hn, -⟩)
          · exact absurd hneg (Int.not_lt.mpr hrecord)
          · cases hn
  | writeBlob data =>
      have hwants : recorder.wantsBlobData heard = true := rfl
      rw [Writable.hear_writeBlob, when_pos hwants]
      rfl
  | _ => rfl

theorem recorder_hearAll {ops : List Op} (hread : ∀ op ∈ ops, op.Readable) (heard : List Op) :
    recorder.hearAll ops heard = .ok () (heard ++ ops.flatMap Op.visible) := by
  induction ops generalizing heard with
  | nil =>
      rw [List.flatMap_nil, List.append_nil]
      rfl
  | cons op ops ih =>
      obtain ⟨hop, hops⟩ := List.forall_mem_cons.mp hread
      rw [Writable.hearAll, bind_ok (recorder_hear hop heard), ih hops, List.flatMap_cons,
        List.append_assoc]

/-- Open a file for reading and replay it into a listener. -/
def replayFile (file : File) : Except Exn (Replay (List Op)) := replayInto recorder [] file

/-! ## Histories -/

/-- A journal in the course of its history, with the operations that were
performed on it, and how many of them its last checkpoint covers. -/
structure History where
  journal : Journal
  ops : List Op
  checkpointed : Nat

/-- What may happen to a journal. A file is reopened in some mode, with some way
of reading, and replayed to its checkpoint before it is written on. -/
inductive Act where
  | perform (op : Op)
  | flush
  | softCheckpoint
  | hardCheckpoint
  | reopen (mode : OpenMode) (reads : Pread)

namespace History

/-- Opening for writing, and the replay. -/
def reopen (s : History) (mode : OpenMode) (reads : Pread) : Except Exn History :=
  match Journal.openWritable { s.journal.file with mode := mode, reads := reads } .none with
  | .error e => .error e
  | .ok j =>
      match playUntilCheckpoint recorder ⟨j, []⟩ with
      | .error e _ => .error e
      | .ok _ r => .ok { s with journal := r.journal }

def step (s : History) : Act → Except Exn History
  | .perform op => .ok { s with journal := s.journal.perform op, ops := s.ops ++ [op] }
  | .flush => .ok { s with journal := s.journal.flush }
  | .softCheckpoint =>
      .ok { s with journal := s.journal.softCheckpoint, checkpointed := s.ops.length }
  | .hardCheckpoint =>
      .ok { s with journal := s.journal.hardCheckpoint, checkpointed := s.ops.length }
  | .reopen mode reads => s.reopen mode reads

/-- Numbers fit, files end before `last_position`, and a file is closed at its
checkpoint. -/
def Allowed (s : History) : Act → Prop
  | .perform op => op.Fits ∧ op.Readable ∧
      s.journal.getPosition + (abbreviate s.journal.context op).bytes.length < 2 ^ 63
  | .flush => True
  | .softCheckpoint => True
  | .hardCheckpoint => True
  | .reopen mode _ =>
      s.journal.getPosition = s.journal.getCheckpoint ∧ mode ≠ .readExisting

/-- The histories of a file that was empty at first. -/
inductive Reach : History → Prop where
  | create (file : File) (recovery : Recovery) {j : Journal} (hempty : file.data = [])
      (hmode : file.isReadonly = false)
      (hopen : Journal.openWritable file recovery = .ok j) : Reach ⟨j, [], 0⟩
  | step {s s' : History} {a : Act} (hs : Reach s) (ha : s.Allowed a)
      (hstep : s.step a = .ok s') : Reach s'

structure Good (s : History) : Prop where
  ready : s.journal.Ready
  agrees : Agrees (headerWord s.journal.file.data) s.journal.checkpoints
  header : HasHeader s.journal.file.data
  exact : s.journal.fileBuffer.position = s.journal.file.data.length
  bound : s.journal.getPosition < 2 ^ 63
  context : s.journal.context = contextAfter .reset s.ops
  body : s.journal.body = wiresBytes (encodeAll .reset s.ops)
  fits : ∀ op ∈ s.ops, op.Fits
  readable : ∀ op ∈ s.ops, op.Readable
  checkpointed_le : s.checkpointed ≤ s.ops.length
  checkpoint : s.journal.getCheckpoint = headerSize
    + (wiresBytes (encodeAll .reset (s.ops.take s.checkpointed))).length

namespace Good

variable {s : History}

/-- What the file holds below the checkpoint. -/
theorem checkpoint_body (h : s.Good) :
    slice s.journal.file.data headerSize s.journal.getCheckpoint
      = wiresBytes (encodeAll .reset (s.ops.take s.checkpointed)) := by
  have hsplit : wiresBytes (encodeAll .reset s.ops)
      = wiresBytes (encodeAll .reset (s.ops.take s.checkpointed))
        ++ wiresBytes (encodeAll (contextAfter .reset (s.ops.take s.checkpointed))
          (s.ops.drop s.checkpointed)) := by
    rw [← wiresBytes_append, ← encodeAll_append, List.take_append_drop]
  rw [h.ready.slice_eq_take_body h.ready.checkpoint_le, h.body, hsplit, h.checkpoint,
    Nat.add_sub_cancel_left, List.take_left]

theorem checkpoint_le_length (h : s.Good) :
    s.journal.getCheckpoint ≤ s.journal.file.data.length := by
  rw [← h.exact]; exact h.ready.checkpoint_le

/-- At its checkpoint a history has all of its operations checkpointed. -/
theorem checkpointed_of_position (h : s.Good)
    (hpos : s.journal.getPosition = s.journal.getCheckpoint) :
    s.checkpointed = s.ops.length := by
  have hlen := h.ready.length_body
  rw [h.body, hpos, h.checkpoint] at hlen
  rcases Nat.lt_or_ge s.checkpointed s.ops.length with hlt | hge
  · have hsplit := encodeAll_append .reset (s.ops.take s.checkpointed)
      (s.ops.drop s.checkpointed)
    rw [List.take_append_drop] at hsplit
    obtain ⟨op, rest, hdrop⟩ : ∃ op rest, s.ops.drop s.checkpointed = op :: rest := by
      cases hd : s.ops.drop s.checkpointed with
      | nil =>
          have := congrArg List.length hd
          rw [List.length_drop, List.length_nil] at this
          omega
      | cons op rest => exact ⟨op, rest, rfl⟩
    rw [hsplit, hdrop, encodeAll, wiresBytes_append, wiresBytes_cons, List.length_append,
      List.length_append] at hlen
    have := length_wire_pos (abbreviate
      (contextAfter .reset (s.ops.take s.checkpointed)) op)
    omega
  · exact Nat.le_antisymm h.checkpointed_le hge

theorem take_snoc (h : s.Good) (op : Op) :
    (s.ops ++ [op]).take s.checkpointed = s.ops.take s.checkpointed :=
  List.take_append_of_le_length h.checkpointed_le

theorem flush (h : s.Good) : Good { s with journal := s.journal.flush } := by
  have heff := (flush_appends h.ready.writing).1.effect h.ready.flushed
  have hpos := h.ready.header_le_position
  rw [headerSize] at hpos
  obtain ⟨hready, hbody⟩ := h.ready.flush
  refine ⟨hready, h.agrees.congr fun k hk => h.ready.flush_word hk, ?_, heff.exact h.exact,
    ?_, h.context, hbody.trans h.body, h.fits, h.readable, h.checkpointed_le, h.checkpoint⟩
  · exact h.header.of_slice heff.grows (heff.below _ _ (by omega))
  · have hlen := hready.length_body
    rw [hbody, h.ready.length_body] at hlen
    exact hlen ▸ h.bound

theorem perform (h : s.Good) {op : Op} (ha : s.Allowed (.perform op)) :
    Good { s with journal := s.journal.perform op, ops := s.ops ++ [op] } := by
  obtain ⟨hfit, hread, hbound⟩ := ha
  have hperf := Journal.perform_performs h.ready.writing op
  have heff := hperf.appends.effect h.ready.flushed
  have hpos := h.ready.header_le_position
  rw [headerSize] at hpos
  obtain ⟨hready, hbody⟩ := h.ready.perform op
  refine ⟨hready, ?_, h.header.of_slice heff.grows (heff.below _ _ (by omega)),
    heff.exact h.exact, ?_, ?_, ?_, ?_, ?_, ?_, ?_⟩
  · rw [show (s.journal.perform op).checkpoints = s.journal.checkpoints from
      hperf.checkpoints]
    exact h.agrees.congr fun k hk => heff.headerWord (by omega) hk
  · have := hperf.appends.getPosition h.ready.writing
    show (s.journal.perform op).fileBuffer.getPosition < 2 ^ 63
    rw [this]
    exact hbound
  · rw [contextAfter_append, ← h.context]
    exact hperf.context
  · rw [encodeAll_append, wiresBytes_append, ← h.body, ← h.context]
    simpa [wiresBytes, encodeAll] using hbody
  · exact fun o ho => (List.mem_append.mp ho).elim (h.fits o) fun he => by
      rw [List.mem_singleton.mp he]; exact hfit
  · exact fun o ho => (List.mem_append.mp ho).elim (h.readable o) fun he => by
      rw [List.mem_singleton.mp he]; exact hread
  · rw [List.length_append]
    exact Nat.le_trans h.checkpointed_le (Nat.le_add_right _ _)
  · rw [h.take_snoc op, ← h.checkpoint]
    exact congrArg Checkpoints.checkpointPosition hperf.checkpoints

/-- A checkpoint at the position, by one word or one pair. -/
theorem checkpoint_good (h : s.Good) {j : Journal} {w : Nat → Int}
    (hj : s.journal.Checkpointed w j) (hw : Agrees w j.checkpoints)
    (hcp : j.getCheckpoint = s.journal.getPosition)
    (hctx : j.context = s.journal.context) :
    Good { s with journal := j, checkpointed := s.ops.length } := by
  have hflush := h.flush
  have hpos : j.getPosition = s.journal.getPosition := by
    rw [← hj.ready.length_body, hj.body, h.ready.length_body]
  refine ⟨hj.ready, hw.congr hj.words, ?_, ?_, ?_, hctx.trans h.context,
    hj.body.trans h.body, h.fits, h.readable, Nat.le_refl _, ?_⟩
  · exact hflush.header.of_slice (Nat.le_of_eq hj.length.symm)
      (hj.behind 32 41 (Nat.le_refl _))
  · rw [hj.position, hj.length, ← h.ready.flush_position]
    exact hflush.exact
  · rw [hpos]; exact h.bound
  · rw [List.take_length, hcp, ← h.body, h.ready.length_body]

theorem softCheckpoint (h : s.Good) :
    Good { s with journal := s.journal.softCheckpoint, checkpointed := s.ops.length } := by
  rcases Nat.lt_or_ge s.journal.getCheckpoint s.journal.getPosition with hlt | hge
  · have hj := h.ready.softCheckpointAt hlt (Nat.le_refl _) h.bound
    refine h.checkpoint_good hj ?_ ?_ ?_
    · rw [Journal.softCheckpoint, Journal.softCheckpointAt_of_lt hlt]
      exact agrees_soft h.agrees hlt h.bound
    · rw [Journal.softCheckpoint, Journal.softCheckpointAt_of_lt hlt]; rfl
    · rw [Journal.softCheckpoint, Journal.softCheckpointAt_of_lt hlt]; rfl
  · have hpos : s.journal.getPosition = s.journal.getCheckpoint :=
      Nat.le_antisymm hge (Nat.le_trans h.ready.checkpoint_le h.ready.position_le)
    rw [Journal.softCheckpoint, Journal.softCheckpointAt_of_le hge,
      ← h.checkpointed_of_position hpos]
    exact h

theorem hardCheckpoint (h : s.Good) :
    Good { s with journal := s.journal.hardCheckpoint, checkpointed := s.ops.length } := by
  rcases Nat.lt_or_ge s.journal.getHardCheckpoint s.journal.getPosition with hlt | hge
  · have hj := h.ready.hardCheckpointAt hlt (Nat.le_refl _) h.bound
    refine h.checkpoint_good hj ?_ ?_ ?_
    · rw [Journal.hardCheckpoint, Journal.hardCheckpointAt_of_lt hlt]
      exact agrees_hard h.agrees (Nat.le_of_lt hlt) h.bound
    · rw [Journal.hardCheckpoint, Journal.hardCheckpointAt_of_lt hlt]; rfl
    · rw [Journal.hardCheckpoint, Journal.hardCheckpointAt_of_lt hlt]; rfl
  · have hpos : s.journal.getPosition = s.journal.getCheckpoint :=
      Nat.le_antisymm (Nat.le_trans hge h.ready.hard_le)
        (Nat.le_trans h.ready.checkpoint_le h.ready.position_le)
    rw [Journal.hardCheckpoint, Journal.hardCheckpointAt_of_le hge,
      ← h.checkpointed_of_position hpos]
    exact h

/-- A file closed at its checkpoint is reopened, replayed, and is as before. -/
theorem reopen_same (h : s.Good) {mode : OpenMode} {reads : Pread}
    (ha : s.Allowed (.reopen mode reads)) :
    ∃ j, s.reopen mode reads = .ok { s with journal := j } ∧ Good { s with journal := j } ∧
      j.file.data = s.journal.file.data ∧ j.getHardCheckpoint = s.journal.getHardCheckpoint ∧
      j.getCheckpoint = s.journal.getCheckpoint := by
  obtain ⟨hpos, hmode⟩ := ha
  have hcount := h.checkpointed_of_position hpos
  have hready := h.ready
  have hexact : s.journal.file.data.length = s.journal.getCheckpoint := by
    have h1 := hready.checkpoint_le
    have h2 := hready.position_le
    rw [← h.exact]; omega
  have hbody := h.checkpoint_body
  rw [hcount, List.take_length] at hbody
  have hwritable : ({ s.journal.file with mode := mode, reads := reads } : File).isReadonly
      = false := by
    cases mode <;> first | rfl | exact absurd rfl hmode
  obtain ⟨j, hopen, hj⟩ := Journal.openWritable_opened
    (show HasHeader (File.data { s.journal.file with mode := mode, reads := reads }) from
      h.header) h.agrees (Nat.le_of_eq hexact.symm) .none (by decide) (.inl hexact) hwritable
  obtain ⟨b, hfile, hidle, hposition, hplay⟩ := hj.plays recorder_passive
    (encodeAll_fits h.fits .reset) (Nat.le_trans h.agrees.header_le h.agrees.hard_le)
    (Nat.le_of_eq hexact.symm) hbody
    (by rw [decodeAll_encodeAll]; exact recorder_hearAll h.readable [])
  rw [decodeAll_encodeAll] at hplay
  have hdata : b.file.data = s.journal.file.data := by rw [hfile]
  have hhard : (j.checkpoints).hardCheckpointPosition
      = s.journal.getHardCheckpoint := hj.hardCheckpoint
  have hcp : (j.checkpoints).checkpointPosition = s.journal.getCheckpoint := hj.checkpoint
  refine ⟨⟨b, j.checkpoints, contextAfter .reset s.ops⟩, ?_, ?_, hdata, hhard, hcp⟩
  · rw [History.reopen, hopen]
    simp only []
    rw [hplay]
  · have hagrees : Agrees (headerWord b.file.data) j.checkpoints := by
      rw [hdata]; exact hj.agrees
    have hlen : b.position = b.file.data.length := by
      rw [hposition, hdata]; exact hexact.symm
    refine ⟨⟨hidle.writing, Nat.le_of_eq hlen, hagrees.header_le, hagrees.hard_le, ?_⟩,
      hagrees, ?_, hlen, ?_, rfl, ?_, h.fits, h.readable, h.checkpointed_le, ?_⟩
    · exact Nat.le_of_eq (hcp.trans hposition.symm)
    · show HasHeader b.file.data
      rw [hdata]; exact h.header
    · show b.getPosition < 2 ^ 63
      rw [hidle.getPosition, hposition]
      exact h.agrees.lt_max
    · show slice b.file.data headerSize b.position ++ b.pending = _
      rw [hidle.pending, List.append_nil, hdata, hposition]
      exact hbody
    · exact hcp.trans h.checkpoint

theorem reopen (h : s.Good) {mode : OpenMode} {reads : Pread}
    (ha : s.Allowed (.reopen mode reads)) :
    ∃ s', s.reopen mode reads = .ok s' ∧ s'.Good := by
  obtain ⟨j, hreopen, hgood, -⟩ := h.reopen_same ha
  exact ⟨_, hreopen, hgood⟩

end Good

/-- What happens to a good history is allowed to go through, and leaves it
good. -/
theorem Good.step {s : History} (h : s.Good) {a : Act} (ha : s.Allowed a) :
    ∃ s', s.step a = .ok s' ∧ s'.Good := by
  cases a with
  | perform op => exact ⟨_, rfl, h.perform ha⟩
  | flush => exact ⟨_, rfl, h.flush⟩
  | softCheckpoint => exact ⟨_, rfl, h.softCheckpoint⟩
  | hardCheckpoint => exact ⟨_, rfl, h.hardCheckpoint⟩
  | reopen mode reads => exact h.reopen ha

theorem Reach.good {s : History} (h : Reach s) : s.Good := by
  induction h with
  | create file recovery hempty hmode hopen =>
      rename_i j
      obtain ⟨j', hopen', hready, hbody, hfile, hdata, hc, hctx, hidle, hpos⟩ :=
        Journal.openWritable_new hempty hmode recovery
      obtain rfl : j' = j := by
        rw [hopen] at hopen'
        exact (Except.ok.inj hopen').symm
      refine ⟨hready, ?_, ?_, ?_, ?_, hctx, hbody, by simp, by simp, Nat.le_refl _, ?_⟩
      · rw [hdata, hc]
        exact agrees_initial.congr fun k hk => headerWord_initial hk
      · rw [hdata]; exact hasHeader_initial
      · rw [hpos, hdata]; decide
      · show j'.fileBuffer.getPosition < 2 ^ 63
        rw [hidle.getPosition, hpos]; decide
      · rw [Journal.getCheckpoint, hc]; rfl
  | step hs ha hstep ih =>
      obtain ⟨s', hstep', hgood⟩ := ih.step ha
      rw [hstep] at hstep'
      obtain rfl := Except.ok.inj hstep'
      exact hgood

/-- A reader of the file, whatever its way of reading. -/
def readBy (s : History) (reads : Pread) : File :=
  { s.journal.file with mode := .readExisting, reads := reads }

/-- Every history of operations, flushes, checkpoints and reopenings goes
through, and replaying its file tells the operations up to the last checkpoint,
in order, and ends at that checkpoint. At a checkpoint that is all of them, and
the reader has the context of the writer. -/
theorem replay_roundTrip {s : History} (h : s.Reach) :
    (∀ reads, ∃ r, replayFile (s.readBy reads) = .ok r ∧
      r.writable = (s.ops.take s.checkpointed).flatMap Op.visible ∧
      r.journal.getCheckpoint = s.journal.getCheckpoint ∧
      r.journal.getPosition = s.journal.getCheckpoint ∧
      (s.journal.getPosition = s.journal.getCheckpoint →
        s.checkpointed = s.ops.length ∧ r.journal.context = s.journal.context)) ∧
      ∀ a, s.Allowed a → ∃ s', s.step a = .ok s' := by
  have hgood := h.good
  constructor
  · intro reads
    have hsub : ∀ {P : Op → Prop}, (∀ op ∈ s.ops, P op) →
        ∀ op ∈ s.ops.take s.checkpointed, P op :=
      fun hall op hop => hall op (List.mem_of_mem_take hop)
    obtain ⟨r, hplay, hheard, hctx, hcp, hpos⟩ := replayInto_hear recorder_passive
      (show HasHeader (s.readBy reads).data from hgood.header) hgood.agrees
      hgood.checkpoint_le_length (encodeAll_fits (hsub hgood.fits) .reset)
      hgood.checkpoint_body
      (by rw [decodeAll_encodeAll]; exact recorder_hearAll (hsub hgood.readable) [])
    rw [decodeAll_encodeAll] at hctx
    rw [List.nil_append] at hheard
    refine ⟨r, hplay, hheard, hcp, hpos, fun hend => ?_⟩
    have hall := hgood.checkpointed_of_position hend
    refine ⟨hall, ?_⟩
    rw [hctx, hall, List.take_length, hgood.context]
  · intro a ha
    obtain ⟨s', hstep, -⟩ := hgood.step ha
    exact ⟨s', hstep⟩

/-- A table, a record, and a checkpoint. -/
theorem replay_roundTrip_insert :
    ∃ s : History, s.ops = [.createTable [0x74], .insertInto 1 0] ∧ s.checkpointed = 2 ∧
      ∃ r, replayFile (s.readBy .whole) = .ok r ∧
        r.writable = [.createTable [0x74], .insertInto 1 0] := by
  have hcreate : Reach ⟨_, [], 0⟩ := .create .empty .none rfl rfl rfl
  have htable := hcreate.step (a := .perform (.createTable [0x74]))
    ⟨(by decide : 1 < 2 ^ 61), trivial, by decide⟩ rfl
  have hinsert := htable.step (a := .perform (.insertInto 1 0))
    ⟨⟨by decide, by decide⟩, trivial, by decide⟩ rfl
  have hsoft := hinsert.step (a := .softCheckpoint) trivial rfl
  obtain ⟨r, hplay, hheard, -⟩ := (replay_roundTrip hsoft).1 .whole
  exact ⟨_, rfl, rfl, r, hplay, hheard⟩

/-- Write one operation into a new file, checkpoint, and replay. -/
def replayOne (op : Op) : Except Exn (List Op) :=
  match Journal.openWritable .empty .none with
  | .error e => .error e
  | .ok j => (replayFile (j.perform op).softCheckpoint.file).map (·.writable)

/-- The blob of an update. -/
def Op.blobs : Op → List Blob
  | .update .blob _ _ _ value => [value.1]
  | _ => []

/-- A vector before record 0 is written and checkpointed, and no reader takes
it; a blob at 2^61 comes back as one at 0. -/
theorem unreadable_operations :
    Op.Fits (.updateVector .int8 1 (-1) 1 [(7 : BitVec 8)]) ∧
      replayOne (.updateVector .int8 1 (-1) 1 [(7 : BitVec 8)])
        = .error (.exception "update_vector out of range") ∧
      (replayOne (.update .blob 1 0 1 ⟨(⟨2 ^ 61, 0⟩ : Blob), rfl⟩)).toOption.map
        (·.flatMap Op.blobs) = some [⟨0, 0⟩] := by
  refine ⟨⟨⟨by decide, by decide⟩, ?_, fun _ _ => trivial⟩, rfl, by decide +kernel⟩
  exact (by decide : 1 < 2 ^ 61)

end History

/-! ## Listeners -/

/-- A file is replayed if its operations are heard. -/
theorem replayInto_of_heard {ω : Type} {W : Writable ω} (hW : W.Passive) {h : History}
    (hr : h.Reach) (reads : Pread) {w w' : ω}
    (hhear : W.hearAll (h.ops.take h.checkpointed) w = .ok () w') :
    ∃ r, replayInto W w (h.readBy reads) = .ok r ∧ r.writable = w' := by
  have hgood := hr.good
  obtain ⟨r, hreplay, hwritable, -⟩ := replayInto_hear hW
    (show HasHeader (h.readBy reads).data from hgood.header) hgood.agrees
    hgood.checkpoint_le_length
    (encodeAll_fits (fun op hop => hgood.fits op (List.mem_of_mem_take hop)) .reset)
    hgood.checkpoint_body (by rw [decodeAll_encodeAll]; exact hhear)
  exact ⟨r, hreplay, hwritable⟩

/-- What replayed a file was told the operations up to its checkpoint. -/
theorem heard_of_replayInto {ω : Type} {W : Writable ω} (hW : W.Passive) {h : History}
    (hr : h.Reach) {reads : Pread} {w : ω} {r : Replay ω}
    (hrun : replayInto W w (h.readBy reads) = .ok r) :
    W.hearAll (h.ops.take h.checkpointed) w = .ok () r.writable := by
  have hgood := hr.good
  have hfit : ∀ op ∈ h.ops.take h.checkpointed, op.Fits :=
    fun op hop => hgood.fits op (List.mem_of_mem_take hop)
  cases hhear : W.hearAll (h.ops.take h.checkpointed) w with
  | ok u w' =>
      obtain ⟨r', hreplay, hwritable⟩ := replayInto_of_heard hW hr reads hhear
      rw [hreplay] at hrun
      obtain rfl := Except.ok.inj hrun
      rw [hwritable]
  | error e w' =>
      obtain ⟨j, hopen, hj⟩ := Journal.openReadonly_opened
        (show HasHeader (h.readBy reads).data from hgood.header) hgood.agrees
        hgood.checkpoint_le_length .none (by decide) false
      have hidle := setPosition_idle hj.idle headerSize
      have hfile : j.rewind.file = h.readBy reads := hidle.2.2.trans hj.file_eq
      have hposition : j.rewind.getPosition = headerSize :=
        hidle.1.getPosition.trans hidle.2.1
      have hcheckpoint : j.rewind.getCheckpoint = headerSize
          + (wiresBytes (encodeAll .reset (h.ops.take h.checkpointed))).length :=
        hj.checkpoint.trans hgood.checkpoint
      obtain ⟨b, -, hplay⟩ := playUntilCheckpoint_hear hW (j := j.rewind) (w := w)
        (encodeAll_fits hfit .reset) hidle.1.reading
        (by rw [hcheckpoint, hposition])
        (prefix_drop_iff_slice.mpr (by
          rw [hfile, hposition, ← hgood.checkpoint]
          exact hgood.checkpoint_body))
      rw [show j.rewind.context = .reset from rfl, decodeAll_encodeAll, hhear] at hplay
      obtain ⟨c, hplay⟩ := hplay.2.2.2
      have hlog : ∃ r', replayLog W ⟨j, w⟩ = .error e r' := by
        rw [replayLog, modify_bind_run]
        exact ⟨_, hplay⟩
      obtain ⟨r', hlog⟩ := hlog
      rw [replayInto, hopen] at hrun
      simp only [hlog] at hrun
      cases hrun

end Joedb
