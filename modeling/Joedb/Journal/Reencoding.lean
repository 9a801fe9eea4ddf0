import Joedb.Journal.RoundTrip

/-!
# Written, read and written again

A journal is a `Writable` like any other, so a file can be replayed into a new
journal. Two journals that perform the same operations hold the same bytes, so
this copies the file, up to its checkpoint, as long as every operation is passed
on. The reader keeps one to itself, a vector of no values. Without it the bytes
are never the same: the new journal notices that it is not where the reader is,
or what follows was longer to write.
-/

namespace Joedb

open ByteFile StateExcept FileBuffer Replay

/-- An operation that a reader passes on. -/
def Op.Passed : Op → Prop
  | updateVector _ _ _ _ vs => vs.length ≠ 0
  | _ => True

theorem Op.Passed.visible {op : Op} (h : op.Passed) : op.visible = [op] := by
  cases op with
  | updateVector ty t r f vs => exact if_neg h
  | _ => rfl

theorem Op.length_visible_le (op : Op) : op.visible.length ≤ 1 := by
  cases op with
  | updateVector ty t r f vs =>
      rw [Op.visible]
      split
      · exact Nat.zero_le 1
      · exact Nat.le_refl 1
  | _ => exact Nat.le_refl 1

theorem Op.passed_of_length {op : Op} (h : op.visible.length = 1) : op.Passed := by
  cases op with
  | updateVector ty t r f vs =>
      intro hempty
      rw [Op.visible, if_pos hempty] at h
      cases h
  | _ => trivial

theorem mem_visible {op op' : Op} (h : op ∈ op'.visible) : op' = op := by
  cases op' with
  | updateVector ty t r f vs =>
      rw [Op.visible] at h
      split at h
      · exact absurd h List.not_mem_nil
      · exact (List.mem_singleton.mp h).symm
  | _ => exact (List.mem_singleton.mp h).symm

theorem flatMap_visible {ops : List Op} (h : ∀ op ∈ ops, op.Passed) :
    ops.flatMap Op.visible = ops := by
  induction ops with
  | nil => rfl
  | cons op ops ih =>
      obtain ⟨hop, hops⟩ := List.forall_mem_cons.mp h
      rw [List.flatMap_cons, hop.visible, ih hops, List.singleton_append]

theorem length_flatMap_visible_le (ops : List Op) :
    (ops.flatMap Op.visible).length ≤ ops.length := by
  induction ops with
  | nil => exact Nat.le_refl 0
  | cons op ops ih =>
      have hop := op.length_visible_le
      rw [List.flatMap_cons, List.length_append, List.length_cons]
      omega

theorem passed_of_length {ops : List Op} (h : (ops.flatMap Op.visible).length = ops.length) :
    ∀ op ∈ ops, op.Passed := by
  induction ops with
  | nil => exact fun _ hop => absurd hop List.not_mem_nil
  | cons op ops ih =>
      have hop := op.length_visible_le
      have hops := length_flatMap_visible_le ops
      rw [List.flatMap_cons, List.length_append, List.length_cons] at h
      exact List.forall_mem_cons.mpr ⟨Op.passed_of_length (by omega), ih (by omega)⟩

namespace Reencoding

/-- A journal performs what it hears. -/
theorem listen_journal {op : Op} (hread : op.Readable) (j : Journal) :
    Journal.asWritable.listen op j = .ok () (op.visible.foldl Journal.perform j) := by
  cases op with
  | updateVector ty tableId recordId fieldId vs =>
      show Journal.asWritable.hear (.updateVector ty tableId recordId fieldId vs) j = _
      rw [Writable.hear_updateVector, Op.visible]
      by_cases hempty : vs.length = 0
      · rw [when_neg (not_not_intro hempty), if_pos hempty]
        rfl
      · have hrecord : 0 ≤ recordId := hread.resolve_left hempty
        have hown : Journal.asWritable.ownStorage ty tableId fieldId j = .ok none j := rfl
        rw [when_pos hempty, if_neg hempty, Writable.hearVector, bind_ok hown, when_neg,
          pure_bind_run]
        · rfl
        · rintro (hneg | ⟨n, hn, -⟩)
          · exact absurd hneg (Int.not_lt.mpr hrecord)
          · cases hn
  | _ => rfl

theorem listenAll_journal {ops : List Op} (hread : ∀ op ∈ ops, op.Readable) (j : Journal) :
    Journal.asWritable.listenAll ops j
      = .ok () ((ops.flatMap Op.visible).foldl Journal.perform j) := by
  induction ops generalizing j with
  | nil => rfl
  | cons op ops ih =>
      obtain ⟨hop, hops⟩ := List.forall_mem_cons.mp hread
      rw [Writable.listenAll, bind_ok (listen_journal hop j), List.flatMap_cons, List.foldl_append]
      exact ih hops _

/-- What a journal holds behind any operations. -/
theorem foldl_perform (ops : List Op) {j : Journal} (h : j.Ready) :
    (ops.foldl Journal.perform j).Ready ∧
      (ops.foldl Journal.perform j).body = j.body ++ wiresBytes (encodeAll j.context ops) := by
  induction ops generalizing j with
  | nil => exact ⟨h, (List.append_nil _).symm⟩
  | cons op ops ih =>
      obtain ⟨hready, hbody⟩ := h.perform op
      obtain ⟨hready', hbody'⟩ := ih hready
      refine ⟨hready', hbody'.trans ?_⟩
      rw [hbody, (Journal.perform_performs h.writing op).context, encodeAll, wiresBytes_cons,
        List.append_assoc]

/-! ## One number of operations -/

theorem full_of_abbreviate {c : Context} {op op' : Op} (h : abbreviate c op = .full op') :
    op' = op := by
  cases op with
  | insertInto t r =>
      rw [abbreviate] at h
      split at h
      · cases h
      · exact (Wire.full.inj h).symm
  | update ty t r f v =>
      rw [abbreviate] at h
      split at h
      · cases h
      · split at h
        · cases h
        · exact (Wire.full.inj h).symm
  | _ => exact (Wire.full.inj h).symm

/-- Nothing that is readable is refused when nobody listens. -/
theorem run_dummy {w : Wire} (hread : ∀ op, w = .full op → op.Readable) {t : Replay Unit} (p : Nat)
    (hcp : w.bytes.length ≤ t.checkpoint) : ∃ t', w.run dummyWritable p t = .ok () t' := by
  have hlisten : dummyWritable.listenAt p (w.meaning t.context) () = .ok () () := by
    cases w with
    | full op =>
        cases op with
        | updateVector ty tableId r f vs =>
            show dummyWritable.hear (.updateVector ty tableId r f vs) () = _
            rw [Writable.hear_updateVector]
            by_cases hempty : vs.length = 0
            · rw [when_neg (not_not_intro hempty)]
              rfl
            · have hrecord : 0 ≤ r := (hread _ rfl).resolve_left hempty
              have hown : dummyWritable.ownStorage ty tableId f () = .ok none () := rfl
              rw [when_pos hempty, Writable.hearVector, bind_ok hown, when_neg, pure_bind_run]
              · rfl
              · rintro (hneg | ⟨n, hn, -⟩)
                · exact absurd hneg (Int.not_lt.mpr hrecord)
                · cases hn
        | _ => rfl
    | _ => rfl
  have hrun := run_listensAt (W := dummyWritable) (t := t) p hcp
  rw [Tells, show t.writable = () from rfl, hlisten] at hrun
  exact ⟨_, hrun⟩

/-- A reader in front of some bytes. -/
def readerOf (bs : Bytes) : Replay Unit :=
  ⟨⟨.create ⟨.readExisting, .whole, bs, []⟩, { Checkpoints.initial with
    checkpointPosition := bs.length }, .reset⟩, ()⟩

/-- The reader cannot take two lengths of one start. -/
theorem length_wire {w w' : Wire} {rest rest' : Bytes} (hfit : w.Fits) (hfit' : w'.Fits)
    (hread : ∀ op, w = .full op → op.Readable) (hread' : ∀ op, w' = .full op → op.Readable)
    (h : w.bytes ++ rest = w'.bytes ++ rest') : w.bytes.length = w'.bytes.length := by
  have hone : ∀ {w : Wire} (rest : Bytes), w.Fits → (∀ op, w = .full op → op.Readable) →
      ∃ (t : Replay Unit) (b : FileBuffer), oneStep dummyWritable (readerOf (w.bytes ++ rest))
        = .ok () (t.withBuffer b) ∧ b.getPosition = w.bytes.length := by
    intro w rest hfit hread
    have hcp : w.bytes.length ≤ (readerOf (w.bytes ++ rest)).checkpoint := by
      show _ ≤ (w.bytes ++ rest).length
      rw [List.length_append]
      exact Nat.le_add_right _ _
    obtain ⟨t, ht⟩ := run_dummy hread 0 hcp
    have hstep := oneStep_runs (W := dummyWritable) hfit 0 hcp
    rw [ht] at hstep
    obtain ⟨b, -, hrun, -, hposition⟩ := hstep
      (.create ⟨.readExisting, .whole, w.bytes ++ rest, []⟩)
      ⟨(create_idle _).reading, rfl⟩ ⟨rest, rfl⟩
    exact ⟨t, b, hrun, hposition.trans (Nat.zero_add _)⟩
  obtain ⟨t, b, hrun, hposition⟩ := hone rest hfit hread
  obtain ⟨t', b', hrun', hposition'⟩ := hone rest' hfit' hread'
  rw [h] at hrun
  have hsame := (EStateM.Result.ok.inj (hrun.symm.trans hrun')).2
  rw [← hposition, ← hposition', show b = b' from
    congrArg (fun t : Replay Unit => t.journal.fileBuffer) hsame]

/-- The same bytes are the same number of operations. -/
theorem length_of_wiresBytes {ops ops' : List Op} {c c' : Context} (hfits : ∀ op ∈ ops, op.Fits)
    (hread : ∀ op ∈ ops, op.Readable) (hfits' : ∀ op ∈ ops', op.Fits)
    (hread' : ∀ op ∈ ops', op.Readable)
    (h : wiresBytes (encodeAll c ops) = wiresBytes (encodeAll c' ops')) :
    ops.length = ops'.length := by
  induction ops generalizing ops' c c' with
  | nil =>
      cases ops' with
      | nil => rfl
      | cons op' ops' =>
          have := length_wire_pos (abbreviate c' op')
          have hlen := congrArg List.length h
          rw [encodeAll, encodeAll, wiresBytes_cons, List.length_append] at hlen
          exact absurd hlen (by rw [show (wiresBytes []).length = 0 from rfl]; omega)
  | cons op ops ih =>
      cases ops' with
      | nil =>
          have := length_wire_pos (abbreviate c op)
          have hlen := congrArg List.length h
          rw [encodeAll, encodeAll, wiresBytes_cons, List.length_append] at hlen
          exact absurd hlen (by rw [show (wiresBytes []).length = 0 from rfl]; omega)
      | cons op' ops' =>
          obtain ⟨hop, hops⟩ := List.forall_mem_cons.mp hread
          obtain ⟨hop', hops'⟩ := List.forall_mem_cons.mp hread'
          have hwire := List.forall_mem_cons.mp (encodeAll_fits hfits c)
          have hwire' := List.forall_mem_cons.mp (encodeAll_fits hfits' c')
          rw [encodeAll, encodeAll, wiresBytes_cons, wiresBytes_cons] at h
          have hlen := length_wire hwire.1 hwire'.1
            (fun o ho => full_of_abbreviate ho ▸ hop) (fun o ho => full_of_abbreviate ho ▸ hop') h
          obtain ⟨-, hrest⟩ := List.append_inj h hlen
          exact congrArg Nat.succ (ih (List.forall_mem_cons.mp hfits).2 hops
            (List.forall_mem_cons.mp hfits').2 hops' hrest)

/-! ## Replays into a journal -/

/-- Performing operations is a history. -/
theorem reach_foldl {ops : List Op} {j : Journal} {done : List Op}
    (h : History.Reach ⟨j, done, 0⟩) (hfits : ∀ op ∈ ops, op.Fits)
    (hread : ∀ op ∈ ops, op.Readable)
    (hbound : headerSize + (wiresBytes (encodeAll .reset (done ++ ops))).length < 2 ^ 63) :
    History.Reach ⟨ops.foldl Journal.perform j, done ++ ops, 0⟩ := by
  induction ops generalizing j done with
  | nil => rwa [List.append_nil]
  | cons op ops ih =>
      obtain ⟨hfit, hfits⟩ := List.forall_mem_cons.mp hfits
      obtain ⟨hop, hread⟩ := List.forall_mem_cons.mp hread
      have hgood := h.good
      have hlen := hgood.ready.length_body
      have hlen : headerSize + j.body.length = j.getPosition := hlen
      have hbody : j.body = wiresBytes (encodeAll .reset done) := hgood.body
      have hcontext : j.context = contextAfter .reset done := hgood.context
      have hone : (wiresBytes (encodeAll .reset (done ++ op :: ops))).length
          = j.body.length + (abbreviate j.context op).bytes.length
            + (wiresBytes (encodeAll (op.context j.context) ops)).length := by
        rw [encodeAll_append, wiresBytes_append, ← hbody, ← hcontext, encodeAll, wiresBytes_cons,
          List.length_append, List.length_append, Nat.add_assoc]
      have hstep := h.step (a := .perform op) ⟨hfit, hop, by
        show j.getPosition + (abbreviate j.context op).bytes.length < 2 ^ 63
        omega⟩ rfl
      have hsplit : done ++ op :: ops = (done ++ [op]) ++ ops := by
        rw [List.append_assoc, List.singleton_append]
      rw [hsplit] at hbound ⊢
      exact ih hstep hfits hread hbound

/-- A checkpoint where the journal stands. -/
theorem softCheckpoint_body {j : Journal} (h : j.Ready) (hmax : j.getPosition < 2 ^ 63) :
    j.softCheckpoint.body = j.body := by
  rw [Journal.softCheckpoint]
  by_cases hlt : j.getCheckpoint < j.getPosition
  · exact (h.softCheckpointAt hlt (Nat.le_refl _) hmax).body
  · rw [Journal.softCheckpointAt_of_le (Nat.not_lt.mp hlt)]

/-- A new journal has nothing that the reader would have to make up for. -/
theorem startWriting_new {j : Journal} (h : j.getCheckpoint = headerSize) :
    Journal.startWriting headerSize j = .ok () j := by
  rw [Journal.startWriting, get_bind_run, if_neg (not_not_intro h.symm)]
  rfl

theorem endWriting_there {j : Journal} {p : Nat} (h : j.getPosition = p) :
    Journal.endWriting p j = .ok () j := by
  rw [Journal.endWriting, get_bind_run, if_neg (not_not_intro h.symm)]
  rfl

theorem endWriting_elsewhere {j : Journal} {p : Nat} (h : j.getPosition ≠ p) :
    Journal.endWriting p j
      = .error (.exception "end_writing position is not matching file position") j := by
  rw [Journal.endWriting, get_bind_run, if_pos (Ne.symm h)]
  rfl

section Stretch

/-! The file of `j` has `ops` behind its header, up to the checkpoint, and `j₀` is new. -/

variable {j j₀ : Journal} {ops : List Op}
  (hstart : j₀.getPosition = headerSize) (hcp₀ : j₀.getCheckpoint = headerSize)
  (hfits : ∀ op ∈ ops, op.Fits) (hread : ∀ op ∈ ops, op.Readable)
  (hidle : j.fileBuffer.Idle) (hpos : j.getPosition = headerSize) (hcontext : j.context = .reset)
  (hcp : j.getCheckpoint = headerSize + (wiresBytes (encodeAll .reset ops)).length)
  (hbody : wiresBytes (encodeAll .reset ops) <+: j.file.data.drop headerSize)

include hfits hread hidle hpos hcontext hcp hbody

variable (j₀) in
/-- The new journal performs what is passed on. -/
theorem rawPlayUntil_journal :
    ∃ t, rawPlayUntil Journal.asWritable j.getCheckpoint ⟨j, j₀⟩ = .ok () t ∧
      t.journal.getPosition = j.getCheckpoint ∧
      t.writable = (ops.flatMap Op.visible).foldl Journal.perform j₀ := by
  have hrun := runAll_listens (W := Journal.asWritable) (fun _ => rfl)
    (encodeAll .reset ops) (t := ⟨j, j₀⟩) headerSize
    (show _ ≤ j.getCheckpoint from hcp ▸ Nat.le_add_left _ _)
  rw [show Replay.context ⟨j, j₀⟩ = .reset from hcontext, decodeAll_encodeAll, Tells,
    listenAll_journal hread] at hrun
  obtain ⟨b, -, hplay⟩ := rawPlayUntil_runs (W := Journal.asWritable) (t := ⟨j, j₀⟩)
    (encodeAll_fits hfits .reset) hcp (Nat.le_refl _) j.fileBuffer ⟨hidle.reading, hpos⟩ hbody
  simp only at hrun
  rw [hrun] at hplay
  obtain ⟨hplay, hat⟩ := hplay
  exact ⟨_, hplay, hat.2.trans hcp.symm, rfl⟩

include hstart hcp₀ in
/-- With a call before and behind it. -/
theorem playOn_journal :
    ∃ t, t.writable = (ops.flatMap Op.visible).foldl Journal.perform j₀ ∧
      playOn Journal.asWritable j.getCheckpoint ⟨j, j₀⟩
        = (tell (Journal.asWritable.endWriting j.getCheckpoint) >>= fun _ =>
            tell Journal.asWritable.softCheckpoint) t := by
  have hget : Replay.journal ⟨j, j₀⟩ = j := rfl
  have hcatch : catchUp Journal.asWritable ⟨j, j₀⟩ = .ok () ⟨j, j₀⟩ := by
    rw [catchUp, get_bind_run, when_neg]
    · rfl
    · show ¬ j.getPosition < j₀.getPosition
      omega
  have hstarted : tell (Journal.asWritable.startWriting headerSize) ⟨j, j₀⟩ = .ok () ⟨j, j₀⟩ :=
    tell_ok (startWriting_new hcp₀)
  obtain ⟨t, hraw, hreader, hwriter⟩ :=
    rawPlayUntil_journal j₀ hfits hread hidle hpos hcontext hcp hbody
  refine ⟨t, hwriter, ?_⟩
  rw [playOn, bind_ok hcatch, get_bind_run, hget, hpos, bind_ok hstarted, bind_ok hraw,
    get_bind_run, hreader]

include hstart hcp₀ in
/-- The replay of a stretch into a new journal goes through if the journal is then where the
reader is, and ends with an exception if it is not. -/
theorem playUntil_journal :
    (((ops.flatMap Op.visible).foldl Journal.perform j₀).getPosition = j.getCheckpoint ∧
      ∃ r, playUntil Journal.asWritable j.getCheckpoint ⟨j, j₀⟩ = .ok () r ∧
        r.writable = ((ops.flatMap Op.visible).foldl Journal.perform j₀).softCheckpoint) ∨
    (((ops.flatMap Op.visible).foldl Journal.perform j₀).getPosition ≠ j.getCheckpoint ∧
      ∃ e r, playUntil Journal.asWritable j.getCheckpoint ⟨j, j₀⟩ = .error e r) := by
  have hget : Replay.journal ⟨j, j₀⟩ = j := rfl
  rw [playUntil, get_bind_run, hget, hpos]
  by_cases hlt : headerSize < j.getCheckpoint
  · obtain ⟨t, hwriter, hon⟩ :=
      playOn_journal hstart hcp₀ hfits hread hidle hpos hcontext hcp hbody
    rw [when_pos hlt]
    by_cases hend : t.writable.getPosition = j.getCheckpoint
    · have hended : tell (Journal.asWritable.endWriting j.getCheckpoint) t = .ok () t :=
        tell_ok (endWriting_there hend)
      have hsoft : tell Journal.asWritable.softCheckpoint t
          = .ok () (t.withWritable t.writable.softCheckpoint) := tell_ok rfl
      rw [bind_ok hended, hsoft] at hon
      rw [bind_ok hon]
      exact .inl ⟨hwriter ▸ hend, _, rfl, congrArg Journal.softCheckpoint hwriter⟩
    · have hended : tell (Journal.asWritable.endWriting j.getCheckpoint) t
          = .error (.exception "end_writing position is not matching file position") t :=
        tell_error (endWriting_elsewhere hend)
      rw [bind_error hended] at hon
      rw [bind_error hon]
      exact .inr ⟨hwriter ▸ hend, _, _, rfl⟩
  · have hnil : ops = [] := by
      cases ops with
      | nil => rfl
      | cons op ops =>
          have := length_wire_pos (abbreviate .reset op)
          rw [encodeAll, wiresBytes_cons, List.length_append] at hcp
          omega
    subst hnil
    have hend : j₀.getPosition = j.getCheckpoint := by
      rw [hstart, hcp]
      rfl
    rw [when_neg hlt, pure_bind_run]
    refine .inl ⟨hend, _, rfl, ?_⟩
    show j₀ = j₀.softCheckpoint
    exact (Journal.softCheckpointAt_of_le (by rw [hstart, hcp₀])).symm

end Stretch

/-- What a copy has of an old journal: behind the header what the old file has up to its
checkpoint, all of its body if it is at its checkpoint. -/
structure Copied (s : History) (j : Journal) : Prop where
  body : j.body = slice s.journal.file.data headerSize s.journal.getCheckpoint
  file : j.file.data.drop headerSize
    = slice s.journal.file.data headerSize s.journal.getCheckpoint
  checkpoint : j.getCheckpoint = s.journal.getCheckpoint
  whole : s.journal.getPosition = s.journal.getCheckpoint → j.body = s.journal.body

/-- A journal that performed the operations up to the checkpoint, and is at its own, is a copy. -/
theorem copied_of_reach {s : History} (h : s.Reach) {j : Journal}
    (hreach : History.Reach ⟨j, s.ops.take s.checkpointed, (s.ops.take s.checkpointed).length⟩) :
    Copied s j := by
  have hgood := h.good
  have hgood' := hreach.good
  have hready' : j.Ready := hgood'.ready
  have hbody := hgood.checkpoint_body
  have hbody' : j.body = slice s.journal.file.data headerSize s.journal.getCheckpoint := by
    rw [show j.body = _ from hgood'.body, hbody]
  have hcp' : j.getCheckpoint = s.journal.getCheckpoint := by
    rw [show j.getCheckpoint = _ from hgood'.checkpoint, List.take_length, hgood.checkpoint]
  refine ⟨hbody', ?_, hcp', fun hend => ?_⟩
  · have hflushed := hgood'.checkpoint_body
    have hexact : j.fileBuffer.position = j.file.data.length := hgood'.exact
    have hlen := hready'.length_body
    have hle := hready'.checkpoint_le
    have hpos := hready'.position_le
    have hlen' : j.file.data.length = j.getCheckpoint := by
      have hcheck := hgood'.checkpoint
      rw [List.take_length, ← show j.body = _ from hgood'.body] at hcheck
      have hcheck' : j.getCheckpoint = headerSize + j.body.length := hcheck
      omega
    rw [List.take_length] at hflushed
    have hflushed' : slice j.file.data headerSize j.getCheckpoint = _ := hflushed
    rw [hbody, ← hflushed', ← hlen', slice, List.take_of_length_le]
    rw [List.length_drop]
  · have hall := hgood.checkpointed_of_position hend
    rw [hbody', hbody, hall, List.take_length, hgood.body]

/-- Replaying the file of a history of operations, flushes, checkpoints and
reopenings into a new journal goes through and makes the same bytes exactly if
every operation up to the checkpoint is passed on. -/
theorem reencoding_same {s : History} (h : s.Reach) {fresh : File} {recovery : Recovery}
    {j₀ : Journal} (hempty : fresh.data = []) (hmode : fresh.isReadonly = false)
    (hopen : Journal.openWritable fresh recovery = .ok j₀) (reads : Pread) :
    (∃ r, replayInto Journal.asWritable j₀ (s.readBy reads) = .ok r ∧ Copied s r.writable) ↔
      ∀ op ∈ s.ops.take s.checkpointed, op.Passed := by
  have hgood := h.good
  have hsub : ∀ {P : Op → Prop}, (∀ op ∈ s.ops, P op) → ∀ op ∈ s.ops.take s.checkpointed, P op :=
    fun hall op hop => hall op (List.mem_of_mem_take hop)
  have hbody := hgood.checkpoint_body
  obtain ⟨j, hread, hj⟩ := Journal.openReadonly_opened
    (show HasHeader (s.readBy reads).data from hgood.header) hgood.agrees
    hgood.checkpoint_le_length .none (by decide) false
  have hidle := setPosition_idle hj.idle headerSize
  have hcp : j.rewind.getCheckpoint = s.journal.getCheckpoint := hj.checkpoint
  have hfile : j.rewind.file = s.readBy reads := hidle.2.2.trans hj.file_eq
  have hreach : History.Reach ⟨j₀, [], 0⟩ := .create fresh recovery hempty hmode hopen
  have hgood₀ := hreach.good
  have hready₀ : j₀.Ready := hgood₀.ready
  have hbody₀ : j₀.body = [] := hgood₀.body
  have hstart : j₀.getPosition = headerSize := by
    have hlen := hready₀.length_body
    rw [hbody₀] at hlen
    exact hlen.symm
  have hcheckpoint : j.rewind.getCheckpoint
      = headerSize + (wiresBytes (encodeAll .reset (s.ops.take s.checkpointed))).length :=
    hcp.trans hgood.checkpoint
  have hmax : j.rewind.getCheckpoint < 2 ^ 63 := by
    rw [hcp]
    exact hgood.agrees.lt_max
  have hplays := playUntil_journal (j := j.rewind) hstart hgood₀.checkpoint
    (hsub hgood.fits) (hsub hgood.readable) hidle.1 (hidle.1.getPosition.trans hidle.2.1) rfl
    hcheckpoint (by
      rw [prefix_drop_iff_slice, hfile, ← hgood.checkpoint]
      exact hbody)
  have hinto : ∀ r, playUntil Journal.asWritable j.rewind.getCheckpoint ⟨j.rewind, j₀⟩ = .ok () r →
      replayInto Journal.asWritable j₀ (s.readBy reads) = .ok r := by
    intro r hplay
    have hlog : replayLog Journal.asWritable ⟨j, j₀⟩ = .ok () r := by
      rw [replayLog, modify_bind_run]
      exact hplay
    rw [replayInto, hread]
    simp only [hlog]
  refine ⟨fun hcopies => ?_, fun hpassed => ?_⟩
  · obtain ⟨r, hreplay, hcopied⟩ := hcopies
    -- a journal that holds the same bytes has performed as many operations
    rcases hplays with ⟨hend, r', hplay, hr'⟩ | ⟨-, e, r', hplay⟩
    · obtain rfl := Except.ok.inj (hreplay.symm.trans (hinto r' hplay))
      obtain ⟨hready₁, hbody₁⟩ :=
        foldl_perform ((s.ops.take s.checkpointed).flatMap Op.visible) hready₀
      have hsame := hcopied.body
      rw [hr', softCheckpoint_body hready₁ (by rw [hend]; exact hmax), hbody₁, hbody₀,
        List.nil_append, show j₀.context = .reset from hgood₀.context, hbody] at hsame
      have hvisible : ∀ {P : Op → Prop}, (∀ op ∈ s.ops.take s.checkpointed, P op) →
          ∀ op ∈ (s.ops.take s.checkpointed).flatMap Op.visible, P op := by
        intro P hall op hop
        obtain ⟨op', hop', hmem⟩ := List.mem_flatMap.mp hop
        exact mem_visible hmem ▸ hall op' hop'
      exact passed_of_length (length_of_wiresBytes (hvisible (hsub hgood.fits))
        (hvisible (hsub hgood.readable)) (hsub hgood.fits) (hsub hgood.readable) hsame)
    · have hlog : replayLog Journal.asWritable ⟨j, j₀⟩ = .error e r' := by
        rw [replayLog, modify_bind_run]
        exact hplay
      rw [replayInto, hread] at hreplay
      simp only [hlog] at hreplay
      cases hreplay
  · rw [flatMap_visible hpassed] at hplays
    have hdone : History.Reach
        ⟨(s.ops.take s.checkpointed).foldl Journal.perform j₀,
          [] ++ s.ops.take s.checkpointed, 0⟩ :=
      reach_foldl hreach (hsub hgood.fits) (hsub hgood.readable) (by
        rw [List.nil_append, ← hcheckpoint]
        exact hmax)
    rw [List.nil_append] at hdone
    have hend : ((s.ops.take s.checkpointed).foldl Journal.perform j₀).getPosition
        = j.rewind.getCheckpoint := by
      have hlen := hdone.good.ready.length_body
      rw [show Journal.body _ = _ from hdone.good.body, ← hcheckpoint] at hlen
      exact hlen.symm
    rcases hplays with ⟨-, r, hplay, hr⟩ | ⟨hne, -⟩
    · refine ⟨r, hinto r hplay, copied_of_reach h ?_⟩
      rw [hr]
      exact hdone.step (a := .softCheckpoint) trivial rfl
    · exact absurd hend hne

/-- A table and a vector of two values. -/
theorem reencoding_same_vector : ∃ s : History, s.ops.length = 2 ∧ ∃ r,
    replayInto Journal.asWritable
      ((Journal.blank .empty).put (·.iteratorWrite Header.initial.bytes)) (s.readBy .whole)
      = .ok r ∧ r.writable.body = s.journal.body := by
  have hcreate : History.Reach ⟨_, [], 0⟩ := .create .empty .none rfl rfl rfl
  have htable := hcreate.step (a := .perform (.createTable [0x74]))
    ⟨(by decide : 1 < 2 ^ 61), trivial, by decide⟩ rfl
  have hvector := htable.step
    (a := .perform (.updateVector .int8 1 0 1 [(7 : BitVec 8), (8 : BitVec 8)]))
    ⟨⟨⟨by decide, by decide⟩, (by decide : 2 < 2 ^ 61), fun _ _ => trivial⟩,
      .inr (by decide), by decide⟩ rfl
  have hsoft := hvector.step (a := .softCheckpoint) trivial rfl
  have hpassed : ∀ op ∈ [Op.createTable [0x74],
      .updateVector .int8 1 0 1 [(7 : BitVec 8), (8 : BitVec 8)]], op.Passed := by
    intro op hop
    obtain rfl | rfl : op = .createTable [0x74] ∨ op = _ := by simpa using hop
    · trivial
    · exact (by decide : 2 ≠ 0)
  obtain ⟨r, hplay, hcopied⟩ := (reencoding_same hsoft (show File.data .empty = [] from rfl) rfl
    (show Journal.openWritable .empty .none = .ok _ from rfl) .whole).mpr hpassed
  exact ⟨_, rfl, r, hplay, hcopied.whole (by decide +kernel)⟩

/-- A vector of no values is written, and not passed on: the replay ends with an
exception, and a new journal that is only played into has nothing. -/
theorem reencoding_empty_vector : ∃ s : History, s.Reach ∧
    s.ops = [.updateVector .int8 1 0 1 []] ∧ s.journal.getPosition = s.journal.getCheckpoint ∧
    s.journal.body.length = 5 ∧
    (∃ e, replayInto Journal.asWritable
      ((Journal.blank .empty).put (·.iteratorWrite Header.initial.bytes)) (s.readBy .whole)
      = .error e) ∧
    (match rawPlayUntil Journal.asWritable s.journal.getCheckpoint
        ⟨((Journal.openReadonly (s.readBy .whole) .none false).toOption).getD s.journal,
          (Journal.blank .empty).put (·.iteratorWrite Header.initial.bytes)⟩ with
      | .ok _ r => r.writable.body
      | .error _ r => r.writable.body) = [] := by
  have hcreate : History.Reach ⟨_, [], 0⟩ := .create .empty .none rfl rfl rfl
  have hvector := hcreate.step (a := .perform (.updateVector .int8 1 0 1 []))
    ⟨⟨⟨by decide, by decide⟩, (by decide : 0 < 2 ^ 61), fun _ _ => trivial⟩,
      .inl rfl, by decide⟩ rfl
  have hsoft := hvector.step (a := .softCheckpoint) trivial rfl
  exact ⟨_, hsoft, rfl, by decide +kernel, by decide +kernel, ⟨_, rfl⟩, by decide +kernel⟩

end Reencoding

end Joedb
