import Joedb.Concurrency.SharedFile
import Joedb.Concurrency.WritableClientRuns

/-!
# Calls of a client on a shared file

A call that takes the tail lock pulls and reads on, so that when it returns the
client is where the file is. A client that skips is at the checkpoint. One that
plays has read the file from its start, whatever the others have written in the
meantime: its database is the replay of the file, and its context is that of a
reader.

The file is given by what it says, `Wire` by `Wire`, since two writers need not
abbreviate alike.
-/

namespace Joedb

open ByteFile StateExcept FileBuffer Replay

/-! ## Stretches of a journal -/

theorem decodeAll_append (c : Context) (us vs : List Wire) :
    decodeAll c (us ++ vs) =
      decodeAll c us ++ decodeAll (contextAfter c (decodeAll c us)) vs := by
  induction us generalizing c with
  | nil => rfl
  | cons u us ih => simp only [List.cons_append, decodeAll, ih]; rfl

namespace Writable

variable {ω : Type} {W : Writable ω}

theorem hearAll_prefix {ops ops' : List Op} {w w' : ω}
    (h : W.hearAll (ops ++ ops') w = .ok () w') :
    ∃ w₁, W.hearAll ops w = .ok () w₁ ∧ W.hearAll ops' w₁ = .ok () w' := by
  induction ops generalizing w with
  | nil => exact ⟨w, rfl, h⟩
  | cons op ops ih =>
      obtain ⟨_, w₁, hop, hrest⟩ := bind_eq_ok h
      obtain ⟨w₂, hops, hops'⟩ := ih hrest
      exact ⟨w₂, by rw [hearAll, bind_ok hop]; exact hops, hops'⟩

/-- What a database must do for its journal to be replayed: what it takes from a
caller, it takes from a reader, in every state that `P` allows. The marks of a
checkpoint mean nothing to it. -/
structure Replays (W : Writable ω) (P : ω → Prop) : Prop where
  passive : W.Passive
  say : ∀ {w w' : ω} {op : Op}, P w → W.say op w = .ok () w' →
    W.hear op w = .ok () w' ∧ op.Readable
  hear : ∀ {w w' : ω} {op : Op}, P w → W.hear op w = .ok () w' → P w'
  validData : ∀ w, W.hear .validData w = .ok () w
  timestamp : ∀ t w, W.hear (.timestamp t) w = .ok () w

theorem Replays.hearAll {P : ω → Prop} (hW : W.Replays P) {ops : List Op} {w w' : ω} (hw : P w)
    (h : W.hearAll ops w = .ok () w') : P w' := by
  induction ops generalizing w with
  | nil => cases h; exact hw
  | cons op ops ih =>
      obtain ⟨_, w₁, hop, hops⟩ := bind_eq_ok h
      exact ih (hW.hear hw hop) hops

end Writable

namespace Multiplexer

variable {ω : Type}

/-- The database first, and the journal only if it did not throw. -/
theorem call_journal (W : Writable ω) (op : Op) (w : ω) (j : Journal) :
    (asWritable W Journal.asWritable).call op (w, j) = match W.say op w with
      | .ok _ w' => .ok () (w', j.perform op)
      | .error e w' => .error e (w', j) := by
  have hboth : (∀ data, op ≠ .writeBlob data) →
      (asWritable W Journal.asWritable).call op
          = both (W.call op) (modify (·.perform op)) ∧ W.say op = W.call op := by
    intro hop
    cases op with
    | writeBlob data => exact absurd rfl (hop data)
    | _ => exact ⟨rfl, rfl⟩
  by_cases hblob : ∃ data, op = .writeBlob data
  · obtain ⟨data, rfl⟩ := hblob
    show call W Journal.asWritable (.writeBlob data) (w, j) = _
    rw [call, get_bind_run, Writable.say, get_bind_run]
    by_cases hwants : W.wantsBlobData w
    · rw [when_pos hwants, when_pos hwants]
      cases hcall : W.call (.writeBlob data) w with
      | ok u w' =>
          have hfst : fst (W.call (.writeBlob data)) (w, j)
              = (.ok () (w', j) : EStateM.Result Exn (ω × Journal) Unit) := onPart_ok hcall
          rw [bind_ok hfst]
          rfl
      | error e w' =>
          have hfst : fst (W.call (.writeBlob data)) (w, j)
              = (.error e (w', j) : EStateM.Result Exn (ω × Journal) Unit) := onPart_error hcall
          rw [bind_error hfst]
    · rw [when_neg hwants, when_neg hwants]
      rfl
  · obtain ⟨hcall, hsay⟩ := hboth fun data heq => hblob ⟨data, heq⟩
    rw [hcall, hsay, both]
    cases hw : W.call op w with
    | ok u w' =>
        have hfst : fst (W.call op) (w, j)
            = (.ok () (w', j) : EStateM.Result Exn (ω × Journal) Unit) := onPart_ok hw
        rw [bind_ok hfst]
        rfl
    | error e w' =>
        have hfst : fst (W.call op) (w, j)
            = (.error e (w', j) : EStateM.Result Exn (ω × Journal) Unit) := onPart_error hw
        rw [bind_error hfst]

end Multiplexer

/-! ## A journal that follows a file -/

/-- A journal and a database that have read `us` of a file. -/
structure HasRead {ω : Type} (W : Writable ω) (w₀ : ω) (us : List Wire) (t : Replay ω) : Prop where
  position : t.journal.getPosition = headerSize + (wiresBytes us).length
  context : t.journal.context = contextAfter .reset (decodeAll .reset us)
  heard : W.hearAll (decodeAll .reset us) w₀ = .ok () t.writable

/-- A file that has `ws` up to the checkpoint that its header tells. -/
structure Says (data : Bytes) (c : Checkpoints) (ws : List Wire) : Prop where
  header : HasHeader data
  agrees : Agrees (headerWord data) c
  size : c.checkpointPosition ≤ data.length
  committed : slice data headerSize c.checkpointPosition = wiresBytes ws

namespace Says

variable {data : Bytes} {c : Checkpoints} {ws : List Wire}

theorem length (h : Says data c ws) :
    c.checkpointPosition = headerSize + (wiresBytes ws).length := by
  have hle := Nat.le_trans h.agrees.header_le h.agrees.hard_le
  rw [← h.committed, length_slice_of_le h.size]
  omega

end Says

namespace Journal

theorem lockPull_context {j j' : Journal} (h : lockPull j = .ok () j') :
    j'.context = j.context := by
  rw [lockPull, get_bind_run] at h
  split at h
  · dsimp only [pullWithoutLocking] at h
    split at h
    · cases h
      rfl
    · cases h
  · cases h
    rfl

theorem pull_context {j j' : Journal} {n : Nat} (h : pull j = .ok n j') :
    j'.context = j.context := by
  rw [pull, get_bind_run] at h
  obtain ⟨_, j₁, hpull, hrest⟩ := bind_eq_ok h
  have hsame : j₁.context = j.context := by
    dsimp only [pullWithoutLocking] at hpull
    split at hpull
    · cases hpull
      rfl
    · cases hpull
  cases hrest
  exact hsame

end Journal

section Playing

variable {ω : Type} {W : Writable ω} {w₀ : ω}

/-- A journal that has read the start of a file plays the rest of it. -/
theorem HasRead.play (hW : W.Passive) {us : List Wire} (vs : List Wire) {t : Replay ω}
    {c : Checkpoints} (h : HasRead W w₀ us t) (hidle : t.journal.fileBuffer.Idle)
    (hc : t.journal.getCheckpoint = c.checkpointPosition)
    (hfile : Says t.journal.file.data c (us ++ vs)) (hfit : ∀ w ∈ us ++ vs, w.Fits)
    {w' : ω} (hhear : W.hearAll (decodeAll .reset (us ++ vs)) w₀ = .ok () w') :
    ∃ t', playUntilCheckpoint W t = .ok () t' ∧ t'.writable = w' ∧
      HasRead W w₀ (us ++ vs) t' ∧ t'.journal.fileBuffer.Idle ∧
      t'.journal.file = t.journal.file ∧ t'.journal.checkpoints = t.journal.checkpoints ∧
      t'.journal.getPosition = t'.journal.getCheckpoint := by
  have hlen := hfile.length
  rw [wiresBytes_append, List.length_append] at hlen
  have hbody : wiresBytes vs <+: t.journal.file.data.drop t.journal.getPosition := by
    have hcut := congrArg (slice · (wiresBytes us).length
      ((wiresBytes us).length + (wiresBytes vs).length)) hfile.committed
    rw [slice_slice (by omega), wiresBytes_append] at hcut
    rw [prefix_drop_iff_slice, h.position]
    rw [show headerSize + (wiresBytes us).length + (wiresBytes vs).length
      = headerSize + ((wiresBytes us).length + (wiresBytes vs).length) by omega]
    refine hcut.trans ?_
    rw [slice, List.drop_left, Nat.add_sub_cancel_left, List.take_length]
  rw [decodeAll_append, W.hearAll_append h.heard, ← h.context] at hhear
  obtain ⟨b, hbfile, hplay⟩ := playUntilCheckpoint_hear hW (j := t.journal) (w := t.writable)
    (fun w hw => hfit w (List.mem_append_right _ hw)) hidle.reading
    (by rw [hc, hlen, h.position]; omega) hbody
  rw [hhear] at hplay
  obtain ⟨hb, hposition, hrun⟩ := hplay
  refine ⟨_, hrun, rfl, ⟨?_, ?_, ?_⟩, hb, hbfile, rfl, hb.getPosition.trans hposition⟩
  · show b.getPosition = _
    rw [hb.getPosition, hposition, hc, hfile.length]
  · show contextAfter t.journal.context (decodeAll t.journal.context vs) = _
    rw [decodeAll_append, contextAfter_append, ← h.context]
  · rw [decodeAll_append, W.hearAll_append h.heard, ← h.context]
    exact hhear

end Playing

/-! ## A journal that writes -/

/-- A journal at work on a shared file, which has `us` in the file and its buffer. -/
structure Journal.AtWork (j : Journal) (us : List Wire) : Prop where
  sound : j.Sound
  shared : j.isShared = true
  body : j.body = wiresBytes us
  bound : j.getPosition < 2 ^ 63

namespace Journal.AtWork

variable {j : Journal} {us : List Wire}

theorem position (h : j.AtWork us) : j.getPosition = headerSize + (wiresBytes us).length := by
  rw [← h.body, h.sound.ready.length_body]

theorem tells (h : j.AtWork us) {ws : List Wire} (hpre : ws <+: us)
    (hlen : j.getCheckpoint = headerSize + (wiresBytes ws).length) :
    Says j.file.data j.checkpoints ws := by
  have hready := h.sound.ready
  refine ⟨h.sound.header, h.sound.agrees,
    Nat.le_trans hready.checkpoint_le hready.flushed, ?_⟩
  obtain ⟨vs, rfl⟩ := hpre
  show slice j.file.data headerSize j.getCheckpoint = _
  rw [hready.slice_eq_take_body hready.checkpoint_le, h.body, hlen, Nat.add_sub_cancel_left,
    wiresBytes_append, List.take_left]

theorem perform (h : j.AtWork us) (op : Op)
    (hbound : j.getPosition + (abbreviate j.context op).bytes.length < 2 ^ 63) :
    (j.perform op).AtWork (us ++ [abbreviate j.context op]) ∧
      (j.perform op).checkpoints = j.checkpoints ∧
      (j.perform op).context = op.context j.context := by
  have hready := h.sound.ready
  have hperf := Journal.perform_performs hready.writing op
  obtain ⟨-, hbody⟩ := hready.perform op
  refine ⟨⟨h.sound.act (a := .perform op) trivial, ?_, ?_, ?_⟩, hperf.checkpoints, hperf.context⟩
  · exact (Sharing.act_isShared hready (.perform op)).trans h.shared
  · rw [hbody, h.body, wiresBytes_append, wiresBytes_cons]
    exact congrArg _ (List.append_nil _).symm
  · show (j.perform op).fileBuffer.getPosition < 2 ^ 63
    rw [hperf.appends.getPosition hready.writing]
    exact hbound

theorem performAll (h : j.AtWork us) (ops : List Op)
    (hbound : j.getPosition + (wiresBytes (encodeAll j.context ops)).length < 2 ^ 63) :
    (ops.foldl Journal.perform j).AtWork (us ++ encodeAll j.context ops) ∧
      (ops.foldl Journal.perform j).checkpoints = j.checkpoints ∧
      (ops.foldl Journal.perform j).context = contextAfter j.context ops := by
  induction ops generalizing j us with
  | nil => exact ⟨by rw [encodeAll, List.append_nil]; exact h, rfl, rfl⟩
  | cons op ops ih =>
      rw [encodeAll, wiresBytes_cons, List.length_append, ← Nat.add_assoc] at hbound
      obtain ⟨hone, hcheckpoints, hcontext⟩ := h.perform op (by omega)
      have hposition : (j.perform op).getPosition
          = j.getPosition + (abbreviate j.context op).bytes.length := by
        rw [hone.position, h.position, wiresBytes_append, List.length_append, wiresBytes_cons,
          List.length_append, Nat.add_assoc]
        rfl
      obtain ⟨hall, hcheckpoints', hcontext'⟩ := ih hone (by rw [hcontext, hposition]; exact hbound)
      rw [hcontext, List.append_assoc] at hall
      refine ⟨hall, hcheckpoints'.trans hcheckpoints, ?_⟩
      rw [List.foldl_cons, hcontext', hcontext]
      rfl

/-- A checkpoint where the journal ends. -/
structure Checks (j j' : Journal) : Prop where
  context : j'.context = j.context
  position : j'.getPosition = j.getPosition
  checkpoint : j.getCheckpoint ≤ j'.getCheckpoint
  hard : j.getHardCheckpoint ≤ j'.getHardCheckpoint

theorem act (h : j.AtWork us) {a : Action} (ha : Sharing.AtEnd j a)
    (htarget : a.target = some j.getPosition) :
    (j.act a).AtWork us ∧ Checks j (j.act a) := by
  have hready := h.sound.ready
  have hallowed := Sharing.allowed_of_atEnd ha
  have hbody : (j.act a).body = j.body ∧ (j.act a).context = j.context := by
    cases a with
    | perform op => cases htarget
    | flush => cases htarget
    | softCheckpointAt p =>
        rw [Journal.act]
        rcases Nat.lt_or_ge j.getCheckpoint p with hlt | hge
        · refine ⟨(hready.softCheckpointAt hlt hallowed.1 hallowed.2).body, ?_⟩
          rw [softCheckpointAt_of_lt hlt]
          rfl
        · rw [softCheckpointAt_of_le hge]
          exact ⟨rfl, rfl⟩
    | hardCheckpointAt p =>
        rw [Journal.act]
        rcases Nat.lt_or_ge j.getHardCheckpoint p with hlt | hge
        · refine ⟨(hready.hardCheckpointAt hlt hallowed.1 hallowed.2).body, ?_⟩
          rw [hardCheckpointAt_of_lt hlt]
          rfl
        · rw [hardCheckpointAt_of_le hge]
          exact ⟨rfl, rfl⟩
  have hsound := h.sound.act hallowed
  have hposition : (j.act a).getPosition = j.getPosition := by
    rw [← hsound.ready.length_body, hbody.1, hready.length_body]
  obtain ⟨hle, hhard⟩ := Sharing.act_le hready ha
  exact ⟨⟨hsound, (Sharing.act_isShared hready a).trans h.shared, hbody.1.trans h.body,
    by rw [hposition]; exact h.bound⟩, hbody.2, hposition, hle, hhard⟩

end Journal.AtWork

namespace WritableClient

variable {ω : Type} {c : WritableClient ω}

theorem doCheckpoint_journal (c : WritableClient ω) (now : BitVec 64) :
    (c.doCheckpoint now).journal =
      let j := ((c.marks now).foldl Journal.perform c.journal).softCheckpoint
      if c.useHardCheckpoint then j.hardCheckpoint else j := by
  rw [doCheckpoint, marks]
  cases c.useValidData <;> cases c.useTimestamp <;> rfl

theorem length_marks (c : WritableClient ω) (now : BitVec 64) (k : Context) :
    (wiresBytes (encodeAll k (c.marks now))).length ≤ 10 := by
  have htimestamp : (Op.timestamp now).bytes.length = 9 := by
    rw [Op.bytes, List.length_cons, length_leEncode]
  have hvalid : Op.validData.bytes.length = 1 := rfl
  rw [marks]
  cases c.useValidData <;> cases c.useTimestamp <;>
    simp [encodeAll, wiresBytes, abbreviate, Wire.bytes, htimestamp, hvalid]

theorem contextAfter_marks (c : WritableClient ω) (now : BitVec 64) (k : Context) :
    contextAfter k (c.marks now) = k := by
  rw [marks]
  cases c.useValidData <;> cases c.useTimestamp <;> rfl

/-- What is written at a checkpoint, marks and all, is checkpointed. -/
theorem doCheckpoint_atWork {us : List Wire} (h : c.journal.AtWork us) (now : BitVec 64)
    (hbound : c.journal.getPosition + 10 < 2 ^ 63) :
    (c.doCheckpoint now).journal.AtWork (us ++ encodeAll c.journal.context (c.marks now)) ∧
      (c.doCheckpoint now).journal.context = c.journal.context ∧
      (c.doCheckpoint now).journal.getCheckpoint = (c.doCheckpoint now).journal.getPosition ∧
      c.journal.getCheckpoint ≤ (c.doCheckpoint now).journal.getCheckpoint ∧
      c.journal.getHardCheckpoint ≤ (c.doCheckpoint now).journal.getHardCheckpoint := by
  have hmarks := c.length_marks now c.journal.context
  obtain ⟨hall, hcheckpoints, hcontext⟩ := h.performAll (c.marks now) (by omega)
  rw [contextAfter_marks] at hcontext
  obtain ⟨j, hj⟩ : ∃ j, j = (c.marks now).foldl Journal.perform c.journal := ⟨_, rfl⟩
  rw [← hj] at hall hcheckpoints hcontext
  have hcp : j.getCheckpoint = c.journal.getCheckpoint :=
    congrArg Checkpoints.checkpointPosition hcheckpoints
  have hhard : j.getHardCheckpoint = c.journal.getHardCheckpoint :=
    congrArg Checkpoints.hardCheckpointPosition hcheckpoints
  obtain ⟨hsoft, hchecks⟩ := hall.act (a := .softCheckpointAt j.getPosition)
    (fun p hp => Option.some.inj hp ▸ ⟨rfl, hall.bound⟩) rfl
  have hend : j.softCheckpoint.getCheckpoint = j.softCheckpoint.getPosition := by
    rw [show j.softCheckpoint.getPosition = _ from hchecks.position]
    have hready := hall.sound.ready
    rcases Nat.lt_or_ge j.getCheckpoint j.getPosition with hlt | hge
    · rw [Journal.softCheckpoint, Journal.softCheckpointAt_of_lt hlt]
      rfl
    · rw [Journal.softCheckpoint, Journal.softCheckpointAt_of_le hge]
      exact Nat.le_antisymm (Nat.le_trans hready.checkpoint_le hready.position_le) hge
  rw [doCheckpoint_journal, ← hj]
  by_cases huse : c.useHardCheckpoint = true
  · obtain ⟨hhardly, hchecks'⟩ := hsoft.act
      (a := .hardCheckpointAt j.softCheckpoint.getPosition)
      (fun p hp => Option.some.inj hp ▸ ⟨rfl, hsoft.bound⟩) rfl
    have hend' : j.softCheckpoint.hardCheckpoint.getCheckpoint
        = j.softCheckpoint.hardCheckpoint.getPosition := by
      rw [show j.softCheckpoint.hardCheckpoint.getPosition = _ from hchecks'.position]
      rcases Nat.lt_or_ge j.softCheckpoint.getHardCheckpoint j.softCheckpoint.getPosition
        with hlt | hge
      · rw [Journal.hardCheckpoint, Journal.hardCheckpointAt_of_lt hlt]
        rfl
      · rw [Journal.hardCheckpoint, Journal.hardCheckpointAt_of_le hge]
        exact hend
    simp only [huse, if_true]
    exact ⟨hhardly, hchecks'.context.trans (hchecks.context.trans hcontext), hend',
      hcp ▸ Nat.le_trans hchecks.checkpoint hchecks'.checkpoint,
      hhard ▸ Nat.le_trans hchecks.hard hchecks'.hard⟩
  · simp only [huse, Bool.false_eq_true, if_false]
    exact ⟨hsoft, hchecks.context.trans hcontext, hend, hcp ▸ hchecks.checkpoint,
      hhard ▸ hchecks.hard⟩

end WritableClient

/-! ## Clients without the lock -/

/-- What was written without a checkpoint keeps a client from taking the lock again. -/
def WritableClient.Stuck {ω : Type} (c : WritableClient ω) : Prop :=
  c.journal.getCheckpoint < c.journal.getPosition

/-- A client that may take the lock, of a file that has `ws` up to its checkpoint. One that
plays has read the start of that. -/
structure WritableClient.Follows {ω : Type} (r : ReadJournal ω) (w₀ : ω) (b : Checkpoints)
    (ws : List Wire) (c : WritableClient ω) : Prop where
  shared : c.journal.isShared = true
  waiting : Sharing.Shared.Waiting c.journal
  behind : Sharing.Behind c.journal.checkpoints b
  read : ∀ W, r = .play W → ∃ us, us <+: ws ∧ HasRead W w₀ us ⟨c.journal, c.database⟩

/-- It knows what the file tells. -/
structure WritableClient.Knows {ω : Type} (data : Bytes) (b : Checkpoints)
    (c : WritableClient ω) : Prop where
  file_eq : c.journal.file.data = data
  agrees : Agrees (headerWord data) c.journal.checkpoints
  hard : c.journal.getHardCheckpoint = b.hardCheckpointPosition
  checkpoint : c.journal.getCheckpoint = b.checkpointPosition

/-- It has come to the end. -/
structure WritableClient.Arrives {ω : Type} (r : ReadJournal ω) (w₀ : ω) (b : Checkpoints)
    (ws : List Wire) (data : Bytes) (c : WritableClient ω) : Prop where
  follows : c.Follows r w₀ b ws
  knows : c.Knows data b
  position : c.journal.getPosition = c.journal.getCheckpoint
  read : ∀ W, r = .play W → HasRead W w₀ ws ⟨c.journal, c.database⟩

namespace WritableClient

variable {ω : Type} {c c' : WritableClient ω} {r : ReadJournal ω} {w₀ : ω} {b : Checkpoints}
  {ws : List Wire} {data : Bytes}

/-- The others go on. -/
theorem Follows.mono (h : c.Follows r w₀ b ws) {b' : Checkpoints} {ws' : List Wire}
    (hhard : b.hardCheckpointPosition ≤ b'.hardCheckpointPosition)
    (hle : b.checkpointPosition ≤ b'.checkpointPosition) (hws : ws <+: ws') :
    c.Follows r w₀ b' ws' :=
  ⟨h.shared, h.waiting, h.behind.trans hhard hle, fun W hr =>
    let ⟨us, hus, hread⟩ := h.read W hr
    ⟨us, hus.trans hws, hread⟩⟩

/-- Where a journal stands does not depend on its file. -/
theorem Follows.onto (h : c.Follows r w₀ b ws) (data : Bytes) : (c.onto data).Follows r w₀ b ws :=
  ⟨h.shared, ⟨⟨h.waiting.idle.noRead, h.waiting.idle.noIndex⟩, h.waiting.position_le⟩, h.behind,
    fun W hr =>
      let ⟨us, hus, hread⟩ := h.read W hr
      ⟨us, hus, hread.position, hread.context, hread.heard⟩⟩

/-- A pull under the lock finds what the file tells. -/
theorem tailExclusiveLock_follows (h : c.Follows r w₀ b ws) (hfile : Says data b ws) :
    ∃ j, Journal.tailExclusiveLock (c.onto data).journal = .ok () j ∧
      WritableClient.Follows r w₀ b ws { c.onto data with journal := j } ∧
      WritableClient.Knows data b { c.onto data with journal := j } := by
  obtain ⟨j, hpull, hj⟩ := Sharing.lockPull_pulled hfile.header.length hfile.agrees h.behind
    h.shared
  have hposition : (c.onto data).journal.getPosition ≤ (c.onto data).journal.getCheckpoint :=
    h.waiting.position_le
  have hbuffer : j.fileBuffer = (c.onto data).journal.fileBuffer := hj.buffer
  have hcontext := Journal.lockPull_context hpull
  refine ⟨j, ?_, ⟨?_, Sharing.waiting_of_pulled h.waiting hj h.behind.le,
    Sharing.behind_of_agrees hj.agrees hj.hard hj.checkpoint, fun W hr => ?_⟩,
    ⟨?_, hj.agrees, hj.hard, hj.checkpoint⟩⟩
  · rw [Journal.tailExclusiveLock, get_bind_run, when_neg (Nat.not_lt.mpr hposition),
      pure_bind_run]
    exact hpull
  · show j.fileBuffer.file.isShared = true
    rw [hbuffer]
    exact h.shared
  · obtain ⟨us, hus, hread⟩ := h.read W hr
    refine ⟨us, hus, ?_, hcontext.trans hread.context, hread.heard⟩
    show j.fileBuffer.getPosition = _
    rw [hbuffer]
    exact hread.position
  · show j.fileBuffer.file.data = data
    rw [hbuffer]
    rfl

/-- The lock is taken, unless the client is ahead of its connection or the connection
does not match. -/
theorem getTailLock_follows (h : c.Follows r w₀ b ws) (hfile : Says data b ws) (x : Exchange) :
    (∃ c', getTailLock x (c.onto data) = .ok () c' ∧ c'.Follows r w₀ b ws ∧ c'.Knows data b) ∨
      ∃ e c', getTailLock x (c.onto data) = .error e c' ∧ c'.Follows r w₀ b ws ∧
        c'.journal.file.data = data ∧
        (c.connectionCheckpoint < c.journal.getCheckpoint ∨ x.mismatch ≠ none) := by
  by_cases hahead : (c.onto data).journal.getCheckpoint > (c.onto data).connectionCheckpoint
  · refine .inr ⟨.exception "pulling when ahead of connection", c.onto data, ?_,
      h.onto data, rfl, .inl hahead⟩
    rw [getTailLock, get_bind_run, when_pos hahead]
    rfl
  · obtain ⟨j, hlock, hfollows, hknows⟩ := tailExclusiveLock_follows h hfile
    have hon : (onJournal Journal.tailExclusiveLock : EStateM Exn (WritableClient ω) Unit)
        (c.onto data) = .ok () { c.onto data with journal := j } := onPart_ok hlock
    have hrun : getTailLock x (c.onto data)
        = conclude x.mismatch { c.onto data with journal := j } := by
      rw [getTailLock, get_bind_run, when_neg hahead, pure_bind_run, bind_ok hon]
    rw [hrun]
    cases hmismatch : x.mismatch with
    | none => exact .inl ⟨_, rfl, hfollows, hknows⟩
    | some e => exact .inr ⟨e, _, rfl, hfollows, hknows.file_eq, .inr (Option.some_ne_none e)⟩

/-- A client that knows what the file tells comes to the end of it. -/
theorem readJournal_arrives (h : c.Follows r w₀ b ws) (hknows : c.Knows data b)
    (hfile : Says data b ws) (hfit : ∀ w ∈ ws, w.Fits)
    (hW : ∀ W, r = .play W → W.Passive ∧ ∃ w, W.hearAll (decodeAll .reset ws) w₀ = .ok () w) :
    ∃ c', readJournal r c = .ok () c' ∧ c'.Arrives r w₀ b ws data := by
  cases r with
  | skip =>
      obtain ⟨hidle, hposition, hfile'⟩ :=
        setPosition_idle h.waiting.idle c.journal.getCheckpoint
      have hend : (c.journal.skipDirectlyTo c.journal.getCheckpoint).getPosition
          = c.journal.getCheckpoint := hidle.getPosition.trans hposition
      refine ⟨_, rfl, ⟨?_, ⟨hidle, Nat.le_of_eq hend⟩, h.behind, fun W hr => by cases hr⟩,
        ⟨?_, hknows.agrees, hknows.hard, hknows.checkpoint⟩, hend, fun W hr => by cases hr⟩
      · show (c.journal.fileBuffer.setPosition c.journal.getCheckpoint).file.isShared = true
        rw [hfile']
        exact h.shared
      · show (c.journal.fileBuffer.setPosition c.journal.getCheckpoint).file.data = data
        rw [hfile']
        exact hknows.file_eq
  | play W =>
      obtain ⟨hpassive, w, hheard⟩ := hW W rfl
      obtain ⟨us, ⟨vs, rfl⟩, hread⟩ := h.read W rfl
      have htold : Says c.journal.file.data b (us ++ vs) := hknows.file_eq ▸ hfile
      obtain ⟨t', hplay, -, hread', hidle, hfile', hc, hend⟩ :=
        hread.play hpassive vs h.waiting.idle hknows.checkpoint htold hfit hheard
      have hcp : t'.journal.getCheckpoint = c.journal.getCheckpoint :=
        congrArg Checkpoints.checkpointPosition hc
      refine ⟨{ c with journal := t'.journal, database := t'.writable }, ?_,
        ⟨?_, ⟨hidle, Nat.le_of_eq hend⟩, ?_, fun W' hr => ?_⟩,
        ⟨(congrArg File.data hfile').trans hknows.file_eq, ?_, ?_, hcp.trans hknows.checkpoint⟩,
        hend, fun W' hr => ?_⟩
      · rw [readJournal]
        simp only [hplay]
      · exact (congrArg File.isShared hfile').trans h.shared
      · exact hc.symm ▸ h.behind
      · obtain rfl : W = W' := by cases hr; rfl
        exact ⟨us ++ vs, List.prefix_refl _, hread'⟩
      · exact hc.symm ▸ hknows.agrees
      · exact (congrArg Checkpoints.hardCheckpointPosition hc).trans hknows.hard
      · obtain rfl : W = W' := by cases hr; rfl
        exact hread'

/-- What the connection says to a pull. -/
theorem connectionPull_replies {x : Exchange} (hx : x.transfers = []) (c : WritableClient ω) :
    (∃ n, x.reply = .ok n ∧ connectionPull x c = .ok () { c with connectionCheckpoint := n }) ∨
      ∃ e, x.reply = .error e ∧ connectionPull x c = .error e c := by
  cases hreply : x.reply with
  | ok n =>
      refine .inl ⟨n, rfl, ?_⟩
      rw [connectionPull, modify_bind_run, hx, hreply]
      rfl
  | error e =>
      refine .inr ⟨e, rfl, ?_⟩
      rw [connectionPull, modify_bind_run, hx, hreply]
      rfl

theorem Follows.connected (h : c.Follows r w₀ b ws) (n : Nat) :
    WritableClient.Follows r w₀ b ws { c with connectionCheckpoint := n } :=
  ⟨h.shared, h.waiting, h.behind, h.read⟩

section Calls

variable (h : c.Follows r w₀ b ws) (hfile : Says data b ws) (hfit : ∀ w ∈ ws, w.Fits)
  (hW : ∀ W, r = .play W → W.Passive ∧ ∃ w, W.hearAll (decodeAll .reset ws) w₀ = .ok () w)
  {x : Exchange} (hx : x.transfers = [])
include h hfile hfit hW hx

/-- Taking the lock and reading on: at the end of the file, or an exception of the
connection. -/
theorem lock_arrives :
    (∃ c', lock r x (c.onto data) = .ok () c' ∧ c'.Arrives r w₀ b ws data) ∨
      ∃ e c', lock r x (c.onto data) = .error e c' ∧ c'.Follows r w₀ b ws ∧
        c'.journal.file.data = data ∧ (c.connectionCheckpoint < c.journal.getCheckpoint ∨
          x.mismatch ≠ none ∨ x.reply = .error e) := by
  rcases getTailLock_follows h hfile x with ⟨c₁, hrun, h₁, hknows⟩ |
    ⟨e, c₁, hrun, h₁, hdata, hwhy⟩
  · rcases connectionPull_replies hx c₁ with ⟨n, -, hpull⟩ | ⟨e, hreply, hpull⟩
    · obtain ⟨c₂, hread, harrives⟩ := readJournal_arrives (h₁.connected n)
        ⟨hknows.file_eq, hknows.agrees, hknows.hard, hknows.checkpoint⟩ hfile hfit hW
      have hstart : startTransaction r x c₁ = .ok () c₂ := by
        rw [startTransaction, bind_ok hpull, hread]
      refine .inl ⟨{ c₂ with locked := true }, ?_, ?_⟩
      · rw [lock, bind_ok hrun, bind_ok hstart]
        rfl
      · exact ⟨⟨harrives.follows.shared, harrives.follows.waiting, harrives.follows.behind,
          harrives.follows.read⟩, ⟨harrives.knows.file_eq, harrives.knows.agrees,
          harrives.knows.hard, harrives.knows.checkpoint⟩, harrives.position, harrives.read⟩
    · have hstart : startTransaction r x c₁ = .error e c₁ := by
        rw [startTransaction, bind_error hpull]
      refine .inr ⟨e, c₁, ?_, h₁, hknows.file_eq, .inr (.inr hreply)⟩
      rw [lock, bind_ok hrun, bind_error hstart]
  · refine .inr ⟨e, c₁, ?_, h₁, hdata, hwhy.imp_right .inl⟩
    rw [lock, bind_error hrun]

/-- The same for a pull. -/
theorem pull_arrives :
    (∃ n c', pull r x (c.onto data) = .ok n c' ∧ c'.Arrives r w₀ b ws data) ∨
      ∃ e c', pull r x (c.onto data) = .error e c' ∧ c'.Follows r w₀ b ws ∧
        c'.journal.file.data = data ∧ (c.connectionCheckpoint < c.journal.getCheckpoint ∨
          x.mismatch ≠ none ∨ x.reply = .error e) := by
  rcases getTailLock_follows h hfile x with ⟨c₁, hrun, h₁, hknows⟩ |
    ⟨e, c₁, hrun, h₁, hdata, hwhy⟩
  · rcases connectionPull_replies hx c₁ with ⟨n, -, hpull⟩ | ⟨e, hreply, hpull⟩
    · obtain ⟨c₂, hread, harrives⟩ := readJournal_arrives (h₁.connected n)
        ⟨hknows.file_eq, hknows.agrees, hknows.hard, hknows.checkpoint⟩ hfile hfit hW
      refine .inl ⟨c₂.journal.getCheckpoint - (c.onto data).journal.getCheckpoint, c₂, ?_,
        harrives⟩
      rw [pull, get_bind_run, bind_ok hrun, bind_ok hpull, bind_ok hread, get_bind_run]
      rfl
    · refine .inr ⟨e, c₁, ?_, h₁, hknows.file_eq, .inr (.inr hreply)⟩
      rw [pull, get_bind_run, bind_ok hrun, bind_error hpull]
  · refine .inr ⟨e, c₁, ?_, h₁, hdata, hwhy.imp_right .inl⟩
    rw [pull, get_bind_run, bind_error hrun]

end Calls

/-- A stuck client is refused before it has looked at the file. -/
theorem getTailLock_stuck (h : c.Stuck) (data : Bytes) (x : Exchange) :
    ∃ e, getTailLock x (c.onto data) = .error e (c.onto data) := by
  by_cases hahead : (c.onto data).journal.getCheckpoint > (c.onto data).connectionCheckpoint
  · refine ⟨.exception "pulling when ahead of connection", ?_⟩
    rw [getTailLock, get_bind_run, when_pos hahead]
    rfl
  · have hstuck : (c.onto data).journal.getPosition > (c.onto data).journal.getCheckpoint := h
    have hlock : Journal.tailExclusiveLock (c.onto data).journal
        = .error (.exception "locking journal with uncheckpointed data (try rollback?)")
          (c.onto data).journal := by
      rw [Journal.tailExclusiveLock, get_bind_run, when_pos hstuck]
      rfl
    have hon : (onJournal Journal.tailExclusiveLock : EStateM Exn (WritableClient ω) Unit)
        (c.onto data)
          = .error (.exception "locking journal with uncheckpointed data (try rollback?)")
            (c.onto data) := onPart_error hlock
    refine ⟨.exception "locking journal with uncheckpointed data (try rollback?)", ?_⟩
    rw [getTailLock, get_bind_run, when_neg hahead, pure_bind_run, bind_error hon]

theorem lock_stuck (h : c.Stuck) (data : Bytes) (x : Exchange) :
    ∃ e, lock r x (c.onto data) = .error e (c.onto data) := by
  obtain ⟨e, hrun⟩ := getTailLock_stuck h data x
  exact ⟨e, by rw [lock, bind_error hrun]⟩

theorem pull_stuck (h : c.Stuck) (data : Bytes) (x : Exchange) :
    ∃ e, pull r x (c.onto data) = .error e (c.onto data) := by
  obtain ⟨e, hrun⟩ := getTailLock_stuck h data x
  exact ⟨e, by rw [pull, get_bind_run, bind_error hrun]⟩

/-! ## Opening -/

/-- The first client writes the header. -/
theorem opened_new {file : File} {recovery : Recovery} {j : Journal} (hempty : file.data = [])
    (hmode : file.isReadonly = false) (hopen : Journal.openWritable file recovery = .ok j) :
    Journal.Opened (file.pwrite 0 Header.initial.bytes) .initial j ∧
      Says (file.pwrite 0 Header.initial.bytes).data .initial [] := by
  obtain ⟨j', hopen', -, -, hfile, hdata, hc, hcontext, hidle, hposition⟩ :=
    Journal.openWritable_new hempty hmode recovery
  obtain rfl := Except.ok.inj (hopen.symm.trans hopen')
  have hagrees : Agrees (headerWord (file.pwrite 0 Header.initial.bytes).data) .initial := by
    rw [← hfile, hdata]
    exact agrees_initial.congr fun k hk => headerWord_initial hk
  refine ⟨⟨hfile, hidle, hposition, hcontext, ?_, ?_, hc ▸ hagrees⟩, ?_, hagrees, ?_, ?_⟩
  · rw [Journal.getHardCheckpoint, hc]
  · rw [Journal.getCheckpoint, hc]
  · rw [← hfile, hdata]
    exact hasHeader_initial
  · rw [← hfile, hdata]
    decide
  · exact slice_eq_nil (Nat.le_refl headerSize)

/-- A client that was constructed has read the file. Where the constructor throws, the file is
as the journal has found it. -/
theorem construct_arrives {file file' : File} {recovery : Recovery} {j : Journal}
    (hopen : Journal.openWritable file recovery = .ok j) (hj : Journal.Opened file' b j)
    (hshared : file'.isShared = true) (hfile : Says file'.data b ws)
    (hfit : ∀ w ∈ ws, w.Fits)
    (hW : ∀ W, r = .play W → W.Passive ∧ ∃ w, W.hearAll (decodeAll .reset ws) w₀ = .ok () w)
    (handshake : Except Exn Nat) :
    (∃ c, construct r file recovery w₀ handshake = .ok c ∧ c.Arrives r w₀ b ws file'.data) ∨
      ∃ f, construct r file recovery w₀ handshake = .error f ∧ f.data = file'.data := by
  cases handshake with
  | error e =>
      refine .inr ⟨j.close, ?_, ?_⟩
      · rw [construct, hopen]
      · rw [close_of_consuming hj.idle.consuming, hj.file_eq]
  | ok n =>
      have hposition : j.getPosition = headerSize := hj.idle.getPosition.trans hj.position
      have hfollows : WritableClient.Follows r w₀ b ws ⟨j, w₀, n, false, false, false, false⟩ := by
        refine ⟨by rw [Journal.isShared, hj.file_eq]; exact hshared, ⟨hj.idle, ?_⟩,
          Sharing.behind_of_agrees hj.agrees hj.hardCheckpoint hj.checkpoint, fun W _ =>
          ⟨[], List.nil_prefix, ?_, hj.context, rfl⟩⟩
        · rw [hposition]
          exact Nat.le_trans hj.agrees.header_le hj.agrees.hard_le
        · exact hposition
      obtain ⟨c, hread, harrives⟩ := readJournal_arrives hfollows
        ⟨congrArg File.data hj.file_eq, hj.agrees, hj.hardCheckpoint, hj.checkpoint⟩ hfile hfit hW
      refine .inl ⟨c, ?_, harrives⟩
      rw [construct, hopen]
      simp only [hread]

end WritableClient

/-! ## Readers -/

/-- A reader has read what the file had up to the checkpoint that it knows. -/
structure Replay.Reads {ω : Type} (W : Writable ω) (w₀ : ω) (b : Checkpoints) (ws : List Wire)
    (t : Replay ω) : Prop where
  idle : t.journal.fileBuffer.Idle
  position : t.journal.getPosition = t.journal.getCheckpoint
  behind : Sharing.Behind t.journal.checkpoints b
  read : ∃ us, us <+: ws ∧ HasRead W w₀ us t

/-- No `Wire` is empty. -/
theorem eq_of_prefix_of_length {us ws : List Wire} (h : us <+: ws)
    (hlen : (wiresBytes us).length = (wiresBytes ws).length) : us = ws := by
  obtain ⟨vs, rfl⟩ := h
  cases vs with
  | nil => exact (List.append_nil _).symm
  | cons v vs =>
      have hpos := length_wire_pos v
      rw [wiresBytes_append, wiresBytes_cons, List.length_append, List.length_append] at hlen
      omega

namespace Replay

variable {ω : Type} {W : Writable ω} {w₀ : ω} {b : Checkpoints} {ws : List Wire} {t : Replay ω}
  {data : Bytes}

theorem Reads.mono (h : t.Reads W w₀ b ws) {b' : Checkpoints} {ws' : List Wire}
    (hhard : b.hardCheckpointPosition ≤ b'.hardCheckpointPosition)
    (hle : b.checkpointPosition ≤ b'.checkpointPosition) (hws : ws <+: ws') :
    t.Reads W w₀ b' ws' :=
  ⟨h.idle, h.position, h.behind.trans hhard hle,
    let ⟨us, hus, hread⟩ := h.read
    ⟨us, hus.trans hws, hread⟩⟩

section Calls

variable (hW : W.Passive) (hfit : ∀ w ∈ ws, w.Fits) {w : ω}
  (hheard : W.hearAll (decodeAll .reset ws) w₀ = .ok () w)
include hW hfit hheard

/-- An opening reads all that there is. -/
theorem openReader_reads {file : File} (hfile : Says file.data b ws) {recovery : Recovery}
    (hr : recovery ≠ .ignoreHeader) :
    ∃ t, openReader W w₀ file recovery = .ok t ∧ t.Reads W w₀ b ws ∧ t.writable = w := by
  obtain ⟨j, hopen, hj⟩ := Journal.openReadonly_opened hfile.header hfile.agrees hfile.size
    recovery hr false
  have hposition : j.getPosition = headerSize := hj.idle.getPosition.trans hj.position
  have hnone : HasRead W w₀ [] ⟨j, w₀⟩ := ⟨hposition, hj.context, rfl⟩
  obtain ⟨t, hplay, hw, hread, hidle, -, hc, hend⟩ := hnone.play hW ws hj.idle
    hj.checkpoint (by rw [show (Replay.journal ⟨j, w₀⟩).file = file from hj.file_eq]; exact hfile)
    hfit hheard
  refine ⟨t, ?_, ⟨hidle, hend, ?_, ws, List.prefix_refl _, hread⟩, hw⟩
  · rw [openReader, hopen]
    simp only [hplay]
  · rw [hc]
    exact Sharing.behind_of_agrees hj.agrees hj.hardCheckpoint hj.checkpoint

/-- And so does a pull, which never throws. -/
theorem pullReader_reads (h : t.Reads W w₀ b ws) (hfile : Says data b ws) :
    ∃ n t', pullReader W (t.onto data) = .ok n t' ∧ t'.Reads W w₀ b ws ∧ t'.writable = w := by
  obtain ⟨us, hus, hread⟩ := h.read
  obtain ⟨j, hpull, hj⟩ := Sharing.pull_pulled hfile.header.length hfile.agrees h.behind
  have hbuffer : j.fileBuffer = (Sharing.onto t.journal data).fileBuffer := hj.buffer
  have hcontext : j.context = (Sharing.onto t.journal data).context :=
    Journal.pull_context hpull
  have hread' : HasRead W w₀ us ⟨j, t.writable⟩ := by
    refine ⟨?_, hcontext.trans hread.context, hread.heard⟩
    show j.fileBuffer.getPosition = _
    rw [hbuffer]
    exact hread.position
  have hidle : j.fileBuffer.Idle := by
    rw [hbuffer]
    exact ⟨h.idle.noRead, h.idle.noIndex⟩
  have hbehind := Sharing.behind_of_agrees hj.agrees hj.hard hj.checkpoint
  have hrun : pullJournal (t.onto data)
      = .ok (j.getCheckpoint - t.journal.getCheckpoint) ⟨j, t.writable⟩ := onPart_ok hpull
  by_cases hnew : j.getCheckpoint - t.journal.getCheckpoint = 0
  · have hle := h.behind.le
    have hcp : t.journal.getCheckpoint = b.checkpointPosition := by
      rw [hj.checkpoint] at hnew
      exact Nat.le_antisymm hle (Nat.le_of_sub_eq_zero hnew)
    have hall : us = ws := by
      refine eq_of_prefix_of_length hus ?_
      have hlen := hfile.length
      rw [← hcp, ← h.position, hread.position] at hlen
      omega
    subst hall
    have hend : j.getPosition = j.getCheckpoint := by
      rw [hj.checkpoint, ← hcp, ← h.position]
      show j.fileBuffer.getPosition = _
      rw [hbuffer]
      rfl
    refine ⟨j.getCheckpoint - t.journal.getCheckpoint, ⟨j, t.writable⟩, ?_,
      ⟨hidle, hend, hbehind, us, List.prefix_refl _, hread'⟩,
      (EStateM.Result.ok.inj (hread.heard.symm.trans hheard)).2⟩
    rw [pullReader, bind_ok hrun, when_neg (not_not_intro hnew)]
    rfl
  · obtain ⟨vs, rfl⟩ := hus
    have hdata : j.file.data = data := by
      rw [Journal.file, hbuffer]
      rfl
    obtain ⟨t', hplay, hw, hall, hidle', -, hc, hend⟩ := hread'.play hW vs hidle
      hj.checkpoint (by rw [show (Replay.journal ⟨j, t.writable⟩).file = j.file from rfl, hdata]
                        exact hfile) hfit hheard
    refine ⟨j.getCheckpoint - t.journal.getCheckpoint, t', ?_,
      ⟨hidle', hend, ?_, us ++ vs, List.prefix_refl _, hall⟩, hw⟩
    · rw [pullReader, bind_ok hrun, when_pos hnew, bind_ok hplay]
      rfl
    · rw [hc]
      exact hbehind

end Calls

end Replay

end Joedb
