import Joedb.Concurrency.ServingClient
import Joedb.Concurrency.WritableClientRuns

/-!
# Pushes that were acknowledged

`Resting` says where the buffer of the client stands while a server runs: at the
checkpoint or before it, with nothing to write. Whatever a session asks for, it
stays so, since the payloads do not pass through the buffer, unless the client
is to write operations of its own at each checkpoint.
-/

namespace Joedb

open ByteFile StateExcept FileBuffer

/-! ## A journal that only receives -/

namespace Journal

variable {j j' : Journal}

/-- Nothing waits in the buffer, and it does not stand behind the checkpoint. -/
structure Resting (j : Journal) : Prop where
  consuming : j.fileBuffer.Consuming
  position_le : j.getPosition ≤ j.getCheckpoint
  header_le : headerSize ≤ j.getHardCheckpoint
  hard_le : j.getHardCheckpoint ≤ j.getCheckpoint

theorem Resting.withFile (h : j.Resting) (f : File) : (j.withFile f).Resting :=
  ⟨⟨h.consuming.index_le, h.consuming.size_le⟩, h.position_le, h.header_le, h.hard_le⟩

/-- The buffer stays where it is when a checkpoint goes ahead of it. -/
theorem Resting.softCheckpointAt (h : j.Resting) (p : Nat) :
    (j.softCheckpointAt p).Resting ∧ (j.softCheckpointAt p).getPosition = j.getPosition ∧
      (j.softCheckpointAt p).getHardCheckpoint = j.getHardCheckpoint ∧
      (j.softCheckpointAt p).getCheckpoint = max j.getCheckpoint p := by
  rcases Nat.lt_or_ge j.getCheckpoint p with hlt | hge
  · obtain ⟨hidle, -, hposition⟩ := h.consuming.flush
    have hcp : (j.softCheckpointAt p).getCheckpoint = p := by rw [softCheckpointAt_of_lt hlt]; rfl
    have hhard : (j.softCheckpointAt p).getHardCheckpoint = j.getHardCheckpoint := by
      rw [softCheckpointAt_of_lt hlt]
      rfl
    have hpos : (j.softCheckpointAt p).getPosition = j.getPosition := by
      rw [softCheckpointAt_of_lt hlt]
      exact hidle.getPosition.trans hposition
    have hconsuming : (j.softCheckpointAt p).fileBuffer.Consuming :=
      (receives_softCheckpointAt h.consuming p).consuming
    have hrest := h.position_le
    have hheader := h.header_le
    have hhardle := h.hard_le
    exact ⟨⟨hconsuming, by omega, by omega, by omega⟩, hpos, hhard, by omega⟩
  · rw [softCheckpointAt_of_le hge]
    exact ⟨h, rfl, rfl, (Nat.max_eq_left hge).symm⟩

/-- A hard checkpoint where the buffer stands: if it is one at all, the other goes there too. -/
theorem Resting.hardCheckpoint (h : j.Resting) :
    j.hardCheckpoint.Resting ∧
      j.hardCheckpoint.getHardCheckpoint = max j.getHardCheckpoint j.getPosition ∧
      j.hardCheckpoint.getCheckpoint
        = if j.getHardCheckpoint < j.getPosition then j.getPosition else j.getCheckpoint := by
  rw [Journal.hardCheckpoint]
  by_cases hlt : j.getHardCheckpoint < j.getPosition
  · obtain ⟨hidle, -, hposition⟩ := h.consuming.flush
    have hcp : (j.hardCheckpointAt j.getPosition).getCheckpoint = j.getPosition := by
      rw [hardCheckpointAt_of_lt hlt]
      rfl
    have hhard : (j.hardCheckpointAt j.getPosition).getHardCheckpoint = j.getPosition := by
      rw [hardCheckpointAt_of_lt hlt]
      rfl
    have hpos : (j.hardCheckpointAt j.getPosition).getPosition = j.getPosition := by
      rw [hardCheckpointAt_of_lt hlt]
      exact hidle.getPosition.trans hposition
    have hconsuming : (j.hardCheckpointAt j.getPosition).fileBuffer.Consuming := by
      rw [hardCheckpointAt_of_lt hlt]
      exact ⟨hidle.consuming.index_le, hidle.consuming.size_le⟩
    have hheader := h.header_le
    exact ⟨⟨hconsuming, by omega, by omega, by omega⟩, by omega, by rw [if_pos hlt, hcp]⟩
  · rw [hardCheckpointAt_of_le (Nat.not_lt.mp hlt), if_neg hlt]
    exact ⟨h, (Nat.max_eq_left (Nat.not_lt.mp hlt)).symm, rfl⟩

theorem Resting.pullFrom (h : j.Resting) (source : Journal) (until_ : Nat) :
    (after (Journal.pullFrom source until_) j).Resting := by
  have hcopied := h.withFile
    (source.file.copyTo j.file j.getCheckpoint (until_ - j.getCheckpoint)).1
  unfold after Journal.pullFrom
  simp only []
  split
  · next n j' hrun =>
      split at hrun
      · split at hrun
        · obtain ⟨-, rfl⟩ := EStateM.Result.ok.inj hrun
          exact (hcopied.softCheckpointAt until_).1
        · cases hrun
      · obtain ⟨-, rfl⟩ := EStateM.Result.ok.inj hrun
        exact h
  · next e j' hrun =>
      split at hrun
      · split at hrun
        · cases hrun
        · obtain ⟨-, rfl⟩ := EStateM.Result.error.inj hrun
          exact hcopied
      · cases hrun

theorem maintains_resting_lockPull : Maintains Resting lockPull := by
  refine maintains_get_bind fun _ => maintains_ite ?_ (maintains_pure ())
  intro j h
  obtain ⟨hbuffer, hcp⟩ := finds_pullWithoutLocking j
  have hpos : (after pullWithoutLocking j).getPosition = j.getPosition :=
    congrArg FileBuffer.getPosition hbuffer
  refine ⟨by rw [hbuffer]; exact h.consuming, ?_, ?_, ?_⟩
  · rw [hpos]
    exact Nat.le_trans h.position_le hcp
  · unfold after pullWithoutLocking
    simp only []
    cases (j.file.fullPread 32 0).2 with
    | true =>
        refine Nat.le_trans h.header_le ?_
        show _ ≤ (Checkpoints.readCheckpoint _ _ _).hardCheckpointPosition
        rw [Checkpoints.readCheckpoint_hard]
        exact Nat.le_trans (Checkpoints.le_readPair_hard false _)
          (Checkpoints.le_readPair_hard true _)
    | false => exact h.header_le
  · unfold after pullWithoutLocking
    simp only []
    cases (j.file.fullPread 32 0).2 with
    | true => exact Checkpoints.hard_le_readCheckpoint
    | false => exact h.hard_le

theorem resting_skipDirectlyTo (h : j.Resting) : (j.skipDirectlyTo j.getCheckpoint).Resting := by
  obtain ⟨hidle, -, hposition⟩ := WritableClient.skipDirectlyTo_receives h.consuming j.getCheckpoint
  exact ⟨hidle.consuming, Nat.le_of_eq (hidle.getPosition.trans hposition), h.header_le, h.hard_le⟩

/-- Whatever is believed of a header, the hard checkpoint is not ahead. -/
theorem ordered_openCheckpoints {file : File} {recovery : Recovery} {c : Checkpoints}
    (h : openCheckpoints file recovery = .ok c) :
    headerSize ≤ c.hardCheckpointPosition ∧ c.hardCheckpointPosition ≤ c.checkpointPosition := by
  rw [openCheckpoints] at h
  simp only [] at h
  split at h
  · split at h
    · next hsize =>
        obtain rfl := Except.ok.inj h
        exact ⟨Nat.le_refl _, Nat.le_of_lt hsize⟩
    · obtain rfl := Except.ok.inj h
      exact ⟨Nat.le_refl _, Nat.le_refl _⟩
  · split at h
    · cases h
    · split at h
      · cases h
      · split at h
        · cases h
        · obtain rfl := Except.ok.inj h
          exact ⟨Checkpoints.holds_readCheckpoint_hard.header_le,
            Checkpoints.hard_le_readCheckpoint⟩

theorem resting_openWritable {file : File} {recovery : Recovery}
    (hopen : openWritable file recovery = .ok j) : j.fileBuffer.Consuming ∧
      headerSize ≤ j.getHardCheckpoint ∧ j.getHardCheckpoint ≤ j.getCheckpoint := by
  refine ⟨(WritableClient.openWritable_sameUpTo hopen).1, ?_⟩
  by_cases hne : file.data = []
  · have hmode : file.isReadonly = false := Bool.eq_false_iff.mpr fun hread => by
      rw [openWritable] at hopen
      split at hopen
      · cases hopen
      · rw [if_pos hread] at hopen; cases hopen
    obtain ⟨j', hopen', hready, -⟩ := openWritable_new hne hmode recovery
    rw [hopen] at hopen'
    obtain rfl := Except.ok.inj hopen'
    exact ⟨hready.header_le, hready.hard_le⟩
  · obtain ⟨j₀, hread, rfl⟩ := Monotone.openWritable_repairs hne hopen
    obtain ⟨-, hcheckpoints, hbuffer⟩ := Monotone.openReadonly_buffer hne hread
    have hidle : j₀.fileBuffer.Idle := by
      rw [hbuffer]
      exact (setPosition_idle (create_idle file) headerSize).1
    have hc := (PowerFailure.foldl_repairWord_calls (lockHeader file) file.getSize [0, 1, 2, 3]
      hidle).1
    rw [getHardCheckpoint, getCheckpoint, hc]
    exact ordered_openCheckpoints hcheckpoints

end Journal

namespace WritableClient

variable {c c' : WritableClient Unit}

/-- What a client does that writes nothing of its own. -/
structure Calms (c c' : WritableClient Unit) : Prop where
  validData : c'.useValidData = c.useValidData
  timestamp : c'.useTimestamp = c.useTimestamp
  hardCheckpoint : c'.useHardCheckpoint = c.useHardCheckpoint
  rests : c.journal.Resting → c'.journal.Resting ∧ c.journal.Receives c'.journal

theorem Calms.refl (c : WritableClient Unit) : Calms c c :=
  ⟨rfl, rfl, rfl, fun h => ⟨h, .refl h.consuming⟩⟩

theorem Calms.trans (c c' c'' : WritableClient Unit) (h : Calms c c') (h' : Calms c' c'') :
    Calms c c'' := by
  refine ⟨h'.validData.trans h.validData, h'.timestamp.trans h.timestamp,
    h'.hardCheckpoint.trans h.hardCheckpoint, fun hc => ?_⟩
  obtain ⟨hresting, hreceives⟩ := h.rests hc
  obtain ⟨hresting', hreceives'⟩ := h'.rests hresting
  exact ⟨hresting', hreceives.trans hreceives'⟩

/-- A client with another journal. -/
theorem calms_journal {j : Journal}
    (h : c.journal.Resting → j.Resting ∧ c.journal.Receives j) :
    Calms c { c with journal := j } := ⟨rfl, rfl, rfl, h⟩

theorem resting_transfers (ts : List Transfer) {j : Journal} (h : j.Resting) :
    (ts.foldl Transfer.run j).Resting := by
  induction ts generalizing j with
  | nil => exact h
  | cons t ts ih =>
      refine ih ?_
      cases t with
      | pullFrom source until_ => exact h.pullFrom source until_
      | download pieces finished =>
          have hwritten := h.withFile (j.file.pwriteAll j.getCheckpoint pieces)
          rw [Transfer.run, Journal.download]
          cases finished with
          | true => exact (hwritten.softCheckpointAt _).1
          | false => exact hwritten

theorem getTailLock_calms (x : Exchange) :
    Keeps Calms (getTailLock x : EStateM Exn (WritableClient Unit) Unit) := by
  refine keeps_bind Calms.trans (keeps_get Calms.refl) fun c => keeps_bind Calms.trans
    (keeps_when Calms.refl (keeps_throw Calms.refl _)) fun _ =>
      keeps_bind Calms.trans ?_ fun _ => ?_
  · intro c
    have hresting : Maintains Journal.Resting Journal.tailExclusiveLock :=
      maintains_get_bind fun _ => maintains_guard_bind Journal.maintains_resting_lockPull
    have hfinds := tailExclusiveLock_finds c.journal
    have hjournal : after (onJournal Journal.tailExclusiveLock) c
        = { c with journal := after Journal.tailExclusiveLock c.journal } := after_onPart _ c
    rw [hjournal]
    refine calms_journal fun hc => ⟨hresting c.journal hc, ?_⟩
    refine ⟨(hresting c.journal hc).consuming, hfinds.checkpoint_le, ?_⟩
    have hfile : (after Journal.tailExclusiveLock c.journal).file = c.journal.file :=
      congrArg FileBuffer.file hfinds.buffer
    rw [hfile]
    exact .refl _ _
  · cases x.mismatch with
    | none => exact keeps_pure Calms.refl ()
    | some e => exact keeps_throw Calms.refl e

theorem connectionPull_calms (x : Exchange) :
    Keeps Calms (connectionPull x : EStateM Exn (WritableClient Unit) Unit) := by
  refine keeps_bind Calms.trans (keeps_modify fun c => calms_journal fun h =>
    ⟨resting_transfers x.transfers h, transfers_receive x.transfers h.consuming⟩) fun _ => ?_
  cases x.reply with
  | ok checkpoint => exact keeps_modify fun c => ⟨rfl, rfl, rfl, fun h => ⟨h, .refl h.consuming⟩⟩
  | error e => exact keeps_throw Calms.refl e

theorem readJournal_calms : Keeps Calms (readJournal (.skip : ReadJournal Unit)) := by
  refine keeps_modify fun c => calms_journal fun h => ?_
  obtain ⟨hidle, hfile, -⟩ := skipDirectlyTo_receives h.consuming c.journal.getCheckpoint
  refine ⟨Journal.resting_skipDirectlyTo h, hidle.consuming, Nat.le_refl _, ?_⟩
  rw [hfile]
  exact .refl _ _

theorem lock_calms (x : Exchange) : Keeps Calms (lock (.skip : ReadJournal Unit) x) :=
  keeps_bind Calms.trans (getTailLock_calms x) fun _ =>
    keeps_bind Calms.trans
      (keeps_bind Calms.trans (connectionPull_calms x) fun _ => readJournal_calms) fun _ =>
      keeps_modify fun _ => ⟨rfl, rfl, rfl, fun h => ⟨h, .refl h.consuming⟩⟩

theorem pull_calms (x : Exchange) : Keeps Calms (pull (.skip : ReadJournal Unit) x) :=
  keeps_bind Calms.trans (keeps_get Calms.refl) fun _ =>
    keeps_bind Calms.trans (getTailLock_calms x) fun _ =>
      keeps_bind Calms.trans (connectionPull_calms x) fun _ =>
        keeps_bind Calms.trans readJournal_calms fun _ =>
          keeps_bind Calms.trans (keeps_get Calms.refl) fun _ => keeps_pure Calms.refl _

theorem push_calms (reply : Except Exn Nat) :
    Keeps Calms (push reply : EStateM Exn (WritableClient Unit) Unit) := by
  cases reply with
  | ok checkpoint => exact keeps_modify fun c => ⟨rfl, rfl, rfl, fun h => ⟨h, .refl h.consuming⟩⟩
  | error e => exact keeps_throw Calms.refl e

/-- With nothing of its own to write, a client has nothing behind the checkpoint to make a soft
one for. -/
theorem doCheckpoint_resting {j : Journal} (h : j.Resting) (hvalid : c.useValidData = false)
    (hstamp : c.useTimestamp = false) (now : BitVec 64) :
    doCheckpoint now { c with journal := j }
      = { c with journal := if c.useHardCheckpoint then j.hardCheckpoint else j } := by
  rw [doCheckpoint]
  simp only [hvalid, hstamp, Bool.false_eq_true, if_false]
  rw [Journal.softCheckpoint, Journal.softCheckpointAt_of_le h.position_le]

end WritableClient

namespace ServingClient

open WritableClient

variable {ι : Type} {s s' : ServingClient ι} {p : PushRequest}

/-! ## One event -/

/-- What is no push. -/
structure Waits (s s' : ServingClient ι) : Prop where
  client : Calms s.client s'.client
  acknowledged : s'.acknowledged = s.acknowledged

theorem Waits.refl (s : ServingClient ι) : Waits s s := ⟨.refl _, rfl⟩

theorem waits_of_client {c : WritableClient Unit} (h : Calms s.client c) (holder : Option ι) :
    Waits s { s with client := c, holder := holder } := ⟨h, rfl⟩

theorem waits_lock (s : ServingClient ι) (i : ι) (x : Exchange) : Waits s (s.lock i x) := by
  rw [ServingClient.lock]
  split
  · exact .refl s
  · split
    · exact waits_of_client (.refl _) _
    · have hcalms := lock_calms x s.client
      cases hrun : WritableClient.lock .skip x s.client with
      | ok a c =>
          rw [after_ok hrun] at hcalms
          exact waits_of_client hcalms _
      | error e c =>
          rw [after_error hrun] at hcalms
          exact waits_of_client hcalms _

theorem unlock_journal (s : ServingClient ι) (waited : Bool) :
    (s.unlock waited).client.journal = s.client.journal ∧
      Waits s (s.unlock waited) := by
  rw [ServingClient.unlock]
  split
  · exact ⟨rfl, ⟨rfl, rfl, rfl, fun h => ⟨h, .refl h.consuming⟩⟩, rfl⟩
  · exact ⟨rfl, .refl _, rfl⟩

theorem waits_pull (s : ServingClient ι) (x : Exchange) : Waits s (s.pull x) := by
  rw [ServingClient.pull]
  split
  · exact .refl s
  · exact waits_of_client (pull_calms x s.client) _

/-- The journal with a payload at its tail. -/
def written (j : Journal) (p : PushRequest) : Journal :=
  j.withFile (j.file.pwriteAll j.getCheckpoint p.pieces)

/-- The journal with its checkpoint behind a payload, and what a client makes of that. -/
def checkpointed (hard : Bool) (j : Journal) (p : PushRequest) : Journal :=
  let j := (written j p).softCheckpointAt (j.getCheckpoint + p.payload.length)
  if hard then j.hardCheckpoint else j

/-- What a push leaves that is not in conflict. -/
structure Receives (s : ServingClient ι) (p : PushRequest) (s' : ServingClient ι) : Prop where
  validData : s'.client.useValidData = s.client.useValidData
  timestamp : s'.client.useTimestamp = s.client.useTimestamp
  hardCheckpoint : s'.client.useHardCheckpoint = s.client.useHardCheckpoint
  journal : s'.client.journal
    = if p.payload.length = p.size ∧ p.start < p.stop then
        checkpointed s.client.useHardCheckpoint s.client.journal p
      else written s.client.journal p
  acknowledged : s'.acknowledged = s.acknowledged ∨ (p.payload.length = p.size ∧
    s'.acknowledged = s.acknowledged ++ [⟨p.start, p.stop, p.payload⟩])

/-- Giving back the lock is nothing to the journal. -/
theorem Receives.unlock {s₁ : ServingClient ι} (h : Receives s p s₁) (waited : Bool) :
    Receives s p (s₁.unlock waited) := by
  obtain ⟨hjournal, ⟨hvalid, hstamp, hhard, -⟩, hack⟩ := unlock_journal s₁ waited
  refine ⟨hvalid.trans h.validData, hstamp.trans h.timestamp, hhard.trans h.hardCheckpoint, ?_, ?_⟩
  · rw [hjournal]
    exact h.journal
  · rw [hack]
    exact h.acknowledged

theorem Receives.finishPush {s₁ : ServingClient ι} (h : Receives s p s₁)
    (hack : s₁.acknowledged = s.acknowledged) (hsize : p.payload.length = p.size) :
    Receives s p (s₁.finishPush p) := by
  have hdone : Receives s p
      { s₁ with acknowledged := s₁.acknowledged ++ [⟨p.start, p.stop, p.payload⟩] } :=
    ⟨h.validData, h.timestamp, h.hardCheckpoint, h.journal, .inr ⟨hsize, by rw [hack]⟩⟩
  rw [ServingClient.finishPush]
  split
  · exact hdone.unlock _
  · exact hdone

/-- What the client makes of its checkpoint does not depend on the push further up. -/
theorem checkpointPush_run (hresting : s.client.journal.Resting)
    (hvalid : s.client.useValidData = false) (hstamp : s.client.useTimestamp = false) :
    (s.writePayload p).checkpointPush p (s.client.journal.getCheckpoint + p.payload.length)
        (s.writePayload p).client
      = WritableClient.push p.reply { s.client with
          journal := checkpointed s.client.useHardCheckpoint s.client.journal p } := by
  have hsoft := ((hresting.withFile (s.client.journal.file.pwriteAll
    s.client.journal.getCheckpoint p.pieces)).softCheckpointAt
      (s.client.journal.getCheckpoint + p.payload.length)).1
  rw [checkpointPush, set_bind_run, modify_bind_run]
  simp only [writePayload]
  rw [doCheckpoint_resting hsoft hvalid hstamp]
  rfl

theorem receive_receives (hresting : s.client.journal.Resting)
    (hvalid : s.client.useValidData = false) (hstamp : s.client.useTimestamp = false)
    (hlen : p.payload.length ≤ p.size) : Receives s p (s.receive p) := by
  have hbehind : ∀ _ : ¬ (p.payload.length = p.size ∧ p.start < p.stop),
      Receives s p (s.writePayload p) := fun hno =>
    ⟨rfl, rfl, rfl, by rw [if_neg hno]; rfl, .inl rfl⟩
  rw [receive]
  split
  · next hless => exact (hbehind fun h => absurd h.1 (Nat.ne_of_lt hless)).unlock _
  · next hnot =>
      have hsize : p.payload.length = p.size := Nat.le_antisymm hlen (Nat.not_lt.mp hnot)
      split
      · next hstop =>
          have hdone : ∀ c : WritableClient Unit,
              c.journal = checkpointed s.client.useHardCheckpoint s.client.journal p →
              c.useValidData = s.client.useValidData → c.useTimestamp = s.client.useTimestamp →
              c.useHardCheckpoint = s.client.useHardCheckpoint →
              Receives s p { s.writePayload p with client := c } := fun c hj hv ht hh =>
            ⟨hv, ht, hh, by rw [if_pos ⟨hsize, hstop⟩]; exact hj, .inl rfl⟩
          rw [checkpointPush_run hresting hvalid hstamp]
          cases p.reply with
          | ok checkpoint =>
              simp only [WritableClient.push, modify_run]
              refine Receives.finishPush ?_ rfl hsize
              split
              · exact hdone _ (by rfl) (by rfl) (by rfl) (by rfl)
              · exact hdone _ (by rfl) (by rfl) (by rfl) (by rfl)
          | error e =>
              simp only [WritableClient.push, throw_run]
              exact (hdone _ (by rfl) (by rfl) (by rfl) (by rfl)).unlock _
      · next hstop => exact (hbehind fun h => hstop h.2).finishPush rfl hsize

/-- Nothing waits in the buffer of the client, and it writes no operations of its own. -/
structure Calm (hard : Bool) (s : ServingClient ι) : Prop where
  resting : s.client.journal.Resting
  validData : s.client.useValidData = false
  timestamp : s.client.useTimestamp = false
  hardCheckpoint : s.client.useHardCheckpoint = hard

variable {hard : Bool}

theorem Calm.waits (h : s.Calm hard) (hw : s.Waits s') : s'.Calm hard :=
  ⟨(hw.client.rests h.resting).1, hw.client.validData.trans h.validData,
    hw.client.timestamp.trans h.timestamp, hw.client.hardCheckpoint.trans h.hardCheckpoint⟩

theorem resting_checkpointed {j : Journal} (h : j.Resting) (hard : Bool) (p : PushRequest) :
    (checkpointed hard j p).Resting := by
  have hsoft := ((h.withFile (j.file.pwriteAll j.getCheckpoint p.pieces)).softCheckpointAt
    (j.getCheckpoint + p.payload.length)).1
  cases hard with
  | true => exact hsoft.hardCheckpoint.1
  | false => exact hsoft

/-- The hard checkpoint is where the buffer was before the payload. -/
theorem checkpointed_hard {j : Journal} (h : j.Resting) (p : PushRequest) :
    (checkpointed true j p).getHardCheckpoint = max j.getHardCheckpoint j.getPosition ∧
      (checkpointed true j p).getCheckpoint
        = if j.getHardCheckpoint < j.getPosition then j.getPosition
          else j.getCheckpoint + p.payload.length := by
  have hwritten : (written j p).Resting := h.withFile _
  obtain ⟨hsoft, hposition, hhard, hcp⟩ :=
    hwritten.softCheckpointAt (j.getCheckpoint + p.payload.length)
  obtain ⟨-, hhard', hcp'⟩ := hsoft.hardCheckpoint
  have hbefore : (written j p).getPosition = j.getPosition ∧
      (written j p).getHardCheckpoint = j.getHardCheckpoint ∧
      (written j p).getCheckpoint = j.getCheckpoint := ⟨rfl, rfl, rfl⟩
  rw [hposition, hhard, hbefore.1, hbefore.2.1] at hhard' hcp'
  rw [hcp, hbefore.2.2, Nat.max_eq_right (Nat.le_add_right _ _)] at hcp'
  exact ⟨hhard', hcp'⟩

theorem Calm.receives (h : s.Calm hard) (hr : s.Receives p s') : s'.Calm hard := by
  refine ⟨?_, hr.validData.trans h.validData, hr.timestamp.trans h.timestamp,
    hr.hardCheckpoint.trans h.hardCheckpoint⟩
  rw [hr.journal]
  split
  · exact resting_checkpointed h.resting _ p
  · exact h.resting.withFile _

variable [DecidableEq ι]

/-- A push is one that is accepted, or it does no more than give back the lock. -/
theorem push_cases (h : s.Calm hard) (i : ι) (x : Exchange) (hlen : p.payload.length ≤ p.size) :
    ((s.lock i x).Accepts i p ∧ (s.lock i x).Receives p (s.push i p x)) ∨
      s.Waits (s.push i p x) := by
  have hlock := waits_lock s i x
  have hcalm := h.waits hlock
  rw [ServingClient.push]
  split
  · next haccepts =>
      exact .inl ⟨haccepts, receive_receives hcalm.resting hcalm.validData hcalm.timestamp hlen⟩
  · split
    · obtain ⟨-, hclient, hack⟩ := unlock_journal (s.lock i x) p.waited
      exact .inr ⟨hlock.client.trans _ _ _ hclient, hack.trans hlock.acknowledged⟩
    · exact .inr hlock

theorem step_cases (h : s.Calm hard) (e : Event ι) :
    (∃ i p x, e = .push i p x ∧ (s.lock i x).Accepts i p ∧ p.payload.length ≤ p.size ∧
      (s.lock i x).Receives p (s.step e)) ∨ s.Waits (s.step e) := by
  cases e with
  | lock i x => exact .inr (waits_lock s i x)
  | unlock waited => exact .inr (unlock_journal s waited).2
  | pull x => exact .inr (waits_pull s x)
  | push i p x =>
      rw [ServingClient.step]
      split
      · next hlen =>
          rcases push_cases h i x hlen with ⟨haccepts, hreceives⟩ | hwaits
          · exact .inl ⟨i, p, x, rfl, haccepts, hlen, hreceives⟩
          · exact .inr hwaits
      · exact .inr (.refl s)

theorem Calm.step (h : s.Calm hard) (e : Event ι) : (s.step e).Calm hard := by
  rcases step_cases h e with ⟨i, p, x, rfl, -, -, hreceives⟩ | hwaits
  · exact (h.waits (waits_lock s i x)).receives hreceives
  · exact h.waits hwaits

theorem Calm.run (h : s.Calm hard) (events : List (Event ι)) : (s.run events).Calm hard := by
  induction events generalizing s with
  | nil => exact h
  | cons e events ih => exact ih (h.step e)

/-! ## The start -/

omit [DecidableEq ι] in
/-- A server that starts with a client as it was constructed. -/
theorem waits_start {c : WritableClient Unit} {reply : Except Exn Nat} {x : Exchange}
    (hstart : start c reply x = .ok s) : Calms c s.client ∧ s.acknowledged = [] := by
  have hpushed : Keeps Calms (if c.journal.getCheckpoint > c.connectionCheckpoint then
      WritableClient.push reply else pure () : EStateM Exn (WritableClient Unit) Unit) :=
    keeps_ite (push_calms reply) (keeps_pure Calms.refl ())
  have hlocked : Keeps Calms (if c.journal.isShared then pure () else WritableClient.lock .skip x :
      EStateM Exn (WritableClient Unit) Unit) :=
    keeps_ite (keeps_pure Calms.refl ()) (lock_calms x)
  have hboth := keeps_bind Calms.trans hpushed fun _ => hlocked
  rw [start] at hstart
  split at hstart
  · next a c' hrun =>
      obtain rfl := Except.ok.inj hstart
      exact ⟨hboth.ok hrun, rfl⟩
  · cases hstart

/-- What the constructor of the client leaves. -/
theorem resting_construct {file : File} {recovery : Recovery} {handshake : Except Exn Nat}
    {c : WritableClient Unit} (hopen : construct .skip file recovery () handshake = .ok c) :
    c.journal.Resting ∧ c.useValidData = false ∧ c.useTimestamp = false ∧
      c.useHardCheckpoint = false := by
  rw [construct] at hopen
  cases hj : Journal.openWritable file recovery with
  | error e => rw [hj] at hopen; cases hopen
  | ok j =>
      obtain ⟨hconsuming, hheader, hhard⟩ := Journal.resting_openWritable hj
      obtain ⟨hidle, -, hposition⟩ := skipDirectlyTo_receives hconsuming j.getCheckpoint
      rw [hj] at hopen
      cases handshake with
      | error e => cases hopen
      | ok checkpoint =>
          obtain rfl := Except.ok.inj hopen
          exact ⟨⟨hidle.consuming, Nat.le_of_eq (hidle.getPosition.trans hposition), hheader,
            hhard⟩, rfl, rfl, rfl⟩

end ServingClient

/-! ## What is acknowledged stays -/

/-- The bytes of a push are in the journal, all of them, below the checkpoint. -/
structure Acknowledged.Kept (a : Acknowledged) (j : Journal) : Prop where
  size : a.payload.length = (a.stop - a.start).toNat
  stop_le : a.stop ≤ j.getCheckpoint
  content : slice j.file.data a.start.toNat a.stop.toNat = a.payload

theorem Acknowledged.Kept.receives {a : Acknowledged} {j j' : Journal} (h : a.Kept j)
    (hheader : headerSize ≤ a.start) (hr : j.Receives j') : a.Kept j' := by
  have hsize := h.size
  have hstop := h.stop_le
  have hcp := hr.checkpoint_le
  refine ⟨hsize, by omega, ?_⟩
  rcases Int.lt_or_le a.start a.stop with hlt | hge
  · have hlen := congrArg List.length h.content
    rw [length_slice] at hlen
    rw [hr.same.slice (by omega) (by omega) (by omega), h.content]
  · rw [← h.content, slice_eq_nil (by omega), slice_eq_nil (by omega)]

namespace ServingClient

variable {ι : Type} {s : ServingClient ι} {p : PushRequest}

theorem receives_checkpointed {j : Journal} (h : j.Resting) (p : PushRequest) :
    j.Receives (checkpointed false j p) := by
  have hwritten : j.Receives (written j p) :=
    Journal.receives_withFile h.consuming (File.pwriteAll_sameUpTo (Nat.le_refl _) _ _)
  exact hwritten.trans (Journal.receives_softCheckpointAt hwritten.consuming _)

/-- The payload of an accepted push, behind its checkpoint. -/
theorem kept_checkpointed {j : Journal} (h : j.Resting) (hstart : p.start = j.getCheckpoint)
    (hsize : p.payload.length = p.size) (hstop : p.start < p.stop) :
    (⟨p.start, p.stop, p.payload⟩ : Acknowledged).Kept (checkpointed false j p) := by
  have hresting : (written j p).Resting := h.withFile _
  have hstop' : p.stop = (j.getCheckpoint + p.payload.length : Nat) := by
    rw [PushRequest.size] at hsize
    omega
  have hthere : slice (written j p).file.data j.getCheckpoint
      (j.getCheckpoint + p.payload.length) = p.payload := File.slice_pwriteAll _ _ _
  have hlen := congrArg List.length hthere
  rw [length_slice] at hlen
  have hflush : (written j p).flush.file = (written j p).file := hresting.consuming.flush.2.1
  have hflushed : SameUpTo (j.getCheckpoint + p.payload.length) (written j p).file.data
      (written j p).flush.file.data := by
    rw [hflush]
    exact .refl _ _
  have hsame := Journal.softCheckpointAt_sameUpTo hflushed (j.getCheckpoint + p.payload.length)
  refine ⟨hsize, ?_, ?_⟩
  · obtain ⟨-, -, -, hcp⟩ := hresting.softCheckpointAt (j.getCheckpoint + p.payload.length)
    show p.stop ≤ ((written j p).softCheckpointAt
      (j.getCheckpoint + p.payload.length)).getCheckpoint
    omega
  · show slice ((written j p).softCheckpointAt
      (j.getCheckpoint + p.payload.length)).file.data p.start.toNat p.stop.toNat = p.payload
    have hheader := Nat.le_trans h.header_le h.hard_le
    rw [hstop', hstart, Int.toNat_natCast, Int.toNat_natCast,
      hsame.slice hheader (Nat.le_refl _) (by omega), hthere]

/-- What holds of a server whose client has no options set. -/
structure Keeping (s : ServingClient ι) : Prop where
  calm : s.Calm false
  kept : ∀ a ∈ s.acknowledged, headerSize ≤ a.start ∧ a.Kept s.client.journal

theorem Keeping.waits {s' : ServingClient ι} (h : s.Keeping) (hw : s.Waits s') : s'.Keeping := by
  refine ⟨h.calm.waits hw, fun a ha => ?_⟩
  rw [hw.acknowledged] at ha
  obtain ⟨hheader, hkept⟩ := h.kept a ha
  exact ⟨hheader, hkept.receives hheader (hw.client.rests h.calm.resting).2⟩

variable [DecidableEq ι]

theorem Keeping.step (h : s.Keeping) (e : Event ι) : (s.step e).Keeping := by
  rcases step_cases h.calm e with ⟨i, p, x, rfl, ⟨-, hstart⟩, hlen, hr⟩ | hwaits
  · have hlocked := h.waits (waits_lock s i x)
    have hresting := hlocked.calm.resting
    have hjournal := hr.journal
    rw [hlocked.calm.hardCheckpoint] at hjournal
    have hreceives : (s.lock i x).client.journal.Receives
        (s.step (.push i p x)).client.journal := by
      rw [hjournal]
      split
      · exact receives_checkpointed hresting p
      · exact Journal.receives_withFile hresting.consuming
          (File.pwriteAll_sameUpTo (Nat.le_refl _) _ _)
    have hold : ∀ a ∈ (s.lock i x).acknowledged,
        headerSize ≤ a.start ∧ a.Kept (s.step (.push i p x)).client.journal := fun a ha =>
      ⟨(hlocked.kept a ha).1, (hlocked.kept a ha).2.receives (hlocked.kept a ha).1 hreceives⟩
    refine ⟨hlocked.calm.receives hr, fun a ha => ?_⟩
    rcases hr.acknowledged with hsame | ⟨hsize, hmore⟩
    · rw [hsame] at ha
      exact hold a ha
    · rw [hmore, List.mem_append, List.mem_singleton] at ha
      rcases ha with ha | rfl
      · exact hold a ha
      · have hheader := Nat.le_trans hresting.header_le hresting.hard_le
        refine ⟨by show (headerSize : Int) ≤ p.start; omega, ?_⟩
        by_cases hstop : p.start < p.stop
        · rw [hjournal, if_pos ⟨hsize, hstop⟩]
          exact kept_checkpointed hresting hstart hsize hstop
        · have hcp := hreceives.checkpoint_le
          rw [PushRequest.size] at hsize
          have hnil : p.payload = [] := List.length_eq_zero_iff.mp (by omega)
          refine ⟨hsize, by show p.stop ≤ _; omega, ?_⟩
          show slice _ p.start.toNat p.stop.toNat = p.payload
          rw [hnil]
          exact slice_eq_nil (by omega)
  · exact h.waits hwaits

theorem Keeping.run (h : s.Keeping) (events : List (Event ι)) : (s.run events).Keeping := by
  induction events generalizing s with
  | nil => exact h
  | cons e events ih => exact ih (h.step e)

/-- What was acknowledged once stays in the list. -/
theorem acknowledged_run {hard : Bool} (h : s.Calm hard) (events : List (Event ι)) :
    s.acknowledged ⊆ (s.run events).acknowledged := by
  induction events generalizing s with
  | nil => exact List.Subset.refl _
  | cons e events ih =>
      refine List.Subset.trans ?_ (ih (h.step e))
      rcases step_cases h e with ⟨i, p, x, rfl, -, -, hr⟩ | hwaits
      · have hlock := (waits_lock s i x).acknowledged
        rcases hr.acknowledged with hsame | ⟨-, hmore⟩
        · rw [hsame, hlock]
          exact List.Subset.refl _
        · rw [hmore, hlock]
          exact List.subset_append_left _ _
      · rw [hwaits.acknowledged]
        exact List.Subset.refl _

section

variable {file : File} {recovery : Recovery} {handshake reply : Except Exn Nat}
  {c : WritableClient Unit} {x : Exchange}

omit [DecidableEq ι] in
/-- A server with the option `hard_checkpoint` or without it. -/
theorem calm_start (hard : Bool)
    (hopen : WritableClient.construct .skip file recovery () handshake = .ok c)
    (hstart : start { c with useHardCheckpoint := hard } reply x = .ok s) :
    s.Calm hard ∧ s.acknowledged = [] := by
  obtain ⟨hresting, hvalid, hstamp, -⟩ := resting_construct hopen
  obtain ⟨hcalms, hnone⟩ := waits_start hstart
  exact ⟨⟨(hcalms.rests hresting).1, hcalms.validData.trans hvalid,
    hcalms.timestamp.trans hstamp, hcalms.hardCheckpoint⟩, hnone⟩

/-- A server whose client was constructed on any file, in whatever mode, and has no options set:
whatever the sessions ask for, whatever is lost on the way and whatever happens further up, a push
that was acknowledged is in the journal for good. -/
theorem acknowledged_kept
    (hopen : WritableClient.construct .skip file recovery () handshake = .ok c)
    (hstart : start c reply x = .ok s) (events more : List (Event ι)) :
    ∀ a ∈ (s.run events).acknowledged, a.Kept (s.run (events ++ more)).client.journal := by
  have hoff : ({ c with useHardCheckpoint := false } : WritableClient Unit) = c := by
    rw [← (resting_construct hopen).2.2.2]
  obtain ⟨hcalm, hnone⟩ := calm_start false hopen (hoff.symm ▸ hstart)
  have hbegin : s.Keeping := ⟨hcalm, fun a ha => by
    rw [hnone] at ha
    exact absurd ha List.not_mem_nil⟩
  intro a ha
  have hrun : s.run (events ++ more) = (s.run events).run more := List.foldl_append
  rw [hrun]
  exact (((hbegin.run events).run more).kept a
    (acknowledged_run (hbegin.run events).calm more ha)).2

/-- With `hard_checkpoint`, no hard checkpoint is ever made of a payload: an accepted push leaves it
where it was, or takes it to where the client took its lock, which is before the payload. In that
case the checkpoint goes back there as well, and the payload is behind it. -/
theorem hard_checkpoint_before_payload
    (hopen : WritableClient.construct .skip file recovery () handshake = .ok c)
    (hstart : start { c with useHardCheckpoint := true } reply x = .ok s) (events : List (Event ι))
    (i : ι) (p : PushRequest) (y : Exchange) (haccepts : ((s.run events).lock i y).Accepts i p)
    (hsize : p.payload.length = p.size) (hstop : p.start < p.stop) :
    let j := ((s.run events).lock i y).client.journal
    let j' := ((s.run events).step (.push i p y)).client.journal
    j'.getHardCheckpoint = max j.getHardCheckpoint j.getPosition ∧
      (j'.getHardCheckpoint : Int) ≤ p.start ∧
      (j'.getCheckpoint : Int)
        = if j.getHardCheckpoint < j.getPosition then (j.getPosition : Int) else p.stop := by
  have hcalm := ((calm_start true hopen hstart).1.run events).waits (waits_lock _ i y)
  have hresting := hcalm.resting
  intro j j'
  have hjournal : j' = checkpointed true j p := by
    have hr := receive_receives hresting hcalm.validData hcalm.timestamp (Nat.le_of_eq hsize)
    have hstep : (s.run events).step (.push i p y) = ((s.run events).lock i y).receive p := by
      rw [ServingClient.step, if_pos (Nat.le_of_eq hsize), ServingClient.push, if_pos haccepts]
    show ((s.run events).step (.push i p y)).client.journal = _
    rw [hstep, hr.journal, if_pos ⟨hsize, hstop⟩, hcalm.hardCheckpoint]
  obtain ⟨hhard, hcp⟩ := checkpointed_hard hresting p
  have hstart' : p.start = j.getCheckpoint := haccepts.2
  have hposition : j.getPosition ≤ j.getCheckpoint := hresting.position_le
  have hhardle : j.getHardCheckpoint ≤ j.getCheckpoint := hresting.hard_le
  have hhard' : j'.getHardCheckpoint = max j.getHardCheckpoint j.getPosition := hjournal ▸ hhard
  have hcp' : j'.getCheckpoint = if j.getHardCheckpoint < j.getPosition then j.getPosition
      else j.getCheckpoint + p.payload.length := hjournal ▸ hcp
  rw [PushRequest.size] at hsize
  refine ⟨hhard', by omega, ?_⟩
  rw [hcp']
  split
  · rfl
  · omega

end

/-- A client that is connected to nothing, when its checkpoint is `checkpoint`. -/
def alone (checkpoint : Nat) : Exchange := ⟨none, [], .ok checkpoint⟩

/-- A push of one byte. -/
def onePush (start : Nat) (byte : UInt8) : PushRequest :=
  ⟨start, start + 1, true, [[byte]], 0, .ok (start + 1), false⟩

/-- The server of a new file. -/
def firstServer : ServingClient Bool :=
  ⟨after (WritableClient.lock .skip (alone 41)) (LocalJournal.first .createNew), none, []⟩

/-- The server of a new file that is shared, with `hard_checkpoint`. -/
def hardServer : ServingClient Bool :=
  ⟨{ LocalJournal.first .sharedWrite with useHardCheckpoint := true }, none, []⟩

/-- Two sessions push a byte each. -/
theorem acknowledged_kept_two :
    (firstServer.run [.push true (onePush 41 14) (alone 41)]).acknowledged.length = 1 ∧
      ∀ a ∈ (firstServer.run [.push true (onePush 41 14) (alone 41)]).acknowledged,
        a.Kept (firstServer.run ([.push true (onePush 41 14) (alone 41)]
          ++ [.push false (onePush 42 7) (alone 42)])).client.journal := by
  have hopen : WritableClient.construct .skip ⟨.createNew, .whole, [], []⟩ .none () (.ok 41)
      = .ok (LocalJournal.first .createNew) := rfl
  have hstart : start (LocalJournal.first .createNew) (.ok 41) (alone 41) = .ok firstServer := rfl
  exact ⟨rfl, acknowledged_kept hopen hstart _ _⟩

/-- They do so on a shared file, with `hard_checkpoint`: the second byte is behind the checkpoint
when its push is acknowledged. -/
theorem hard_checkpoint_before_payload_two :
    let s := hardServer.run [.push true (onePush 41 14) (alone 41)]
    let s' := s.step (.push false (onePush 42 7) (alone 42))
    s'.acknowledged.length = 2 ∧ s'.client.journal.getCheckpoint = 42 ∧
      (s'.client.journal.getHardCheckpoint : Int) ≤ 42 := by
  have hopen : WritableClient.construct .skip ⟨.sharedWrite, .whole, [], []⟩ .none () (.ok 41)
      = .ok (LocalJournal.first .sharedWrite) := rfl
  have hstart : start { LocalJournal.first .sharedWrite with useHardCheckpoint := true } (.ok 41)
      (alone 41) = .ok hardServer := rfl
  have hpush := hard_checkpoint_before_payload hopen hstart
    [.push true (onePush 41 14) (alone 41)] false (onePush 42 7) (alone 42)
    (by decide +kernel) (by decide) (by decide)
  exact ⟨by decide +kernel, by decide +kernel, hpush.2.1⟩

end ServingClient

end Joedb
