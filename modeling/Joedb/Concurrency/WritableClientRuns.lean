import Joedb.Concurrency.WritableClient
import Joedb.Journal.Monotone

/-!
# Runs of a Writable_Client

A local journal is opened by a client, which makes transactions, pulls and
pushes, and closes it, and then by another, whatever the recovery. Others may
write to the file while it is closed, and, if it is shared, whenever the client
does not have its tail lock.

Every write of the client is behind its checkpoint, and under the lock that is
behind every checkpoint in the header. One write comes without the lock: data
of a transaction that threw, which is still in the buffer when the journal is
closed. `Settled` says that it does no harm.
-/

namespace Joedb

open ByteFile StateExcept

namespace WritableClient

open FileBuffer Journal

variable {ω α β : Type} {c c' : WritableClient ω}

/-! ## Reading the journal -/

theorem skipDirectlyTo_receives {j : Journal} (h : j.fileBuffer.Consuming) (p : Nat) :
    (j.skipDirectlyTo p).fileBuffer.Idle ∧ (j.skipDirectlyTo p).file = j.file ∧
      (j.skipDirectlyTo p).fileBuffer.position = p := by
  obtain ⟨hidle, hfile, -⟩ := h.flush
  exact ⟨⟨hidle.noRead, hidle.noIndex⟩, hfile, rfl⟩

/-- It writes nothing, also when it throws. -/
theorem readJournal_file (r : ReadJournal ω) (h : c.journal.fileBuffer.Consuming) :
    (after (readJournal r) c).journal.fileBuffer.Consuming ∧
      (after (readJournal r) c).journal.file = c.journal.file ∧
      (after (readJournal r) c).journal.checkpoints = c.journal.checkpoints ∧
      (after (readJournal r) c).locked = c.locked := by
  cases r with
  | skip =>
      obtain ⟨hidle, hfile, -⟩ := skipDirectlyTo_receives h c.journal.getCheckpoint
      exact ⟨hidle.consuming, hfile, rfl, rfl⟩
  | play W =>
      have hplay := Replay.follows_playUntilCheckpoint W
      cases hrun : Replay.playUntilCheckpoint W ⟨c.journal, c.database⟩ with
      | ok a t =>
          obtain ⟨hc, hbuffer⟩ := hplay.ok hrun
          have hend : readJournal (.play W) c
              = .ok () { c with journal := t.journal, database := t.writable } := by
            simp only [readJournal, hrun]
          rw [after_ok hend]
          exact ⟨(hbuffer h).consuming, (hbuffer h).file, hc, rfl⟩
      | error e t =>
          obtain ⟨hc, hbuffer⟩ := hplay.error hrun
          have hend : readJournal (.play W) c
              = .error e { c with journal := t.journal, database := t.writable } := by
            simp only [readJournal, hrun]
          rw [after_error hend]
          exact ⟨(hbuffer h).consuming, (hbuffer h).file, hc, rfl⟩

/-- Read to its end, a journal is ready to be written. -/
theorem readJournal_working (r : ReadJournal ω) (h : c.journal.fileBuffer.Consuming)
    (hrun : readJournal r c = .ok () c') : c'.journal.Working := by
  cases r with
  | skip =>
      obtain ⟨hidle, -, hpos⟩ := skipDirectlyTo_receives h c.journal.getCheckpoint
      obtain ⟨-, rfl⟩ := EStateM.Result.ok.inj hrun
      exact ⟨hidle.writing, Nat.le_of_eq hpos.symm⟩
  | play W =>
      unfold readJournal at hrun
      simp only [] at hrun
      split at hrun
      · next t hplay =>
          obtain ⟨-, rfl⟩ := EStateM.Result.ok.inj hrun
          obtain ⟨hidle, hreach⟩ := Replay.playUntilCheckpoint_reaches W h hplay
          refine ⟨hidle.writing, ?_⟩
          rw [Journal.getPosition, hidle.getPosition] at hreach
          exact hreach
      · cases hrun

/-! ## What the connection sends -/

theorem transfer_receives {j : Journal} (h : j.fileBuffer.Consuming) (t : Transfer) :
    j.Receives (t.run j) := by
  cases t with
  | pullFrom source until_ => exact receives_pullFrom h source until_
  | download pieces finished =>
      have hwritten : j.Receives (j.withFile (j.file.pwriteAll j.getCheckpoint pieces)) :=
        receives_withFile h (File.pwriteAll_sameUpTo (Nat.le_refl _) _ _)
      rw [Transfer.run, download]
      cases finished with
      | true => exact hwritten.trans (receives_softCheckpointAt hwritten.consuming _)
      | false => exact hwritten

theorem transfers_receive (ts : List Transfer) {j : Journal} (h : j.fileBuffer.Consuming) :
    j.Receives (ts.foldl Transfer.run j) := by
  induction ts generalizing j with
  | nil => exact .refl h
  | cons t ts ih =>
      have hone := transfer_receives h t
      exact hone.trans (ih hone.consuming)

/-- What a client does under its lock before it writes. -/
def Waits (c c' : WritableClient ω) : Prop :=
  c'.locked = c.locked ∧ (c.journal.fileBuffer.Consuming → c.journal.Receives c'.journal)

theorem Waits.refl (c : WritableClient ω) : Waits c c := ⟨rfl, fun h => .refl h⟩

theorem Waits.trans (c c' c'' : WritableClient ω) (h : Waits c c') (h' : Waits c' c'') :
    Waits c c'' :=
  ⟨h'.1.trans h.1, fun hc => (h.2 hc).trans (h'.2 (h.2 hc).consuming)⟩

theorem connectionPull_waits (x : Exchange) :
    Keeps Waits (connectionPull x : EStateM Exn (WritableClient ω) Unit) := by
  refine keeps_bind Waits.trans (keeps_modify fun c =>
    ⟨rfl, fun h => transfers_receive x.transfers h⟩) fun _ => ?_
  cases x.reply with
  | ok checkpoint => exact keeps_modify fun c => ⟨rfl, fun h => .refl h⟩
  | error e => exact keeps_throw Waits.refl e

theorem readJournal_waits (r : ReadJournal ω) : Keeps Waits (readJournal r) := by
  intro c
  refine ⟨?_, fun h => ?_⟩
  · cases r with
    | skip => rfl
    | play W =>
        simp only [after, readJournal]
        cases Replay.playUntilCheckpoint W ⟨c.journal, c.database⟩ <;> rfl
  · obtain ⟨hconsuming, hfile, hc, -⟩ := readJournal_file r h
    refine ⟨hconsuming, ?_, ?_⟩
    · rw [Journal.getCheckpoint, Journal.getCheckpoint, hc]
    · rw [hfile]
      exact .refl _ _

theorem startTransaction_waits (r : ReadJournal ω) (x : Exchange) :
    Keeps Waits (startTransaction r x) :=
  keeps_bind Waits.trans (connectionPull_waits x) fun _ => readJournal_waits r

/-! ## The lock -/

/-- A checkpoint that the journal has reached: one that the client knows, or, where others
write as well, one that the header tells. Under its lock, a client knows it. -/
def Reached (c : WritableClient ω) (p : Nat) : Prop :=
  p ≤ c.journal.getCheckpoint ∨ (c.locked = false ∧ c.journal.isShared = true ∧
    Holds (headerWord c.journal.file.data) p)

/-- What the lock leaves of the journal of a client. -/
structure Takes (c c' : WritableClient ω) : Prop where
  locked : c'.locked = c.locked
  finds : c.journal.Finds c'.journal

theorem Takes.refl (c : WritableClient ω) : Takes c c := ⟨rfl, .refl _⟩

theorem tailExclusiveLock_finds : Keeps Finds tailExclusiveLock :=
  keeps_bind Finds.trans (keeps_get Finds.refl) fun _ =>
    keeps_bind Finds.trans (keeps_when Finds.refl (keeps_throw Finds.refl _)) fun _ =>
      finds_lockPull

theorem getTailLock_takes (x : Exchange) :
    Keeps Takes (getTailLock x : EStateM Exn (WritableClient ω) Unit) := by
  have htrans : ∀ a b c : WritableClient ω, Takes a b → Takes b c → Takes a c :=
    fun _ _ _ h h' => ⟨h'.locked.trans h.locked, h.finds.trans _ _ _ h'.finds⟩
  refine keeps_bind htrans (keeps_get Takes.refl) fun c => keeps_bind htrans
    (keeps_when Takes.refl (keeps_throw Takes.refl _)) fun _ => keeps_bind htrans ?_ fun _ => ?_
  · intro c
    have hjournal : after (onJournal tailExclusiveLock) c
        = { c with journal := after tailExclusiveLock c.journal } := after_onPart _ c
    rw [hjournal]
    exact ⟨rfl, tailExclusiveLock_finds c.journal⟩
  · cases x.mismatch with
    | none => exact keeps_pure Takes.refl ()
    | some e => exact keeps_throw Takes.refl e

theorem lockPull_error {j j' : Journal} {e : Exn} (h : lockPull j = .error e j') : j' = j := by
  rw [lockPull, get_bind_run] at h
  split at h
  · unfold pullWithoutLocking at h
    simp only [] at h
    split at h
    · cases h
    · exact (EStateM.Result.error.inj h).2.symm
  · cases h

theorem tailExclusiveLock_error {j j' : Journal} {e : Exn}
    (h : tailExclusiveLock j = .error e j') : j' = j := by
  rw [tailExclusiveLock, get_bind_run] at h
  by_cases hpos : j.getPosition > j.getCheckpoint
  · rw [when_pos hpos] at h
    exact (EStateM.Result.error.inj h).2.symm
  · rw [when_neg hpos] at h
    exact lockPull_error h

/-- When there is no lock, there may be something to write. -/
theorem getTailLock_error {x : Exchange} {e : Exn} (h : c.journal.Guarded)
    (hlock : getTailLock x c = .error e c') : c'.journal.Guarded := by
  rw [getTailLock, get_bind_run] at hlock
  by_cases hahead : c.journal.getCheckpoint > c.connectionCheckpoint
  · rw [when_pos hahead] at hlock
    obtain ⟨-, rfl⟩ := EStateM.Result.error.inj hlock
    exact h
  · rw [when_neg hahead, pure_bind_run] at hlock
    cases htail : tailExclusiveLock c.journal with
    | error e' j =>
        have hon : (onJournal tailExclusiveLock : EStateM Exn (WritableClient ω) Unit) c
            = .error e' { c with journal := j } := onPart_error htail
        rw [bind_error hon] at hlock
        obtain ⟨-, rfl⟩ := EStateM.Result.error.inj hlock
        show Guarded j
        rw [tailExclusiveLock_error htail]
        exact h
    | ok a j =>
        have hon : (onJournal tailExclusiveLock : EStateM Exn (WritableClient ω) Unit) c
            = .ok a { c with journal := j } := onPart_ok htail
        have hbuffer := (tailExclusiveLock_finds.ok htail).buffer
        rw [bind_ok hon] at hlock
        rw [tailExclusiveLock, get_bind_run] at htail
        have hpos := (guard_bind_eq_ok.mp htail).1
        have hconsuming : j.fileBuffer.Consuming := by
          rw [hbuffer]
          exact h.consuming (Nat.not_lt.mp hpos)
        cases hx : x.mismatch with
        | none =>
            rw [hx] at hlock
            cases hlock
        | some e' =>
            rw [hx] at hlock
            obtain ⟨-, rfl⟩ := EStateM.Result.error.inj hlock
            exact .inl hconsuming

/-- A client that has its lock has nothing to write, and knows what the header tells. -/
theorem getTailLock_ok {x : Exchange} (h : c.journal.Guarded)
    (hlock : getTailLock x c = .ok () c') :
    c'.journal.fileBuffer.Consuming ∧
      ∀ p, c.Reached p → p ≤ c'.journal.getCheckpoint ∨ p ≤ headerSize := by
  have htakes := (getTailLock_takes x).ok hlock
  rw [getTailLock, get_bind_run] at hlock
  obtain ⟨-, hlock⟩ := guard_bind_eq_ok.mp hlock
  obtain ⟨⟨⟩, c₁, hon, hend⟩ := bind_eq_ok hlock
  have hsame : c' = c₁ := by
    cases hx : x.mismatch with
    | none =>
        rw [hx] at hend
        exact (EStateM.Result.ok.inj hend).2.symm
    | some e =>
        rw [hx] at hend
        cases hend
  subst hsame
  obtain ⟨j, htail, rfl⟩ := onPart_eq_ok hon
  rw [tailExclusiveLock, get_bind_run] at htail
  obtain ⟨hpos, hpull⟩ := guard_bind_eq_ok.mp htail
  refine ⟨?_, fun p hp => ?_⟩
  · rw [htakes.finds.buffer]
    exact h.consuming (Nat.not_lt.mp hpos)
  · rcases hp with hknown | ⟨-, hshared, htold⟩
    · exact .inl (Nat.le_trans hknown htakes.finds.checkpoint_le)
    · exact le_of_lockPull hshared htold hpull

/-! ## What a call leaves -/

/-- What holds of a client between its calls. -/
structure Inv (c : WritableClient ω) : Prop where
  guarded : c.journal.Guarded
  working : c.locked = true → c.journal.Working

/-- What a call of the client does. -/
structure Effect (c c' : WritableClient ω) : Prop where
  inv : c'.Inv
  same : ∀ p, c.Reached p → SameUpTo p c.journal.file.data c'.journal.file.data

/-- What writes nothing. -/
theorem Inv.idle (h : c.Inv) (hj : c'.journal = c.journal) (hlocked : c'.locked = true →
    c.locked = true) : Effect c c' := by
  refine ⟨⟨?_, fun hl => ?_⟩, fun p _ => ?_⟩
  · rw [hj]; exact h.guarded
  · rw [hj]; exact h.working (hlocked hl)
  · rw [hj]; exact .refl _ _

/-- Whatever comes behind the lock, as long as it only receives. -/
theorem waits_effect (h : c.Inv) (hlocked : c.locked = false) (x : Exchange)
    {m : EStateM Exn (WritableClient ω) α} (hm : Keeps Waits m) :
    Effect c (after (getTailLock x >>= fun _ => m) c) ∧
      (after (getTailLock x >>= fun _ => m) c).locked = false := by
  cases hlock : getTailLock x c with
  | error e c₁ =>
      have htakes := (getTailLock_takes x).error hlock
      have hfile : c₁.journal.file = c.journal.file := congrArg (·.file) htakes.finds.buffer
      have hno : c₁.locked = false := htakes.locked.trans hlocked
      rw [after_error (bind_error hlock)]
      refine ⟨⟨⟨?_, fun hyes => by rw [hno] at hyes; cases hyes⟩, fun p _ => ?_⟩, hno⟩
      · exact getTailLock_error h.guarded hlock
      · rw [hfile]
        exact .refl _ _
  | ok a c₁ =>
      have htakes := (getTailLock_takes x).ok hlock
      have hfile : c₁.journal.file = c.journal.file := congrArg (·.file) htakes.finds.buffer
      obtain ⟨hconsuming, hreached⟩ := getTailLock_ok h.guarded hlock
      obtain ⟨hsame, hreceives⟩ := hm c₁
      have hr := hreceives hconsuming
      have hrun : after (getTailLock x >>= fun _ => m) c = after m c₁ := by
        unfold after
        rw [bind_ok hlock]
      rw [hrun]
      have hno : (after m c₁).locked = false := hsame.trans (htakes.locked.trans hlocked)
      refine ⟨⟨⟨.inl hr.consuming, fun hyes => by rw [hno] at hyes; cases hyes⟩, fun p hp => ?_⟩,
        hno⟩
      have hkept := hr.same
      rw [hfile] at hkept
      rcases hreached p hp with hle | hheader
      · exact hkept.mono hle
      · exact hkept.of_header hheader

/-- Read to its end under the lock, a journal is ready to be written. -/
theorem lock_effect (h : c.Inv) (hlocked : c.locked = false) (r : ReadJournal ω) (x : Exchange) :
    Effect c (after (lock r x) c) := by
  obtain ⟨heffect, hno⟩ := waits_effect h hlocked x (startTransaction_waits r x)
  cases hstart : (getTailLock x >>= fun _ => startTransaction r x : EStateM Exn _ Unit) c with
  | error e c₁ =>
      have hrun : lock r x c = .error e c₁ := by
        rw [lock, ← bind_assoc]
        exact bind_error hstart
      rw [after_error hstart] at heffect
      rw [after_error hrun]
      exact heffect
  | ok a c₁ =>
      have hrun : lock r x c = .ok () { c₁ with locked := true } := by
        rw [lock, ← bind_assoc]
        exact bind_ok hstart
      rw [after_ok hstart] at heffect
      rw [after_ok hrun]
      obtain ⟨⟨⟩, c₂, hlock, htransaction⟩ := bind_eq_ok hstart
      obtain ⟨⟨⟩, c₃, hpull, hread⟩ := bind_eq_ok htransaction
      have hconsuming := (getTailLock_ok h.guarded hlock).1
      have hreceived := ((connectionPull_waits x).ok hpull).2 hconsuming
      have hworking := readJournal_working r hreceived.consuming hread
      exact ⟨⟨heffect.inv.guarded, fun _ => hworking⟩, heffect.same⟩

theorem pull_effect (h : c.Inv) (hlocked : c.locked = false) (r : ReadJournal ω) (x : Exchange) :
    Effect c (after (pull r x) c) := by
  have hwaits : Keeps Waits (do
      connectionPull x
      readJournal r
      return (← get).journal.getCheckpoint - c.journal.getCheckpoint :
        EStateM Exn (WritableClient ω) Nat) :=
    keeps_bind Waits.trans (connectionPull_waits x) fun _ =>
      keeps_bind Waits.trans (readJournal_waits r) fun _ =>
        keeps_bind Waits.trans (keeps_get Waits.refl) fun _ => keeps_pure Waits.refl _
  exact (waits_effect h hlocked x hwaits).1

/-- What a client does while it has its lock. -/
theorem grows_effect (h : c.locked = true) (hj : c.journal.Grows c'.journal) : Effect c c' := by
  refine ⟨⟨.inr hj.working, fun _ => hj.working⟩, fun p hp => ?_⟩
  rcases hp with hle | ⟨hno, -, -⟩
  · exact hj.same.mono hle
  · rw [h] at hno
    cases hno

theorem working_soft {j : Journal} (h : j.Working) :
    j.Grows j.softCheckpoint ∧ j.getCheckpoint ≤ j.softCheckpoint.getCheckpoint := by
  refine ⟨h.softCheckpointAt (Nat.le_refl _), ?_⟩
  rw [softCheckpoint]
  rcases Nat.lt_or_ge j.getCheckpoint j.getPosition with hlt | hge
  · rw [softCheckpointAt_of_lt hlt]
    exact Nat.le_of_lt hlt
  · rw [softCheckpointAt_of_le hge]

theorem doCheckpoint_effect (h : c.Inv) (hlocked : c.locked = true) (now : BitVec 64) :
    Effect c (c.doCheckpoint now) := by
  have hwrite : ∀ {j : Journal} (b : Bool) (op : Op), j.Working →
      j.Grows (if b then j.perform op else j) ∧
        j.getCheckpoint ≤ (if b then j.perform op else j).getCheckpoint := by
    intro j b op hj
    cases b with
    | true =>
        have hperform := perform_performs hj.writing op
        refine ⟨hj.writes hperform.appends hperform.checkpoints, Nat.le_of_eq ?_⟩
        exact (congrArg Checkpoints.checkpointPosition hperform.checkpoints).symm
    | false => exact ⟨⟨hj, .refl _ _⟩, Nat.le_refl _⟩
  have hj := h.working hlocked
  obtain ⟨hvalid, hle⟩ := hwrite c.useValidData .validData hj
  obtain ⟨hstamp, hle'⟩ := hwrite c.useTimestamp (.timestamp now) hvalid.working
  obtain ⟨hsoft, hle''⟩ := working_soft hstamp.working
  have hthree := (hvalid.trans hstamp hle).trans hsoft (Nat.le_trans hle hle')
  refine grows_effect hlocked ?_
  rw [doCheckpoint]
  simp only []
  cases c.useHardCheckpoint with
  | true =>
      exact hthree.trans (hthree.working.hardCheckpointAt (Nat.le_refl _))
        (Nat.le_trans hle (Nat.le_trans hle' hle''))
  | false => exact hthree

theorem act_effect (h : c.Inv) (hlocked : c.locked = true) {a : Action}
    (ha : ∀ p ∈ a.target, p ≤ c.journal.getPosition) : Effect c (c.act a) :=
  grows_effect hlocked ((h.working hlocked).act ha)

theorem push_effect (h : c.Inv) (reply : Except Exn Nat) : Effect c (after (push reply) c) := by
  cases reply with
  | ok checkpoint => exact h.idle rfl fun hl => hl
  | error e => exact h.idle rfl fun hl => hl

/-- It writes into the header. -/
theorem touch_effect (h : c.Inv) : Effect c c.touch := by
  refine ⟨⟨?_, fun hl => ?_⟩, fun p _ => ?_⟩
  · rcases h.guarded with hconsuming | hworking
    · exact .inl ⟨hconsuming.index_le, hconsuming.size_le⟩
    · exact .inr ⟨⟨hworking.writing.noRead, hworking.writing.index_le,
        hworking.writing.index_lt⟩, hworking.checkpoint_le⟩
  · have hworking := h.working hl
    exact ⟨⟨hworking.writing.noRead, hworking.writing.index_le, hworking.writing.index_lt⟩,
      hworking.checkpoint_le⟩
  · exact .pwrite_header (by decide) _ _

/-! ## Opening and closing -/

theorem repairs_sameUpTo (header : Header) (size : Nat) (l : List Nat) (hl : ∀ i ∈ l, i < 4)
    {j : Journal} (h : j.fileBuffer.Consuming) :
    (l.foldl (repairWord header size) j).fileBuffer.Consuming ∧
      ∀ stop, SameUpTo stop j.file.data (l.foldl (repairWord header size) j).file.data := by
  induction l generalizing j with
  | nil => exact ⟨h, fun stop => .refl _ _⟩
  | cons i l ih =>
      have hone : (repairWord header size j i).fileBuffer.Consuming ∧
          ∀ stop, SameUpTo stop j.file.data (repairWord header size j i).file.data := by
        rw [repairWord]
        split
        · exact ⟨⟨h.index_le, h.size_le⟩, fun stop => File.pwrite_word_sameUpTo j.file
            (hl i (List.mem_cons_self ..)) _ stop⟩
        · exact ⟨h, fun stop => .refl _ _⟩
      obtain ⟨hconsuming, hsame⟩ := ih (fun k hk => hl k (List.mem_cons_of_mem _ hk)) hone.1
      exact ⟨hconsuming, fun stop => (hone.2 stop).trans (hsame stop)⟩

/-- An opening writes into the header, if it writes. -/
theorem openWritable_sameUpTo {file : File} {recovery : Recovery} {j : Journal}
    (hopen : openWritable file recovery = .ok j) :
    j.fileBuffer.Consuming ∧ ∀ stop, SameUpTo stop file.data j.file.data := by
  by_cases hne : file.data = []
  · have hmode : file.isReadonly = false := Bool.eq_false_iff.mpr fun hread => by
      rw [openWritable] at hopen
      split at hopen
      · cases hopen
      · rw [if_pos hread] at hopen; cases hopen
    obtain ⟨j', hopen', -, -, -, -, -, -, hidle, -⟩ := openWritable_new hne hmode recovery
    rw [hopen] at hopen'
    obtain rfl := Except.ok.inj hopen'
    refine ⟨hidle.consuming, fun stop => ⟨?_, fun k _ _ hk => ?_⟩⟩
    · rw [hne]; exact Nat.zero_le _
    · rw [hne] at hk; exact absurd hk (Nat.not_lt_zero _)
  · obtain ⟨j₀, hread, rfl⟩ := Monotone.openWritable_repairs hne hopen
    obtain ⟨-, -, hbuffer⟩ := Monotone.openReadonly_buffer hne hread
    obtain ⟨hidle, -, hfile⟩ := setPosition_idle (create_idle file) headerSize
    have hidle₀ : j₀.fileBuffer.Idle := by rw [hbuffer]; exact hidle
    have hfile₀ : j₀.file = file := by rw [Journal.file, hbuffer]; exact hfile
    obtain ⟨hconsuming, hsame⟩ := repairs_sameUpTo (lockHeader file) file.getSize [0, 1, 2, 3]
      (by decide) hidle₀.consuming
    rw [hfile₀] at hsame
    exact ⟨hconsuming, hsame⟩

/-- What waits in the buffer is written where it waits. -/
theorem close_sameUpTo (j : Journal) {stop : Nat}
    (h : j.fileBuffer.bufferHasWriteData = true → stop ≤ j.fileBuffer.position) :
    SameUpTo stop j.file.data j.close.data := by
  rw [close, destroy]
  split
  · next hdata => exact .pwrite_behind (h hdata) _ _
  · exact .refl _ _

/-- A journal that only reads leaves its file when it is closed. -/
theorem close_of_consuming {j : Journal} (h : j.fileBuffer.Consuming) : j.close = j.file := by
  rw [close, destroy, h.noWriteData]
  rfl

theorem construct_effect (r : ReadJournal ω) (file : File) (recovery : Recovery) (w : ω)
    (handshake : Except Exn Nat) :
    match construct r file recovery w handshake with
    | .ok c => c.Inv ∧ ∀ stop, SameUpTo stop file.data c.journal.file.data
    | .error f => ∀ stop, SameUpTo stop file.data f.data := by
  rw [construct]
  cases hopen : openWritable file recovery with
  | error e => exact fun stop => .refl _ _
  | ok j =>
      obtain ⟨hconsuming, hsame⟩ := openWritable_sameUpTo hopen
      cases handshake with
      | error e =>
          intro stop
          show SameUpTo stop file.data j.close.data
          rw [close_of_consuming hconsuming]
          exact hsame stop
      | ok checkpoint =>
          have hread := readJournal_file (c := ⟨j, w, checkpoint, false, false, false, false⟩) r
            hconsuming
          cases hrun : readJournal r ⟨j, w, checkpoint, false, false, false, false⟩ with
          | ok a c =>
              rw [after_ok hrun] at hread
              obtain ⟨hc, hfile, -, hlocked⟩ := hread
              simp only [hrun]
              refine ⟨⟨.inl hc, fun hyes => ?_⟩, fun stop => ?_⟩
              · rw [hlocked] at hyes; cases hyes
              · rw [hfile]; exact hsame stop
          | error e c =>
              rw [after_error hrun] at hread
              obtain ⟨hc, hfile, -, -⟩ := hread
              simp only [hrun]
              intro stop
              rw [close_of_consuming hc, hfile]
              exact hsame stop

/-- Nothing waits in the buffer of a shared file before a checkpoint that the header has come
to tell. -/
def Settled (c : WritableClient ω) : Prop :=
  c.journal.fileBuffer.bufferHasWriteData = true → c.journal.isShared = true →
    ∀ p, Holds (headerWord c.journal.file.data) p → p ≤ c.journal.fileBuffer.position

end WritableClient

/-! ## Runs -/

/-- A local journal, between two clients or with one. -/
inductive LocalJournal (ω : Type) where
  | closed (file : File)
  | opened (c : WritableClient ω)

namespace LocalJournal

open WritableClient

variable {ω : Type}

/-- The bytes of the file. -/
def data : LocalJournal ω → Bytes
  | .closed file => file.data
  | .opened c => c.journal.file.data

/-- A checkpoint that the client knows, or that the header tells when there is no client. -/
def Known : LocalJournal ω → Nat → Prop
  | .closed file, p => Holds (headerWord file.data) p
  | .opened c, p => p ≤ c.journal.getCheckpoint

/-- A checkpoint that the journal has reached. -/
def Reached : LocalJournal ω → Nat → Prop
  | .closed file, p => Holds (headerWord file.data) p
  | .opened c, p => c.Reached p

/-- What a constructor leaves. -/
def constructed : Except File (WritableClient ω) → LocalJournal ω
  | .ok c => .opened c
  | .error file => .closed file

/-- The calls of a client. A checkpoint is for data that was written. A journal
may be opened in another mode than the one before. -/
inductive Step (r : ReadJournal ω) : LocalJournal ω → LocalJournal ω → Prop where
  | construct {file : File} (file' : File) (hfile : file'.data = file.data) (recovery : Recovery)
      (w : ω) (handshake : Except Exn Nat) :
      Step r (.closed file) (constructed (WritableClient.construct r file' recovery w handshake))
  | lock {c : WritableClient ω} (h : c.locked = false) (x : Exchange) :
      Step r (.opened c) (.opened (after (WritableClient.lock r x) c))
  | act {c : WritableClient ω} (h : c.locked = true) (a : Action)
      (ha : ∀ p ∈ a.target, p ≤ c.journal.getPosition) : Step r (.opened c) (.opened (c.act a))
  | database {c : WritableClient ω} (h : c.locked = true) (w : ω) :
      Step r (.opened c) (.opened { c with database := w })
  | doCheckpoint {c : WritableClient ω} (h : c.locked = true) (now : BitVec 64) :
      Step r (.opened c) (.opened (c.doCheckpoint now))
  | push {c : WritableClient ω} (reply : Except Exn Nat) :
      Step r (.opened c) (.opened (after (WritableClient.push reply) c))
  | unlock {c : WritableClient ω} : Step r (.opened c) (.opened c.unlock)
  | pull {c : WritableClient ω} (h : c.locked = false) (x : Exchange) :
      Step r (.opened c) (.opened (after (WritableClient.pull r x) c))
  | touch {c : WritableClient ω} : Step r (.opened c) (.opened c.touch)
  | set {c : WritableClient ω} (validData timestamp hardCheckpoint : Bool) :
      Step r (.opened c) (.opened { c with useValidData := validData
                                           useTimestamp := timestamp
                                           useHardCheckpoint := hardCheckpoint })
  | close {c : WritableClient ω} (h : c.locked = false) :
      Step r (.opened c) (.closed c.journal.close)

/-- What others do to the file, while the client does not have its lock. -/
inductive Others : LocalJournal ω → LocalJournal ω → Prop where
  | closed (file : File) (data : Bytes) : Others (.closed file) (.closed { file with data })
  | opened {c : WritableClient ω} (h : c.locked = false) (hshared : c.journal.isShared = true)
      (data : Bytes) : Others (.opened c)
        (.opened { c with journal := c.journal.withFile { c.journal.file with data } })

inductive Run (r : ReadJournal ω) : LocalJournal ω → LocalJournal ω → Prop where
  | refl (s : LocalJournal ω) : Run r s s
  | step {s s' s'' : LocalJournal ω} (h : Run r s s') (hstep : Step r s' s'') : Run r s s''
  | others {s s' s'' : LocalJournal ω} (h : Run r s s') (ho : Others s' s'') : Run r s s''

/-- Where a closing does no harm. All other calls may come at any time. -/
def Settled : LocalJournal ω → LocalJournal ω → Prop
  | .opened c, .closed _ => c.Settled
  | _, _ => True

/-- What holds between the steps. -/
def Inv : LocalJournal ω → Prop
  | .closed _ => True
  | .opened c => c.Inv

variable {r : ReadJournal ω} {s s' s'' : LocalJournal ω}

theorem Known.reached {p : Nat} (h : s.Known p) : s.Reached p := by
  cases s with
  | closed file => exact h
  | opened c => exact .inl h

/-- One call: what it leaves, what it spares whatever others do, and what it spares when it is
settled. -/
theorem step_effect (h : s.Inv) (hstep : Step r s s') :
    s'.Inv ∧ (∀ p, s.Known p → SameUpTo p s.data s'.data) ∧
      (s.Settled s' → ∀ p, s.Reached p → SameUpTo p s.data s'.data) := by
  have heffect : ∀ {c c' : WritableClient ω}, Effect c c' →
      Inv (.opened c') ∧ (∀ p, Known (.opened c) p → SameUpTo p c.journal.file.data
        c'.journal.file.data) ∧ (Settled (.opened c) (.opened c') → ∀ p, Reached (.opened c) p →
          SameUpTo p c.journal.file.data c'.journal.file.data) :=
    fun heff => ⟨heff.inv, fun p hp => heff.same p (.inl hp), fun _ p hp => heff.same p hp⟩
  cases hstep with
  | @construct file file' hfile recovery w handshake =>
      have hc := construct_effect r file' recovery w handshake
      cases hrun : WritableClient.construct r file' recovery w handshake with
      | ok c =>
          simp only [hrun, hfile] at hc
          exact ⟨hc.1, fun p _ => hc.2 p, fun _ p _ => hc.2 p⟩
      | error f =>
          simp only [hrun, hfile] at hc
          exact ⟨trivial, fun p _ => hc p, fun _ p _ => hc p⟩
  | lock hlocked x => exact heffect (lock_effect h hlocked r x)
  | act hlocked a ha => exact heffect (act_effect h hlocked ha)
  | database hlocked w => exact heffect (Inv.idle h rfl fun hl => hl)
  | doCheckpoint hlocked now => exact heffect (doCheckpoint_effect h hlocked now)
  | push reply => exact heffect (push_effect h reply)
  | unlock => exact heffect (Inv.idle h rfl fun hl => nomatch hl)
  | pull hlocked x => exact heffect (pull_effect h hlocked r x)
  | touch => exact heffect (touch_effect h)
  | set validData timestamp hardCheckpoint => exact heffect (Inv.idle h rfl fun hl => hl)
  | @close c hlocked =>
      have hknown : ∀ p, p ≤ c.journal.getCheckpoint →
          SameUpTo p c.journal.file.data c.journal.close.data := by
        intro p hp
        rcases h.guarded with hconsuming | hworking
        · rw [close_of_consuming hconsuming]
          exact .refl _ _
        · exact close_sameUpTo _ fun _ => Nat.le_trans hp hworking.checkpoint_le
      refine ⟨trivial, hknown, fun hsettled p hp => ?_⟩
      rcases hp with hle | ⟨-, hshared, htold⟩
      · exact hknown p hle
      · exact close_sameUpTo _ fun hdata => hsettled hdata hshared p htold

theorem others_inv (h : s.Inv) (ho : Others s s') : s'.Inv := by
  cases ho with
  | closed file data => trivial
  | @opened c hlocked hshared data =>
      refine ⟨?_, fun hyes => ?_⟩
      · rcases h.guarded with hconsuming | hworking
        · exact .inl ⟨hconsuming.index_le, hconsuming.size_le⟩
        · exact .inr ⟨⟨hworking.writing.noRead, hworking.writing.index_le,
            hworking.writing.index_lt⟩, hworking.checkpoint_le⟩
      · have hyes' : c.locked = true := hyes
        rw [hlocked] at hyes'
        cases hyes'

theorem Run.inv (h : Run r s s') (hs : s.Inv) : s'.Inv := by
  induction h with
  | refl => exact hs
  | step _ hstep ih => exact (step_effect ih hstep).1
  | others _ ho ih => exact others_inv ih ho

/-! ## A transaction is a run -/

/-- The checkpoints of a body are for data that was written. -/
def Allowed (j : Journal) : List Action → Prop
  | [] => True
  | a :: as => (∀ p ∈ a.target, p ≤ j.getPosition) ∧ Allowed (j.act a) as

theorem actions_run (as : List Action) {c : WritableClient ω} (hrun : Run r s (.opened c))
    (hlocked : c.locked = true) (hall : Allowed c.journal as) :
    Run r s (.opened (as.foldl (fun c a => c.act a) c)) ∧
      (as.foldl (fun c a => c.act a) c).locked = true := by
  induction as generalizing c with
  | nil => exact ⟨hrun, hlocked⟩
  | cons a as ih => exact ih (hrun.step (.act hlocked a hall.1)) hlocked hall.2

/-- However it ends, `transaction` does what a `Client_Lock` does call by call. -/
theorem transaction_run {c : WritableClient ω} {x : Exchange} {body : Body ω}
    (hrun : Run r s (.opened c)) (hlocked : c.locked = false)
    (hbody : ∀ c', WritableClient.lock r x c = .ok () c' → Allowed c'.journal body.actions)
    (now : BitVec 64) (reply : Except Exn Nat) :
    Run r s (.opened (after (transaction r x body now reply) c)) := by
  have hstart := hrun.step (.lock (r := r) hlocked x)
  cases hlock : WritableClient.lock r x c with
  | error e c₁ =>
      have hend : transaction r x body now reply c = .error e c₁.unlock := by
        rw [transaction, bind_error hlock]
      rw [after_error hlock] at hstart
      rw [after_error hend]
      exact hstart.step .unlock
  | ok a c₁ =>
      rw [after_ok hlock] at hstart
      have hyes : c₁.locked = true := by
        obtain ⟨⟨⟩, c₀, -, hlast⟩ := bind_eq_ok hlock
        obtain ⟨⟨⟩, c₀', -, hset⟩ := bind_eq_ok hlast
        obtain ⟨-, rfl⟩ := EStateM.Result.ok.inj hset
        rfl
      obtain ⟨hacted, hyes'⟩ := actions_run body.actions hstart hyes (hbody c₁ hlock)
      have hdone := hacted.step (.database hyes' body.database)
      cases hthrown : body.thrown with
      | some e =>
          have hend : transaction r x body now reply c = .error e
              ({ body.actions.foldl (fun c a => c.act a) c₁ with
                database := body.database } : WritableClient ω).unlock := by
            rw [transaction, bind_ok hlock, transactionBody, runBody, hthrown]
            rfl
          rw [after_error hend]
          exact hdone.step .unlock
      | none =>
          have hpushed := (hdone.step (.doCheckpoint (c := { body.actions.foldl
            (fun c a => c.act a) c₁ with database := body.database }) hyes' now)).step
              (.push reply)
          cases reply with
          | ok checkpoint =>
              have hend : after (transaction r x body now (.ok checkpoint)) c = (after
                  (WritableClient.push (.ok checkpoint)) (WritableClient.doCheckpoint now
                    { body.actions.foldl (fun c a => c.act a) c₁ with
                      database := body.database })).unlock := by
                rw [after, transaction, bind_ok hlock, transactionBody, runBody, hthrown]
                rfl
              rw [hend]
              exact hpushed.step .unlock
          | error e =>
              have hend : after (transaction r x body now (.error e)) c = (after
                  (WritableClient.push (.error e)) (WritableClient.doCheckpoint now
                    { body.actions.foldl (fun c a => c.act a) c₁ with
                      database := body.database })).unlock := by
                rw [after, transaction, bind_ok hlock, transactionBody, runBody, hthrown]
                rfl
              rw [hend]
              exact hpushed.step .unlock

/-! ## No call changes what is below the checkpoint -/

/-- In every run, no call changes a byte between the header and the checkpoint that its client
knows. Nor does it change one before any checkpoint that the header tells, if data of a
transaction that threw is not closed into a shared file where others have gone past it. -/
theorem append_only {file : File} (hrun : Run r (.closed file) s) (hstep : Step r s s') :
    (∀ p, s.Known p → SameUpTo p s.data s'.data) ∧
      (s.Settled s' → ∀ p, s.Reached p → SameUpTo p s.data s'.data) :=
  (step_effect (hrun.inv trivial) hstep).2

/-- The first client of a file in memory, or of a shared one. -/
def first (mode : OpenMode) : WritableClient Unit :=
  let j := (Journal.blank ⟨mode, .whole, [], []⟩).put (·.iteratorWrite Header.initial.bytes)
  ⟨j.skipDirectlyTo 41, (), 41, false, false, false, false⟩

/-- It pulls nothing, writes one operation, and throws or does not. -/
def oneOperation (thrown : Option Exn) (c : WritableClient Unit) : WritableClient Unit :=
  after (transaction .skip ⟨none, [], .ok c.connectionCheckpoint⟩
    ⟨[.perform .validData], (), thrown⟩ 0 (.ok (c.connectionCheckpoint + 1))) c

theorem first_run (mode : OpenMode) (hmode : mode ≠ .readExisting) :
    Run .skip (.closed ⟨mode, .whole, [], []⟩) (.opened (first mode)) := by
  have hstep : Step .skip (.closed ⟨mode, .whole, [], []⟩) (constructed
      (WritableClient.construct .skip ⟨mode, .whole, [], []⟩ .none () (.ok 41))) :=
    .construct _ rfl .none () (.ok 41)
  have hconstruct : WritableClient.construct (.skip : ReadJournal Unit)
      ⟨mode, .whole, [], []⟩ .none () (.ok 41) = .ok (first mode) := by
    cases mode with
    | readExisting => exact absurd rfl hmode
    | _ => rfl
  rw [hconstruct] at hstep
  exact (Run.refl _).step hstep

theorem oneOperation_run {s : LocalJournal Unit} {c : WritableClient Unit}
    (hrun : Run .skip s (.opened c)) (hlocked : c.locked = false) (thrown : Option Exn) :
    Run .skip s (.opened (oneOperation thrown c)) := by
  refine transaction_run hrun hlocked (fun c' _ => ?_) _ _
  exact ⟨fun p hp => (nomatch hp), trivial⟩

/-- A transaction that throws behind one that does not, and then the end of the client. -/
theorem append_only_aborted : SameUpTo 42
    (oneOperation (some .lengthError) (oneOperation none (first .createNew))).journal.file.data
    (oneOperation (some .lengthError) (oneOperation none
      (first .createNew))).journal.close.data := by
  have hrun := oneOperation_run (oneOperation_run (first_run .createNew (by decide)) rfl none)
    (by decide +kernel) (some .lengthError)
  exact (append_only hrun (.close (by decide +kernel))).1 42 (by
    show 42 ≤ Journal.getCheckpoint _
    decide +kernel)

/-- What another client has made of the file in the meantime. -/
def otherData : Bytes :=
  ((((Journal.blank ⟨.sharedWrite, .whole, Header.initial.bytes, []⟩).skipDirectlyTo 41).perform
    (.dropTable 0)).softCheckpoint).file.data

/-- The client whose transaction threw, with the file as it is by now. -/
def overtaken : WritableClient Unit :=
  let c := oneOperation (some .lengthError) (first .sharedWrite)
  { c with journal := c.journal.withFile { c.journal.file with data := otherData } }

/-- On a shared file, the data of a transaction that threw is written when the client ends, and
falls on what another has committed. -/
theorem closed_over_others : ∃ s s' : LocalJournal Unit,
    Run .skip (.closed ⟨.sharedWrite, .whole, [], []⟩) s ∧ Step .skip s s' ∧
      ∃ p, s.Reached p ∧ ¬ SameUpTo p s.data s'.data := by
  have hrun := oneOperation_run (first_run .sharedWrite (by decide)) rfl (some .lengthError)
  refine ⟨.opened overtaken, .closed overtaken.journal.close, hrun.others
    (.opened (by decide +kernel) (by decide +kernel) otherData), .close (by decide +kernel), 43,
    .inr ⟨by decide +kernel, by decide +kernel, .inr (.inr ⟨by decide, true, true, ?_⟩)⟩,
    fun hsame => ?_⟩
  · decide +kernel
  · have hbyte := hsame.same 41 (by decide) (by decide) (by
      show 41 < otherData.length
      decide +kernel)
    exact absurd hbyte (show ¬ overtaken.journal.close.data[41]?
      = overtaken.journal.file.data[41]? by decide +kernel)

end LocalJournal

end Joedb
