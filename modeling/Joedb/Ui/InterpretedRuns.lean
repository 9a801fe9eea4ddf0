import Joedb.Journal.Reencoding
import Joedb.Journal.Sharing
import Joedb.Ui.InterpretedFile
import Joedb.Ui.Said

/-!
# A file of text that is edited

What a user has checkpointed is in the text, in the order in which it was done, and an empty line
behind it. Two journals are at work, so this is about what the one inside knows of the other. Writes
of data tell it nothing. The one word of a soft checkpoint and the second word of a hard one come
when everything behind them is in the file, and then it plays on to the checkpoint and is level with
the user. The first word of a hard checkpoint is half of a pair: the pair that was is still there,
and nothing is found ahead.

The way back is the interpreter's, which makes a journal of a text that the dump has made. So a text
that is closed and opened again gives the same operations, and the same bytes behind a header that
may be another one.
-/

namespace Joedb

open ByteFile StateExcept FileBuffer Replay

/-! ## The header between the two words of a hard checkpoint -/

/-- The hard checkpoint that was is still there. -/
theorem hardAgrees_torn {w : Nat → Int} {c : Checkpoints} (h : Agrees w c) (p : Int) :
    HardAgrees (setWord w (wordIndex (!c.hardIndex) false) p) c := by
  refine ⟨h.header_le, fun _ j => ?_, fun i => ?_⟩
  · rw [setWord_pair_of_ne w (.inl (by simp)), h.pair j]
  · rw [setWord_pair_of_ne w (.inr Bool.noConfusion)]
    exact h.second i

/-- Who knew the checkpoint learns nothing. -/
theorem readCheckpoint_torn {w w' : Nat → Int} {b c : Checkpoints} (h : Agrees w c) {p : Nat}
    (hb : Sharing.Behind b c)
    (hw : ∀ k < 4, w' k = setWord w (wordIndex (!c.hardIndex) false) p k) :
    (b.readCheckpoint w' (-1)).hardCheckpointPosition = c.hardCheckpointPosition ∧
      b.checkpointPosition ≤ (b.readCheckpoint w' (-1)).checkpointPosition ∧
      (b.readCheckpoint w' (-1)).checkpointPosition ≤ c.checkpointPosition := by
  have hmax := h.lt_max
  have hhard := (Checkpoints.readCheckpoint_hardAgrees (n := -1) ((hardAgrees_torn h p).congr hw)
    hb.hard_le hb.header_le_hard (Nat.lt_of_lt_of_le (by decide) hb.header_le)).1
  refine ⟨hhard, ?_, Checkpoints.readCheckpoint_le (fun i j _ => neg_le ?_ hmax) hb.le
    (hhard ▸ h.hard_le)⟩
  · have hfirst := Checkpoints.le_readPair_cp (w := w') (n := -1) false b
    have hsecond := Checkpoints.le_readPair_cp (w := w') (n := -1) true
      (b.readPair w' (-1) false)
    rw [Checkpoints.readCheckpoint_cp]
    omega
  · rw [hw _ (wordIndex_lt i j)]
    by_cases hi : i = c.hardIndex
    · rw [hi, setWord_pair_of_ne w (.inl (by simp)), h.pair j]
      omega
    · obtain rfl := Bool.eq_not.mpr hi
      cases j with
      | false => rw [setWord_pair_self]; omega
      | true =>
          rw [setWord_pair_of_ne w (.inr Bool.noConfusion)]
          exact h.soft_le true

theorem Database.Proper.callAll {ops : List Op} {db db' : Database} (h : db.Proper)
    (hrun : Database.asWritable.callAll ops db = .ok () db') : db'.Proper := by
  induction ops generalizing db with
  | nil =>
      obtain rfl := (EStateM.Result.ok.inj hrun).2
      exact h
  | cons op ops ih =>
      obtain ⟨_, db₁, hop, hops⟩ := bind_eq_ok hrun
      exact ih (h.call hop) hops

theorem Database.readable_of_callAll {ops : List Op} {db db' : Database} (h : db.Proper)
    (hrun : Database.asWritable.callAll ops db = .ok () db') : ∀ op ∈ ops, op.Readable := by
  induction ops generalizing db with
  | nil => exact fun op hop => nomatch hop
  | cons op ops ih =>
      obtain ⟨_, db₁, hop, hops⟩ := bind_eq_ok hrun
      exact List.forall_mem_cons.mpr ⟨(Database.hear_of_call h.sound hop).2, ih (h.call hop) hops⟩

theorem encodeAll_ne_nil (c : Context) {ops : List Op} (h : ops ≠ []) : encodeAll c ops ≠ [] := by
  cases ops with
  | nil => exact absurd rfl h
  | cons op ops => exact List.cons_ne_nil _ _

theorem length_wiresBytes_pos {ws : List Wire} (h : ws ≠ []) : 0 < (wiresBytes ws).length := by
  cases ws with
  | nil => exact absurd rfl h
  | cons w ws =>
      rw [wiresBytes_cons, List.length_append]
      exact Nat.lt_of_lt_of_le (length_wire_pos w) (Nat.le_add_right _ _)

theorem Database.callEach_taken {ops : List Op} {db db' : Database}
    (hrun : Database.asWritable.callAll ops db = .ok () db') : db.callEach ops = db' := by
  induction ops generalizing db with
  | nil => exact (EStateM.Result.ok.inj hrun).2
  | cons op ops ih =>
      obtain ⟨_, db₁, hop, hops⟩ := bind_eq_ok hrun
      have hop : Database.call op db = .ok () db₁ := hop
      rw [callEach, List.foldl_cons, after_ok hop]
      exact ih hops

/-! ## Calls -/

/-- A pull reads four words. -/
theorem Journal.pull_run {j : Journal} (hlen : headerSize ≤ j.file.data.length) :
    ∃ w, (∀ k < 4, w k = headerWord j.file.data k) ∧
      j.pull = .ok ((j.checkpoints.readCheckpoint w (-1)).checkpointPosition - j.getCheckpoint)
        { j with checkpoints := j.checkpoints.readCheckpoint w (-1) } := by
  have hlen' : 0 + 32 ≤ j.file.data.length := by rw [headerSize] at hlen; omega
  have hread : j.file.fullPread 32 0 = (slice j.file.data 0 32, true) := by
    rw [File.fullPread_eq]
    exact Prod.ext rfl (decide_eq_true (.inr hlen'))
  have hpull : j.pullWithoutLocking = .ok () { j with
      checkpoints := j.checkpoints.readCheckpoint (headerWord (slice j.file.data 0 32)) (-1) } := by
    rw [pullWithoutLocking, hread]
    rfl
  refine ⟨headerWord (slice j.file.data 0 32), fun k hk => ?_, ?_⟩
  · rw [headerWord, slice_slice (by omega), Nat.zero_add, Nat.zero_add, headerWord]
  · rw [pull, get_bind_run, bind_ok hpull]
    rfl

namespace InterpretedFile

variable {X : Surroundings} {f f' : InterpretedFile}

/-- Behind the header there is nothing to be told. -/
theorem answerAll_data {off : Nat} (hoff : headerSize ≤ off) (cs : List Bytes) :
    ∀ f : InterpretedFile, ∃ file, answerAll X (File.callsAt off cs) f = .ok () (f.withFile file) ∧
      file.data = (File.callsAt off cs).foldl Call.apply f.journal.file.data := by
  induction cs generalizing off with
  | nil => exact fun f => ⟨f.journal.file, rfl, rfl⟩
  | cons c cs ih =>
      intro f
      have hcall : answer X (.pwrite off c) f
          = .ok () (f.withFile (f.journal.file.pwrite off c)) := by
        show pwrite X off c f = _
        rw [pwrite, modify_bind_run, when_neg (Nat.not_lt.mpr hoff)]
        rfl
      obtain ⟨file, hcalls, hdata⟩ := ih (Nat.le_trans hoff (Nat.le_add_right _ c.length))
        (f.withFile (f.journal.file.pwrite off c))
      refine ⟨file, ?_, hdata⟩
      rw [File.callsAt, answerAll, bind_ok hcall, hcalls]
      rfl

/-- The journal inside after a pull, on another content of its file. -/
def learned (f : InterpretedFile) (file : File) (c : Checkpoints) : InterpretedFile :=
  { f with journal := { f.journal.withFile file with checkpoints := c } }

/-- A write to the header, and what the journal inside makes of it. -/
theorem pwrite_header {off : Nat} (bytes : Bytes) (hoff : off < headerSize)
    (hlen : headerSize ≤ f.journal.file.data.length) :
    ∃ w, (∀ k < 4, w k = headerWord (ByteFile.pwrite f.journal.file.data off bytes) k) ∧
      pwrite X off bytes f = when ((f.journal.checkpoints.readCheckpoint w (-1)).checkpointPosition
          - f.journal.getCheckpoint ≠ 0) (play X)
        (f.learned (f.journal.file.pwrite off bytes)
          (f.journal.checkpoints.readCheckpoint w (-1))) := by
  have hdata : headerSize ≤ (f.journal.file.pwrite off bytes).data.length :=
    Nat.le_trans hlen (length_le_pwrite _ _ _)
  obtain ⟨w, hw, hpull⟩ := Journal.pull_run
    (j := f.journal.withFile (f.journal.file.pwrite off bytes)) hdata
  refine ⟨w, hw, ?_⟩
  rw [pwrite, modify_bind_run, when_pos hoff]
  have hrun : onJournal Journal.pull (f.withFile (f.journal.file.pwrite off bytes))
      = .ok _ (f.learned _ _) := onPart_ok hpull
  exact bind_ok hrun

/-! ## What is in the text -/

/-- A text that is the dump of operations, with an empty line at its end, and the database after
them. -/
structure Dumps (X : Surroundings) (text : Bytes) (ops : List Op) (db : Database) : Prop where
  told : ∃ told, Told.ops true told = ops ∧
    Told.tellAll (InterpreterDump.writingMultiplexer X.floatText) told (.create (-1))
      = .ok () ⟨db, text⟩ ∧ (told = [] ∨ ∃ told', told = told' ++ [.softCheckpoint])
  taken : Database.asWritable.callAll ops (.create (-1)) = .ok () db

/-- The text says the operations, and the journal inside stands behind them. -/
structure Holds (X : Surroundings) (f : InterpretedFile) (ops : List Op) : Prop where
  dumps : Dumps X f.text ops f.db
  seen : f.seen = f.text.length
  lastLineEmpty : f.lastLineEmpty = true
  idle : f.journal.fileBuffer.Idle
  position : f.journal.getPosition = f.journal.getCheckpoint
  checkpoint : f.journal.getCheckpoint = headerSize + (wiresBytes (encodeAll .reset ops)).length
  context : f.journal.context = contextAfter .reset ops

variable {ops more : List Op} {db' : Database}

theorem Holds.learned (h : f.Holds X ops) (file : File) {c : Checkpoints}
    (hc : c.checkpointPosition = f.journal.getCheckpoint) : (f.learned file c).Holds X ops where
  dumps := h.dumps
  seen := h.seen
  lastLineEmpty := h.lastLineEmpty
  idle := ⟨h.idle.noRead, h.idle.noIndex⟩
  position := h.position.trans hc.symm
  checkpoint := hc.trans h.checkpoint
  context := h.context

theorem mainLoop_nil {σ : Type} {T : Target σ} {rethrow : Bool} (depth : Nat) (s : Shell σ) :
    Shell.mainLoop T X rethrow depth [] s = .ok () s := by
  obtain ⟨includeText, hloop⟩ := Shell.mainLoop_eq T X rethrow depth
  rw [hloop]
  rfl

/-- A lock reads nothing. -/
theorem Holds.readData (h : f.Holds X ops) : readData X f = .ok () f := by
  have hrest : f.text.drop f.seen = [] := by rw [h.seen, List.drop_length]
  have hsoft : f.journal.softCheckpoint = f.journal :=
    Journal.softCheckpointAt_of_le (Nat.le_of_eq h.position)
  rw [InterpretedFile.readData, hrest, mainLoop_nil]
  simp only [h.lastLineEmpty, Bool.true_eq_false, if_false, hsoft, ← h.seen]
  rw [← h.lastLineEmpty]

theorem play_ok {t : Replay InterpreterDump}
    (h : playUntilCheckpoint (InterpreterDump.writingMultiplexer X.floatText)
      ⟨f.journal, ⟨f.db, f.text⟩⟩ = .ok () t) :
    InterpretedFile.play X f = .ok () ⟨t.writable.out, t.writable.out.length, t.journal,
      t.writable.schema, f.lastLineEmpty⟩ := by
  rw [InterpretedFile.play, h]

/-- What the journal inside plays is told. -/
theorem Holds.play (h : f.Holds X ops) (file : File) {c : Checkpoints}
    (hfit : ∀ op ∈ more, op.Fits) (hsay : Database.SayAll (-1) more f.db)
    (htaken : Database.asWritable.callAll more f.db = .ok () db')
    (hc : c.checkpointPosition
      = headerSize + (wiresBytes (encodeAll .reset (ops ++ more))).length)
    (hahead : f.journal.getCheckpoint < c.checkpointPosition)
    (hbody : wiresBytes (encodeAll (contextAfter .reset ops) more)
      <+: file.data.drop f.journal.getCheckpoint) :
    ∃ f', InterpretedFile.play X (f.learned file c) = .ok () f' ∧ f'.Holds X (ops ++ more) ∧
      f'.journal.file = file ∧ f'.journal.checkpoints = c := by
  obtain ⟨told, hops, htold, -⟩ := h.dumps.told
  have hproper : f.db.Proper := (Database.proper_create (-1)).callAll h.dumps.taken
  obtain ⟨j, hj⟩ : ∃ j, (f.learned file c).journal = j := ⟨_, rfl⟩
  have hidle : j.fileBuffer.Idle := hj ▸ ⟨h.idle.noRead, h.idle.noIndex⟩
  have hposition : j.getPosition = f.journal.getCheckpoint := hj ▸ h.position
  have hcontext : j.context = contextAfter .reset ops := hj ▸ h.context
  have hjc : j.checkpoints = c := hj ▸ rfl
  have hjcp : j.getCheckpoint = c.checkpointPosition := congrArg Checkpoints.checkpointPosition hjc
  have hjfile : j.file = file := hj ▸ rfl
  have hstretch : j.getCheckpoint
      = j.getPosition + (wiresBytes (encodeAll j.context more)).length := by
    rw [hjcp, hc, encodeAll_append, wiresBytes_append, List.length_append, ← Nat.add_assoc,
      ← h.checkpoint, ← hposition, ← hcontext]
  rw [← hposition, ← hcontext, ← hjfile] at hbody
  rw [← hposition, ← hjcp] at hahead
  obtain ⟨told', out, hops', hlisten, htold'⟩ := InterpreterDump.listenFrom_told
    (F := X.floatText) hproper hfit hsay htaken j.getPosition j.context f.text
  have hstart : (InterpreterDump.writingMultiplexer X.floatText).startWriting j.getPosition
      ⟨f.db, f.text⟩ = .ok () ⟨f.db, f.text⟩ := rfl
  have hstop : (InterpreterDump.writingMultiplexer X.floatText).softCheckpoint ⟨db', out⟩
      = .ok () ⟨db', out ++ InterpreterWritable.softCheckpoint⟩ := rfl
  obtain ⟨b, hfile, hidle', hposition', hplay⟩ := playUntilCheckpoint_listens
    (W := InterpreterDump.writingMultiplexer X.floatText) (fun _ => rfl)
    (encodeAll_fits hfit _) hidle.reading hstretch hahead hbody hstart hlisten rfl hstop
  rw [decodeAll_encodeAll, hjc] at hplay
  refine ⟨⟨out ++ InterpreterWritable.softCheckpoint,
    (out ++ InterpreterWritable.softCheckpoint).length, ⟨b, c, contextAfter j.context more⟩,
    db', f.lastLineEmpty⟩, ?_, ?_, hfile.trans hjfile, rfl⟩
  · subst hj
    exact play_ok hplay
  · refine ⟨⟨⟨told ++ told' ++ [.softCheckpoint], ?_, ?_, .inr ⟨_, rfl⟩⟩, ?_⟩, rfl,
      h.lastLineEmpty, hidle', ?_, ?_, ?_⟩
    · rw [Told.ops_append, Told.ops_append, hops, hops']
      exact List.append_nil _
    · have hboth : Told.tellAll (InterpreterDump.writingMultiplexer X.floatText) (told ++ told')
          (.create (-1)) = .ok () ⟨db', out⟩ := by
        rw [Told.tellAll_append, bind_ok htold, htold']
      rw [Told.tellAll_append, bind_ok hboth]
      exact bind_ok hstop
    · rw [Writable.callAll_append _ h.dumps.taken, htaken]
    · exact hidle'.getPosition.trans (hposition'.trans hjcp)
    · exact hc
    · rw [contextAfter_append, hcontext]

/-- A write that completes a header, with all that is behind it in place. -/
theorem Holds.arrive {history : History} {k : Nat} (hf : f.Holds X (history.ops.take k))
    (h : history.Good) (hall : history.checkpointed = history.ops.length)
    (hsay : Database.SayAll (-1) history.ops (.create (-1)))
    (htaken : Database.asWritable.callAll history.ops (.create (-1)) = .ok () db') {off : Nat}
    {bytes : Bytes} (hoff : off < headerSize) (hlen : headerSize ≤ f.journal.file.data.length)
    (hdata : ByteFile.pwrite f.journal.file.data off bytes = history.journal.file.data)
    (hbehind : Sharing.Behind f.journal.checkpoints history.journal.checkpoints) :
    ∃ f', pwrite X off bytes f = .ok () f' ∧ f'.Holds X history.ops ∧
      f'.journal.file.data = history.journal.file.data ∧
      Sharing.Behind f'.journal.checkpoints history.journal.checkpoints := by
  obtain ⟨w, hw, hpwrite⟩ := pwrite_header (X := X) (f := f) bytes hoff hlen
  obtain ⟨hhard, hcp, hagrees⟩ := Checkpoints.readCheckpoint_agrees (n := -1)
    (h.agrees.congr fun k hk => (hw k hk).trans (by rw [hdata])) (.inl (by decide))
    hbehind.hard_le hbehind.header_le_hard hbehind.le
    (Nat.lt_of_lt_of_le (by decide) hbehind.header_le)
  have hnew := Sharing.behind_of_agrees hagrees hhard hcp
  have hcheckpoint := h.checkpoint
  rw [hall, List.take_length] at hcheckpoint
  have hsplit := List.take_append_drop k history.ops
  rw [hpwrite]
  by_cases hmore : history.ops.drop k = []
  · have hsame : history.ops.take k = history.ops := by
      rw [hmore, List.append_nil] at hsplit
      exact hsplit
    rw [hsame] at hf
    have hknown : (f.journal.checkpoints.readCheckpoint w (-1)).checkpointPosition
        = f.journal.getCheckpoint := by rw [hcp, hf.checkpoint]; exact hcheckpoint
    rw [when_neg (by omega)]
    exact ⟨_, rfl, hf.learned _ hknown, hdata, hnew⟩
  · have hbody := prefix_drop_iff_slice.mpr ((congrArg _ hcheckpoint.symm).trans
      (h.checkpoint_body.trans (by rw [hall, List.take_length])))
    rw [← hsplit] at hsay htaken hcheckpoint hbody
    rw [Writable.callAll_append _ hf.dumps.taken] at htaken
    have hmoreSay := (Database.sayAll_append.mp hsay).2
    rw [Database.callEach_taken hf.dumps.taken] at hmoreSay
    have hfit : ∀ op ∈ history.ops.drop k, op.Fits := fun op hop =>
      h.fits op (List.mem_of_mem_drop hop)
    have hlength : (wiresBytes (encodeAll .reset
          (history.ops.take k ++ history.ops.drop k))).length
        = (wiresBytes (encodeAll .reset (history.ops.take k))).length
          + (wiresBytes (encodeAll (contextAfter .reset (history.ops.take k))
            (history.ops.drop k))).length := by
      rw [encodeAll_append, wiresBytes_append, List.length_append]
    have hlonger : f.journal.getCheckpoint
        < (f.journal.checkpoints.readCheckpoint w (-1)).checkpointPosition := by
      have hstart := hf.checkpoint
      have hpos := length_wiresBytes_pos (encodeAll_ne_nil
        (contextAfter .reset (history.ops.take k)) hmore)
      have hstop : history.journal.checkpoints.checkpointPosition = _ := hcheckpoint
      omega
    rw [encodeAll_append, wiresBytes_append, prefix_drop_append, ← hf.checkpoint] at hbody
    obtain ⟨f', hplay, hf', hfile, hc⟩ := hf.play
      (f.journal.file.pwrite off bytes) hfit hmoreSay htaken (hcp.trans hcheckpoint)
      hlonger (by rw [File.pwrite_data, hdata]; exact hbody.2)
    rw [hsplit] at hf'
    rw [when_pos (by omega)]
    exact ⟨f', hplay, hf', by rw [hfile, File.pwrite_data, hdata], by rw [hc]; exact hnew⟩

end InterpretedFile

/-! ## Opening -/

namespace InterpretedFile

variable {X : Surroundings} {text : Bytes} {ops : List Op} {db : Database}

theorem dumps_nil (X : Surroundings) : Dumps X [] [] (.create (-1)) :=
  ⟨⟨[], rfl, rfl, .inl rfl⟩, rfl⟩

/-- An interpreter finds in the text what is said there. -/
theorem Dumps.mainLoop (h : Dumps X text ops db) (hfit : ∀ op ∈ ops, op.Fits)
    (hfloat : ∀ op ∈ ops, op.FloatsReturn X) (hsay : Database.SayAll (-1) ops (.create (-1)))
    (depth : Nat) (j : Journal) :
    Shell.mainLoop interpreter X true depth text ⟨(.create (-1), j), true⟩
      = .ok () ⟨(db, ops.foldl Journal.perform j), true⟩ := by
  obtain ⟨⟨told, hops, htext, hlast⟩, htaken⟩ := h
  rcases hlast with rfl | ⟨told, rfl⟩
  · obtain rfl := hops
    obtain ⟨rfl, rfl⟩ := InterpreterDump.mk.inj (EStateM.Result.ok.inj htext).2
    exact mainLoop_nil depth _
  · rw [Told.ops_append] at hops
    have hops : Told.ops true told = ops := (List.append_nil _).symm.trans hops
    obtain rfl := hops
    rw [Told.tellAll_append] at htext
    obtain ⟨_, ⟨schema, out⟩, htold, hempty⟩ := bind_eq_ok htext
    obtain rfl : out ++ InterpreterWritable.softCheckpoint = text :=
      (InterpreterDump.mk.inj (EStateM.Result.ok.inj hempty).2).2
    refine Shell.Brings.mainLoop_empty (fun includeText => ?_) true
    have hrun : interpreter.writable.callAll (Told.ops true told) (.create (-1), j)
        = .ok () (db, (Told.ops true told).foldl Journal.perform j) :=
      Multiplexer.callAll_taken (fun _ => rfl) (fun _ => rfl) htaken j
    have hfollows : interpreter.Follows := Target.follows_ofDatabase _ _ _ _
    have hbrings : ∃ schema text, Told.tellAll (InterpreterDump.writingMultiplexer X.floatText)
          told (.create (-1)) = .ok () ⟨schema, [] ++ text⟩ ∧ schema = db ∧
        Shell.Brings interpreter X true includeText text (.create (-1), j)
          (db, (Told.ops true told).foldl Journal.perform j) :=
      Told.brings (s := (Database.create (-1), j)) hfollows tracks_database hfit hfloat hsay hrun
        (Database.proper_create (-1)) rfl
    obtain ⟨schema', text, htold', -, hbrings⟩ := hbrings
    have hout := (InterpreterDump.mk.inj (EStateM.Result.ok.inj (htold'.symm.trans htold)).2).2
    rw [← hout]
    exact hbrings

/-- What is told to a new journal, up to the checkpoint. -/
theorem Dumps.checkpointed (h : Dumps X text ops db) (hfit : ∀ op ∈ ops, op.Fits)
    (hbound : headerSize + (wiresBytes (encodeAll .reset ops)).length < 2 ^ 63) :
    ∃ j, Journal.openWritable .empty .none = .ok j ∧
      History.Good ⟨(ops.foldl Journal.perform j).softCheckpoint, ops, ops.length⟩ ∧
      (ops.foldl Journal.perform j).softCheckpoint.fileBuffer.Idle := by
  obtain ⟨j, hopen, -, -, -, -, -, -, hidle, -⟩ :=
    Journal.openWritable_new (show File.data .empty = [] from rfl) rfl .none
  have hread := Database.readable_of_callAll (Database.proper_create (-1)) h.taken
  have hall := (Reencoding.reach_foldl (.create .empty .none rfl rfl hopen) hfit hread hbound).good
  refine ⟨j, hopen, hall.softCheckpoint, ?_⟩
  obtain ⟨k, hk⟩ : ∃ k, ops.foldl Journal.perform j = k := ⟨_, rfl⟩
  rw [hk] at hall ⊢
  rcases Nat.lt_or_ge k.getCheckpoint k.getPosition with hlt | hge
  · rw [Journal.softCheckpoint, Journal.softCheckpointAt_of_lt hlt]
    have hflush := flush_idle_of_writing hall.ready.writing
    exact ⟨hflush.noRead, hflush.noIndex⟩
  · have hpos : k.getPosition = k.getCheckpoint :=
      Nat.le_antisymm hge (Nat.le_trans hall.ready.checkpoint_le hall.ready.position_le)
    have hnone : ops = [] := List.eq_nil_of_length_eq_zero (hall.checkpointed_of_position hpos).symm
    rw [Journal.softCheckpoint, Journal.softCheckpointAt_of_le hge, ← hk, hnone]
    exact hidle

/-- A file over a text. -/
theorem Dumps.create (h : Dumps X text ops db) (hfit : ∀ op ∈ ops, op.Fits)
    (hfloat : ∀ op ∈ ops, op.FloatsReturn X) (hsay : Database.SayAll (-1) ops (.create (-1)))
    (hbound : headerSize + (wiresBytes (encodeAll .reset ops)).length < 2 ^ 63) :
    ∃ f, create X text = .ok f ∧ f.text = text ∧ f.db = db ∧ f.Holds X ops ∧
      History.Good ⟨f.journal, ops, ops.length⟩ := by
  obtain ⟨j, hopen, hgood, hidle⟩ := h.checkpointed hfit hbound
  have hcontext := hgood.context
  have hcheckpoint := hgood.checkpoint
  have hposition := hgood.ready.length_body
  rw [hgood.body] at hposition
  rw [List.take_length] at hcheckpoint
  have hread : readData X ⟨text, 0, j, .create (-1), true⟩ = .ok () ⟨text, text.length,
      (ops.foldl Journal.perform j).softCheckpoint, db, true⟩ := by
    rw [readData, List.drop_zero, h.mainLoop hfit hfloat hsay]
    rfl
  refine ⟨⟨text, text.length, (ops.foldl Journal.perform j).softCheckpoint, db, true⟩, ?_, rfl,
    rfl, ⟨h, rfl, rfl, hidle, ?_, hcheckpoint, hcontext⟩, hgood⟩
  · rw [InterpretedFile.create, hopen]
    simp only []
    rw [hread]
  · exact hposition.symm.trans hcheckpoint.symm

end InterpretedFile

/-! ## Steps -/

namespace Edited

variable {X : Surroundings} {s : Edited}

/-- The two journals stand at the same checkpoint, and everything that was performed could be
said. -/
structure Good (X : Surroundings) (s : Edited) : Prop where
  history : s.history.Good
  holds : s.file.Holds X (s.history.ops.take s.history.checkpointed)
  data : s.file.journal.file.data = s.history.journal.file.data
  behind : Sharing.Behind s.file.journal.checkpoints s.history.journal.checkpoints
  taken : ∃ db, Database.asWritable.callAll s.history.ops (.create (-1)) = .ok () db
  say : Database.SayAll (-1) s.history.ops (.create (-1))
  floats : ∀ op ∈ s.history.ops, op.FloatsReturn X

theorem not_onHeader {off : Nat} (hoff : headerSize ≤ off) (cs : List Bytes) :
    ∀ c ∈ File.callsAt off cs, (!c.onHeader) = true := by
  induction cs generalizing off with
  | nil => intro c hc; cases hc
  | cons bytes cs ih =>
      refine List.forall_mem_cons.mpr ⟨?_, ih (Nat.le_trans hoff (Nat.le_add_right _ _))⟩
      rw [Call.onHeader, decide_eq_false (Nat.not_lt.mpr hoff)]
      rfl

theorem word_onHeader (i j : Bool) (bytes : Bytes) :
    (Call.pwrite (8 * wordIndex i j) bytes).onHeader = true := by
  have hlt := wordIndex_lt i j
  exact decide_eq_true (show 8 * wordIndex i j < 41 by omega)

theorem headCalls_onHeader (j : Journal) (a : Action) :
    ∀ c ∈ (j.headCalls a).head?, c.onHeader = true := by
  intro c hc
  cases a with
  | perform op => cases hc
  | flush => cases hc
  | softCheckpointAt p =>
      rw [Journal.headCalls] at hc
      split at hc
      · obtain rfl := Option.some.inj hc
        exact word_onHeader _ _ _
      · cases hc
  | hardCheckpointAt p =>
      rw [Journal.headCalls] at hc
      split at hc
      · obtain rfl := Option.some.inj hc
        exact word_onHeader _ _ _
      · cases hc

/-- The data, a lock, and the header. -/
theorem follow_ok {history : History} {data head : List Call} {f f' : InterpretedFile}
    (hcalls : history.journal.file.calls.drop s.history.journal.file.calls.length = data ++ head)
    (hdata : ∀ c ∈ data, (!c.onHeader) = true) (hhead : ∀ c ∈ head.head?, c.onHeader = true)
    (hfirst : InterpretedFile.answerAll X data s.file = .ok () f)
    (hlock : InterpretedFile.readData X f = .ok () f)
    (hsecond : InterpretedFile.answerAll X head f = .ok () f') :
    s.follow X history = .ok ⟨f', history⟩ := by
  have hdrop : (data ++ head).dropWhile (!·.onHeader) = head := by
    rw [List.dropWhile_append_of_pos hdata]
    cases head with
    | nil => rfl
    | cons c cs => exact List.dropWhile_cons_of_neg (by rw [hhead c rfl]; exact Bool.false_ne_true)
  have htake : (data ++ head).takeWhile (!·.onHeader) = data := by
    have hboth := List.takeWhile_append_dropWhile (p := (!·.onHeader)) (l := data ++ head)
    rw [hdrop] at hboth
    exact List.append_cancel_right hboth
  rw [← hcalls] at hdrop htake
  have hwhen : when ((history.journal.file.calls.drop s.history.journal.file.calls.length).dropWhile
      (!·.onHeader) ≠ []) (InterpretedFile.readData X) f = .ok () f := by
    by_cases hnil : (history.journal.file.calls.drop
        s.history.journal.file.calls.length).dropWhile (!·.onHeader) = []
    · rw [when_neg (not_not_intro hnil)]
      rfl
    · rw [when_pos hnil, hlock]
  rw [← htake] at hfirst
  rw [← hdrop] at hsecond
  rw [follow, bind_ok hfirst, bind_ok hwhen, hsecond]

theorem follow_history {history : History} {s' : Edited} (h : s.follow X history = .ok s') :
    s'.history = history := by
  unfold follow at h
  simp only [] at h
  split at h
  · cases h
  · rw [← Except.ok.inj h]

/-- What an action does to the file in memory before it gets to the header. -/
theorem Good.follow (h : s.Good X) (history : History) {a : Action}
    (hact : history.journal = s.history.journal.act a) :
    ∃ file : File,
      (s.history.journal.headCalls a).foldl Call.apply file.data = history.journal.file.data ∧
      (s.history.journal.headCalls a ≠ [] → file.data = s.history.journal.flush.file.data) ∧
      ∀ f', InterpretedFile.answerAll X (s.history.journal.headCalls a) (s.file.withFile file)
          = .ok () f' → s.follow X history = .ok ⟨f', history⟩ := by
  obtain ⟨cs, hcalls, hflush, hdata⟩ := h.history.ready.callsOf_eq a
  have hoff := h.history.ready.header_le_position
  obtain ⟨file, hanswer, hfile⟩ := InterpretedFile.answerAll_data (X := X) hoff cs s.file
  rw [h.data] at hfile
  refine ⟨file, ?_, fun hhead => ?_, fun f' hf' => ?_⟩
  · rw [hfile, ← List.foldl_append, ← hcalls, hact]
    exact hdata
  · rw [hfile, Journal.foldl_callsAt h.history.ready.flushed]
    exact hflush hhead
  · exact follow_ok (by rw [hact]; exact hcalls) (not_onHeader hoff cs)
      (headCalls_onHeader _ a) hanswer (h.holds.learned _ rfl).readData hf'

/-- What may happen. An operation is one that a database takes and that can be said. -/
def Allowed (X : Surroundings) (s : Edited) : Event → Prop
  | .perform op => op.Fits ∧ op.FloatsReturn X ∧
      s.history.journal.getPosition + (abbreviate s.history.journal.context op).bytes.length
        < 2 ^ 63 ∧
      ∃ db db', Database.asWritable.callAll s.history.ops (.create (-1)) = .ok () db ∧
        op.Sayable (-1) db ∧ Database.call op db = .ok () db'
  | .reopen mode _ => mode ≠ .readExisting
  | _ => True

theorem Good.checkpoint (h : s.Good X) :
    s.file.journal.getCheckpoint = s.history.journal.getCheckpoint :=
  h.holds.checkpoint.trans h.history.checkpoint.symm

/-- An action that does not get to the header. -/
theorem Good.followed (h : s.Good X) {history : History} {a : Action}
    (hact : history.journal = s.history.journal.act a)
    (hhead : s.history.journal.headCalls a = []) (hgood : history.Good)
    (hkept : history.ops.take history.checkpointed
      = s.history.ops.take s.history.checkpointed)
    (hc : history.journal.checkpoints = s.history.journal.checkpoints)
    (htaken : ∃ db, Database.asWritable.callAll history.ops (.create (-1)) = .ok () db)
    (hsay : Database.SayAll (-1) history.ops (.create (-1)))
    (hfloat : ∀ op ∈ history.ops, op.FloatsReturn X) :
    ∃ s', s.follow X history = .ok s' ∧ s'.Good X := by
  obtain ⟨file, hdata, -, hfollow⟩ := h.follow history hact
  rw [hhead] at hdata hfollow
  refine ⟨_, hfollow _ rfl, hgood, ?_, hdata, ?_, htaken, hsay, hfloat⟩
  · rw [hkept]
    exact h.holds.learned _ rfl
  · rw [hc]
    exact h.behind

theorem Good.perform (h : s.Good X) {op : Op} (ha : s.Allowed X (.perform op)) :
    ∃ s', s.step X (.perform op) = .ok s' ∧ s'.Good X := by
  obtain ⟨hfit, hfloat, hbound, db, db', htaken, hsay, hcall⟩ := ha
  have hproper := (Database.proper_create (-1)).callAll htaken
  have hread := (Database.hear_of_call hproper.sound hcall).2
  refine h.followed (a := .perform op) rfl rfl (h.history.perform ⟨hfit, hread, hbound⟩)
    (h.history.take_snoc op) (Journal.perform_performs h.history.ready.writing op).checkpoints
    ⟨db', ?_⟩ (Database.sayAll_append.mpr ⟨h.say, ?_, trivial⟩) fun o ho => ?_
  · rw [Writable.callAll_append _ htaken]
    exact bind_ok (m := Database.call op) hcall
  · rw [Database.callEach_taken htaken]
    exact hsay
  · rcases List.mem_append.mp ho with hold | hnew
    · exact h.floats o hold
    · rw [List.mem_singleton.mp hnew]
      exact hfloat

theorem Good.flush (h : s.Good X) : ∃ s', s.step X .flush = .ok s' ∧ s'.Good X :=
  h.followed (a := .flush) rfl rfl h.history.flush rfl rfl h.taken h.say h.floats

/-- A checkpoint where there is one already. -/
theorem Good.checkpointed (h : s.Good X)
    (hpos : s.history.journal.getPosition = s.history.journal.getCheckpoint) {history : History}
    {a : Action} (hact : history.journal = s.history.journal.act a)
    (hidle : s.history.journal.act a = s.history.journal)
    (hhead : s.history.journal.headCalls a = []) (hgood : history.Good)
    (hops : history.ops = s.history.ops)
    (hall : history.checkpointed = s.history.ops.length) :
    ∃ s', s.follow X history = .ok s' ∧ s'.Good X := by
  refine h.followed hact hhead hgood ?_ (by rw [hact, hidle]) (hops ▸ h.taken) (hops ▸ h.say)
    (hops ▸ h.floats)
  rw [hops, hall, h.history.checkpointed_of_position hpos]

/-- The last write of a checkpoint. -/
theorem Good.arrived (h : s.Good X) {history : History} (hgood : history.Good)
    (hops : history.ops = s.history.ops)
    (hall : history.checkpointed = s.history.ops.length) {f : InterpretedFile}
    (hf : f.Holds X (s.history.ops.take s.history.checkpointed)) {i j : Bool} {bytes : Bytes}
    (hlen : headerSize ≤ f.journal.file.data.length)
    (hdata : ByteFile.pwrite f.journal.file.data (8 * wordIndex i j) bytes
      = history.journal.file.data)
    (hbehind : Sharing.Behind f.journal.checkpoints history.journal.checkpoints) :
    ∃ f', InterpretedFile.pwrite X (8 * wordIndex i j) bytes f = .ok () f' ∧
      Good X ⟨f', history⟩ := by
  obtain ⟨db, htaken⟩ := h.taken
  have hlt := wordIndex_lt i j
  have hoff : 8 * wordIndex i j < 41 := by omega
  rw [← hops] at hf hall htaken
  obtain ⟨f', hpwrite, hf', hdata', hbehind'⟩ := hf.arrive hgood hall (hops ▸ h.say) htaken hoff
    hlen hdata hbehind
  refine ⟨f', hpwrite, hgood, ?_, hdata', hbehind', ⟨db, htaken⟩, hops ▸ h.say, hops ▸ h.floats⟩
  rw [hall, List.take_length]
  exact hf'

theorem Good.flushed_length (h : s.Good X) :
    headerSize ≤ s.history.journal.flush.file.data.length :=
  h.history.ready.flush.1.header_le_length

theorem Good.softCheckpoint (h : s.Good X) :
    ∃ s', s.step X .softCheckpoint = .ok s' ∧ s'.Good X := by
  have hgood := h.history.softCheckpoint
  rcases Nat.lt_or_ge s.history.journal.getCheckpoint s.history.journal.getPosition with hlt | hge
  · obtain ⟨file, hdata, hflush, hfollow⟩ := h.follow
      ⟨s.history.journal.softCheckpoint, s.history.ops, s.history.ops.length⟩
      (a := .softCheckpointAt s.history.journal.getPosition) rfl
    rw [Journal.headCalls, if_pos hlt] at hdata hflush hfollow
    have hflush := hflush (List.cons_ne_nil _ _)
    have hbehind : Sharing.Behind s.file.journal.checkpoints
        s.history.journal.softCheckpoint.checkpoints := by
      rw [Journal.softCheckpoint, Journal.softCheckpointAt_of_lt hlt]
      exact h.behind.trans (Nat.le_refl _) (Nat.le_of_lt hlt)
    obtain ⟨f', hpwrite, hgood'⟩ := h.arrived hgood rfl rfl
      (h.holds.learned file rfl) (hflush ▸ h.flushed_length) hdata hbehind
    exact ⟨_, hfollow f' (bind_ok hpwrite), hgood'⟩
  · have hpos : s.history.journal.getPosition = s.history.journal.getCheckpoint :=
      Nat.le_antisymm hge
        (Nat.le_trans h.history.ready.checkpoint_le h.history.ready.position_le)
    exact h.checkpointed hpos (a := .softCheckpointAt s.history.journal.getPosition) rfl
      (Journal.softCheckpointAt_of_le hge) (if_neg (Nat.not_lt.mpr hge)) hgood rfl rfl

/-- The first word of a hard checkpoint tells nothing. -/
theorem Good.torn (h : s.Good X) {file : File}
    (hfile : file.data = s.history.journal.flush.file.data) :
    ∃ f, InterpretedFile.pwrite X (8 * wordIndex (!s.history.journal.checkpoints.hardIndex) false)
          (encodeInt64 s.history.journal.getPosition) (s.file.withFile file) = .ok () f ∧
      f.Holds X (s.history.ops.take s.history.checkpointed) ∧
      f.journal.file.data = ByteFile.pwrite file.data
        (8 * wordIndex (!s.history.journal.checkpoints.hardIndex) false)
        (encodeInt64 s.history.journal.getPosition) ∧
      Sharing.Behind f.journal.checkpoints s.history.journal.checkpoints := by
  have hlt := wordIndex_lt (!s.history.journal.checkpoints.hardIndex) false
  have hoff : 8 * wordIndex (!s.history.journal.checkpoints.hardIndex) false < 41 := by omega
  have hlen : headerSize ≤ file.data.length := hfile ▸ h.flushed_length
  obtain ⟨w, hw, hpwrite⟩ := InterpretedFile.pwrite_header (X := X) (f := s.file.withFile file)
    (encodeInt64 s.history.journal.getPosition) hoff hlen
  have hagrees : Agrees (headerWord file.data) s.history.journal.checkpoints := by
    rw [hfile]
    exact h.history.flush.agrees
  have hmax := h.history.bound
  have hword : ∀ k < 4, w k = setWord (headerWord file.data)
      (wordIndex (!s.history.journal.checkpoints.hardIndex) false)
        s.history.journal.getPosition k := fun k hk => by
    rw [hw k hk]
    exact congrFun (Journal.headerWord_pwrite_setWord hlen _ _ (by omega) (by omega)) k
  obtain ⟨hhard, hlo, hhi⟩ := readCheckpoint_torn hagrees h.behind hword
  have hcp : (s.file.journal.checkpoints.readCheckpoint w (-1)).checkpointPosition
      = s.file.journal.getCheckpoint := by
    refine Nat.le_antisymm ?_ hlo
    rw [h.checkpoint]
    exact hhi
  have hsame : ¬ ((s.file.journal.checkpoints.readCheckpoint w (-1)).checkpointPosition
      - s.file.journal.getCheckpoint ≠ 0) :=
    not_not_intro (Nat.sub_eq_zero_of_le (Nat.le_of_eq hcp))
  refine ⟨_, hpwrite.trans ((congrFun (when_neg hsame _) _).trans rfl), h.holds.learned _ hcp, rfl,
    ?_, Nat.le_of_eq hhard, Nat.le_trans h.behind.header_le hlo, hhi⟩
  exact Nat.le_trans (Nat.le_trans h.behind.header_le_hard h.behind.hard_le)
    (Nat.le_of_eq hhard.symm)

theorem Good.hardCheckpoint (h : s.Good X) :
    ∃ s', s.step X .hardCheckpoint = .ok s' ∧ s'.Good X := by
  have hgood := h.history.hardCheckpoint
  rcases Nat.lt_or_ge s.history.journal.getHardCheckpoint s.history.journal.getPosition with
    hlt | hge
  · obtain ⟨file, hdata, hflush, hfollow⟩ := h.follow
      ⟨s.history.journal.hardCheckpoint, s.history.ops, s.history.ops.length⟩
      (a := .hardCheckpointAt s.history.journal.getPosition) rfl
    rw [Journal.headCalls, if_pos hlt] at hdata hflush hfollow
    have hflush := hflush (List.cons_ne_nil _ _)
    obtain ⟨f, htorn, hf, hfile, hbehind⟩ := h.torn hflush
    have hlen : headerSize ≤ f.journal.file.data.length := by
      rw [hfile]
      exact Nat.le_trans (hflush ▸ h.flushed_length) (length_le_pwrite _ _ _)
    have hbehind : Sharing.Behind f.journal.checkpoints
        s.history.journal.hardCheckpoint.checkpoints := by
      rw [Journal.hardCheckpoint, Journal.hardCheckpointAt_of_lt hlt]
      exact hbehind.trans (Nat.le_of_lt hlt)
        (Nat.le_trans h.history.ready.checkpoint_le h.history.ready.position_le)
    obtain ⟨f', hpwrite, hgood'⟩ := h.arrived hgood rfl rfl hf hlen
      ((congrArg (ByteFile.pwrite · _ _) hfile).trans hdata) hbehind
    refine ⟨_, hfollow f' ?_, hgood'⟩
    rw [InterpretedFile.answerAll, InterpretedFile.answer, bind_ok htorn,
      InterpretedFile.answerAll, InterpretedFile.answer, pure_bind, InterpretedFile.answerAll,
      InterpretedFile.answer, bind_ok hpwrite]
    rfl
  · have hle := Nat.le_trans h.history.ready.checkpoint_le h.history.ready.position_le
    have hpos : s.history.journal.getPosition = s.history.journal.getCheckpoint :=
      Nat.le_antisymm (Nat.le_trans hge h.history.ready.hard_le) hle
    exact h.checkpointed hpos (a := .hardCheckpointAt s.history.journal.getPosition) rfl
      (Journal.hardCheckpointAt_of_le hge) (if_neg (Nat.not_lt.mpr hge)) hgood rfl rfl

theorem Good.lock (h : s.Good X) : s.lock X = .ok s := by
  rw [Edited.lock, h.holds.readData]

/-- A text and a journal on it. -/
theorem opened_ok {text : Bytes} {ops : List Op} {db : Database} (mode : OpenMode) (reads : Pread)
    (h : InterpretedFile.Dumps X text ops db) (hfit : ∀ op ∈ ops, op.Fits)
    (hfloat : ∀ op ∈ ops, op.FloatsReturn X) (hsay : Database.SayAll (-1) ops (.create (-1)))
    (hbound : headerSize + (wiresBytes (encodeAll .reset ops)).length < 2 ^ 63)
    (hmode : mode ≠ .readExisting) :
    ∃ s, opened X text ops mode reads = .ok s ∧ s.Good X ∧ s.file.text = text ∧ s.file.db = db ∧
      s.history.ops = ops ∧ s.history.checkpointed = ops.length := by
  obtain ⟨f, hcreate, htext, hdb, hholds, hgood⟩ := h.create hfit hfloat hsay hbound
  have ha : History.Allowed ⟨f.journal, ops, ops.length⟩ (.reopen mode reads) :=
    ⟨hholds.position, hmode⟩
  obtain ⟨j, hreopen, hgood', hdata, hhard, hcp⟩ := hgood.reopen_same ha
  have hlock : lock X ⟨f, ⟨f.journal, ops, ops.length⟩⟩
      = .ok ⟨f, ⟨f.journal, ops, ops.length⟩⟩ := by rw [lock, hholds.readData]
  refine ⟨⟨f, ⟨j, ops, ops.length⟩⟩, ?_, ⟨hgood', ?_, hdata.symm, ?_, ⟨db, h.taken⟩, hsay, hfloat⟩,
    htext, hdb, rfl, rfl⟩
  · rw [opened, hcreate]
    simp only [hlock]
    rw [hreopen]
  · rw [List.take_length]
    exact hholds
  · exact ⟨hgood.ready.header_le, Nat.le_of_eq hhard.symm,
      Nat.le_trans hgood.ready.header_le hgood.ready.hard_le, Nat.le_of_eq hcp.symm⟩

/-- What was checkpointed. -/
theorem Good.kept (h : s.Good X) :
    (∀ op ∈ s.history.ops.take s.history.checkpointed, op.Fits) ∧
      (∀ op ∈ s.history.ops.take s.history.checkpointed, op.FloatsReturn X) ∧
      Database.SayAll (-1) (s.history.ops.take s.history.checkpointed) (.create (-1)) ∧
      headerSize + (wiresBytes (encodeAll .reset
        (s.history.ops.take s.history.checkpointed))).length < 2 ^ 63 := by
  have hsay := h.say
  rw [← List.take_append_drop s.history.checkpointed s.history.ops] at hsay
  refine ⟨fun op hop => h.history.fits op (List.mem_of_mem_take hop),
    fun op hop => h.floats op (List.mem_of_mem_take hop), (Database.sayAll_append.mp hsay).1, ?_⟩
  rw [← h.history.checkpoint]
  exact Nat.lt_of_le_of_lt
    (Nat.le_trans h.history.ready.checkpoint_le h.history.ready.position_le) h.history.bound

theorem Good.step (h : s.Good X) {e : Event} (ha : s.Allowed X e) :
    ∃ s', s.step X e = .ok s' ∧ s'.Good X := by
  cases e with
  | perform op => exact h.perform ha
  | flush => exact h.flush
  | softCheckpoint => exact h.softCheckpoint
  | hardCheckpoint => exact h.hardCheckpoint
  | lock => exact ⟨s, h.lock, h⟩
  | reopen mode reads =>
      obtain ⟨hfit, hfloat, hsay, hbound⟩ := h.kept
      obtain ⟨s', hopened, hgood, -⟩ := opened_ok mode reads h.holds.dumps hfit hfloat hsay
        hbound ha
      exact ⟨s', hopened, hgood⟩

/-- What may become of a text that was empty at first. -/
inductive Reach (X : Surroundings) : Edited → Prop where
  | create {s : Edited} (mode : OpenMode) (reads : Pread) (hmode : mode ≠ .readExisting)
      (hopen : opened X [] [] mode reads = .ok s) : Reach X s
  | step {s s' : Edited} {e : Event} (hs : Reach X s) (ha : s.Allowed X e)
      (hstep : s.step X e = .ok s') : Reach X s'

theorem Reach.good (h : s.Reach X) : s.Good X := by
  induction h with
  | create mode reads hmode hopen =>
      obtain ⟨s', hopen', hgood, -⟩ := opened_ok mode reads (InterpretedFile.dumps_nil X)
        (by simp) (by simp) trivial (by decide) hmode
      rw [hopen] at hopen'
      exact Except.ok.inj hopen' ▸ hgood
  | step hs ha hstep ih =>
      obtain ⟨s', hstep', hgood⟩ := ih.step ha
      rw [hstep] at hstep'
      exact Except.ok.inj hstep' ▸ hgood

/-- Operations that a database takes can be written, one after the other. -/
theorem Reach.performAll {ops : List Op} {db db' : Database} (h : s.Reach X)
    (hfit : ∀ op ∈ ops, op.Fits) (hfloat : ∀ op ∈ ops, op.FloatsReturn X)
    (hsay : Database.SayAll (-1) ops db)
    (hdb : Database.asWritable.callAll s.history.ops (.create (-1)) = .ok () db)
    (htaken : Database.asWritable.callAll ops db = .ok () db')
    (hbound : headerSize + (wiresBytes (encodeAll .reset (s.history.ops ++ ops))).length
      < 2 ^ 63) :
    ∃ s' : Edited, s'.Reach X ∧ s'.history.ops = s.history.ops ++ ops := by
  induction ops generalizing s db with
  | nil => exact ⟨s, h, (List.append_nil _).symm⟩
  | cons op ops ih =>
      obtain ⟨hop, hfit⟩ := List.forall_mem_cons.mp hfit
      obtain ⟨hopFloat, hfloat⟩ := List.forall_mem_cons.mp hfloat
      obtain ⟨hopSay, hsay⟩ := hsay
      obtain ⟨_, db₁, hcall, hrest⟩ := bind_eq_ok htaken
      have hgood := h.good
      have hone : s.history.journal.getPosition
          + (abbreviate s.history.journal.context op).bytes.length < 2 ^ 63 := by
        have hlen := hgood.history.ready.length_body
        rw [encodeAll_append, wiresBytes_append, ← hgood.history.body, ← hgood.history.context,
          encodeAll, wiresBytes_cons, List.length_append, List.length_append] at hbound
        omega
      have ha : s.Allowed X (.perform op) := ⟨hop, hopFloat, hone, db, db₁, hdb, hopSay, hcall⟩
      obtain ⟨s₁, hstep, -⟩ := hgood.perform ha
      have hhistory := follow_history (s := s) hstep
      have hops : s₁.history.ops = s.history.ops ++ [op] := by rw [hhistory]
      have hsplit : s.history.ops ++ op :: ops = s₁.history.ops ++ ops := by
        rw [hops, List.append_assoc, List.singleton_append]
      rw [after_ok (show Database.call op db = .ok () db₁ from hcall)] at hsay
      rw [hsplit] at hbound ⊢
      refine ih (h.step ha hstep) hfit hfloat hsay ?_ hrest hbound
      rw [hops, Writable.callAll_append _ hdb]
      exact bind_ok (m := Database.call op) hcall

/-- Whatever is done to a file of text and to the journal of its user, nothing throws, the file in
memory is the one that the user has written, and the text is the dump of what was checkpointed. An
interpreter that starts from the text alone finds the same database in it, and makes the same
journal of it, up to the checkpoint. -/
theorem text_keeps (h : s.Reach X) :
    s.file.journal.file.data = s.history.journal.file.data ∧
      InterpretedFile.Dumps X s.file.text (s.history.ops.take s.history.checkpointed) s.file.db ∧
      (∃ f, InterpretedFile.create X s.file.text = .ok f ∧ f.text = s.file.text ∧
        f.db = s.file.db ∧ f.journal.getCheckpoint = s.history.journal.getCheckpoint ∧
        slice f.journal.file.data headerSize f.journal.getCheckpoint
          = slice s.history.journal.file.data headerSize s.history.journal.getCheckpoint) ∧
      ∀ e, s.Allowed X e → ∃ s', s.step X e = .ok s' := by
  have hgood := h.good
  refine ⟨hgood.data, hgood.holds.dumps, ?_, fun e ha => ?_⟩
  · obtain ⟨hfit, hfloat, hsay, hbound⟩ := hgood.kept
    obtain ⟨f, hcreate, htext, hdb, hholds, hf⟩ :=
      hgood.holds.dumps.create hfit hfloat hsay hbound
    refine ⟨f, hcreate, htext, hdb, hholds.checkpoint.trans hgood.history.checkpoint.symm, ?_⟩
    rw [hgood.history.checkpoint_body]
    exact hf.checkpoint_body.trans (by rw [List.take_length])
  · obtain ⟨s', hstep, -⟩ := hgood.step ha
    exact ⟨s', hstep⟩

/-- A person and a city, written into a new file, with a checkpoint behind them. -/
theorem text_keeps_person : ∃ s : Edited, s.Reach InterpreterDump.halfReading ∧
    s.history.ops.take s.history.checkpointed = InterpreterDump.person ∧
    ∃ f, InterpretedFile.create InterpreterDump.halfReading s.file.text = .ok f ∧
      f.text = s.file.text ∧ f.db = s.file.db := by
  obtain ⟨db, htaken⟩ := InterpreterDump.taken_person
  obtain ⟨s₀, hopen, hgood, -, -, hops, -⟩ := opened_ok (X := InterpreterDump.halfReading)
    .sharedWrite .whole (InterpretedFile.dumps_nil _) (by simp) (by simp) trivial (by decide)
    (by decide)
  have hdb : Database.asWritable.callAll s₀.history.ops (.create (-1))
      = .ok () (.create (-1)) := by rw [hops]; rfl
  obtain ⟨s₁, hreach, hops₁⟩ := (Reach.create _ _ (by decide) hopen).performAll
    InterpreterDump.fits_person InterpreterDump.floatsReturn_person (by decide +kernel) hdb htaken
    (by rw [hops]; decide +kernel)
  rw [hops, List.nil_append] at hops₁
  obtain ⟨s₂, hsoft, -⟩ := hreach.good.softCheckpoint
  have hhistory := follow_history (s := s₁) hsoft
  have hreach₂ := hreach.step (e := .softCheckpoint) trivial hsoft
  obtain ⟨-, -, ⟨f, hcreate, htext, hdb, -⟩, -⟩ := text_keeps hreach₂
  refine ⟨s₂, hreach₂, ?_, f, hcreate, htext, hdb⟩
  rw [hhistory]
  exact List.take_length.trans hops₁

end Edited

end Joedb
