import Joedb.Journal.Opening
import Joedb.Journal.Readers

/-!
# Replaying

What a replay does to a `Writable` depends on the operations alone. `hear` is
that, one operation at a time: a call for most of them, and for a vector the
detour through the storage that the `Writable` owns. Around it there is only the
context, which moves as the operations move it.

So the replay of a stretch of journal is `hearAll` of what the stretch means,
and it is refused where one of the operations is.
-/

namespace Joedb

open ByteFile StateExcept FileBuffer Replay

/-! ## What a stretch means -/

/-- The context after operations. -/
def contextAfter (c : Context) (ops : List Op) : Context :=
  ops.foldl (fun c op => op.context c) c

/-- What a writer makes of operations. -/
def encodeAll : Context → List Op → List Wire
  | _, [] => []
  | c, op :: ops => abbreviate c op :: encodeAll (op.context c) ops

/-- What a reader makes of a stretch. -/
def decodeAll : Context → List Wire → List Op
  | _, [] => []
  | c, w :: ws => w.meaning c :: decodeAll ((w.meaning c).context c) ws

theorem contextAfter_append (c : Context) (ops ops' : List Op) :
    contextAfter c (ops ++ ops') = contextAfter (contextAfter c ops) ops' :=
  List.foldl_append

theorem encodeAll_append (c : Context) (ops ops' : List Op) :
    encodeAll c (ops ++ ops') = encodeAll c ops ++ encodeAll (contextAfter c ops) ops' := by
  induction ops generalizing c with
  | nil => rfl
  | cons op ops ih => simp only [List.cons_append, encodeAll, ih]; rfl

theorem decodeAll_encodeAll (c : Context) (ops : List Op) :
    decodeAll c (encodeAll c ops) = ops := by
  induction ops generalizing c with
  | nil => rfl
  | cons op ops ih => rw [encodeAll, decodeAll, meaning_abbreviate, ih]

theorem encodeAll_fits {ops : List Op} (h : ∀ op ∈ ops, op.Fits) (c : Context) :
    ∀ w ∈ encodeAll c ops, w.Fits := by
  induction ops generalizing c with
  | nil => intro w hw; cases hw
  | cons op ops ih =>
      obtain ⟨hop, hops⟩ := List.forall_mem_cons.mp h
      exact List.forall_mem_cons.mpr ⟨fits_abbreviate hop c, ih hops _⟩

theorem length_kind_bytes_pos (ty : Ty) (v : ty.Storage) :
    1 ≤ (ty.kind.bytes v).length := by
  have hcompact : ∀ (x : Int) (bs : Bytes), 1 ≤ (compactWrite x ++ bs).length :=
    fun x bs => by
      have := length_compactWrite_pos x
      rw [List.length_append]; omega
  have hfixed : ∀ (n : Nat) (x : Nat), 1 ≤ n → 1 ≤ (leEncode n x).length :=
    fun n x hn => by rw [length_leEncode]; exact hn
  cases ty with
  | string => exact hcompact _ _
  | reference => exact length_compactWrite_pos _
  | blob => exact hcompact _ _
  | _ => exact hfixed _ _ (by decide)

theorem length_le_vectorBytes (ty : Ty) (vs : List ty.Storage) :
    vs.length ≤ (ty.kind.vectorBytes vs).length := by
  induction vs with
  | nil => exact Nat.zero_le _
  | cons v vs ih =>
      have := length_kind_bytes_pos ty v
      rw [vectorBytes_cons, List.length_append, List.length_cons]
      omega

/-! ## Hearing -/

namespace Writable

variable {ω : Type} (W : Writable ω)

/-- `update_vector` of the reader, with its values read. -/
def hearVector (ty : Ty) (t : TableId) (r : RecordId) (f : FieldId)
    (vs : List ty.Storage) : EStateM Exn ω Unit := do
  let capacity ← W.ownStorage ty t f
  when (r < 0 ∨ (∃ n ∈ capacity, r > n ∨ vs.length > n - r))
    (throw (.exception "update_vector out of range"))
  when capacity.isSome (modify (W.storeOwn ty t f r.toNat vs))
  W.call (.updateVector ty t r f vs)

/-- What a replay does to the `Writable` for an operation. -/
def hear : Op → EStateM Exn ω Unit
  | .updateVector ty t r f vs => when (vs.length ≠ 0) (W.hearVector ty t r f vs)
  | .writeBlob data => do
      let w ← get
      when (W.wantsBlobData w) (W.call (.writeBlob data))
  | op => W.call op

@[simp] theorem hear_updateVector (ty : Ty) (t : TableId) (r : RecordId) (f : FieldId)
    (vs : List ty.Storage) :
    W.hear (.updateVector ty t r f vs) = when (vs.length ≠ 0) (W.hearVector ty t r f vs) := rfl

@[simp] theorem hear_writeBlob (data : Bytes) (w : ω) :
    W.hear (.writeBlob data) w = when (W.wantsBlobData w) (W.call (.writeBlob data)) w := rfl

def hearAll : List Op → EStateM Exn ω Unit
  | [] => pure ()
  | op :: ops => do
      W.hear op
      hearAll ops

theorem hearAll_append {ops ops' : List Op} {w w' : ω} (h : W.hearAll ops w = .ok () w') :
    W.hearAll (ops ++ ops') w = W.hearAll ops' w' := by
  induction ops generalizing w with
  | nil => cases h; rfl
  | cons op ops ih =>
      obtain ⟨_, w₁, hop, hops⟩ := bind_eq_ok h
      rw [List.cons_append, hearAll, bind_ok hop]
      exact ih hops

theorem hearAll_snoc {ops : List Op} {op : Op} {w w₁ w₂ : ω}
    (h : W.hearAll ops w = .ok () w₁) (hop : W.hear op w₁ = .ok () w₂) :
    W.hearAll (ops ++ [op]) w = .ok () w₂ := by
  rw [W.hearAll_append h, hearAll, bind_ok hop]
  rfl

/-- `hear`, with what a `Writable` is told when a blob lies somewhere. -/
def listen : Op → EStateM Exn ω Unit
  | .writeBlob data => do
      W.onBlob ⟨0, 0⟩
      W.hear (.writeBlob data)
  | op => W.hear op

def listenAll : List Op → EStateM Exn ω Unit
  | [] => pure ()
  | op :: ops => do
      W.listen op
      listenAll ops

theorem listenAll_passive (h : ∀ blob, W.onBlob blob = pure ()) (ops : List Op) :
    W.listenAll ops = W.hearAll ops := by
  have hone : ∀ op, W.listen op = W.hear op := by
    intro op
    cases op with
    | writeBlob data =>
        rw [listen, h]
        rfl
    | _ => rfl
  induction ops with
  | nil => rfl
  | cons op ops ih => rw [listenAll, hearAll, hone, ih]

/-- An operation that is read at a position. A blob lies behind its size. -/
def listenAt (p : Nat) : Op → EStateM Exn ω Unit
  | .writeBlob data => do
      W.onBlob ⟨p + 1 + (compactWrite data.length).length, data.length⟩
      W.hear (.writeBlob data)
  | op => W.hear op

/-- A stretch that is read from a position on. -/
def listenFrom : Nat → Context → List Wire → EStateM Exn ω Unit
  | _, _, [] => pure ()
  | p, c, w :: ws => do
      listenAt W p (w.meaning c)
      listenFrom (p + w.bytes.length) ((w.meaning c).context c) ws

theorem listenFrom_eq {W : Writable ω} (hblob : ∀ blob, W.onBlob blob = W.onBlob ⟨0, 0⟩)
    (ws : List Wire) : ∀ p c, W.listenFrom p c ws = W.listenAll (decodeAll c ws) := by
  have hone : ∀ p op, W.listenAt p op = W.listen op := by
    intro p op
    cases op with
    | writeBlob data => rw [listenAt, listen, hblob]
    | _ => rfl
  induction ws with
  | nil => exact fun _ _ => rfl
  | cons w ws ih => exact fun p c => by rw [listenFrom, decodeAll, listenAll, hone, ih]

end Writable

namespace Replay

variable {ω : Type} {W : Writable ω}

/-- A machine that does `m` to its `Writable` and moves its context to `c`, or
stops where `m` is refused. -/
def Tells (run : Play ω Unit) (t : Replay ω) (m : EStateM Exn ω Unit) (c : Context) : Prop :=
  match m t.writable with
  | .ok _ w => run t = .ok () ((t.withContext c).withWritable w)
  | .error e w => ∃ c', run t = .error e ((t.withContext c').withWritable w)

/-- A call from a moved context. -/
theorem tells_tell {t : Replay ω} {m : EStateM Exn ω Unit} {c : Context} {run : Play ω Unit}
    (hrun : run t = tell m (t.withContext c)) : Tells run t m c := by
  rw [Tells, hrun]
  cases hm : m t.writable with
  | ok u w => exact tell_ok hm
  | error e w => exact ⟨c, tell_error hm⟩

/-- A call before the context moves. -/
theorem tells_tell_set (t : Replay ω) (m : EStateM Exn ω Unit) (tableId : TableId)
    (recordId : RecordId) :
    Tells (do tell m; setTable tableId; setRecord recordId) t m
      { t.context with tableOfLastOperation := tableId, recordOfLastOperation := recordId } := by
  rw [Tells]
  cases hm : m t.writable with
  | ok u w =>
      exact bind_ok (tell_ok hm)
  | error e w =>
      exact ⟨t.context, bind_error (tell_error hm)⟩

/-- The two halves of `update_vector`, around values that are read. -/
theorem updateVector_eq_tell (ty : Ty) {vs : List ty.Storage} {t : Replay ω}
    (hsize : vs.length ≤ t.checkpoint) :
    (do
      let capacity ← prepareUpdateVector W ty vs.length
      finishUpdateVector W ty capacity (vs, none) : Play ω Unit) t
      = tell (W.hearVector ty t.context.tableOfLastOperation t.context.recordOfLastOperation
          t.context.fieldOfLastUpdate vs) t := by
  rw [tell_eq, onPart, Writable.hearVector]
  cases hown : W.ownStorage ty t.context.tableOfLastOperation t.context.fieldOfLastUpdate
      t.writable with
  | error e w =>
      have htell : tell (W.ownStorage ty t.context.tableOfLastOperation
          t.context.fieldOfLastUpdate) t = .error e (t.withWritable w) :=
        tell_error hown
      have hprepare : prepareUpdateVector W ty vs.length t = .error e (t.withWritable w) := by
        rw [prepareUpdateVector, get_bind_run, when_neg (Nat.not_lt.mpr hsize), pure_bind_run,
          bind_error htell]
      rw [bind_error hprepare, bind_error hown]
  | ok capacity w =>
      have htell : tell (W.ownStorage ty t.context.tableOfLastOperation
          t.context.fieldOfLastUpdate) t = .ok capacity (t.withWritable w) :=
        tell_ok hown
      rw [bind_ok hown]
      by_cases hrange : t.context.recordOfLastOperation < 0 ∨
          (∃ n ∈ capacity, t.context.recordOfLastOperation > n ∨
            vs.length > n - t.context.recordOfLastOperation)
      · have hprepare : prepareUpdateVector W ty vs.length t
            = .error (.exception "update_vector out of range") (t.withWritable w) := by
          rw [prepareUpdateVector, get_bind_run, when_neg (Nat.not_lt.mpr hsize),
            pure_bind_run, bind_ok htell, when_pos hrange]
          rfl
        rw [bind_error hprepare, when_pos hrange]
        rfl
      · have hprepare : prepareUpdateVector W ty vs.length t
            = .ok capacity (t.withWritable w) := by
          rw [prepareUpdateVector, get_bind_run, when_neg (Nat.not_lt.mpr hsize),
            pure_bind_run, bind_ok htell, when_neg hrange]
          rfl
        rw [bind_ok hprepare, when_neg hrange, pure_bind_run]
        cases capacity <;> rfl

/-- A blob is told where it is, and then the data, if they are wanted. -/
theorem tellBlob_eq (p : Nat) {data : Bytes} {t : Replay ω} (hlen : data.length < t.checkpoint) :
    tellBlob W (p + 1 + (compactWrite data.length).length) data t
      = tell (W.listenAt p (.writeBlob data)) t := by
  obtain ⟨blob, hat⟩ : ∃ blob : Blob,
      blob = ⟨(p + 1 + (compactWrite data.length).length : Nat), data.length⟩ := ⟨_, rfl⟩
  have hlisten : W.listenAt p (.writeBlob data)
      = (do W.onBlob blob; W.hear (.writeBlob data)) := by
    rw [hat]
    rfl
  rw [tellBlob, ← hat, hlisten, tell_eq, onPart]
  cases hon : W.onBlob blob t.writable with
  | error e v =>
      have htell : tell (W.onBlob blob) t = .error e (t.withWritable v) := tell_error hon
      rw [bind_error htell, bind_error hon]
  | ok u v =>
      have htell : tell (W.onBlob blob) t = .ok u (t.withWritable v) := tell_ok hon
      rw [bind_ok htell, bind_ok hon]
      show (if _ then _ else _ : Play ω Unit) (t.withWritable v) = _
      have hhear := W.hear_writeBlob data v
      by_cases hwants : W.wantsBlobData v
      · rw [when_pos hwants] at hhear
        rw [if_pos ⟨hwants, hlen⟩, tell_eq, onPart, hhear]
        rfl
      · rw [when_neg hwants] at hhear
        rw [if_neg fun h => hwants h.1, hhear]
        rfl

/-- A step of the reader. -/
theorem run_listensAt {w : Wire} {t : Replay ω} (p : Nat) (hcp : w.bytes.length ≤ t.checkpoint) :
    Tells (w.run W p) t (W.listenAt p (w.meaning t.context))
      ((w.meaning t.context).context t.context) := by
  cases w with
  | full op =>
      cases op with
      | insertInto tableId recordId => exact tells_tell_set t _ _ _
      | insertVector tableId recordId size => exact tells_tell_set t _ _ _
      | updateVector ty tableId recordId fieldId vs =>
          simp only [Wire.meaning, Writable.listenAt, Writable.hear_updateVector]
          refine tells_tell ?_
          show (if vs.length = 0 then pure () else _ : Play ω Unit)
            (t.withContext ⟨tableId, recordId, fieldId⟩) = _
          by_cases hempty : vs.length = 0
          · rw [if_pos hempty, when_neg (not_not_intro hempty)]
            rfl
          · have hlen : vs.length ≤ t.checkpoint := by
              have := length_le_vectorBytes ty vs
              simp only [Wire.bytes, Op.bytes, List.length_cons, List.length_append] at hcp
              omega
            rw [if_neg hempty, updateVector_eq_tell ty
              (t := t.withContext ⟨tableId, recordId, fieldId⟩) hlen, when_pos hempty]
            rfl
      | writeBlob data =>
          refine tells_tell ?_
          have hlen : data.length < t.checkpoint := by
            simp only [Wire.bytes, Op.bytes, List.length_cons, List.length_append] at hcp
            omega
          exact tellBlob_eq p hlen
      | _ => exact tells_tell rfl
  | append => exact tells_tell rfl
  | updateLast ty f v => exact tells_tell rfl
  | updateNext ty v => exact tells_tell rfl

/-- The replay of a stretch. -/
theorem runAll_listensFrom (ws : List Wire) : ∀ {t : Replay ω} (p : Nat),
    (wiresBytes ws).length ≤ t.checkpoint →
      Tells (runAll W p ws) t (W.listenFrom p t.context ws)
        (contextAfter t.context (decodeAll t.context ws)) := by
  induction ws with
  | nil => intro t p _; rfl
  | cons w ws ih =>
      intro t p hcp
      rw [wiresBytes_cons, List.length_append] at hcp
      have hstep := run_listensAt (W := W) (t := t) p
        (show w.bytes.length ≤ t.checkpoint by omega)
      rw [Tells] at hstep ⊢
      rw [decodeAll, Writable.listenFrom, runAll]
      cases hop : W.listenAt p (w.meaning t.context) t.writable with
      | error e x =>
          rw [hop] at hstep
          obtain ⟨c, hstep⟩ := hstep
          rw [bind_error hop]
          exact ⟨c, bind_error hstep⟩
      | ok u x =>
          rw [hop] at hstep
          have hrest := ih (t := (t.withContext ((w.meaning t.context).context
            t.context)).withWritable x) (p + w.bytes.length)
            (Nat.le_trans (Nat.le_add_left _ _) hcp)
          rw [Tells] at hrest
          rw [bind_ok hop, bind_ok hstep]
          exact hrest

/-- The same for a `Writable` that does not mind where a blob lies: it is `listenAll`. -/
theorem runAll_listens (hblob : ∀ blob, W.onBlob blob = W.onBlob ⟨0, 0⟩) (ws : List Wire)
    {t : Replay ω} (p : Nat) (hcp : (wiresBytes ws).length ≤ t.checkpoint) :
    Tells (runAll W p ws) t (W.listenAll (decodeAll t.context ws))
      (contextAfter t.context (decodeAll t.context ws)) := by
  rw [← W.listenFrom_eq hblob ws p]
  exact runAll_listensFrom ws p hcp

/-- The same for a `Writable` that takes no notice of blobs: it is `hearAll`. -/
theorem runAll_tells (hW : W.Passive) (ws : List Wire) {t : Replay ω} (p : Nat)
    (hcp : (wiresBytes ws).length ≤ t.checkpoint) :
    Tells (runAll W p ws) t (W.hearAll (decodeAll t.context ws))
      (contextAfter t.context (decodeAll t.context ws)) := by
  have hlisten := runAll_listens (fun blob => (hW.onBlob blob).trans (hW.onBlob _).symm) ws p hcp
  rwa [W.listenAll_passive hW.onBlob] at hlisten

/-! ## Replaying a file -/

/-- Playing on from where an idle journal stands. -/
theorem playUntilCheckpoint_hear (hW : W.Passive) {j : Journal} {w : ω} {ws : List Wire}
    (hfit : ∀ w ∈ ws, w.Fits) (hidle : j.fileBuffer.Reading)
    (hcp : j.getCheckpoint = j.getPosition + (wiresBytes ws).length)
    (hbody : wiresBytes ws <+: j.file.data.drop j.getPosition) :
    ∃ b, b.file = j.file ∧
      match W.hearAll (decodeAll j.context ws) w with
      | .ok _ w' => b.Idle ∧ b.position = j.getCheckpoint ∧
          playUntilCheckpoint W ⟨j, w⟩ = .ok () ⟨⟨b, j.checkpoints,
            contextAfter j.context (decodeAll j.context ws)⟩, w'⟩
      | .error e w' => b.Reading ∧ j.getPosition ≤ b.getPosition ∧
          b.getPosition ≤ j.getCheckpoint ∧
          ∃ c, playUntilCheckpoint W ⟨j, w⟩ = .error e ⟨⟨b, j.checkpoints, c⟩, w'⟩ := by
  have hrun := runAll_tells hW ws (t := ⟨j, w⟩) j.getPosition
    (show _ ≤ j.getCheckpoint by omega)
  obtain ⟨b, hfile, hplay⟩ := playUntil_runs hW (t := ⟨j, w⟩) hfit hcp (Nat.le_refl _) hidle
    rfl hbody
  have hgoal : playUntilCheckpoint W ⟨j, w⟩ = playUntil W j.getCheckpoint ⟨j, w⟩ := rfl
  refine ⟨b, hfile, ?_⟩
  rw [hgoal]
  rw [Tells] at hrun
  show match W.hearAll (decodeAll j.context ws) w with
    | .ok _ w' => _
    | .error e w' => _
  cases hhear : W.hearAll (decodeAll j.context ws) w with
  | ok u w' =>
      simp only [context, hhear] at hrun
      rw [hrun] at hplay
      exact ⟨hplay.2.1, hplay.2.2, hplay.1⟩
  | error e w' =>
      simp only [context, hhear] at hrun
      obtain ⟨c, hrun⟩ := hrun
      rw [hrun] at hplay
      exact ⟨hplay.2.1, hplay.2.2.1, hplay.2.2.2, c, hplay.1⟩

end Replay

/-- Playing an opened journal to its checkpoint. -/
theorem Journal.Opened.plays {ω : Type} {W : Writable ω} (hW : W.Passive) {file : File}
    {c : Checkpoints} {j : Journal} (hj : Opened file c j) {ws : List Wire}
    (hfit : ∀ w ∈ ws, w.Fits) (hheader : headerSize ≤ c.checkpointPosition)
    (hsize : c.checkpointPosition ≤ file.data.length)
    (hbody : slice file.data headerSize c.checkpointPosition = wiresBytes ws) {w w' : ω}
    (hhear : W.hearAll (decodeAll .reset ws) w = .ok () w') :
    ∃ b : FileBuffer, b.file = file ∧ b.Idle ∧ b.position = c.checkpointPosition ∧
      playUntilCheckpoint W ⟨j, w⟩
        = .ok () ⟨⟨b, j.checkpoints, contextAfter .reset (decodeAll .reset ws)⟩, w'⟩ := by
  have hlen : c.checkpointPosition = headerSize + (wiresBytes ws).length := by
    rw [← hbody, length_slice_of_le hsize]; omega
  have hpos : j.getPosition = headerSize := hj.idle.getPosition.trans hj.position
  obtain ⟨b, hfile, hplay⟩ := playUntilCheckpoint_hear hW (w := w) hfit hj.idle.reading
    (by rw [hj.checkpoint, hpos, hlen])
    (prefix_drop_iff_slice.mpr (by rw [hj.file_eq, hpos, ← hlen]; exact hbody))
  rw [hj.context, hhear] at hplay
  exact ⟨b, hfile.trans hj.file_eq, hplay.1, hplay.2.1.trans hj.checkpoint, hplay.2.2⟩

/-- Open a file for reading and replay it from its beginning. -/
def replayInto {ω : Type} (W : Writable ω) (w : ω) (file : File) : Except Exn (Replay ω) :=
  match Journal.openReadonly file .none false with
  | .error e => .error e
  | .ok j =>
      match replayLog W ⟨j, w⟩ with
      | .error e _ => .error e
      | .ok _ r => .ok r

theorem replayInto_hear {ω : Type} {W : Writable ω} (hW : W.Passive) {file : File}
    (hheader : HasHeader file.data) {c : Checkpoints} (hc : Agrees (headerWord file.data) c)
    (hsize : c.checkpointPosition ≤ file.data.length) {ws : List Wire}
    (hfit : ∀ w ∈ ws, w.Fits)
    (hbody : slice file.data headerSize c.checkpointPosition = wiresBytes ws) {w w' : ω}
    (hhear : W.hearAll (decodeAll .reset ws) w = .ok () w') :
    ∃ r, replayInto W w file = .ok r ∧ r.writable = w' ∧
      r.journal.context = contextAfter .reset (decodeAll .reset ws) ∧
      r.journal.getCheckpoint = c.checkpointPosition ∧
      r.journal.getPosition = c.checkpointPosition := by
  obtain ⟨j, hopen, hj⟩ := Journal.openReadonly_opened hheader hc hsize
    .none (by decide) false
  have hidle := setPosition_idle hj.idle headerSize
  have hrewind : Journal.Opened file c j.rewind :=
    ⟨hidle.2.2.trans hj.file_eq, hidle.1, hidle.2.1, rfl, hj.hardCheckpoint, hj.checkpoint,
      hj.agrees⟩
  obtain ⟨b, -, hb, hposition, hplay⟩ := hrewind.plays hW hfit
    (Nat.le_trans hc.header_le hc.hard_le) hsize hbody hhear
  have hlog : replayLog W ⟨j, w⟩ = .ok () ⟨⟨b, j.rewind.checkpoints,
      contextAfter .reset (decodeAll .reset ws)⟩, w'⟩ := by
    rw [replayLog, modify_bind_run]
    exact hplay
  refine ⟨⟨⟨b, j.rewind.checkpoints, contextAfter .reset (decodeAll .reset ws)⟩, w'⟩, ?_,
    rfl, rfl, hrewind.checkpoint, hb.getPosition.trans hposition⟩
  rw [replayInto, hopen]
  simp only [hlog]

end Joedb
