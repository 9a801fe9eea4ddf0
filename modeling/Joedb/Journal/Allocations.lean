import Joedb.Lib.Logged
import Joedb.Journal.Following

/-!
# What reading a journal allocates

A journal says how long its strings, its vectors and its blobs are, and a
corrupted one may say anything. `one_step` once more, with a log of the memory
that it asks for before it reads: nothing that it asks for is larger than the
checkpoint, it is `one_step` otherwise, and each step that returns has gone on
by one byte at least, so that playing ends.
-/

namespace Joedb

open ByteFile StateExcept Logged

/-- A `resize` to a size that was read from the journal. -/
inductive Allocation where
  | string (length : Nat)
  | vector (elements : Nat)
  deriving DecidableEq, Repr

def Allocation.size : Allocation → Nat
  | string length => length
  | vector elements => elements

namespace Replay

abbrev Allocating (ω : Type) := Logged Exn (Replay ω) Allocation

variable {ω α β : Type}

namespace Allocating

/-- `File_Buffer::safe_read_string`, up to the checkpoint. -/
def safeReadString : Allocating ω Bytes := do
  let s ← lift get
  let size ← lift (buffer (FileBuffer.compactRead 64))
  if size > 0 ∧ size < s.checkpoint then do
    note (.string size)
    lift (buffer (FileBuffer.readData size))
  else pure []

def readMethod : (k : Kind) → Allocating ω k.Val
  | .string => safeReadString
  | .reference => lift (Replay.readMethod .reference)
  | .blob => lift (Replay.readMethod .blob)
  | .fixed size => lift (Replay.readMethod (.fixed size))

def readEach (k : Kind) : Nat → List k.Val → Allocating ω (ReadValues k)
  | 0, vs => pure (vs, none)
  | size + 1, vs => fun s =>
      match readMethod k s with
      | .ok v s => readEach k size (vs ++ [v]) s
      | .error e s => .ok (vs, some (e, [])) s

def readVector : (k : Kind) → Nat → Allocating ω (ReadValues k)
  | .string, size => readEach .string size []
  | .reference, size => readEach .reference size []
  | .blob, size => readEach .blob size []
  | .fixed n, size => lift (Replay.readVector (.fixed n) size)

variable (W : Writable ω)

def performUpdate (ty : Ty) : Allocating ω Unit := do
  let value ← readMethod ty.kind
  let c := (← lift get).context
  lift (tell (W.call (.update ty c.tableOfLastOperation c.recordOfLastOperation
    c.fieldOfLastUpdate (ty.toArg value))))

/-- Without a storage to read into, the values are read into a vector. -/
def performUpdateVector (ty : Ty) (size : Nat) : Allocating ω Unit := do
  let capacity ← lift (prepareUpdateVector W ty size)
  if capacity.isNone then do
    note (.vector size)
    let read ← readVector ty.kind size
    lift (finishUpdateVector W ty capacity read)
  else do
    let read ← readVector ty.kind size
    lift (finishUpdateVector W ty capacity read)

def performBlobData (size : Nat) : Allocating ω Unit := do
  let s ← lift get
  if W.wantsBlobData s.writable ∧ size < s.checkpoint then
    if size > 0 then do
      note (.string size)
      let data ← lift (buffer (FileBuffer.readData size))
      lift (tell (W.call (.writeBlob data)))
    else lift (tell (W.call (.writeBlob [])))
  else lift (modify fun s => s.withBuffer (s.journal.fileBuffer.ignore size))

/-- The `switch`, where it reads a string, a vector or a blob. -/
def perform : Operation → Allocating ω Unit
  | .createTable => do
      let name ← safeReadString
      lift (tell (W.call (.createTable name)))
  | .renameTable => do
      let tableId ← lift (buffer FileBuffer.readId)
      let name ← safeReadString
      lift (tell (W.call (.renameTable tableId name)))
  | .addField => do
      let tableId ← lift (buffer FileBuffer.readId)
      let name ← safeReadString
      let type ← lift readType
      lift (tell (W.call (.addField tableId name type)))
  | .renameField => do
      let tableId ← lift (buffer FileBuffer.readId)
      let fieldId ← lift (buffer FileBuffer.readId)
      let name ← safeReadString
      lift (tell (W.call (.renameField tableId fieldId name)))
  | .update ty => do
      lift (setTable (← lift (buffer FileBuffer.readId)))
      lift (setRecord (← lift (buffer FileBuffer.readReference)))
      lift (setField (← lift (buffer FileBuffer.readId)))
      performUpdate W ty
  | .updateLast ty => do
      lift (setField (← lift (buffer FileBuffer.readId)))
      performUpdate W ty
  | .updateNext ty => do
      lift nextRecord
      performUpdate W ty
  | .updateVector ty => do
      lift (setTable (← lift (buffer FileBuffer.readId)))
      lift (setRecord (← lift (buffer FileBuffer.readReference)))
      lift (setField (← lift (buffer FileBuffer.readId)))
      let size ← lift (buffer (FileBuffer.compactRead 64))
      if size = 0 then pure () else performUpdateVector W ty size
  | .custom => do
      let name ← safeReadString
      lift (tell (W.call (.custom name)))
  | .comment => do
      let comment ← safeReadString
      lift (tell (W.call (.comment comment)))
  | .blob => do
      let size ← lift (buffer (FileBuffer.compactRead 64))
      let s ← lift get
      lift (tell (W.onBlob ⟨s.journal.getPosition, size⟩))
      performBlobData W size
  | operation => lift (Replay.perform W operation)

def oneStep : Allocating ω Unit := do
  let code ← lift (buffer FileBuffer.readByte)
  match Operation.ofCode code with
  | some operation => perform W operation
  | none => lift do
      let s ← get
      throw (.exception s!"Unexpected operation: get_position() = {s.journal.getPosition}")

end Allocating

/-! ## The log -/

/-- An allocation that the checkpoint allows. -/
def Allows (t : Replay ω) (a : Allocation) : Prop := a.size ≤ t.checkpoint

/-- What the checkpoint allows after a part of a step, it allows before. -/
theorem allows_of_follows {m : Play ω α} (h : Keeps Follows m) :
    Keeps (fun t t' : Replay ω => ∀ a, Allows t' a → Allows t a) m := by
  intro t a ha
  have hcheckpoints := (h t).1
  rw [Allows, checkpoint, Journal.getCheckpoint, hcheckpoints] at ha
  exact ha

theorem buffer_bind (m : EStateM Exn FileBuffer α) (f : α → EStateM Exn FileBuffer β) :
    (buffer (m >>= f) : Play ω β) = buffer m >>= fun a => buffer (f a) := by
  funext t
  cases h : m t.journal.fileBuffer with
  | ok a b =>
      have hm : (buffer m : Play ω α) t = .ok a (t.withBuffer b) := onPart_ok h
      rw [bind_ok hm]
      simp only [buffer, onPart, bind_ok h]
      rfl
  | error e b =>
      have hm : (buffer m : Play ω α) t = .error e (t.withBuffer b) := onPart_error h
      rw [bind_error hm]
      exact onPart_error (bind_error h)

theorem buffer_ite (c : Prop) [Decidable c] (m m' : EStateM Exn FileBuffer α) :
    (buffer (if c then m else m') : Play ω α) = if c then buffer m else buffer m' := by
  split <;> rfl

/-- A part that allocates nothing, and then the rest. -/
theorem logs_lift_bind {p : Play ω α} (hp : Keeps Follows p) {f : α → Play ω β}
    {g : α → Allocating ω β} {t : Replay ω} (hg : ∀ a t', Logs Allows (f a) (g a) t') :
    Logs Allows (p >>= f) (lift p >>= g) t :=
  logs_bind (logs_lift p t) (allows_of_follows hp) fun a t' _ => hg a t'

theorem logs_safeReadString (t : Replay ω) :
    Logs Allows safeReadString Allocating.safeReadString t := by
  have hread : (safeReadString : Play ω Bytes) = get >>= fun s =>
      buffer (FileBuffer.compactRead 64) >>= fun size =>
        if size > 0 ∧ size < s.checkpoint then buffer (FileBuffer.readData size)
        else pure [] := by
    funext t
    rw [safeReadString, get_bind_run, get_bind_run, FileBuffer.safeReadString, buffer_bind]
    simp only [buffer_ite]
    rfl
  rw [hread]
  refine logs_get_bind (logs_bind (logs_lift _ t)
    (allows_of_follows (follows_buffer (FileBuffer.compactRead_consumes 64)))
    fun size t' hsize => ?_)
  have hcheckpoint : t'.checkpoint = t.checkpoint := by
    have hfollows := (follows_buffer (FileBuffer.compactRead_consumes 64)).ok hsize
    rw [checkpoint, Journal.getCheckpoint, hfollows.1]
    rfl
  split
  · next hfits =>
      refine logs_note_bind ?_ (logs_lift _ _)
      rw [Allows, hcheckpoint]
      exact Nat.le_of_lt hfits.2
  · exact logs_pure _ _

theorem logs_safeReadString_bind {f : Bytes → Play ω β} {g : Bytes → Allocating ω β}
    {t : Replay ω} (hg : ∀ a t', Logs Allows (f a) (g a) t') :
    Logs Allows (safeReadString >>= f) (Allocating.safeReadString >>= g) t :=
  logs_bind (logs_safeReadString t) (allows_of_follows follows_safeReadString) fun a t' _ => hg a t'

theorem logs_readMethod : (k : Kind) → (t : Replay ω) →
    Logs Allows (readMethod k) (Allocating.readMethod k) t
  | .string, t => logs_safeReadString t
  | .reference, t => logs_lift _ t
  | .blob, t => logs_lift _ t
  | .fixed _, t => logs_lift _ t

theorem logs_readEach (k : Kind) (size : Nat) (vs : List k.Val) (t : Replay ω) :
    Logs Allows (readEach k size vs) (Allocating.readEach k size vs) t := by
  induction size generalizing vs t with
  | zero => exact logs_pure _ t
  | succ size ih =>
      intro log
      obtain ⟨entries, hentries, hrun⟩ := logs_readMethod k t log
      simp only [Allocating.readEach]
      cases hread : readMethod k t with
      | ok v t' =>
          rw [hrun, lift_ok hread]
          obtain ⟨entries', hentries', hrun'⟩ := ih (vs ++ [v]) t' (log ++ entries)
          refine ⟨entries ++ entries', fun a ha => ?_, ?_⟩
          · rcases List.mem_append.mp ha with ha | ha
            · exact hentries a ha
            · exact (allows_of_follows (follows_readMethod k)).ok hread a (hentries' a ha)
          · dsimp only
            rw [hrun', List.append_assoc]
            simp only [lift, readEach, hread]
      | error e t' =>
          rw [hrun, lift_error hread]
          refine ⟨entries, hentries, ?_⟩
          simp only [lift, readEach, hread]

theorem logs_readVector : (k : Kind) → (size : Nat) → (t : Replay ω) →
    Logs Allows (readVector k size) (Allocating.readVector k size) t
  | .string, size, t => logs_readEach .string size [] t
  | .reference, size, t => logs_readEach .reference size [] t
  | .blob, size, t => logs_readEach .blob size [] t
  | .fixed _, _, t => logs_lift _ t

variable (W : Writable ω)

theorem logs_performUpdate (ty : Ty) (t : Replay ω) :
    Logs Allows (performUpdate W ty) (Allocating.performUpdate W ty) t :=
  logs_bind (logs_readMethod ty.kind t) (allows_of_follows (follows_readMethod ty.kind))
    fun _ t' _ => logs_get_bind (logs_lift _ t')

theorem follows_prepareUpdateVector (ty : Ty) (size : Nat) :
    Keeps Follows (prepareUpdateVector W ty size) :=
  follows_of_journal (prepareUpdateVector_journal ty size)

/-- The size of a vector has been compared with the checkpoint before its storage is asked for. -/
theorem prepareUpdateVector_size {ty : Ty} {size : Nat} {t t' : Replay ω} {capacity : Option Nat}
    (h : prepareUpdateVector W ty size t = .ok capacity t') : size ≤ t'.checkpoint := by
  have hfollows := (follows_prepareUpdateVector W ty size).ok h
  rw [prepareUpdateVector, get_bind_run] at h
  have hsize := (guard_bind_eq_ok.mp h).1
  rw [checkpoint, Journal.getCheckpoint, hfollows.1]
  exact Nat.not_lt.mp hsize

theorem logs_performUpdateVector (ty : Ty) (size : Nat) (t : Replay ω) :
    Logs Allows (performUpdateVector W ty size) (Allocating.performUpdateVector W ty size) t := by
  refine logs_bind (logs_lift _ t) (allows_of_follows (follows_prepareUpdateVector W ty size))
    fun capacity t' hprepare => ?_
  have hread : Logs Allows
      (readVector ty.kind size >>= fun read => finishUpdateVector W ty capacity read)
      (Allocating.readVector ty.kind size >>= fun read =>
        lift (finishUpdateVector W ty capacity read)) t' :=
    logs_bind (logs_readVector ty.kind size t')
      (allows_of_follows (follows_readVector ty.kind size)) fun _ t'' _ => logs_lift _ t''
  split
  · exact logs_note_bind (prepareUpdateVector_size W hprepare) hread
  · exact hread

theorem logs_performBlobData (size : Nat) (t : Replay ω) :
    Logs Allows (performBlobData W size) (Allocating.performBlobData W size) t := by
  refine logs_get_bind ?_
  split
  · next hwanted =>
      rw [readBlobData]
      split
      · refine logs_note_bind (Nat.le_of_lt hwanted.2)
          (logs_lift_bind ?_ fun _ t' => logs_lift _ t')
        exact follows_buffer (FileBuffer.readData_consumes size)
      · exact logs_lift _ t
  · exact logs_lift _ t

theorem logs_perform (o : Operation) (t : Replay ω) :
    Logs Allows (perform W o) (Allocating.perform W o) t := by
  have hid : Keeps Follows (buffer FileBuffer.readId : Play ω UInt16) :=
    follows_buffer FileBuffer.readId_consumes
  have hrecord : Keeps Follows (buffer FileBuffer.readReference : Play ω Int) :=
    follows_buffer FileBuffer.readReference_consumes
  have hsize : Keeps Follows (buffer (FileBuffer.compactRead 64) : Play ω Nat) :=
    follows_buffer (FileBuffer.compactRead_consumes 64)
  have htable : ∀ id, Keeps Follows (setTable id : Play ω Unit) := fun _ => follows_context _
  have hset : ∀ id, Keeps Follows (setRecord id : Play ω Unit) := fun _ => follows_context _
  have hfield : ∀ id, Keeps Follows (setField id : Play ω Unit) := fun _ => follows_context _
  cases o with
  | createTable => exact logs_safeReadString_bind fun _ t' => logs_lift _ t'
  | renameTable =>
      exact logs_lift_bind hid fun _ _ => logs_safeReadString_bind fun _ t' => logs_lift _ t'
  | addField =>
      exact logs_lift_bind hid fun _ _ => logs_safeReadString_bind fun _ _ =>
        logs_lift_bind follows_readType fun _ t' => logs_lift _ t'
  | renameField =>
      exact logs_lift_bind hid fun _ _ => logs_lift_bind hid fun _ _ =>
        logs_safeReadString_bind fun _ t' => logs_lift _ t'
  | update ty =>
      exact logs_lift_bind hid fun _ _ => logs_lift_bind (htable _) fun _ _ =>
        logs_lift_bind hrecord fun _ _ => logs_lift_bind (hset _) fun _ _ =>
          logs_lift_bind hid fun _ _ => logs_lift_bind (hfield _) fun _ t' =>
            logs_performUpdate W ty t'
  | updateLast ty =>
      exact logs_lift_bind hid fun _ _ => logs_lift_bind (hfield _) fun _ t' =>
        logs_performUpdate W ty t'
  | updateNext ty => exact logs_lift_bind follows_nextRecord fun _ t' => logs_performUpdate W ty t'
  | updateVector ty =>
      refine logs_lift_bind hid fun _ _ => logs_lift_bind (htable _) fun _ _ =>
        logs_lift_bind hrecord fun _ _ => logs_lift_bind (hset _) fun _ _ =>
          logs_lift_bind hid fun _ _ => logs_lift_bind (hfield _) fun _ _ =>
            logs_lift_bind hsize fun size t' => ?_
      split
      · exact logs_pure _ t'
      · exact logs_performUpdateVector W ty size t'
  | custom => exact logs_safeReadString_bind fun _ t' => logs_lift _ t'
  | comment => exact logs_safeReadString_bind fun _ t' => logs_lift _ t'
  | blob =>
      exact logs_lift_bind hsize fun size _ => logs_get_bind
        (logs_lift_bind (follows_tell _) fun _ t' => logs_performBlobData W size t')
  | _ => exact logs_lift _ t

/-- The log leaves a step as it is, and what it has was allowed. -/
theorem logs_oneStep (t : Replay ω) : Logs Allows (oneStep W) (Allocating.oneStep W) t := by
  refine logs_lift_bind (follows_buffer FileBuffer.readByte_consumes) fun code t' => ?_
  cases Operation.ofCode code with
  | some operation => exact logs_perform W operation t'
  | none => exact logs_lift _ t'

/-! ## Playing -/

/-- The loop of `raw_play_until`, whatever it does. -/
inductive PlaysUntil (stop : Int) : Replay ω → EStateM.Result Exn (Replay ω) Unit → Prop
  | done {t : Replay ω} (h : stop ≤ t.journal.getPosition) : PlaysUntil stop t (.ok () t)
  | throws {t t' : Replay ω} {e : Exn} (h : t.journal.getPosition < stop)
      (hstep : oneStep W t = .error e t') : PlaysUntil stop t (.error e t')
  | step {t t' : Replay ω} {result : EStateM.Result Exn (Replay ω) Unit}
      (h : t.journal.getPosition < stop) (hstep : oneStep W t = .ok () t')
      (hrest : PlaysUntil stop t' result) : PlaysUntil stop t result

/-- The journals that are read, over any file: they are opened and played, and in between another
process writes to the file, or the checkpoint is read again. The `Writable` may be another one each
time. -/
inductive Readable : Replay ω → Prop
  | opened {file : File} {recovery : Recovery} {forWritable : Bool} {j : Journal}
      (h : Journal.openReadonly file recovery forWritable = .ok j) (w : ω) : Readable ⟨j, w⟩
  | rewind {t : Replay ω} (h : Readable t) : Readable { t with journal := t.journal.rewind }
  | skipDirectlyTo {t : Replay ω} (h : Readable t) (position : Nat) :
      Readable { t with journal := t.journal.skipDirectlyTo position }
  | flush {t : Replay ω} (h : Readable t) : Readable { t with journal := t.journal.flush }
  | pull {t : Replay ω} (h : Readable t) :
      Readable { t with journal := after Journal.pull t.journal }
  | overwrite {t : Replay ω} (h : Readable t) (data : Bytes) :
      Readable (t.withBuffer { t.journal.fileBuffer with
        file := { t.journal.fileBuffer.file with data } })
  | tell {t : Replay ω} (h : Readable t) (w : ω) : Readable (t.withWritable w)
  | oneStep {t : Replay ω} (h : Readable t) (W : Writable ω) : Readable (after (oneStep W) t)

theorem setPosition_consuming {b : FileBuffer} (h : b.Consuming) (position : Nat) :
    (b.setPosition position).Consuming := by
  rw [FileBuffer.setPosition, FileBuffer.flush_of_consuming h]
  exact ⟨Nat.le_refl _, Nat.zero_le _⟩

theorem openReadonly_consuming {file : File} {recovery : Recovery} {forWritable : Bool}
    {j : Journal} (h : Journal.openReadonly file recovery forWritable = .ok j) :
    j.fileBuffer.Consuming := by
  have hcreate : (FileBuffer.create file).Consuming := ⟨Nat.le_refl _, Nat.le_refl _⟩
  rw [Journal.openReadonly] at h
  split at h
  · split at h
    · split at h
      · cases h
      · obtain rfl := Except.ok.inj h
        exact setPosition_consuming hcreate _
    · cases h
  · split at h
    · cases h
    · obtain rfl := Except.ok.inj h
      exact hcreate

theorem pull_buffer (j : Journal) : (after Journal.pull j).fileBuffer = j.fileBuffer := by
  have hpull : Keeps (fun j j' : Journal => j'.fileBuffer = j.fileBuffer) Journal.pull := by
    have htrans : ∀ a b c : Journal, b.fileBuffer = a.fileBuffer → c.fileBuffer = b.fileBuffer →
        c.fileBuffer = a.fileBuffer := fun _ _ _ h h' => h'.trans h
    have hwithout : Keeps (fun j j' : Journal => j'.fileBuffer = j.fileBuffer)
        Journal.pullWithoutLocking := by
      intro j
      unfold after Journal.pullWithoutLocking
      simp only []
      cases (j.file.fullPread 32 0).2 <;> rfl
    have hrefl : ∀ j : Journal, j.fileBuffer = j.fileBuffer := fun _ => rfl
    exact keeps_bind htrans (keeps_get hrefl) fun _ =>
      keeps_bind htrans hwithout fun _ => keeps_bind htrans (keeps_get hrefl) fun _ =>
        keeps_pure hrefl _
  exact hpull j

theorem Readable.consuming {t : Replay ω} (h : Readable t) : t.journal.fileBuffer.Consuming := by
  induction h with
  | opened h w => exact openReadonly_consuming h
  | rewind _ ih => exact setPosition_consuming ih _
  | skipDirectlyTo _ position ih => exact setPosition_consuming ih position
  | @flush t _ ih =>
      show t.journal.fileBuffer.flush.Consuming
      rw [FileBuffer.flush_of_consuming ih]
      exact ⟨Nat.le_refl _, Nat.zero_le _⟩
  | @pull t _ ih =>
      show (after Journal.pull t.journal).fileBuffer.Consuming
      rw [pull_buffer]
      exact ih
  | overwrite _ data ih => exact ⟨ih.index_le, ih.size_le⟩
  | tell _ w ih => exact ih
  | oneStep _ W ih => exact ((follows_oneStep W _).2 ih).consuming

/-- The fuel of `raw_play_until` is enough: it ends as the loop does, by an exception or where it
was to get to. -/
theorem rawPlayUntilGo_plays {stop : Int} (fuel : Nat) {t : Replay ω}
    (h : t.journal.fileBuffer.Consuming) (hfuel : stop ≤ t.journal.getPosition + fuel) :
    PlaysUntil W stop t (rawPlayUntilGo W stop.toNat fuel t) := by
  induction fuel generalizing t with
  | zero => exact .done (by omega)
  | succ fuel ih =>
      rw [rawPlayUntilGo, get_bind_run]
      split
      · next hlt =>
          cases hstep : oneStep W t with
          | ok a t' =>
              have hforth := oneStep_forth W h hstep
              rw [bind_ok hstep]
              exact .step (by omega) hstep
                (ih (((follows_oneStep W).ok hstep).2 h).consuming (by omega))
          | error e t' =>
              rw [bind_error hstep]
              exact .throws (by omega) hstep
      · exact .done (by omega)

theorem PlaysUntil.reaches {stop : Int} {t : Replay ω}
    {result : EStateM.Result Exn (Replay ω) Unit} (h : PlaysUntil W stop t result) {t' : Replay ω}
    (hok : result = .ok () t') : stop ≤ t'.journal.getPosition := by
  induction h with
  | done h =>
      obtain ⟨-, rfl⟩ := EStateM.Result.ok.inj hok
      exact h
  | throws _ _ => cases hok
  | step _ _ _ ih => exact ih hok

/-- Whatever is in the file: a step throws or gets on, what it allocates is within the checkpoint,
and playing ends. -/
theorem oneStep_progress {t : Replay ω} (h : Readable t) :
    (∀ log, ∃ allocations, (∀ a ∈ allocations, a.size ≤ t.checkpoint) ∧
      Allocating.oneStep W (t, log) = lift (oneStep W) (t, log ++ allocations)) ∧
    ((∃ e t', oneStep W t = .error e t') ∨
      ∃ t', oneStep W t = .ok () t' ∧ t.journal.getPosition < t'.journal.getPosition) ∧
    ∀ stop : Int, PlaysUntil W stop t (rawPlayUntil W stop.toNat t) ∧
      ((∃ e t', rawPlayUntil W stop.toNat t = .error e t') ∨
        ∃ t', rawPlayUntil W stop.toNat t = .ok () t' ∧ stop ≤ t'.journal.getPosition) := by
  refine ⟨logs_oneStep W t, ?_, fun stop => ?_⟩
  · cases hstep : oneStep W t with
    | ok a t' => exact .inr ⟨t', rfl, oneStep_forth W h.consuming hstep⟩
    | error e t' => exact .inl ⟨e, t', rfl⟩
  · have hplays : PlaysUntil W stop t (rawPlayUntil W stop.toNat t) := by
      rw [rawPlayUntil, get_bind_run]
      exact rawPlayUntilGo_plays W _ h.consuming (by omega)
    refine ⟨hplays, ?_⟩
    cases hplay : rawPlayUntil W stop.toNat t with
    | ok a t' => exact .inr ⟨t', rfl, hplays.reaches W hplay⟩
    | error e t' => exact .inl ⟨e, t', rfl⟩

/-- A comment that says that it is 2^60 bytes long. -/
def vastComment : File :=
  ⟨.readExisting, .whole,
    List.replicate 41 0 ++ [Operation.comment.code, 0xf0, 0, 0, 0, 0, 0, 0, 0], []⟩

theorem oneStep_progress_vastComment :
    ∃ j, Journal.openReadonly vastComment .ignoreHeader false = .ok j ∧
      PlaysUntil dummyWritable 50 ⟨j, ()⟩ (rawPlayUntil dummyWritable 50 ⟨j, ()⟩) := by
  obtain ⟨j, hj⟩ : ∃ j, Journal.openReadonly vastComment .ignoreHeader false = .ok j := ⟨_, rfl⟩
  exact ⟨j, hj, ((oneStep_progress dummyWritable (.opened hj ())).2.2 50).1⟩

end Replay

end Joedb
