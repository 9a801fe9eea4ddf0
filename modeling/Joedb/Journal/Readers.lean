import Joedb.Journal.BufferSpec
import Joedb.Journal.Readonly

/-!
# What the reader makes of the bytes

In front of the bytes of a `Wire`, `one_step` does what `Wire.run` does: the
same effects on the context and on the `Writable`, with the reading done. It
ends behind those bytes, or in the exception of the `Writable`.

Many steps are then one step after another, and `runAll` is the replay of a
whole stretch of the journal.
-/

namespace Joedb

open ByteFile StateExcept FileBuffer

namespace Replay

variable {ω : Type}

@[simp] theorem withBuffer_fileBuffer (s : Replay ω) (b : FileBuffer) :
    (s.withBuffer b).journal.fileBuffer = b := rfl

@[simp] theorem withBuffer_context (s : Replay ω) (b : FileBuffer) :
    (s.withBuffer b).context = s.context := rfl

@[simp] theorem withBuffer_checkpoint (s : Replay ω) (b : FileBuffer) :
    (s.withBuffer b).checkpoint = s.checkpoint := rfl

@[simp] theorem withBuffer_writable (s : Replay ω) (b : FileBuffer) :
    (s.withBuffer b).writable = s.writable := rfl

@[simp] theorem withBuffer_withContext (s : Replay ω) (b : FileBuffer) (c : Context) :
    (s.withBuffer b).withContext c = (s.withContext c).withBuffer b := rfl

@[simp] theorem withBuffer_withWritable (s : Replay ω) (b : FileBuffer) (w : ω) :
    (s.withBuffer b).withWritable w = (s.withWritable w).withBuffer b := rfl

/-! ## Calls -/

theorem tell_eq {α : Type} (m : EStateM Exn ω α) (t : Replay ω) :
    tell m t = onPart (·.writable) withWritable m t := rfl

theorem tell_ok {α : Type} {m : EStateM Exn ω α} {t : Replay ω} {a : α} {w : ω}
    (h : m t.writable = .ok a w) : tell m t = .ok a (t.withWritable w) := onPart_ok h

theorem tell_error {α : Type} {m : EStateM Exn ω α} {t : Replay ω} {e : Exn} {w : ω}
    (h : m t.writable = .error e w) : tell m t = .error e (t.withWritable w) := onPart_error h

/-! ## Reads and silent steps -/

theorem Reads.runs {α : Type} {m : EStateM Exn FileBuffer α} {bs : Bytes} {a : α}
    (h : Reads cursor m bs a) (t : Replay ω) (p : Nat) :
    Runs cursor withBuffer (buffer m) t p bs (.ok a t) := by
  intro b hat hpre
  obtain ⟨b', heq, hat', hfr⟩ := h b p hat hpre
  refine ⟨b', hfr, ?_, hat'⟩
  exact onPart_ok heq

/-- A read, and what comes after it. -/
theorem runs_read {α β : Type} {m : EStateM Exn FileBuffer α} {u v : Bytes} {a : α}
    (h : Reads cursor m u a) {f : α → Play ω β} {t : Replay ω} {p : Nat}
    {r : EStateM.Result Exn (Replay ω) β}
    (hf : Runs cursor withBuffer (f a) t (p + u.length) v r) :
    Runs cursor withBuffer (buffer m >>= f) t p (u ++ v) r :=
  (Reads.runs h t p).bind_ok hf

theorem silent_tell {α : Type} (m : EStateM Exn ω α) :
    Silent withBuffer (tell m : Play ω α) := by
  intro t b
  simp only [tell, onPart, withBuffer_writable]
  cases m t.writable <;> rfl

theorem silent_setTable (t : TableId) : Silent withBuffer (setTable t : Play ω Unit) :=
  silent_modify fun _ _ => rfl

theorem silent_setRecord (r : RecordId) :
    Silent withBuffer (setRecord r : Play ω Unit) := silent_modify fun _ _ => rfl

theorem silent_nextRecord : Silent withBuffer (nextRecord : Play ω Unit) :=
  silent_get_bind (fun _ => silent_setRecord _) fun _ _ => rfl

/-- A step on the context, and what comes after it. -/
theorem runs_modify {β : Type} {g : Replay ω → Replay ω}
    (hg : ∀ t b, g (withBuffer t b) = withBuffer (g t) b) {f : Unit → Play ω β}
    {t : Replay ω} {p : Nat} {bs : Bytes} {r : EStateM.Result Exn (Replay ω) β}
    (hf : Runs cursor withBuffer (f ()) (g t) p bs r) :
    Runs cursor withBuffer (modify g >>= f) t p bs r :=
  (Runs.silent (silent_modify hg) t p [] (.inl rfl)).bind_ok (u := []) hf

/-- A look at the machine, and what comes after it. -/
theorem runs_get {β : Type} {f : Replay ω → Play ω β} {m : Play ω β} {t : Replay ω}
    {p : Nat} {bs : Bytes} {r : EStateM.Result Exn (Replay ω) β}
    (hf : ∀ b, cursor.At b p → f (t.withBuffer b) = m)
    (h : Runs cursor withBuffer m t p bs r) :
    Runs cursor withBuffer (get >>= f) t p bs r := by
  intro b hat hpre
  rw [get_bind_run, hf b hat]
  exact h b hat hpre

/-- The last read of a step. What comes after it is silent. -/
theorem runs_last {α β : Type} {m : Play ω α} {bs : Bytes} {a : α} {t : Replay ω}
    {p : Nat} (h : Runs cursor withBuffer m t p bs (.ok a t)) {f : α → Play ω β}
    (hf : Silent withBuffer (f a)) :
    Runs cursor withBuffer (m >>= f) t p bs (f a t) := by
  have hall := h.bind_ok (Runs.silent hf t (p + bs.length) [] (.inl rfl))
  rwa [List.append_nil] at hall

/-! ## Values -/

theorem safeReadString_runs {s : Bytes} {t : Replay ω} (hs : SizeFits s.length)
    (hcp : s.length < t.checkpoint) (p : Nat) :
    Runs cursor withBuffer safeReadString t p (stringBytes s) (.ok s t) :=
  runs_get (fun _ _ => rfl) (Reads.runs (safeReadString_reads hcp hs) t p)

theorem length_stringBytes (s : Bytes) : s.length < (stringBytes s).length := by
  have := length_compactWrite_pos (s.length : Int)
  rw [stringBytes, List.length_append]
  omega

theorem readType_runs (type : FieldType) (t : Replay ω) (p : Nat) :
    Runs cursor withBuffer readType t p type.bytes (.ok type t) := by
  rw [FieldType.bytes]
  by_cases href : type.typeId = referenceTypeId
  · rw [if_pos href]
    refine runs_read (u := [_]) (readByte_reads type.typeId) ?_
    rw [if_pos href]
    have htype : FieldType.reference type.tableId = type := by
      cases type with
      | mk typeId tableId noTable => simp only [FieldType.reference, ← href]
    have h := runs_last (f := fun tableId => (pure (.reference tableId) : Play ω FieldType))
      (Reads.runs (readId_reads type.tableId) t (p + 1)) (silent_pure _)
    rw [htype] at h
    exact h
  · rw [if_neg href]
    refine runs_read (u := [_]) (readByte_reads type.typeId) ?_
    rw [if_neg href]
    have htype : FieldType.plain type.typeId = type := by
      cases type with
      | mk typeId tableId noTable => simp only [FieldType.plain, noTable href]
    rw [htype]
    exact Runs.silent (silent_pure type) t _ [] (.inl rfl)

theorem readMethod_runs {k : Kind} {v : k.Val} (hv : k.Fits v) {t : Replay ω}
    (hcp : (k.bytes v).length ≤ t.checkpoint) (p : Nat) :
    Runs cursor withBuffer (readMethod k) t p (k.bytes v) (.ok v t) := by
  cases k with
  | string => exact safeReadString_runs hv (Nat.lt_of_lt_of_le (length_stringBytes v) hcp) p
  | reference => exact Reads.runs (readReference_reads hv.1 hv.2) t p
  | blob => exact Reads.runs (readBlob_reads hv.1 hv.2.1 hv.2.2.1 hv.2.2.2) t p
  | fixed size =>
      have h := runs_last (f := fun bytes =>
          (pure (BitVec.ofNat (8 * size) (leDecode bytes)) : Play ω (BitVec (8 * size))))
        (Reads.runs (readData_reads (leEncode size v.toNat)
          (length_leEncode size v.toNat).symm) t p) (silent_pure _)
      rw [ofNat_leDecode_leEncode] at h
      exact h

/-- The bound on the checkpoint, for each value of a vector. -/
theorem vectorBytes_cons_le {k : Kind} {v : k.Val} {vs : List k.Val} {n : Nat}
    (h : (k.vectorBytes (v :: vs)).length ≤ n) :
    (k.bytes v).length ≤ n ∧ (k.vectorBytes vs).length ≤ n := by
  rw [Kind.vectorBytes, List.map_cons, List.flatten_cons, List.length_append] at h
  rw [Kind.vectorBytes]
  omega

theorem readEach_runs {k : Kind} {t : Replay ω} (vs : List k.Val) :
    ∀ (acc : List k.Val) (p : Nat), (∀ v ∈ vs, k.Fits v) →
      (k.vectorBytes vs).length ≤ t.checkpoint →
      Runs cursor withBuffer (readEach k vs.length acc) t p (k.vectorBytes vs)
        (.ok (acc ++ vs, none) t) := by
  induction vs with
  | nil =>
      intro acc p _ _
      rw [List.append_nil]
      exact Runs.silent (silent_pure (acc, none)) t p [] (.inl rfl)
  | cons v vs ih =>
      intro acc p hfit hcp b hat hpre
      obtain ⟨hcv, hcvs⟩ := vectorBytes_cons_le hcp
      obtain ⟨hv, hvs⟩ := List.forall_mem_cons.mp hfit
      have hsplit : k.vectorBytes (v :: vs) = k.bytes v ++ k.vectorBytes vs := by
        rw [Kind.vectorBytes, List.map_cons, List.flatten_cons, Kind.vectorBytes]
      rw [hsplit] at hpre ⊢
      obtain ⟨hpre₁, hpre₂⟩ := prefix_drop_append.mp hpre
      obtain ⟨b₁, hfr₁, h₁, hat₁⟩ := readMethod_runs hv hcv p b hat hpre₁
      obtain ⟨b₂, hfr₂, h₂, hat₂⟩ := ih (acc ++ [v]) (p + (k.bytes v).length) hvs hcvs
        b₁ hat₁ (by rw [cursor.frame_input _ _ hfr₁]; exact hpre₂)
      refine ⟨b₂, cursor.frame_trans _ _ _ hfr₁ hfr₂, ?_, ?_⟩
      · simp only [List.length_cons, readEach, h₁]
        simpa only [List.append_assoc, List.singleton_append] using h₂
      · rw [List.length_append, ← Nat.add_assoc]
        exact hat₂

theorem vectorBytes_cons (k : Kind) (v : k.Val) (vs : List k.Val) :
    k.vectorBytes (v :: vs) = k.bytes v ++ k.vectorBytes vs := rfl

theorem length_bytes_fixed (n : Nat) (v : BitVec (8 * n)) :
    ((Kind.fixed n).bytes v).length = n := length_leEncode n _

theorem length_vectorBytes_fixed (n : Nat) (vs : List (BitVec (8 * n))) :
    (Kind.vectorBytes (.fixed n) vs).length = vs.length * n := by
  induction vs with
  | nil => exact (Nat.zero_mul n).symm
  | cons v vs ih =>
      rw [vectorBytes_cons, List.length_append, length_bytes_fixed, ih, List.length_cons]
      exact (Nat.add_comm _ _).trans (Nat.add_one_mul _ _).symm

theorem fixedValues_vectorBytes (n : Nat) (vs : List (BitVec (8 * n))) :
    fixedValues n vs.length (Kind.vectorBytes (.fixed n) vs) = vs := by
  induction vs with
  | nil => rfl
  | cons v vs ih =>
      have hv := length_bytes_fixed n v
      rw [vectorBytes_cons, List.length_cons, fixedValues,
        if_neg (by rw [List.length_append]; omega), List.take_left' hv,
        List.drop_left' hv, ih]
      exact congrArg (· :: vs) (ofNat_leDecode_leEncode v)

theorem readVector_runs {k : Kind} {vs : List k.Val} {t : Replay ω}
    (hfit : ∀ v ∈ vs, k.Fits v) (hcp : (k.vectorBytes vs).length ≤ t.checkpoint)
    (p : Nat) :
    Runs cursor withBuffer (readVector k vs.length) t p (k.vectorBytes vs)
      (.ok (vs, none) t) := by
  cases k with
  | string => exact readEach_runs vs [] p hfit hcp
  | reference => exact readEach_runs vs [] p hfit hcp
  | blob => exact readEach_runs vs [] p hfit hcp
  | fixed n =>
      rintro b ⟨hr, rfl⟩ hpre
      have hlen := length_vectorBytes_fixed n vs
      have hslice := prefix_drop_iff_slice.mp hpre
      have hend : vs.length * n = 0 ∨
          b.getPosition + vs.length * n ≤ b.file.data.length := by
        rw [← hlen]
        rcases length_le_of_prefix_drop hpre with hnil | hle
        · exact .inl (by rw [hnil]; rfl)
        · exact .inr hle
      obtain ⟨b', heq, hr', hf', -, hok⟩ := readDataInto_spec hr (vs.length * n)
      rw [decide_eq_true hend, ← hlen] at heq
      have hread : b.readDataInto (vs.length * n)
          = (Kind.vectorBytes (.fixed n) vs, true, b') := by
        rw [← hlen, heq]
        exact congrArg (·, true, b') hslice
      refine ⟨b', hf', ?_, hr', by rw [hlen]; exact hok hend⟩
      have hrun : readVector (.fixed n) vs.length (t.withBuffer b)
          = .ok (fixedValues n vs.length (Kind.vectorBytes (.fixed n) vs), none)
              (t.withBuffer b') := by
        simp only [readVector, withBuffer, hread, if_true]
      rw [hrun, fixedValues_vectorBytes]

end Replay

/-! ## What a step does, once it is read -/

section Run

open Replay

variable {ω : Type} (W : Writable ω)

/-- `perform_update` behind its value. -/
def Replay.tellUpdate (ty : Ty) (value : ty.Arg) : Play ω Unit := do
  let s ← get
  tell (W.call (.update ty s.context.tableOfLastOperation s.context.recordOfLastOperation
    s.context.fieldOfLastUpdate value))

/-- The blob branch behind its data, which lie at `position`. -/
def Replay.tellBlobData (data : Bytes) : Play ω Unit := do
  let s ← get
  if W.wantsBlobData s.writable ∧ data.length < s.checkpoint then
    tell (W.call (.writeBlob data))
  else pure ()

def Replay.tellBlob (position : Nat) (data : Bytes) : Play ω Unit := do
  tell (W.onBlob ⟨position, data.length⟩)
  tellBlobData W data

/-- An operation in full, from position `p`. -/
def Op.run (p : Nat) : Op → Play ω Unit
  | insertInto t r => do
      tell (W.call (.insertInto t r))
      setTable t
      setRecord r
  | insertVector t r size => do
      tell (W.call (.insertVector t r size))
      setTable t
      setRecord r
  | update ty t r f v => do
      setTable t
      setRecord r
      setField f
      tellUpdate W ty v
  | updateVector ty t r f vs => do
      setTable t
      setRecord r
      setField f
      if vs.length = 0 then pure ()
      else
        let capacity ← prepareUpdateVector W ty vs.length
        finishUpdateVector W ty capacity (vs, none)
  | writeBlob data => tellBlob W (p + 1 + (compactWrite data.length).length) data
  | op => tell (W.call op)

/-- `one_step`, with the reading done. -/
def Wire.run (p : Nat) : Wire → Play ω Unit
  | full op => op.run W p
  | append => do
      nextRecord
      let s ← get
      tell (W.call (.insertInto s.context.tableOfLastOperation
        s.context.recordOfLastOperation))
  | updateLast ty f v => do
      setField f
      tellUpdate W ty v
  | updateNext ty v => do
      nextRecord
      tellUpdate W ty v

end Run

namespace Replay

variable {ω : Type} {W : Writable ω}

theorem silent_tellUpdate (ty : Ty) (v : ty.Arg) :
    Silent withBuffer (tellUpdate W ty v) :=
  silent_get_bind (fun _ => silent_tell _) fun _ _ => rfl

theorem silent_prepareUpdateVector (ty : Ty) (size : Nat) :
    Silent withBuffer (prepareUpdateVector W ty size) := by
  refine silent_get_bind (fun t => ?_) fun _ _ => rfl
  refine Silent.bind (silent_when (silent_throw _)) fun _ => ?_
  refine Silent.bind (silent_tell _) fun capacity => ?_
  exact Silent.bind (silent_when (silent_throw _)) fun _ => silent_pure _

theorem silent_finishUpdateVector (ty : Ty) (capacity : Option Nat)
    (vs : List ty.Storage) :
    Silent withBuffer (finishUpdateVector W ty capacity (vs, none)) := by
  refine silent_get_bind (fun t => ?_) fun _ _ => rfl
  refine Silent.bind (silent_when (silent_modify fun _ _ => rfl)) fun _ => ?_
  exact silent_tell _

/-- Calls of the `Writable` leave the journal alone. -/
theorem keeps_tell {α : Type} (m : EStateM Exn ω α) :
    Keeps (fun s s' : Replay ω => s'.journal = s.journal) (tell m) := by
  intro s
  rw [show after (tell m) s = s.withWritable (after m s.writable) from after_onPart m s]
  rfl

theorem prepareUpdateVector_journal (ty : Ty) (size : Nat) :
    Keeps (fun s s' : Replay ω => s'.journal = s.journal)
      (prepareUpdateVector W ty size) := by
  have hrefl : ∀ s : Replay ω, s.journal = s.journal := fun _ => rfl
  have htrans : ∀ a b c : Replay ω, b.journal = a.journal → c.journal = b.journal →
      c.journal = a.journal := fun _ _ _ h₁ h₂ => h₂.trans h₁
  refine keeps_bind htrans (keeps_get hrefl) fun t => ?_
  refine keeps_bind htrans (keeps_when hrefl (keeps_throw hrefl _)) fun _ => ?_
  refine keeps_bind htrans (keeps_tell _) fun capacity => ?_
  exact keeps_bind htrans (keeps_when hrefl (keeps_throw hrefl _)) fun _ => keeps_pure hrefl _

theorem performUpdate_runs {ty : Ty} {v : ty.Arg} (hv : ty.kind.Fits v.val)
    {t : Replay ω} (hcp : (ty.kind.bytes v.val).length ≤ t.checkpoint) (p : Nat) :
    Runs cursor withBuffer (performUpdate W ty) t p (ty.kind.bytes v.val)
      (tellUpdate W ty v t) := by
  have h := runs_last (f := fun value => tellUpdate W ty (ty.toArg value))
    (readMethod_runs hv hcp p) (silent_tellUpdate _ _)
  rw [Ty.toArg_val] at h
  exact h

theorem performUpdateVector_runs {ty : Ty} {vs : List ty.Storage}
    (hvs : ∀ v ∈ vs, ty.kind.Fits v) {t : Replay ω}
    (hcp : (ty.kind.vectorBytes vs).length ≤ t.checkpoint) (p : Nat) :
    Runs cursor withBuffer (performUpdateVector W ty vs.length) t p
      (ty.kind.vectorBytes vs)
      ((do
        let capacity ← prepareUpdateVector W ty vs.length
        finishUpdateVector W ty capacity (vs, none) : Play ω Unit) t) := by
  have hsilent := silent_prepareUpdateVector (W := W) ty vs.length
  cases hr : prepareUpdateVector W ty vs.length t with
  | error e t' =>
      have h := Runs.silent (C := cursor) hsilent t p (ty.kind.vectorBytes vs) (.inr ⟨e, t', hr⟩)
      rw [hr] at h
      rw [bind_error hr]
      have hall := h.bind_error (v := []) (f := fun capacity => do
        let read ← readVector ty.kind vs.length
        finishUpdateVector W ty capacity read)
      rwa [List.append_nil] at hall
  | ok capacity t' =>
      have hjournal := (prepareUpdateVector_journal ty vs.length).ok hr
      have hcp' : (ty.kind.vectorBytes vs).length ≤ t'.checkpoint := by
        rw [checkpoint, hjournal]; exact hcp
      have h := Runs.silent (C := cursor) hsilent t p [] (.inl rfl)
      rw [hr] at h
      rw [bind_ok hr]
      exact h.bind_ok (u := []) (runs_last (readVector_runs hvs hcp' _)
        (silent_finishUpdateVector _ _ _))

theorem oneStep_of_perform {o : Operation} {t : Replay ω} {p : Nat} {bs : Bytes}
    {r : EStateM.Result Exn (Replay ω) Unit}
    (h : Runs cursor withBuffer (perform W o) t (p + 1) bs r) :
    Runs cursor withBuffer (oneStep W) t p (o.code :: bs) r := by
  refine runs_read (u := [_]) (readByte_reads o.code) ?_
  rw [Operation.ofCode_code]
  exact h

theorem readBlobData_runs (data : Bytes) (t : Replay ω) (p : Nat) :
    Runs cursor withBuffer (readBlobData data.length) t p data (.ok data t) := by
  rw [readBlobData]
  by_cases hd : data.length > 0
  · rw [if_pos hd]
    exact Reads.runs (readData_reads data rfl) t p
  · obtain rfl : data = [] := List.length_eq_zero_iff.mp (by omega)
    rw [if_neg hd]
    exact Runs.silent (silent_pure []) t p [] (.inl rfl)

theorem performBlobData_runs (data : Bytes) (t : Replay ω) (p : Nat) :
    Runs cursor withBuffer (performBlobData W data.length) t p data
      (tellBlobData W data t) := by
  rintro b ⟨hread, rfl⟩ hpre
  rw [performBlobData, tellBlobData, get_bind_run, get_bind_run, withBuffer_writable,
    withBuffer_checkpoint]
  by_cases hwants : W.wantsBlobData t.writable ∧ data.length < t.checkpoint
  · rw [if_pos hwants, if_pos hwants]
    exact runs_last (f := fun data => tell (W.call (.writeBlob data)))
      (readBlobData_runs data t _) (silent_tell _) b ⟨hread, rfl⟩ hpre
  · obtain ⟨hr', hp', hf'⟩ := ignore_reading hread data.length
    rw [if_neg hwants, if_neg hwants]
    exact ⟨b.ignore data.length, hf', rfl, hr', hp'⟩

theorem performBlob_runs (data : Bytes) (t : Replay ω) (p : Nat) :
    Runs cursor withBuffer (performBlob W data.length) t p data (tellBlob W p data t) := by
  have hblob : Silent withBuffer (tell (W.onBlob ⟨p, data.length⟩)) := silent_tell _
  refine runs_get (m := do tell (W.onBlob ⟨p, data.length⟩); performBlobData W data.length)
    (fun b hat => by rw [show (t.withBuffer b).journal.getPosition = p from hat.2]) ?_
  cases hr : tell (W.onBlob ⟨p, data.length⟩) t with
  | error e t' =>
      have h := Runs.silent (C := cursor) hblob t p data (.inr ⟨e, t', hr⟩)
      rw [hr] at h
      rw [tellBlob, bind_error hr]
      have hall := h.bind_error (v := []) (f := fun _ => performBlobData W data.length)
      rwa [List.append_nil] at hall
  | ok u t' =>
      have h := Runs.silent (C := cursor) hblob t p [] (.inl rfl)
      rw [hr] at h
      rw [tellBlob, bind_ok hr]
      exact h.bind_ok (u := []) (performBlobData_runs data t' p)

/-- In front of an operation in full, `one_step` does what the operation
says. -/
theorem oneStep_full_runs {op : Op} (hfit : op.Fits) {t : Replay ω} {p : Nat}
    (hcp : op.bytes.length ≤ t.checkpoint) :
    Runs cursor withBuffer (oneStep W) t p op.bytes (op.run W p t) := by
  have hstring : ∀ {s : Bytes}, (stringBytes s).length ≤ op.bytes.length →
      s.length < t.checkpoint := fun {s} hs => by
    have := length_stringBytes s
    omega
  cases op with
  | createTable name =>
      exact oneStep_of_perform (runs_last (safeReadString_runs hfit
        (hstring (by simp [Op.bytes])) _) (silent_tell _))
  | dropTable tableId =>
      exact oneStep_of_perform (runs_last (Reads.runs (readId_reads tableId) t _)
        (silent_tell _))
  | renameTable tableId name =>
      exact oneStep_of_perform (runs_read (readId_reads tableId)
        (runs_last (safeReadString_runs hfit (hstring (by simp [Op.bytes]; omega)) _)
          (silent_tell _)))
  | addField tableId name type =>
      exact oneStep_of_perform (runs_read (readId_reads tableId)
        ((safeReadString_runs hfit (hstring (by simp [Op.bytes]; omega)) _).bind_ok
          (runs_last (readType_runs type t _) (silent_tell _))))
  | dropField tableId fieldId =>
      exact oneStep_of_perform (runs_read (readId_reads tableId)
        (runs_last (Reads.runs (readId_reads fieldId) t _) (silent_tell _)))
  | renameField tableId fieldId name =>
      exact oneStep_of_perform (runs_read (readId_reads tableId)
        (runs_read (readId_reads fieldId)
          (runs_last (safeReadString_runs hfit (hstring (by simp [Op.bytes]; omega)) _)
            (silent_tell _))))
  | custom name =>
      exact oneStep_of_perform (runs_last (safeReadString_runs hfit
        (hstring (by simp [Op.bytes])) _) (silent_tell _))
  | comment c =>
      exact oneStep_of_perform (runs_last (safeReadString_runs hfit
        (hstring (by simp [Op.bytes])) _) (silent_tell _))
  | timestamp ts =>
      have h := runs_last (f := fun bytes =>
          tell (W.call (.timestamp (BitVec.ofNat 64 (leDecode bytes)))))
        (Reads.runs (readData_reads (leEncode 8 ts.toNat)
          (length_leEncode 8 ts.toNat).symm) t (p + 1)) (silent_tell _)
      rw [show BitVec.ofNat 64 (leDecode (leEncode 8 ts.toNat)) = ts from
        ofNat_leDecode_leEncode (n := 8) ts] at h
      exact oneStep_of_perform h
  | validData =>
      exact oneStep_of_perform (Runs.silent (silent_tell _) t _ [] (.inl rfl))
  | insertInto tableId recordId =>
      exact oneStep_of_perform (runs_read (readId_reads tableId)
        (runs_last (Reads.runs (readReference_reads hfit.1 hfit.2) t _)
          ((silent_tell _).bind fun _ => (silent_setTable _).bind fun _ =>
            silent_setRecord _)))
  | deleteFrom tableId recordId =>
      exact oneStep_of_perform (runs_read (readId_reads tableId)
        (runs_last (Reads.runs (readReference_reads hfit.1 hfit.2) t _)
          (silent_tell _)))
  | insertVector tableId recordId size =>
      exact oneStep_of_perform (runs_read (readId_reads tableId)
        (runs_read (readReference_reads hfit.1.1 hfit.1.2)
          (runs_last (Reads.runs (compactRead64_reads hfit.2) t _)
            ((silent_tell _).bind fun _ => (silent_setTable _).bind fun _ =>
              silent_setRecord _))))
  | deleteVector tableId recordId size =>
      exact oneStep_of_perform (runs_read (readId_reads tableId)
        (runs_read (readReference_reads hfit.1.1 hfit.1.2)
          (runs_last (Reads.runs (compactRead64_reads hfit.2) t _) (silent_tell _))))
  | update ty tableId recordId fieldId v =>
      refine oneStep_of_perform (runs_read (readId_reads tableId)
        (runs_modify (fun _ _ => rfl) (runs_read (readReference_reads hfit.1.1 hfit.1.2)
          (runs_modify (fun _ _ => rfl) (runs_read (readId_reads fieldId)
            (runs_modify (fun _ _ => rfl) (performUpdate_runs hfit.2 ?_ _)))))))
      have hlen := hcp
      simp only [Op.bytes, List.length_cons, List.length_append] at hlen
      exact Nat.le_trans (by omega) hlen
  | updateVector ty tableId recordId fieldId vs =>
      refine oneStep_of_perform (runs_read (readId_reads tableId)
        (runs_modify (fun _ _ => rfl) (runs_read (readReference_reads hfit.1.1 hfit.1.2)
          (runs_modify (fun _ _ => rfl) (runs_read (readId_reads fieldId)
            (runs_modify (fun _ _ => rfl)
              (runs_read (compactRead64_reads hfit.2.1) ?_)))))))
      have hlen := hcp
      simp only [Op.bytes, List.length_cons, List.length_append] at hlen
      rw [Op.run]
      by_cases hsize : vs.length = 0
      · obtain rfl := List.length_eq_zero_iff.mp hsize
        exact Runs.silent (silent_pure ()) _ _ [] (.inl rfl)
      · have hrun := performUpdateVector_runs (W := W) hfit.2.2
          (t := t.withContext ⟨tableId, recordId, fieldId⟩)
          (Nat.le_trans (by omega) hlen)
        simp only [hsize, if_false]
        exact hrun _
  | writeBlob data =>
      exact oneStep_of_perform (runs_read (compactRead64_reads hfit)
        (performBlob_runs data t _))

/-- In front of the bytes of a `Wire`, `one_step` does what the `Wire` says. -/
theorem oneStep_runs {w : Wire} (hfit : w.Fits) {t : Replay ω} (p : Nat)
    (hcp : w.bytes.length ≤ t.checkpoint) :
    Runs cursor withBuffer (oneStep W) t p w.bytes (w.run W p t) := by
  cases w with
  | full op => exact oneStep_full_runs hfit hcp
  | append =>
      exact oneStep_of_perform (Runs.silent
        (silent_nextRecord.bind fun _ => silent_get_bind (fun _ => silent_tell _)
          fun _ _ => rfl) t _ [] (.inl rfl))
  | updateLast ty fieldId v =>
      refine oneStep_of_perform (runs_read (readId_reads fieldId)
        (runs_modify (fun _ _ => rfl) (performUpdate_runs hfit ?_ _)))
      have hlen := hcp
      simp only [Wire.bytes, List.length_cons, List.length_append] at hlen
      exact Nat.le_trans (by omega) hlen
  | updateNext ty v =>
      refine oneStep_of_perform ((Runs.silent silent_nextRecord t _ [] (.inl rfl)).bind_ok
        (u := []) (performUpdate_runs hfit ?_ _))
      have hlen := hcp
      simp only [Wire.bytes, List.length_cons] at hlen
      exact Nat.le_trans (by omega) hlen

/-! ## Many steps -/

/-- Nothing a step does touches the checkpoints or the buffer. -/
def SameJournal (s s' : Replay ω) : Prop :=
  s'.journal.checkpoints = s.journal.checkpoints ∧
    s'.journal.fileBuffer = s.journal.fileBuffer

theorem SameJournal.refl (s : Replay ω) : SameJournal s s := ⟨rfl, rfl⟩

theorem SameJournal.trans (a b c : Replay ω) (h₁ : SameJournal a b)
    (h₂ : SameJournal b c) : SameJournal a c := ⟨h₂.1.trans h₁.1, h₂.2.trans h₁.2⟩

theorem sameJournal_of_journal {α : Type} {m : Play ω α}
    (h : Keeps (fun s s' : Replay ω => s'.journal = s.journal) m) :
    Keeps SameJournal m := fun s => by
  have hs := h s
  rw [SameJournal, hs]
  exact ⟨rfl, rfl⟩

theorem sameJournal_tell {α : Type} (m : EStateM Exn ω α) :
    Keeps SameJournal (tell m : Play ω α) := sameJournal_of_journal (keeps_tell m)

theorem sameJournal_bind {α β : Type} {m : Play ω α} {f : α → Play ω β}
    (hm : Keeps SameJournal m) (hf : ∀ a, Keeps SameJournal (f a)) :
    Keeps SameJournal (m >>= f) := keeps_bind SameJournal.trans hm hf

theorem sameJournal_nextRecord : Keeps SameJournal (nextRecord : Play ω Unit) :=
  sameJournal_bind (keeps_get SameJournal.refl) fun _ => keeps_modify fun _ => ⟨rfl, rfl⟩

theorem sameJournal_tellUpdate (ty : Ty) (v : ty.Arg) :
    Keeps SameJournal (tellUpdate W ty v) :=
  sameJournal_bind (keeps_get SameJournal.refl) fun _ => sameJournal_tell _

theorem sameJournal_finishUpdateVector (ty : Ty) (capacity : Option Nat)
    (vs : List ty.Storage) :
    Keeps SameJournal (finishUpdateVector W ty capacity (vs, none)) := by
  refine sameJournal_bind (keeps_get SameJournal.refl) fun _ => ?_
  refine sameJournal_bind (keeps_when SameJournal.refl (keeps_modify fun _ => ⟨rfl, rfl⟩))
    fun _ => ?_
  exact sameJournal_tell _

theorem sameJournal_run (w : Wire) (p : Nat) : Keeps SameJournal (w.run W p) := by
  have hset : ∀ f : Replay ω → Context, Keeps SameJournal
      (modify fun s => s.withContext (f s) : Play ω Unit) :=
    fun _ => keeps_modify fun _ => ⟨rfl, rfl⟩
  cases w with
  | full op =>
      cases op with
      | insertInto t r =>
          exact sameJournal_bind (sameJournal_tell _) fun _ =>
            sameJournal_bind (hset _) fun _ => hset _
      | insertVector t r size =>
          exact sameJournal_bind (sameJournal_tell _) fun _ =>
            sameJournal_bind (hset _) fun _ => hset _
      | update ty t r f v =>
          exact sameJournal_bind (hset _) fun _ => sameJournal_bind (hset _) fun _ =>
            sameJournal_bind (hset _) fun _ => sameJournal_tellUpdate ty v
      | updateVector ty t r f vs =>
          exact sameJournal_bind (hset _) fun _ => sameJournal_bind (hset _) fun _ =>
            sameJournal_bind (hset _) fun _ => keeps_ite (keeps_pure SameJournal.refl ())
              (sameJournal_bind
                (sameJournal_of_journal (prepareUpdateVector_journal ty vs.length))
                fun capacity => sameJournal_finishUpdateVector ty capacity vs)
      | writeBlob data =>
          exact sameJournal_bind (sameJournal_tell _) fun _ =>
            sameJournal_bind (keeps_get SameJournal.refl) fun _ =>
              keeps_ite (sameJournal_tell _) (keeps_pure SameJournal.refl ())
      | _ => exact sameJournal_tell _
  | append =>
      exact sameJournal_bind sameJournal_nextRecord fun _ =>
        sameJournal_bind (keeps_get SameJournal.refl) fun _ => sameJournal_tell _
  | updateLast ty f v =>
      exact sameJournal_bind (hset _) fun _ => sameJournal_tellUpdate ty v
  | updateNext ty v =>
      exact sameJournal_bind sameJournal_nextRecord fun _ => sameJournal_tellUpdate ty v

end Replay

/-- A stretch of the journal. -/
def wiresBytes (ws : List Wire) : Bytes := (ws.map Wire.bytes).flatten

theorem wiresBytes_cons (w : Wire) (ws : List Wire) :
    wiresBytes (w :: ws) = w.bytes ++ wiresBytes ws := rfl

theorem wiresBytes_append (ws ws' : List Wire) :
    wiresBytes (ws ++ ws') = wiresBytes ws ++ wiresBytes ws' := by
  rw [wiresBytes, List.map_append, List.flatten_append, wiresBytes, wiresBytes]

theorem length_wire_pos (w : Wire) : 1 ≤ w.bytes.length := by
  cases w with
  | full op => cases op <;> exact Nat.le_add_left 1 _
  | _ => exact Nat.le_add_left 1 _

namespace Replay

variable {ω : Type} {W : Writable ω}

/-- The replay of a stretch that starts at `p`, with the reading done. -/
def runAll (W : Writable ω) : Nat → List Wire → Play ω Unit
  | _, [] => pure ()
  | p, w :: ws => do
      w.run W p
      runAll W (p + w.bytes.length) ws

theorem rawPlayUntilGo_done {p stop : Nat} (h : stop ≤ p) (fuel : Nat) (t : Replay ω) :
    Runs cursor withBuffer (rawPlayUntilGo W stop fuel) t p [] (.ok () t) := by
  have hdone : Runs cursor withBuffer (pure () : Play ω Unit) t p [] (.ok () t) :=
    Runs.silent (silent_pure ()) t p [] (.inl rfl)
  cases fuel with
  | zero => exact hdone
  | succ fuel =>
      refine runs_get (m := pure ()) (fun b hat => ?_) hdone
      rw [show (t.withBuffer b).journal.getPosition = p from hat.2, if_neg (by omega)]

/-- The loop plays a stretch to its end, or to the first operation that the
`Writable` refuses. -/
theorem rawPlayUntilGo_runs (ws : List Wire) :
    ∀ (t : Replay ω) (p stop fuel : Nat), (∀ w ∈ ws, w.Fits) →
      stop = p + (wiresBytes ws).length → stop ≤ t.checkpoint →
      (wiresBytes ws).length ≤ fuel →
      Runs cursor withBuffer (rawPlayUntilGo W stop fuel) t p (wiresBytes ws)
        (runAll W p ws t) := by
  induction ws with
  | nil =>
      rintro t p stop fuel - rfl - -
      exact rawPlayUntilGo_done (Nat.le_refl _) fuel t
  | cons w ws ih =>
      intro t p stop fuel hfit hstop hcp hfuel
      have hpos := length_wire_pos w
      rw [wiresBytes_cons, List.length_append] at hstop hfuel
      obtain ⟨hw, hws⟩ := List.forall_mem_cons.mp hfit
      obtain ⟨fuel, rfl⟩ : ∃ k, fuel = k + 1 := ⟨fuel - 1, by omega⟩
      have hstep := oneStep_runs (W := W) hw (t := t) p (by omega)
      refine runs_get (m := do oneStep W; rawPlayUntilGo W stop fuel) (fun b hat => ?_) ?_
      · rw [show (t.withBuffer b).journal.getPosition = p from hat.2, if_pos (by omega)]
      · rw [wiresBytes_cons, runAll]
        cases hr : w.run W p t with
        | error e t' =>
            rw [hr] at hstep
            rw [bind_error hr]
            exact hstep.bind_error
        | ok u t' =>
            rw [hr] at hstep
            rw [bind_ok hr]
            have hsame := (sameJournal_run w p).ok hr
            refine hstep.bind_ok (ih t' _ stop fuel hws (by omega) ?_ (by omega))
            rw [checkpoint, Journal.getCheckpoint, hsame.1]
            exact hcp

theorem rawPlayUntil_runs {ws : List Wire} {t : Replay ω} {p stop : Nat}
    (hfit : ∀ w ∈ ws, w.Fits) (hstop : stop = p + (wiresBytes ws).length)
    (hcp : stop ≤ t.checkpoint) :
    Runs cursor withBuffer (rawPlayUntil W stop) t p (wiresBytes ws)
      (runAll W p ws t) := by
  refine runs_get (m := rawPlayUntilGo W stop (stop - p)) (fun b hat => ?_)
    (rawPlayUntilGo_runs ws t p stop _ hfit hstop hcp (by omega))
  rw [show (t.withBuffer b).journal.getPosition = p from hat.2]

/-! ## Playing until a position -/

end Replay

/-- A `Writable` that has no position and takes no notice of where a replay
starts and ends or where a blob lies, as all that do not write a journal
themselves. -/
structure Writable.Passive {ω : Type} (W : Writable ω) : Prop where
  getPosition : ∀ st, W.getPosition st = 0
  startWriting : ∀ p, W.startWriting p = pure ()
  endWriting : ∀ p, W.endWriting p = pure ()
  softCheckpoint : W.softCheckpoint = pure ()
  onBlob : ∀ blob, W.onBlob blob = pure ()

namespace Replay

variable {ω : Type} {W : Writable ω}

theorem playOn_passive (hW : W.Passive) (stop : Nat) :
    playOn W stop = rawPlayUntil W stop := by
  funext t
  have htell : tell (pure () : EStateM Exn ω Unit) = (pure () : Play ω Unit) := rfl
  have hcatch : catchUp W t = .ok () t := by
    rw [catchUp, get_bind_run, hW.getPosition, when_neg (Nat.not_lt_zero _)]
    rfl
  rw [playOn, bind_ok hcatch, get_bind_run, hW.startWriting, htell, pure_bind_run]
  cases hr : rawPlayUntil W stop t with
  | ok u t' =>
      rw [bind_ok hr, get_bind_run, hW.endWriting, hW.softCheckpoint, htell, pure_bind_run]
      rfl
  | error e t' => rw [bind_error hr]

/-- `play_until` over a stretch: what the stretch says, and an idle buffer
behind it. When the `Writable` refuses an operation, the buffer is somewhere
within the stretch. -/
theorem playUntil_runs (hW : W.Passive) {ws : List Wire} {t : Replay ω} {p stop : Nat}
    (hfit : ∀ w ∈ ws, w.Fits) (hstop : stop = p + (wiresBytes ws).length)
    (hcp : stop ≤ t.checkpoint) {b : FileBuffer} (hb : b.Reading)
    (hp : b.getPosition = p) (hpre : wiresBytes ws <+: b.file.data.drop p) :
    ∃ b', b'.file = b.file ∧
      match runAll W p ws t with
      | .ok _ t' => playUntil W stop (t.withBuffer b) = .ok () (t'.withBuffer b') ∧
          b'.Idle ∧ b'.position = stop
      | .error e t' => playUntil W stop (t.withBuffer b) = .error e (t'.withBuffer b') ∧
          b'.Reading ∧ p ≤ b'.getPosition ∧ b'.getPosition ≤ stop := by
  have hpos : (t.withBuffer b).journal.getPosition = p := hp
  rw [playUntil, get_bind_run, hpos, playOn_passive hW]
  by_cases hlt : p < stop
  · obtain ⟨b', hf', hrun⟩ := rawPlayUntil_runs (W := W) hfit hstop hcp b ⟨hb, hp⟩ hpre
    rw [when_pos hlt]
    cases hr : runAll W p ws t with
    | ok u t' =>
        rw [hr] at hrun
        obtain ⟨hidle, hposition, hfile⟩ := flush_idle_of_reading hrun.2.1
        refine ⟨b'.flush, hfile.trans hf', ?_, hidle, ?_⟩
        · rw [bind_ok hrun.1]; rfl
        · rw [hposition, hrun.2.2, hstop]
    | error e t' =>
        rw [hr] at hrun
        obtain ⟨heq, q, ⟨hread, hq⟩, hlo, hhi⟩ := hrun
        exact ⟨b', hf', bind_error heq, hread, by omega, by omega⟩
  · have hnil : ws = [] := by
      cases ws with
      | nil => rfl
      | cons w ws =>
          have := length_wire_pos w
          rw [wiresBytes_cons, List.length_append] at hstop
          omega
    subst hnil
    rw [when_neg hlt, pure_bind_run]
    obtain ⟨hidle, hposition, hfile⟩ := flush_idle_of_reading hb
    refine ⟨b.flush, hfile, rfl, hidle, ?_⟩
    rw [hposition, hp, hstop]
    rfl

end Replay

end Joedb
