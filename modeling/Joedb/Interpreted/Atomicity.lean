import Joedb.Interpreted.Refusals

/-!
# Replaying one operation, or not

An operation that a journal holds and a `Database` refuses, or that cannot be read, leaves
the tables as they were, with two exceptions. The values of a vector are read into the
column itself, so they are there when the journal ends in the middle of them, or when the
first or the last record of the vector turns out not to be used. And a vector of records
that does not start at the end of the table is inserted record by record.
-/

namespace Joedb

open ByteFile Containers StateExcept

/-! ## The own storage -/

theorem Field.put_vector {ty : Ty} {g : List ty.Storage → List ty.Storage} {f : Field}
    {vs : List ty.Storage} (hcolumn : f.column = .vector ty vs) :
    ∃ f', put ty g f = .ok () f' ∧ f'.type = f.type ∧ f'.column = .vector ty (g vs) := by
  obtain ⟨type, column, holds⟩ := f
  subst hcolumn
  exact ⟨⟨type, .vector ty (g vs), holds⟩, by simp [put], rfl, rfl⟩

namespace Table

theorem withField_put {ty : Ty} {g : List ty.Storage → List ty.Storage} {t : Table}
    {fieldId : FieldId} {f : Field} {vs : List ty.Storage}
    (hfield : find t.fields fieldId = some f) (hcolumn : f.column = .vector ty vs) :
    ∃ f', withField fieldId (Field.put ty g) t
        = .ok () { t with fields := assign t.fields fieldId f' } ∧
      f'.type = f.type ∧ f'.column = .vector ty (g vs) := by
  obtain ⟨f', hput, htype, hcolumn'⟩ := Field.put_vector (g := g) hcolumn
  refine ⟨f', ?_, htype, hcolumn'⟩
  rw [withField, hfield]
  simp only [hput]

/-- Whether the values are in the column already, and so are the first bytes of one more. What
is behind the last record does not count. -/
def AlreadyThere (t : Table) (ty : Ty) (fieldId : FieldId) (recordId : Nat)
    (values : List ty.Storage) (first : Bytes) : Prop :=
  ∀ f vs, find t.fields fieldId = some f → f.column = .vector ty vs →
    (∀ k < values.length, recordId + k < vs.length → recordId + k < t.freedom.getSize →
      values.getD k ty.kind.default = vs.getD (recordId + k) ty.kind.default) ∧
    (recordId + values.length < vs.length → recordId + values.length < t.freedom.getSize →
      ty.kind.overwrite first (vs.getD (recordId + values.length) ty.kind.default)
        = vs.getD (recordId + values.length) ty.kind.default)

/-- What is in a column behind the values, the first bytes of one more copied over it. -/
theorem getD_copied {ty : Ty} (vs values : List ty.Storage) (recordId : Nat) (first : Bytes)
    (i : Nat) : ((copyN vs recordId values).modify (recordId + values.length)
        (ty.kind.overwrite first)).getD i ty.kind.default
      = if recordId ≤ i ∧ i < recordId + values.length ∧ i < vs.length then
          values.getD (i - recordId) ty.kind.default
        else if recordId + values.length = i ∧ i < vs.length then
          ty.kind.overwrite first (vs.getD i ty.kind.default)
        else vs.getD i ty.kind.default := by
  rw [getD_modify, length_copyN, getD_copyN]
  by_cases hend : recordId + values.length = i ∧ i < vs.length
  · rw [if_pos hend, if_neg (by omega), if_neg (by omega), if_pos hend]
  · rw [if_neg hend, if_neg hend]

theorem same_store_iff {ty : Ty} {t : Table} {fieldId : FieldId} {f f' : Field}
    {vs values : List ty.Storage} {recordId : Nat} {first : Bytes}
    (hfield : find t.fields fieldId = some f)
    (hcolumn : f.column = .vector ty vs) (htype : f'.type = f.type)
    (hstored : f'.column = .vector ty ((copyN vs recordId values).modify
      (recordId + values.length) (ty.kind.overwrite first))) :
    Same t { t with fields := assign t.fields fieldId f' } ↔
      t.AlreadyThere ty fieldId recordId values first := by
  have hvalue : ∀ i, t.value fieldId i = some ⟨ty, vs.getD i ty.kind.default⟩ := by
    intro i
    rw [value, hfield, Option.bind_some, Field.value, hcolumn]
  have hvalue' : ∀ i, value { t with fields := assign t.fields fieldId f' } fieldId i
      = some ⟨ty, ((copyN vs recordId values).modify (recordId + values.length)
          (ty.kind.overwrite first)).getD i ty.kind.default⟩ := by
    intro i
    rw [value, find_assign hfield, Option.bind_some, Field.value, hstored]
  refine ⟨fun h g ws hg hws => ?_, fun h => ⟨rfl, fun id => ?_, rfl, ?_⟩⟩
  · rw [hfield] at hg
    obtain rfl := Option.some.inj hg
    obtain ⟨-, hcast⟩ := Column.vector.inj (hcolumn.symm.trans hws)
    obtain rfl := eq_of_heq hcast
    refine ⟨fun k hk hlen hsize => ?_, fun hlen hsize => ?_⟩
    · have hsame := h.values fieldId (recordId + k) hsize
      rw [hvalue, hvalue', getD_copied, if_pos (by omega), Nat.add_sub_cancel_left] at hsame
      exact eq_of_heq (Sigma.mk.inj (Option.some.inj hsame)).2
    · have hsame := h.values fieldId (recordId + values.length) hsize
      rw [hvalue, hvalue', getD_copied, if_neg (by omega), if_pos ⟨rfl, hlen⟩] at hsame
      exact eq_of_heq (Sigma.mk.inj (Option.some.inj hsame)).2
  · rw [find_assign_eq]
    by_cases hid : id = fieldId
    · rw [if_pos hid, hid, hfield]
      exact congrArg some htype
    · rw [if_neg hid]
  · intro id i hi
    by_cases hid : id = fieldId
    · obtain ⟨hvalues, hfirst⟩ := h f vs hfield hcolumn
      rw [hid, hvalue, hvalue', getD_copied]
      by_cases hin : recordId ≤ i ∧ i < recordId + values.length ∧ i < vs.length
      · have hthere := hvalues (i - recordId) (by omega) (by omega) (by omega)
        rw [Nat.add_sub_cancel' hin.1] at hthere
        rw [if_pos hin, hthere]
      · rw [if_neg hin]
        by_cases hend : recordId + values.length = i ∧ i < vs.length
        · obtain ⟨rfl, hlen⟩ := hend
          rw [if_pos ⟨rfl, hlen⟩, hfirst hlen hi]
        · rw [if_neg hend]
    · rw [value, find_assign_eq, if_neg hid]
      rfl

theorem checkRecordId_used {t : Table} {recordId : RecordId}
    (h : t.freedom.isUsed recordId = true) : checkRecordId recordId t = .ok () t := by
  rw [checkRecordId, get_bind_run, when_neg (by rw [h]; exact Bool.noConfusion)]
  rfl

theorem checkRecordId_unused {t : Table} {recordId : RecordId}
    (h : t.freedom.isUsed recordId = false) : ∃ e, checkRecordId recordId t = .error e t := by
  rw [checkRecordId, get_bind_run, when_pos h]
  exact ⟨_, rfl⟩

/-- What `update_vector` looks at before it changes anything. -/
def Updates (t : Table) (recordId : RecordId) (size : Nat) : Prop :=
  size ≠ 0 → t.freedom.isUsed recordId = true ∧ t.freedom.isUsed (recordId + size - 1) = true

theorem spares_getOwnStorage (ty : Ty) (fieldId : FieldId) :
    Spares (fun t t' => t' = t) (getOwnStorage ty fieldId) := by
  refine spares_get_bind fun t => spares_then (spares_withField fun f e f' hrun => ?_)
    fun _ _ _ _ hrun => (by cases hrun)
  rw [Field.getOwnStorage] at hrun
  split at hrun
  · exact (EStateM.Result.error.inj hrun).2.symm
  · split at hrun
    · cases hrun
    · exact (EStateM.Result.error.inj hrun).2.symm

theorem updateVector_updates {ty : Ty} {t : Table} {fieldId : FieldId} {f : Field}
    {vs : List ty.Storage} (hfield : find t.fields fieldId = some f)
    (hcolumn : f.column = .vector ty vs) {recordId : RecordId} {values : List ty.Storage}
    (hlen : values.length ≠ 0) (hupdates : t.Updates recordId values.length) :
    ∃ f', updateVector ty recordId fieldId values t
        = .ok () { t with fields := assign t.fields fieldId f' } ∧
      f'.type = f.type ∧ f'.column = .vector ty (copyN vs recordId.toNat values) := by
  obtain ⟨f', hput, hkept⟩ :=
    withField_put (g := (copyN · recordId.toNat values)) hfield hcolumn
  refine ⟨f', ?_, hkept⟩
  obtain ⟨hfirst, hlast⟩ := hupdates hlen
  rw [updateVector, bind_ok (withField_pure_run hfield), if_neg hlen,
    bind_ok (checkRecordId_used hfirst), bind_ok (checkRecordId_used hlast)]
  exact hput

theorem updateVector_cases {ty : Ty} {t : Table} {fieldId : FieldId} {f : Field}
    {vs : List ty.Storage} (hfield : find t.fields fieldId = some f)
    (hcolumn : f.column = .vector ty vs) (recordId : RecordId) (values : List ty.Storage) :
    (t.Updates recordId values.length ∧
        ∃ t', updateVector ty recordId fieldId values t = .ok () t') ∨
      (¬ t.Updates recordId values.length ∧
        ∃ e, updateVector ty recordId fieldId values t = .error e t) := by
  by_cases hlen : values.length = 0
  · rw [updateVector, bind_ok (withField_pure_run hfield), if_pos hlen]
    exact .inl ⟨fun h => absurd hlen h, t, rfl⟩
  · by_cases hupdates : t.Updates recordId values.length
    · obtain ⟨f', hrun, -⟩ := updateVector_updates hfield hcolumn hlen hupdates
      exact .inl ⟨hupdates, _, hrun⟩
    · refine .inr ⟨hupdates, ?_⟩
      rw [updateVector, bind_ok (withField_pure_run hfield), if_neg hlen]
      cases hfirst : t.freedom.isUsed recordId with
      | false =>
          obtain ⟨e, hrun⟩ := checkRecordId_unused hfirst
          exact ⟨e, bind_error hrun⟩
      | true =>
          have hlast : t.freedom.isUsed (recordId + values.length - 1) = false :=
            Bool.eq_false_iff.mpr fun h => hupdates fun _ => ⟨hfirst, h⟩
          obtain ⟨e, hrun⟩ := checkRecordId_unused hlast
          rw [bind_ok (checkRecordId_used hfirst)]
          exact ⟨e, bind_error hrun⟩

end Table

namespace Database

theorem getOwnStorage_some {db db' : Database} {ty : Ty} {tableId : TableId} {fieldId : FieldId}
    {n : Nat} (h : getOwnStorage ty tableId fieldId db = .ok (some n) db') :
    ∃ t f vs, find db.tables tableId = some t ∧ find t.fields fieldId = some f ∧
      f.column = .vector ty vs := by
  obtain ⟨t, t', hfind, hown, -⟩ := withTable_ok h
  rw [Table.getOwnStorage, get_bind_run] at hown
  obtain ⟨own, t₁, hfield, -⟩ := bind_eq_ok hown
  obtain ⟨f, f', hf, hm, -⟩ := Table.withField_eq_ok hfield
  obtain ⟨-, vs, hcolumn⟩ := Field.getOwnStorage_ok hm
  exact ⟨t, f, vs, hfind, hf, hcolumn⟩

/-- When an update of a vector through the own storage leaves the tables the same, if it
throws: all values were read and the records are used, or nothing was changed. -/
def UpdatesWhole (db : Database) (ty : Ty) (tableId : TableId) (recordId : RecordId)
    (fieldId : FieldId) (read : Replay.ReadValues ty.kind) : Prop :=
  ∀ t, find db.tables tableId = some t →
    match read.2 with
    | none =>
        t.Updates recordId read.1.length ∨ t.AlreadyThere ty fieldId recordId.toNat read.1 []
    | some (_, first) => t.AlreadyThere ty fieldId recordId.toNat read.1 first

theorem spares_getOwnStorage (ty : Ty) (tableId : TableId) (fieldId : FieldId) :
    Spares Same (asWritable.ownStorage ty tableId fieldId) :=
  spares_withTable fun t e t' hrun => Table.spares_getOwnStorage ty fieldId t e t' hrun ▸ .refl t

theorem updateVector_cases {db : Database} {ty : Ty} {tableId : TableId} {fieldId : FieldId}
    {t : Table} {f : Field} {vs : List ty.Storage} (hfind : find db.tables tableId = some t)
    (hfield : find t.fields fieldId = some f) (hcolumn : f.column = .vector ty vs)
    (recordId : RecordId) (values : List ty.Storage) :
    (t.Updates recordId values.length ∧
        ∃ db', updateVector ty tableId recordId fieldId values db = .ok () db') ∨
      (¬ t.Updates recordId values.length ∧
        ∃ e, updateVector ty tableId recordId fieldId values db = .error e db) := by
  rw [updateVector, withTable, hfind]
  rcases Table.updateVector_cases hfield hcolumn recordId values with
    ⟨hupdates, t', hrun⟩ | ⟨hupdates, e, hrun⟩
  · simp only [hrun]
    exact .inl ⟨hupdates, _, rfl⟩
  · simp only [hrun, assign_self hfind]
    exact .inr ⟨hupdates, e, rfl⟩

/-- What is written through the pointer into a column. -/
theorem after_put_eq {db : Database} {ty : Ty} {tableId : TableId} {fieldId : FieldId} {t : Table}
    {f : Field} {vs : List ty.Storage} (hfind : find db.tables tableId = some t)
    (hfield : find t.fields fieldId = some f) (hcolumn : f.column = .vector ty vs)
    (g : List ty.Storage → List ty.Storage) :
    ∃ f', StateExcept.after (withTable tableId (Table.withField fieldId (Field.put ty g))) db
        = { db with
          tables := assign db.tables tableId { t with fields := assign t.fields fieldId f' } } ∧
      f'.type = f.type ∧ f'.column = .vector ty (g vs) := by
  obtain ⟨f', hput, hkept⟩ := Table.withField_put (g := g) hfield hcolumn
  refine ⟨f', ?_, hkept⟩
  rw [after_withTable hfind]
  exact congrArg (fun t => { db with tables := assign db.tables tableId t }) (after_ok hput)

theorem storeOwn_eq {db : Database} {ty : Ty} {tableId : TableId} {fieldId : FieldId} {t : Table}
    {f : Field} {vs : List ty.Storage} (hfind : find db.tables tableId = some t)
    (hfield : find t.fields fieldId = some f) (hcolumn : f.column = .vector ty vs)
    (recordId : Nat) (values : List ty.Storage) :
    ∃ f', storeOwn ty tableId fieldId recordId values db = { db with
        tables := assign db.tables tableId { t with fields := assign t.fields fieldId f' } } ∧
      f'.type = f.type ∧ f'.column = .vector ty (copyN vs recordId values) :=
  after_put_eq hfind hfield hcolumn (copyN · recordId values)

/-- The values, and then the first bytes of one more. -/
theorem storePart_storeOwn_eq {db : Database} {ty : Ty} {tableId : TableId} {fieldId : FieldId}
    {t : Table} {f : Field} {vs : List ty.Storage} (hfind : find db.tables tableId = some t)
    (hfield : find t.fields fieldId = some f) (hcolumn : f.column = .vector ty vs)
    (recordId : Nat) (values : List ty.Storage) (first : Bytes) :
    ∃ f', storePart ty tableId fieldId (recordId + values.length) first
        (storeOwn ty tableId fieldId recordId values db) = { db with
        tables := assign db.tables tableId { t with fields := assign t.fields fieldId f' } } ∧
      f'.type = f.type ∧ f'.column = .vector ty ((copyN vs recordId values).modify
        (recordId + values.length) (ty.kind.overwrite first)) := by
  obtain ⟨f₁, hstore, htype₁, hcolumn₁⟩ := storeOwn_eq hfind hfield hcolumn recordId values
  have hfind₁ : find (storeOwn ty tableId fieldId recordId values db).tables tableId
      = some { t with fields := assign t.fields fieldId f₁ } := by
    rw [hstore]
    exact find_assign hfind _
  obtain ⟨f', hpart, htype, hstored⟩ := after_put_eq hfind₁ (find_assign hfield f₁) hcolumn₁
    (·.modify (recordId + values.length) (ty.kind.overwrite first))
  refine ⟨f', ?_, htype.trans htype₁, hstored⟩
  refine hpart.trans ?_
  rw [hstore]
  simp only [assign_assign]

end Database

namespace Replay

/-! ## Reads -/

section Reads

variable {ω α β : Type}

/-- A relation that does not look at the buffer. -/
structure Bufferless (R : Replay ω → Replay ω → Prop) : Prop where
  refl : ∀ t, R t t
  trans : ∀ t t' t'', R t t' → R t' t'' → R t t''
  withBuffer : ∀ (t : Replay ω) (b : FileBuffer), R t (t.withBuffer b)

namespace Bufferless

variable {R : Replay ω → Replay ω → Prop}

theorem buffer (h : Bufferless R) (m : EStateM Exn FileBuffer α) : Keeps R (buffer m) := by
  intro t
  rw [show after (Replay.buffer m) t = t.withBuffer (after m t.journal.fileBuffer) from
    after_onPart m t]
  exact h.withBuffer t _

theorem safeReadString (h : Bufferless R) : Keeps R Replay.safeReadString :=
  fun t => h.buffer (FileBuffer.safeReadString t.checkpoint) t

theorem readType (h : Bufferless R) : Keeps R Replay.readType :=
  keeps_bind h.trans (h.buffer _) fun _ =>
    keeps_ite (keeps_bind h.trans (h.buffer _) fun _ => keeps_pure h.refl _) (keeps_pure h.refl _)

theorem readMethod (h : Bufferless R) : (k : Kind) → Keeps R (Replay.readMethod k)
  | .string => h.safeReadString
  | .reference => h.buffer _
  | .blob => h.buffer _
  | .fixed _ => keeps_bind h.trans (h.buffer _) fun _ => keeps_pure h.refl _

theorem readEach (h : Bufferless R) (k : Kind) (size : Nat) (vs : List k.Val) :
    Keeps R (Replay.readEach k size vs) := by
  induction size generalizing vs with
  | zero => exact keeps_pure h.refl _
  | succ size ih =>
      intro t
      unfold after Replay.readEach
      cases hm : Replay.readMethod k t with
      | ok v t' => exact h.trans _ _ _ ((h.readMethod k).ok hm) (ih (vs ++ [v]) t')
      | error e t' => exact (h.readMethod k).error hm

theorem readVector (h : Bufferless R) :
    (k : Kind) → (size : Nat) → Keeps R (Replay.readVector k size)
  | .string, _ => h.readEach _ _ _
  | .reference, _ => h.readEach _ _ _
  | .blob, _ => h.readEach _ _ _
  | .fixed _, _ => fun t => h.withBuffer t _

end Bufferless

theorem buffer_ok {m : EStateM Exn FileBuffer α} {t t' : Replay ω} {a : α}
    (h : Replay.buffer m t = .ok a t') : ∃ b, m t.journal.fileBuffer = .ok a b := by
  obtain ⟨b, hm, -⟩ := onPart_eq_ok h
  exact ⟨b, hm⟩

/-- What only reads does not touch the `Writable`. -/
abbrev Untouched (t t' : Replay ω) : Prop := t'.writable = t.writable

theorem untouched : Bufferless (Untouched (ω := ω)) :=
  ⟨fun _ => rfl, fun _ _ _ h h' => h'.trans h, fun _ _ => rfl⟩

theorem bufferless_context : Bufferless (fun t t' : Replay ω => t'.context = t.context) :=
  ⟨fun _ => rfl, fun _ _ _ h h' => h'.trans h, fun _ _ => rfl⟩

theorem untouched_bind {m : Play ω α} {f : α → Play ω β} (hm : Keeps Untouched m)
    (hf : ∀ a, Keeps Untouched (f a)) : Keeps Untouched (m >>= f) :=
  keeps_bind untouched.trans hm hf

theorem untouched_withContext (g : Replay ω → Context) :
    Keeps Untouched (modify fun t => t.withContext (g t) : Play ω Unit) := keeps_modify fun _ => rfl

theorem untouched_nextRecord : Keeps Untouched (nextRecord : Play ω Unit) :=
  fun _ => rfl

end Reads

/-! ## Steps -/

/-- The same tables, whatever became of the journal. -/
abbrev SameTables (t t' : Replay Database) : Prop := Database.Same t.writable t'.writable

theorem sameTables_refl (t : Replay Database) : SameTables t t := .refl _

theorem spares_read {α β : Type} {m : Play Database α} {f : α → Play Database β}
    (hm : Keeps Untouched m) (hf : ∀ a, Spares SameTables (f a)) : Spares SameTables (m >>= f) := by
  refine spares_bind (L := Untouched) (fun t t' t'' h h' => ?_) (fun t e t' hrun => ?_)
    (fun t a t' hrun => hm.ok hrun) hf
  · rw [SameTables, h] at h'
    exact h'
  · rw [SameTables, hm.error hrun]
    exact .refl _

theorem spares_tell {α : Type} {m : EStateM Exn Database α} (hm : Spares Database.Same m) :
    Spares SameTables (tell m) := by
  intro t e t' hrun
  obtain ⟨db, h, rfl⟩ := onPart_eq_error hrun
  exact hm _ _ _ h

theorem spares_op {op : Op} (hop : ∀ t r size, op ≠ .insertVector t r size) :
    Spares SameTables (tell (Database.asWritable.call op)) :=
  spares_tell (Database.spares_call hop)

theorem spares_performUpdate (ty : Ty) :
    Spares SameTables (performUpdate Database.asWritable ty) :=
  spares_read (untouched.readMethod ty.kind) fun _ => spares_get_bind fun _ =>
    spares_op fun _ _ _ h => (by cases h)

theorem spares_performBlob (size : Nat) :
    Spares SameTables (performBlob Database.asWritable size) := by
  refine spares_get_bind fun t => spares_read (fun t => ?_) fun _ => spares_get_bind fun t => ?_
  · rfl
  · exact spares_ite (spares_read (by
      unfold readBlobData
      exact keeps_ite (untouched.buffer _) (keeps_pure untouched.refl _)) fun _ =>
        spares_op fun _ _ _ h => (by cases h)) (spares_modify _)

/-- The operations that are read, told and done with. -/
theorem spares_perform {operation : Operation} (hinsert : operation ≠ .insertVector)
    (hupdate : ∀ ty, operation ≠ .updateVector ty) :
    Spares SameTables (perform Database.asWritable operation) := by
  have hset : ∀ {α : Type} {g : α → Replay Database → Context} {m : Play Database α}
      {f : Unit → Play Database Unit}, Keeps Untouched m → Spares SameTables (f ()) →
      Spares SameTables (m >>= fun a => (modify fun t => t.withContext (g a t)) >>= f) :=
    fun hm hf => spares_read hm fun _ => spares_read (untouched_withContext _) fun _ => hf
  cases operation with
  | createTable =>
      exact spares_read untouched.safeReadString fun _ => spares_op fun _ _ _ h => (by cases h)
  | dropTable =>
      exact spares_read (untouched.buffer _) fun _ => spares_op fun _ _ _ h => (by cases h)
  | renameTable =>
      exact spares_read (untouched.buffer _) fun _ => spares_read untouched.safeReadString fun _ =>
        spares_op fun _ _ _ h => (by cases h)
  | addField =>
      exact spares_read (untouched.buffer _) fun _ => spares_read untouched.safeReadString fun _ =>
        spares_read untouched.readType fun _ => spares_op fun _ _ _ h => (by cases h)
  | dropField =>
      exact spares_read (untouched.buffer _) fun _ => spares_read (untouched.buffer _) fun _ =>
        spares_op fun _ _ _ h => (by cases h)
  | renameField =>
      exact spares_read (untouched.buffer _) fun _ => spares_read (untouched.buffer _) fun _ =>
        spares_read untouched.safeReadString fun _ => spares_op fun _ _ _ h => (by cases h)
  | insertInto =>
      exact spares_read (untouched.buffer _) fun _ => spares_read (untouched.buffer _) fun _ =>
        spares_then (spares_op fun _ _ _ h => (by cases h)) fun _ _ _ _ h => (by cases h)
  | deleteFrom =>
      exact spares_read (untouched.buffer _) fun _ => spares_read (untouched.buffer _) fun _ =>
        spares_op fun _ _ _ h => (by cases h)
  | insertVector => exact absurd rfl hinsert
  | deleteVector =>
      exact spares_read (untouched.buffer _) fun _ => spares_read (untouched.buffer _) fun _ =>
        spares_read (untouched.buffer _) fun _ => spares_op fun _ _ _ h => (by cases h)
  | append =>
      exact spares_read untouched_nextRecord fun _ => spares_get_bind fun _ =>
        spares_op fun _ _ _ h => (by cases h)
  | update ty =>
      exact hset (untouched.buffer _) (hset (untouched.buffer _) (hset (untouched.buffer _)
        (spares_performUpdate ty)))
  | updateLast ty => exact hset (untouched.buffer _) (spares_performUpdate ty)
  | updateNext ty => exact spares_read untouched_nextRecord fun _ => spares_performUpdate ty
  | updateVector ty => exact absurd rfl (hupdate ty)
  | custom =>
      exact spares_read untouched.safeReadString fun _ => spares_op fun _ _ _ h => (by cases h)
  | comment =>
      exact spares_read untouched.safeReadString fun _ => spares_op fun _ _ _ h => (by cases h)
  | timestamp =>
      exact spares_read (untouched.buffer _) fun _ => spares_op fun _ _ _ h => (by cases h)
  | validData =>
      show Spares SameTables (tell (Database.asWritable.call .validData))
      exact spares_op fun _ _ _ h => (by cases h)
  | blob => exact spares_read (untouched.buffer _) fun size => spares_performBlob size

/-! ## Vectors -/

/-- The arguments of `insert_vector`, which are read first. -/
def readInsertVector : Play Database (TableId × RecordId × Nat) := do
  let tableId ← buffer FileBuffer.readId
  let recordId ← buffer FileBuffer.readReference
  let size ← buffer (FileBuffer.compactRead 64)
  pure (tableId, recordId, size)

theorem untouched_readInsertVector : Keeps Untouched readInsertVector :=
  untouched_bind (untouched.buffer _) fun _ => untouched_bind (untouched.buffer _) fun _ =>
    untouched_bind (untouched.buffer _) fun _ => keeps_pure untouched.refl _

/-- What is read from a journal is far from the end of an `index_t`. -/
theorem readInsertVector_lt {t t' : Replay Database} {tableId : TableId} {recordId : RecordId}
    {size : Nat} (h : readInsertVector t = .ok (tableId, recordId, size) t') :
    recordId + size < (2 ^ 63 : Int) := by
  obtain ⟨_, t₁, -, h⟩ := bind_eq_ok h
  obtain ⟨r, t₂, hreference, h⟩ := bind_eq_ok h
  obtain ⟨n, t₃, hsize, h⟩ := bind_eq_ok h
  obtain ⟨hargs, -⟩ := EStateM.Result.ok.inj h
  obtain ⟨-, hargs⟩ := Prod.mk.inj hargs
  obtain ⟨rfl, rfl⟩ := Prod.mk.inj hargs
  obtain ⟨b, hreference⟩ := buffer_ok hreference
  obtain ⟨b', hsize⟩ := buffer_ok hsize
  have hr : r < 2 ^ 61 - 1 := FileBuffer.readReference_lt hreference
  have hn : n < 2 ^ 61 := FileBuffer.compactRead_lt hsize
  show r + (n : Int) < 2 ^ 63
  omega

theorem perform_insertVector : perform Database.asWritable .insertVector = (do
    let (tableId, recordId, size) ← readInsertVector
    tell (Database.asWritable.call (.insertVector tableId recordId size))
    setTable tableId
    setRecord recordId) := by
  simp only [perform, readInsertVector, bind_assoc, pure_bind]

/-- The arguments of `update_vector`, its size, and what it is about. -/
def readUpdateVector : Play Database Nat := do
  setTable (← buffer FileBuffer.readId)
  setRecord (← buffer FileBuffer.readReference)
  setField (← buffer FileBuffer.readId)
  buffer (FileBuffer.compactRead 64)

theorem untouched_readUpdateVector : Keeps Untouched readUpdateVector :=
  untouched_bind (untouched.buffer _) fun _ => untouched_bind (untouched_withContext _) fun _ =>
    untouched_bind (untouched.buffer _) fun _ => untouched_bind (untouched_withContext _) fun _ =>
      untouched_bind (untouched.buffer _) fun _ => untouched_bind (untouched_withContext _) fun _ =>
        untouched.buffer _

theorem perform_updateVector (ty : Ty) : perform Database.asWritable (.updateVector ty) = (do
    let size ← readUpdateVector
    if size = 0 then pure () else performUpdateVector Database.asWritable ty size) := by
  simp only [perform, readUpdateVector, bind_assoc]

/-- What the values of a vector are for, by the time they are read. -/
def UpdatesWhole (ty : Ty) (t : Replay Database) (read : ReadValues ty.kind) : Prop :=
  t.writable.UpdatesWhole ty t.context.tableOfLastOperation t.context.recordOfLastOperation
    t.context.fieldOfLastUpdate read

/-- When a step that throws leaves the tables the same: all but two of the operations always
do, an insertion of a vector that goes in whole or stops at its first record, and an update of
a vector in the own storage whose values are all read and for records that are used, or were
there already. -/
def StepsWhole (t : Replay Database) : Prop :=
  ∀ code t₁, buffer FileBuffer.readByte t = .ok code t₁ →
    match Operation.ofCode code with
    | some .insertVector => ∀ tableId recordId size t₂,
        readInsertVector t₁ = .ok (tableId, recordId, size) t₂ →
          t₂.writable.InsertsWhole tableId recordId size
    | some (.updateVector ty) => ∀ size t₂, readUpdateVector t₁ = .ok size t₂ → size ≠ 0 →
        ∀ n t₃, prepareUpdateVector Database.asWritable ty size t₂ = .ok (some n) t₃ →
          ∀ read t₄, readVector ty.kind size t₃ = .ok read t₄ → UpdatesWhole ty t₄ read
    | _ => True

theorem prepareUpdateVector_ok {ty : Ty} {size : Nat} {t t' : Replay Database}
    {capacity : Option Nat}
    (h : prepareUpdateVector Database.asWritable ty size t = .ok capacity t') :
    t' = t ∧ Database.asWritable.ownStorage ty t.context.tableOfLastOperation
      t.context.fieldOfLastUpdate t.writable = .ok capacity t.writable := by
  rw [prepareUpdateVector, get_bind_run] at h
  obtain ⟨-, h⟩ := guard_bind_eq_ok.mp h
  obtain ⟨own, t₁, hown, hrest⟩ := bind_eq_ok h
  obtain ⟨-, hrest⟩ := guard_bind_eq_ok.mp hrest
  obtain ⟨rfl, rfl⟩ := EStateM.Result.ok.inj hrest
  obtain ⟨db, hrun, rfl⟩ := onPart_eq_ok hown
  obtain rfl := Database.ownStorage_ok hrun
  exact ⟨rfl, hrun⟩

theorem spares_prepareUpdateVector (ty : Ty) (size : Nat) :
    Spares SameTables (prepareUpdateVector Database.asWritable ty size) := by
  refine spares_get_bind fun t => spares_guard_bind sameTables_refl ?_
  refine spares_bind (L := Untouched) (fun t t' t'' h h' => ?_)
    (spares_tell (Database.spares_getOwnStorage ty _ _)) (fun t a t' hrun => ?_)
    fun _ => spares_guard_bind sameTables_refl (spares_pure _)
  · rw [SameTables, h] at h'
    exact h'
  · obtain ⟨db, hown, rfl⟩ := onPart_eq_ok hrun
    exact Database.ownStorage_ok hown

/-- Without an own storage, nothing is stored before the checks. -/
theorem spares_finishUpdateVector (ty : Ty) (read : ReadValues ty.kind) :
    Spares SameTables (finishUpdateVector Database.asWritable ty none read) := by
  refine spares_get_bind fun t => ?_
  obtain ⟨values, stop⟩ := read
  cases stop with
  | some stop => exact (keeps_throw sameTables_refl stop.1).spares
  | none =>
      refine spares_op (fun _ _ _ h => ?_)
      cases h

theorem finishUpdateVector_same_iff {ty : Ty} {n : Nat} {t : Replay Database} {db : Database}
    (hown : Database.asWritable.ownStorage ty t.context.tableOfLastOperation
      t.context.fieldOfLastUpdate t.writable = .ok (some n) db)
    (read : ReadValues ty.kind) :
    (∀ e t', finishUpdateVector Database.asWritable ty (some n) read t = .error e t' →
      SameTables t t') ↔ UpdatesWhole ty t read := by
  obtain ⟨s, f, vs, hfind, hfield, hcolumn⟩ := Database.getOwnStorage_some hown
  obtain ⟨values, stop⟩ := read
  have hsome : (some n).isSome = true := rfl
  rw [finishUpdateVector, get_bind_run, when_pos hsome, modify_bind_run]
  cases stop with
  | some stop =>
      obtain ⟨e, first⟩ := stop
      obtain ⟨f', hstore, htype, hstored⟩ := Database.storePart_storeOwn_eq hfind hfield hcolumn
        t.context.recordOfLastOperation.toNat values first
      have hsame := Table.same_store_iff hfield hcolumn htype hstored
      rw [← Database.same_assign_iff hfind, ← hstore] at hsame
      refine ⟨fun h s' hs' => ?_, fun h e' t' hrun => ?_⟩
      · obtain rfl := Option.some.inj (hfind.symm.trans hs')
        exact hsame.mp (h e _ rfl)
      · obtain ⟨-, rfl⟩ := EStateM.Result.error.inj hrun
        exact hsame.mpr (h s hfind)
  | none =>
      obtain ⟨f', hstore, htype, hstored⟩ := Database.storeOwn_eq hfind hfield hcolumn
        t.context.recordOfLastOperation.toNat values
      have hwhole : f'.column = .vector ty
          ((copyN vs t.context.recordOfLastOperation.toNat values).modify
            (t.context.recordOfLastOperation.toNat + values.length) (ty.kind.overwrite [])) := by
        rw [Kind.overwrite_nil, List.modify_id]
        exact hstored
      have hsame := Table.same_store_iff hfield hcolumn htype hwhole
      rw [← Database.same_assign_iff hfind, ← hstore] at hsame
      have hfind' : find (Database.storeOwn ty t.context.tableOfLastOperation
          t.context.fieldOfLastUpdate t.context.recordOfLastOperation.toNat values
          t.writable).tables
            t.context.tableOfLastOperation
          = some { s with fields := assign s.fields t.context.fieldOfLastUpdate f' } := by
        rw [hstore]
        exact find_assign hfind _
      rcases Database.updateVector_cases hfind' (find_assign hfield f') hstored
          t.context.recordOfLastOperation values with
        ⟨hupdates, db', hrun⟩ | ⟨hupdates, e, hrun⟩
      · refine ⟨fun _ s' hs' => ?_, fun _ e t' herror => ?_⟩
        · obtain rfl := Option.some.inj (hfind.symm.trans hs')
          exact .inl hupdates
        · cases (tell_ok hrun).symm.trans herror
      · refine ⟨fun h s' hs' => ?_, fun h e' t' herror => ?_⟩
        · obtain rfl := Option.some.inj (hfind.symm.trans hs')
          exact .inr (hsame.mp (h e _ (tell_error hrun)))
        · obtain ⟨-, rfl⟩ := EStateM.Result.error.inj ((tell_error hrun).symm.trans herror)
          exact hsame.mpr ((h s hfind).resolve_left hupdates)

theorem performUpdateVector_same_iff (ty : Ty) (size : Nat) (t : Replay Database) :
    (∀ e t', performUpdateVector Database.asWritable ty size t = .error e t' → SameTables t t') ↔
      ∀ n t₁, prepareUpdateVector Database.asWritable ty size t = .ok (some n) t₁ →
        ∀ read t₂, readVector ty.kind size t₁ = .ok read t₂ → UpdatesWhole ty t₂ read := by
  rw [performUpdateVector]
  cases hprepare : prepareUpdateVector Database.asWritable ty size t with
  | error e t₁ =>
      rw [bind_error hprepare]
      refine ⟨fun _ n t₁ h => (by cases h), fun _ e' t' hrun => ?_⟩
      obtain ⟨-, rfl⟩ := EStateM.Result.error.inj hrun
      exact spares_prepareUpdateVector ty size t e t₁ hprepare
  | ok capacity t₁ =>
      obtain ⟨rfl, hown⟩ := prepareUpdateVector_ok hprepare
      rw [bind_ok hprepare]
      have huntouched : Keeps (Untouched (ω := Database)) (readVector ty.kind size) :=
        untouched.readVector ty.kind size
      cases capacity with
      | none =>
          refine ⟨fun _ n t₁ h => (by cases h), fun _ e t' hrun => ?_⟩
          exact spares_read huntouched (fun read => spares_finishUpdateVector ty read) t₁ e t' hrun
      | some n =>
          cases hread : readVector ty.kind size t₁ with
          | error e t₂ =>
              rw [bind_error hread]
              refine ⟨fun _ n t₁' h read t₂ hread' => ?_, fun _ e' t' hrun => ?_⟩
              · obtain ⟨-, rfl⟩ := EStateM.Result.ok.inj h
                cases hread.symm.trans hread'
              · obtain ⟨-, rfl⟩ := EStateM.Result.error.inj hrun
                rw [SameTables, huntouched.error hread]
                exact .refl _
          | ok read t₂ =>
              have hwritable : t₂.writable = t₁.writable := huntouched.ok hread
              have hcontext : t₂.context = t₁.context :=
                (bufferless_context.readVector ty.kind size).ok hread
              rw [← hwritable, ← hcontext] at hown
              have hfinish := finishUpdateVector_same_iff hown read
              rw [bind_ok hread]
              refine ⟨fun h n' t' h₁ read' t₂' h₂ => ?_, fun h e t' hrun => ?_⟩
              · obtain ⟨-, rfl⟩ := EStateM.Result.ok.inj h₁
                obtain ⟨rfl, rfl⟩ := EStateM.Result.ok.inj (hread.symm.trans h₂)
                refine hfinish.mp fun e t' hrun => ?_
                rw [SameTables, hwritable]
                exact h e t' hrun
              · have hsame := hfinish.mpr (h n t₁ rfl read t₂ hread) e t' hrun
                rw [SameTables, hwritable] at hsame
                exact hsame

theorem insertVector_same_iff (t : Replay Database) :
    (∀ e t', perform Database.asWritable .insertVector t = .error e t' → SameTables t t') ↔
      ∀ tableId recordId size t₁, readInsertVector t = .ok (tableId, recordId, size) t₁ →
        t₁.writable.InsertsWhole tableId recordId size := by
  rw [perform_insertVector]
  have huntouched := untouched_readInsertVector
  cases hread : readInsertVector t with
  | error e t₁ =>
      rw [bind_error hread]
      refine ⟨fun _ _ _ _ t₁ h => (by cases h), fun _ e' t' hrun => ?_⟩
      obtain ⟨-, rfl⟩ := EStateM.Result.error.inj hrun
      rw [SameTables, huntouched.error hread]
      exact .refl _
  | ok args t₁ =>
      obtain ⟨tableId, recordId, size⟩ := args
      rw [bind_ok hread]
      have hwritable : t₁.writable = t.writable := huntouched.ok hread
      have hcall :=
        Database.insertVector_same_iff tableId t₁.writable (readInsertVector_lt hread)
      have hargs : (∀ tableId' recordId' size' t₁', EStateM.Result.ok (tableId, recordId, size) t₁
          = (.ok (tableId', recordId', size') t₁' : EStateM.Result Exn (Replay Database) _) →
            t₁'.writable.InsertsWhole tableId' recordId' size') ↔
          t₁.writable.InsertsWhole tableId recordId size := by
        refine ⟨fun h => h _ _ _ _ rfl, fun h _ _ _ _ hsame => ?_⟩
        cases hsame
        exact h
      rw [hargs, ← hcall]
      simp only
      cases hinsert :
          Database.asWritable.call (.insertVector tableId recordId size) t₁.writable with
      | ok u db =>
          rw [bind_ok (tell_ok hinsert)]
          refine ⟨fun _ e db' h => ?_, fun _ e t' hrun => (by cases hrun)⟩
          cases hinsert.symm.trans h
      | error e db =>
          rw [bind_error (tell_error hinsert)]
          refine ⟨fun h e' db' hdb => ?_, fun h e' t' hrun => ?_⟩
          · obtain ⟨rfl, rfl⟩ := EStateM.Result.error.inj (hinsert.symm.trans hdb)
            rw [hwritable]
            exact h _ _ rfl
          · obtain ⟨-, rfl⟩ := EStateM.Result.error.inj hrun
            rw [SameTables, ← hwritable]
            exact h e db hinsert

theorem updateVector_same_iff (ty : Ty) (t : Replay Database) :
    (∀ e t', perform Database.asWritable (.updateVector ty) t = .error e t' → SameTables t t') ↔
      ∀ size t₁, readUpdateVector t = .ok size t₁ → size ≠ 0 →
        ∀ n t₂, prepareUpdateVector Database.asWritable ty size t₁ = .ok (some n) t₂ →
          ∀ read t₃, readVector ty.kind size t₂ = .ok read t₃ → UpdatesWhole ty t₃ read := by
  rw [perform_updateVector]
  have huntouched := untouched_readUpdateVector
  cases hread : readUpdateVector t with
  | error e t₁ =>
      rw [bind_error hread]
      refine ⟨fun _ _ t₁ h => (by cases h), fun _ e' t' hrun => ?_⟩
      obtain ⟨-, rfl⟩ := EStateM.Result.error.inj hrun
      rw [SameTables, huntouched.error hread]
      exact .refl _
  | ok size t₁ =>
      rw [bind_ok hread]
      have hwritable : t₁.writable = t.writable := huntouched.ok hread
      have hperform := performUpdateVector_same_iff ty size t₁
      by_cases hsize : size = 0
      · rw [if_pos hsize]
        refine ⟨fun _ size' t₁' h hne => ?_, fun _ e t' hrun => (by cases hrun)⟩
        exact absurd ((EStateM.Result.ok.inj h).1 ▸ hsize) hne
      · rw [if_neg hsize]
        refine ⟨fun h size' t₁' h₁ _ => ?_, fun h e t' hrun => ?_⟩
        · obtain ⟨rfl, rfl⟩ := EStateM.Result.ok.inj h₁
          refine hperform.mp fun e t' hrun => ?_
          rw [SameTables, hwritable]
          exact h e t' hrun
        · rw [SameTables, ← hwritable]
          exact hperform.mpr (h size t₁ rfl hsize) e t' hrun

theorem stepsWhole_iff {t t₁ : Replay Database} {code : UInt8}
    (h : buffer FileBuffer.readByte t = .ok code t₁) :
    StepsWhole t ↔ match Operation.ofCode code with
      | some .insertVector => ∀ tableId recordId size t₂,
          readInsertVector t₁ = .ok (tableId, recordId, size) t₂ →
            t₂.writable.InsertsWhole tableId recordId size
      | some (.updateVector ty) => ∀ size t₂, readUpdateVector t₁ = .ok size t₂ → size ≠ 0 →
          ∀ n t₃, prepareUpdateVector Database.asWritable ty size t₂ = .ok (some n) t₃ →
            ∀ read t₄, readVector ty.kind size t₃ = .ok read t₄ → UpdatesWhole ty t₄ read
      | _ => True := by
  refine ⟨fun hsteps => hsteps code t₁ h, fun hsteps code' t₁' h' => ?_⟩
  obtain ⟨rfl, rfl⟩ := EStateM.Result.ok.inj (h.symm.trans h')
  exact hsteps

/-- A step that throws leaves all tables, what is used and all values as they were, exactly
unless it breaks off between the changes of a vector: one of records, inserted one by one, or
one of values, read into the own storage. -/
theorem refused_step_changes_nothing (t : Replay Database) :
    (∀ e t', oneStep Database.asWritable t = .error e t' → SameTables t t') ↔ StepsWhole t := by
  have hread := untouched.buffer (ω := Database) FileBuffer.readByte
  rw [oneStep]
  cases hbyte : buffer FileBuffer.readByte t with
  | error e t₁ =>
      rw [bind_error hbyte]
      refine ⟨fun _ code t₁ h => (by cases h.symm.trans hbyte), fun _ e' t' hrun => ?_⟩
      obtain ⟨-, rfl⟩ := EStateM.Result.error.inj hrun
      rw [SameTables, hread.error hbyte]
      exact .refl _
  | ok code t₁ =>
      rw [bind_ok hbyte]
      have hsame : ∀ t', SameTables t₁ t' ↔ SameTables t t' := fun t' => by
        rw [SameTables, show t₁.writable = t.writable from hread.ok hbyte]
      simp only [← hsame]
      refine .trans ?_ (stepsWhole_iff hbyte).symm
      cases hop : Operation.ofCode code with
      | none =>
          refine ⟨fun _ => trivial, fun _ e t' hrun => ?_⟩
          exact spares_get_bind (fun _ => (keeps_throw sameTables_refl _).spares) t₁ e t' hrun
      | some operation =>
          have hrest : operation ≠ .insertVector → (∀ ty, operation ≠ .updateVector ty) →
              ∀ e t', perform Database.asWritable operation t₁ = .error e t' → SameTables t₁ t' :=
            fun hinsert hupdate => spares_perform hinsert hupdate t₁
          cases operation with
          | insertVector => exact insertVector_same_iff t₁
          | updateVector ty => exact updateVector_same_iff ty t₁
          | _ => exact ⟨fun _ => trivial, fun _ => hrest (by simp) (by simp)⟩

/-- Four operations that make a table of two records, the first of them deleted again, and a
fifth that updates both, replayed up to the fifth. -/
def beforeTheFifth : Except Exn (Replay Database) := do
  let j ← Journal.openWritable .empty .none
  let ops : List Op := [.createTable [0x74], .addField 1 [0x66] (.plain (Ty.typeId .int8)),
    .insertVector 1 0 2, .deleteFrom 1 0,
    .updateVector .int8 1 0 1 [(5 : BitVec 8), (6 : BitVec 8)]]
  let j ← Journal.openReadonly (ops.foldl Journal.perform j).softCheckpoint.file .none false
  let four := do
    oneStep Database.asWritable
    oneStep Database.asWritable
    oneStep Database.asWritable
    oneStep Database.asWritable
  match four ⟨j, .create (-1)⟩ with
  | .ok _ t => .ok t
  | .error e _ => .error e

/-- The size of the table, and the value of its second record. -/
def secondRecord (t : Replay Database) : Option (Nat × Nat) :=
  (find t.writable.tables 1).bind fun s =>
    match s.value 1 1 with
    | some ⟨.int8, v⟩ => some (s.freedom.getSize, BitVec.toNat (w := 8) v)
    | _ => none

/-- How the next step ends, with the second record before and after. -/
def nextStep (start : Except Exn (Replay Database)) :
    Option (Exn × Option (Nat × Nat) × Option (Nat × Nat)) :=
  match start with
  | .error _ => none
  | .ok t =>
      match oneStep Database.asWritable t with
      | .ok _ _ => none
      | .error e t' => some (e, secondRecord t, secondRecord t')

theorem SameTables.secondRecord {t t' : Replay Database} (h : SameTables t t') {n v : Nat}
    (hn : 1 < n) (hvalue : t.secondRecord = some (n, v)) :
    (t'.secondRecord).map Prod.snd = some v := by
  have htable := h.tables 1
  rw [Replay.secondRecord] at hvalue ⊢
  cases hs : find t.writable.tables 1 with
  | none =>
      rw [hs] at hvalue
      cases hvalue
  | some s =>
      rw [hs] at hvalue htable
      obtain ⟨s', hs', hsame⟩ : ∃ s', find t'.writable.tables 1 = some s' ∧ Table.Same s s' := by
        cases hs' : find t'.writable.tables 1 with
        | none =>
            rw [hs'] at htable
            cases htable
        | some s' =>
            rw [hs'] at htable
            cases htable with
            | some hsame => exact ⟨s', rfl, hsame⟩
      rw [hs', Option.bind_some]
      rw [Option.bind_some] at hvalue
      split at hvalue
      · next w hw =>
          obtain ⟨rfl, rfl⟩ := Prod.mk.inj (Option.some.inj hvalue)
          rw [hsame.values 1 1 hn, hw]
          rfl
      · cases hvalue

theorem changed_of_nextStep {start : Except Exn (Replay Database)} {e : Exn} {n v n' v' : Nat}
    (h : nextStep start = some (e, some (n, v), some (n', v'))) (hn : 1 < n) (hne : v ≠ v') :
    ∃ t t', oneStep Database.asWritable t = .error e t' ∧ ¬ SameTables t t' := by
  cases start with
  | error e => cases h
  | ok t =>
      rw [nextStep] at h
      cases hrun : oneStep Database.asWritable t with
      | ok u t' =>
          simp only [hrun] at h
          cases h
      | error e' t' =>
          simp only [hrun] at h
          obtain ⟨rfl, hpair⟩ := Prod.mk.inj (Option.some.inj h)
          obtain ⟨hbefore, hafter⟩ := Prod.mk.inj hpair
          refine ⟨t, t', hrun, fun hsame => ?_⟩
          have hkept := hsame.secondRecord hn hbefore
          rw [hafter] at hkept
          exact hne (Option.some.inj hkept).symm

/-- The update is refused, for its first record, and the second has its new value. -/
theorem refused_step_changes_value :
    ¬ ∀ (t : Replay Database) e t', oneStep Database.asWritable t = .error e t' →
      SameTables t t' := by
  intro hall
  have hfifth : nextStep beforeTheFifth
      = some (.exception "update: invalid record_id", some (2, 0), some (2, 6)) := by
    decide +kernel
  obtain ⟨t, t', hrun, hchanged⟩ := changed_of_nextStep hfifth (by decide) (by decide)
  exact hchanged (hall t _ t' hrun)

end Replay

end Joedb
