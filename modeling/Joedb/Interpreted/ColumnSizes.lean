import Joedb.Interpreted.Refusals

/-!
# Columns as long as their tables

The number of places for records is kept twice over: in the `Freedom_Keeper`, and in the vector
of each field. Insertions make all of them longer, the vectors first or the keeper first, and a
new field starts out with the size of the keeper. An exception may only come before the first
of these changes, as long as there is memory: what comes from the middle is a `length_error`.
So the sizes agree after any operations, those that threw included, and a field keeps its
column whatever becomes of the others.

Unless a sum of an id and a size does not fit. The vectors do not get longer then, no memory is
asked for, and the lists of the `Freedom_Keeper` are written behind their end.
-/

namespace Joedb

open ByteFile Containers StateExcept

/-! ## Exceptions other than `length_error` -/

/-- A guard before anything is changed. -/
theorem spares_guard {σ α : Type} {c : Prop} [Decidable c] {e : Exn} {f : Unit → EStateM Exn σ α}
    (hf : Spares (fun s s' => s' = s) (f ())) :
    Spares (fun s s' => s' = s) (when c (throw e) >>= f) :=
  spares_guard_bind (R := fun s s' => s' = s) (fun _ => rfl) hf

theorem Field.create_error {type : FieldType} {size : Nat} {e : Exn}
    (h : Field.create type size = .error e) : e = .lengthError := by
  rw [Field.create] at h
  split at h
  · cases h
  · split at h
    · cases h
    · exact (Except.error.inj h).symm

namespace Table

theorem resizeAll_lengthError {size : Nat} {fields : List (FieldId × Field)} {e : Exn}
    (h : (resizeAll size fields).2 = some e) : e = .lengthError := by
  induction fields with
  | nil => cases h
  | cons entry fields ih =>
      obtain ⟨fieldId, f⟩ := entry
      rw [resizeAll] at h
      rcases Field.resize_cases size f with ⟨-, f', hrun, -⟩ | ⟨-, hrun⟩
      · rw [hrun] at h
        exact ih h
      · rw [hrun] at h
        exact (Option.some.inj h).symm

theorem resizeFields_lengthError {size : Nat} {t t' : Table} {e : Exn}
    (h : resizeFields size t = .error e t') : e = .lengthError := by
  rw [resizeFields, get_bind_run] at h
  cases hthrown : (resizeAll size t.fields).2 with
  | none =>
      rw [hthrown] at h
      cases h
  | some e' =>
      rw [hthrown] at h
      obtain ⟨rfl, -⟩ := EStateM.Result.error.inj h
      exact resizeAll_lengthError hthrown

theorem insertRecord_error {recordId : RecordId} {t t' : Table} {e : Exn}
    (hrun : insertRecord recordId t = .error e t') (he : e ≠ .lengthError) : t' = t := by
  rw [insertRecord, get_bind_run] at hrun
  by_cases hgrow : recordId ≥ t.freedom.getSize
  · rw [if_pos hgrow] at hrun
    by_cases hlast : recordId + 1 ≥ 2 ^ 63
    · rw [when_pos hlast] at hrun
      exact (EStateM.Result.error.inj hrun).2.symm
    · rw [when_neg hlast, pure_bind_run] at hrun
      cases hresize : resizeFields (recordId + 1).toNat t with
      | ok u t₁ =>
          rw [bind_ok hresize] at hrun
          cases hrun
      | error e' t₁ =>
          rw [bind_error hresize] at hrun
          obtain ⟨rfl, -⟩ := EStateM.Result.error.inj hrun
          exact absurd (resizeFields_lengthError hresize) he
  · rw [if_neg hgrow] at hrun
    by_cases hfree : t.freedom.isFree recordId = false
    · rw [when_pos hfree] at hrun
      exact (EStateM.Result.error.inj hrun).2.symm
    · rw [when_neg hfree] at hrun
      cases hrun

theorem insertRecord_defined {recordId : Int} {t t' : Table} {e : Exn}
    (hsmall : recordId + 1 < 2 ^ 63 ∨ recordId < t.freedom.getSize)
    (hrun : insertRecord recordId t = .error e t') : e.isDefined = true := by
  rw [insertRecord, get_bind_run] at hrun
  by_cases hgrow : recordId ≥ t.freedom.getSize
  · have hlast : ¬ recordId + 1 ≥ 2 ^ 63 :=
      Int.not_le.mpr (hsmall.resolve_right (Int.not_lt.mpr hgrow))
    rw [if_pos hgrow, when_neg hlast, pure_bind_run] at hrun
    cases hresize : resizeFields (recordId + 1).toNat t with
    | ok u t₁ =>
        rw [bind_ok hresize] at hrun
        cases hrun
    | error e' t₁ =>
        rw [bind_error hresize] at hrun
        obtain ⟨rfl, -⟩ := EStateM.Result.error.inj hrun
        rw [resizeFields_lengthError hresize]
        rfl
  · rw [if_neg hgrow] at hrun
    by_cases hfree : t.freedom.isFree recordId = false
    · rw [when_pos hfree] at hrun
      obtain ⟨rfl, -⟩ := EStateM.Result.error.inj hrun
      rfl
    · rw [when_neg hfree] at hrun
      cases hrun

/-- The records that were inserted stay, and the table is in order with them. -/
theorem insertRecords_error {recordId : Int} {size : Nat} {t t' : Table} {e : Exn}
    (h : t.Sound) (hlo : 0 ≤ recordId) (hrun : insertRecords recordId size t = .error e t')
    (he : e ≠ .lengthError) : t'.Sound := by
  induction size generalizing t recordId with
  | zero => cases hrun
  | succ size ih =>
      rw [insertRecords] at hrun
      cases hinsert : insertRecord recordId t with
      | ok u t₁ =>
          rw [bind_ok hinsert] at hrun
          exact ih (insertRecord_ok h hlo hinsert).2.1.sound (Int.le_add_one hlo) hrun
      | error e' t₁ =>
          rw [bind_error hinsert] at hrun
          obtain ⟨rfl, rfl⟩ := EStateM.Result.error.inj hrun
          rw [insertRecord_error hinsert he]
          exact h

theorem useVector_error {recordId : RecordId} {size : Nat} {t t' : Table} {e : Exn}
    (hrun : useVector recordId size t = .error e t') : t' = t := by
  rw [useVector] at hrun
  cases huse : t.freedom.useVector64 recordId size with
  | ok freedom =>
      rw [huse] at hrun
      cases hrun
  | error e' =>
      rw [huse] at hrun
      exact (EStateM.Result.error.inj hrun).2.symm

theorem insertVector_error {recordId : RecordId} {size : Nat} {t t' : Table} {e : Exn}
    (h : t.Sound) (hrun : insertVector recordId size t = .error e t') (he : e ≠ .lengthError) :
    t'.Sound := by
  rw [insertVector, get_bind_run] at hrun
  cases hfree : t.freedom.isFreeVector recordId size with
  | false =>
      rw [when_pos hfree] at hrun
      obtain ⟨-, rfl⟩ := EStateM.Result.error.inj hrun
      exact h
  | true =>
      rw [when_neg (by rw [hfree]; exact Bool.noConfusion), pure_bind_run] at hrun
      by_cases hend : recordId = t.freedom.getSize
      · rw [if_pos hend, modify_bind_run, get_bind_run] at hrun
        simp only at hrun
        generalize hn : (word (t.freedom.getSize + size)).toNat = n at hrun
        cases hresize : resizeFields (t.freedom.resize n).getSize
            { t with freedom := t.freedom.resize n } with
        | ok u t₁ =>
            rw [bind_ok hresize] at hrun
            obtain rfl := useVector_error hrun
            exact (h.resizeFields (hn ▸ toNat_word_lt _) hresize).1.sound
        | error e' t₁ =>
            rw [bind_error hresize] at hrun
            obtain ⟨rfl, -⟩ := EStateM.Result.error.inj hrun
            exact absurd (resizeFields_lengthError hresize) he
      · rw [if_neg hend] at hrun
        exact insertRecords_error h (FreedomKeeper.isFreeVector_sound hfree).1 hrun he

theorem insertRecords_defined {recordId : Int} {size : Nat} {t t' : Table} {e : Exn}
    (hsmall : recordId + size < 2 ^ 63)
    (hrun : insertRecords recordId size t = .error e t') : e.isDefined = true := by
  induction size generalizing t recordId with
  | zero => cases hrun
  | succ size ih =>
      rw [insertRecords] at hrun
      cases hinsert : insertRecord recordId t with
      | ok u t₁ =>
          rw [bind_ok hinsert] at hrun
          exact ih (by omega) hrun
      | error e' t₁ =>
          rw [bind_error hinsert] at hrun
          obtain ⟨rfl, rfl⟩ := EStateM.Result.error.inj hrun
          exact insertRecord_defined (.inl (by omega)) hinsert

/-- Whether an insertion that passes for free comes to a sum that is an `index_t`, or to one that
a keeper of used records only makes less of. -/
def SumFits (t : Table) (recordId : Int) (size : Nat) : Prop :=
  t.freedom.isFreeVector recordId size = true →
    recordId + size < 2 ^ 63 ∨
      (recordId = t.freedom.getSize ∧ t.freedom.dense = true ∧
        t.freedom.dfk.usedSize = t.freedom.getSize ∧
        0 ≤ word (recordId + size) ∧ word (recordId + size) ≤ recordId)

theorem insertVector_defined {recordId : Int} {size : Nat} {t t' : Table} {e : Exn}
    (hsum : t.SumFits recordId size) (hrun : insertVector recordId size t = .error e t') :
    e.isDefined = true := by
  cases hfree : t.freedom.isFreeVector recordId size with
  | false =>
      rw [insertVector, get_bind_run, when_pos hfree] at hrun
      obtain ⟨rfl, -⟩ := EStateM.Result.error.inj hrun
      rfl
  | true =>
      rcases hsum hfree with hsmall | ⟨hend, hdense, hfull, hpos, hle⟩
      · by_cases hend : recordId = t.freedom.getSize
        · rw [insertVector_end hfree hend hsmall] at hrun
          cases hresize : resizeFields (t.freedom.getSize + size)
              { t with freedom := t.freedom.resize (t.freedom.getSize + size) } with
          | ok u t₁ =>
              rw [bind_ok hresize] at hrun
              cases hrun
          | error e' t₁ =>
              rw [bind_error hresize] at hrun
              obtain ⟨rfl, -⟩ := EStateM.Result.error.inj hrun
              rw [resizeFields_lengthError hresize]
              rfl
        · rw [insertVector_before hfree hend] at hrun
          exact insertRecords_defined hsmall hrun
      · have hsame : t.freedom.resize (word (t.freedom.getSize + size)).toNat = t.freedom :=
          FreedomKeeper.resize_of_le (by rw [← hend]; omega)
        rw [insertVector, get_bind_run, when_neg (by rw [hfree]; exact Bool.noConfusion),
          pure_bind_run, if_pos hend, modify_bind_run, get_bind_run] at hrun
        simp only [hsame] at hrun
        cases hresize : resizeFields t.freedom.getSize t with
        | ok u t₁ =>
            -- a keeper of used records that takes less of them
            obtain ⟨k, huse⟩ := FreedomKeeper.useVector64_of_le (n := size) hdense
              (hend.trans (congrArg Nat.cast hfull.symm)) hpos (by omega)
            rw [bind_ok hresize, useVector, resizeFields_freedom hresize, huse] at hrun
            cases hrun
        | error e' t₁ =>
            rw [bind_error hresize] at hrun
            obtain ⟨rfl, -⟩ := EStateM.Result.error.inj hrun
            rw [resizeFields_lengthError hresize]
            rfl

/-! ## Exceptions that are thrown -/

theorem throws_withField {α : Type} (fieldId : FieldId) {m : EStateM Exn Field α}
    (hm : Throws (·.isDefined = true) m) : Throws (·.isDefined = true) (withField fieldId m) := by
  intro t e t' hrun
  rw [withField] at hrun
  cases hfind : find t.fields fieldId with
  | none =>
      rw [hfind] at hrun
      obtain ⟨rfl, -⟩ := EStateM.Result.error.inj hrun
      rfl
  | some f =>
      rw [hfind] at hrun
      simp only at hrun
      cases hf : m f with
      | ok a f' =>
          rw [hf] at hrun
          cases hrun
      | error e' f' =>
          rw [hf] at hrun
          obtain ⟨rfl, -⟩ := EStateM.Result.error.inj hrun
          exact hm f e' f' hf

theorem throws_put (ty : Ty) (g : List ty.Storage → List ty.Storage) :
    Throws (·.isDefined = true) (Field.put ty g) := by
  intro f e f' hrun
  rw [Field.put] at hrun
  split at hrun
  · obtain ⟨rfl, -⟩ := EStateM.Result.error.inj hrun
    rfl
  · split at hrun
    · cases hrun
    · obtain ⟨rfl, -⟩ := EStateM.Result.error.inj hrun
      rfl

theorem throws_checkRecordId (recordId : RecordId) :
    Throws (·.isDefined = true) (checkRecordId recordId) :=
  throws_get_bind fun _ => throws_when (throws_throw rfl)

theorem throws_update (ty : Ty) (recordId : RecordId) (fieldId : FieldId) (value : ty.Arg) :
    Throws (·.isDefined = true) (update ty recordId fieldId value) :=
  throws_bind (throws_withField fieldId (throws_pure ())) fun _ =>
    throws_bind (throws_checkRecordId recordId) fun _ =>
      throws_withField fieldId (throws_put ty _)

theorem throws_updateVector (ty : Ty) (recordId : RecordId) (fieldId : FieldId)
    (values : List ty.Storage) :
    Throws (·.isDefined = true) (updateVector ty recordId fieldId values) := by
  refine throws_bind (throws_withField fieldId (throws_pure ())) fun _ => ?_
  split
  · exact throws_pure ()
  · exact throws_bind (throws_checkRecordId recordId) fun _ =>
      throws_bind (throws_checkRecordId _) fun _ => throws_withField fieldId (throws_put ty _)

theorem throws_addField (name : Bytes) (type : FieldType) :
    Throws (·.isDefined = true) (addField name type) := by
  refine throws_get_bind fun _ => throws_guard_bind rfl fun _ => throws_guard_bind rfl fun _ =>
    throws_bind (throws_modify _) fun _ => throws_get_bind fun t => ?_
  cases hcreate : Field.create type t.freedom.getSize with
  | ok f => exact throws_modify _
  | error e =>
      rw [Field.create_error hcreate]
      exact throws_throw rfl

/-- The one exception behind a change, of the last field id, leaves the fields. -/
theorem addField_error {name : Bytes} {type : FieldType} {t t' : Table} {e : Exn}
    (hrun : addField name type t = .error e t') :
    t'.fields = t.fields ∧ t'.freedom = t.freedom ∧ (e ≠ .lengthError → t' = t) := by
  rw [addField, get_bind_run] at hrun
  by_cases hname : t.findField name ≠ 0
  · rw [when_pos hname] at hrun
    obtain ⟨-, rfl⟩ := EStateM.Result.error.inj hrun
    exact ⟨rfl, rfl, fun _ => rfl⟩
  · rw [when_neg hname, pure_bind_run] at hrun
    by_cases hmax : t.currentFieldId = 65535
    · rw [when_pos hmax] at hrun
      obtain ⟨-, rfl⟩ := EStateM.Result.error.inj hrun
      exact ⟨rfl, rfl, fun _ => rfl⟩
    · rw [when_neg hmax, pure_bind_run, modify_bind_run, get_bind_run] at hrun
      simp only at hrun
      cases hcreate : Field.create type t.freedom.getSize with
      | ok f =>
          rw [hcreate] at hrun
          cases hrun
      | error e' =>
          rw [hcreate] at hrun
          obtain ⟨rfl, rfl⟩ := EStateM.Result.error.inj hrun
          exact ⟨rfl, rfl, fun he => absurd (Field.create_error hcreate) he⟩

end Table

/-! ## Databases in order -/

namespace Database

variable {db db' : Database}

theorem Sound.withTable_error (h : db.Sound) {tableId : TableId} {m : EStateM Exn Table Unit}
    {e : Exn} (hrun : withTable tableId m db = .error e db')
    (hm : ∀ t t', t.Sound → m t = .error e t' → t'.Sound) : db'.Sound := by
  obtain ⟨-, rfl⟩ | ⟨t, t', hfind, hthrown, rfl⟩ := Database.withTable_error hrun
  · exact h
  · exact (h.assign hfind (hm t t' (h.sound tableId t hfind) hthrown)
      (g := fun _ => t'.view) rfl).1

/-- Nothing was changed, or one table, which is in order. -/
theorem Sound.error (h : db.Sound) {op : Op} {e : Exn} (he : e ≠ .lengthError)
    (hdb : Database.call op db = .error e db') : db'.Sound := by
  have hsame : ∀ {m : EStateM Exn Database Unit}, Spares (fun d d' => d' = d) m →
      m db = .error e db' → db'.Sound := fun hm hrun => hm db e db' hrun ▸ h
  have htable : ∀ {tableId : TableId} {m : EStateM Exn Table Unit},
      Spares (fun t t' => t' = t) m → withTable tableId m db = .error e db' → db'.Sound :=
    fun hm hrun => h.withTable_error hrun fun t t' ht hthrown => hm t e t' hthrown ▸ ht
  have hnamed : ∀ {message : String} {name : Bytes} {m : EStateM Exn Database Unit},
      (m db = .error e db' → db'.Sound) →
      (checkIdentifier message name >>= fun _ => m) db = .error e db' → db'.Sound := by
    intro message name m hm hrun
    by_cases hname : isIdentifier name = false
    · rw [checkIdentifier, when_pos hname] at hrun
      obtain ⟨-, rfl⟩ := EStateM.Result.error.inj hrun
      exact h
    · rw [checkIdentifier, when_neg hname] at hrun
      exact hm hrun
  cases op with
  | createTable name =>
      refine hnamed (hsame (spares_get_bind fun _ => ?_)) hdb
      exact spares_guard <| spares_guard fun _ _ _ hrun => (by cases hrun)
  | dropTable t =>
      exact hsame (m := Database.dropTable t)
        (spares_get_bind fun _ => spares_guard (spares_modify _)) hdb
  | renameTable t name =>
      refine hnamed (hsame (spares_get_bind fun _ => spares_guard ?_)) hdb
      refine spares_then (fun d e' d' hrun => ?_) fun _ _ _ _ hrun => (by cases hrun)
      obtain ⟨-, rfl⟩ | ⟨_, _, _, hthrown, -⟩ := Database.withTable_error hrun
      · rfl
      · cases hthrown
  | addField t name type =>
      refine hnamed (fun hrun => h.withTable_error hrun fun t t' ht hthrown => ?_) hdb
      rw [(Table.addField_error hthrown).2.2 he]
      exact ht
  | dropField t f =>
      exact htable (m := Table.dropField f)
        (spares_get_bind fun _ => spares_guard (spares_modify _)) hdb
  | renameField t f name =>
      refine hnamed (htable (spares_get_bind fun _ => ?_)) hdb
      exact spares_guard (spares_guard (spares_modify _))
  | insertInto t r =>
      rw [Database.call, insertInto, get_bind_run] at hdb
      by_cases hout : r < 0 ∨ (db.maxRecordId ≥ 0 ∧ r > db.maxRecordId)
      · rw [when_pos hout] at hdb
        obtain ⟨-, rfl⟩ := EStateM.Result.error.inj hdb
        exact h
      · rw [when_neg hout, pure_bind_run] at hdb
        refine h.withTable_error hdb fun t t' ht hthrown => ?_
        rw [Table.insertRecord_error hthrown he]
        exact ht
  | insertVector t r size =>
      rw [Database.call, insertVector, get_bind_run] at hdb
      by_cases hout : db.maxRecordId ≥ 0 ∧ ¬(r < db.maxRecordId ∧ size < db.maxRecordId)
      · rw [when_pos hout] at hdb
        obtain ⟨-, rfl⟩ := EStateM.Result.error.inj hdb
        exact h
      · rw [when_neg hout, pure_bind_run] at hdb
        exact h.withTable_error hdb fun t t' ht hthrown => Table.insertVector_error ht hthrown he
  | deleteFrom t r =>
      exact htable (m := Table.deleteRecord r)
        (spares_get_bind fun _ => spares_guard (spares_modify _)) hdb
  | deleteVector t r size =>
      exact htable (m := Table.deleteVector r size)
        (spares_get_bind fun _ => spares_guard (spares_modify _)) hdb
  | update ty t r f v => exact htable (Table.spares_update ty r f v) hdb
  | updateVector ty t r f vs => exact htable (Table.spares_updateVector ty r f vs) hdb
  | _ => cases hdb

/-- `Sound.call` for an update of a vector. -/
theorem Sound.updateVector (h : db.Sound) {ty : Ty} {tableId : TableId} {recordId : RecordId}
    {fieldId : FieldId} {values : List ty.Storage}
    (hdb : Database.updateVector ty tableId recordId fieldId values db = .ok () db') :
    db'.Sound := by
  refine (h.onRecords hdb fun t t' ht hrun => ?_).1
  by_cases hempty : values.length = 0
  · obtain ⟨_, t₁, hfield, hrest⟩ := bind_eq_ok hrun
    obtain rfl := Table.withField_pure hfield
    rw [if_pos hempty] at hrest
    obtain rfl := (EStateM.Result.ok.inj hrest).2
    exact ⟨ht, rfl⟩
  · have hwrote := Table.updateVector_ok ht hempty hrun
    exact ⟨hwrote.sound, hwrote.view⟩

/-- An operation that did not run out of memory leaves the tables in order. -/
theorem Sound.after (h : db.Sound) {op : Op}
    (hmemory : ∀ db', Database.call op db ≠ .error .lengthError db') :
    (StateExcept.after (Database.call op) db).Sound := by
  cases hrun : Database.call op db with
  | error e db' =>
      rw [after_error hrun]
      refine h.error (fun he => ?_) hrun
      exact hmemory db' (he ▸ hrun)
  | ok u db' =>
      rw [after_ok hrun]
      by_cases hop : ∃ ty t r f vs, op = .updateVector ty t r f vs
      · obtain ⟨ty, t, r, f, vs, rfl⟩ := hop
        exact h.updateVector hrun
      · exact (h.call (fun ty t r f vs heq => hop ⟨ty, t, r, f, vs, heq⟩) hrun).1

/-- Whether the sums that an operation comes to are an `index_t`. -/
def SumFits (db : Database) : Op → Prop
  | .insertInto tableId recordId =>
      ¬ (recordId < 0 ∨ (db.maxRecordId ≥ 0 ∧ recordId > db.maxRecordId)) →
        ∀ t, find db.tables tableId = some t →
          recordId + 1 < 2 ^ 63 ∨ recordId < t.freedom.getSize
  | .insertVector tableId recordId size =>
      ¬ (db.maxRecordId ≥ 0 ∧ ¬(recordId < db.maxRecordId ∧ size < db.maxRecordId)) →
        ∀ t, find db.tables tableId = some t → t.SumFits recordId size
  | _ => True

/-- What a table throws, or that there is no such table. -/
theorem withTable_defined {α : Type} {tableId : TableId} {m : EStateM Exn Table α} {e : Exn}
    (hm : ∀ t, find db.tables tableId = some t → ∀ t', m t = .error e t' → e.isDefined = true)
    (hrun : withTable tableId m db = .error e db') : e.isDefined = true := by
  rw [withTable] at hrun
  cases hfind : find db.tables tableId with
  | none =>
      rw [hfind] at hrun
      obtain ⟨rfl, -⟩ := EStateM.Result.error.inj hrun
      rfl
  | some t =>
      rw [hfind] at hrun
      simp only at hrun
      cases ht : m t with
      | ok a t' =>
          rw [ht] at hrun
          cases hrun
      | error e' t' =>
          rw [ht] at hrun
          obtain ⟨rfl, -⟩ := EStateM.Result.error.inj hrun
          exact hm t hfind t' ht

theorem throws_withTable {α : Type} (tableId : TableId) {m : EStateM Exn Table α}
    (hm : Throws (·.isDefined = true) m) :
    Throws (·.isDefined = true) (withTable tableId m) :=
  fun _ e _ hrun => withTable_defined (fun t _ t' => hm t e t') hrun

theorem throws_createTable (name : Bytes) :
    Throws (·.isDefined = true) (Database.createTable name) :=
  throws_guard_bind rfl fun _ => throws_get_bind fun _ => throws_guard_bind rfl fun _ =>
    throws_guard_bind rfl fun _ => throws_bind (throws_modify _) fun _ => throws_modify _

theorem throws_dropTable (tableId : TableId) :
    Throws (·.isDefined = true) (Database.dropTable tableId) :=
  throws_get_bind fun _ => throws_guard_bind rfl fun _ => throws_modify _

theorem throws_renameTable (tableId : TableId) (name : Bytes) :
    Throws (·.isDefined = true) (Database.renameTable tableId name) :=
  throws_guard_bind rfl fun _ => throws_get_bind fun _ => throws_guard_bind rfl fun _ =>
    throws_bind (throws_withTable tableId (throws_pure ())) fun _ => throws_modify _

theorem throws_addField (tableId : TableId) (name : Bytes) (type : FieldType) :
    Throws (·.isDefined = true) (Database.addField tableId name type) :=
  throws_guard_bind rfl fun _ => throws_withTable tableId (Table.throws_addField name type)

theorem throws_renameField (tableId : TableId) (fieldId : FieldId) (name : Bytes) :
    Throws (·.isDefined = true) (Database.renameField tableId fieldId name) := by
  have hm : Throws (·.isDefined = true) (renameFieldOf fieldId name) :=
    throws_get_bind fun _ => throws_guard_bind rfl fun _ => throws_guard_bind rfl fun _ =>
      throws_modify _
  exact throws_guard_bind rfl fun _ => throws_withTable tableId hm

/-- An operation whose sums fit ends, or really throws. -/
theorem call_defined {op : Op} (hsum : db.SumFits op) {e : Exn}
    (hdb : Database.call op db = .error e db') : e.isDefined = true := by
  have hguard : ∀ {c : Prop} [Decidable c] {message : String} {m : EStateM Exn Database Unit},
      (¬ c → m db = .error e db' → e.isDefined = true) →
        (when c (throw (.exception message)) >>= fun _ => m) db = .error e db' →
          e.isDefined = true := by
    intro c _ message m hm hrun
    by_cases hc : c
    · rw [when_pos hc] at hrun
      obtain ⟨rfl, -⟩ := EStateM.Result.error.inj hrun
      rfl
    · rw [when_neg hc] at hrun
      exact hm hc hrun
  cases op with
  | createTable name => exact throws_createTable name db e db' hdb
  | dropTable t => exact throws_dropTable t db e db' hdb
  | renameTable t name => exact throws_renameTable t name db e db' hdb
  | addField t name type => exact throws_addField t name type db e db' hdb
  | dropField t f =>
      exact throws_withTable t (m := Table.dropField f) (throws_get_bind fun _ =>
        throws_guard_bind rfl fun _ => throws_modify _) db e db' hdb
  | renameField t f name => exact throws_renameField t f name db e db' hdb
  | insertInto t r =>
      refine hguard (fun hin => withTable_defined fun table hfind t' hthrown => ?_) hdb
      exact Table.insertRecord_defined (hsum hin table hfind) hthrown
  | insertVector t r size =>
      refine hguard (fun hin => withTable_defined fun table hfind t' hthrown => ?_) hdb
      exact Table.insertVector_defined (hsum hin table hfind) hthrown
  | deleteFrom t r =>
      exact throws_withTable t (m := Table.deleteRecord r) (throws_get_bind fun _ =>
        throws_guard_bind rfl fun _ => throws_modify _) db e db' hdb
  | deleteVector t r size =>
      exact throws_withTable t (m := Table.deleteVector r size) (throws_get_bind fun _ =>
        throws_guard_bind rfl fun _ => throws_modify _) db e db' hdb
  | update ty t r f v => exact throws_withTable t (Table.throws_update ty r f v) db e db' hdb
  | updateVector ty t r f vs =>
      exact throws_withTable t (Table.throws_updateVector ty r f vs) db e db' hdb
  | _ => cases hdb

/-! ## Other fields -/

theorem find_after_withTable {α : Type} (tableId : TableId) (m : EStateM Exn Table α)
    (id : TableId) : find (StateExcept.after (withTable tableId m) db).tables id
      = if id = tableId then (find db.tables tableId).map (StateExcept.after m)
        else find db.tables id := by
  cases hfind : find db.tables tableId with
  | none =>
      rw [StateExcept.after, withTable, hfind]
      by_cases hid : id = tableId
      · rw [if_pos hid, hid]
        exact hfind
      · rw [if_neg hid]
  | some t =>
      rw [after_withTable hfind, find_assign_eq, hfind]
      rfl

/-- The operations that add or remove another field. -/
def OtherField (tableId : TableId) (fieldId : FieldId) : Op → Prop
  | .addField .. => True
  | .dropField t f => ¬ (t = tableId ∧ f = fieldId)
  | _ => False

/-- Whether they throw or not, a field that is there stays as it is, in a table with the same
records. -/
theorem Sound.otherField (h : db.Sound) {tableId : TableId} {fieldId : FieldId} {op : Op}
    (hop : OtherField tableId fieldId op) {t : Table} (hfind : find db.tables tableId = some t)
    {f : Field} (hfield : find t.fields fieldId = some f) :
    ∃ t', find (StateExcept.after (Database.call op) db).tables tableId = some t' ∧
      t'.freedom = t.freedom ∧ find t'.fields fieldId = some f := by
  have htable : ∀ {tableId' : TableId} {m : EStateM Exn Table Unit},
      (tableId = tableId' → (StateExcept.after m t).freedom = t.freedom ∧
        find (StateExcept.after m t).fields fieldId = some f) →
      ∃ t', find (StateExcept.after (withTable tableId' m) db).tables tableId = some t' ∧
        t'.freedom = t.freedom ∧ find t'.fields fieldId = some f := by
    intro tableId' m hm
    rw [find_after_withTable]
    by_cases hid : tableId = tableId'
    · rw [if_pos hid, ← hid, hfind]
      exact ⟨_, rfl, hm hid⟩
    · rw [if_neg hid]
      exact ⟨t, hfind, rfl, hfield⟩
  have ht := h.sound tableId t hfind
  cases op with
  | addField tableId' name type =>
      rw [Database.call, Database.addField, checkIdentifier]
      by_cases hname : isIdentifier name = false
      · rw [when_pos hname]
        exact ⟨t, hfind, rfl, hfield⟩
      · rw [when_neg hname]
        refine htable (m := Table.addField name type) fun _ => ?_
        cases hrun : Table.addField name type t with
        | error e t' =>
            obtain ⟨hfields, hfreedom, -⟩ := Table.addField_error hrun
            rw [after_error hrun, hfields]
            exact ⟨hfreedom, hfield⟩
        | ok u t' =>
            obtain ⟨-, hfreedom, -, hlt, g, -, -, hfields⟩ := Table.addField_ok ht hrun
            have hne : fieldId ≠ t.currentFieldId + 1 := fun heq =>
              absurd (h.sound tableId t hfind |>.given fieldId f hfield)
                (UInt16.not_le.mpr (heq ▸ hlt))
            rw [after_ok hrun, hfields, if_neg hne]
            exact ⟨hfreedom, hfield⟩
  | dropField tableId' fieldId' =>
      refine htable (m := Table.dropField fieldId') fun hid => ?_
      have hne : fieldId ≠ fieldId' := fun heq => hop ⟨hid.symm, heq.symm⟩
      cases hrun : Table.dropField fieldId' t with
      | error e t' =>
          have hspares : Spares (fun t t' => t' = t) (Table.dropField fieldId') :=
            spares_get_bind fun _ => spares_guard (spares_modify _)
          rw [after_error hrun, hspares t e t' hrun]
          exact ⟨rfl, hfield⟩
      | ok u t' =>
          obtain ⟨-, hfreedom, -, -, hfields⟩ := Table.dropField_ok ht hrun
          rw [after_ok hrun, hfields, if_neg hne]
          exact ⟨hfreedom, hfield⟩
  | _ => exact absurd hop id

/-- A new field: it has the next id, and the default of its type for every record. -/
def HasNewField (tableId : TableId) (type : FieldType) (db db' : Database) : Prop :=
  ∃ t t' f, find db.tables tableId = some t ∧ find db'.tables tableId = some t' ∧
    t'.freedom = t.freedom ∧ find t.fields (t.currentFieldId + 1) = none ∧
    find t'.fields (t.currentFieldId + 1) = some f ∧ ∀ ty, Ty.ofTypeId type.typeId = some ty →
      ∀ i < t.freedom.getSize, f.value i = some ⟨ty, ty.kind.default⟩

theorem Sound.newField (h : db.Sound) {tableId : TableId} {name : Bytes} {type : FieldType}
    (hdb : Database.call (.addField tableId name type) db = .ok () db') :
    HasNewField tableId type db db' := by
  obtain ⟨_, db₁, hcheck, hrest⟩ := bind_eq_ok hdb
  obtain rfl := checkIdentifier_ok hcheck
  obtain ⟨t, t', hfind, hrun, rfl⟩ := withTable_ok hrest
  have ht := h.sound tableId t hfind
  obtain ⟨-, hfreedom, -, hlt, f, hholds, hdefault, hfields⟩ := Table.addField_ok ht hrun
  refine ⟨t, t', f, hfind, find_assign hfind t', hfreedom, ?_, by rw [hfields, if_pos rfl],
    fun ty hty i _ => ?_⟩
  · cases hfield : find t.fields (t.currentFieldId + 1) with
    | none => rfl
    | some g => exact absurd (ht.given _ g hfield) (UInt16.not_le.mpr hlt)
  · obtain ⟨vs, hcolumn⟩ := Column.holds_eq_some.mp (hholds.trans hty)
    have hvalue := hdefault i
    rw [Field.value, hcolumn] at hvalue ⊢
    exact congrArg (fun v => some (Sigma.mk ty v)) (hvalue _ rfl)

/-! ## Runs -/

/-- What is done by a caller who catches what an operation throws. -/
def callEach (db : Database) (ops : List Op) : Database :=
  ops.foldl (fun db op => StateExcept.after (Database.call op) db) db

/-- Whether memory ran out, which is what a `length_error` says. -/
def outOfMemory : EStateM.Result Exn Database Unit → Bool
  | .error .lengthError _ => true
  | _ => false

/-- None of the operations runs out of memory. -/
def Allocates : Database → List Op → Prop
  | _, [] => True
  | db, op :: ops => outOfMemory (Database.call op db) = false ∧
      Allocates (StateExcept.after (Database.call op) db) ops

theorem Sound.callEach {ops : List Op} (h : db.Sound) (hmemory : db.Allocates ops) :
    (db.callEach ops).Sound := by
  induction ops generalizing db with
  | nil => exact h
  | cons op ops ih =>
      refine ih (h.after fun db' hrun => ?_) hmemory.2
      have hmemory := hmemory.1
      rw [hrun] at hmemory
      cases hmemory

/-- The sums of each operation of a run fit. -/
def SumsFit : Database → List Op → Prop
  | _, [] => True
  | db, op :: ops => db.SumFits op ∧ SumsFit (StateExcept.after (Database.call op) db) ops

/-- Whether an operation returned, or threw. -/
def isDefined : EStateM.Result Exn Database Unit → Bool
  | .error e _ => e.isDefined
  | .ok _ _ => true

/-- Each operation of a run returns or throws. -/
def Defined : Database → List Op → Prop
  | _, [] => True
  | db, op :: ops => isDefined (Database.call op db) = true ∧
      Defined (StateExcept.after (Database.call op) db) ops

theorem defined_of_sumsFit {ops : List Op} (h : db.SumsFit ops) : db.Defined ops := by
  induction ops generalizing db with
  | nil => trivial
  | cons op ops ih =>
      refine ⟨?_, ih h.2⟩
      cases hrun : Database.call op db with
      | ok u db' => rfl
      | error e db' => exact call_defined h.1 hrun

/-- The sizes of the columns and the records that are used, against the size of the keeper. -/
structure SizesAgree (db : Database) : Prop where
  columns : ∀ tableId t, find db.tables tableId = some t → ∀ fieldId f,
    find t.fields fieldId = some f → f.HasLength t.freedom.getSize
  used : ∀ tableId t, find db.tables tableId = some t → ∀ recordId,
    t.freedom.isUsed recordId = true → recordId < t.freedom.getSize

theorem Sound.sizesAgree (h : db.Sound) : db.SizesAgree :=
  ⟨fun tableId t hfind fieldId _ hfield =>
      (h.sound tableId t hfind).lengths (fieldId, _) (mem_of_find hfield),
    fun _ _ _ _ hused => (FreedomKeeper.lt_of_isUsed hused).2⟩

/-- What a run that there is memory for should keep: each operation returns or throws, the
columns have the size of the keeper and the used records are below it, a new field has the
default for every record, and a field keeps its column when another one is added or removed. -/
structure SizesFollow (db : Database) (ops : List Op) : Prop where
  defined : db.Defined ops
  sizesAgree : (db.callEach ops).SizesAgree
  newField : ∀ tableId name type db', Database.call (.addField tableId name type)
    (db.callEach ops) = .ok () db' → HasNewField tableId type (db.callEach ops) db'
  otherField : ∀ tableId t fieldId f op, find (db.callEach ops).tables tableId = some t →
    find t.fields fieldId = some f → OtherField tableId fieldId op →
    ∃ t', find (db.callEach (ops ++ [op])).tables tableId = some t' ∧
      t'.freedom = t.freedom ∧ find t'.fields fieldId = some f

/-- After any operations, thrown ones included, as long as there is memory and the sums of ids and
sizes fit. -/
theorem callEach_sizesAgree (maxRecordId : RecordId) (ops : List Op)
    (hmemory : (create maxRecordId).Allocates ops) (hsums : (create maxRecordId).SumsFit ops) :
    (create maxRecordId).SizesFollow ops := by
  have h : ((create maxRecordId).callEach ops).Sound := (sound_create maxRecordId).callEach hmemory
  refine ⟨defined_of_sumsFit hsums, h.sizesAgree, fun _ _ _ _ hdb => h.newField hdb,
    fun tableId t fieldId f op hfind hfield hop => ?_⟩
  rw [callEach, List.foldl_append]
  exact h.otherField hop hfind hfield

/-- An insertion whose sum is 1, which takes the second record out of use, a field that is added
behind a deletion, an insertion that makes it longer, and one that is refused. -/
theorem callEach_sizesAgree_refused :
    (create (-1)).SizesFollow [.createTable [0x74], .insertVector 1 0 2,
      .insertVector 1 2 (2 ^ 64 - 1), .deleteFrom 1 0,
      .addField 1 [0x66] (.plain (Ty.typeId .int8)), .insertInto 1 5, .insertInto 1 5] := by
  have hfull : ∀ t ∈ find ((create (-1)).callEach [.createTable [0x74], .insertVector 1 0 2]).tables
      1, (2 : Int) = t.freedom.getSize ∧ t.freedom.dense = true ∧
        t.freedom.dfk.usedSize = t.freedom.getSize ∧
        0 ≤ word (2 + (2 ^ 64 - 1 : Nat)) ∧ word (2 + (2 ^ 64 - 1 : Nat)) ≤ 2 := by
    decide +kernel
  exact callEach_sizesAgree (-1) _ ⟨by decide +kernel, by decide +kernel, by decide +kernel,
    by decide +kernel, by decide +kernel, by decide +kernel, by decide +kernel, trivial⟩
    ⟨trivial, fun _ _ _ _ => .inl (by decide), fun _ t hfind _ => .inr (hfull t hfind), trivial,
      trivial, fun _ _ _ => .inl (by decide), fun _ _ _ => .inl (by decide), trivial⟩

/-- The sum that the last insertion comes to is 1: nothing is resized, and there is no exception,
but the lists of the keeper are written behind their end. -/
theorem insertVector_behind_end :
    ¬ ∀ maxRecordId ops, (create maxRecordId).Allocates ops →
      (create maxRecordId).SizesFollow ops := by
  intro hall
  have hfollow := hall (-1) [.createTable [0x74], .insertVector 1 0 2, .deleteFrom 1 0,
    .insertVector 1 2 (2 ^ 64 - 1)] ⟨by decide +kernel, by decide +kernel, by decide +kernel,
      by decide +kernel, trivial⟩
  obtain ⟨-, -, -, hdefined, -⟩ := hfollow.defined
  exact absurd hdefined (by decide +kernel)

end Database

end Joedb
