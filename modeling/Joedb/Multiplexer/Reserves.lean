import Joedb.Packing.Runs

/-!
# Columns with room to spare

A vector that throws a `length_error` comes behind others that were resized already, so a column
may be longer than its table has records. Nothing looks behind the last record: what is there is
default values, and an insertion that makes the table larger puts the same values there, whether
they were there before or not. So whatever is done to the tables is done to what is left when
all that is cut off, provided that what throws has changed nothing else.
-/

namespace Joedb

open ByteFile Containers StateExcept

/-! ## Columns -/

namespace Column

def take (n : Nat) : Column → Column
  | monostate => .monostate
  | vector ty vs => .vector ty (vs.take n)

theorem holds_take (n : Nat) (c : Column) : (c.take n).holds = c.holds := by
  cases c <;> rfl

end Column

namespace Field

/-- The column without what is behind `n` values. -/
def trim (n : Nat) (f : Field) : Field :=
  ⟨f.type, f.column.take n, (Column.holds_take n f.column).trans f.holds⟩

/-- There are `n` values at least, and default ones behind them. -/
def Spare (n : Nat) (f : Field) : Prop :=
  match f.column with
  | .monostate => True
  | .vector ty vs => n ≤ vs.length ∧ ∀ v ∈ vs.drop n, v = ty.kind.default

theorem HasLength.spare {n : Nat} {f : Field} (h : f.HasLength n) : f.Spare n ∧ f.trim n = f := by
  obtain ⟨type, column, holds⟩ := f
  cases column with
  | monostate => exact ⟨trivial, rfl⟩
  | vector ty vs =>
      have hlen : vs.length = n := h
      have htake : vs.take n = vs := List.take_of_length_le (Nat.le_of_eq hlen)
      refine ⟨⟨Nat.le_of_eq hlen.symm, fun v hv => ?_⟩, ?_⟩
      · rw [List.drop_of_length_le (Nat.le_of_eq hlen)] at hv
        cases hv
      · simp only [trim, Column.take, htake]

theorem value_trim {n i : Nat} (hi : i < n) (f : Field) : (f.trim n).value i = f.value i := by
  obtain ⟨type, column, holds⟩ := f
  cases column with
  | monostate => rfl
  | vector ty vs =>
      show some (Sigma.mk ty ((vs.take n).getD i _)) = some (Sigma.mk ty (vs.getD i _))
      rw [List.getD_eq_getElem?_getD, List.getElem?_take_of_lt hi, List.getD_eq_getElem?_getD]

/-- A column that was resized, as it is and without what it had to spare. -/
theorem resize_trim {f f' : Field} {n size : Nat} (h : f.Spare n) (hle : n ≤ size)
    (hrun : resize size f = .ok () f') :
    resize size (f.trim n) = .ok () f' ∧ f'.HasLength size ∧ f'.Spare n ∧
      f'.trim n = f.trim n := by
  obtain ⟨type, column, holds⟩ := f
  cases column with
  | monostate =>
      obtain rfl := (EStateM.Result.ok.inj hrun).2
      exact ⟨rfl, trivial, trivial, rfl⟩
  | vector ty vs =>
      obtain ⟨hlen, hdefault⟩ := h
      by_cases hfits : size ≤ ty.maxSize
      · have hresize : resize size ⟨type, .vector ty vs, holds⟩
            = .ok () ⟨type, .vector ty (Containers.resize vs size ty.kind.default), holds⟩ :=
          if_pos hfits
        rw [hresize] at hrun
        obtain rfl := (EStateM.Result.ok.inj hrun).2
        have htake := take_resize (x := ty.kind.default) hlen hle
        refine ⟨?_, length_resize _ _ _, ⟨by rw [length_resize]; exact hle, fun v hv => ?_⟩, ?_⟩
        · have htrim : resize size ⟨type, .vector ty (vs.take n), holds⟩
              = .ok () ⟨type, .vector ty (Containers.resize (vs.take n) size ty.kind.default),
                holds⟩ := if_pos hfits
          refine htrim.trans ?_
          simp only [resize_take hlen hle hdefault]
        · exact (mem_drop_resize hv).elim (hdefault v) id
        · simp only [trim, Column.take, htake]
      · have hresize : resize size ⟨type, .vector ty vs, holds⟩
            = .error .lengthError ⟨type, .vector ty vs, holds⟩ := if_neg hfits
        rw [hresize] at hrun
        cases hrun

theorem put_trim {f f' : Field} {n i : Nat} {ty : Ty} {vs : List ty.Storage} (h : f.Spare n)
    (hin : i + vs.length ≤ n) (hrun : put ty (copyN · i vs) f = .ok () f') :
    put ty (copyN · i vs) (f.trim n) = .ok () (f'.trim n) ∧ f'.Spare n := by
  obtain ⟨type, column, holds⟩ := f
  cases column with
  | monostate => cases hrun
  | vector ty' xs =>
      by_cases hty : ty' = ty
      · subst hty
        have hput : put ty' (copyN · i vs) ⟨type, .vector ty' xs, holds⟩
            = .ok () ⟨type, .vector ty' (copyN xs i vs), holds⟩ := dif_pos rfl
        have htrim : put ty' (copyN · i vs) ⟨type, .vector ty' (xs.take n), holds⟩
            = .ok () ⟨type, .vector ty' (copyN (xs.take n) i vs), holds⟩ := dif_pos rfl
        rw [hput] at hrun
        obtain rfl := (EStateM.Result.ok.inj hrun).2
        obtain ⟨hlen, hdefault⟩ := h
        refine ⟨htrim.trans ?_, by rw [length_copyN]; exact hlen, by
          rw [drop_copyN hin]; exact hdefault⟩
        simp only [trim, Column.take, take_copyN hin]
      · have hput : put ty (copyN · i vs) ⟨type, .vector ty' xs, holds⟩
            = .error .badVariantAccess ⟨type, .vector ty' xs, holds⟩ := dif_neg hty
        rw [hput] at hrun
        cases hrun

/-- A column for `size` values, if its type has room for them. -/
theorem create_run {type : FieldType} {size : Nat}
    (h : ∀ ty, Ty.ofTypeId type.typeId = some ty → size ≤ ty.maxSize) :
    ∃ f, create type size = .ok f := by
  rw [create]
  split
  · exact ⟨_, rfl⟩
  · next ty hty =>
      rw [if_pos (h ty hty)]
      exact ⟨_, rfl⟩

end Field

/-! ## Tables -/

namespace Table

/-- The columns without what they have to spare. -/
def trim (t : Table) : Table :=
  { t with fields := t.fields.map fun e => (e.1, e.2.trim t.freedom.getSize) }

def Spare (t : Table) : Prop := ∀ e ∈ t.fields, e.2.Spare t.freedom.getSize

variable {t : Table}

theorem find_trim (t : Table) (fieldId : FieldId) :
    find t.trim.fields fieldId = (find t.fields fieldId).map (Field.trim t.freedom.getSize) :=
  find_map _ _ _

/-! ### Fields -/

/-- The constructor of a new field does not throw. -/
def AddsWhole (t : Table) (name : Bytes) (type : FieldType) : Prop :=
  t.findField name = 0 → t.currentFieldId ≠ 65535 →
    ∀ ty, Ty.ofTypeId type.typeId = some ty → t.freedom.getSize ≤ ty.maxSize

theorem commutes_addField (h : t.Spare) {name : Bytes} {type : FieldType}
    (hwhole : t.AddsWhole name type) : Commutes trim Spare (addField name type) t := by
  refine ⟨fun t' hrun => ?_, fun e t' hrun => ?_⟩
  · obtain ⟨hname, hmax, f, hf, rfl⟩ := addField_iff.mp hrun
    obtain ⟨hspare, htrim⟩ := (Field.create_ok hf).1.spare
    refine ⟨addField_iff.mpr ⟨hname, hmax, f, hf, ?_⟩,
      forall_mem_tryEmplace (P := Field.Spare t.freedom.getSize) h _ hspare⟩
    rw [trim, trim]
    simp only
    rw [map_tryEmplace (Field.trim t.freedom.getSize), htrim]
  · rw [addField, get_bind_run] at hrun
    by_cases hname : t.findField name ≠ 0
    · rw [when_pos hname] at hrun
      obtain ⟨-, rfl⟩ := EStateM.Result.error.inj hrun
      exact ⟨rfl, h⟩
    · rw [when_neg hname, pure_bind_run] at hrun
      by_cases hmax : t.currentFieldId = 65535
      · rw [when_pos hmax] at hrun
        obtain ⟨-, rfl⟩ := EStateM.Result.error.inj hrun
        exact ⟨rfl, h⟩
      · rw [when_neg hmax, pure_bind_run, modify_bind_run, get_bind_run] at hrun
        obtain ⟨f, hf⟩ := Field.create_run (hwhole (not_not.mp hname) hmax)
        simp only [hf] at hrun
        cases hrun

theorem commutes_dropField (h : t.Spare) (fieldId : FieldId) :
    Commutes trim Spare (dropField fieldId) t := by
  refine commutes_of_spares h (spares_get_bind fun _ => spares_guard (spares_modify _))
    fun t' hrun => ?_
  obtain ⟨hsome, rfl⟩ := dropField_iff.mp hrun
  refine ⟨dropField_iff.mpr ⟨?_, ?_⟩, fun e he => h e (List.mem_of_mem_filter he)⟩
  · rwa [find_trim, Option.isNone_map]
  · rw [trim, trim]
    simp only
    rw [map_erase (Field.trim t.freedom.getSize)]

theorem commutes_renameField (h : t.Spare) (fieldId : FieldId) (name : Bytes) :
    Commutes trim Spare (Database.renameFieldOf fieldId name) t := by
  refine commutes_of_spares h (spares_get_bind fun _ =>
    spares_guard (spares_guard (spares_modify _))) fun t' hrun => ?_
  obtain ⟨hsome, hname, rfl⟩ := renameFieldOf_iff.mp hrun
  exact ⟨renameFieldOf_iff.mpr ⟨hsome, hname, rfl⟩, h⟩

/-! ### Values -/

/-- Values that are put where there are records. -/
theorem withField_put_trim (h : t.Spare) {ty : Ty} {fieldId : FieldId} {i : Nat}
    (vs : List ty.Storage) (hin : i + vs.length ≤ t.freedom.getSize) {t' : Table}
    (hrun : withField fieldId (Field.put ty (copyN · i vs)) t = .ok () t') :
    withField fieldId (Field.put ty (copyN · i vs)) t.trim = .ok () t'.trim ∧ t'.Spare := by
  obtain ⟨f, f', hfield, hput, rfl⟩ := withField_eq_ok hrun
  obtain ⟨htrim, hspare⟩ := Field.put_trim (h _ (mem_of_find hfield)) hin hput
  refine ⟨?_, forall_mem_assign (P := Field.Spare t.freedom.getSize) h fieldId hspare⟩
  rw [withField, find_trim, hfield, Option.map_some]
  simp only [htrim]
  rw [trim, trim]
  simp only
  rw [map_assign (Field.trim t.freedom.getSize)]

theorem withField_pure_trim {fieldId : FieldId} {t' : Table}
    (hrun : withField fieldId (pure ()) t = .ok () t') :
    t' = t ∧ withField fieldId (pure ()) t.trim = .ok () t.trim := by
  obtain ⟨f, f', hfield, -, -⟩ := withField_eq_ok hrun
  refine ⟨withField_pure hrun, withField_pure_run (f := f.trim t.freedom.getSize) ?_⟩
  rw [find_trim, hfield, Option.map_some]

theorem commutes_update (h : t.Spare) (ty : Ty) (recordId : RecordId) (fieldId : FieldId)
    (value : ty.Arg) : Commutes trim Spare (update ty recordId fieldId value) t := by
  refine commutes_of_spares h (spares_update ty recordId fieldId value) fun t' hrun => ?_
  obtain ⟨_, t₁, hfield, hrest⟩ := bind_eq_ok hrun
  obtain ⟨rfl, hfield'⟩ := withField_pure_trim hfield
  obtain ⟨_, t₂, hcheck, hset⟩ := bind_eq_ok hrest
  obtain ⟨hused, rfl⟩ := checkRecordId_ok hcheck
  obtain ⟨hlo, hhi⟩ := FreedomKeeper.lt_of_isUsed hused
  obtain ⟨hput, hspare⟩ := withField_put_trim h [value.val]
    (by rw [List.length_singleton]; omega) hset
  refine ⟨?_, hspare⟩
  rw [update, bind_ok hfield', bind_ok (checkRecordId_used (t := t₂.trim) hused)]
  exact hput

theorem commutes_updateVector (h : t.Spare) (ty : Ty) (recordId : RecordId) (fieldId : FieldId)
    (values : List ty.Storage) :
    Commutes trim Spare (updateVector ty recordId fieldId values) t := by
  refine commutes_of_spares h (spares_updateVector ty recordId fieldId values) fun t' hrun => ?_
  obtain ⟨_, t₁, hfield, hrest⟩ := bind_eq_ok hrun
  obtain ⟨rfl, hfield'⟩ := withField_pure_trim hfield
  rw [updateVector, bind_ok hfield']
  by_cases hempty : values.length = 0
  · rw [if_pos hempty] at hrest ⊢
    obtain rfl := (EStateM.Result.ok.inj hrest).2
    exact ⟨rfl, h⟩
  · rw [if_neg hempty] at hrest ⊢
    obtain ⟨_, t₂, hfirst, hsecond⟩ := bind_eq_ok hrest
    obtain ⟨hused, rfl⟩ := checkRecordId_ok hfirst
    obtain ⟨_, t₃, hlast, hset⟩ := bind_eq_ok hsecond
    obtain ⟨hused', rfl⟩ := checkRecordId_ok hlast
    have hlo := (FreedomKeeper.lt_of_isUsed hused).1
    have hhi := (FreedomKeeper.lt_of_isUsed hused').2
    obtain ⟨hput, hspare⟩ := withField_put_trim h values (by omega) hset
    refine ⟨?_, hspare⟩
    rw [bind_ok (checkRecordId_used (t := t₃.trim) hused),
      bind_ok (checkRecordId_used (t := t₃.trim) hused')]
    exact hput

/-! ### Records -/

/-- What becomes of what a keeper says, when it says so of as many records. -/
theorem trim_freedom {k : FreedomKeeper} (hsize : k.getSize = t.freedom.getSize) :
    trim { t with freedom := k } = { t.trim with freedom := k } := by
  rw [trim, trim, hsize]

theorem Spare.freedom (h : t.Spare) {k : FreedomKeeper} (hsize : k.getSize = t.freedom.getSize) :
    Spare { t with freedom := k } := by
  intro e he
  rw [hsize]
  exact h e he

theorem commutes_deleteRecord (h : t.Spare) (recordId : RecordId) :
    Commutes trim Spare (deleteRecord recordId) t := by
  refine commutes_of_spares h (spares_get_bind fun _ => spares_guard (spares_modify _))
    fun t' hrun => ?_
  rw [deleteRecord, get_bind_run] at hrun
  obtain ⟨hused, hrun⟩ := guard_bind_eq_ok.mp hrun
  obtain rfl := (EStateM.Result.ok.inj hrun).2
  obtain ⟨hlo, hhi⟩ := FreedomKeeper.lt_of_isUsed (Bool.of_not_eq_false hused)
  have hsize : (t.freedom.free recordId).getSize = t.freedom.getSize :=
    congrArg Records.size (FreedomKeeper.records_free t.freedom hlo hhi)
  refine ⟨?_, h.freedom hsize⟩
  rw [trim_freedom hsize]
  exact guard_bind_eq_ok.mpr ⟨hused, rfl⟩

theorem commutes_deleteVector (h : t.Spare) (recordId : RecordId) (size : Nat) :
    Commutes trim Spare (deleteVector recordId size) t := by
  refine commutes_of_spares h (spares_get_bind fun _ => spares_guard (spares_modify _))
    fun t' hrun => ?_
  rw [deleteVector, get_bind_run] at hrun
  obtain ⟨hused, hrun⟩ := guard_bind_eq_ok.mp hrun
  obtain rfl := (EStateM.Result.ok.inj hrun).2
  obtain ⟨hlo, hhi, -⟩ := FreedomKeeper.isUsedVector_sound (Bool.of_not_eq_false hused)
  have hsize : (t.freedom.freeVector recordId size).getSize = t.freedom.getSize :=
    congrArg Records.size (FreedomKeeper.records_freeVector t.freedom hlo hhi)
  refine ⟨?_, h.freedom hsize⟩
  rw [trim_freedom hsize]
  exact guard_bind_eq_ok.mpr ⟨hused, rfl⟩

/-- Columns that were resized, all of them or those before one that could not be. -/
theorem resizeAll_trim {n size : Nat} (hle : n ≤ size) {fields : List (FieldId × Field)}
    (h : ∀ e ∈ fields, e.2.Spare n) :
    (∀ e ∈ (resizeAll size fields).1, e.2.Spare n) ∧
      (resizeAll size fields).1.map (fun e => (e.1, e.2.trim n))
        = fields.map (fun e => (e.1, e.2.trim n)) ∧
      ((resizeAll size fields).2 = none →
        resizeAll size (fields.map fun e => (e.1, e.2.trim n)) = ((resizeAll size fields).1, none) ∧
          ∀ e ∈ (resizeAll size fields).1, e.2.HasLength size) := by
  induction fields with
  | nil => exact ⟨h, rfl, fun _ => ⟨rfl, fun _ he => absurd he List.not_mem_nil⟩⟩
  | cons entry fields ih =>
      obtain ⟨id, f⟩ := entry
      obtain ⟨hf, hfields⟩ := List.forall_mem_cons.mp h
      obtain ⟨hspares, hsame, hall⟩ := ih hfields
      rw [List.map_cons]
      rcases Field.resize_cases size f with ⟨-, f', hrun, -⟩ | ⟨-, hrun⟩
      · obtain ⟨hrun', hlen, hspare, htrim⟩ := Field.resize_trim hf hle hrun
        have hcons : resizeAll size ((id, f) :: fields)
            = ((id, f') :: (resizeAll size fields).1, (resizeAll size fields).2) := by
          rw [resizeAll, hrun]
        rw [hcons]
        refine ⟨List.forall_mem_cons.mpr ⟨hspare, hspares⟩, ?_, fun hnone => ?_⟩
        · rw [List.map_cons, hsame, htrim]
        · obtain ⟨hrest, hlens⟩ := hall hnone
          refine ⟨?_, List.forall_mem_cons.mpr ⟨hlen, hlens⟩⟩
          rw [resizeAll, hrun']
          simp only [hrest]
      · have hcons : resizeAll size ((id, f) :: fields)
            = ((id, f) :: fields, some .lengthError) := by
          rw [resizeAll, hrun]
        rw [hcons]
        exact ⟨h, rfl, fun hnone => absurd hnone (Option.some_ne_none _)⟩

/-- The loop over the fields of a table, and over those without what they have to spare. -/
theorem resizeFields_trim (t : Table) {n : Nat} (size : Nat) (hle : n ≤ size)
    (h : ∀ e ∈ t.fields, e.2.Spare n) :
    ∃ fields, (∀ e ∈ fields, e.2.Spare n) ∧
      fields.map (fun e => (e.1, e.2.trim n)) = t.fields.map (fun e => (e.1, e.2.trim n)) ∧
      ((resizeFields size t = .ok () { t with fields := fields } ∧
          resizeFields size { t with fields := t.fields.map fun e => (e.1, e.2.trim n) }
            = .ok () { t with fields := fields } ∧ ∀ e ∈ fields, e.2.HasLength size) ∨
        ∃ e, resizeFields size t = .error e { t with fields := fields }) := by
  obtain ⟨hspares, hsame, hall⟩ := resizeAll_trim hle h
  refine ⟨(resizeAll size t.fields).1, hspares, hsame, ?_⟩
  rw [resizeFields, get_bind_run, set_bind_run]
  cases hend : (resizeAll size t.fields).2 with
  | none =>
      obtain ⟨htrim, hlens⟩ := hall hend
      refine .inl ⟨rfl, ?_, hlens⟩
      rw [get_bind_run, set_bind_run, htrim]
      rfl
  | some e => exact .inr ⟨e, rfl⟩

/-- Columns that are as long as a keeper says have nothing to spare. -/
theorem trim_of_length (h : ∀ e ∈ t.fields, e.2.HasLength t.freedom.getSize) :
    t.trim = t ∧ t.Spare := by
  refine ⟨?_, fun e he => (h e he).spare.1⟩
  have hmap : t.fields.map (fun e => (e.1, e.2.trim t.freedom.getSize)) = t.fields := by
    calc t.fields.map (fun e => (e.1, e.2.trim t.freedom.getSize))
      _ = t.fields.map id := List.map_congr_left fun e he => by rw [(h e he).spare.2]; rfl
      _ = t.fields := List.map_id _
  rw [trim, hmap]

theorem getSize_inserted {k : FreedomKeeper} {recordId : Int} (hlo : 0 ≤ recordId)
    (hge : k.getSize ≤ recordId) :
    ((pushBackUntil recordId k).use recordId).getSize = (recordId + 1).toNat := by
  have hsize : (pushBackUntil recordId k).getSize = max k.getSize (recordId + 1).toNat :=
    congrArg Records.size (records_pushBackUntil hge)
  have hused : ((pushBackUntil recordId k).use recordId).getSize
      = (pushBackUntil recordId k).getSize :=
    congrArg Records.size (FreedomKeeper.records_use _ hlo (by
      show recordId < ((pushBackUntil recordId k).getSize : Int)
      omega))
  omega

theorem commutes_insertRecord (h : t.Spare) {recordId : Int} (hlo : 0 ≤ recordId)
    (hsmall : recordId + 1 < 2 ^ 63) : Commutes trim Spare (insertRecord recordId) t := by
  by_cases hgrow : recordId ≥ t.freedom.getSize
  · have hge : (t.freedom.getSize : Int) ≤ recordId := hgrow
    have hend : ¬ recordId + 1 ≥ 2 ^ 63 := Int.not_le.mpr hsmall
    obtain ⟨fields, hspares, hsame, ⟨hok, htrim, hlens⟩ | ⟨e, herror⟩⟩ :=
      resizeFields_trim t (recordId + 1).toNat (by omega) h
    · obtain ⟨hcut, hspare⟩ := trim_of_length (t := { t with
          fields := fields, freedom := (pushBackUntil recordId t.freedom).use recordId }) (by
        rw [getSize_inserted hlo hge]
        exact hlens)
      refine commutes_ok ?_ ?_ hspare
      · rw [insertRecord, get_bind_run, if_pos hgrow, when_neg hend, pure_bind_run]
        exact bind_ok hok
      · rw [hcut, insertRecord, get_bind_run,
          if_pos (show recordId ≥ t.trim.freedom.getSize from hgrow), when_neg hend, pure_bind_run]
        exact bind_ok htrim
    · have hrun : insertRecord recordId t = .error e { t with fields := fields } := by
        rw [insertRecord, get_bind_run, if_pos hgrow, when_neg hend, pure_bind_run]
        exact bind_error herror
      refine commutes_error hrun ?_ hspares
      rw [trim, trim, hsame]
  · have hlt : recordId < t.freedom.getSize := Int.not_le.mp hgrow
    have hsize : (t.freedom.use recordId).getSize = t.freedom.getSize :=
      congrArg Records.size (FreedomKeeper.records_use t.freedom hlo hlt)
    by_cases hfree : t.freedom.isFree recordId = false
    · obtain ⟨e, hrun⟩ : ∃ e, insertRecord recordId t = .error e t := by
        rw [insertRecord, get_bind_run, if_neg hgrow, when_pos hfree]
        exact ⟨_, rfl⟩
      exact commutes_error hrun rfl h
    · refine commutes_ok ?_ ?_ (h.freedom hsize)
      · rw [insertRecord, get_bind_run, if_neg hgrow, when_neg hfree]
        rfl
      · rw [trim_freedom hsize, insertRecord, get_bind_run,
          if_neg (show ¬ recordId ≥ t.trim.freedom.getSize from hgrow),
          when_neg (show ¬ t.trim.freedom.isFree recordId = false from hfree)]
        rfl

/-- The loop of an insertion that gets to its end. -/
theorem insertRecords_trim {recordId : Int} {size : Nat} (h : t.Spare) (hlo : 0 ≤ recordId)
    (hsmall : recordId + size < 2 ^ 63) {t' : Table}
    (hrun : insertRecords recordId size t = .ok () t') :
    insertRecords recordId size t.trim = .ok () t'.trim ∧ t'.Spare := by
  induction size generalizing t recordId with
  | zero =>
      obtain rfl := (EStateM.Result.ok.inj hrun).2
      exact ⟨rfl, h⟩
  | succ size ih =>
      obtain ⟨_, t₁, hinsert, hrest⟩ := bind_eq_ok hrun
      obtain ⟨htrim, hspare⟩ := (commutes_insertRecord h hlo (by omega)).ok t₁ hinsert
      obtain ⟨htrim', hspare'⟩ := ih hspare (Int.le_add_one hlo) (by omega) hrest
      refine ⟨?_, hspare'⟩
      rw [insertRecords, bind_ok htrim]
      exact htrim'

/-- An insertion behind the last record has room in every column. -/
def GrowsWhole (t : Table) (recordId : RecordId) (size : Nat) : Prop :=
  t.freedom.isFreeVector recordId size = true → recordId = t.freedom.getSize →
    t.Fits (t.freedom.getSize + size)

/-- Behind the last record. -/
theorem commutes_insertVector_end (h : t.Spare) {recordId : Int} {size : Nat}
    (hfree : t.freedom.isFreeVector recordId size = true) (hend : recordId = t.freedom.getSize)
    (hsmall : recordId + size < 2 ^ 63) (hfits : t.Fits (t.freedom.getSize + size)) :
    Commutes trim Spare (insertVector recordId size) t := by
  have hlo := (FreedomKeeper.isFreeVector_sound hfree).1
  have hsize : (t.freedom.resize (t.freedom.getSize + size)).getSize = t.freedom.getSize + size :=
    (t.freedom.getSize_resize _).trans (Nat.max_eq_right (Nat.le_add_right _ _))
  have hused : ((t.freedom.resize (t.freedom.getSize + size)).useVector recordId size).getSize
      = t.freedom.getSize + size :=
    (congrArg Records.size (FreedomKeeper.records_useVector _ hlo (by
      show recordId + size ≤ ((t.freedom.resize (t.freedom.getSize + size)).getSize : Int)
      omega))).trans hsize
  obtain ⟨fields, -, -, ⟨hok, htrim, hlens⟩ | ⟨e, herror⟩⟩ :=
    resizeFields_trim { t with freedom := t.freedom.resize (t.freedom.getSize + size) }
      (n := t.freedom.getSize) (t.freedom.getSize + size) (Nat.le_add_right _ _) h
  · obtain ⟨hcut, hspare⟩ := trim_of_length (t := { t with
        fields := fields
        freedom := (t.freedom.resize (t.freedom.getSize + size)).useVector recordId size }) (by
      rw [hused]
      exact hlens)
    refine commutes_ok ?_ ?_ hspare
    · rw [insertVector_end hfree hend hsmall]
      exact bind_ok hok
    · rw [hcut, insertVector_end (t := t.trim) hfree hend hsmall]
      exact bind_ok htrim
  · obtain ⟨_, -, ⟨-, hok⟩ | ⟨hnot, -⟩⟩ := resizeFields_cases (t.freedom.getSize + size)
      { t with freedom := t.freedom.resize (t.freedom.getSize + size) }
    · rw [hok] at herror
      cases herror
    · exact absurd hfits hnot

theorem commutes_insertVector (h : t.Spare) {recordId : Int} {size : Nat}
    (hsmall : t.freedom.isFreeVector recordId size = true → recordId + size < 2 ^ 63)
    (hgrows : t.GrowsWhole recordId size) (hinserts : t.InsertsWhole recordId size) :
    Commutes trim Spare (insertVector recordId size) t := by
  cases hfree : t.freedom.isFreeVector recordId size with
  | false =>
      obtain ⟨e, hrun⟩ : ∃ e, insertVector recordId size t = .error e t := by
        rw [insertVector, get_bind_run, when_pos hfree]
        exact ⟨_, rfl⟩
      exact commutes_error hrun rfl h
  | true =>
      have hsmall := hsmall hfree
      obtain ⟨hlo, hunused⟩ := FreedomKeeper.isFreeVector_sound hfree
      by_cases hend : recordId = t.freedom.getSize
      · exact commutes_insertVector_end h hfree hend hsmall (hgrows hfree hend)
      · cases hrun : insertRecords recordId size t with
        | ok u t' =>
            obtain ⟨htrim, hspare⟩ := insertRecords_trim h hlo hsmall hrun
            refine commutes_ok ((insertVector_before hfree hend).trans hrun) ?_ hspare
            exact (insertVector_before (t := t.trim) hfree hend).trans htrim
        | error e t' =>
            -- the loop cannot stop behind the first record
            cases size with
            | zero => cases hrun
            | succ size =>
                rcases hinserts hfree hend (Nat.succ_ne_zero size) with hfit | ⟨hge, hnot⟩
                · obtain ⟨t'', hok⟩ := (insertRecords_ok_iff hlo hsmall hunused).mpr (.inr hfit)
                  rw [hok] at hrun
                  cases hrun
                · rcases insertRecord_free hlo (by omega)
                      (hunused recordId (by omega) (by omega)) with ⟨hfits, -⟩ | ⟨-, e', t₁, hfirst⟩
                  · exact absurd hfits fun h => h.elim (Int.not_lt.mpr hge) hnot
                  · obtain ⟨hcut, hspare⟩ :=
                      (commutes_insertRecord h hlo (by omega)).error e' t₁ hfirst
                    refine commutes_error (e := e') ?_ hcut hspare
                    rw [insertVector_before hfree hend, insertRecords]
                    exact bind_error hfirst

end Table

/-! ## Databases -/

namespace Database

def trim (db : Database) : Database :=
  { db with tables := db.tables.map fun e => (e.1, e.2.trim) }

def Spare (db : Database) : Prop := ∀ e ∈ db.tables, e.2.Spare

variable {db : Database}

theorem find_trim (db : Database) (tableId : TableId) :
    find db.trim.tables tableId = (find db.tables tableId).map Table.trim :=
  find_map _ _ _

theorem commutes_withTable (h : db.Spare) {tableId : TableId} {m : EStateM Exn Table Unit}
    (hm : ∀ t, find db.tables tableId = some t → Commutes Table.trim Table.Spare m t) :
    Commutes trim Spare (withTable tableId m) db := by
  have hassign : ∀ t', trim { db with tables := assign db.tables tableId t' }
      = { db.trim with tables := assign db.trim.tables tableId t'.trim } := fun t' => by
    rw [trim, trim]
    simp only
    rw [map_assign Table.trim]
  cases hfind : find db.tables tableId with
  | none =>
      obtain ⟨e, hrun⟩ : ∃ e, withTable tableId m db = .error e db := by
        rw [withTable, hfind]
        exact ⟨_, rfl⟩
      exact commutes_error hrun rfl h
  | some t =>
      obtain ⟨hok, herror⟩ := hm t hfind
      have hfind' : find db.trim.tables tableId = some t.trim := by
        rw [find_trim, hfind, Option.map_some]
      cases hrun : m t with
      | ok u t' =>
          obtain ⟨htrim, hspare⟩ := hok t' hrun
          refine commutes_ok (withTable_run hfind hrun) ?_
            (forall_mem_assign (P := Table.Spare) h tableId hspare)
          rw [hassign]
          exact withTable_run hfind' htrim
      | error e t' =>
          obtain ⟨hcut, hspare⟩ := herror e t' hrun
          have hthrown : withTable tableId m db
              = .error e { db with tables := assign db.tables tableId t' } := by
            rw [withTable, hfind]
            simp only [hrun]
          refine commutes_error hthrown ?_ (forall_mem_assign (P := Table.Spare) h tableId hspare)
          rw [hassign, hcut, assign_self hfind']

/-- What the journal can write of an operation: sizes have three bits less than their type, and
those of vectors count if the table takes the vector. -/
def Encodable (db : Database) : Op → Prop
  | .insertVector tableId recordId size => IdFits recordId ∧
      ((db.maxRecordId ≥ 0 → recordId < db.maxRecordId ∧ size < db.maxRecordId) →
        ∀ t, find db.tables tableId = some t → t.freedom.isFreeVector recordId size = true →
          SizeFits size)
  | .deleteVector tableId recordId size => IdFits recordId ∧
      ∀ t, find db.tables tableId = some t → t.freedom.isUsedVector recordId size = true →
        SizeFits size
  | op => op.Fits

/-- Where an operation may throw, it does so before it has changed anything that counts: a new
field has room for the records, and so has every column for records behind the last one. -/
def Whole (db : Database) : Op → Prop
  | .addField tableId name type => isIdentifier name = true →
      ∀ t, find db.tables tableId = some t → t.AddsWhole name type
  | .insertVector tableId recordId size =>
      (db.maxRecordId ≥ 0 → recordId < db.maxRecordId ∧ size < db.maxRecordId) →
        ∀ t, find db.tables tableId = some t →
          t.GrowsWhole recordId size ∧ t.InsertsWhole recordId size
  | _ => True

theorem commutes_createTable (h : db.Spare) (name : Bytes) :
    Commutes trim Spare (createTable name) db := by
  refine commutes_of_spares h ?_ fun db' hrun => ?_
  · refine spares_guard (spares_get_bind fun _ => spares_guard (spares_guard ?_))
    exact fun _ _ _ hrun => (by cases hrun)
  · obtain ⟨hname, hused, hmax, rfl⟩ := createTable_iff.mp hrun
    refine ⟨createTable_iff.mpr ⟨hname, hused, hmax, ?_⟩,
      forall_mem_tryEmplace (P := Table.Spare) h _ fun e he => nomatch he⟩
    rw [trim, trim]
    simp only
    rw [map_tryEmplace Table.trim]
    rfl

theorem commutes_dropTable (h : db.Spare) (tableId : TableId) :
    Commutes trim Spare (dropTable tableId) db := by
  refine commutes_of_spares h (spares_get_bind fun _ => spares_guard (spares_modify _))
    fun db' hrun => ?_
  obtain ⟨hsome, rfl⟩ := dropTable_iff.mp hrun
  refine ⟨dropTable_iff.mpr ⟨?_, ?_⟩, fun e he => h e (List.mem_of_mem_filter he)⟩
  · rwa [find_trim, Option.isNone_map]
  · rw [trim, trim]
    simp only
    rw [map_erase Table.trim]

theorem commutes_renameTable (h : db.Spare) (tableId : TableId) (name : Bytes) :
    Commutes trim Spare (renameTable tableId name) db := by
  refine commutes_of_spares h ?_ fun db' hrun => ?_
  · refine spares_guard (spares_get_bind fun _ => spares_guard (spares_then ?_ ?_))
    · intro d e d' hrun
      obtain ⟨-, rfl⟩ | ⟨_, _, _, hthrown, -⟩ := withTable_error hrun
      · rfl
      · cases hthrown
    · exact fun _ _ _ _ hrun => (by cases hrun)
  · obtain ⟨hname, hused, hsome, rfl⟩ := renameTable_iff.mp hrun
    refine ⟨renameTable_iff.mpr ⟨hname, hused, ?_, rfl⟩, h⟩
    rwa [find_trim, Option.isSome_map]

theorem commutes_call (h : db.Spare) {op : Op} (hencodable : db.Encodable op)
    (hwhole : db.Whole op) : Commutes trim Spare (call op) db := by
  have hspare : ∀ {tableId : TableId} {t : Table}, find db.tables tableId = some t → t.Spare :=
    fun hfind => h _ (mem_of_find hfind)
  cases op with
  | createTable name => exact commutes_createTable h name
  | dropTable t => exact commutes_dropTable h t
  | renameTable t name => exact commutes_renameTable h t name
  | addField t name type =>
      refine commutes_guard h fun hname => commutes_withTable h fun t hfind => ?_
      exact Table.commutes_addField (hspare hfind)
        (hwhole (Bool.of_not_eq_false hname) t hfind)
  | dropField t f =>
      exact commutes_withTable h fun t hfind => Table.commutes_dropField (hspare hfind) f
  | renameField t f name =>
      refine commutes_guard h fun _ => commutes_withTable h fun t hfind => ?_
      exact Table.commutes_renameField (hspare hfind) f name
  | insertInto t r =>
      refine commutes_get_guard h .rfl fun hout => commutes_withTable h fun t hfind => ?_
      exact Table.commutes_insertRecord (hspare hfind)
        (Int.not_lt.mp fun hneg => hout (.inl hneg))
        (Int.lt_trans (Int.add_lt_add_right hencodable.2 1) (by decide))
  | insertVector t r size =>
      refine commutes_get_guard h .rfl fun hout => commutes_withTable h fun t hfind => ?_
      have hpasses : db.maxRecordId ≥ 0 → r < db.maxRecordId ∧ size < db.maxRecordId :=
        fun hge => not_not.mp fun hlt => hout ⟨hge, hlt⟩
      obtain ⟨hgrows, hinserts⟩ := hwhole hpasses t hfind
      refine Table.commutes_insertVector (hspare hfind) (fun hfree => ?_) hgrows hinserts
      have hsize : size < 2 ^ 61 := hencodable.2 hpasses t hfind hfree
      exact Int.lt_trans (Int.add_lt_add hencodable.1.2 (Int.ofNat_lt.mpr hsize)) (by decide)
  | deleteFrom t r =>
      exact commutes_withTable h fun t hfind => Table.commutes_deleteRecord (hspare hfind) r
  | deleteVector t r size =>
      exact commutes_withTable h fun t hfind => Table.commutes_deleteVector (hspare hfind) r size
  | update ty t r f v =>
      exact commutes_withTable h fun t hfind => Table.commutes_update (hspare hfind) ty r f v
  | updateVector ty t r f vs =>
      exact commutes_withTable h fun t hfind =>
        Table.commutes_updateVector (hspare hfind) ty r f vs
  | _ => exact commutes_ok rfl rfl h

end Database

end Joedb
