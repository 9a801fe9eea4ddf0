import Joedb.Interpreted.DatabaseSpec
import Joedb.Packing.Listening

/-!
# The schema of a database

The tables and fields with their names, types and ids, in the order of the maps. What is
done to records leaves it as it is, and what is done to the schema depends on it alone.
So a database without records that hears only the schema operations of a journal has the
schema of one that has heard everything.

On the way: columns stay below the limit of their vectors, and hold what fits into a
journal if they are given nothing else.
-/

namespace Joedb

open ByteFile Containers StateExcept

structure TableSchema where
  types : List (FieldId × FieldType)
  names : List (FieldId × Bytes)
  current : FieldId
  deriving DecidableEq

structure Schema where
  tables : List (TableId × TableSchema)
  names : List (TableId × Bytes)
  current : TableId
  deriving DecidableEq

def Table.schema (t : Table) : TableSchema :=
  ⟨t.fields.map fun e => (e.1, e.2.type), t.fieldNames, t.currentFieldId⟩

def Database.schema (db : Database) : Schema :=
  ⟨db.tables.map fun e => (e.1, e.2.schema), db.tableNames, db.currentTableId⟩

/-! ## Fields -/

theorem Kind.fits_default (ty : Ty) : ty.kind.Fits ty.kind.default := by
  cases ty with
  | string => exact (by decide : 0 < 2 ^ 61)
  | reference => exact (by decide : (-1 : Int) ≤ -1 ∧ (-1 : Int) < 2 ^ 61 - 1)
  | blob =>
      exact (by decide : (0 : Int) ≤ 0 ∧ (0 : Int) < 2 ^ 61 ∧ (0 : Int) ≤ 0 ∧ (0 : Int) < 2 ^ 61)
  | _ => trivial

theorem mem_resize {α : Type} {xs : List α} {n : Nat} {x v : α}
    (h : v ∈ Containers.resize xs n x) : v ∈ xs ∨ v = x := by
  rcases List.mem_append.mp h with h | h
  · exact .inl (List.mem_of_mem_take h)
  · exact .inr (List.eq_of_mem_replicate h)

theorem mem_copyN {α : Type} {xs vs : List α} {i : Nat} {v : α} (h : v ∈ copyN xs i vs) :
    v ∈ xs ∨ v ∈ vs := by
  induction vs generalizing xs i with
  | nil => exact .inl h
  | cons w vs ih =>
      rcases ih h with h | h
      · rcases List.mem_or_eq_of_mem_set h with h | rfl
        · exact .inl h
        · exact .inr List.mem_cons_self
      · exact .inr (List.mem_cons_of_mem _ h)

namespace Field

/-- Not too long, and nothing that a journal could not hold. -/
def Regular (f : Field) : Prop :=
  match f.column with
  | .monostate => True
  | .vector ty vs => vs.length ≤ ty.maxSize ∧ ∀ v ∈ vs, ty.kind.Fits v

def Kept (f f' : Field) : Prop := f'.type = f.type ∧ (f.Regular → f'.Regular)

theorem Kept.refl (f : Field) : Kept f f := ⟨rfl, id⟩

theorem resize_kept (size : Nat) : Keeps Kept (resize size) := by
  rintro ⟨type, column, holds⟩
  cases column with
  | monostate => exact Kept.refl _
  | vector ty vs =>
      rw [after, resize]
      simp only
      split
      · next hsize =>
          split at hsize
          · next hle =>
              obtain rfl := (EStateM.Result.ok.inj hsize).2
              refine ⟨rfl, fun h => ⟨?_, fun v hv => ?_⟩⟩
              · rw [length_resize]
                exact hle
              · rcases mem_resize hv with hv | rfl
                · exact h.2 v hv
                · exact Kind.fits_default ty
          · cases hsize
      · next hsize =>
          split at hsize
          · cases hsize
          · obtain rfl := (EStateM.Result.error.inj hsize).2
            exact Kept.refl _

theorem put_kept {ty : Ty} {g : List ty.Storage → List ty.Storage}
    (hlen : ∀ vs, (g vs).length = vs.length)
    (hg : ∀ vs, (∀ v ∈ vs, ty.kind.Fits v) → ∀ v ∈ g vs, ty.kind.Fits v) :
    Keeps Kept (put ty g) := by
  rintro ⟨type, column, holds⟩
  cases column with
  | monostate => exact Kept.refl _
  | vector ty' vs =>
      by_cases hty : ty' = ty
      · subst hty
        have hput : put ty' g ⟨type, .vector ty' vs, holds⟩
            = .ok () ⟨type, .vector ty' (g vs), holds⟩ := by
          rw [put]
          simp only
          rw [dif_pos trivial]
        rw [after_ok hput]
        refine ⟨rfl, fun h => ⟨?_, hg vs h.2⟩⟩
        rw [hlen]
        exact h.1
      · rw [after, put]
        simp only [dif_neg hty]
        exact Kept.refl _

theorem set_kept (ty : Ty) (recordId : RecordId) {value : ty.Storage}
    (hvalue : ty.kind.Fits value) : Keeps Kept (set ty recordId value) :=
  put_kept (fun _ => List.length_set) fun _ hvs v hv =>
    (List.mem_or_eq_of_mem_set hv).elim (hvs v) fun h => h ▸ hvalue

theorem setVector_kept (ty : Ty) (recordId : RecordId) {values : List ty.Storage}
    (hvalues : ∀ v ∈ values, ty.kind.Fits v) : Keeps Kept (setVector ty recordId values) :=
  put_kept (fun vs => length_copyN vs _ _) fun _ hvs v hv =>
    (mem_copyN hv).elim (hvs v) (hvalues v)

theorem getOwnStorage_kept (ty : Ty) : Keeps Kept (getOwnStorage ty) := by
  rintro ⟨type, column, holds⟩
  cases column with
  | monostate => exact Kept.refl _
  | vector ty' vs =>
      rw [after, getOwnStorage]
      simp only
      split
      · next h =>
          split at h
          · obtain rfl := (EStateM.Result.ok.inj h).2
            exact Kept.refl _
          · cases h
      · next h =>
          split at h
          · cases h
          · obtain rfl := (EStateM.Result.error.inj h).2
            exact Kept.refl _

theorem create_regular {type : FieldType} {size : Nat} {f : Field}
    (h : create type size = .ok f) : f.Regular ∧ f.type = type := by
  rw [create] at h
  split at h
  · cases h
    exact ⟨trivial, rfl⟩
  · next ty hty =>
      split at h
      · next hle =>
          cases h
          refine ⟨⟨?_, fun v hv => ?_⟩, rfl⟩
          · rw [List.length_replicate]
            exact hle
          · rw [List.eq_of_mem_replicate hv]
            exact Kind.fits_default ty
      · cases h

/-- There is always room for nothing. -/
theorem create_empty (type : FieldType) : ∃ f, create type 0 = .ok f := by
  rw [create]
  split
  · exact ⟨_, rfl⟩
  · rw [if_pos (Nat.zero_le _)]
    exact ⟨_, rfl⟩

end Field

/-! ## Tables -/

namespace Table

def Regular (t : Table) : Prop := ∀ e ∈ t.fields, e.2.Regular

def Kept (t t' : Table) : Prop := t'.schema = t.schema ∧ (t.Regular → t'.Regular)

theorem Kept.refl (t : Table) : Kept t t := ⟨rfl, id⟩

theorem Kept.trans (a b c : Table) (h : Kept a b) (h' : Kept b c) : Kept a c :=
  ⟨h'.1.trans h.1, fun hr => h'.2 (h.2 hr)⟩

theorem kept_bind {α β : Type} {m : EStateM Exn Table α} {f : α → EStateM Exn Table β}
    (hm : Keeps Kept m) (hf : ∀ a, Keeps Kept (f a)) : Keeps Kept (m >>= f) :=
  keeps_bind Kept.trans hm hf

theorem kept_get : Keeps Kept (get : EStateM Exn Table Table) := keeps_get Kept.refl

theorem kept_guard {c : Prop} [Decidable c] (e : Exn) :
    Keeps Kept (when c (throw e) : EStateM Exn Table Unit) :=
  keeps_when Kept.refl (keeps_throw Kept.refl e)

theorem kept_freedom (g : Table → FreedomKeeper) :
    Keeps Kept (modify fun t => { t with freedom := g t } : EStateM Exn Table Unit) :=
  keeps_modify fun _ => ⟨rfl, id⟩

theorem withField_kept {α : Type} {fieldId : FieldId} {m : EStateM Exn Field α}
    (hm : Keeps Field.Kept m) : Keeps Kept (withField fieldId m) := by
  intro t
  have hassign : ∀ f f', find t.fields fieldId = some f → Field.Kept f f' →
      Kept t { t with fields := assign t.fields fieldId f' } := by
    intro f f' hfind hf
    refine ⟨?_, fun h => forall_mem_assign h fieldId (hf.2 (h _ (mem_of_find hfind)))⟩
    have htypes : (assign t.fields fieldId f').map (fun e => (e.1, e.2.type))
        = t.fields.map fun e => (e.1, e.2.type) := by
      rw [map_assign Field.type, hf.1]
      exact assign_self (by rw [find_map Field.type, hfind]; rfl)
    rw [schema, schema, htypes]
  obtain hsame | ⟨f, hfind, hafter⟩ := after_withField fieldId m t
  · rw [hsame]
    exact Kept.refl t
  · rw [hafter]
    exact hassign f _ hfind (hm f)

theorem checkRecordId_kept (recordId : RecordId) : Keeps Kept (checkRecordId recordId) :=
  kept_bind kept_get fun _ => kept_guard _

theorem resizeAll_kept (size : Nat) (fields : List (FieldId × Field)) :
    ((resizeAll size fields).1.map fun e => (e.1, e.2.type))
        = fields.map (fun e => (e.1, e.2.type)) ∧
      ((∀ e ∈ fields, e.2.Regular) → ∀ e ∈ (resizeAll size fields).1, e.2.Regular) := by
  induction fields with
  | nil => exact ⟨rfl, id⟩
  | cons e fields ih =>
      obtain ⟨id, f⟩ := e
      have hf := Field.resize_kept size f
      rw [after] at hf
      rw [resizeAll]
      cases hresize : Field.resize size f with
      | ok u f' =>
          rw [hresize] at hf
          refine ⟨?_, fun h => ?_⟩
          · exact List.cons_eq_cons.mpr ⟨Prod.ext rfl hf.1, ih.1⟩
          · obtain ⟨hhead, htail⟩ := List.forall_mem_cons.mp h
            exact List.forall_mem_cons.mpr ⟨hf.2 hhead, ih.2 htail⟩
      | error e f' =>
          rw [hresize] at hf
          refine ⟨?_, fun h => ?_⟩
          · exact List.cons_eq_cons.mpr ⟨Prod.ext rfl hf.1, rfl⟩
          · obtain ⟨hhead, htail⟩ := List.forall_mem_cons.mp h
            exact List.forall_mem_cons.mpr ⟨hf.2 hhead, htail⟩

theorem resizeFields_kept (size : Nat) : Keeps Kept (resizeFields size) := by
  intro t
  have hall := resizeAll_kept size t.fields
  have hset : Kept t { t with fields := (resizeAll size t.fields).1 } := by
    refine ⟨?_, hall.2⟩
    rw [schema, schema, hall.1]
  rw [after, resizeFields, get_bind_run]
  cases (resizeAll size t.fields).2 with
  | none => exact hset
  | some e => exact hset

theorem insertRecord_kept (recordId : RecordId) : Keeps Kept (insertRecord recordId) :=
  kept_bind kept_get fun _ => keeps_ite
    (kept_bind (kept_guard _) fun _ => kept_bind (resizeFields_kept _) fun _ =>
      kept_bind (kept_freedom _) fun _ => kept_freedom _)
    (kept_bind (kept_guard _) fun _ => kept_freedom _)

theorem insertRecords_kept (recordId : RecordId) (size : Nat) :
    Keeps Kept (insertRecords recordId size) := by
  induction size generalizing recordId with
  | zero => exact keeps_pure Kept.refl ()
  | succ size ih => exact kept_bind (insertRecord_kept recordId) fun _ => ih _

theorem useVector_kept (recordId : RecordId) (size : Nat) :
    Keeps Kept (useVector recordId size) := by
  intro t
  obtain ⟨freedom, hafter⟩ := after_useVector recordId size t
  rw [hafter]
  exact kept_freedom (fun _ => freedom) t

theorem insertVector_kept (recordId : RecordId) (size : Nat) :
    Keeps Kept (insertVector recordId size) :=
  kept_bind kept_get fun _ => kept_bind (kept_guard _) fun _ => keeps_ite
    (kept_bind (kept_freedom _) fun _ => kept_bind kept_get fun _ =>
      kept_bind (resizeFields_kept _) fun _ => useVector_kept recordId size)
    (insertRecords_kept recordId size)

theorem deleteRecord_kept (recordId : RecordId) : Keeps Kept (deleteRecord recordId) :=
  kept_bind kept_get fun _ => kept_bind (kept_guard _) fun _ => kept_freedom _

theorem deleteVector_kept (recordId : RecordId) (size : Nat) :
    Keeps Kept (deleteVector recordId size) :=
  kept_bind kept_get fun _ => kept_bind (kept_guard _) fun _ => kept_freedom _

theorem withField_pure_kept (fieldId : FieldId) : Keeps Kept (withField fieldId (pure ())) :=
  withField_kept (keeps_pure Field.Kept.refl ())

theorem update_kept {ty : Ty} {value : ty.Arg} (hvalue : ty.kind.Fits value.val)
    (recordId : RecordId) (fieldId : FieldId) : Keeps Kept (update ty recordId fieldId value) :=
  kept_bind (withField_pure_kept _) fun _ => kept_bind (checkRecordId_kept _) fun _ =>
    withField_kept (Field.set_kept ty recordId hvalue)

theorem updateVector_kept {ty : Ty} {values : List ty.Storage}
    (hvalues : ∀ v ∈ values, ty.kind.Fits v) (recordId : RecordId) (fieldId : FieldId) :
    Keeps Kept (updateVector ty recordId fieldId values) :=
  kept_bind (withField_pure_kept _) fun _ => keeps_ite (keeps_pure Kept.refl ())
    (kept_bind (checkRecordId_kept _) fun _ => kept_bind (checkRecordId_kept _) fun _ =>
      withField_kept (Field.setVector_kept ty recordId hvalues))

theorem getOwnStorage_kept (ty : Ty) (fieldId : FieldId) :
    Keeps Kept (getOwnStorage ty fieldId) :=
  kept_bind kept_get fun _ => kept_bind (withField_kept (Field.getOwnStorage_kept ty)) fun _ =>
    keeps_pure Kept.refl _

end Table

/-! ## Databases -/

namespace Database

def Regular (db : Database) : Prop := ∀ e ∈ db.tables, e.2.Regular

def Kept (db db' : Database) : Prop := db'.schema = db.schema ∧ (db.Regular → db'.Regular)

theorem Kept.refl (db : Database) : Kept db db := ⟨rfl, id⟩

theorem Kept.trans (a b c : Database) (h : Kept a b) (h' : Kept b c) : Kept a c :=
  ⟨h'.1.trans h.1, fun hr => h'.2 (h.2 hr)⟩

theorem kept_bind {α β : Type} {m : EStateM Exn Database α} {f : α → EStateM Exn Database β}
    (hm : Keeps Kept m) (hf : ∀ a, Keeps Kept (f a)) : Keeps Kept (m >>= f) :=
  keeps_bind Kept.trans hm hf

theorem kept_guard {c : Prop} [Decidable c] (e : Exn) :
    Keeps Kept (when c (throw e) : EStateM Exn Database Unit) :=
  keeps_when Kept.refl (keeps_throw Kept.refl e)

theorem withTable_kept {α : Type} {tableId : TableId} {m : EStateM Exn Table α}
    (hm : Keeps Table.Kept m) : Keeps Kept (withTable tableId m) := by
  intro db
  cases hfind : find db.tables tableId with
  | none =>
      rw [after, withTable, hfind]
      exact Kept.refl db
  | some t =>
      rw [after_withTable hfind]
      have ht := hm t
      refine ⟨?_, fun h => forall_mem_assign h tableId (ht.2 (h _ (mem_of_find hfind)))⟩
      have htables : (assign db.tables tableId (after m t)).map (fun e => (e.1, e.2.schema))
          = db.tables.map fun e => (e.1, e.2.schema) := by
        rw [map_assign Table.schema, ht.1]
        exact assign_self (by rw [find_map Table.schema, hfind]; rfl)
      rw [schema, schema, htables]

/-- What is done to records leaves the schema. -/
theorem call_kept {op : Op} (hop : op.isSchema = false) (hfit : op.Fits) :
    Keeps Kept (call op) := by
  cases op with
  | insertInto t r =>
      exact kept_bind (keeps_get Kept.refl) fun _ => kept_bind (kept_guard _) fun _ =>
        withTable_kept (Table.insertRecord_kept r)
  | insertVector t r size =>
      exact kept_bind (keeps_get Kept.refl) fun _ => kept_bind (kept_guard _) fun _ =>
        withTable_kept (Table.insertVector_kept r size)
  | deleteFrom t r => exact withTable_kept (Table.deleteRecord_kept r)
  | deleteVector t r size => exact withTable_kept (Table.deleteVector_kept r size)
  | update ty t r f v => exact withTable_kept (Table.update_kept hfit.2 r f)
  | updateVector ty t r f vs => exact withTable_kept (Table.updateVector_kept hfit.2.2 r f)
  | comment c => exact keeps_pure Kept.refl ()
  | timestamp ts => exact keeps_pure Kept.refl ()
  | validData => exact keeps_pure Kept.refl ()
  | writeBlob data => exact keeps_pure Kept.refl ()
  | _ => cases hop

theorem hear_kept {op : Op} (hop : op.isSchema = false) (hfit : op.Fits) :
    Keeps Kept (asWritable.hear op) := by
  have hcall := call_kept hop hfit
  cases op with
  | updateVector ty t r f vs =>
      refine keeps_when Kept.refl (kept_bind (withTable_kept (Table.getOwnStorage_kept ty f))
        fun capacity => kept_bind (kept_guard _) fun _ => kept_bind
          (keeps_when Kept.refl (keeps_modify fun db => ?_)) fun _ => hcall)
      exact withTable_kept (Table.withField_kept (Field.setVector_kept ty _ hfit.2.2)) db
  | writeBlob data => exact keeps_pure Kept.refl ()
  | _ => exact hcall

end Database

end Joedb
